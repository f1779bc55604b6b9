import KernelModules.AccessControl.SkippedPaths
import KernelModules.Foundation.SharedHeap

/-!
# The hooks with their pointers

The functions of `MP4/mp4.c` as programs over a heap that holds the credentials, their security
structures and the buffers, and that counts the references to dentries. Each program takes the
steps of its function in their order: every `kmalloc`, `kfree`, `dput` and every pointer that is
followed.

For each function one result says what it ensures with the memory that it owns (`ensures_…`): its
outcome is the one of the function on values, and what is left of its memory.
`mp4_inode_permission` is left with the buffer of the path, which it never frees.
-/

set_option autoImplicit false
set_option relaxedAutoImplicit false

namespace KernelModules.AccessControl

open Foundation

/-- A block of kernel memory: a `struct cred` with its pointer `security`, a `struct mp4_security`,
or a buffer. -/
inductive KernelBlock
  | cred (security : Option ℕ)
  | security (msec : Mp4Security)
  | buffer (mem : Memory)

/-! ### Credentials in memory -/

/-- The blocks hold a credential at the address, with its security structure. -/
inductive HoldsCred (blocks : ℕ → Option KernelBlock) (c : ℕ) : Cred → Prop
  | null : blocks c = some (.cred none) → HoldsCred blocks c ⟨none⟩
  | structured {a : ℕ} {msec : Mp4Security} : blocks c = some (.cred (some a)) →
      blocks a = some (.security msec) → HoldsCred blocks c ⟨some msec⟩

/-- The blocks are those of the credential at the address. -/
def OnlyCred (blocks : ℕ → Option KernelBlock) (c : ℕ) : Prop :=
  ∀ a content, blocks a = some content → a = c ∨ blocks c = some (.cred (some a))

/-- The pointer of a credential without a structure is NULL. -/
theorem HoldsCred.pointer_eq_none {blocks : ℕ → Option KernelBlock} {c : ℕ}
    (hc : HoldsCred blocks c ⟨none⟩) : blocks c = some (.cred none) := by
  cases hc
  assumption

/-- A credential without a structure stands alone. -/
theorem OnlyCred.eq_of_null {blocks : ℕ → Option KernelBlock} {c : ℕ} (honly : OnlyCred blocks c)
    (hc : blocks c = some (.cred none)) {a : ℕ} {content : KernelBlock}
    (ha : blocks a = some content) : a = c := by
  refine (honly a content ha).resolve_right fun hpointer ↦ ?_
  rw [hc] at hpointer
  cases hpointer

/-- The blocks of a credential are itself and its structure. -/
theorem OnlyCred.cases {blocks : ℕ → Option KernelBlock} {c : ℕ} {cred : Cred}
    (honly : OnlyCred blocks c) (hc : HoldsCred blocks c cred) {a : ℕ} {content : KernelBlock}
    (ha : blocks a = some content) :
    (a = c ∧ ∃ pointer, content = .cred pointer) ∨
      (blocks c = some (.cred (some a)) ∧ ∃ msec, content = .security msec) := by
  rcases honly a content ha with rfl | hfrom
  · cases hc with
    | null hnull => exact Or.inl ⟨rfl, _, Option.some.inj (ha.symm.trans hnull)⟩
    | structured hpointer _ => exact Or.inl ⟨rfl, _, Option.some.inj (ha.symm.trans hpointer)⟩
  · cases hc with
    | null hnull => cases hfrom.symm.trans hnull
    | structured hpointer hmsec =>
      cases hfrom.symm.trans hpointer
      exact Or.inr ⟨hfrom, _, Option.some.inj (ha.symm.trans hmsec)⟩

/-- A credential gets a new structure. -/
theorem OnlyCred.attach {blocks : ℕ → Option KernelBlock} {c a : ℕ} (honly : OnlyCred blocks c)
    (hc : blocks c = some (.cred none)) (ha : blocks a = none) (msec : Mp4Security) :
    let later := Function.update (Function.update blocks a (some (.security msec))) c
      (some (.cred (some a)))
    HoldsCred later c ⟨some msec⟩ ∧ OnlyCred later c := by
  have hne : a ≠ c := by
    intro heq
    rw [heq, hc] at ha
    cases ha
  refine ⟨.structured (Function.update_self ..) ?_, fun b content hb ↦ ?_⟩
  · rw [Function.update_of_ne hne, Function.update_self]
  · by_cases hbc : b = c
    · exact Or.inl hbc
    · by_cases hba : b = a
      · rw [hba, Function.update_self]
        exact Or.inr rfl
      · rw [Function.update_of_ne hbc, Function.update_of_ne hba] at hb
        exact Or.inl (honly.eq_of_null hc hb)

/-- The structure of a credential gets other contents. -/
theorem OnlyCred.relabel {blocks : ℕ → Option KernelBlock} {c a : ℕ} {msec : Mp4Security}
    (honly : OnlyCred blocks c) (hc : blocks c = some (.cred (some a)))
    (ha : blocks a = some (.security msec)) (changed : Mp4Security) :
    let later := Function.update blocks a (some (.security changed))
    HoldsCred later c ⟨some changed⟩ ∧ OnlyCred later c := by
  have hne : c ≠ a := by
    intro heq
    rw [← heq, hc] at ha
    cases ha
  have hlater : Function.update blocks a (some (.security changed)) c = some (.cred (some a)) := by
    rw [Function.update_of_ne hne, hc]
  refine ⟨.structured hlater (Function.update_self ..), fun b content hb ↦ ?_⟩
  by_cases hba : b = a
  · rw [hba]
    exact Or.inr hlater
  · rw [Function.update_of_ne hba] at hb
    rw [hlater, ← hc]
    exact honly b content hb

/-- A credential loses its structure. -/
theorem OnlyCred.detach {blocks : ℕ → Option KernelBlock} {c a : ℕ} (honly : OnlyCred blocks c)
    (hc : blocks c = some (.cred (some a))) (hne : a ≠ c) :
    let later := Function.update (Function.update blocks c (some (.cred none))) a none
    HoldsCred later c ⟨none⟩ ∧ OnlyCred later c := by
  refine ⟨.null ?_, fun b content hb ↦ ?_⟩
  · rw [Function.update_of_ne hne.symm, Function.update_self]
  · have hba : b ≠ a := by
      intro heq
      rw [heq, Function.update_self] at hb
      cases hb
    by_cases hbc : b = c
    · exact Or.inl hbc
    · rw [Function.update_of_ne hba, Function.update_of_ne hbc] at hb
      have hpointer := (honly b content hb).resolve_left hbc
      rw [hc] at hpointer
      injection hpointer with hinner
      injection hinner with hsome
      exact absurd (Option.some.inj hsome).symm hba

/-! ### What the hooks leave -/

section Leave

variable {Dentry : Type}

/-- A function that should give a number and a credential has given them: what is owned is the
credential at the address. A function that should follow a NULL pointer has followed it. -/
def GivesCred (c : ℕ) (expected : Except Fault (ℤ × Cred)) (result : Except Fault ℤ)
    (later : Owned KernelBlock Dentry) : Prop :=
  match expected with
  | .ok answer => result = .ok answer.1 ∧ (later.refs = fun _ ↦ 0) ∧
      HoldsCred later.blocks c answer.2 ∧ OnlyCred later.blocks c
  | .error fault => result = .error fault

/-- What `mp4_inode_permission` leaves: its verdict, and the buffer of the path where it got one. -/
def GivesVerdict (expected : Except Fault Verdict) (buf : Option Memory)
    (own : Owned KernelBlock Dentry) (result : Except Fault Verdict)
    (later : Owned KernelBlock Dentry) : Prop :=
  match expected with
  | .ok verdict => result = .ok verdict ∧ later.refs = own.refs ∧
      ((buf = none ∧ later.blocks = own.blocks) ∨
        (buf.isSome = true ∧ ∃ a mem, own.blocks a = none ∧
          later.blocks = Function.update own.blocks a (some (.buffer mem))))
  | .error fault => result = .error fault

end Leave

/-- A program of the kernel. -/
abbrev HookProgram (Dentry α : Type) := Program KernelBlock Dentry Fault α

namespace HookProgram

variable {Inode Dentry α β : Type}

/-! ### What the hooks call -/

/-- `kmalloc`, which gives a block with the given contents, or NULL. -/
def kmalloc (content : Option KernelBlock) : HookProgram Dentry (Option ℕ) := .alloc content .done

/-- `kfree`. -/
def kfree (pointer : Option ℕ) : HookProgram Dentry Unit := .free pointer (.done ())

/-- A reference to a dentry is taken. -/
def dget (dentry : Dentry) : HookProgram Dentry Unit := .acquire dentry (.done ())

/-- `dput`. -/
def dput (dentry : Dentry) : HookProgram Dentry Unit := .release dentry (.done ())

/-- `d_find_alias`: a dentry of the inode, with a reference. -/
def dFindAlias (vfs : Vfs Inode Dentry) (inode : Inode) : HookProgram Dentry (Option Dentry) :=
  match vfs.dFindAlias inode with
  | none => return none
  | some dentry => do
    dget dentry
    return some dentry

/-- `cred->security`. -/
def security (cred : ℕ) : HookProgram Dentry (Option ℕ) :=
  .load .nullSecurity (some cred) fun
    | .cred security => .done security
    | _ => .stuck

/-- `cred->security = security`. -/
def setSecurity (cred : ℕ) (security : Option ℕ) : HookProgram Dentry Unit :=
  .update .nullSecurity (some cred)
    (fun
      | .cred _ => some (.cred security)
      | _ => none)
    (.done ())

/-- `*msec`. -/
def readSecurity (msec : Option ℕ) : HookProgram Dentry Mp4Security :=
  .load .nullSecurity msec fun
    | .security content => .done content
    | _ => .stuck

/-- `*msec` after a change. -/
def changeSecurity (msec : Option ℕ) (change : Mp4Security → Mp4Security) :
    HookProgram Dentry Unit :=
  .update .nullSecurity msec
    (fun
      | .security content => some (.security (change content))
      | _ => none)
    (.done ())

/-- The bytes of a buffer. -/
def readBuffer (buffer : Option ℕ) : HookProgram Dentry Memory :=
  .load .nullBuffer buffer fun
    | .buffer mem => .done mem
    | _ => .stuck

/-- The bytes of a buffer after a change. -/
def changeBuffer (buffer : Option ℕ) (change : Memory → Memory) : HookProgram Dentry Unit :=
  .update .nullBuffer buffer
    (fun
      | .buffer mem => some (.buffer (change mem))
      | _ => none)
    (.done ())

/-- `kmemdup(source, sizeof(struct mp4_security), gfp)`. The argument `block` is what `kmalloc`
gives it. -/
def kmemdup (source : Option ℕ) (block : Option Mp4Security) : HookProgram Dentry (Option ℕ) := do
  let pointer ← kmalloc (block.map .security)
  match pointer with
  | none => return none
  | some a =>
    let content ← readSecurity source
    changeSecurity (some a) fun _ ↦ content
    return some a

/-- `kstrdup`. -/
def kstrdup (text : Text) (succeeds : Bool) : HookProgram Dentry (Option ℕ) :=
  kmalloc (if succeeds then some (.buffer (Memory.ofText text)) else none)

/-- `dentry_path`: where in the buffer the path begins, none where it returns an error. The path
stands at the end of the bytes that the function may use, with its terminator. -/
def dentryPath (vfs : Vfs Inode Dentry) (dentry : Dentry) (buf : Option ℕ) (buflen : ℕ) :
    HookProgram Dentry (Option ℕ) :=
  match vfs.dentryPath dentry buflen with
  | none => do
    changeBuffer buf id
    return none
  | some path => do
    let start := buflen - (path.length + 1)
    changeBuffer buf fun mem ↦ mem.place start (path ++ [0])
    return some start

/-! ### The functions of the module -/

/-- `get_inode_sid`. -/
def getInodeSid (vfs : Vfs Inode Dentry) (inode : Inode) (val : Option Memory) :
    HookProgram Dentry ℤ := do
  match ← dFindAlias vfs inode with
  | none => return 0
  | some bDentry =>
    match vfs.getxattr inode with
    | none =>
      dput bDentry
      return -1
    | some getxattr =>
      let val ← kmalloc (val.map .buffer)
      changeBuffer val fun mem ↦ (getxattr bDentry xattrNameMp4 mem 255).2
      let sid := credCtxToSid (← readBuffer val)
      dput bDentry
      kfree val
      return sid

/-- `mp4_bprm_set_creds`. -/
def mp4BprmSetCreds (vfs : Vfs Inode Dentry) (cred : ℕ) (inode : Inode) (val : Option Memory) :
    HookProgram Dentry ℤ := do
  let msec ← security cred
  let sid ← getInodeSid vfs inode val
  if 0 ≤ sid then changeSecurity msec fun content ↦ { content with mp4Flags := sid }
  return 0

/-- `mp4_cred_alloc_blank`. The argument `block` is what `kmalloc` gives for the structure. -/
def mp4CredAllocBlank (cred : ℕ) (block : Option Mp4Security) : HookProgram Dentry ℤ := do
  let msec ← kmalloc (block.map .security)
  match msec with
  | none => return -enomem
  | some a =>
    changeSecurity (some a) fun content ↦ { content with mp4Flags := mp4NoAccess }
    setSecurity cred (some a)
    return 0

/-- `mp4_cred_free`. -/
def mp4CredFree (cred : ℕ) : HookProgram Dentry Unit := do
  let msec ← security cred
  setSecurity cred none
  if msec.isSome then kfree msec

/-- `mp4_cred_prepare`. -/
def mp4CredPrepare (new old : ℕ) (block : Option Mp4Security) : HookProgram Dentry ℤ := do
  let oldMsec ← security old
  if oldMsec.isNone then
    let _ ← mp4CredAllocBlank new block
    return 0
  else
    match ← kmemdup oldMsec block with
    | none => return -enomem
    | some msec =>
      setSecurity new (some msec)
      return 0

/-- The outputs of `mp4_inode_init_security`, with the pointer `*value`. -/
structure XattrPointers where
  name : Option Text
  value : Option ℕ
  len : ℕ

/-- `*value = kstrdup(label, GFP_NOFS)` and `*len = strlen(label)`. -/
def XattrPointers.setLabel (out : XattrPointers) (label : Text) (succeeds : Bool) :
    HookProgram Dentry XattrPointers := do
  let value ← kstrdup label succeeds
  return { out with value := value, len := label.length }

/-- `mp4_inode_init_security`, with the credential of the process that calls. -/
def mp4InodeInitSecurity (vfs : Vfs Inode Dentry) (current : ℕ) (inode : Inode) (wanted : Wanted)
    (succeeds : Bool) (out : XattrPointers) : HookProgram Dentry (ℤ × XattrPointers) := do
  let cs ← security current
  let currentLevel := (← readSecurity cs).mp4Flags
  let out := if wanted.name then { out with name := some xattrMp4Suffix } else out
  if wanted.value && wanted.len then
    if currentLevel = mp4TargetSid then
      let out ←
        if vfs.isReg inode then out.setLabel (bytes "read-write") succeeds
        else if vfs.isDir inode then out.setLabel (bytes "dir-write") succeeds
        else pure out
      return (if out.value = none then -enomem else 0, out)
    else return (0, out)
  else return (-eopnotsupp, out)

/-- `mp4_inode_permission`, with the credential of the process that calls. The argument `buf` is
what `kmalloc` gives for the path, and `ratelimit` what `printk_ratelimit` returns. -/
def mp4InodePermission (vfs : Vfs Inode Dentry) (current : ℕ) (inode : Inode) (mask : UInt32)
    (buf val : Option Memory) (ratelimit : Bool) : HookProgram Dentry Verdict := do
  let cs ← security current
  let buf ← kmalloc (buf.map .buffer)
  match ← dFindAlias vfs inode with
  | none => return unchecked
  | some bDentry =>
    match ← dentryPath vfs bDentry buf (256 - 1) with
    | none =>
      dput bDentry
      return unchecked
    | some res =>
      if mp4ShouldSkipPath ((← readBuffer buf).drop res) then
        dput bDentry
        return unchecked
      else
        let ssid := (← readSecurity cs).mp4Flags
        let osid ← getInodeSid vfs inode val
        if osid < 0 then
          dput bDentry
          return unchecked
        else
          let perm := mp4HasPermission ssid osid (mask &&& (mayRead ||| mayExec ||| mayWrite))
          -- The message prints the path from the buffer.
          if perm < 0 ∧ ratelimit = true then
            let _ ← readBuffer buf
          dput bDentry
          return ⟨perm, true⟩

/-! ### Rules for what the hooks call -/

section Rules

variable [DecidableEq Dentry] {view : ℕ → Option KernelBlock}
  {post : Except Fault β → Owned KernelBlock Dentry → Prop} {own : Owned KernelBlock Dentry}

/-- A block that is allocated is new. -/
theorem ensures_kmalloc_some {content : KernelBlock} {after : Option ℕ → HookProgram Dentry β}
    (hafter : ∀ a, own.blocks a = none → view a = none →
      (after (some a)).Ensures view post (own.set a (some content))) :
    (kmalloc (some content) >>= after).Ensures view post own := hafter

/-- An allocation that fails gives NULL. -/
theorem ensures_kmalloc_none {after : Option ℕ → HookProgram Dentry β}
    (hafter : (after none).Ensures view post own) :
    (kmalloc none >>= after).Ensures view post own := hafter

/-- A block that is freed is owned. -/
theorem ensures_kfree {a : ℕ} {content : KernelBlock} {after : Unit → HookProgram Dentry β}
    (ha : own.blocks a = some content) (hafter : (after ()).Ensures view post (own.set a none)) :
    (kfree (some a) >>= after).Ensures view post own := ⟨⟨content, ha⟩, hafter⟩

/-- An alias comes with a reference. -/
theorem ensures_dFindAlias {vfs : Vfs Inode Dentry} {inode : Inode}
    {after : Option Dentry → HookProgram Dentry β}
    (hnone : vfs.dFindAlias inode = none → (after none).Ensures view post own)
    (hsome : ∀ dentry, vfs.dFindAlias inode = some dentry →
      (after (some dentry)).Ensures view post (own.setRefs dentry (own.refs dentry + 1))) :
    (dFindAlias vfs inode >>= after).Ensures view post own := by
  unfold dFindAlias
  cases halias : vfs.dFindAlias inode with
  | none => exact hnone halias
  | some dentry => exact hsome dentry halias

/-- A reference that was taken is dropped. -/
theorem ensures_dput {dentry : Dentry} {after : Unit → HookProgram Dentry β}
    (hafter : (after ()).Ensures view post own) :
    (dput dentry >>= after).Ensures view post (own.setRefs dentry (own.refs dentry + 1)) := by
  have hpos : 0 < (own.setRefs dentry (own.refs dentry + 1)).refs dentry := by simp
  refine ⟨hpos, ?_⟩
  rw [Owned.refs_setRefs, Function.update_self, Nat.add_sub_cancel, Owned.setRefs_setRefs]
  exact hafter

/-- The pointer `security` of a credential is read. -/
theorem ensures_security {cred : ℕ} {pointer : Option ℕ} {after : Option ℕ → HookProgram Dentry β}
    (hcred : own.blocks cred = some (.cred pointer) ∨ view cred = some (.cred pointer))
    (hafter : (after pointer).Ensures view post own) :
    (security cred >>= after).Ensures view post own := ⟨_, hcred, hafter⟩

/-- The pointer `security` of an owned credential is set. -/
theorem ensures_setSecurity {cred : ℕ} {before later : Option ℕ}
    {after : Unit → HookProgram Dentry β} (hcred : own.blocks cred = some (.cred before))
    (hafter : (after ()).Ensures view post (own.set cred (some (.cred later)))) :
    (setSecurity cred later >>= after).Ensures view post own := ⟨_, _, hcred, rfl, hafter⟩

/-- A security structure is read. -/
theorem ensures_readSecurity {a : ℕ} {msec : Mp4Security}
    {after : Mp4Security → HookProgram Dentry β}
    (ha : own.blocks a = some (.security msec) ∨ view a = some (.security msec))
    (hafter : (after msec).Ensures view post own) :
    (readSecurity (some a) >>= after).Ensures view post own := ⟨_, ha, hafter⟩

/-- An owned security structure is changed. -/
theorem ensures_changeSecurity {a : ℕ} {msec : Mp4Security} {change : Mp4Security → Mp4Security}
    {after : Unit → HookProgram Dentry β} (ha : own.blocks a = some (.security msec))
    (hafter : (after ()).Ensures view post (own.set a (some (.security (change msec))))) :
    (changeSecurity (some a) change >>= after).Ensures view post own := ⟨_, _, ha, rfl, hafter⟩

/-- An owned buffer is read. -/
theorem ensures_readBuffer {a : ℕ} {mem : Memory} {after : Memory → HookProgram Dentry β}
    (ha : own.blocks a = some (.buffer mem)) (hafter : (after mem).Ensures view post own) :
    (readBuffer (some a) >>= after).Ensures view post own := ⟨_, Or.inl ha, hafter⟩

/-- An owned buffer is changed. -/
theorem ensures_changeBuffer {a : ℕ} {mem : Memory} {change : Memory → Memory}
    {after : Unit → HookProgram Dentry β} (ha : own.blocks a = some (.buffer mem))
    (hafter : (after ()).Ensures view post (own.set a (some (.buffer (change mem))))) :
    (changeBuffer (some a) change >>= after).Ensures view post own := ⟨_, _, ha, rfl, hafter⟩

/-- The path is written into an owned buffer. -/
theorem ensures_dentryPath {vfs : Vfs Inode Dentry} {dentry : Dentry} {buflen a : ℕ} {mem : Memory}
    {after : Option ℕ → HookProgram Dentry β} (ha : own.blocks a = some (.buffer mem))
    (hnone : vfs.dentryPath dentry buflen = none → (after none).Ensures view post own)
    (hsome : ∀ path, vfs.dentryPath dentry buflen = some path →
      (after (some (buflen - (path.length + 1)))).Ensures view post (own.set a
        (some (.buffer (mem.place (buflen - (path.length + 1)) (path ++ [0])))))) :
    (dentryPath vfs dentry (some a) buflen >>= after).Ensures view post own := by
  unfold dentryPath
  cases hpath : vfs.dentryPath dentry buflen with
  | none =>
    change (changeBuffer (some a) id >>= fun _ ↦ after none).Ensures view post own
    refine ensures_changeBuffer ha ?_
    rw [id, Owned.set_eq_self ha]
    exact hnone hpath
  | some path =>
    let start := buflen - (path.length + 1)
    change (changeBuffer (some a) (fun mem ↦ mem.place start (path ++ [0])) >>=
      fun _ ↦ after (some start)).Ensures view post own
    exact ensures_changeBuffer ha (hsome path hpath)

/-- A path cannot be written to NULL. -/
theorem ensures_dentryPath_null {vfs : Vfs Inode Dentry} {dentry : Dentry} {buflen : ℕ}
    {after : Option ℕ → HookProgram Dentry β} (hpost : post (.error .nullBuffer) own) :
    (dentryPath vfs dentry none buflen >>= after).Ensures view post own := by
  unfold dentryPath
  cases vfs.dentryPath dentry buflen with
  | none => exact hpost
  | some path => exact hpost

end Rules

/-! ### The label of an inode -/

section Specifications

variable [DecidableEq Dentry] {view : ℕ → Option KernelBlock} {own : Owned KernelBlock Dentry}

/-- `get_inode_sid` gives the label of the inode, and leaves what it owns as it was. Where it
follows a NULL pointer it has allocated nothing. -/
theorem ensures_getInodeSid (vfs : Vfs Inode Dentry) (inode : Inode) (val : Option Memory) :
    (getInodeSid vfs inode val).Ensures view
      (fun result later ↦ result = AccessControl.getInodeSid vfs inode val ∧
        later.blocks = own.blocks ∧ ∀ sid, result = .ok sid → later = own) own := by
  unfold getInodeSid AccessControl.getInodeSid
  refine ensures_dFindAlias (fun halias ↦ ?_) fun dentry halias ↦ ?_
  · rw [halias]
    exact ⟨rfl, rfl, fun _ _ ↦ rfl⟩
  · rw [halias]
    dsimp only
    cases hget : vfs.getxattr inode with
    | none => exact ensures_dput ⟨rfl, rfl, fun _ _ ↦ rfl⟩
    | some getxattr =>
      cases val with
      | none => exact ⟨rfl, rfl, fun _ hsid ↦ by cases hsid⟩
      | some mem =>
        refine ensures_kmalloc_some fun a ha _ ↦ ?_
        refine ensures_changeBuffer (Owned.blocks_set_self ..) ?_
        refine ensures_readBuffer (Owned.blocks_set_self ..) ?_
        rw [Owned.set_set, ← Owned.setRefs_set]
        refine ensures_dput (ensures_kfree (Owned.blocks_set_self ..) ?_)
        have hnew : own.blocks a = none := ha
        rw [Owned.set_set, Owned.set_eq_self hnew]
        exact ⟨rfl, rfl, fun _ _ ↦ rfl⟩

/-! ### Credentials -/

/-- `mp4_cred_alloc_blank` gives its credential. Assumes: it owns the credential, without a
structure. -/
theorem ensures_mp4CredAllocBlank {c : ℕ} (hc : own.blocks c = some (.cred none))
    (honly : OnlyCred own.blocks c) (hrefs : own.refs = fun _ ↦ 0) (block : Option Mp4Security) :
    (mp4CredAllocBlank c block).Ensures view
      (GivesCred c (.ok (AccessControl.mp4CredAllocBlank ⟨none⟩ block.isSome))) own := by
  unfold mp4CredAllocBlank
  cases block with
  | none => exact ⟨rfl, hrefs, .null hc, honly⟩
  | some content =>
    refine ensures_kmalloc_some fun a ha _ ↦ ?_
    refine ensures_changeSecurity (Owned.blocks_set_self ..) ?_
    rw [Owned.set_set]
    have hne : c ≠ a := by
      intro heq
      rw [← heq, hc] at ha
      cases ha
    have hcred : (own.set a (some (.security ⟨mp4NoAccess⟩))).blocks c = some (.cred none) := by
      rw [Owned.blocks_set, Function.update_of_ne hne, hc]
    refine ensures_setSecurity hcred ?_
    exact ⟨rfl, hrefs, honly.attach hc ha ⟨mp4NoAccess⟩⟩

/-- `kmemdup` copies a structure that it may read into a new block. -/
theorem ensures_kmemdup {a : ℕ} {msec : Mp4Security} (ha : view a = some (.security msec))
    (block : Mp4Security) :
    (kmemdup (some a) (some block)).Ensures view
      (fun result later ↦ ∃ b, own.blocks b = none ∧ result = .ok (some b) ∧
        later = own.set b (some (.security msec))) own := by
  unfold kmemdup
  refine ensures_kmalloc_some fun b hb _ ↦ ?_
  refine ensures_readSecurity (Or.inr ha) ?_
  refine ensures_changeSecurity (Owned.blocks_set_self ..) ?_
  rw [Owned.set_set]
  exact ⟨b, hb, rfl, rfl⟩

/-- `mp4_cred_prepare` gives its new credential. Assumes: it owns the new credential, without a
structure, and may read the old one. -/
theorem ensures_mp4CredPrepare {new old : ℕ} {oldCred : Cred}
    (hnew : own.blocks new = some (.cred none)) (honly : OnlyCred own.blocks new)
    (hrefs : own.refs = fun _ ↦ 0) (hold : HoldsCred view old oldCred)
    (block : Option Mp4Security) :
    (mp4CredPrepare new old block).Ensures view
      (GivesCred new (.ok (AccessControl.mp4CredPrepare ⟨none⟩ oldCred block.isSome))) own := by
  unfold mp4CredPrepare
  cases hold with
  | null hnull =>
    refine ensures_security (Or.inr hnull) ?_
    have hblank : (mp4CredAllocBlank new block).Ensures view (GivesCred new
        (.ok (AccessControl.mp4CredAllocBlank ⟨none⟩ block.isSome))) own :=
      ensures_mp4CredAllocBlank hnew honly hrefs block
    change (mp4CredAllocBlank new block >>= fun _ ↦ pure 0).Ensures view _ own
    exact hblank.bind (fun _ _ hlater ↦ ⟨rfl, hlater.2⟩)
      fun _ _ hlater ↦ absurd hlater.1 (by simp)
  | @structured a msec hpointer hmsec =>
    refine ensures_security (Or.inr hpointer) ?_
    cases block with
    | none => exact ⟨rfl, hrefs, .null hnew, honly⟩
    | some content =>
      refine (ensures_kmemdup hmsec content).bind (fun result later hlater ↦ ?_)
        fun _ _ hlater ↦ ?_
      swap
      · obtain ⟨_, _, hresult, _⟩ := hlater
        cases hresult
      obtain ⟨b, hb, hresult, rfl⟩ := hlater
      cases hresult
      have hne : new ≠ b := by
        intro heq
        rw [← heq, hnew] at hb
        cases hb
      have hcred : (own.set b (some (.security msec))).blocks new = some (.cred none) := by
        rw [Owned.blocks_set, Function.update_of_ne hne, hnew]
      refine ensures_setSecurity hcred ?_
      exact ⟨rfl, hrefs, honly.attach hnew hb msec⟩

/-- `mp4_bprm_set_creds` gives its credential the label of the binary. Assumes: it owns the
credential. -/
theorem ensures_mp4BprmSetCreds {c : ℕ} {cred : Cred} (hc : HoldsCred own.blocks c cred)
    (honly : OnlyCred own.blocks c) (hrefs : own.refs = fun _ ↦ 0) (vfs : Vfs Inode Dentry)
    (inode : Inode) (val : Option Memory) :
    (mp4BprmSetCreds vfs c inode val).Ensures view
      (GivesCred c (AccessControl.mp4BprmSetCreds vfs cred inode val)) own := by
  unfold mp4BprmSetCreds AccessControl.mp4BprmSetCreds
  cases hc with
  | null hnull =>
    refine ensures_security (Or.inl hnull) ?_
    refine (ensures_getInodeSid vfs inode val).bind (fun sid later hlater ↦ ?_)
      fun reason later hlater ↦ ?_
    · rw [← hlater.1, hlater.2.2 sid rfl]
      by_cases hnonneg : 0 ≤ sid
      · simp only [if_pos hnonneg]
        rfl
      · simp only [if_neg hnonneg]
        exact ⟨rfl, hrefs, .null hnull, honly⟩
    · rw [← hlater.1]
      rfl
  | @structured a msec hpointer hmsec =>
    refine ensures_security (Or.inl hpointer) ?_
    refine (ensures_getInodeSid vfs inode val).bind (fun sid later hlater ↦ ?_)
      fun reason later hlater ↦ ?_
    · rw [← hlater.1, hlater.2.2 sid rfl]
      by_cases hnonneg : 0 ≤ sid
      · simp only [if_pos hnonneg]
        refine ensures_changeSecurity hmsec ?_
        exact ⟨rfl, hrefs, honly.relabel hpointer hmsec ⟨sid⟩⟩
      · simp only [if_neg hnonneg]
        exact ⟨rfl, hrefs, .structured hpointer hmsec, honly⟩
    · rw [← hlater.1]
      rfl

/-- `mp4_cred_free` leaves a credential without a structure. Assumes: it owns the credential. -/
theorem ensures_mp4CredFree {c : ℕ} {cred : Cred} (hc : HoldsCred own.blocks c cred)
    (honly : OnlyCred own.blocks c) (hrefs : own.refs = fun _ ↦ 0) :
    (mp4CredFree c).Ensures view
      (fun result later ↦ result = .ok () ∧ (later.refs = fun _ ↦ 0) ∧
        HoldsCred later.blocks c (AccessControl.mp4CredFree cred) ∧ OnlyCred later.blocks c)
      own := by
  unfold mp4CredFree
  cases hc with
  | null hnull =>
    refine ensures_security (Or.inl hnull) ?_
    refine ensures_setSecurity hnull ?_
    rw [Owned.set_eq_self hnull]
    exact ⟨rfl, hrefs, .null hnull, honly⟩
  | @structured a msec hpointer hmsec =>
    refine ensures_security (Or.inl hpointer) ?_
    refine ensures_setSecurity hpointer ?_
    have hne : a ≠ c := by
      intro heq
      rw [heq, hpointer] at hmsec
      cases hmsec
    have hstructure : (own.set c (some (.cred none))).blocks a = some (.security msec) := by
      rw [Owned.blocks_set, Function.update_of_ne hne, hmsec]
    refine ⟨⟨_, hstructure⟩, ?_⟩
    exact ⟨rfl, hrefs, honly.detach hpointer hne⟩

/-! ### Inodes -/

/-- A path that stands in a buffer with its terminator is skipped like the path. -/
theorem mp4ShouldSkipPath_store (mem : Memory) (path : Text) :
    mp4ShouldSkipPath (mem.store (path ++ [0])) = mp4ShouldSkipPath (Memory.ofText path) := by
  have hagree : ∀ i ≤ path.length, mem.store (path ++ [0]) i = Memory.ofText path i := by
    intro i hi
    have hlt : i < (path ++ [0]).length := by
      rw [List.length_append]
      exact Nat.lt_succ_of_le hi
    rw [Memory.store_apply_of_lt mem hlt, Memory.ofText]
    rcases Nat.lt_or_eq_of_le hi with hinside | hend
    · rw [List.getD_append _ _ _ _ hinside]
    · simp [hend]
  have hnul : mem.store (path ++ [0]) path.length = 0 := by
    rw [hagree path.length le_rfl]
    simp [Memory.ofText]
  unfold mp4ShouldSkipPath
  have hroot : (0 : UInt8) ∉ bytes "/" := by decide
  rw [strcmp_congr hagree hnul hroot]
  simp only [strncmp_congr hagree hnul]

/-- `mp4_inode_permission` gives its verdict, and keeps the buffer of the path. Assumes: it may read
the credential of the process. -/
theorem ensures_mp4InodePermission {c : ℕ} {cred : Cred} (hc : HoldsCred view c cred)
    (vfs : Vfs Inode Dentry) (inode : Inode) (mask : UInt32) (buf val : Option Memory)
    (ratelimit : Bool) :
    (mp4InodePermission vfs c inode mask buf val ratelimit).Ensures view
      (GivesVerdict (AccessControl.mp4InodePermission vfs cred.security inode mask buf.isSome val)
        buf own) own := by
  obtain ⟨pointer, hpointer, hstructure⟩ : ∃ pointer, view c = some (.cred pointer) ∧
      ((pointer = none ∧ cred.security = none) ∨ ∃ a msec, pointer = some a ∧
        view a = some (.security msec) ∧ cred.security = some msec) := by
    cases hc with
    | null hnull => exact ⟨none, hnull, Or.inl ⟨rfl, rfl⟩⟩
    | structured hsome hmsec => exact ⟨_, hsome, Or.inr ⟨_, _, rfl, hmsec, rfl⟩⟩
  unfold mp4InodePermission AccessControl.mp4InodePermission
  refine ensures_security (Or.inr hpointer) ?_
  cases buf with
  | none =>
    refine ensures_kmalloc_none (ensures_dFindAlias (fun halias ↦ ?_) fun dentry halias ↦ ?_)
    · rw [halias]
      exact ⟨rfl, rfl, Or.inl ⟨rfl, rfl⟩⟩
    · rw [halias]
      exact ensures_dentryPath_null rfl
  | some bytes =>
    refine ensures_kmalloc_some fun a ha _ ↦ ?_
    have hkept : ∀ mem, (own.set a (some (.buffer mem))).refs = own.refs ∧
        ((some bytes = none ∧ (own.set a (some (.buffer mem))).blocks = own.blocks) ∨
          ((some bytes).isSome = true ∧ ∃ b other, own.blocks b = none ∧
            (own.set a (some (.buffer mem))).blocks =
              Function.update own.blocks b (some (.buffer other)))) :=
      fun mem ↦ ⟨rfl, Or.inr ⟨rfl, a, mem, ha, rfl⟩⟩
    refine ensures_dFindAlias (fun halias ↦ ?_) fun dentry halias ↦ ?_
    · rw [halias]
      exact ⟨rfl, hkept bytes⟩
    rw [halias]
    refine ensures_dentryPath (Owned.blocks_set_self ..) (fun hpath ↦ ?_) fun path hpath ↦ ?_
    · dsimp only
      rw [hpath]
      exact ensures_dput ⟨rfl, hkept bytes⟩
    dsimp only
    rw [hpath, ← Owned.setRefs_set, Owned.set_set]
    refine ensures_readBuffer (Owned.blocks_set_self ..) ?_
    rw [Memory.drop_place, mp4ShouldSkipPath_store]
    by_cases hskip : mp4ShouldSkipPath (Memory.ofText path) = true
    · simp only [if_pos hskip]
      exact ensures_dput ⟨rfl, hkept _⟩
    simp only [if_neg hskip]
    rcases hstructure with ⟨rfl, hnull⟩ | ⟨b, msec, rfl, hmsec, hsome⟩
    · rw [hnull]
      rfl
    rw [hsome]
    refine ensures_readSecurity (Or.inr hmsec) ?_
    refine (ensures_getInodeSid vfs inode val).bind (fun osid later hlater ↦ ?_)
      fun reason later hlater ↦ ?_
    swap
    · rw [← hlater.1]
      rfl
    rw [← hlater.1, hlater.2.2 osid rfl]
    dsimp only
    by_cases hneg : osid < 0
    · simp only [if_pos hneg]
      exact ensures_dput ⟨rfl, hkept _⟩
    simp only [if_neg hneg]
    by_cases hprinted : mp4HasPermission msec.mp4Flags osid
        (mask &&& (mayRead ||| mayExec ||| mayWrite)) < 0 ∧ ratelimit = true
    · simp only [if_pos hprinted]
      refine ensures_readBuffer (Owned.blocks_set_self ..) ?_
      exact ensures_dput ⟨rfl, hkept _⟩
    · simp only [if_neg hprinted]
      exact ensures_dput ⟨rfl, hkept _⟩

/-- What `mp4_inode_init_security` leaves: its number and its outputs, and the block of the value
where it made one. -/
def GivesXattr (expected : Except Fault (ℤ × InitXattr)) (own : Owned KernelBlock Dentry)
    (result : Except Fault (ℤ × XattrPointers)) (later : Owned KernelBlock Dentry) : Prop :=
  match expected with
  | .ok (ret, out) => ∃ value, result = .ok (ret, ⟨out.name, value, out.len⟩) ∧
      ((value = none ∧ out.value = none ∧ later = own) ∨
        ∃ a text, value = some a ∧ out.value = some text ∧ out.len = text.length ∧
          own.blocks a = none ∧ later = own.set a (some (.buffer (Memory.ofText text))))
  | .error fault => result = .error fault

/-- A label for a new inode. -/
theorem ensures_setLabel (name : Option Text) (label : Text) (succeeds : Bool) :
    (do
      let out ← XattrPointers.setLabel ⟨name, none, 0⟩ label succeeds
      return (if out.value = none then -enomem else 0, out) :
        HookProgram Dentry (ℤ × XattrPointers)).Ensures view
      (GivesXattr
        (if (InitXattr.setLabel ⟨name, none, 0⟩ label succeeds).value = none then
          .ok (-enomem, InitXattr.setLabel ⟨name, none, 0⟩ label succeeds)
        else .ok (0, InitXattr.setLabel ⟨name, none, 0⟩ label succeeds)) own) own := by
  cases succeeds with
  | false => exact ⟨none, rfl, Or.inl ⟨rfl, rfl, rfl⟩⟩
  | true => exact fun a ha _ ↦ ⟨some a, rfl, Or.inr ⟨a, label, rfl, rfl, rfl, ha, rfl⟩⟩

/-- `mp4_inode_init_security` gives its outputs. Assumes: it may read the credential of the process,
and `*value` is NULL before the call. -/
theorem ensures_mp4InodeInitSecurity {c : ℕ} {cred : Cred} (hc : HoldsCred view c cred)
    (vfs : Vfs Inode Dentry) (inode : Inode) (wanted : Wanted) (succeeds : Bool) :
    (mp4InodeInitSecurity vfs c inode wanted succeeds ⟨none, none, 0⟩).Ensures view
      (GivesXattr (AccessControl.mp4InodeInitSecurity vfs cred.security inode wanted succeeds
        ⟨none, none, 0⟩) own) own := by
  unfold mp4InodeInitSecurity AccessControl.mp4InodeInitSecurity
  cases hc with
  | null hnull =>
    refine ensures_security (Or.inr hnull) ?_
    rfl
  | @structured a msec hpointer hmsec =>
    refine ensures_security (Or.inr hpointer) (ensures_readSecurity (Or.inr hmsec) ?_)
    obtain ⟨name, hname, hnames⟩ : ∃ name : Option Text,
        (if wanted.name then ⟨some xattrMp4Suffix, none, 0⟩ else ⟨none, none, 0⟩) =
          (⟨name, none, 0⟩ : InitXattr) ∧
        (if wanted.name then ⟨some xattrMp4Suffix, none, 0⟩ else ⟨none, none, 0⟩) =
          (⟨name, none, 0⟩ : XattrPointers) := by
      cases wanted.name with
      | true => exact ⟨_, rfl, rfl⟩
      | false => exact ⟨_, rfl, rfl⟩
    simp only [hname, hnames]
    by_cases hwanted : (wanted.value && wanted.len) = true
    · simp only [if_pos hwanted]
      by_cases htarget : msec.mp4Flags = mp4TargetSid
      · simp only [if_pos htarget]
        cases hreg : vfs.isReg inode with
        | true => exact ensures_setLabel name (bytes "read-write") succeeds
        | false =>
          cases hdir : vfs.isDir inode with
          | true => exact ensures_setLabel name (bytes "dir-write") succeeds
          | false => exact ⟨none, rfl, Or.inl ⟨rfl, rfl, rfl⟩⟩
      · simp only [if_neg htarget]
        exact ⟨none, rfl, Or.inl ⟨rfl, rfl, rfl⟩⟩
    · simp only [if_neg hwanted]
      exact ⟨none, rfl, Or.inl ⟨rfl, rfl, rfl⟩⟩

end Specifications

end HookProgram

end KernelModules.AccessControl

import KernelModules.AccessControl.AliasChoice
import KernelModules.AccessControl.ConcurrentRuns
import KernelModules.AccessControl.NonTargetAccess

/-!
# The accesses that the kernel decides

The policy of the module for every attribute: what the label of an inode allows to the target and to
other processes (`InodeLabel.Allows`), and the label that a new inode gets (`Vfs.newLabel`). Whether
a process is the target is a matter of its history alone: of the last binary that set a label, which
the process executed, or before it a process it was forked from.

`decidedByHistory_of_reachable` says so of runs in which the hooks of any number of tasks
interleave, with allocations that may fail: every answer of `mp4_inode_permission` and of
`mp4_inode_init_security` is the one of the policy.
-/

set_option autoImplicit false
set_option relaxedAutoImplicit false

namespace KernelModules.AccessControl

open Foundation

variable {ι κ Inode Dentry : Type}

/-! ### The policy -/

/-- The labels of inodes. -/
inductive InodeLabel
  | file (label : FileLabel)
  | readDir
  | rwDir
  | target
  deriving DecidableEq

namespace InodeLabel

/-- The attribute that gives an inode its label. -/
def attr : InodeLabel → Option Text
  | file label => label.attr
  | readDir => some (bytes "dir")
  | rwDir => some (bytes "dir-write")
  | target => some (bytes "target")

/-- The labels other than the one of inodes without a label. -/
def named : List InodeLabel :=
  [file .readObj, file .readWrite, file .writeObj, file .execObj, readDir, rwDir, target]

/-- The label that an attribute names. -/
def ofAttr (text : Option Text) : InodeLabel :=
  (named.find? fun label ↦ label.attr = text).getD (file .noAccess)

/-- The operations that a label allows to the target, and to other processes. -/
def Allows : InodeLabel → Bool → Operation → Prop
  | .file label, byTarget, operation => label.Allows byTarget operation
  | .readDir, _, operation => operation = .read ∨ operation = .exec
  | .rwDir, byTarget, operation =>
    operation = .read ∨ operation = .exec ∨ (operation = .write ∧ byTarget = true)
  | .target, _, _ => False

/-- The label allows every operation in the mask. -/
def Permits (label : InodeLabel) (byTarget : Bool) (mask : UInt32) : Prop :=
  ∀ operation : Operation, mask &&& operation.bit ≠ 0 → label.Allows byTarget operation

instance (label : InodeLabel) (byTarget : Bool) (operation : Operation) :
    Decidable (label.Allows byTarget operation) :=
  match label with
  | .file label => inferInstanceAs (Decidable (label.Allows byTarget operation))
  | .readDir => inferInstanceAs (Decidable (operation = .read ∨ operation = .exec))
  | .rwDir => inferInstanceAs (Decidable
      (operation = .read ∨ operation = .exec ∨ (operation = .write ∧ byTarget = true)))
  | .target => isFalse not_false

instance (label : InodeLabel) (byTarget : Bool) (mask : UInt32) :
    Decidable (label.Permits byTarget mask) :=
  inferInstanceAs (Decidable (∀ operation : Operation,
    mask &&& operation.bit ≠ 0 → label.Allows byTarget operation))

end InodeLabel

/-- The verdict of the policy on an access. Where there is no alias or no operation that reads
attributes, or the path is not checked, the module has no say. -/
def Vfs.verdict (vfs : Vfs Inode Dentry) (path : Dentry → Path) (attr : Inode → Option Text)
    (byTarget : Bool) (inode : Inode) (mask : UInt32) : Verdict :=
  match vfs.dFindAlias inode with
  | none => unchecked
  | some dentry =>
    if (path dentry).Checked ∧ (vfs.getxattr inode).isSome = true then
      ⟨if (InodeLabel.ofAttr (attr inode)).Permits byTarget mask then 0 else -eacces, true⟩
    else unchecked

/-- The attribute that a new inode gets. -/
def Vfs.newLabel (vfs : Vfs Inode Dentry) (byTarget : Bool) (inode : Inode) : Option InodeLabel :=
  if byTarget then
    if vfs.isReg inode then some (.file .readWrite)
    else if vfs.isDir inode then some .rwDir
    else none
  else none

/-! ### The table is that of the policy -/

/-- Every attribute has the number of its label. -/
theorem sidOf_ofAttr (text : Option Text) :
    sidOf (text.getD []) = sidOf ((InodeLabel.ofAttr text).attr.getD []) := by
  unfold InodeLabel.ofAttr
  cases hfind : InodeLabel.named.find? fun label ↦ label.attr = text with
  | some label =>
    have hlabel : label.attr = text := by simpa using List.find?_some hfind
    rw [Option.getD_some, hlabel]
  | none =>
    have hnone : sidOf ((InodeLabel.file .noAccess).attr.getD []) = mp4NoAccess := by decide
    rw [Option.getD_none, hnone]
    cases text with
    | none => exact hnone
    | some text =>
      refine sidOf_of_not_mem fun hmem ↦ ?_
      have hnamed : ∀ text ∈ labelTexts, ∃ label ∈ InodeLabel.named, label.attr = some text := by
        decide
      obtain ⟨label, hlabel, hattr⟩ := hnamed text hmem
      exact absurd (decide_eq_true hattr) (List.find?_eq_none.mp hfind label hlabel)

/-- The operations of the table are those that the label allows. -/
theorem oMask_attr (ssid : ℤ) (label : InodeLabel) :
    ThreeBits (oMask ssid (sidOf (label.attr.getD []))) ∧
      ∀ operation : Operation, oMask ssid (sidOf (label.attr.getD [])) &&& operation.bit ≠ 0 ↔
        label.Allows (decide (ssid = mp4TargetSid)) operation := by
  have hbits : ∀ m < 8, ThreeBits (UInt32.ofNat m) := fun m hm ↦ ⟨m, hm, rfl⟩
  cases label with
  | file label => exact oMask_sidOf ssid label
  | readDir =>
    rw [oMask_eq]
    by_cases htarget : ssid = mp4TargetSid
    · simp only [if_pos htarget, decide_eq_true htarget]
      exact ⟨hbits 5 (by decide), by decide⟩
    · simp only [if_neg htarget, decide_eq_false htarget]
      exact ⟨hbits 5 (by decide), by decide⟩
  | rwDir =>
    rw [oMask_eq]
    by_cases htarget : ssid = mp4TargetSid
    · simp only [if_pos htarget, decide_eq_true htarget]
      exact ⟨hbits 7 (by decide), by decide⟩
    · simp only [if_neg htarget, decide_eq_false htarget]
      exact ⟨hbits 5 (by decide), by decide⟩
  | target =>
    rw [oMask_eq]
    by_cases htarget : ssid = mp4TargetSid
    · simp only [if_pos htarget, decide_eq_true htarget]
      exact ⟨hbits 0 (by decide), by decide⟩
    · simp only [if_neg htarget, decide_eq_false htarget]
      exact ⟨hbits 0 (by decide), by decide⟩

/-- `mp4_has_permission` grants what the label of the attribute permits. -/
theorem mp4HasPermission_ofAttr (ssid : ℤ) (text : Option Text) (mask : UInt32) :
    mp4HasPermission ssid (sidOf (text.getD [])) (mask &&& (mayRead ||| mayExec ||| mayWrite)) =
      if (InodeLabel.ofAttr text).Permits (decide (ssid = mp4TargetSid)) mask then 0
      else -eacces := by
  rw [sidOf_ofAttr]
  obtain ⟨hrange, hallows⟩ := oMask_attr ssid (InodeLabel.ofAttr text)
  rw [mp4HasPermission]
  refine if_congr ?_ rfl rfl
  rw [or_eq_right_iff (threeBits_and mask) hrange]
  exact forall_congr' fun operation ↦ by rw [and_and_bit, hallows]

/-! ### The hooks at once -/

/-- The attribute of the inode is read exactly into the buffer, where it is read at all. -/
def Vfs.Reads (vfs : Vfs Inode Dentry) (attr : Inode → Option Text) (inode : Inode)
    (val : Memory) : Prop :=
  ∀ dentry, vfs.dFindAlias inode = some dentry → (vfs.getxattr inode).isSome = true →
    vfs.ReadsExactly inode dentry val (attr inode)

/-- A process is the target when its number is that of the target. -/
theorem isTarget_iff (msec : Mp4Security) :
    Cred.IsTarget ⟨some msec⟩ ↔ msec.mp4Flags = mp4TargetSid := by
  rw [Cred.IsTarget, Option.some_inj, Mp4Security.ext_iff]

instance : DecidablePred Cred.IsTarget := fun cred ↦
  inferInstanceAs (Decidable (cred.security = some ⟨mp4TargetSid⟩))

/-- `mp4_inode_permission` gives the verdict of the policy whenever it returns. Assumes: the
attribute is read exactly. -/
theorem eq_verdict_of_ok {vfs : Vfs Inode Dentry} {path : Dentry → Path}
    {attr : Inode → Option Text} {cred : Cred} {inode : Inode} {mask : UInt32} {buf : Bool}
    {val : Option Memory} {verdict : Verdict} (hpath : vfs.Renders path)
    (hreads : ∀ mem ∈ val, vfs.Reads attr inode mem)
    (hok : mp4InodePermission vfs cred.security inode mask buf val = .ok verdict) :
    verdict = vfs.verdict path attr (decide cred.IsTarget) inode mask := by
  unfold Vfs.verdict
  cases halias : vfs.dFindAlias inode with
  | none =>
    simp only [mp4InodePermission, halias] at hok
    exact (Except.ok.inj hok).symm
  | some dentry =>
    cases buf with
    | false =>
      simp only [mp4InodePermission, halias, if_true] at hok
      cases hok
    | true =>
      obtain ⟨security⟩ := cred
      by_cases hchecked : (path dentry).Checked
      · obtain ⟨hfits, hskip⟩ := (Path.checked_iff _).mp hchecked
        cases security with
        | none => simp [mp4InodePermission, halias, hpath dentry, hfits, hskip] at hok
        | some cs =>
          cases hget : vfs.getxattr inode with
          | none =>
            have hsid : getInodeSid vfs inode val = .ok (-1) := by
              simp only [getInodeSid, halias, hget]
            simp [mp4InodePermission, halias, hpath dentry, hfits, hskip, hsid] at hok
            simp [← hok]
          | some getxattr =>
            cases val with
            | none =>
              simp [mp4InodePermission, halias, hpath dentry, hfits, hskip, getInodeSid,
                hget] at hok
            | some mem =>
              have hread := hreads mem rfl dentry halias (by rw [hget]; rfl)
              have hsid := getInodeSid_of_readsExactly halias hread
              rw [mp4InodePermission_eq hpath halias hsid (sidOf_nonneg _), if_pos hchecked,
                mp4HasPermission_ofAttr] at hok
              rw [← Except.ok.inj hok]
              simp only [hchecked, Option.isSome_some, and_self, if_true, isTarget_iff]
      · have hnot : ¬ ((path dentry).render.length < 255 ∧
            mp4ShouldSkipPath (Memory.ofText (path dentry).render) = false) :=
          fun hboth ↦ hchecked ((Path.checked_iff _).mpr hboth)
        have hunchecked : unchecked = verdict := by
          by_cases hfits : (path dentry).render.length < 255
          · have hskip : mp4ShouldSkipPath (Memory.ofText (path dentry).render) = true :=
              Bool.eq_true_of_not_eq_false fun hskip ↦ hnot ⟨hfits, hskip⟩
            simpa [mp4InodePermission, halias, hpath dentry, hfits, hskip] using hok
          · simpa [mp4InodePermission, halias, hpath dentry, hfits] using hok
        simp only [hchecked, false_and, if_false]
        exact hunchecked.symm

/-- What a new inode gets from the hook, and when the hook returns 0: the target labels its files
and directories, and other processes label nothing. -/
def Vfs.Labels (vfs : Vfs Inode Dentry) (byTarget : Bool) (inode : Inode) (wanted : Wanted)
    (succeeds : Bool) (ret : ℤ) (out : InitXattr) : Prop :=
  (out.value = if wanted.value && wanted.len && succeeds then
      (vfs.newLabel byTarget inode).bind InodeLabel.attr else none) ∧
    (ret = 0 ↔ (wanted.value && wanted.len) = true ∧ (byTarget = true → out.value ≠ none))

/-- `mp4_inode_init_security` gives a new inode the label of the policy whenever it returns. -/
theorem labels_of_ok {vfs : Vfs Inode Dentry} {cred : Cred} {inode : Inode} {wanted : Wanted}
    {succeeds : Bool} {answer : ℤ × InitXattr}
    (hok : mp4InodeInitSecurity vfs cred.security inode wanted succeeds ⟨none, none, 0⟩ =
      .ok answer) :
    vfs.Labels (decide cred.IsTarget) inode wanted succeeds answer.1 answer.2 := by
  obtain ⟨security⟩ := cred
  cases security with
  | none => cases hok
  | some cs =>
    simp only [mp4InodeInitSecurity] at hok
    generalize hout : (if wanted.name = true then _ else (⟨none, none, 0⟩ : InitXattr)) = out at hok
    have hvalue : out.value = none := by
      rw [← hout]
      split_ifs <;> rfl
    simp only [Vfs.Labels, Vfs.newLabel, isTarget_iff]
    by_cases hwanted : (wanted.value && wanted.len) = true
    · rw [if_pos hwanted] at hok
      by_cases htarget : cs.mp4Flags = mp4TargetSid
      · rw [if_pos htarget] at hok
        by_cases hreg : vfs.isReg inode = true
        · cases succeeds <;> simp [hreg, InitXattr.setLabel] at hok <;>
            simp [← hok, hwanted, htarget, hreg, InodeLabel.attr, FileLabel.attr, enomem]
        · by_cases hdir : vfs.isDir inode = true
          · cases succeeds <;> simp [hreg, hdir, InitXattr.setLabel] at hok <;>
              simp [← hok, hwanted, htarget, hreg, hdir, InodeLabel.attr, enomem]
          · simp [hreg, hdir, hvalue] at hok
            simp [← hok, hwanted, htarget, hreg, hdir, hvalue, enomem]
      · rw [if_neg htarget] at hok
        simp [← Except.ok.inj hok, hwanted, htarget, hvalue]
    · rw [if_neg hwanted] at hok
      simp [← Except.ok.inj hok, hwanted, hvalue, eopnotsupp]

/-! ### Labels and histories -/

/-- An execution gives the target label, or takes it away, as the history says. Assumes: it comes to
its end, and reads the attribute exactly. -/
theorem isTarget_of_exec {vfs : Vfs Inode Dentry} {attr : Inode → Option Text} {cred : Cred}
    {inode : Inode} {val : Memory} {result : ℤ × Cred} {executed : List Inode}
    (hreads : vfs.Reads attr inode val)
    (hok : mp4BprmSetCreds vfs cred inode (some val) = .ok result)
    (hbefore : cred.IsTarget ↔ vfs.LastSetsTarget attr executed) :
    result.2.IsTarget ↔ vfs.LastSetsTarget attr (executed ++ [inode]) := by
  obtain ⟨security⟩ := cred
  cases security with
  | some msec =>
    rw [mp4BprmSetCreds_eq rfl hreads] at hok
    rw [← Except.ok.inj hok, isTarget_iff]
    rw [isTarget_iff] at hbefore
    exact isTarget_exec_iff inode hbefore
  | none =>
    cases hsid : getInodeSid vfs inode (some val) with
    | error fault =>
      simp only [mp4BprmSetCreds, hsid] at hok
      cases hok
    | ok sid =>
      by_cases hnonneg : 0 ≤ sid
      · simp only [mp4BprmSetCreds, hsid, if_pos hnonneg] at hok
        cases hok
      · -- Only an inode whose attributes cannot be read has no number.
        have hsets : vfs.setsLabel inode = false := by
          unfold getInodeSid at hsid
          unfold Vfs.setsLabel
          cases halias : vfs.dFindAlias inode with
          | none =>
            rw [halias] at hsid
            exact absurd (Except.ok.inj hsid).le hnonneg
          | some dentry =>
            cases hget : vfs.getxattr inode with
            | none => rfl
            | some getxattr =>
              rw [halias, hget] at hsid
              rw [← Except.ok.inj hsid] at hnonneg
              exact absurd (credCtxToSid_nonneg _) hnonneg
        simp only [mp4BprmSetCreds, hsid, if_neg hnonneg] at hok
        rw [← Except.ok.inj hok, lastSetsTarget_concat, hsets, if_neg Bool.false_ne_true]
        exact hbefore

section Processes

variable [DecidableEq ι] {vfs : Vfs Inode Dentry} {attr : Inode → Option Text}

/-- A step of the processes in which attributes are read exactly. Allocations may fail. -/
def Vfs.ReadsIn (vfs : Vfs Inode Dentry) (attr : Inode → Option Text) :
    ProcessLabel ι Inode → Prop
  | .call _ => True
  | .exec _ inode val => vfs.Reads attr inode val

namespace LabelledByLastSetting

/-- A new credential carries the target label as its history says. -/
theorem produce {s : Processes ι Inode} (hs : LabelledByLastSetting vfs attr s) {new : ι}
    (hnew : s.credentials.slots new = none) {label : ℤ} {result : ℤ × Cred} {history : List Inode}
    (hresult : result.1 = 0 → (result.2.IsTarget ↔ vfs.LastSetsTarget attr history)) :
    LabelledByLastSetting vfs attr
      ⟨s.credentials.produce new label result, Function.update s.executed new history⟩ := by
  intro i credential hi hfreed
  dsimp only at hi ⊢
  rcases slots_produce s.credentials new label result hi with hold | ⟨rfl, hzero, rfl⟩
  · have hne : i ≠ new := by
      intro heq
      rw [heq, hnew] at hold
      cases hold
    rw [Function.update_of_ne hne]
    exact hs i credential hold hfreed
  · rw [Function.update_self]
    exact hresult hzero

/-- A process that has executed nothing is not the target. -/
theorem not_lastSetsTarget_nil : ¬ vfs.LastSetsTarget attr [] := by
  rintro ⟨binary, hlast, -⟩
  cases hlast

/-- A blank label is not that of the target. -/
theorem not_isTarget_allocBlank (kmalloc : Bool) :
    ¬ (mp4CredAllocBlank ⟨none⟩ kmalloc).2.IsTarget := by
  cases kmalloc <;> decide

/-- A prepared credential carries the target label exactly when the old one does. -/
theorem isTarget_prepare_iff {old : Cred} {kmalloc : Bool}
    (hzero : (mp4CredPrepare ⟨none⟩ old kmalloc).1 = 0) :
    (mp4CredPrepare ⟨none⟩ old kmalloc).2.IsTarget ↔ old.IsTarget := by
  obtain ⟨security⟩ := old
  cases security with
  | none => exact iff_of_false (not_isTarget_allocBlank kmalloc) (by decide)
  | some msec =>
    cases kmalloc with
    | false => cases hzero
    | true => exact Iff.rfl

/-- A call of a credential hook keeps the labels as the histories say. -/
theorem call {s : Processes ι Inode} {credentials : Credentials ι} {call : CredCall ι}
    (hs : LabelledByLastSetting vfs attr s)
    (hnext : nextCredentials s.credentials call = some credentials) :
    LabelledByLastSetting vfs attr ⟨credentials, executedAfter s.executed call⟩ := by
  cases call with
  | allocBlank new kmalloc =>
    simp only [nextCredentials] at hnext
    split at hnext
    · cases hnext
    · rename_i hnew
      rw [← Option.some.inj hnext]
      exact hs.produce hnew fun _ ↦
        iff_of_false (not_isTarget_allocBlank kmalloc) not_lastSetsTarget_nil
  | prepare new old kmalloc =>
    simp only [nextCredentials] at hnext
    split at hnext
    · rename_i credential hnew hold
      split_ifs at hnext with hfreed
      rw [← Option.some.inj hnext]
      rw [Bool.not_eq_true] at hfreed
      exact hs.produce hnew fun hzero ↦
        (isTarget_prepare_iff hzero).trans (hs old credential hold hfreed)
    · cases hnext
  | free old =>
    simp only [nextCredentials] at hnext
    split at hnext
    · cases hnext
    · rename_i credential hold
      split_ifs at hnext with hfreed
      rw [← Option.some.inj hnext]
      intro i other hi hother
      dsimp only at hi
      by_cases heq : i = old
      · rw [heq, Function.update_self] at hi
        rw [← Option.some.inj hi] at hother
        cases hother
      · rw [Function.update_of_ne heq] at hi
        exact hs i other hi hother

/-- An execution keeps the labels as the histories say. Assumes: the attribute is read exactly. -/
theorem exec {s later : Processes ι Inode} {i : ι} {inode : Inode} {val : Memory}
    (hs : LabelledByLastSetting vfs attr s) (hreads : vfs.Reads attr inode val)
    (hnext : nextProcesses vfs s (.exec i inode val) = some later) :
    LabelledByLastSetting vfs attr later := by
  simp only [nextProcesses] at hnext
  split at hnext
  · cases hnext
  · rename_i credential hi
    split_ifs at hnext with hfreed
    rw [Bool.not_eq_true] at hfreed
    split at hnext
    · cases hnext
    · rename_i result hok
      have hlabel := isTarget_of_exec hreads hok (hs i credential hi hfreed)
      rw [← Option.some.inj hnext]
      intro j other hj hother
      dsimp only at hj ⊢
      by_cases heq : j = i
      · rw [heq, Function.update_self] at hj
        rw [← Option.some.inj hj, heq, Function.update_self]
        exact hlabel
      · rw [Function.update_of_ne heq] at hj ⊢
        exact hs j other hj hother

end LabelledByLastSetting

/-- Along every history, with allocations that may fail, processes carry the target label as their
histories say. -/
theorem lastSetting_of_reachable {s : Processes ℕ Inode}
    (hreach : ReachableUnder (nextProcesses vfs) (fun _ label ↦ vfs.ReadsIn attr label)
      bootProcesses s) : LabelledByLastSetting vfs attr s := by
  refine hreach.invariant (LabelledByLastSetting vfs attr) (fun i credential hi _ ↦ ?_) ?_
  · have hnull : credential.cred = ⟨none⟩ := by
      by_cases hzero : i = 0
      · rw [hzero] at hi
        rw [← Option.some.inj hi]
      · have hnone : Function.update (fun _ ↦ none) 0
            (some (⟨⟨none⟩, none, false⟩ : Credential)) i = some credential := hi
        rw [Function.update_of_ne hzero] at hnone
        cases hnone
    rw [hnull]
    exact iff_of_false (by decide) LabelledByLastSetting.not_lastSetsTarget_nil
  · intro before label later hbefore hreads hnext
    cases label with
    | call call =>
      obtain ⟨credentials, hcredentials, rfl⟩ := Option.map_eq_some_iff.mp hnext
      exact hbefore.call hcredentials
    | exec i inode val => exact hbefore.exec hreads hnext

end Processes

/-! ### The accesses of every run -/

/-- The attributes that a call reads are read exactly. Its allocations may fail. -/
def HookCall.ReadsAttributes (vfs : Vfs Inode Dentry) (attr : Inode → Option Text) :
    HookCall Inode → Prop
  | .bprmSetCreds _ inode val => ∀ mem ∈ val, vfs.Reads attr inode mem
  | .inodePermission _ inode _ _ val _ => ∀ mem ∈ val, vfs.Reads attr inode mem
  | _ => True

/-- The processes read attributes exactly in the steps that they take for such calls. -/
theorem HookCall.ReadsAttributes.readsIn {vfs : Vfs Inode Dentry} {attr : Inode → Option Text}
    {new : ℕ} {call : HookCall Inode} {label : ProcessLabel ℕ Inode}
    (hcall : call.ReadsAttributes vfs attr) (hsteps : call.Steps vfs new label) :
    vfs.ReadsIn attr label := by
  cases call with
  | credAllocBlank block =>
    rw [show label = _ from hsteps]
    exact trivial
  | credPrepare old block =>
    rw [show label = _ from hsteps]
    exact trivial
  | credFree c =>
    rw [show label = _ from hsteps]
    exact trivial
  | bprmSetCreds c inode val =>
    obtain ⟨mem, rfl, hval | ⟨-, hunread⟩⟩ := hsteps
    · exact hcall mem hval
    · intro dentry halias hget
      rcases hunread with hnone | hnone
      · rw [hnone] at halias
        cases halias
      · rw [hnone] at hget
        cases hget
  | inodePermission current inode mask buf val ratelimit => exact hsteps.elim
  | inodeInitSecurity current inode wanted succeeds => exact hsteps.elim

/-- The answer is the one of the policy, for a process that is the target exactly when the last
binary of its history that set a label says so. -/
def Answer.DecidedByHistory (vfs : Vfs Inode Dentry) (path : Dentry → Path)
    (attr : Inode → Option Text) (answer : Answer Inode) : Prop :=
  ∃ byTarget : Bool, (byTarget = true ↔ vfs.LastSetsTarget attr answer.executed) ∧
    match answer.call with
    | .inodePermission _ inode mask _ _ _ =>
      answer.reply = .verdict (vfs.verdict path attr byTarget inode mask)
    | .inodeInitSecurity _ inode wanted succeeds =>
      ∃ ret out, answer.reply = .xattr ret out ∧
        vfs.Labels byTarget inode wanted succeeds ret out
    | _ => False

/-- An answer that the processes justify is the one of the policy. -/
theorem Justifies.decidedByHistory {vfs : Vfs Inode Dentry} {path : Dentry → Path}
    {attr : Inode → Option Text} {processes : Processes ℕ Inode} {answer : Answer Inode}
    (hpath : vfs.Renders path) (hlabels : LabelledByLastSetting vfs attr processes)
    (hreads : answer.call.ReadsAttributes vfs attr)
    (hjustifies : Justifies vfs processes answer) : answer.DecidedByHistory vfs path attr := by
  obtain ⟨c, -, credential, hslot, hfreed, hexecuted, hanswer⟩ := hjustifies
  have htarget := hlabels c credential hslot hfreed
  rw [hexecuted] at htarget
  refine ⟨decide credential.cred.IsTarget, decide_eq_true_iff.trans htarget, ?_⟩
  obtain ⟨call, executed, reply⟩ := answer
  cases call with
  | inodePermission current inode mask buf val ratelimit =>
    have hok := Option.some.inj hanswer
    cases hverdict : mp4InodePermission vfs credential.cred.security inode mask buf.isSome val with
    | error fault =>
      rw [hverdict] at hok
      cases hok
    | ok verdict =>
      rw [hverdict] at hok
      exact (Except.ok.inj hok).symm.trans
        (congrArg Reply.verdict (eq_verdict_of_ok hpath hreads hverdict))
  | inodeInitSecurity current inode wanted succeeds =>
    have hok := Option.some.inj hanswer
    cases hxattr : mp4InodeInitSecurity vfs credential.cred.security inode wanted succeeds
        ⟨none, none, 0⟩ with
    | error fault =>
      rw [hxattr] at hok
      cases hok
    | ok result =>
      rw [hxattr] at hok
      exact ⟨result.1, result.2, (Except.ok.inj hok).symm, labels_of_ok hxattr⟩
  | _ => cases hanswer

/-- In every run in which the hooks interleave, allocations may fail and attributes are read
exactly, every access is decided by the policy: by the label of the inode, and by the last binary
that set a label in the history of the process. -/
theorem decidedByHistory_of_reachable [DecidableEq κ] [Fintype κ] [DecidableEq Dentry]
    {vfs : Vfs Inode Dentry} {path : Dentry → Path} {attr : Inode → Option Text}
    {s : Kernel κ Inode Dentry} (hpath : vfs.Renders path)
    (hreach : ReachableUnder (nextKernel vfs)
      (fun _ event ↦ event.Starts (HookCall.ReadsAttributes vfs attr)) bootKernel s) :
    ∀ answer ∈ s.answers, answer.DecidedByHistory vfs path attr := by
  obtain ⟨processes, haccounts⟩ := accounts_of_reachable
    (fun _ _ _ hcall hsteps ↦ HookCall.ReadsAttributes.readsIn hcall hsteps) hreach
  intro answer hanswer
  obtain ⟨hreads, moment, hmoment, -, hjustifies⟩ := haccounts.answers answer hanswer
  exact hjustifies.decidedByHistory hpath (lastSetting_of_reachable hmoment) hreads

/-- The events of a call that takes its operations alone start a call with the property. -/
theorem KernelEvent.starts_of_mem_alone {fine : HookCall Inode → Prop} {k : κ}
    {call : HookCall Inode} (hcall : fine call) {operations : ℕ} {event : KernelEvent κ Inode}
    (hevent : event ∈ KernelEvent.alone k call operations) : event.Starts fine := by
  rcases List.mem_append.mp hevent with hbefore | hfinish
  · rcases List.mem_cons.mp hbefore with rfl | hstep
    · exact hcall
    · rw [List.eq_of_mem_replicate hstep]
      exact trivial
  · rw [List.mem_singleton.mp hfinish]
    exact trivial

/-- The process with the credential 1 executes the labelled binary, writes to a file that the target
alone may write, and creates a file. -/
def targetActs : List (KernelEvent Bool File) :=
  KernelEvent.alone false (.credPrepare 0 (some ⟨mp4NoAccess⟩)) 4 ++
    KernelEvent.alone false (.bprmSetCreds 1 targetBinary (some fun _ ↦ 0)) 8 ++
      KernelEvent.alone true writeNotes 13 ++
        KernelEvent.alone false
          (.inodeInitSecurity 1 (labelledFile homeNotes none) ⟨true, true, true⟩ true) 5

/-- The write is granted, and the new file gets the label `read-write`. -/
theorem exists_decidedByHistory : ∃ s : Kernel Bool File File,
    (s.answers.map Answer.reply =
      [.verdict ⟨0, true⟩, .xattr 0 ⟨some xattrMp4Suffix, some (bytes "read-write"), 10⟩]) ∧
        ∀ answer ∈ s.answers, answer.DecidedByHistory fileVfs File.path File.attr := by
  have hreads : ∀ {file : File}, (0 : UInt8) ∉ file.attr.getD [] →
      ∀ mem ∈ some fun _ ↦ (0 : UInt8), fileVfs.Reads File.attr file mem := by
    intro file hattr mem hmem
    rw [← Option.some.inj hmem]
    exact readsAndAllocates_exec ⟨⟨fun _ ↦ none, 0⟩, fun _ ↦ []⟩ 0 hattr
  have hstarts : ∀ event ∈ targetActs,
      event.Starts (HookCall.ReadsAttributes fileVfs File.attr) := by
    intro event hevent
    simp only [targetActs, List.mem_append] at hevent
    rcases hevent with ((hprepare | hexec) | hwrite) | hcreate
    · exact KernelEvent.starts_of_mem_alone trivial hprepare
    · refine KernelEvent.starts_of_mem_alone ?_ hexec
      exact hreads (by decide)
    · refine KernelEvent.starts_of_mem_alone ?_ hwrite
      exact hreads (by decide)
    · exact KernelEvent.starts_of_mem_alone trivial hcreate
  have hrun : ∃ s : Kernel Bool File File, ReachableUnder (nextKernel fileVfs)
      (fun _ event ↦ event.Starts (HookCall.ReadsAttributes fileVfs File.attr)) bootKernel s ∧
        (s.answers.map Answer.reply =
          [.verdict ⟨0, true⟩, .xattr 0 ⟨some xattrMp4Suffix, some (bytes "read-write"), 10⟩]) :=
    exists_reachableUnder_of_run targetActs
      (meets_of_forall fun event hevent _ ↦ hstarts event hevent) (by decide +kernel)
  obtain ⟨s, hreach, hanswers⟩ := hrun
  exact ⟨s, hanswers, decidedByHistory_of_reachable fileVfs_renders hreach⟩

end KernelModules.AccessControl

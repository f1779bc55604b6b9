import KernelModules.AccessControl.FilePermissions

/-!
# Creating an inode and accessing it

`mp4_inode_init_security` labels what the target creates, `get_inode_sid` reads the label back. The
label is given with its length and without a terminator, and read into a buffer that is not zeroed
and compared as a string. Whether the access that the label stands for is granted then depends on
the byte that the buffer held after the label (`roundTrips_iff`).
-/

set_option autoImplicit false
set_option relaxedAutoImplicit false

namespace KernelModules.AccessControl

open Foundation

variable {Inode Dentry : Type*}

/-! ### The law of the round trip -/

/-- `mp4_inode_permission` returns the number to a subject. -/
def Returns (vfs : Vfs Inode Dentry) (cs : Mp4Security) (inode : Inode) (mask : UInt32)
    (val : Memory) (perm : ℤ) : Prop :=
  ∃ verdict, mp4InodePermission vfs (some cs) inode mask true (some val) = .ok verdict ∧
    verdict.perm = perm

/-- A call returns one number. -/
theorem Returns.perm_eq {vfs : Vfs Inode Dentry} {cs : Mp4Security} {inode : Inode} {mask : UInt32}
    {val : Memory} {perm : ℤ} {verdict : Verdict} (hreturns : Returns vfs cs inode mask val perm)
    (hcall : mp4InodePermission vfs (some cs) inode mask true (some val) = .ok verdict) :
    verdict.perm = perm := by
  obtain ⟨other, hother, hperm⟩ := hreturns
  rw [hcall] at hother
  rw [Except.ok.inj hother, hperm]

/-- The mask asks for no operation but those of the list. -/
def AsksOnly (mask : UInt32) (operations : List Operation) : Prop :=
  ∀ operation : Operation, mask &&& operation.bit ≠ 0 → operation ∈ operations

/-- What the creator of a regular file expects: the target may read and write it, and others may
read and not write it. -/
def RegularRoundTrips (vfs : Vfs Inode Dentry) (inode : Inode) (val : Memory) : Prop :=
  (∀ mask, AsksOnly mask [.read, .write] → Returns vfs ⟨mp4TargetSid⟩ inode mask val 0) ∧
    ∀ cs : Mp4Security, cs.mp4Flags ≠ mp4TargetSid → ∀ mask,
      (AsksOnly mask [.read] → Returns vfs cs inode mask val 0) ∧
        (mask &&& mayWrite ≠ 0 → Returns vfs cs inode mask val (-eacces))

/-- What the creator of a directory expects: the target may use it in every way. -/
def DirectoryRoundTrips (vfs : Vfs Inode Dentry) (inode : Inode) (val : Memory) : Prop :=
  ∀ mask, Returns vfs ⟨mp4TargetSid⟩ inode mask val 0

/-- What the creator of an inode expects. -/
def RoundTrips (vfs : Vfs Inode Dentry) (inode : Inode) (val : Memory) : Prop :=
  (vfs.isReg inode = true → RegularRoundTrips vfs inode val) ∧
    (vfs.isReg inode = false → DirectoryRoundTrips vfs inode val)

/-! ### The label of a created inode -/

/-- The label that the target gives to a regular file or directory. -/
def createdLabel (vfs : Vfs Inode Dentry) (inode : Inode) : Text :=
  if vfs.isReg inode then bytes "read-write" else bytes "dir-write"

/-- Where `mp4_inode_init_security` returns 0 to the target, the value and the length it has set are
those of the label. -/
theorem mp4InodeInitSecurity_target {vfs : Vfs Inode Dentry} {inode : Inode} {wanted : Wanted}
    {kstrdup : Bool} {out created : InitXattr}
    (hkind : vfs.isReg inode = true ∨ vfs.isDir inode = true)
    (hcreate : mp4InodeInitSecurity vfs (some ⟨mp4TargetSid⟩) inode wanted kstrdup out =
      .ok (0, created)) :
    created.value = some (createdLabel vfs inode) ∧
      created.len = (createdLabel vfs inode).length := by
  have hlabel : ∀ start : InitXattr,
      (if vfs.isReg inode then start.setLabel (bytes "read-write") kstrdup
        else if vfs.isDir inode then start.setLabel (bytes "dir-write") kstrdup else start) =
      start.setLabel (createdLabel vfs inode) kstrdup := by
    intro start
    unfold createdLabel
    by_cases hreg : vfs.isReg inode = true
    · simp only [if_pos hreg]
    · simp only [if_neg hreg, if_pos (hkind.resolve_left hreg)]
  simp only [mp4InodeInitSecurity, hlabel] at hcreate
  by_cases hwanted : (wanted.value && wanted.len) = true
  · cases kstrdup with
    | true =>
      simp only [hwanted, InitXattr.setLabel, if_true, reduceCtorEq, if_false] at hcreate
      have hout : _ = created := congrArg Prod.snd (Except.ok.inj hcreate)
      rw [← hout]
      exact ⟨rfl, rfl⟩
    | false =>
      simp [hwanted, InitXattr.setLabel, enomem] at hcreate
  · simp [hwanted, eopnotsupp] at hcreate

/-- What `get_inode_sid` reads of a created inode. -/
theorem credCtxToSid_createdLabel (vfs : Vfs Inode Dentry) (inode : Inode) (val : Memory) :
    credCtxToSid (val.store (createdLabel vfs inode)) =
      if val (createdLabel vfs inode).length = 0 then
        if vfs.isReg inode then mp4ReadWrite else mp4RwDir
      else mp4NoAccess := by
  unfold createdLabel
  split_ifs with hreg hterminated hterminated
  all_goals rw [credCtxToSid_store (by decide) (by decide)]
  · rw [if_pos hterminated]
    decide
  · rw [if_neg hterminated]
  · rw [if_pos hterminated]
    decide
  · rw [if_neg hterminated]

/-! ### When the round trip succeeds -/

section Access

variable {vfs : Vfs Inode Dentry} {path : Dentry → Path} {inode : Inode} {dentry : Dentry}
  {val : Memory} {osid : ℤ}

/-- What `mp4_inode_permission` returns for an inode with the given label. -/
theorem returns_iff (hpath : vfs.Renders path) (halias : vfs.dFindAlias inode = some dentry)
    (hsid : getInodeSid vfs inode (some val) = .ok osid) (hosid : 0 ≤ osid) (cs : Mp4Security)
    (mask : UInt32) (perm : ℤ) :
    Returns vfs cs inode mask val perm ↔
      (if (path dentry).Checked then
        mp4HasPermission cs.mp4Flags osid (mask &&& (mayRead ||| mayExec ||| mayWrite))
      else 0) = perm := by
  unfold Returns
  rw [mp4InodePermission_eq hpath halias hsid hosid]
  split_ifs with hchecked
  · simp only [Except.ok.injEq, exists_eq_left']
  · simp only [Except.ok.injEq, exists_eq_left', unchecked]

/-- A regular file that the target creates is accessed as expected if and only if its path is
checked and its label is read back. Assumes: the label is `read-write` where it is read back. -/
theorem regularRoundTrips_iff (hpath : vfs.Renders path)
    (halias : vfs.dFindAlias inode = some dentry) {terminated : Prop} [Decidable terminated]
    (hsid : getInodeSid vfs inode (some val) =
      .ok (if terminated then mp4ReadWrite else mp4NoAccess)) :
    RegularRoundTrips vfs inode val ↔ (path dentry).Checked ∧ terminated := by
  have hosid : 0 ≤ if terminated then mp4ReadWrite else mp4NoAccess := by split_ifs <;> decide
  unfold RegularRoundTrips
  simp only [returns_iff hpath halias hsid hosid]
  constructor
  · rintro ⟨htarget, hother⟩
    have hchecked : (path dentry).Checked := by
      by_contra hnot
      have hwrite := (hother ⟨mp4NoAccess⟩ (by decide) mayWrite).2 (by decide)
      rw [if_neg hnot] at hwrite
      exact absurd hwrite (by decide)
    refine ⟨hchecked, ?_⟩
    by_contra hnot
    have hread := htarget mayRead (by unfold AsksOnly; decide)
    rw [if_pos hchecked, if_neg hnot] at hread
    exact absurd hread (by decide)
  · rintro ⟨hchecked, hterminated⟩
    have hpermits : ∀ ssid mask, mp4HasPermission ssid mp4ReadWrite
        (mask &&& (mayRead ||| mayExec ||| mayWrite)) =
          if FileLabel.readWrite.Permits (decide (ssid = mp4TargetSid)) mask then 0 else -eacces :=
      fun ssid mask ↦ mp4HasPermission_sidOf ssid .readWrite mask
    simp only [if_pos hchecked, if_pos hterminated, hpermits]
    refine ⟨fun mask hmask ↦ if_pos fun operation hoperation ↦ ?_, fun cs hcs mask ↦ ⟨fun hmask ↦
      if_pos fun operation hoperation ↦ ?_, fun hwrite ↦ if_neg fun hall ↦ ?_⟩⟩
    · rcases List.mem_pair.mp (hmask operation hoperation) with rfl | rfl
      · exact Or.inl rfl
      · exact Or.inr ⟨rfl, rfl⟩
    · exact Or.inl (List.mem_singleton.mp (hmask operation hoperation))
    · rcases hall .write hwrite with hread | ⟨-, htarget⟩
      · cases hread
      · exact hcs (of_decide_eq_true htarget)

/-- A directory that the target creates is accessed as expected if and only if its path is not
checked or its label is read back. Assumes: the label is `dir-write` where it is read back. -/
theorem directoryRoundTrips_iff (hpath : vfs.Renders path)
    (halias : vfs.dFindAlias inode = some dentry) {terminated : Prop} [Decidable terminated]
    (hsid : getInodeSid vfs inode (some val) =
      .ok (if terminated then mp4RwDir else mp4NoAccess)) :
    DirectoryRoundTrips vfs inode val ↔ ((path dentry).Checked → terminated) := by
  have hosid : 0 ≤ if terminated then mp4RwDir else mp4NoAccess := by split_ifs <;> decide
  unfold DirectoryRoundTrips
  simp only [returns_iff hpath halias hsid hosid]
  constructor
  · intro hall hchecked
    by_contra hnot
    have hread := hall mayRead
    rw [if_pos hchecked, if_neg hnot] at hread
    exact absurd hread (by decide)
  · intro himp mask
    split_ifs with hchecked hterminated
    · refine if_pos ((or_eq_right_iff (threeBits_and mask) ⟨7, by decide, rfl⟩).mpr ?_)
      exact fun operation _ ↦ by cases operation <;> decide
    · exact absurd (himp hchecked) hterminated
    · rfl

end Access

/-- Assumes: a regular file or directory that the target has created, on a filesystem that keeps the
label as it was given. What the creator expects holds if and only if, for a regular file, its path
is checked and the byte after the label in the buffer was NUL; for a directory, its path is not
checked or that byte was NUL. -/
theorem roundTrips_iff {vfs : Vfs Inode Dentry} {path : Dentry → Path} {inode : Inode}
    {dentry : Dentry} {wanted : Wanted} {kstrdup : Bool} {out created : InitXattr}
    (hpath : vfs.Renders path) (halias : vfs.dFindAlias inode = some dentry)
    (hkind : vfs.isReg inode = true ∨ vfs.isDir inode = true)
    (hcreate : mp4InodeInitSecurity vfs (some ⟨mp4TargetSid⟩) inode wanted kstrdup out =
      .ok (0, created))
    (hstores : vfs.Stores inode dentry ((created.value.getD []).take created.len))
    (val : Memory) :
    RoundTrips vfs inode val ↔
      (vfs.isReg inode = true → (path dentry).Checked ∧ val 10 = 0) ∧
        (vfs.isReg inode = false → (path dentry).Checked → val 9 = 0) := by
  obtain ⟨hvalue, hlen⟩ := mp4InodeInitSecurity_target hkind hcreate
  rw [hvalue, hlen, Option.getD_some, List.take_length] at hstores
  have hsid := getInodeSid_of_stores halias hstores val
  rw [credCtxToSid_createdLabel] at hsid
  unfold RoundTrips createdLabel at *
  by_cases hreg : vfs.isReg inode = true
  · simp only [if_pos hreg] at hsid
    simp only [hreg, true_implies, Bool.true_eq_false, false_implies, and_true]
    exact regularRoundTrips_iff hpath halias hsid
  · rw [Bool.not_eq_true] at hreg
    simp only [hreg, Bool.false_eq_true, if_false] at hsid
    simp only [hreg, Bool.false_eq_true, false_implies, true_implies, true_and]
    exact directoryRoundTrips_iff hpath halias hsid

/-- The file `/home/notes` as the target has created it. -/
def createdNotes : File := labelledFile homeNotes (some (bytes "read-write"))

/-- What `mp4_inode_init_security` sets for the file. -/
def createdXattr : InitXattr := ⟨some (bytes "mp4"), some (bytes "read-write"), 10⟩

/-- Read into a zeroed buffer, the label of the created file is found. -/
theorem roundTrips_createdNotes : RoundTrips fileVfs createdNotes fun _ ↦ 0 := by
  have hcreate : mp4InodeInitSecurity fileVfs (some ⟨mp4TargetSid⟩) createdNotes ⟨true, true, true⟩
      true ⟨none, none, 0⟩ = .ok (0, createdXattr) := by rfl
  have hstores : fileVfs.Stores createdNotes createdNotes
      ((createdXattr.value.getD []).take createdXattr.len) := ⟨_, rfl, fun _ ↦ rfl⟩
  have halias : fileVfs.dFindAlias createdNotes = some createdNotes := rfl
  have hchecked : homeNotes.Checked := by decide
  refine (roundTrips_iff fileVfs_renders halias (Or.inl rfl) hcreate hstores _).mpr ⟨?_, ?_⟩
  · exact fun _ ↦ ⟨hchecked, rfl⟩
  · exact fun hdirectory ↦ absurd hdirectory (by decide)

/-- Read into a buffer with other bytes, the label of the created file is not found, and the target
may not read the file it has created. -/
theorem not_roundTrips_createdNotes :
    mp4InodeInitSecurity fileVfs (some ⟨mp4TargetSid⟩) createdNotes ⟨true, true, true⟩ true
        ⟨none, none, 0⟩ = .ok (0, createdXattr) ∧
      fileVfs.Stores createdNotes createdNotes
        ((createdXattr.value.getD []).take createdXattr.len) ∧
      ¬ RoundTrips fileVfs createdNotes fun _ ↦ 1 := by
  refine ⟨by rfl, ⟨_, rfl, fun _ ↦ rfl⟩, fun hround ↦ ?_⟩
  have hgranted := (hround.1 rfl).1 mayRead (by unfold AsksOnly; decide)
  have hdenied : mp4InodePermission fileVfs (some ⟨mp4TargetSid⟩) createdNotes mayRead true
      (some fun _ ↦ 1) = .ok ⟨-eacces, true⟩ := by rfl
  exact absurd (hgranted.perm_eq hdenied) (by decide)

end KernelModules.AccessControl

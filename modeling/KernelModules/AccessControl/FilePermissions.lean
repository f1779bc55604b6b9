import KernelModules.AccessControl.SkippedPaths

/-!
# What `mp4_inode_permission` decides for files

The meaning of the labels as `MP4/mp4_given.h` documents it (`FileLabel.Allows`), and the law that
the hook should obey: it skips its check only below a listed directory, and decides every other
access by the meaning of the label (`DecidesExactly`).

The hook compares bytes where the list means components, and grants an access whose path does not
fit into its buffer. `decidesExactly_iff` says that these are the only exceptions.
-/

set_option autoImplicit false
set_option relaxedAutoImplicit false

namespace KernelModules.AccessControl

open Foundation

/-! ### The meaning of the labels -/

/-- What a process asks to do with a file. -/
inductive Operation
  | read
  | write
  | exec
  deriving DecidableEq

/-- The operations are three. -/
instance : Fintype Operation :=
  ⟨{.read, .write, .exec}, fun operation ↦ by cases operation <;> decide⟩

/-- The bit of an operation in a mask. -/
def Operation.bit : Operation → UInt32
  | .read => mayRead
  | .write => mayWrite
  | .exec => mayExec

/-- The labels of files. -/
inductive FileLabel
  | noAccess
  | readObj
  | readWrite
  | writeObj
  | execObj
  deriving DecidableEq

/-- The attribute that gives a file its label. A file without one has the label `noAccess`. -/
def FileLabel.attr : FileLabel → Option Text
  | .noAccess => none
  | .readObj => some (bytes "read-only")
  | .readWrite => some (bytes "read-write")
  | .writeObj => some (bytes "write-only")
  | .execObj => some (bytes "exec")

/-- The operations that a label allows to the target, and to other processes. -/
def FileLabel.Allows : FileLabel → Bool → Operation → Prop
  | .noAccess, target, _ => target = false
  | .readObj, _, operation => operation = .read
  | .readWrite, target, operation => operation = .read ∨ (operation = .write ∧ target = true)
  | .writeObj, target, operation =>
    (operation = .read ∧ target = false) ∨ (operation = .write ∧ target = true)
  | .execObj, _, operation => operation = .read ∨ operation = .exec

/-- The label allows every operation in the mask. -/
def FileLabel.Permits (label : FileLabel) (target : Bool) (mask : UInt32) : Prop :=
  ∀ operation : Operation, mask &&& operation.bit ≠ 0 → label.Allows target operation

instance (label : FileLabel) (target : Bool) (operation : Operation) :
    Decidable (label.Allows target operation) :=
  match label with
  | .noAccess => inferInstanceAs (Decidable (target = false))
  | .readObj => inferInstanceAs (Decidable (operation = .read))
  | .readWrite =>
    inferInstanceAs (Decidable (operation = .read ∨ (operation = .write ∧ target = true)))
  | .writeObj => inferInstanceAs (Decidable
      ((operation = .read ∧ target = false) ∨ (operation = .write ∧ target = true)))
  | .execObj => inferInstanceAs (Decidable (operation = .read ∨ operation = .exec))

instance (label : FileLabel) (target : Bool) (mask : UInt32) :
    Decidable (label.Permits target mask) :=
  inferInstanceAs (Decidable (∀ operation : Operation,
    mask &&& operation.bit ≠ 0 → label.Allows target operation))

/-! ### The law of the hook -/

/-- The law of the hook for one access. It skips the check only for listed paths, and on other paths
returns 0 when the label permits the mask, and `-EACCES` when it does not. -/
def DecidesExactly {Inode Dentry : Type*} (vfs : Vfs Inode Dentry) (cs : Mp4Security)
    (inode : Inode) (mask : UInt32) (val : Memory) (path : Path) (label : FileLabel) : Prop :=
  ∃ verdict, mp4InodePermission vfs (some cs) inode mask true (some val) = .ok verdict ∧
    (verdict.checked = false → path.Listed) ∧
    (¬ path.Listed → verdict.perm =
      if label.Permits (decide (cs.mp4Flags = mp4TargetSid)) mask then 0 else -eacces)

/-! ### The decision follows the labels -/

/-- The masks of the three bits are the numbers below 8. -/
def ThreeBits (mask : UInt32) : Prop := ∃ m < 8, mask = UInt32.ofNat m

/-- The hook looks at three bits of a mask. -/
theorem threeBits_and (mask : UInt32) :
    ThreeBits (mask &&& (mayRead ||| mayExec ||| mayWrite)) := by
  have hle : (mask &&& (mayRead ||| mayExec ||| mayWrite)).toNat ≤ 7 := by
    rw [UInt32.toNat_and]
    exact Nat.and_le_right
  exact ⟨_, Nat.lt_succ_of_le hle, UInt32.ofNat_toNat.symm⟩

/-- A mask is within another of the three bits when every operation in it is in the other. -/
theorem or_eq_right_iff {mask other : UInt32} (hmask : ThreeBits mask) (hother : ThreeBits other) :
    mask ||| other = other ↔
      ∀ operation : Operation, mask &&& operation.bit ≠ 0 → other &&& operation.bit ≠ 0 := by
  have hall : ∀ m < 8, ∀ o < 8, (UInt32.ofNat m ||| UInt32.ofNat o = UInt32.ofNat o ↔
      ∀ operation : Operation, UInt32.ofNat m &&& operation.bit ≠ 0 →
        UInt32.ofNat o &&& operation.bit ≠ 0) := by
    decide +kernel
  obtain ⟨m, hm, rfl⟩ := hmask
  obtain ⟨o, ho, rfl⟩ := hother
  exact hall m hm o ho

/-- The three bits keep the operations of a mask. -/
theorem and_and_bit (mask : UInt32) (operation : Operation) :
    mask &&& (mayRead ||| mayExec ||| mayWrite) &&& operation.bit = mask &&& operation.bit := by
  rw [UInt32.and_assoc]
  congr 1
  cases operation <;> decide

/-- Subjects other than the target have the same operations. -/
theorem oMask_eq (ssid osid : ℤ) :
    oMask ssid osid = oMask (if ssid = mp4TargetSid then mp4TargetSid else mp4NoAccess) osid := by
  by_cases htarget : ssid = mp4TargetSid
  · rw [if_pos htarget, htarget]
  · rw [if_neg htarget]
    simp only [oMask, if_neg htarget, if_neg (by decide : mp4NoAccess ≠ mp4TargetSid)]

/-- The operations of the table are those that the label allows. -/
theorem oMask_sidOf (ssid : ℤ) (label : FileLabel) :
    ThreeBits (oMask ssid (sidOf (label.attr.getD []))) ∧
      ∀ operation : Operation, oMask ssid (sidOf (label.attr.getD [])) &&& operation.bit ≠ 0 ↔
        label.Allows (decide (ssid = mp4TargetSid)) operation := by
  have hbits : ∀ m < 8, ThreeBits (UInt32.ofNat m) := fun m hm ↦ ⟨m, hm, rfl⟩
  rw [oMask_eq]
  by_cases htarget : ssid = mp4TargetSid
  · simp only [if_pos htarget, decide_eq_true htarget]
    cases label with
    | noAccess => exact ⟨hbits 0 (by decide), by decide⟩
    | readObj => exact ⟨hbits 4 (by decide), by decide⟩
    | readWrite => exact ⟨hbits 6 (by decide), by decide⟩
    | writeObj => exact ⟨hbits 2 (by decide), by decide⟩
    | execObj => exact ⟨hbits 5 (by decide), by decide⟩
  · simp only [if_neg htarget, decide_eq_false htarget]
    cases label with
    | noAccess => exact ⟨hbits 7 (by decide), by decide⟩
    | readObj => exact ⟨hbits 4 (by decide), by decide⟩
    | readWrite => exact ⟨hbits 4 (by decide), by decide⟩
    | writeObj => exact ⟨hbits 4 (by decide), by decide⟩
    | execObj => exact ⟨hbits 5 (by decide), by decide⟩

/-- `mp4_has_permission` grants what the label permits. -/
theorem mp4HasPermission_sidOf (ssid : ℤ) (label : FileLabel) (mask : UInt32) :
    mp4HasPermission ssid (sidOf (label.attr.getD []))
        (mask &&& (mayRead ||| mayExec ||| mayWrite)) =
      if label.Permits (decide (ssid = mp4TargetSid)) mask then 0 else -eacces := by
  obtain ⟨hrange, hallows⟩ := oMask_sidOf ssid label
  rw [mp4HasPermission]
  refine if_congr ?_ rfl rfl
  rw [or_eq_right_iff (threeBits_and mask) hrange]
  exact forall_congr' fun operation ↦ by rw [and_and_bit, hallows]

/-! ### When the hook obeys the law -/

variable {Inode Dentry : Type*}

/-- Assumes: an inode with an alias, and a file label that is read exactly. The hook decides every
access exactly if and only if the path is listed or checked: rendered in at most 254 bytes, and not
beginning with the bytes of a listed name. -/
theorem decidesExactly_iff {vfs : Vfs Inode Dentry} {path : Dentry → Path} {inode : Inode}
    {dentry : Dentry} {val : Memory} {label : FileLabel} (hpath : vfs.Renders path)
    (halias : vfs.dFindAlias inode = some dentry)
    (hread : vfs.ReadsExactly inode dentry val label.attr) (cs : Mp4Security) (mask : UInt32) :
    DecidesExactly vfs cs inode mask val (path dentry) label ↔
      (path dentry).Listed ∨ (path dentry).Checked := by
  have hsid := getInodeSid_of_readsExactly halias hread
  have hnonneg : 0 ≤ sidOf (label.attr.getD []) := by cases label <;> decide
  unfold DecidesExactly
  rw [mp4InodePermission_eq hpath halias hsid hnonneg cs mask]
  by_cases hchecked : (path dentry).Checked
  · rw [if_pos hchecked, mp4HasPermission_sidOf]
    refine iff_of_true ⟨_, rfl, ?_, fun _ ↦ rfl⟩ (Or.inr hchecked)
    exact fun hfalse ↦ absurd hfalse Bool.true_eq_false_eq_False
  · rw [if_neg hchecked, or_iff_left hchecked]
    constructor
    · rintro ⟨verdict, hverdict, honly, -⟩
      rw [← Except.ok.inj hverdict] at honly
      exact honly rfl
    · intro hlisted
      exact ⟨unchecked, rfl, fun _ ↦ hlisted, fun hnot ↦ absurd hlisted hnot⟩

/-- Writes of the target to a read-only file below `/home` are decided exactly. -/
theorem decidesExactly_homeNotes :
    DecidesExactly fileVfs ⟨mp4TargetSid⟩ (labelledFile homeNotes FileLabel.readObj.attr) mayWrite
      (fun _ ↦ 0) homeNotes .readObj := by
  have halias : fileVfs.dFindAlias (labelledFile homeNotes FileLabel.readObj.attr) =
      some (labelledFile homeNotes FileLabel.readObj.attr) := rfl
  have hchecked : homeNotes.Checked := by decide
  exact (decidesExactly_iff fileVfs_renders halias (fileVfs_readsExactly rfl (by decide))
    ⟨mp4TargetSid⟩ mayWrite).mpr (Or.inr hchecked)

/-- Below `/library`, which is not listed, the hook skips its check: a process that is not the
target may write a file that the target alone may write. -/
theorem not_decidesExactly_libraryNotes :
    fileVfs.ReadsExactly (labelledFile libraryNotes FileLabel.readWrite.attr)
        (labelledFile libraryNotes FileLabel.readWrite.attr) (fun _ ↦ 0)
        FileLabel.readWrite.attr ∧
      ¬ DecidesExactly fileVfs ⟨mp4NoAccess⟩ (labelledFile libraryNotes FileLabel.readWrite.attr)
        mayWrite (fun _ ↦ 0) libraryNotes .readWrite := by
  refine ⟨fileVfs_readsExactly rfl (by decide), ?_⟩
  rintro ⟨verdict, hverdict, honly, -⟩
  have hunchecked : mp4InodePermission fileVfs (some ⟨mp4NoAccess⟩)
      (labelledFile libraryNotes FileLabel.readWrite.attr) mayWrite true (some fun _ ↦ 0) =
        .ok unchecked := by rfl
  rw [hunchecked] at hverdict
  rw [← Except.ok.inj hverdict] at honly
  exact absurd (honly rfl) (by decide)

end KernelModules.AccessControl

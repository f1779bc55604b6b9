import KernelModules.AccessControl.AttributeReads
import KernelModules.AccessControl.CreateThenAccess

/-!
# What other processes than the target are granted

Two laws for the processes whose label is not `MP4_TARGET_SID`. On directories the hook leaves them
to the regular access control (`LeavesAlone`), and they may execute a binary with the label
`target`, which makes them the target (`Launches`).

`mp4_has_permission` looks at the label alone. Every label but `MP4_NO_ACCESS` denies some mask to
such a process, and the label `target` denies every mask, so both laws hold exactly where the hook
does not come to its table with such a label (`leavesAlone_iff`, `launches_iff`).
-/

set_option autoImplicit false
set_option relaxedAutoImplicit false

namespace KernelModules.AccessControl

open Foundation

variable {Inode Dentry : Type*}

/-! ### The table for other processes -/

/-- The labels that the buffer can name are not negative. -/
theorem credCtxToSid_nonneg (mem : Memory) : 0 ≤ credCtxToSid mem := by
  unfold credCtxToSid
  split_ifs <;> decide

/-- A buffer names no label exactly when it holds none of the texts. -/
theorem credCtxToSid_eq_noAccess_iff (mem : Memory) :
    credCtxToSid mem = mp4NoAccess ↔ ∀ label ∈ labelTexts, ¬ mem.Holds label := by
  constructor
  · intro hnone label hlabel hholds
    obtain ⟨hnul, hne⟩ := labelTexts_spec hlabel
    exact hne ((credCtxToSid_of_holds hholds hnul).symm.trans hnone)
  · exact credCtxToSid_of_forall_not

/-- Of what has a label, a process other than the target may at most read and execute it. -/
theorem oMask_of_ne_noAccess {ssid osid : ℤ} (hssid : ssid ≠ mp4TargetSid)
    (hosid : osid ≠ mp4NoAccess) :
    oMask ssid osid = mayRead ∨ oMask ssid osid = mayRead ||| mayExec ∨ oMask ssid osid = 0 := by
  simp only [oMask, if_neg hssid, if_neg hosid]
  split_ifs
  · exact Or.inl rfl
  · exact Or.inr (Or.inl rfl)
  · exact Or.inr (Or.inl rfl)
  · exact Or.inr (Or.inr rfl)

/-- A process other than the target may write what has the label `MP4_NO_ACCESS`, and nothing
else. -/
theorem mp4HasPermission_write_iff {ssid : ℤ} (hssid : ssid ≠ mp4TargetSid) (osid : ℤ) :
    mp4HasPermission ssid osid (mayWrite &&& (mayRead ||| mayExec ||| mayWrite)) = 0 ↔
      osid = mp4NoAccess := by
  rw [mp4HasPermission]
  constructor
  · intro hgranted
    by_contra hne
    rcases oMask_of_ne_noAccess hssid hne with hread | hexec | hnone
    · rw [hread] at hgranted
      exact absurd hgranted (by decide)
    · rw [hexec] at hgranted
      exact absurd hgranted (by decide)
    · rw [hnone] at hgranted
      exact absurd hgranted (by decide)
  · intro heq
    rw [heq, oMask_eq, if_neg hssid]
    decide

/-- The label `MP4_NO_ACCESS` denies nothing to a process other than the target. -/
theorem mp4HasPermission_noAccess {ssid : ℤ} (hssid : ssid ≠ mp4TargetSid) (mask : UInt32) :
    mp4HasPermission ssid mp4NoAccess (mask &&& (mayRead ||| mayExec ||| mayWrite)) = 0 := by
  have hpermits : FileLabel.noAccess.Permits (decide (ssid = mp4TargetSid)) mask :=
    fun _ _ ↦ decide_eq_false hssid
  exact (mp4HasPermission_sidOf ssid .noAccess mask).trans (if_pos hpermits)

/-! ### Directories -/

/-- The hook grants a process every access to the inode, and so leaves it to the regular access
control. -/
def LeavesAlone (vfs : Vfs Inode Dentry) (cs : Mp4Security) (inode : Inode) (val : Memory) : Prop :=
  ∀ mask, Returns vfs cs inode mask val 0

/-- An inode without an alias, or without a way to read attributes, is not checked. -/
theorem returns_of_unlabelled {vfs : Vfs Inode Dentry} {inode : Inode}
    (hunlabelled : vfs.dFindAlias inode = none ∨ vfs.getxattr inode = none) (cs : Mp4Security)
    (mask : UInt32) (val : Memory) : Returns vfs cs inode mask val 0 := by
  refine ⟨unchecked, ?_, rfl⟩
  cases halias : vfs.dFindAlias inode with
  | none => simp only [mp4InodePermission, halias]
  | some dentry =>
    have hget : vfs.getxattr inode = none :=
      hunlabelled.resolve_left (by rw [halias]; exact Option.some_ne_none dentry)
    have hsid : getInodeSid vfs inode (some val) = .ok (-1) := by
      simp only [getInodeSid, halias, hget]
    have hneg : (-1 : ℤ) < 0 := by decide
    simp only [mp4InodePermission, halias, hsid, Bool.true_eq_false, if_false, if_pos hneg]
    cases vfs.dentryPath dentry (256 - 1) with
    | none => rfl
    | some res => exact ite_self _

/-- Assumes: a process that is not the target. The hook leaves it alone if and only if no text of a
label is in the buffer after the attribute of a checked path is read. The type of the inode makes no
difference. -/
theorem leavesAlone_iff {vfs : Vfs Inode Dentry} {path : Dentry → Path} {cs : Mp4Security}
    (hpath : vfs.Renders path) (hcs : cs.mp4Flags ≠ mp4TargetSid) (inode : Inode) (val : Memory) :
    LeavesAlone vfs cs inode val ↔
      ∀ dentry, vfs.dFindAlias inode = some dentry → (path dentry).Checked →
        ∀ getxattr, vfs.getxattr inode = some getxattr →
          ∀ label ∈ labelTexts, ¬ (getxattr dentry xattrNameMp4 val 255).2.Holds label := by
  unfold LeavesAlone
  cases halias : vfs.dFindAlias inode with
  | none =>
    exact iff_of_true (fun mask ↦ returns_of_unlabelled (Or.inl halias) cs mask val)
      fun dentry hdentry ↦ absurd hdentry (by simp)
  | some dentry =>
    cases hget : vfs.getxattr inode with
    | none =>
      exact iff_of_true (fun mask ↦ returns_of_unlabelled (Or.inr hget) cs mask val)
        fun _ _ _ getxattr hgetxattr ↦ absurd hgetxattr (by simp)
    | some getxattr =>
      have hsid : getInodeSid vfs inode (some val) =
          .ok (credCtxToSid (getxattr dentry xattrNameMp4 val 255).2) := by
        simp only [getInodeSid, halias, hget]
      simp only [returns_iff hpath halias hsid (credCtxToSid_nonneg _), Option.some.injEq,
        forall_eq', ← credCtxToSid_eq_noAccess_iff]
      constructor
      · intro hall hchecked
        have hwrite := hall mayWrite
        rw [if_pos hchecked] at hwrite
        exact (mp4HasPermission_write_iff hcs _).mp hwrite
      · intro hnone mask
        split_ifs with hchecked
        · rw [hnone hchecked]
          exact mp4HasPermission_noAccess hcs mask
        · rfl

/-- A directory `/home/notes` with an attribute. -/
def notesDirectory (attr : Option Text) : File :=
  { labelledFile homeNotes attr with directory := true }

/-- A directory without a label is left to the regular access control. -/
theorem leavesAlone_unlabelled :
    LeavesAlone fileVfs ⟨mp4NoAccess⟩ (notesDirectory none) fun _ ↦ 0 := by
  have hcs : (⟨mp4NoAccess⟩ : Mp4Security).mp4Flags ≠ mp4TargetSid := by decide
  refine (leavesAlone_iff fileVfs_renders hcs _ _).mpr fun dentry hdentry _ getxattr hget ↦ ?_
  obtain rfl : notesDirectory none = dentry := Option.some.inj hdentry
  rw [← Option.some.inj hget, ← credCtxToSid_eq_noAccess_iff]
  rfl

/-- A process that is not the target may not create an entry in a directory with the label `dir`,
which the note on directories leaves to the regular access control. -/
theorem not_leavesAlone_dir :
    fileVfs.isDir (notesDirectory (some (bytes "dir"))) = true ∧
      fileVfs.ReadsExactly (notesDirectory (some (bytes "dir")))
        (notesDirectory (some (bytes "dir"))) (fun _ ↦ 0) (some (bytes "dir")) ∧
      ¬ LeavesAlone fileVfs ⟨mp4NoAccess⟩ (notesDirectory (some (bytes "dir"))) fun _ ↦ 0 := by
  refine ⟨rfl, fileVfs_readsExactly rfl (by decide), fun halone ↦ ?_⟩
  have hdenied : mp4InodePermission fileVfs (some ⟨mp4NoAccess⟩)
      (notesDirectory (some (bytes "dir"))) mayWrite true (some fun _ ↦ 0) =
        .ok ⟨-eacces, true⟩ := by rfl
  exact absurd ((halone mayWrite).perm_eq hdenied) (by decide)

/-! ### Launching the target -/

/-- A process may execute the binary, and the credential of the new process gets the label of the
target. -/
def Launches (vfs : Vfs Inode Dentry) (cs : Mp4Security) (inode : Inode) (val : Memory) : Prop :=
  Returns vfs cs inode mayExec val 0 ∧
    ∀ (cred : Cred) (msec : Mp4Security), cred.security = some msec →
      mp4BprmSetCreds vfs cred inode (some val) =
        .ok (0, { cred with security := some { msec with mp4Flags := mp4TargetSid } })

/-- Assumes: a process that is not the target, and a binary whose attribute is read exactly as
`target`. It can be launched if and only if its path is not checked. -/
theorem launches_iff {vfs : Vfs Inode Dentry} {path : Dentry → Path} {cs : Mp4Security}
    {inode : Inode} {dentry : Dentry} {val : Memory} (hpath : vfs.Renders path)
    (halias : vfs.dFindAlias inode = some dentry)
    (hread : vfs.ReadsExactly inode dentry val (some (bytes "target")))
    (hcs : cs.mp4Flags ≠ mp4TargetSid) :
    Launches vfs cs inode val ↔ ¬ (path dentry).Checked := by
  have hsid : getInodeSid vfs inode (some val) = .ok mp4TargetSid :=
    getInodeSid_of_readsExactly halias hread
  have hcreds : ∀ (cred : Cred) (msec : Mp4Security), cred.security = some msec →
      mp4BprmSetCreds vfs cred inode (some val) =
        .ok (0, { cred with security := some { msec with mp4Flags := mp4TargetSid } }) := by
    intro cred msec hsecurity
    have hnonneg : 0 ≤ mp4TargetSid := by decide
    simp only [mp4BprmSetCreds, hsid, if_pos hnonneg, hsecurity]
  have hdenied : mp4HasPermission cs.mp4Flags mp4TargetSid
      (mayExec &&& (mayRead ||| mayExec ||| mayWrite)) ≠ 0 := by
    rw [mp4HasPermission, oMask_eq, if_neg hcs]
    decide
  unfold Launches
  rw [and_iff_left hcreds, returns_iff hpath halias hsid (by decide)]
  by_cases hchecked : (path dentry).Checked
  · rw [if_pos hchecked]
    exact iff_of_false hdenied (not_not.mpr hchecked)
  · rw [if_neg hchecked]
    exact iff_of_true rfl hchecked

/-- The path `/bin/cat`. -/
def binCat : Path :=
  [⟨bytes "bin", by decide, by decide, by decide⟩, ⟨bytes "cat", by decide, by decide, by decide⟩]

/-- A binary with the label `target`. -/
def targetBinaryAt (path : Path) : File := labelledFile path (some (bytes "target"))

/-- The target is launched from `/bin`. -/
theorem launches_binCat : Launches fileVfs ⟨mp4NoAccess⟩ (targetBinaryAt binCat) fun _ ↦ 0 := by
  have halias : fileVfs.dFindAlias (targetBinaryAt binCat) = some (targetBinaryAt binCat) := rfl
  have hchecked : ¬ binCat.Checked := by decide
  exact (launches_iff fileVfs_renders halias (fileVfs_readsExactly rfl (by decide))
    (by decide)).mpr hchecked

/-- The same binary below `/home` may not be executed. -/
theorem not_launches_homeNotes :
    fileVfs.ReadsExactly (targetBinaryAt homeNotes) (targetBinaryAt homeNotes) (fun _ ↦ 0)
        (some (bytes "target")) ∧
      ¬ Launches fileVfs ⟨mp4NoAccess⟩ (targetBinaryAt homeNotes) fun _ ↦ 0 := by
  refine ⟨fileVfs_readsExactly rfl (by decide), fun hlaunches ↦ ?_⟩
  have hdenied : mp4InodePermission fileVfs (some ⟨mp4NoAccess⟩) (targetBinaryAt homeNotes) mayExec
      true (some fun _ ↦ 0) = .ok ⟨-eacces, true⟩ := by rfl
  exact absurd (hlaunches.1.perm_eq hdenied) (by decide)

end KernelModules.AccessControl

import KernelModules.AccessControl.CreateThenAccess

/-!
# The choice of an alias

`d_find_alias` gives one of the names of an inode, and `mp4_inode_permission` skips its check by the
path of that name. The law is one of two runs: the same answer for two names of an inode
(`SameForAliases`). A listed directory is left alone by design, so a name inside one and a name
outside have different answers where the table denies the mask (`sameForAliases_iff`).
-/

set_option autoImplicit false
set_option relaxedAutoImplicit false

namespace KernelModules.AccessControl

open Foundation

variable {Inode Dentry : Type*}

/-! ### Two names of an inode -/

/-- The kernel when `d_find_alias` gives the dentry. -/
def Vfs.withAlias (vfs : Vfs Inode Dentry) (dentry : Dentry) : Vfs Inode Dentry :=
  { vfs with dFindAlias := fun _ ↦ some dentry }

/-- The hook returns the same number for the two names of the inode. -/
def SameForAliases (vfs : Vfs Inode Dentry) (cs : Mp4Security) (inode : Inode) (mask : UInt32)
    (val val' : Memory) (first second : Dentry) : Prop :=
  ∀ perm, Returns (vfs.withAlias first) cs inode mask val perm ↔
    Returns (vfs.withAlias second) cs inode mask val' perm

/-- The number of a label is not negative. -/
theorem sidOf_nonneg (text : Text) : 0 ≤ sidOf text := by
  unfold sidOf
  split_ifs <;> decide

/-- What the hook returns under a name that reads the attribute exactly. -/
theorem returns_withAlias_iff {vfs : Vfs Inode Dentry} {path : Dentry → Path} {inode : Inode}
    {dentry : Dentry} {val : Memory} {attr : Option Text} (hpath : vfs.Renders path)
    (hread : vfs.ReadsExactly inode dentry val attr) (cs : Mp4Security) (mask : UInt32) (perm : ℤ) :
    Returns (vfs.withAlias dentry) cs inode mask val perm ↔
      (if (path dentry).Checked then
        mp4HasPermission cs.mp4Flags (sidOf (attr.getD []))
          (mask &&& (mayRead ||| mayExec ||| mayWrite))
      else 0) = perm := by
  have hrenders : (vfs.withAlias dentry).Renders path := hpath
  have hreads : (vfs.withAlias dentry).ReadsExactly inode dentry val attr := hread
  have halias : (vfs.withAlias dentry).dFindAlias inode = some dentry := rfl
  exact returns_iff hrenders halias (getInodeSid_of_readsExactly halias hreads) (sidOf_nonneg _) cs
    mask perm

/-- Two names have the same answer when both are checked, neither is, or the table grants the
mask. -/
theorem sameForAliases_iff_checked {vfs : Vfs Inode Dentry} {path : Dentry → Path} {inode : Inode}
    {first second : Dentry} {val val' : Memory} {attr : Option Text} (hpath : vfs.Renders path)
    (hfirst : vfs.ReadsExactly inode first val attr)
    (hsecond : vfs.ReadsExactly inode second val' attr) (cs : Mp4Security) (mask : UInt32) :
    SameForAliases vfs cs inode mask val val' first second ↔
      ((path first).Checked ↔ (path second).Checked) ∨
        mp4HasPermission cs.mp4Flags (sidOf (attr.getD []))
          (mask &&& (mayRead ||| mayExec ||| mayWrite)) = 0 := by
  have hunique : ∀ x y : ℤ, (∀ perm, x = perm ↔ y = perm) ↔ x = y := fun x y ↦
    ⟨fun hall ↦ (hall y).mpr rfl, fun heq perm ↦ by rw [heq]⟩
  unfold SameForAliases
  simp only [returns_withAlias_iff hpath hfirst, returns_withAlias_iff hpath hsecond, hunique]
  by_cases hchecked : (path first).Checked
  · by_cases hchecked' : (path second).Checked
    · simp [hchecked, hchecked']
    · simp [hchecked, hchecked']
  · by_cases hchecked' : (path second).Checked
    · simp [hchecked, hchecked', eq_comm]
    · simp [hchecked, hchecked']

/-- A path in a listed directory is not checked. -/
theorem Path.Listed.not_checked {path : Path} (hlisted : path.Listed) : ¬ path.Checked := by
  intro hchecked
  have hskip := ((Path.checked_iff path).mp hchecked).2
  rw [hlisted.skipped] at hskip
  exact absurd hskip Bool.true_eq_false_eq_False

/-- Assumes: two names of an inode whose attribute is read exactly, each in a listed directory or
checked. They have the same answer if and only if both are in listed directories, neither is, or
`mp4_has_permission` grants the mask. -/
theorem sameForAliases_iff {vfs : Vfs Inode Dentry} {path : Dentry → Path} {inode : Inode}
    {first second : Dentry} {val val' : Memory} {attr : Option Text} (hpath : vfs.Renders path)
    (hfirst : vfs.ReadsExactly inode first val attr)
    (hsecond : vfs.ReadsExactly inode second val' attr)
    (hnamed : (path first).Listed ∨ (path first).Checked)
    (hnamed' : (path second).Listed ∨ (path second).Checked) (cs : Mp4Security) (mask : UInt32) :
    SameForAliases vfs cs inode mask val val' first second ↔
      ((path first).Listed ↔ (path second).Listed) ∨
        mp4HasPermission cs.mp4Flags (sidOf (attr.getD []))
          (mask &&& (mayRead ||| mayExec ||| mayWrite)) = 0 := by
  have hchecked : ∀ dentry, (path dentry).Listed ∨ (path dentry).Checked →
      ((path dentry).Checked ↔ ¬ (path dentry).Listed) := fun dentry heither ↦
    ⟨fun hchecked hlisted ↦ hlisted.not_checked hchecked, heither.resolve_left⟩
  rw [sameForAliases_iff_checked hpath hfirst hsecond, hchecked first hnamed,
    hchecked second hnamed', not_iff_not]

/-- The path `/usr/notes`. -/
def usrNotes : Path :=
  ⟨bytes "usr", by decide, by decide, by decide⟩ :: homeNotes.tail

/-- The path `/home/copy`. -/
def homeCopy : Path :=
  homeNotes.take 1 ++ [⟨bytes "copy", by decide, by decide, by decide⟩]

/-- A name of a file that only the target may write. -/
def targetsFile (path : Path) : File := labelledFile path (some (bytes "read-write"))

/-- Under each of its names the attribute of the file is read exactly. -/
theorem fileVfs_readsExactly_targetsFile (path path' : Path) :
    fileVfs.ReadsExactly (targetsFile path) (targetsFile path') (fun _ ↦ 0)
      (some (bytes "read-write")) :=
  ⟨by decide, _, rfl, (Memory.holds_store_iff _ _).mpr rfl⟩

/-- Two names below `/home` of the file have the same answer. -/
theorem sameForAliases_homeNotes :
    SameForAliases fileVfs ⟨mp4NoAccess⟩ (targetsFile homeNotes) mayWrite (fun _ ↦ 0) (fun _ ↦ 0)
      (targetsFile homeNotes) (targetsFile homeCopy) := by
  have hfirst : homeNotes.Checked := by decide
  have hsecond : homeCopy.Checked := by decide
  have hlisted : homeNotes.Listed ↔ homeCopy.Listed := by decide
  exact (sameForAliases_iff fileVfs_renders (fileVfs_readsExactly_targetsFile _ _)
    (fileVfs_readsExactly_targetsFile _ _) (Or.inr hfirst) (Or.inr hsecond) _
    _).mpr (Or.inl hlisted)

/-- A process that is not the target may write the file under a name below `/usr`, and not under its
name below `/home`. -/
theorem not_sameForAliases_usrNotes :
    fileVfs.ReadsExactly (targetsFile homeNotes) (targetsFile homeNotes) (fun _ ↦ 0)
        (some (bytes "read-write")) ∧
      fileVfs.ReadsExactly (targetsFile homeNotes) (targetsFile usrNotes) (fun _ ↦ 0)
        (some (bytes "read-write")) ∧
      ¬ SameForAliases fileVfs ⟨mp4NoAccess⟩ (targetsFile homeNotes) mayWrite (fun _ ↦ 0)
        (fun _ ↦ 0) (targetsFile homeNotes) (targetsFile usrNotes) := by
  refine ⟨fileVfs_readsExactly_targetsFile _ _, fileVfs_readsExactly_targetsFile _ _,
    fun hsame ↦ ?_⟩
  have hgranted : Returns (fileVfs.withAlias (targetsFile usrNotes)) ⟨mp4NoAccess⟩
      (targetsFile homeNotes) mayWrite (fun _ ↦ 0) 0 := ⟨unchecked, by rfl, rfl⟩
  have hdenied : mp4InodePermission (fileVfs.withAlias (targetsFile homeNotes))
      (some ⟨mp4NoAccess⟩) (targetsFile homeNotes) mayWrite true (some fun _ ↦ 0) =
        .ok ⟨-eacces, true⟩ := by rfl
  exact absurd (((hsame 0).mpr hgranted).perm_eq hdenied) (by decide)

end KernelModules.AccessControl

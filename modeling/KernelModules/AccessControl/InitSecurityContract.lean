import KernelModules.AccessControl.LsmHooks

/-!
# The contract of `mp4_inode_init_security`

The header comment promises 0 if all goes well, `-ENOMEM` without memory and `-EOPNOTSUPP` to skip
(`KeepsContract`). The function has a label for regular files and directories that the target
creates (`Attaches`). For every other inode it does not skip: it returns 0 without setting a label,
or tests a value that it has not written. `keepsContract_iff` says that the contract is kept exactly
where there is a label to attach.
-/

set_option autoImplicit false
set_option relaxedAutoImplicit false

namespace KernelModules.AccessControl

open Foundation

variable {Inode Dentry : Type*}

/-- The outputs are a complete label: its name, a value that is not NULL, and its length. -/
def InitXattr.Complete (out : InitXattr) : Prop :=
  out.name = some xattrMp4Suffix ∧ ∃ label, out.value = some label ∧ out.len = label.length

/-- A label is to be attached: the target creates a regular file or a directory. -/
def Attaches (vfs : Vfs Inode Dentry) (cs : Mp4Security) (inode : Inode) : Prop :=
  cs.mp4Flags = mp4TargetSid ∧ (vfs.isReg inode = true ∨ vfs.isDir inode = true)

/-- The contract for one call with all three outputs. A return of 0 comes with a complete label,
`-ENOMEM` with a failed allocation, and where no label is to be attached the function returns
`-EOPNOTSUPP` and leaves the value and the length. -/
def KeepsContract (vfs : Vfs Inode Dentry) (cs : Mp4Security) (inode : Inode) (kstrdup : Bool)
    (out : InitXattr) : Prop :=
  ∃ ret out', mp4InodeInitSecurity vfs (some cs) inode ⟨true, true, true⟩ kstrdup out =
      .ok (ret, out') ∧
    (ret = 0 → out'.Complete) ∧
    (ret = -enomem → kstrdup = false) ∧
    (¬ Attaches vfs cs inode → ret = -eopnotsupp ∧ out'.value = out.value ∧ out'.len = out.len)

/-- With all three outputs the function never skips an inode. -/
theorem mp4InodeInitSecurity_ne_eopnotsupp {vfs : Vfs Inode Dentry} {cs : Mp4Security}
    {inode : Inode} {kstrdup : Bool} {out out' : InitXattr} {ret : ℤ}
    (hcall : mp4InodeInitSecurity vfs (some cs) inode ⟨true, true, true⟩ kstrdup out =
      .ok (ret, out')) : ret ≠ -eopnotsupp := by
  simp only [mp4InodeInitSecurity, Bool.and_self, if_true] at hcall
  split_ifs at hcall
  all_goals
    obtain ⟨rfl, -⟩ := Prod.mk.inj (Except.ok.inj hcall)
    decide

/-- Where there is a label to attach, the outputs are set to it, and the allocation decides. -/
theorem mp4InodeInitSecurity_of_attaches {vfs : Vfs Inode Dentry} {cs : Mp4Security}
    {inode : Inode} (hattaches : Attaches vfs cs inode) (kstrdup : Bool) (out : InitXattr) :
    ∃ label, mp4InodeInitSecurity vfs (some cs) inode ⟨true, true, true⟩ kstrdup out =
      .ok (if kstrdup then 0 else -enomem,
        { name := some xattrMp4Suffix
          value := if kstrdup then some label else none
          len := label.length }) := by
  obtain ⟨htarget, hkind⟩ := hattaches
  by_cases hreg : vfs.isReg inode = true
  · refine ⟨bytes "read-write", ?_⟩
    cases kstrdup <;>
      simp [mp4InodeInitSecurity, htarget, hreg, InitXattr.setLabel]
  · have hdir := hkind.resolve_left hreg
    refine ⟨bytes "dir-write", ?_⟩
    cases kstrdup <;>
      simp [mp4InodeInitSecurity, htarget, hreg, hdir, InitXattr.setLabel]

/-- The contract is kept if and only if there is a label to attach. -/
theorem keepsContract_iff (vfs : Vfs Inode Dentry) (cs : Mp4Security) (inode : Inode)
    (kstrdup : Bool) (out : InitXattr) :
    KeepsContract vfs cs inode kstrdup out ↔ Attaches vfs cs inode := by
  constructor
  · rintro ⟨ret, out', hcall, -, -, hskips⟩
    by_contra hnot
    exact mp4InodeInitSecurity_ne_eopnotsupp hcall (hskips hnot).1
  · intro hattaches
    obtain ⟨label, hcall⟩ := mp4InodeInitSecurity_of_attaches hattaches kstrdup out
    refine ⟨_, _, hcall, ?_, ?_, fun hnot ↦ absurd hattaches hnot⟩
    · intro hzero
      cases kstrdup with
      | true => exact ⟨rfl, label, rfl, rfl⟩
      | false => exact absurd hzero (by decide)
    · intro hfailed
      cases kstrdup with
      | true => exact absurd hfailed (by decide)
      | false => rfl

/-- A process that is not the target creates a file. The function returns 0 and sets no label. -/
theorem not_keepsContract_other :
    ¬ KeepsContract fileVfs ⟨mp4NoAccess⟩ (labelledFile homeNotes none) true ⟨none, none, 0⟩ := by
  rintro ⟨ret, out', hcall, hcomplete, -, -⟩
  have hzero : mp4InodeInitSecurity fileVfs (some ⟨mp4NoAccess⟩) (labelledFile homeNotes none)
      ⟨true, true, true⟩ true ⟨none, none, 0⟩ = .ok (0, ⟨some xattrMp4Suffix, none, 0⟩) := by rfl
  rw [hzero] at hcall
  obtain ⟨hret, hout⟩ := Prod.mk.inj (Except.ok.inj hcall)
  obtain ⟨-, label, hlabel, -⟩ := hcomplete hret.symm
  rw [← hout] at hlabel
  exact Option.some_ne_none label hlabel.symm

end KernelModules.AccessControl

import KernelModules.AccessControl.LsmHooks

/-!
# What `get_inode_sid` reads

`get_inode_sid` ignores the number that `getxattr` returns and compares a buffer that is not zeroed
as a string. The law is one of two runs: the label is that of the attribute, whatever the two
buffers held before (`SidFollowsLabel`). An attribute that begins the text of a label is completed
by the bytes that were there before, and one that has a NUL is cut at it. `sidFollowsLabel_iff` says
that the law holds of all other attributes and of none of these.
-/

set_option autoImplicit false
set_option relaxedAutoImplicit false

namespace KernelModules.AccessControl

open Foundation

variable {Inode Dentry : Type*}

/-! ### Reads without a terminator -/

/-- A read of the attribute writes its bytes to the start of the buffer, without a terminator, and
returns their number. A read of no attribute, or one that fails, returns a negative number and
writes nothing. -/
def Vfs.WritesBytes (vfs : Vfs Inode Dentry) (inode : Inode) (dentry : Dentry)
    (attr : Option Text) : Prop :=
  ∃ getxattr, vfs.getxattr inode = some getxattr ∧ ∀ val,
    (getxattr dentry xattrNameMp4 val 255).2 = val.store (attr.getD []) ∧
      match attr with
      | some text => (getxattr dentry xattrNameMp4 val 255).1 = text.length
      | none => (getxattr dentry xattrNameMp4 val 255).1 < 0

/-- The reads of the small filesystem write the bytes of the attribute. -/
theorem fileVfs_writesBytes {file : File} (hget : file.hasGetxattr = true) :
    fileVfs.WritesBytes file file file.attr := by
  refine ⟨_, if_pos hget, fun val ↦ ⟨rfl, ?_⟩⟩
  cases file.attr with
  | none => exact Int.negSucc_lt_zero 60
  | some text => rfl

/-- The label is read off the buffer after the bytes are written. -/
theorem getInodeSid_of_writesBytes {vfs : Vfs Inode Dentry} {inode : Inode} {dentry : Dentry}
    {attr : Option Text} (halias : vfs.dFindAlias inode = some dentry)
    (hwrites : vfs.WritesBytes inode dentry attr) (val : Memory) :
    getInodeSid vfs inode (some val) = .ok (credCtxToSid (val.store (attr.getD []))) := by
  obtain ⟨getxattr, hgetxattr, hval⟩ := hwrites
  simp only [getInodeSid, halias, hgetxattr, (hval val).1]

/-! ### The law of two runs -/

/-- The label that is found is the same for any two buffers. It is the one that the bytes of the
attribute name, and `MP4_NO_ACCESS` where they name none. -/
def SidFollowsLabel (vfs : Vfs Inode Dentry) (inode : Inode) (attr : Option Text) : Prop :=
  ∀ val val' : Memory,
    getInodeSid vfs inode (some val) = getInodeSid vfs inode (some val') ∧
      getInodeSid vfs inode (some val) = .ok (sidOf (attr.getD []))

/-- The texts of the labels have no NUL, and name a label other than `MP4_NO_ACCESS`. -/
theorem labelTexts_spec {label : Text} (hlabel : label ∈ labelTexts) :
    (0 : UInt8) ∉ label ∧ sidOf label ≠ mp4NoAccess := by
  have hall : ∀ label ∈ labelTexts, (0 : UInt8) ∉ label ∧ sidOf label ≠ mp4NoAccess := by decide
  exact hall label hlabel

/-- A text that is no text of a label names none. -/
theorem sidOf_of_not_mem {text : Text} (hnot : text ∉ labelTexts) : sidOf text = mp4NoAccess := by
  simp only [labelTexts, List.mem_cons, List.not_mem_nil, or_false, not_or] at hnot
  obtain ⟨hro, hrw, hexec, htarget, hwo, hdir, hdirWrite⟩ := hnot
  simp only [sidOf, hro, hrw, hexec, htarget, hwo, hdir, hdirWrite, if_false]

/-- No label is found of a text without NUL in a buffer without any. -/
theorem credCtxToSid_store_ones {text : Text} (hnul : (0 : UInt8) ∉ text) :
    credCtxToSid (Memory.store (fun _ ↦ 1) text) = mp4NoAccess := by
  refine credCtxToSid_of_forall_not fun label _ hholds ↦ ?_
  have hlength := (hholds.begins_of_store hnul).length_le
  have hzero := hholds.terminated
  rw [Memory.store_apply_of_le hlength] at hzero
  exact absurd hzero (by decide)

/-- Assumes: an alias, and reads that write the bytes of the attribute. The label that is found
follows the attribute, whatever the buffers held before, if and only if the attribute begins the
text of no label, and has no text of a label followed by a NUL at its start. -/
theorem sidFollowsLabel_iff {vfs : Vfs Inode Dentry} {inode : Inode} {dentry : Dentry}
    {attr : Option Text} (halias : vfs.dFindAlias inode = some dentry)
    (hwrites : vfs.WritesBytes inode dentry attr) :
    SidFollowsLabel vfs inode attr ↔
      ∀ label ∈ labelTexts, ¬ attr.getD [] <+: label ∧ ¬ label ++ [0] <+: attr.getD [] := by
  have hsid := getInodeSid_of_writesBytes halias hwrites
  unfold SidFollowsLabel
  simp only [hsid, Except.ok.injEq]
  constructor
  · intro hlaw label hlabel
    obtain ⟨hnul, hne⟩ := labelTexts_spec hlabel
    constructor
    · -- The rest of the label is in one buffer and not in the other.
      intro hbegins
      have hcompleted : credCtxToSid ((Memory.ofText label).store (attr.getD [])) =
          sidOf label := by
        rw [Memory.ofText_store hbegins]
        exact credCtxToSid_of_holds (Memory.holds_ofText label) hnul
      have hnone := credCtxToSid_store_ones fun hmem ↦ hnul (hbegins.subset hmem)
      exact hne (hcompleted.symm.trans ((hlaw _ _).1.trans hnone))
    · -- The comparison stops at the NUL of the attribute, which names no label.
      intro hends
      have hcut : credCtxToSid ((Memory.ofText []).store (attr.getD [])) = sidOf label :=
        credCtxToSid_of_holds (Memory.holds_store_of_terminated hends _) hnul
      have hzero : (0 : UInt8) ∈ attr.getD [] :=
        hends.subset (List.mem_append_right label (List.mem_singleton_self 0))
      have hother : sidOf (attr.getD []) = mp4NoAccess :=
        sidOf_of_not_mem fun hmem ↦ (labelTexts_spec hmem).1 hzero
      exact hne (hcut.symm.trans ((hlaw _ (fun _ ↦ 0)).2.trans hother))
  · intro hother val val'
    have hnone : ∀ mem : Memory, credCtxToSid (mem.store (attr.getD [])) = mp4NoAccess :=
      fun mem ↦ credCtxToSid_of_forall_not fun label hlabel hholds ↦
        hholds.of_store.elim (hother label hlabel).1 (hother label hlabel).2
    have hnot : attr.getD [] ∉ labelTexts := fun hmem ↦ (hother _ hmem).1 List.prefix_rfl
    rw [hnone val, hnone val', sidOf_of_not_mem hnot]
    exact ⟨rfl, rfl⟩

/-- The attribute `other` is no label, whatever the buffer held. -/
theorem sidFollowsLabel_other :
    SidFollowsLabel fileVfs (labelledFile homeNotes (some (bytes "other")))
      (some (bytes "other")) := by
  have halias : fileVfs.dFindAlias (labelledFile homeNotes (some (bytes "other"))) =
      some (labelledFile homeNotes (some (bytes "other"))) := rfl
  exact (sidFollowsLabel_iff halias (fileVfs_writesBytes rfl)).mpr (by decide)

/-- A file without an attribute has the label that is left in the buffer. -/
theorem not_sidFollowsLabel_unlabelled :
    fileVfs.WritesBytes (labelledFile homeNotes none) (labelledFile homeNotes none) none ∧
      ¬ SidFollowsLabel fileVfs (labelledFile homeNotes none) none := by
  refine ⟨fileVfs_writesBytes rfl, fun hlaw ↦ ?_⟩
  have hleft : getInodeSid fileVfs (labelledFile homeNotes none)
      (some (Memory.ofText (bytes "target"))) = .ok mp4TargetSid := by rfl
  have hnone := (hlaw (Memory.ofText (bytes "target")) fun _ ↦ 0).2
  rw [hleft] at hnone
  exact absurd (Except.ok.inj hnone) (by decide)

end KernelModules.AccessControl

import KernelModules.AccessControl.CredentialLineage

/-!
# The label of a process and the binaries it has executed

Credentials of processes over whole histories: blank ones, copies at every fork and exec, and
`mp4_bprm_set_creds` at every execution. Beside each credential stands the list of binaries that its
process, and before it the processes it was forked from, have executed.

A process need not carry the label of the binary it executes (`LabelledByLastBinary`). By an
explicit test of `mp4_bprm_set_creds`, an execution from a filesystem without `getxattr` leaves the
label as it is, and a binary without an alias counts as unlabelled. The process carries the target
label if and only if the last binary executed that set a label is labelled `target` and has an alias
(`labelledByLastSetting`).
-/

set_option autoImplicit false
set_option relaxedAutoImplicit false

namespace KernelModules.AccessControl

open Foundation

variable {ι Inode Dentry : Type*} [DecidableEq ι]

/-! ### Histories of processes -/

/-- The credentials of processes, and the binaries executed under each, oldest first. -/
structure Processes (ι Inode : Type*) where
  credentials : Credentials ι
  executed : ι → List Inode

/-- A step of the processes: a call of a credential hook, or the execution of a binary whose
attribute is read into a buffer with the given bytes. -/
inductive ProcessLabel (ι Inode : Type*)
  | call (call : CredCall ι)
  | exec (i : ι) (inode : Inode) (val : Memory)

/-- The binaries executed under each credential after a call: a new credential starts without any,
or with those of the credential it is prepared from. -/
def executedAfter (executed : ι → List Inode) : CredCall ι → ι → List Inode
  | .allocBlank new _ => Function.update executed new []
  | .prepare new old _ => Function.update executed new (executed old)
  | .free _ => executed

/-- The step of the processes. -/
def nextProcesses (vfs : Vfs Inode Dentry) (s : Processes ι Inode) :
    ProcessLabel ι Inode → Option (Processes ι Inode)
  | .call call =>
    (nextCredentials s.credentials call).map fun credentials ↦
      ⟨credentials, executedAfter s.executed call⟩
  | .exec i inode val =>
    match s.credentials.slots i with
    | none => none
    | some credential =>
      if credential.freed then none
      else
        match mp4BprmSetCreds vfs credential.cred inode (some val) with
        | .error _ => none
        | .ok result => some
          { credentials := { s.credentials with
              slots := Function.update s.credentials.slots i
                (some { credential with cred := result.2 }) }
            executed := Function.update s.executed i (s.executed i ++ [inode]) }

/-- No credential has been produced. -/
def noProcesses : Processes ι Inode where
  credentials := ⟨fun _ ↦ none, 0⟩
  executed := fun _ ↦ []

/-- What is assumed of a step: allocations succeed, and attributes are read exactly. -/
def ReadsAndAllocates (vfs : Vfs Inode Dentry) (attr : Inode → Option Text)
    (_ : Processes ι Inode) : ProcessLabel ι Inode → Prop
  | .call (.allocBlank _ kmalloc) => kmalloc = true
  | .call (.prepare _ _ kmalloc) => kmalloc = true
  | .call (.free _) => True
  | .exec _ inode val => ∀ dentry, vfs.dFindAlias inode = some dentry →
      (vfs.getxattr inode).isSome = true → vfs.ReadsExactly inode dentry val (attr inode)

/-! ### Labels and histories -/

/-- The credential carries `MP4_TARGET_SID`. -/
def Cred.IsTarget (cred : Cred) : Prop := cred.security = some ⟨mp4TargetSid⟩

/-- Every process carries the target label if and only if the last binary it has executed is
labelled `target`. -/
def LabelledByLastBinary (attr : Inode → Option Text) (s : Processes ι Inode) : Prop :=
  ∀ i credential, s.credentials.slots i = some credential → credential.freed = false →
    (credential.cred.IsTarget ↔
      ∃ inode ∈ (s.executed i).getLast?, attr inode = some (bytes "target"))

/-- An execution of the binary sets the label of the process: it has no alias, or an operation that
reads attributes. -/
def Vfs.setsLabel (vfs : Vfs Inode Dentry) (inode : Inode) : Bool :=
  (vfs.dFindAlias inode).isNone || (vfs.getxattr inode).isSome

/-- The last of the binaries that set a label has an alias and is labelled `target`. -/
def Vfs.LastSetsTarget (vfs : Vfs Inode Dentry) (attr : Inode → Option Text)
    (executed : List Inode) : Prop :=
  ∃ inode ∈ (executed.filter vfs.setsLabel).getLast?,
    (vfs.dFindAlias inode).isSome = true ∧ attr inode = some (bytes "target")

/-- Every process carries the target label if and only if the last binary it has executed that set a
label has an alias and is labelled `target`. -/
def LabelledByLastSetting (vfs : Vfs Inode Dentry) (attr : Inode → Option Text)
    (s : Processes ι Inode) : Prop :=
  ∀ i credential, s.credentials.slots i = some credential → credential.freed = false →
    (credential.cred.IsTarget ↔ vfs.LastSetsTarget attr (s.executed i))

/-- The history after one more execution. -/
theorem lastSetsTarget_concat (vfs : Vfs Inode Dentry) (attr : Inode → Option Text)
    (executed : List Inode) (inode : Inode) :
    vfs.LastSetsTarget attr (executed ++ [inode]) ↔
      if vfs.setsLabel inode then
        (vfs.dFindAlias inode).isSome = true ∧ attr inode = some (bytes "target")
      else vfs.LastSetsTarget attr executed := by
  unfold Vfs.LastSetsTarget
  rw [List.filter_append]
  by_cases hsets : vfs.setsLabel inode = true
  · simp [hsets]
  · simp [hsets]

/-- What an execution does to a credential with a security structure. Assumes: the attribute of the
binary is read exactly. -/
theorem mp4BprmSetCreds_eq {vfs : Vfs Inode Dentry} {attr : Inode → Option Text} {cred : Cred}
    {msec : Mp4Security} {inode : Inode} {val : Memory} (hsecurity : cred.security = some msec)
    (hread : ∀ dentry, vfs.dFindAlias inode = some dentry →
      (vfs.getxattr inode).isSome = true → vfs.ReadsExactly inode dentry val (attr inode)) :
    mp4BprmSetCreds vfs cred inode (some val) = .ok (0, ⟨some ⟨
      if vfs.setsLabel inode then
        if (vfs.dFindAlias inode).isSome then sidOf ((attr inode).getD []) else mp4NoAccess
      else msec.mp4Flags⟩⟩) := by
  have hcred : cred = ⟨some msec⟩ := by
    cases cred
    exact congrArg Cred.mk hsecurity
  unfold mp4BprmSetCreds Vfs.setsLabel
  cases halias : vfs.dFindAlias inode with
  | none =>
    have hsid : getInodeSid vfs inode (some val) = .ok 0 := by simp only [getInodeSid, halias]
    simp [hsid, hsecurity, mp4NoAccess]
  | some dentry =>
    cases hget : vfs.getxattr inode with
    | none =>
      have hsid : getInodeSid vfs inode (some val) = .ok (-1) := by
        simp only [getInodeSid, halias, hget]
      simp [hsid, hcred]
    | some getxattr =>
      have hsid := getInodeSid_of_readsExactly halias (hread dentry halias (by rw [hget]; rfl))
      have hnonneg : 0 ≤ sidOf ((attr inode).getD []) := by
        unfold sidOf
        split_ifs <;> decide
      simp [hsid, hsecurity, hnonneg]

/-- An execution gives the target label to the process or takes it away according to the history. -/
theorem isTarget_exec_iff {vfs : Vfs Inode Dentry} {attr : Inode → Option Text} {flags : ℤ}
    {executed : List Inode} (inode : Inode)
    (hflags : flags = mp4TargetSid ↔ vfs.LastSetsTarget attr executed) :
    (if vfs.setsLabel inode then
        if (vfs.dFindAlias inode).isSome then sidOf ((attr inode).getD []) else mp4NoAccess
      else flags) = mp4TargetSid ↔ vfs.LastSetsTarget attr (executed ++ [inode]) := by
  rw [lastSetsTarget_concat]
  split_ifs with hsets halias
  · rw [sidOf_eq_target_iff, and_iff_right halias]
    cases attr inode with
    | none => decide
    | some text => exact Option.some_inj.symm
  · exact iff_of_false (by decide) fun hboth ↦ halias hboth.1
  · exact hflags

/-! ### The law over whole histories -/

/-- Every credential has a security structure, with the target label as the history says. -/
def FlagsFollow (vfs : Vfs Inode Dentry) (attr : Inode → Option Text) (s : Processes ι Inode) :
    Prop :=
  ∀ i credential, s.credentials.slots i = some credential → credential.freed = false →
    ∃ msec, credential.cred.security = some msec ∧
      (msec.mp4Flags = mp4TargetSid ↔ vfs.LastSetsTarget attr (s.executed i))

omit [DecidableEq ι] in
/-- Processes whose flags follow the histories carry the target label as the histories say. -/
theorem FlagsFollow.followsLastSetting {vfs : Vfs Inode Dentry} {attr : Inode → Option Text}
    {s : Processes ι Inode} (hs : FlagsFollow vfs attr s) : LabelledByLastSetting vfs attr s := by
  intro i credential hi hfreed
  obtain ⟨msec, hsecurity, hflags⟩ := hs i credential hi hfreed
  rw [← hflags, Cred.IsTarget, hsecurity, Option.some_inj]
  exact Mp4Security.ext_iff

/-- A produced credential follows its history when its label does. -/
theorem FlagsFollow.produce {vfs : Vfs Inode Dentry} {attr : Inode → Option Text}
    {s : Processes ι Inode} (hs : FlagsFollow vfs attr s) {new : ι}
    (hnew : s.credentials.slots new = none) (msec : Mp4Security) {label : ℤ} {result : ℤ × Cred}
    {history : List Inode} (hsecurity : result.2.security = some msec)
    (hflags : msec.mp4Flags = mp4TargetSid ↔ vfs.LastSetsTarget attr history) :
    FlagsFollow vfs attr
      ⟨s.credentials.produce new label result, Function.update s.executed new history⟩ := by
  intro i credential hi hfreed
  dsimp only at hi ⊢
  rcases slots_produce s.credentials new label result hi with hold | ⟨rfl, -, rfl⟩
  · have hne : i ≠ new := by
      intro heq
      rw [heq, hnew] at hold
      cases hold
    rw [Function.update_of_ne hne]
    exact hs i credential hold hfreed
  · rw [Function.update_self]
    exact ⟨msec, hsecurity, hflags⟩

/-- A call keeps the flags. Assumes: its allocation succeeds. -/
theorem FlagsFollow.call {vfs : Vfs Inode Dentry} {attr : Inode → Option Text}
    {s : Processes ι Inode} {credentials : Credentials ι} {call : CredCall ι}
    (hs : FlagsFollow vfs attr s) (hcall : ReadsAndAllocates vfs attr s (.call call))
    (hnext : nextCredentials s.credentials call = some credentials) :
    FlagsFollow vfs attr ⟨credentials, executedAfter s.executed call⟩ := by
  cases call with
  | allocBlank new kmalloc =>
    simp only [nextCredentials] at hnext
    split at hnext
    · cases hnext
    · rename_i hnew
      rw [← Option.some.inj hnext]
      have hkmalloc : kmalloc = true := hcall
      rw [hkmalloc]
      refine hs.produce hnew ⟨mp4NoAccess⟩ rfl ?_
      refine iff_of_false (by decide) ?_
      rintro ⟨binary, hlast, -⟩
      cases hlast
  | prepare new old kmalloc =>
    simp only [nextCredentials] at hnext
    split at hnext
    · rename_i credential hnew hold
      split_ifs at hnext with hfreed
      rw [← Option.some.inj hnext]
      have hkmalloc : kmalloc = true := hcall
      rw [Bool.not_eq_true] at hfreed
      obtain ⟨msec, hsecurity, hflags⟩ := hs old credential hold hfreed
      refine hs.produce hnew msec ?_ hflags
      simp only [mp4CredPrepare, hsecurity, hkmalloc, if_true]
    · cases hnext
  | free old =>
    simp only [nextCredentials] at hnext
    split at hnext
    · cases hnext
    · rename_i credential hold
      split_ifs at hnext with hfreed
      rw [← Option.some.inj hnext]
      intro i other hi hother
      dsimp only at hi
      by_cases heq : i = old
      · rw [heq, Function.update_self] at hi
        rw [← Option.some.inj hi] at hother
        cases hother
      · rw [Function.update_of_ne heq] at hi
        exact hs i other hi hother

/-- An execution keeps the flags. Assumes: the attribute of the binary is read exactly. -/
theorem FlagsFollow.exec {vfs : Vfs Inode Dentry} {attr : Inode → Option Text}
    {s later : Processes ι Inode} {i : ι} {inode : Inode} {val : Memory}
    (hs : FlagsFollow vfs attr s) (hread : ReadsAndAllocates vfs attr s (.exec i inode val))
    (hnext : nextProcesses vfs s (.exec i inode val) = some later) :
    FlagsFollow vfs attr later := by
  simp only [nextProcesses] at hnext
  split at hnext
  · cases hnext
  · rename_i credential hi
    split_ifs at hnext with hfreed
    rw [Bool.not_eq_true] at hfreed
    obtain ⟨msec, hsecurity, hflags⟩ := hs i credential hi hfreed
    rw [mp4BprmSetCreds_eq hsecurity hread] at hnext
    rw [← Option.some.inj hnext]
    intro j other hj hother
    dsimp only at hj ⊢
    by_cases heq : j = i
    · rw [heq, Function.update_self] at hj
      rw [← Option.some.inj hj, heq, Function.update_self]
      exact ⟨_, rfl, isTarget_exec_iff inode hflags⟩
    · rw [Function.update_of_ne heq] at hj ⊢
      exact hs j other hj hother

/-- Along every history the flags follow the executed binaries. -/
theorem flagsFollow_of_reachable {vfs : Vfs Inode Dentry} {attr : Inode → Option Text}
    {s : Processes ι Inode}
    (hreach : ReachableUnder (nextProcesses vfs) (ReadsAndAllocates vfs attr) noProcesses s) :
    FlagsFollow vfs attr s := by
  refine hreach.invariant (FlagsFollow vfs attr) (fun i credential hi ↦ by cases hi) ?_
  intro before label later hbefore hcondition hnext
  cases label with
  | call call =>
    obtain ⟨credentials, hcredentials, rfl⟩ := Option.map_eq_some_iff.mp hnext
    exact hbefore.call hcondition hcredentials
  | exec i inode val => exact hbefore.exec hcondition hnext

/-- An execution is recorded, under a credential that is in use. -/
theorem slots_exec {vfs : Vfs Inode Dentry} {s later : Processes ι Inode} {i : ι} {inode : Inode}
    {val : Memory} {after : Credential}
    (hnext : nextProcesses vfs s (.exec i inode val) = some later)
    (hafter : later.credentials.slots i = some after) :
    ∃ before, s.credentials.slots i = some before ∧ before.freed = false ∧ after.freed = false ∧
      later.executed i = s.executed i ++ [inode] := by
  simp only [nextProcesses] at hnext
  split at hnext
  · cases hnext
  · rename_i before hbefore
    split_ifs at hnext with hfreed
    rw [Bool.not_eq_true] at hfreed
    split at hnext
    · cases hnext
    · rw [← Option.some.inj hnext] at hafter ⊢
      dsimp only at hafter ⊢
      rw [Function.update_self] at hafter ⊢
      rw [← Option.some.inj hafter]
      exact ⟨before, hbefore, hfreed, hfreed, rfl⟩

/-- Over every history of calls and executions, with allocations that succeed and attributes that
are read exactly: a process carries the target label if and only if the last binary that it, or
before it the processes it was forked from, executed and that set a label has an alias and is
labelled `target`. After an execution it carries that label only where the binary has an alias and
is labelled `target`, or where it carried the label before and the binary has an alias on a
filesystem without `getxattr`. -/
theorem labelledByLastSetting {vfs : Vfs Inode Dentry} {attr : Inode → Option Text}
    {s : Processes ι Inode}
    (hreach : ReachableUnder (nextProcesses vfs) (ReadsAndAllocates vfs attr) noProcesses s) :
    LabelledByLastSetting vfs attr s ∧
      ∀ i inode val later before after, ReadsAndAllocates vfs attr s (.exec i inode val) →
        nextProcesses vfs s (.exec i inode val) = some later →
          s.credentials.slots i = some before → later.credentials.slots i = some after →
            after.cred.IsTarget →
              ((vfs.dFindAlias inode).isSome = true ∧ attr inode = some (bytes "target")) ∨
                (before.cred.IsTarget ∧ (vfs.dFindAlias inode).isSome = true ∧
                  (vfs.getxattr inode).isNone = true) := by
  have hbefore := (flagsFollow_of_reachable hreach).followsLastSetting
  refine ⟨hbefore, fun i inode val later before after hread hnext hi hafter htarget ↦ ?_⟩
  have hlater := (flagsFollow_of_reachable (hreach.step hread hnext)).followsLastSetting
  obtain ⟨same, hsame, hfreed, hafterFreed, hexecuted⟩ := slots_exec hnext hafter
  rw [hi] at hsame
  rw [← Option.some.inj hsame] at hfreed
  rw [hlater i after hafter hafterFreed, hexecuted, lastSetsTarget_concat] at htarget
  split_ifs at htarget with hsets
  · exact Or.inl htarget
  · refine Or.inr ⟨(hbefore i before hi hfreed).mpr htarget, ?_⟩
    simpa [Vfs.setsLabel, Option.isSome_iff_ne_none] using hsets

/-- A binary labelled `target`. -/
def targetBinary : File := labelledFile homeNotes (some (bytes "target"))

/-- A binary on a filesystem without `getxattr`. -/
def plainBinary : File := { labelledFile homeNotes none with hasGetxattr := false }

/-- Executions from the small filesystem into zeroed buffers read the attribute exactly. -/
theorem readsAndAllocates_exec (s : Processes ℕ File) (i : ℕ) {file : File}
    (hattr : (0 : UInt8) ∉ file.attr.getD []) :
    ReadsAndAllocates fileVfs File.attr s (.exec i file fun _ ↦ 0) := by
  intro dentry halias hget
  have hlinked : fileVfs.dFindAlias file = some file := by
    simp only [fileVfs] at halias ⊢
    split_ifs at halias ⊢
    rfl
  rw [hlinked] at halias
  rw [← Option.some.inj halias]
  refine fileVfs_readsExactly ?_ hattr
  by_contra hnot
  simp [fileVfs, hnot] at hget

/-- A process that has executed the labelled binary. -/
theorem exists_targetProcess : ∃ s : Processes ℕ File,
    ReachableUnder (nextProcesses fileVfs) (ReadsAndAllocates fileVfs File.attr) noProcesses s ∧
      s.credentials.slots 0 = some ⟨⟨some ⟨mp4TargetSid⟩⟩, some mp4NoAccess, false⟩ := by
  have hblank : ReadsAndAllocates fileVfs File.attr (noProcesses : Processes ℕ File)
      (.call (.allocBlank 0 true)) := rfl
  exact ⟨_, (ReachableUnder.refl.step hblank rfl).step
    (readsAndAllocates_exec _ 0 (by decide : _ ∉ targetBinary.attr.getD [])) rfl, by rfl⟩

/-- A process that has executed the labelled binary carries the label as its history says. -/
theorem exists_labelledByLastSetting : ∃ s : Processes ℕ File,
    s.credentials.slots 0 = some ⟨⟨some ⟨mp4TargetSid⟩⟩, some mp4NoAccess, false⟩ ∧
      LabelledByLastSetting fileVfs File.attr s := by
  obtain ⟨s, hreach, htarget⟩ := exists_targetProcess
  exact ⟨s, htarget, (labelledByLastSetting hreach).1⟩

/-- A process that executes an unlabelled binary from a filesystem without `getxattr` keeps the
target label. -/
theorem exists_not_labelledByLastBinary : ∃ s : Processes ℕ File,
    ReachableUnder (nextProcesses fileVfs) (ReadsAndAllocates fileVfs File.attr) noProcesses s ∧
      ¬ LabelledByLastBinary File.attr s := by
  obtain ⟨s, hreach, htarget⟩ := exists_targetProcess
  have hexec : ∃ later, nextProcesses fileVfs s (.exec 0 plainBinary fun _ ↦ 0) = some later ∧
      later.credentials.slots 0 = some ⟨⟨some ⟨mp4TargetSid⟩⟩, some mp4NoAccess, false⟩ ∧
      later.executed 0 = s.executed 0 ++ [plainBinary] := by
    simp only [nextProcesses, htarget]
    exact ⟨_, rfl, by simp, by simp⟩
  obtain ⟨later, hnext, hslot, hexecuted⟩ := hexec
  refine ⟨later, hreach.step (readsAndAllocates_exec s 0 (by decide)) hnext, fun hlaw ↦ ?_⟩
  obtain ⟨inode, hlast, hattr⟩ := (hlaw 0 _ hslot rfl).mp rfl
  rw [hexecuted, List.getLast?_concat] at hlast
  rw [← Option.some.inj hlast] at hattr
  cases hattr

end KernelModules.AccessControl

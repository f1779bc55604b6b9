import KernelModules.AccessControl.LsmHooks
import KernelModules.Foundation.TransitionSystem

/-!
# Lineages of credentials

Credentials `ι` that `mp4_cred_alloc_blank` and `mp4_cred_prepare` produce and `mp4_cred_free`
frees, in any order, with allocations that may fail. A credential is produced by a call that returns
0; what its label should be is recorded beside it.

Every credential that is not yet freed should have a security structure with that label
(`LabelsHeld`).
`mp4_cred_prepare` does not look at what `mp4_cred_alloc_blank` returns, and so returns 0 without a
structure where the old credential has none and the allocation fails;
`always_labelsHeld_iff_meets` says that this is the only way to break the law.
-/

set_option autoImplicit false
set_option relaxedAutoImplicit false

namespace KernelModules.AccessControl

open Foundation

variable {ι : Type*} [DecidableEq ι]

/-! ### The calls -/

/-- A credential. The label is the one that the call which produced it should have given it, none
for the initial credential. -/
structure Credential where
  cred : Cred
  label : Option ℤ
  freed : Bool
  deriving DecidableEq

/-- The credentials produced so far, and what the last call returned. -/
structure Credentials (ι : Type*) where
  slots : ι → Option Credential
  returned : ℤ

/-- A call of a credential hook, with the success of its allocation. -/
inductive CredCall (ι : Type*)
  | allocBlank (new : ι) (kmalloc : Bool)
  | prepare (new old : ι) (kmalloc : Bool)
  | free (old : ι)

/-- A call has returned with a credential, which is produced when the call returned 0. -/
def Credentials.produce (s : Credentials ι) (new : ι) (label : ℤ) (result : ℤ × Cred) :
    Credentials ι where
  slots := if result.1 = 0 then Function.update s.slots new (some ⟨result.2, some label, false⟩)
    else s.slots
  returned := result.1

/-- The label of a credential, `MP4_NO_ACCESS` when it has none. -/
def Cred.labelOf (cred : Cred) : ℤ := cred.security.elim mp4NoAccess Mp4Security.mp4Flags

/-- The step of the credentials. The kernel gives the hooks a new credential whose pointer
`security` is NULL. -/
def nextCredentials (s : Credentials ι) : CredCall ι → Option (Credentials ι)
  | .allocBlank new kmalloc =>
    match s.slots new with
    | some _ => none
    | none => some (s.produce new mp4NoAccess (mp4CredAllocBlank ⟨none⟩ kmalloc))
  | .prepare new old kmalloc =>
    match s.slots new, s.slots old with
    | none, some credential =>
      if credential.freed then none
      else some
        (s.produce new credential.cred.labelOf (mp4CredPrepare ⟨none⟩ credential.cred kmalloc))
    | _, _ => none
  | .free old =>
    match s.slots old with
    | none => none
    | some credential =>
      if credential.freed then none
      else some { s with
        slots := Function.update s.slots old
          (some { credential with cred := mp4CredFree credential.cred, freed := true }) }

/-- The initial credential alone, without a security structure. -/
def initialCredential (init : ι) : Credentials ι where
  slots := Function.update (fun _ ↦ none) init (some ⟨⟨none⟩, none, false⟩)
  returned := 0

/-! ### The law -/

/-- No hook that reads the label of the credential finds a NULL pointer in its place. -/
def HooksSafe {Inode Dentry : Type*} (vfs : Vfs Inode Dentry) (cred : Cred) : Prop :=
  (∀ inode mask buf val,
      mp4InodePermission vfs cred.security inode mask buf val ≠ .error .nullSecurity) ∧
    (∀ inode wanted kstrdup out,
      mp4InodeInitSecurity vfs cred.security inode wanted kstrdup out ≠ .error .nullSecurity) ∧
    ∀ inode val, mp4BprmSetCreds vfs cred inode val ≠ .error .nullSecurity

/-- Every credential that a call has produced, and that is not yet freed, has a security structure
with its label and is safe for the hooks; the last call returned 0 or a negative number. -/
def LabelsHeld {Inode Dentry : Type*} (vfs : Vfs Inode Dentry) (s : Credentials ι) : Prop :=
  (∀ i credential label, s.slots i = some credential → credential.freed = false →
      credential.label = some label →
        credential.cred.security = some ⟨label⟩ ∧ HooksSafe vfs credential.cred) ∧
    (s.returned = 0 ∨ s.returned < 0)

/-- A credential that is prepared from one without a security structure gets its allocation. -/
def AllocatesForBlank (s : Credentials ι) : CredCall ι → Prop
  | .prepare _ old kmalloc =>
    ∀ credential ∈ s.slots old, credential.cred.security = none → kmalloc = true
  | _ => True

instance (s : Credentials ι) (call : CredCall ι) : Decidable (AllocatesForBlank s call) :=
  match call with
  | .allocBlank _ _ => isTrue trivial
  | .prepare _ old kmalloc =>
    inferInstanceAs (Decidable (∀ credential ∈ s.slots old,
      credential.cred.security = none → kmalloc = true))
  | .free _ => isTrue trivial

/-! ### Credentials with a security structure -/

/-- Reading the label of an inode finds no NULL pointer in place of a credential. -/
theorem getInodeSid_ne_nullSecurity {Inode Dentry : Type*} (vfs : Vfs Inode Dentry) (inode : Inode)
    (val : Option Memory) : getInodeSid vfs inode val ≠ .error .nullSecurity := by
  unfold getInodeSid
  split
  · simp
  · split
    · simp
    · cases val <;> simp

/-- A credential with a security structure is safe for the hooks. -/
theorem hooksSafe_of_security {Inode Dentry : Type*} (vfs : Vfs Inode Dentry) {cred : Cred}
    {msec : Mp4Security} (hsecurity : cred.security = some msec) : HooksSafe vfs cred := by
  refine ⟨fun inode mask buf val ↦ ?_, fun inode wanted kstrdup out ↦ ?_, fun inode val ↦ ?_⟩
  · have hsid := getInodeSid_ne_nullSecurity vfs inode val
    unfold mp4InodePermission
    rw [hsecurity]
    grind
  · unfold mp4InodeInitSecurity
    rw [hsecurity]
    grind
  · have hsid := getInodeSid_ne_nullSecurity vfs inode val
    unfold mp4BprmSetCreds
    rw [hsecurity]
    grind

/-- What the produced credential looks like, and the others are as before. -/
theorem slots_produce (s : Credentials ι) (new : ι) (label : ℤ) (result : ℤ × Cred) {i : ι}
    {credential : Credential} (hi : (s.produce new label result).slots i = some credential) :
    s.slots i = some credential ∨
      (i = new ∧ result.1 = 0 ∧ credential = ⟨result.2, some label, false⟩) := by
  unfold Credentials.produce at hi
  dsimp only at hi
  split_ifs at hi with hzero
  · by_cases hnew : i = new
    · rw [hnew, Function.update_self] at hi
      exact Or.inr ⟨hnew, hzero, (Option.some.inj hi).symm⟩
    · rw [Function.update_of_ne hnew] at hi
      exact Or.inl hi
  · exact Or.inl hi

/-- `mp4_cred_alloc_blank` returns 0 with the blank label, or a negative number. -/
theorem mp4CredAllocBlank_spec (cred : Cred) (kmalloc : Bool) :
    ((mp4CredAllocBlank cred kmalloc).1 = 0 ∧
      (mp4CredAllocBlank cred kmalloc).2.security = some ⟨mp4NoAccess⟩) ∨
      (mp4CredAllocBlank cred kmalloc).1 < 0 := by
  cases kmalloc with
  | true => exact Or.inl ⟨rfl, rfl⟩
  | false => exact Or.inr (by simp [mp4CredAllocBlank, enomem])

/-- `mp4_cred_prepare` returns 0 with the label of the old credential, or a negative number.
Assumes: the allocation succeeds where the old credential has no security structure. -/
theorem mp4CredPrepare_spec (new old : Cred) (kmalloc : Bool)
    (halloc : old.security = none → kmalloc = true) :
    ((mp4CredPrepare new old kmalloc).1 = 0 ∧
      (mp4CredPrepare new old kmalloc).2.security = some ⟨old.labelOf⟩) ∨
      (mp4CredPrepare new old kmalloc).1 < 0 := by
  unfold mp4CredPrepare Cred.labelOf
  cases hold : old.security with
  | none =>
    rw [halloc hold]
    exact Or.inl ⟨rfl, rfl⟩
  | some msec =>
    cases kmalloc with
    | true => exact Or.inl ⟨rfl, rfl⟩
    | false => exact Or.inr (by simp [enomem])

/-- A call that returns 0 with the right label, or a negative number, keeps the law. -/
theorem LabelsHeld.produce {Inode Dentry : Type*} {vfs : Vfs Inode Dentry} {s : Credentials ι}
    (hs : LabelsHeld vfs s) (new : ι) {label : ℤ} {result : ℤ × Cred}
    (hresult : (result.1 = 0 ∧ result.2.security = some ⟨label⟩) ∨ result.1 < 0) :
    LabelsHeld vfs (s.produce new label result) := by
  refine ⟨fun i credential expected hi hfreed hexpected ↦ ?_, hresult.imp And.left id⟩
  rcases slots_produce s new label result hi with hold | ⟨-, hzero, hcredential⟩
  · exact hs.1 i credential expected hold hfreed hexpected
  · have hsecurity := (hresult.resolve_right (by omega)).2
    rw [hcredential] at hexpected ⊢
    rw [← Option.some.inj hexpected]
    exact ⟨hsecurity, hooksSafe_of_security vfs hsecurity⟩

/-! ### The law along runs -/

/-- Every step that meets the condition keeps the law. -/
theorem LabelsHeld.step {Inode Dentry : Type*} {vfs : Vfs Inode Dentry} {s later : Credentials ι}
    {call : CredCall ι} (hs : LabelsHeld vfs s) (hnext : nextCredentials s call = some later)
    (hcall : AllocatesForBlank s call) : LabelsHeld vfs later := by
  cases call with
  | allocBlank new kmalloc =>
    simp only [nextCredentials] at hnext
    split at hnext
    · cases hnext
    · rw [← Option.some.inj hnext]
      exact hs.produce new (mp4CredAllocBlank_spec _ kmalloc)
  | prepare new old kmalloc =>
    simp only [nextCredentials] at hnext
    split at hnext
    · rename_i credential _ hold
      split_ifs at hnext with hfreed
      rw [← Option.some.inj hnext]
      exact hs.produce new (mp4CredPrepare_spec _ _ kmalloc (hcall credential hold))
    · cases hnext
  | free old =>
    simp only [nextCredentials] at hnext
    split at hnext
    · cases hnext
    · rename_i credential hold
      split_ifs at hnext with hfreed
      rw [← Option.some.inj hnext]
      refine ⟨fun i other label hi hother hlabel ↦ ?_, hs.2⟩
      dsimp only at hi
      by_cases heq : i = old
      · rw [heq, Function.update_self] at hi
        rw [← Option.some.inj hi] at hother
        cases hother
      · rw [Function.update_of_ne heq] at hi
        exact hs.1 i other label hi hother hlabel

/-- A step that does not meet the condition breaks the law. -/
theorem not_labelsHeld_of_not_allocatesForBlank {Inode Dentry : Type*} {vfs : Vfs Inode Dentry}
    {s later : Credentials ι} {call : CredCall ι} (hnext : nextCredentials s call = some later)
    (hcall : ¬ AllocatesForBlank s call) : ¬ LabelsHeld vfs later := by
  cases call with
  | allocBlank new kmalloc => exact absurd trivial hcall
  | prepare new old kmalloc =>
    simp only [AllocatesForBlank, not_forall] at hcall
    obtain ⟨credential, hold, hblank, hkmalloc⟩ := hcall
    rw [Bool.not_eq_true] at hkmalloc
    rw [Option.mem_def] at hold
    simp only [nextCredentials, hold] at hnext
    split at hnext
    · rename_i other _ hother
      rw [← Option.some.inj hother, hkmalloc] at hnext
      split_ifs at hnext with hfreed
      intro hheld
      have hnew : later.slots new = some ⟨⟨none⟩, some mp4NoAccess, false⟩ := by
        rw [← Option.some.inj hnext]
        simp [Credentials.produce, mp4CredPrepare, mp4CredAllocBlank, Cred.labelOf, hblank]
      cases (hheld.1 new _ mp4NoAccess hnew rfl rfl).1
    · cases hnext
  | free old => exact absurd trivial hcall

/-- Along every sequence of calls from the initial credential, every credential in use has its label
after each call if and only if, whenever a credential is prepared from one without a security
structure, its allocation succeeds. -/
theorem always_labelsHeld_iff_meets {Inode Dentry : Type*} (vfs : Vfs Inode Dentry) (init : ι)
    (calls : List (CredCall ι)) :
    Always nextCredentials (LabelsHeld vfs) (initialCredential init) calls ↔
      Meets nextCredentials AllocatesForBlank (initialCredential init) calls := by
  refine always_iff_meets (LabelsHeld vfs) (fun _ hheld ↦ hheld)
    (fun _ _ _ hheld hnext hcall ↦ hheld.step hnext hcall)
    (fun _ _ _ _ hnext hcall ↦ not_labelsHeld_of_not_allocatesForBlank hnext hcall) ?_ calls
  refine ⟨fun i credential label hi _ hlabel ↦ ?_, Or.inl rfl⟩
  by_cases hinit : i = init
  · simp only [initialCredential, hinit, Function.update_self, Option.some.injEq] at hi
    rw [← hi] at hlabel
    cases hlabel
  · simp only [initialCredential, Function.update_of_ne hinit] at hi
    cases hi

/-- A credential prepared from the initial one, with an allocation that fails: the call returns 0
and the credential has no security structure. -/
theorem not_always_labelsHeld :
    ¬ Always nextCredentials (LabelsHeld fileVfs) (initialCredential 0)
      [CredCall.prepare 1 0 false] := by
  rintro ⟨-, hlater⟩
  have hheld := hlater _ rfl
  have hsecurity := (hheld.1 1 ⟨⟨none⟩, some mp4NoAccess, false⟩ mp4NoAccess rfl rfl rfl).1
  cases hsecurity

end KernelModules.AccessControl

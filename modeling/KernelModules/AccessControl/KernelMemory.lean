import KernelModules.AccessControl.ConcurrentHooks

/-!
# The common memory of the hooks

The blocks that belong to no running call. `KernelMemory` says what they are: the credentials in use
with the labels that the processes have for them, their security structures, and the buffers that
`mp4_inode_permission` left. A call takes a credential out of the common memory
(`KernelMemory.take`), and puts one into it when it finishes (`KernelMemory.give`); a check leaves a
buffer (`KernelMemory.leak`).
-/

set_option autoImplicit false
set_option relaxedAutoImplicit false

namespace KernelModules.AccessControl

open Foundation

/-! ### What the common memory is -/

/-- The addresses of a credential and its security structure. -/
def footprint (blocks : ℕ → Option KernelBlock) (c : ℕ) : Finset ℕ :=
  match blocks c with
  | some (.cred (some a)) => {c, a}
  | _ => {c}

/-- What belongs to a credential. -/
theorem mem_footprint {blocks : ℕ → Option KernelBlock} {c a : ℕ} :
    a ∈ footprint blocks c ↔ a = c ∨ blocks c = some (.cred (some a)) := by
  unfold footprint
  split
  · rename_i b hb
    simp [hb, eq_comm]
  · rename_i hnone
    simp only [Finset.mem_singleton]
    exact (or_iff_left (hnone a)).symm

/-- A credential is held by more memory. -/
theorem HoldsCred.mono {blocks more : ℕ → Option KernelBlock} {c : ℕ} {cred : Cred}
    (hc : HoldsCred blocks c cred)
    (hmore : ∀ a ∈ footprint blocks c, more a = blocks a) : HoldsCred more c cred := by
  cases hc with
  | null hnull => exact .null ((hmore c (mem_footprint.mpr (Or.inl rfl))).trans hnull)
  | structured hpointer hmsec =>
    exact .structured ((hmore c (mem_footprint.mpr (Or.inl rfl))).trans hpointer)
      ((hmore _ (mem_footprint.mpr (Or.inr hpointer))).trans hmsec)

/-- A credential is held by the memory that has it and more. -/
theorem HoldsCred.or {blocks : ℕ → Option KernelBlock} {c : ℕ} {cred : Cred}
    (hc : HoldsCred blocks c cred) (more : ℕ → Option KernelBlock) :
    HoldsCred (fun a ↦ (blocks a).or (more a)) c cred := by
  cases hc with
  | null hnull => exact .null (by rw [hnull, Option.some_or])
  | structured hpointer hmsec =>
    exact .structured (by rw [hpointer, Option.some_or]) (by rw [hmsec, Option.some_or])

/-- A credential that an owner holds is in the heap. -/
theorem HoldsCred.of_part {Dentry : Type} {κ : Type*} [DecidableEq κ] {owner : ℕ → κ} {o : κ}
    {heap : Heap KernelBlock Dentry} {c : ℕ} {cred : Cred}
    (hc : HoldsCred (heap.part owner o) c cred) : HoldsCred heap.blocks c cred := by
  cases hc with
  | null hnull => exact .null (Heap.part_eq_some_iff.mp hnull).2
  | structured hpointer hmsec =>
    exact .structured (Heap.part_eq_some_iff.mp hpointer).2 (Heap.part_eq_some_iff.mp hmsec).2

/-- What the common memory holds. Every credential in use is there with the label that the processes
have for it, every security structure is under one credential, and the buffers are `leaked`. -/
structure KernelMemory (common : ℕ → Option KernelBlock) (creds : ℕ → Option CredStatus)
    (slots : ℕ → Option Credential) (leaked : Finset ℕ) : Prop where
  ready : ∀ c, creds c = some .ready → ∃ credential, slots c = some credential ∧
    credential.freed = false ∧ HoldsCred common c credential.cred
  failed : ∀ c, creds c = some .failed → slots c = none ∧ HoldsCred common c ⟨none⟩
  cred_mem : ∀ c pointer, common c = some (.cred pointer) → creds c ≠ none
  security_mem : ∀ a msec, common a = some (.security msec) →
    ∃ c, common c = some (.cred (some a))
  alone : ∀ a c other, common c = some (.cred (some a)) → common other = some (.cred (some a)) →
    c = other
  buffers : ∀ a, a ∈ leaked ↔ ∃ mem, common a = some (.buffer mem)

/-! ### Credentials and what they point to -/

namespace KernelMemory

variable {common : ℕ → Option KernelBlock} {creds : ℕ → Option CredStatus}
  {slots : ℕ → Option Credential} {leaked : Finset ℕ}

/-- A credential of the kernel is in memory. -/
theorem holdsCred (hmemory : KernelMemory common creds slots leaked) {c : ℕ}
    (hc : creds c ≠ none) : ∃ cred, HoldsCred common c cred := by
  obtain ⟨status, hstatus⟩ := Option.ne_none_iff_exists'.mp hc
  cases status with
  | ready =>
    obtain ⟨credential, -, -, hholds⟩ := hmemory.ready c hstatus
    exact ⟨_, hholds⟩
  | failed => exact ⟨_, (hmemory.failed c hstatus).2⟩

/-- The block at the address of a credential is a credential. -/
theorem exists_pointer (hmemory : KernelMemory common creds slots leaked) {c : ℕ}
    (hc : creds c ≠ none) : ∃ pointer, common c = some (.cred pointer) := by
  obtain ⟨cred, hholds⟩ := hmemory.holdsCred hc
  cases hholds with
  | null hnull => exact ⟨_, hnull⟩
  | structured hpointer _ => exact ⟨_, hpointer⟩

/-- What a credential points to is a security structure. -/
theorem security_of_pointer (hmemory : KernelMemory common creds slots leaked) {c a : ℕ}
    (hc : common c = some (.cred (some a))) : ∃ msec, common a = some (.security msec) := by
  obtain ⟨cred, hholds⟩ := hmemory.holdsCred (hmemory.cred_mem c _ hc)
  cases hholds with
  | null hnull =>
    rw [hc] at hnull
    cases hnull
  | structured hpointer hmsec =>
    rw [hc] at hpointer
    cases hpointer
    exact ⟨_, hmsec⟩

/-- Two credentials have nothing in common. -/
theorem notMem_footprint (hmemory : KernelMemory common creds slots leaked) {c other a : ℕ}
    (hc : creds c ≠ none) (hother : creds other ≠ none) (hne : other ≠ c)
    (ha : a ∈ footprint common other) : a ∉ footprint common c := by
  obtain ⟨pointer, hpointer⟩ := hmemory.exists_pointer hc
  obtain ⟨pointer', hpointer'⟩ := hmemory.exists_pointer hother
  rw [mem_footprint] at ha ⊢
  rintro (rfl | hcommon)
  · rcases ha with rfl | hfrom
    · exact hne rfl
    · obtain ⟨msec, hmsec⟩ := hmemory.security_of_pointer hfrom
      rw [hpointer] at hmsec
      cases hmsec
  · rcases ha with rfl | hfrom
    · obtain ⟨msec, hmsec⟩ := hmemory.security_of_pointer hcommon
      rw [hpointer'] at hmsec
      cases hmsec
    · exact hne (hmemory.alone a other c hfrom hcommon)

/-! ### Credentials that are taken and given back -/

/-- A credential is taken out of the common memory with its structure. -/
theorem take (hmemory : KernelMemory common creds slots leaked) {c : ℕ} (hc : creds c ≠ none) :
    KernelMemory (fun a ↦ if a ∈ footprint common c then none else common a)
      (Function.update creds c none) slots leaked := by
  have hkept : ∀ other, creds other ≠ none → other ≠ c → ∀ a ∈ footprint common other,
      (if a ∈ footprint common c then none else common a) = common a :=
    fun other hother hne a ha ↦ if_neg (hmemory.notMem_footprint hc hother hne ha)
  have hstays : ∀ a content, (if a ∈ footprint common c then none else common a) = some content →
      a ∉ footprint common c ∧ common a = some content := by
    intro a content ha
    split_ifs at ha with hmem
    exact ⟨hmem, ha⟩
  refine ⟨fun other hother ↦ ?_, fun other hother ↦ ?_, fun other pointer hother ↦ ?_,
    fun a msec ha ↦ ?_, fun a first second hfirst hsecond ↦ ?_, fun a ↦ ?_⟩
  · have hne : other ≠ c := by
      intro heq
      rw [heq, Function.update_self] at hother
      cases hother
    rw [Function.update_of_ne hne] at hother
    obtain ⟨credential, hslot, hfreed, hholds⟩ := hmemory.ready other hother
    exact ⟨credential, hslot, hfreed, hholds.mono (hkept other (by simp [hother]) hne)⟩
  · have hne : other ≠ c := by
      intro heq
      rw [heq, Function.update_self] at hother
      cases hother
    rw [Function.update_of_ne hne] at hother
    obtain ⟨hslot, hholds⟩ := hmemory.failed other hother
    exact ⟨hslot, hholds.mono (hkept other (by simp [hother]) hne)⟩
  · obtain ⟨hnot, hblock⟩ := hstays other _ hother
    have hne : other ≠ c := fun heq ↦ hnot (mem_footprint.mpr (Or.inl heq))
    rw [Function.update_of_ne hne]
    exact hmemory.cred_mem other pointer hblock
  · obtain ⟨hnot, hblock⟩ := hstays a _ ha
    obtain ⟨other, hother⟩ := hmemory.security_mem a msec hblock
    have hne : other ≠ c := by
      intro heq
      rw [heq] at hother
      exact hnot (mem_footprint.mpr (Or.inr hother))
    have hmem : other ∈ footprint common other := mem_footprint.mpr (Or.inl rfl)
    exact ⟨other, (hkept other (hmemory.cred_mem other _ hother) hne other hmem).trans hother⟩
  · exact hmemory.alone a first second (hstays first _ hfirst).2 (hstays second _ hsecond).2
  · rw [hmemory.buffers]
    refine exists_congr fun mem ↦ ⟨fun ha ↦ ?_, fun ha ↦ (hstays a _ ha).2⟩
    have hnot : a ∉ footprint common c := by
      intro hmem
      rcases mem_footprint.mp hmem with rfl | hpointer
      · obtain ⟨pointer, hpointer⟩ := hmemory.exists_pointer hc
        rw [ha] at hpointer
        cases hpointer
      · obtain ⟨msec, hmsec⟩ := hmemory.security_of_pointer hpointer
        rw [ha] at hmsec
        cases hmsec
    rw [if_neg hnot, ha]

/-- A credential that is taken is whole. -/
theorem taken {c : ℕ} {cred : Cred} (hholds : HoldsCred common c cred) :
    HoldsCred (fun a ↦ if a ∈ footprint common c then common a else none) c cred ∧
      OnlyCred (fun a ↦ if a ∈ footprint common c then common a else none) c := by
  refine ⟨hholds.mono fun a ha ↦ if_pos ha, fun a content ha ↦ ?_⟩
  dsimp only at ha ⊢
  split_ifs at ha with hmem
  rw [if_pos (mem_footprint.mpr (Or.inl rfl))]
  exact mem_footprint.mp hmem

/-- What the common memory and other memory hold together, when nothing is in both. -/
theorem or_eq_some_iff_of_disjoint {mine : ℕ → Option KernelBlock}
    (hdisjoint : ∀ a content, mine a = some content → common a = none) {a : ℕ}
    {content : KernelBlock} :
    (common a).or (mine a) = some content ↔ common a = some content ∨ mine a = some content := by
  rw [Option.or_eq_some_iff]
  exact or_congr_right (and_iff_right_of_imp (hdisjoint a content))

/-- A credential gets into the common memory with its structure. Assumes: it is whole, and the
processes have it with its label, or not at all when its production failed. -/
theorem give (hmemory : KernelMemory common creds slots leaked) {mine : ℕ → Option KernelBlock}
    {c : ℕ} {cred : Cred} {status : CredStatus} {after : ℕ → Option Credential}
    (hholds : HoldsCred mine c cred) (honly : OnlyCred mine c)
    (hdisjoint : ∀ a content, mine a = some content → common a = none)
    (hafter : ∀ other, other ≠ c → after other = slots other)
    (hready : status = .ready → ∃ credential, after c = some credential ∧
      credential.freed = false ∧ credential.cred = cred)
    (hfailed : status = .failed → after c = none ∧ cred = ⟨none⟩) :
    KernelMemory (fun a ↦ (common a).or (mine a)) (Function.update creds c (some status)) after
      leaked := by
  have hor : ∀ a content, (common a).or (mine a) = some content ↔
      common a = some content ∨ mine a = some content :=
    fun _ _ ↦ or_eq_some_iff_of_disjoint hdisjoint
  have hmore : HoldsCred (fun a ↦ (common a).or (mine a)) c cred := by
    cases hholds with
    | null hnull => exact .null ((hor c _).mpr (Or.inr hnull))
    | structured hpointer hmsec =>
      exact .structured ((hor c _).mpr (Or.inr hpointer)) ((hor _ _).mpr (Or.inr hmsec))
  have hmine : ∀ a content, mine a = some content →
      (a = c ∧ ∃ pointer, content = .cred pointer) ∨
        (mine c = some (.cred (some a)) ∧ ∃ msec, content = .security msec) :=
    fun _ _ ↦ honly.cases hholds
  -- A pointer of the credential does not lead into the common memory.
  have happart : ∀ a other, common other = some (.cred (some a)) →
      mine c ≠ some (.cred (some a)) := by
    intro a other hother hc
    obtain ⟨msec, hmsec⟩ := hmemory.security_of_pointer hother
    cases hholds with
    | null hnull =>
      rw [hc] at hnull
      cases hnull
    | structured hpointer hstructure =>
      rw [hc] at hpointer
      cases hpointer
      rw [hdisjoint a _ hstructure] at hmsec
      cases hmsec
  refine ⟨fun other hother ↦ ?_, fun other hother ↦ ?_, fun other pointer hother ↦ ?_,
    fun a msec ha ↦ ?_, fun a first second hfirst hsecond ↦ ?_, fun a ↦ ?_⟩
  · by_cases hne : other = c
    · rw [hne, Function.update_self] at hother
      obtain ⟨credential, hslot, hfreed, hcred⟩ := hready (Option.some.inj hother)
      rw [hne]
      exact ⟨credential, hslot, hfreed, hcred ▸ hmore⟩
    · rw [Function.update_of_ne hne] at hother
      obtain ⟨credential, hslot, hfreed, hheld⟩ := hmemory.ready other hother
      exact ⟨credential, (hafter other hne).trans hslot, hfreed, hheld.or mine⟩
  · by_cases hne : other = c
    · rw [hne, Function.update_self] at hother
      obtain ⟨hslot, hcred⟩ := hfailed (Option.some.inj hother)
      rw [hne]
      exact ⟨hslot, hcred ▸ hmore⟩
    · rw [Function.update_of_ne hne] at hother
      obtain ⟨hslot, hheld⟩ := hmemory.failed other hother
      exact ⟨(hafter other hne).trans hslot, hheld.or mine⟩
  · by_cases hne : other = c
    · rw [hne, Function.update_self]
      exact Option.some_ne_none status
    · rw [Function.update_of_ne hne]
      rcases (hor other _).mp hother with hcommon | hown
      · exact hmemory.cred_mem other pointer hcommon
      · rcases hmine other _ hown with ⟨heq, -⟩ | ⟨-, msec, hmsec⟩
        · exact absurd heq hne
        · cases hmsec
  · rcases (hor a _).mp ha with hcommon | hown
    · obtain ⟨other, hother⟩ := hmemory.security_mem a msec hcommon
      exact ⟨other, (hor other _).mpr (Or.inl hother)⟩
    · rcases hmine a _ hown with ⟨-, pointer, hpointer⟩ | ⟨hc, -⟩
      · cases hpointer
      · exact ⟨c, (hor c _).mpr (Or.inr hc)⟩
  · have honlyOne : ∀ other, mine other = some (.cred (some a)) → other = c := by
      intro other hother
      rcases hmine other _ hother with ⟨heq, -⟩ | ⟨-, msec, hmsec⟩
      · exact heq
      · cases hmsec
    rcases (hor first _).mp hfirst with hfirst | hfirst <;>
      rcases (hor second _).mp hsecond with hsecond | hsecond
    · exact hmemory.alone a first second hfirst hsecond
    · exact absurd (honlyOne second hsecond ▸ hsecond) (happart a first hfirst)
    · exact absurd (honlyOne first hfirst ▸ hfirst) (happart a second hsecond)
    · exact (honlyOne first hfirst).trans (honlyOne second hsecond).symm
  · rw [hmemory.buffers]
    refine exists_congr fun mem ↦ ⟨fun ha ↦ (hor a _).mpr (Or.inl ha), fun ha ↦ ?_⟩
    refine ((hor a _).mp ha).resolve_right fun hown ↦ ?_
    rcases hmine a _ hown with ⟨-, pointer, hpointer⟩ | ⟨-, msec, hmsec⟩
    · cases hpointer
    · cases hmsec

/-- A buffer gets into the common memory. -/
theorem leak (hmemory : KernelMemory common creds slots leaked) {mine : ℕ → Option KernelBlock}
    {b : ℕ} {mem : Memory} (hb : common b = none)
    (hmine : mine = Function.update (fun _ ↦ none) b (some (.buffer mem))) :
    KernelMemory (fun a ↦ (common a).or (mine a)) creds slots (insert b leaked) ∧ b ∉ leaked := by
  have hor : ∀ a, (common a).or (mine a) = if a = b then some (.buffer mem) else common a := by
    intro a
    rw [hmine]
    split_ifs with hab
    · rw [hab, hb, Function.update_self]
      rfl
    · rw [Function.update_of_ne hab, Option.or_none]
  have hstays : ∀ a content, (common a).or (mine a) = some content → a ≠ b →
      common a = some content := by
    intro a content ha hne
    rw [hor, if_neg hne] at ha
    exact ha
  have hbuffer : ∀ a content, (common a).or (mine a) = some content →
      (∀ other, content ≠ .buffer other) → common a = some content := by
    intro a content ha hcontent
    refine hstays a content ha fun heq ↦ ?_
    rw [hor, if_pos heq] at ha
    exact hcontent mem (Option.some.inj ha).symm
  refine ⟨⟨fun c hc ↦ ?_, fun c hc ↦ ?_, fun c pointer hc ↦ ?_, fun a msec ha ↦ ?_,
    fun a first second hfirst hsecond ↦ ?_, fun a ↦ ?_⟩, fun hmem ↦ ?_⟩
  · obtain ⟨credential, hslot, hfreed, hheld⟩ := hmemory.ready c hc
    exact ⟨credential, hslot, hfreed, hheld.or mine⟩
  · exact ⟨(hmemory.failed c hc).1, (hmemory.failed c hc).2.or mine⟩
  · exact hmemory.cred_mem c pointer (hbuffer c _ hc (by simp))
  · obtain ⟨c, hc⟩ := hmemory.security_mem a msec (hbuffer a _ ha (by simp))
    refine ⟨c, ?_⟩
    rw [hc, Option.some_or]
  · exact hmemory.alone a first second (hbuffer first _ hfirst (by simp))
      (hbuffer second _ hsecond (by simp))
  · rw [Finset.mem_insert, hmemory.buffers, hor]
    split_ifs with hab
    · simp [hab]
    · simp [hab]
  · obtain ⟨other, hother⟩ := (hmemory.buffers b).mp hmem
    cases hb.symm.trans hother

end KernelMemory

end KernelModules.AccessControl

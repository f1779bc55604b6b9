import KernelModules.Foundation.TransitionSystem
import Mathlib.Logic.Function.Basic

/-!
# Words shared by a writer and a reader

A writer stores words, and a reader takes them without a lock: it reads a word, and clears it in a
step of its own (`SharedWords.next`). A store to the word that the reader has taken and not cleared
is a race.

In every run, each word that the reader has taken that is not blank is of one store or from the
start, and no two words are of the same one (`delivered_of_reachable`). What is stored is taken,
still there, overwritten by a later store, or was lost in a race.
-/

set_option autoImplicit false
set_option relaxedAutoImplicit false

namespace KernelModules.Foundation

variable {α : Type*}

/-! ### Stores and takes -/

/-- Words by their index. The stores and the words taken are kept with their index, oldest first,
and so are the numbers of the stores that raced with the reader. -/
structure SharedWords (α : Type*) where
  words : ℕ → α
  stored : List (ℕ × α)
  taken : List (ℕ × α)
  taking : Option ℕ
  raced : List ℕ

/-- A step of the writer or of the reader. -/
inductive WordEvent (α : Type*)
  | store (i : ℕ) (value : α)
  | take (i : ℕ)
  | clear

namespace SharedWords

/-- Nothing has been stored or taken. -/
def start (init : ℕ → α) : SharedWords α := ⟨init, [], [], none, []⟩

/-- The words after a store. -/
def store (s : SharedWords α) (i : ℕ) (value : α) : SharedWords α :=
  { s with
    words := Function.update s.words i value
    stored := s.stored ++ [(i, value)]
    raced := if s.taking = some i then s.raced ++ [s.stored.length] else s.raced }

/-- The words after the reader has taken one. -/
def take (s : SharedWords α) (i : ℕ) : SharedWords α :=
  { s with
    taken := s.taken ++ [(i, s.words i)]
    taking := some i }

/-- The words after the reader has cleared the one it took. -/
def clear (blank : α) (s : SharedWords α) (i : ℕ) : SharedWords α :=
  { s with
    words := Function.update s.words i blank
    taking := none }

/-- The step of the words. The reader takes a word when it has cleared the one before. -/
def next (blank : α) (s : SharedWords α) : WordEvent α → Option (SharedWords α)
  | .store i value => some (s.store i value)
  | .take i => if s.taking = none then some (s.take i) else none
  | .clear => s.taking.map (s.clear blank)

end SharedWords

/-! ### Where words come from -/

/-- Where a word comes from: from the start, or from the store with a number. -/
inductive Origin
  | start (i : ℕ)
  | store (n : ℕ)
  deriving DecidableEq

/-- The origin is before the store with the number. -/
def Origin.Before : Origin → ℕ → Prop
  | start _, _ => True
  | store m, n => m < n

namespace SharedWords

/-- What an origin has put where. -/
def entryOf (init : ℕ → α) (s : SharedWords α) : Origin → Option (ℕ × α)
  | .start i => some (i, init i)
  | .store n => s.stored[n]?

/-- A later store has gone to the word. -/
def Overwritten (s : SharedWords α) (origin : Origin) (i : ℕ) : Prop :=
  ∃ n entry, origin.Before n ∧ s.stored[n]? = some entry ∧ entry.1 = i

/-- The words taken have origins: those that are not blank come from the start or from a store, each
from another. -/
structure Sourced (init : ℕ → α) (blank : α) (s : SharedWords α)
    (origins : List (Option Origin)) : Prop where
  length_eq : origins.length = s.taken.length
  entry_eq : ∀ (k : ℕ) (entry : ℕ × α) (origin : Origin), s.taken[k]? = some entry →
    origins[k]? = some (some origin) → s.entryOf init origin = some entry
  blank_of_none : ∀ (k : ℕ) (entry : ℕ × α), s.taken[k]? = some entry → origins[k]? = some none →
    entry.2 = blank
  once : ∀ (k k' : ℕ) (origin : Origin), origins[k]? = some (some origin) →
    origins[k']? = some (some origin) → k = k'

/-- The words taken have origins, and what was put anywhere is taken, still there as the last,
overwritten, or lost in a race. -/
structure Delivered (init : ℕ → α) (blank : α) (s : SharedWords α)
    (origins : List (Option Origin)) : Prop extends Sourced init blank s origins where
  kept : ∀ origin entry, s.entryOf init origin = some entry →
    some origin ∈ origins ∨ (s.words entry.1 = entry.2 ∧ ¬ s.Overwritten origin entry.1) ∨
      s.Overwritten origin entry.1 ∨ ∃ n ∈ s.raced, origin = .store n

/-- Beside the origins of the words taken, the origin of every word that is there. -/
structure Traced (init : ℕ → α) (blank : α) (s : SharedWords α) (origins : List (Option Origin))
    (latest : ℕ → Option Origin) : Prop extends Sourced init blank s origins where
  cleared : ∀ i, latest i = none → s.words i = blank
  holds : ∀ i origin, latest i = some origin →
    s.entryOf init origin = some (i, s.words i) ∧ ¬ s.Overwritten origin i
  fresh : ∀ i origin, latest i = some origin → s.taking ≠ some i → some origin ∉ origins
  taking : ∀ i origin, s.taking = some i → latest i = some origin →
    some origin ∈ origins ∨ ∃ n ∈ s.raced, origin = .store n
  kept : ∀ origin entry, s.entryOf init origin = some entry →
    some origin ∈ origins ∨ latest entry.1 = some origin ∨ s.Overwritten origin entry.1 ∨
      ∃ n ∈ s.raced, origin = .store n

/-- Traced words are delivered. -/
theorem Traced.delivered {init : ℕ → α} {blank : α} {s : SharedWords α}
    {origins : List (Option Origin)} {latest : ℕ → Option Origin}
    (htraced : Traced init blank s origins latest) : Delivered init blank s origins where
  toSourced := htraced.toSourced
  kept := by
    intro origin entry hentry
    refine (htraced.kept origin entry hentry).imp_right fun hrest ↦ hrest.imp_left fun hlatest ↦ ?_
    obtain ⟨hhere, hlast⟩ := htraced.holds entry.1 origin hlatest
    have heq := Option.some.inj (hentry.symm.trans hhere)
    exact ⟨(congrArg Prod.snd heq).symm, hlast⟩

/-! ### What a step keeps -/

/-- What is in a list with one more at the end. -/
theorem eq_or_of_getElem?_concat {β : Type*} {xs : List β} {x y : β} {k : ℕ}
    (hk : (xs ++ [x])[k]? = some y) : xs[k]? = some y ∨ (k = xs.length ∧ y = x) := by
  rcases Nat.lt_trichotomy k xs.length with hlt | rfl | hgt
  · rw [List.getElem?_append_left hlt] at hk
    exact Or.inl hk
  · rw [List.getElem?_concat_length] at hk
    exact Or.inr ⟨rfl, (Option.some.inj hk).symm⟩
  · rw [List.getElem?_eq_none (by simpa using Nat.succ_le_of_lt hgt)] at hk
    cases hk

section Steps

variable {init : ℕ → α} {blank : α} {s : SharedWords α} {origins : List (Option Origin)}
  {latest : ℕ → Option Origin}

/-- What an origin has put somewhere stays when more is stored. -/
theorem entryOf_store {origin : Origin} {entry : ℕ × α} (i : ℕ) (value : α)
    (hentry : s.entryOf init origin = some entry) :
    (s.store i value).entryOf init origin = some entry := by
  cases origin with
  | start j => exact hentry
  | store n =>
    have hlt : n < s.stored.length := (List.getElem?_eq_some_iff.mp hentry).1
    exact (List.getElem?_append_left hlt).trans hentry

/-- What there is after a store was there before, or is what is stored. -/
theorem entryOf_store_cases {origin : Origin} {entry : ℕ × α} {i : ℕ} {value : α}
    (hentry : (s.store i value).entryOf init origin = some entry) :
    s.entryOf init origin = some entry ∨
      (origin = .store s.stored.length ∧ entry = (i, value)) := by
  cases origin with
  | start j => exact Or.inl hentry
  | store n =>
    refine (eq_or_of_getElem?_concat hentry).imp_right ?_
    rintro ⟨rfl, rfl⟩
    exact ⟨rfl, rfl⟩

/-- A store overwrites nothing but its own word. -/
theorem overwritten_store_iff {origin : Origin} {entry : ℕ × α} {i j : ℕ} {value : α}
    (hentry : s.entryOf init origin = some entry) :
    (s.store i value).Overwritten origin j ↔ s.Overwritten origin j ∨ j = i := by
  constructor
  · rintro ⟨n, later, hbefore, hlater, hj⟩
    rcases Nat.lt_or_ge n s.stored.length with hlt | hge
    · exact Or.inl ⟨n, later, hbefore, (List.getElem?_append_left hlt).symm.trans hlater, hj⟩
    · have hlast : n = s.stored.length := by
        have hlt := (List.getElem?_eq_some_iff.mp hlater).1
        simp only [store, List.length_append, List.length_singleton] at hlt
        omega
      rw [hlast] at hlater
      have hnew : (s.stored ++ [(i, value)])[s.stored.length]? = some later := hlater
      rw [List.getElem?_concat_length] at hnew
      rw [← Option.some.inj hnew] at hj
      exact Or.inr hj.symm
  · rintro (⟨n, later, hbefore, hlater, hj⟩ | rfl)
    · have hlt := (List.getElem?_eq_some_iff.mp hlater).1
      exact ⟨n, later, hbefore, (List.getElem?_append_left hlt).trans hlater, hj⟩
    · refine ⟨s.stored.length, (j, value), ?_, List.getElem?_concat_length, rfl⟩
      cases origin with
      | start k => exact trivial
      | store n => exact (List.getElem?_eq_some_iff.mp hentry).1

/-- The origins of words that were taken have put something somewhere. -/
theorem Sourced.exists_entry (hsourced : Sourced init blank s origins) {origin : Origin}
    (horigin : some origin ∈ origins) : ∃ entry, s.entryOf init origin = some entry := by
  obtain ⟨k, hk⟩ := List.mem_iff_getElem?.mp horigin
  have hlt : k < s.taken.length := by
    rw [← hsourced.length_eq]
    exact (List.getElem?_eq_some_iff.mp hk).1
  exact ⟨_, hsourced.entry_eq k _ origin (List.getElem?_eq_getElem hlt) hk⟩

/-- The number of the next store is of no word yet. -/
theorem Sourced.next_notMem (hsourced : Sourced init blank s origins) :
    some (Origin.store s.stored.length) ∉ origins := by
  intro hmem
  obtain ⟨entry, hentry⟩ := hsourced.exists_entry hmem
  exact absurd (List.getElem?_eq_some_iff.mp hentry).1 (Nat.lt_irrefl _)

/-- What raced before a store has raced after it. -/
theorem mem_raced_store {n : ℕ} (hn : n ∈ s.raced) (i : ℕ) (value : α) :
    n ∈ (s.store i value).raced := by
  simp only [store]
  split_ifs
  · exact List.mem_append_left _ hn
  · exact hn

/-- A store to the word that the reader has taken has raced. -/
theorem length_mem_raced_store {i : ℕ} (htaking : s.taking = some i) (value : α) :
    s.stored.length ∈ (s.store i value).raced := by
  simp only [store, if_pos htaking]
  exact List.mem_append_right _ (List.mem_singleton_self _)

/-- The new store is the last one to its word. -/
theorem holds_store_self (s : SharedWords α) (i : ℕ) (value : α) :
    (s.store i value).entryOf init (.store s.stored.length) =
        some (i, (s.store i value).words i) ∧
      ¬ (s.store i value).Overwritten (.store s.stored.length) i := by
  constructor
  · simp only [entryOf, store, Function.update_self]
    exact List.getElem?_concat_length
  · rintro ⟨n, later, hbefore, hlater, -⟩
    have hlt := (List.getElem?_eq_some_iff.mp hlater).1
    have hgt : s.stored.length < n := hbefore
    simp only [store, List.length_append, List.length_singleton] at hlt
    omega

/-- A store is traced. -/
theorem Traced.store (htraced : Traced init blank s origins latest) (i : ℕ) (value : α) :
    Traced init blank (s.store i value) origins
      (Function.update latest i (some (.store s.stored.length))) where
  length_eq := htraced.length_eq
  entry_eq k entry origin hk horigin :=
    entryOf_store i value (htraced.entry_eq k entry origin hk horigin)
  blank_of_none := htraced.blank_of_none
  once := htraced.once
  cleared := by
    intro j hj
    by_cases hji : j = i
    · rw [hji, Function.update_self] at hj
      cases hj
    · rw [Function.update_of_ne hji] at hj
      exact (Function.update_of_ne hji ..).trans (htraced.cleared j hj)
  holds := by
    intro j origin hj
    by_cases hji : j = i
    · rw [hji, Function.update_self] at hj
      rw [hji, ← Option.some.inj hj]
      exact holds_store_self s i value
    · rw [Function.update_of_ne hji] at hj
      obtain ⟨hentry, hlast⟩ := htraced.holds j origin hj
      have hword : (s.store i value).words j = s.words j := Function.update_of_ne hji ..
      rw [hword, overwritten_store_iff hentry]
      exact ⟨entryOf_store i value hentry, fun hover ↦ hover.elim hlast hji⟩
  fresh := by
    intro j origin hj htaking
    by_cases hji : j = i
    · rw [hji, Function.update_self] at hj
      rw [← Option.some.inj hj]
      exact htraced.next_notMem
    · rw [Function.update_of_ne hji] at hj
      exact htraced.fresh j origin hj htaking
  taking := by
    intro j origin htaking hj
    have hbefore : s.taking = some j := htaking
    by_cases hji : j = i
    · rw [hji, Function.update_self] at hj
      exact Or.inr ⟨_, length_mem_raced_store (hji ▸ hbefore) value, (Option.some.inj hj).symm⟩
    · rw [Function.update_of_ne hji] at hj
      refine (htraced.taking j origin hbefore hj).imp_right ?_
      rintro ⟨n, hn, heq⟩
      exact ⟨n, mem_raced_store hn i value, heq⟩
  kept := by
    intro origin entry hentry
    rcases entryOf_store_cases hentry with hold | ⟨rfl, rfl⟩
    · by_cases hover : (s.store i value).Overwritten origin entry.1
      · exact Or.inr (Or.inr (Or.inl hover))
      · have hne : entry.1 ≠ i := fun heq ↦ hover ((overwritten_store_iff hold).mpr (Or.inr heq))
        rcases htraced.kept origin entry hold with htaken | hlatest | hbefore | ⟨n, hn, heq⟩
        · exact Or.inl htaken
        · exact Or.inr (Or.inl ((Function.update_of_ne hne ..).trans hlatest))
        · exact absurd ((overwritten_store_iff hold).mpr (Or.inl hbefore)) hover
        · exact Or.inr (Or.inr (Or.inr ⟨n, mem_raced_store hn i value, heq⟩))
    · exact Or.inr (Or.inl (Function.update_self ..))

/-- A word taken with its origin was taken before, or is the one taken now. -/
theorem Sourced.take_cases (hsourced : Sourced init blank s origins) {i k : ℕ} {entry : ℕ × α}
    {source origin : Option Origin} (hk : (s.take i).taken[k]? = some entry)
    (horigin : (origins ++ [source])[k]? = some origin) :
    (s.taken[k]? = some entry ∧ origins[k]? = some origin) ∨
      (entry = (i, s.words i) ∧ origin = source) := by
  rcases eq_or_of_getElem?_concat hk with hold | ⟨rfl, rfl⟩
  · have hlt := (List.getElem?_eq_some_iff.mp hold).1
    rw [List.getElem?_append_left (hsourced.length_eq ▸ hlt)] at horigin
    exact Or.inl ⟨hold, horigin⟩
  · rw [← hsourced.length_eq, List.getElem?_concat_length] at horigin
    exact Or.inr ⟨rfl, (Option.some.inj horigin).symm⟩

/-- What is taken is traced to what is there. Assumes: the reader has cleared the word before. -/
theorem Traced.take (htraced : Traced init blank s origins latest) (hnone : s.taking = none)
    (i : ℕ) : Traced init blank (s.take i) (origins ++ [latest i]) latest where
  length_eq := by
    simp only [SharedWords.take, List.length_append, List.length_singleton, htraced.length_eq]
  entry_eq := by
    intro k entry origin hk horigin
    rcases htraced.take_cases hk horigin with ⟨hold, hsource⟩ | ⟨rfl, hsource⟩
    · exact htraced.entry_eq k entry origin hold hsource
    · exact (htraced.holds i origin hsource.symm).1
  blank_of_none := by
    intro k entry hk horigin
    rcases htraced.take_cases hk horigin with ⟨hold, hsource⟩ | ⟨rfl, hsource⟩
    · exact htraced.blank_of_none k entry hold hsource
    · exact htraced.cleared i hsource.symm
  once := by
    intro k k' origin hk hk'
    have hnew : some origin = latest i → ∀ m : ℕ, origins[m]? ≠ some (some origin) := by
      intro heq m hm
      have htaking : s.taking ≠ some i := by
        rw [hnone]
        exact (Option.some_ne_none i).symm
      exact htraced.fresh i origin heq.symm htaking (List.mem_of_getElem? hm)
    rcases eq_or_of_getElem?_concat hk with hold | ⟨hlast, heq⟩
    · rcases eq_or_of_getElem?_concat hk' with hold' | ⟨-, heq'⟩
      · exact htraced.once k k' origin hold hold'
      · exact absurd hold (hnew heq' k)
    · rcases eq_or_of_getElem?_concat hk' with hold' | ⟨hlast', -⟩
      · exact absurd hold' (hnew heq k')
      · exact hlast.trans hlast'.symm
  cleared := htraced.cleared
  holds := htraced.holds
  fresh := by
    intro j origin hj htaking hmem
    have hne : j ≠ i := fun heq ↦ htaking (congrArg some heq.symm)
    have hbefore : s.taking ≠ some j := by
      rw [hnone]
      exact (Option.some_ne_none j).symm
    rcases List.mem_append.mp hmem with hold | hnew
    · exact htraced.fresh j origin hj hbefore hold
    · -- An origin has put its word in one place.
      have hi := htraced.holds i origin (List.mem_singleton.mp hnew).symm
      have heq := hi.1.symm.trans (htraced.holds j origin hj).1
      exact hne (congrArg Prod.fst (Option.some.inj heq)).symm
  taking := by
    intro j origin htaking hj
    obtain rfl := Option.some.inj htaking
    exact Or.inl (List.mem_append_right _ (List.mem_singleton.mpr hj.symm))
  kept := by
    intro origin entry hentry
    exact (htraced.kept origin entry hentry).imp_left (List.mem_append_left _)

/-- What is cleared is traced. Assumes: the reader has taken the word. -/
theorem Traced.clear (htraced : Traced init blank s origins latest) {i : ℕ}
    (htaking : s.taking = some i) :
    Traced init blank (s.clear blank i) origins (Function.update latest i none) where
  length_eq := htraced.length_eq
  entry_eq := htraced.entry_eq
  blank_of_none := htraced.blank_of_none
  once := htraced.once
  cleared := by
    intro j hj
    by_cases hji : j = i
    · rw [hji]
      exact Function.update_self ..
    · rw [Function.update_of_ne hji] at hj
      exact (Function.update_of_ne hji ..).trans (htraced.cleared j hj)
  holds := by
    intro j origin hj
    by_cases hji : j = i
    · rw [hji, Function.update_self] at hj
      cases hj
    · rw [Function.update_of_ne hji] at hj
      have hword : (s.clear blank i).words j = s.words j := Function.update_of_ne hji ..
      rw [hword]
      exact htraced.holds j origin hj
  fresh := by
    intro j origin hj _
    by_cases hji : j = i
    · rw [hji, Function.update_self] at hj
      cases hj
    · rw [Function.update_of_ne hji] at hj
      refine htraced.fresh j origin hj ?_
      rw [htaking]
      exact fun heq ↦ hji (Option.some.inj heq).symm
  taking := fun j origin hnone _ ↦ by cases hnone
  kept := by
    intro origin entry hentry
    rcases htraced.kept origin entry hentry with htaken | hlatest | hover | hraced
    · exact Or.inl htaken
    · by_cases hi : entry.1 = i
      · rcases htraced.taking i origin htaking (hi ▸ hlatest) with htaken | hraced
        · exact Or.inl htaken
        · exact Or.inr (Or.inr (Or.inr hraced))
      · exact Or.inr (Or.inl ((Function.update_of_ne hi ..).trans hlatest))
    · exact Or.inr (Or.inr (Or.inl hover))
    · exact Or.inr (Or.inr (Or.inr hraced))

end Steps

/-! ### What a run delivers -/

/-- At the start every word is there, from the start. -/
theorem traced_start (init : ℕ → α) (blank : α) :
    Traced init blank (start init) [] fun i ↦ some (.start i) where
  length_eq := rfl
  entry_eq k entry origin hk _ := by cases hk
  blank_of_none k entry hk _ := by cases hk
  once k k' origin hk _ := by cases hk
  cleared i hi := by cases hi
  holds := by
    intro i origin hi
    rw [← Option.some.inj hi]
    refine ⟨rfl, ?_⟩
    rintro ⟨n, entry, -, hentry, -⟩
    cases hentry
  fresh i origin _ _ hmem := by cases hmem
  taking i origin htaking _ := by cases htaking
  kept := by
    intro origin entry hentry
    cases origin with
    | start i =>
      obtain rfl := Option.some.inj hentry
      exact Or.inr (Or.inl rfl)
    | store n => cases hentry

/-- In every run the words that the reader has taken are delivered from the start or from the
writer, each at most once, and nothing is lost but what is overwritten, or raced with the reader. -/
theorem delivered_of_reachable {init : ℕ → α} {blank : α} {s : SharedWords α}
    (hreach : Reachable (next blank) (start init) s) :
    ∃ origins, Delivered init blank s origins := by
  have htraced : ∃ origins latest, Traced init blank s origins latest := by
    refine hreach.invariant (fun s ↦ ∃ origins latest, Traced init blank s origins latest)
      ⟨_, _, traced_start init blank⟩ ?_
    rintro before event later ⟨origins, latest, hbefore⟩ - hnext
    cases event with
    | store i value =>
      obtain rfl := Option.some.inj hnext
      exact ⟨_, _, hbefore.store i value⟩
    | take i =>
      simp only [next] at hnext
      split_ifs at hnext with hnone
      obtain rfl := Option.some.inj hnext
      exact ⟨_, _, hbefore.take hnone i⟩
    | clear =>
      obtain ⟨i, htaking, rfl⟩ := Option.map_eq_some_iff.mp hnext
      exact ⟨_, _, hbefore.clear htaking⟩
  obtain ⟨origins, latest, hs⟩ := htraced
  exact ⟨origins, hs.delivered⟩

end SharedWords

end KernelModules.Foundation

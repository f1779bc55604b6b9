import Mathlib

/-!
# Ledgers of bounded reservations

What an admission control is for. A `Ledger` holds reservations under distinct keys whose weights
sum to less than a fixed bound; both facts are fields, so a ledger that over-commits cannot be
built. The total is not stored, it is the sum of the entries. `reserve` adds an entry when its key
is new and the bound leaves room for its weight, `release` removes the entry of a key.
-/

set_option autoImplicit false
set_option relaxedAutoImplicit false

namespace KernelModules.Foundation

/-! ### Lists with distinct keys -/

/-- In a list with distinct keys, erasing the first entry with the key of a member erases the
member. -/
theorem eraseP_key_eq_erase {α κ : Type*} [DecidableEq α] [DecidableEq κ] (key : α → κ)
    {entries : List α} (hnodup : (entries.map key).Nodup) {entry : α} (hentry : entry ∈ entries) :
    entries.eraseP (fun other ↦ key other = key entry) = entries.erase entry := by
  induction entries with
  | nil => rfl
  | cons head rest ih =>
    rw [List.map_cons, List.nodup_cons] at hnodup
    by_cases hhead : head = entry
    · rw [hhead, List.erase_cons_head, List.eraseP_cons_of_pos (by simp)]
    · have hrest : entry ∈ rest := (List.mem_cons.mp hentry).resolve_left (Ne.symm hhead)
      have hkey : key head ≠ key entry := by
        intro heq
        exact hnodup.1 (heq ▸ List.mem_map_of_mem hrest)
      rw [List.erase_cons_tail (by simpa using hhead),
        List.eraseP_cons_of_neg (by simpa using hkey), ih hnodup.2 hrest]

/-! ### Ledgers -/

/-- Reservations under distinct keys, with weights that sum to less than `bound`. -/
structure Ledger (κ : Type*) (bound : ℕ) where
  entries : List (κ × ℕ)
  keys_nodup : (entries.map Prod.fst).Nodup
  total_lt : (entries.map Prod.snd).sum < bound

namespace Ledger

variable {κ : Type*} {bound : ℕ}

/-- The keys that hold a reservation, oldest first. -/
def keys (ledger : Ledger κ bound) : List κ := ledger.entries.map Prod.fst

/-- The total weight of the reservations. -/
def total (ledger : Ledger κ bound) : ℕ := (ledger.entries.map Prod.snd).sum

/-- The ledger without reservations. -/
def empty (hbound : 0 < bound) : Ledger κ bound where
  entries := []
  keys_nodup := List.nodup_nil
  total_lt := hbound

/-- A ledger is determined by its entries. -/
theorem ext_entries {first second : Ledger κ bound} (hentries : first.entries = second.entries) :
    first = second := by
  cases first
  cases second
  cases hentries
  rfl

/-- A single reservation weighs at most the total. -/
theorem weight_le_total (ledger : Ledger κ bound) {entry : κ × ℕ}
    (hentry : entry ∈ ledger.entries) : entry.2 ≤ ledger.total :=
  List.single_le_sum (fun _ _ ↦ Nat.zero_le _) _ (List.mem_map_of_mem hentry)

variable [DecidableEq κ]

/-- Reserves a weight under a key, when the key is new and the bound leaves room. -/
def reserve (ledger : Ledger κ bound) (key : κ) (weight : ℕ) : Ledger κ bound :=
  if hroom : key ∉ ledger.keys ∧ ledger.total + weight < bound then
    { entries := ledger.entries ++ [(key, weight)]
      keys_nodup := by
        rw [List.map_append, List.nodup_append]
        refine ⟨ledger.keys_nodup, List.pairwise_singleton _ _, ?_⟩
        intro first hfirst second hsecond heq
        rw [List.map_singleton, List.mem_singleton] at hsecond
        rw [heq, hsecond] at hfirst
        exact hroom.1 hfirst
      total_lt := by
        rw [List.map_append, List.sum_append, List.map_singleton, List.sum_singleton]
        exact hroom.2 }
  else ledger

/-- Releases the reservation of a key. -/
def release (ledger : Ledger κ bound) (key : κ) : Ledger κ bound where
  entries := ledger.entries.eraseP fun entry ↦ entry.1 = key
  keys_nodup := ledger.keys_nodup.sublist (List.Sublist.map _ List.eraseP_sublist)
  total_lt := lt_of_le_of_lt
    (List.Sublist.sum_le_sum (List.Sublist.map _ List.eraseP_sublist) fun _ _ ↦ Nat.zero_le _)
    ledger.total_lt

/-- The entries after a reservation that is granted. -/
theorem entries_reserve {ledger : Ledger κ bound} {key : κ} {weight : ℕ}
    (hkey : key ∉ ledger.keys) (hroom : ledger.total + weight < bound) :
    (ledger.reserve key weight).entries = ledger.entries ++ [(key, weight)] := by
  rw [reserve, dif_pos ⟨hkey, hroom⟩]

/-- A reservation is refused under a key that holds one. -/
theorem reserve_of_mem {ledger : Ledger κ bound} {key : κ} (hkey : key ∈ ledger.keys)
    (weight : ℕ) : ledger.reserve key weight = ledger :=
  dif_neg fun hroom ↦ hroom.1 hkey

/-- A reservation is refused when the bound leaves no room for it. -/
theorem reserve_of_full {ledger : Ledger κ bound} {weight : ℕ}
    (hfull : bound ≤ ledger.total + weight) (key : κ) : ledger.reserve key weight = ledger :=
  dif_neg fun hroom ↦ absurd hroom.2 (Nat.not_lt.mpr hfull)

/-- A reservation is an old one or the one asked for. -/
theorem mem_entries_reserve {ledger : Ledger κ bound} {key : κ} {weight : ℕ} {entry : κ × ℕ}
    (hentry : entry ∈ (ledger.reserve key weight).entries) :
    entry ∈ ledger.entries ∨ entry = (key, weight) := by
  by_cases hroom : key ∉ ledger.keys ∧ ledger.total + weight < bound
  · rw [entries_reserve hroom.1 hroom.2, List.mem_append, List.mem_singleton] at hentry
    exact hentry
  · rw [reserve, dif_neg hroom] at hentry
    exact Or.inl hentry

/-- A reservation that is left has another key than the released one. -/
theorem mem_entries_release {ledger : Ledger κ bound} {key : κ} {entry : κ × ℕ}
    (hentry : entry ∈ (ledger.release key).entries) : entry ∈ ledger.entries ∧ entry.1 ≠ key := by
  refine ⟨List.mem_of_mem_eraseP hentry, fun heq ↦ ?_⟩
  have hkeys : (ledger.release key).keys = ledger.keys.erase key := by
    rw [keys, keys, List.erase_eq_eraseP', List.eraseP_map]
    rfl
  have hmem : entry.1 ∈ (ledger.release key).keys := List.mem_map_of_mem hentry
  rw [hkeys, heq] at hmem
  exact ledger.keys_nodup.not_mem_erase hmem

/-- Releasing a key without a reservation changes nothing. -/
theorem release_of_not_mem {ledger : Ledger κ bound} {key : κ} (hkey : key ∉ ledger.keys) :
    ledger.release key = ledger := by
  refine ext_entries ?_
  have hnone : ∀ entry ∈ ledger.entries, ¬ (decide (entry.1 = key)) = true := by
    intro entry hentry heq
    exact hkey (List.mem_map.mpr ⟨entry, hentry, of_decide_eq_true heq⟩)
  exact List.eraseP_of_forall_not hnone

/-- A release gives back the weight of the reservation. -/
theorem total_release_add {ledger : Ledger κ bound} {key : κ} {weight : ℕ}
    (hentry : (key, weight) ∈ ledger.entries) :
    (ledger.release key).total + weight = ledger.total := by
  have hsum := List.sum_map_erase Prod.snd hentry
  rw [← eraseP_key_eq_erase Prod.fst ledger.keys_nodup hentry] at hsum
  rw [add_comm]
  exact hsum

end Ledger

end KernelModules.Foundation

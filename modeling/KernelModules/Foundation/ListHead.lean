import Mathlib

/-!
# Doubly linked rings

The lists of `linux/list.h`. Every node has a pointer to the next and to the previous node, a list
is a ring through its head, and a removed node has poisoned pointers, which nobody can follow.
`Links.Ring` says that the nodes of a list, in order, make a ring with the head;
`Links.Ring.listAddTail` and `Links.Ring.listDel` say what the operations do to it.

`listForEachEntrySafe` reads the next pointer of a node before the body of the loop runs, so that
the body may remove the node. Its rule carries an invariant from node to node, for bodies that leave
the pointers of the nodes ahead alone, and gives the end of the loop with it
(`exists_listForEachEntrySafe`).
-/

set_option autoImplicit false
set_option relaxedAutoImplicit false

namespace KernelModules.Foundation

/-! ### Pointers -/

/-- The pointers of `struct list_head`. A poisoned pointer is `none`. -/
@[ext] structure Links (α : Type*) where
  next : α → Option α
  prev : α → Option α

namespace Links

variable {α : Type*}

/-- Two nodes are linked both ways. -/
def Adjacent (l : Links α) (first second : α) : Prop :=
  l.next first = some second ∧ l.prev second = some first

/-- The nodes make a ring with the head, in this order, and no node occurs twice. -/
structure Ring (l : Links α) (head : α) (nodes : List α) : Prop where
  chain : (head :: nodes ++ [head]).IsChain l.Adjacent
  nodup : (head :: nodes).Nodup

section Operations

variable [DecidableEq α]

/-- `INIT_LIST_HEAD`. -/
@[simps] def initListHead (l : Links α) (node : α) : Links α where
  next := Function.update l.next node (some node)
  prev := Function.update l.prev node (some node)

/-- `list_add_tail`. -/
def listAddTail (l : Links α) (new head : α) : Option (Links α) :=
  (l.prev head).map fun last ↦
    { next := Function.update (Function.update l.next new (some head)) last (some new)
      prev := Function.update (Function.update l.prev head (some new)) new (some last) }

/-- `list_del`, which poisons the pointers of the node. -/
def listDel (l : Links α) (node : α) : Option (Links α) :=
  (l.prev node).bind fun before ↦
    (l.next node).map fun after ↦
      { next := Function.update (Function.update l.next before (some after)) node none
        prev := Function.update (Function.update l.prev after (some before)) node none }

end Operations

/-! ### Rings -/

/-- Two writes elsewhere leave a pointer alone. -/
theorem update_update_of_ne [DecidableEq α] {pointer : α → Option α} {first second node : α}
    (hne : node ≠ second ∧ node ≠ first) (target other : Option α) :
    Function.update (Function.update pointer first target) second other node = pointer node :=
  (Function.update_of_ne hne.1 ..).trans (Function.update_of_ne hne.2 ..)

/-- Nodes stay linked when the pointers between them stay. -/
theorem isChain_of_eq {l later : Links α} {nodes : List α} (hchain : nodes.IsChain l.Adjacent)
    (hnext : ∀ node ∈ nodes.dropLast, later.next node = l.next node)
    (hprev : ∀ node ∈ nodes.tail, later.prev node = l.prev node) :
    nodes.IsChain later.Adjacent := by
  induction nodes with
  | nil => exact List.isChain_nil
  | cons first rest ih =>
    cases rest with
    | nil => exact List.isChain_singleton first
    | cons second rest =>
      rw [List.isChain_cons_cons] at hchain ⊢
      obtain ⟨⟨hfirst, hsecond⟩, hrest⟩ := hchain
      refine ⟨⟨?_, ?_⟩, ih hrest ?_ ?_⟩
      · exact (hnext first (by simp)).trans hfirst
      · exact (hprev second (by simp)).trans hsecond
      · exact fun node hnode ↦ hnext node (by simp [hnode])
      · exact fun node hnode ↦ hprev node (by simp [List.mem_of_mem_tail hnode])

variable {l : Links α} {head : α} {nodes : List α}

namespace Ring

/-- The head is linked to the first node, or to itself. -/
theorem next_head (hring : l.Ring head nodes) : l.next head = some (nodes.headD head) := by
  have hchain := hring.chain
  cases nodes with
  | nil => exact (List.isChain_cons_cons.mp hchain).1.1
  | cons first rest => exact (List.isChain_cons_cons.mp hchain).1.1

/-- A node is linked to the node after it, or to the head. -/
theorem next_node {before rest : List α} {node : α} (hring : l.Ring head (before ++ node :: rest)) :
    l.next node = some (rest.headD head) := by
  have hchain : (node :: rest ++ [head]).IsChain l.Adjacent :=
    hring.chain.suffix ⟨head :: before, by simp⟩
  cases rest with
  | nil => exact (List.isChain_cons_cons.mp hchain).1.1
  | cons first rest => exact (List.isChain_cons_cons.mp hchain).1.1

/-- The nodes and the head after them occur once, too. -/
theorem nodup_concat (hring : l.Ring head nodes) : (nodes ++ [head]).Nodup :=
  (List.perm_append_singleton head nodes).nodup_iff.mpr hring.nodup

/-- The head is not one of the nodes. -/
theorem ne_head {before rest : List α} {node : α} (hring : l.Ring head (before ++ node :: rest)) :
    node ≠ head := by
  rintro rfl
  exact (List.nodup_cons.mp hring.nodup).1 (List.mem_append_right before List.mem_cons_self)

variable [DecidableEq α]

/-- A new list is empty. -/
theorem initListHead (l : Links α) (head : α) : (l.initListHead head).Ring head [] := by
  refine ⟨List.isChain_pair.mpr ⟨?_, ?_⟩, List.nodup_singleton head⟩
  · exact Function.update_self ..
  · exact Function.update_self ..

/-- The pointers of a node outside the ring do not matter. -/
theorem initListHead_of_notMem (hring : l.Ring head nodes) {node : α}
    (hnode : node ∉ head :: nodes) : (l.initListHead node).Ring head nodes := by
  have hne : ∀ other ∈ head :: nodes, other ≠ node := fun other hother heq ↦ hnode (heq ▸ hother)
  refine ⟨isChain_of_eq hring.chain (fun other hother ↦ ?_) (fun other hother ↦ ?_), hring.nodup⟩
  · rw [List.dropLast_concat] at hother
    exact Function.update_of_ne (hne other hother) ..
  · refine Function.update_of_ne (hne other ?_) ..
    simpa [or_comm] using hother

/-- A node that is added stands at the end. -/
theorem listAddTail (hring : l.Ring head nodes) {new : α} (hnew : new ∉ head :: nodes) :
    ∃ later, l.listAddTail new head = some later ∧ later.Ring head (nodes ++ [new]) := by
  obtain ⟨front, last, hlast⟩ : ∃ front last, head :: nodes = front ++ [last] :=
    ⟨_, _, (List.dropLast_append_getLast (List.cons_ne_nil head nodes)).symm⟩
  have hchain := hring.chain
  rw [hlast, List.append_assoc, List.singleton_append, List.isChain_split] at hchain
  obtain ⟨hfront, hseam⟩ := hchain
  have hprev : l.prev head = some last := (List.isChain_cons_cons.mp hseam).1.2
  have hnodup : (front ++ [last]).Nodup := hlast ▸ hring.nodup
  have hfrontNew : new ∉ front ++ [last] := hlast ▸ hnew
  refine ⟨_, by rw [Links.listAddTail, hprev]; rfl, ⟨?_, ?_⟩⟩
  · have hsplit : head :: (nodes ++ [new]) ++ [head] = front ++ last :: [new, head] := by
      rw [← List.cons_append, hlast]
      simp
    rw [hsplit, List.isChain_split, List.isChain_cons_cons, List.isChain_pair]
    refine ⟨isChain_of_eq hfront (fun node hnode ↦ ?_) (fun node hnode ↦ ?_), ⟨?_, ?_⟩, ?_, ?_⟩
    · rw [List.dropLast_concat] at hnode
      have hne : node ≠ last ∧ node ≠ new := by grind
      exact update_update_of_ne hne _ _
    · rw [← hlast, List.tail_cons] at hnode
      have hne : node ≠ new ∧ node ≠ head := by grind [hring.nodup]
      exact update_update_of_ne hne _ _
    · exact Function.update_self ..
    · exact Function.update_self ..
    · have hne : new ≠ last := by grind
      exact (Function.update_of_ne hne ..).trans (Function.update_self ..)
    · have hne : head ≠ new := by grind
      exact (Function.update_of_ne hne ..).trans (Function.update_self ..)
  · grind [hring.nodup]

/-- A node that is removed leaves the others in their order, and stays out. -/
theorem listDel {before after : List α} {node : α}
    (hring : l.Ring head (before ++ node :: after)) :
    ∃ later, l.listDel node = some later ∧ later.Ring head (before ++ after) := by
  obtain ⟨front, last, hlast⟩ : ∃ front last, head :: before = front ++ [last] :=
    ⟨_, _, (List.dropLast_append_getLast (List.cons_ne_nil head before)).symm⟩
  obtain ⟨first, back, hfirst⟩ : ∃ first back, after ++ [head] = first :: back :=
    List.exists_cons_of_ne_nil (by simp)
  have hsplit : head :: (before ++ node :: after) ++ [head] =
      front ++ last :: (node :: first :: back) := by
    rw [← hfirst, ← List.cons_append, hlast]
    simp
  have hchain := hring.chain
  rw [hsplit, List.isChain_split, List.isChain_cons_cons, List.isChain_cons_cons] at hchain
  obtain ⟨hfront, ⟨-, hprev⟩, ⟨hnext, -⟩, hback⟩ := hchain
  -- the nodes whose next pointer is in the ring, and those whose previous pointer is
  have hnexts : (front ++ last :: node :: after).Nodup := by
    have hnodup := hring.nodup
    rw [← List.cons_append, hlast, List.append_assoc] at hnodup
    exact hnodup
  have hprevs : (before ++ node :: first :: back).Nodup := by
    have hnodup := hring.nodup_concat
    rw [List.append_assoc, List.cons_append, hfirst] at hnodup
    exact hnodup
  refine ⟨_, by rw [Links.listDel, hprev, hnext]; rfl, ⟨?_, ?_⟩⟩
  · have hjoin : head :: (before ++ after) ++ [head] = front ++ last :: first :: back := by
      rw [← hfirst, ← List.cons_append, hlast]
      simp
    rw [hjoin, List.isChain_split, List.isChain_cons_cons]
    refine ⟨isChain_of_eq hfront (fun other hother ↦ ?_) (fun other hother ↦ ?_), ⟨?_, ?_⟩,
      isChain_of_eq hback (fun other hother ↦ ?_) (fun other hother ↦ ?_)⟩
    · rw [List.dropLast_concat] at hother
      have hne : other ≠ node ∧ other ≠ last := by grind
      exact update_update_of_ne hne _ _
    · rw [← hlast, List.tail_cons] at hother
      have hne : other ≠ node ∧ other ≠ first := by grind
      exact update_update_of_ne hne _ _
    · have hne : last ≠ node := by grind
      exact (Function.update_of_ne hne ..).trans (Function.update_self ..)
    · have hne : first ≠ node := by grind
      exact (Function.update_of_ne hne ..).trans (Function.update_self ..)
    · rw [← hfirst, List.dropLast_concat] at hother
      have hne : other ≠ node ∧ other ≠ last := by grind
      exact update_update_of_ne hne _ _
    · rw [List.tail_cons] at hother
      have hne : other ≠ node ∧ other ≠ first := by grind
      exact update_update_of_ne hne _ _
  · have hsub : (before ++ after).Sublist (before ++ node :: after) :=
      List.Sublist.append_left (List.sublist_cons_self node after) before
    exact hring.nodup.sublist (hsub.cons_cons head)

end Ring

/-! ### Loops -/

section Loops

variable [DecidableEq α]

/-- `list_for_each_entry`: the nodes it visits from `itr` on. It has no result without fuel, or
after a poisoned pointer. -/
def visited (l : Links α) (head : α) : ℕ → α → Option (List α)
  | 0, _ => none
  | fuel + 1, itr =>
    if itr = head then some []
    else (l.next itr).bind fun later ↦ (l.visited head fuel later).map (itr :: ·)

/-- The nodes that `list_for_each_entry` visits. -/
def listForEachEntry (l : Links α) (head : α) (fuel : ℕ) : Option (List α) :=
  (l.next head).bind (l.visited head fuel)

variable {σ : Type*}

/-- The loop of `list_for_each_entry_safe` from `itr` on, with `tmp` after it. -/
def forEachSafe (links : σ → Links α) (head : α) (body : α → σ → Option σ) :
    ℕ → α → α → σ → Option σ
  | 0, _, _, _ => none
  | fuel + 1, itr, tmp, s =>
    if itr = head then some s
    else (body itr s).bind fun s ↦
      ((links s).next tmp).bind fun later ↦ forEachSafe links head body fuel tmp later s

/-- `list_for_each_entry_safe`. It has no result without fuel, after a poisoned pointer, or when the
body has none. -/
def listForEachEntrySafe (links : σ → Links α) (head : α) (body : α → σ → Option σ) (fuel : ℕ)
    (s : σ) : Option σ :=
  ((links s).next head).bind fun itr ↦
    ((links s).next itr).bind fun tmp ↦ forEachSafe links head body fuel itr tmp s

/-- The loop visits the rest of the nodes. Assumes: more fuel than nodes. -/
theorem Ring.visited {before rest : List α} (hring : l.Ring head (before ++ rest)) {fuel : ℕ}
    (hfuel : rest.length < fuel) : l.visited head fuel (rest.headD head) = some rest := by
  induction rest generalizing before fuel with
  | nil =>
    obtain ⟨fuel, rfl⟩ := Nat.exists_eq_succ_of_ne_zero (Nat.ne_of_gt hfuel)
    exact if_pos rfl
  | cons node rest ih =>
    obtain ⟨fuel, rfl⟩ := Nat.exists_eq_succ_of_ne_zero (Nat.ne_of_gt (Nat.zero_lt_of_lt hfuel))
    have hlater : l.Ring head (before ++ [node] ++ rest) := by
      rw [List.append_assoc]
      exact hring
    have hrest := ih hlater (Nat.lt_of_succ_lt_succ hfuel)
    rw [Links.visited, List.headD_cons, if_neg hring.ne_head, hring.next_node, Option.bind_some,
      hrest]
    rfl

/-- `list_for_each_entry` visits the nodes of a ring in their order. Assumes: more fuel than
nodes. -/
theorem Ring.listForEachEntry (hring : l.Ring head nodes) {fuel : ℕ} (hfuel : nodes.length < fuel) :
    l.listForEachEntry head fuel = some nodes := by
  rw [Links.listForEachEntry, hring.next_head]
  exact (show l.Ring head ([] ++ nodes) from hring).visited hfuel

section Rule

variable {links : σ → Links α} {body : α → σ → Option σ} (inv : List α → List α → σ → Prop)

/-- The rule of the loop, from any node on. -/
theorem exists_forEachSafe
    (hring : ∀ done rest s, inv done rest s → ∃ kept, (links s).Ring head (kept ++ rest))
    (hbody : ∀ done node rest s, inv done (node :: rest) s →
      ∃ later, body node s = some later ∧ inv (done ++ [node]) rest later)
    {done rest : List α} {s : σ} (hs : inv done rest s) {fuel : ℕ} (hfuel : rest.length < fuel)
    {tmp : α} (htmp : rest ≠ [] → tmp = rest.tail.headD head) :
    ∃ later, forEachSafe links head body fuel (rest.headD head) tmp s = some later ∧
      inv (done ++ rest) [] later := by
  induction rest generalizing done s fuel tmp with
  | nil =>
    obtain ⟨fuel, rfl⟩ := Nat.exists_eq_succ_of_ne_zero (Nat.ne_of_gt hfuel)
    refine ⟨s, if_pos rfl, ?_⟩
    rw [List.append_nil]
    exact hs
  | cons node rest ih =>
    obtain ⟨fuel, rfl⟩ := Nat.exists_eq_succ_of_ne_zero (Nat.ne_of_gt (Nat.zero_lt_of_lt hfuel))
    obtain ⟨kept, hbefore⟩ := hring done (node :: rest) s hs
    obtain ⟨middle, hmiddle, hinv⟩ := hbody done node rest s hs
    obtain ⟨kept', hafter⟩ := hring (done ++ [node]) rest middle hinv
    have htmp' : tmp = rest.headD head := htmp (List.cons_ne_nil node rest)
    -- the pointer that is read ahead is not poisoned, also after the last node
    obtain ⟨ahead, hahead, hfollows⟩ : ∃ ahead, (links middle).next tmp = some ahead ∧
        (rest ≠ [] → ahead = rest.tail.headD head) := by
      rw [htmp']
      cases rest with
      | nil => exact ⟨_, hafter.next_head, fun hne ↦ absurd rfl hne⟩
      | cons second rest => exact ⟨_, hafter.next_node, fun _ ↦ rfl⟩
    obtain ⟨later, hlater, hend⟩ := ih hinv (Nat.lt_of_succ_lt_succ hfuel) hfollows
    refine ⟨later, ?_, ?_⟩
    · rw [forEachSafe, List.headD_cons, if_neg hbefore.ne_head, hmiddle, Option.bind_some, hahead,
        Option.bind_some, htmp', hlater]
    · rw [List.append_assoc] at hend
      exact hend

/-- The rule of `list_for_each_entry_safe`, for an invariant of the nodes done and the nodes to do.
Assumes: a ring to start with; the nodes to do stand at the end of a ring; the body has a result at
the next node, and keeps the invariant. -/
theorem exists_listForEachEntrySafe
    (hring : ∀ done rest s, inv done rest s → ∃ kept, (links s).Ring head (kept ++ rest))
    (hbody : ∀ done node rest s, inv done (node :: rest) s →
      ∃ later, body node s = some later ∧ inv (done ++ [node]) rest later)
    {s : σ} (hs : (links s).Ring head nodes) (hstart : inv [] nodes s) {fuel : ℕ}
    (hfuel : nodes.length < fuel) :
    ∃ later, listForEachEntrySafe links head body fuel s = some later ∧ inv nodes [] later := by
  obtain ⟨tmp, hnext, htmp⟩ : ∃ tmp, (links s).next (nodes.headD head) = some tmp ∧
      (nodes ≠ [] → tmp = nodes.tail.headD head) := by
    cases nodes with
    | nil => exact ⟨_, hs.next_head, fun hne ↦ absurd rfl hne⟩
    | cons first rest =>
      have hsplit : (links s).Ring head ([] ++ first :: rest) := hs
      exact ⟨_, hsplit.next_node, fun _ ↦ rfl⟩
  rw [listForEachEntrySafe, hs.next_head, Option.bind_some, hnext, Option.bind_some]
  exact exists_forEachSafe inv hring hbody hstart hfuel htmp

end Rule

end Loops

end Links

end KernelModules.Foundation

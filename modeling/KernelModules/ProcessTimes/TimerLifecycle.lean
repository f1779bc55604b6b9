import KernelModules.ProcessTimes.UnloadMachine

/-!
# The life of the timer

The timer should be set up once, run from the first completed write on until the module is unloaded,
and be gone when `mp1_exit` has returned, with an empty list (`TimerLaw`). `mp1_write` tests and
sets `timer_start` without a lock, the handler arms the timer again at its end, and `mp1_exit` frees
the list without the lock and deletes the timer without waiting for the handler.

`timerLaw_of_orderly` says in which runs the law holds (`Orderly`). The timer is where one call has
brought it (`StartedUpTo`): no second call passes the test before the first has set the flag. The
loop of `mp1_exit` frees what is in the list, as far as it still has a node ahead when one is added
(`Freeing`).
-/

set_option autoImplicit false
set_option relaxedAutoImplicit false

namespace KernelModules.ProcessTimes

open Foundation

namespace Lifecycle

variable {ι : Type*}

/-! ### The law -/

/-- The timer is set up once at most, and never while it is pending. -/
def SetUpOnce (m : Lifecycle ι) : Prop := m.setups ≤ 1 ∧ m.reinitialised = false

/-- From the first completed write until the unload, the timer is pending or its handler runs. -/
def RunsUntilUnload (m : Lifecycle ι) : Prop :=
  (∃ i, m.writes i = .returned) → m.exit = .idle → m.pending = true ∨ m.tick ≠ .idle

/-- When `mp1_exit` has returned, the timer is not pending, no handler runs and the list is empty.
-/
def EndsWithUnload (m : Lifecycle ι) : Prop :=
  m.exit = .returned → m.pending = false ∧ m.tick = .idle ∧ m.nodes = []

/-- What should hold of the timer in every state. -/
def TimerLaw (m : Lifecycle ι) : Prop := m.SetUpOnce ∧ m.RunsUntilUnload ∧ m.EndsWithUnload

instance (m : Lifecycle ι) : Decidable m.SetUpOnce :=
  inferInstanceAs (Decidable (m.setups ≤ 1 ∧ m.reinitialised = false))

instance [Fintype ι] (m : Lifecycle ι) : Decidable m.RunsUntilUnload :=
  inferInstanceAs (Decidable ((∃ i, m.writes i = .returned) → m.exit = .idle →
    m.pending = true ∨ m.tick ≠ .idle))

instance (m : Lifecycle ι) : Decidable m.EndsWithUnload :=
  inferInstanceAs (Decidable (m.exit = .returned →
    m.pending = false ∧ m.tick = .idle ∧ m.nodes = []))

/-- No call finds `timer_start` clear while another one is about to set it. No call adds a record
once the loop that frees the list has no node ahead, and none arms the timer once it has been
deleted. No handler runs when `mp1_exit` deletes the timer. -/
def Orderly (m : Lifecycle ι) : LifecycleLabel ι → Prop
  | .write i =>
    (m.writes i = .test → m.timerStart = false → ∀ j, (m.writes j).startsTimer = false) ∧
      ((m.writes i).adds = true → m.exit.freed = false) ∧
      (m.writes i = .mod → m.exit.timerDeleted = false)
  | .exit => m.exit = .delTimer → m.tick = .idle
  | _ => True

instance [Fintype ι] (m : Lifecycle ι) : ∀ label, Decidable (m.Orderly label)
  | .write i => inferInstanceAs (Decidable
      ((m.writes i = .test → m.timerStart = false → ∀ j, (m.writes j).startsTimer = false) ∧
        ((m.writes i).adds = true → m.exit.freed = false) ∧
        (m.writes i = .mod → m.exit.timerDeleted = false)))
  | .exit => inferInstanceAs (Decidable (m.exit = .delTimer → m.tick = .idle))
  | .expire | .tick _ => isTrue trivial

/-! ### How far the timer has been started -/

/-- The timer is not pending and its handler does not run. -/
def Quiet (m : Lifecycle ι) : Prop := m.pending = false ∧ m.tick = .idle

/-- Until it is deleted, the timer is pending or its handler runs. -/
def Alive (m : Lifecycle ι) : Prop :=
  m.exit.timerDeleted = false → m.pending = true ∨ m.tick ≠ .idle

/-- A call is about to start the timer, at a point of it, and no other call is. -/
structure Starter (m : Lifecycle ι) (i : ι) (pc : WritePc) : Prop where
  at_pc : m.writes i = pc
  alone : ∀ j, j ≠ i → (m.writes j).startsTimer = false

/-- Where the timer is: nobody has begun to start it, one call has come to its set-up, to its first
arming or to the assignment of the flag, or the flag is set. -/
inductive StartedUpTo (m : Lifecycle ι) : Prop
  | unset (hstart : m.timerStart = false) (hsetups : m.setups = 0)
    (hnone : ∀ j, (m.writes j).startsTimer = false) (hquiet : m.Quiet)
  | setup {i : ι} (hi : m.Starter i .setup) (hstart : m.timerStart = false) (hsetups : m.setups = 0)
    (hquiet : m.Quiet)
  | mod {i : ι} (hi : m.Starter i .mod) (hstart : m.timerStart = false) (hsetups : m.setups = 1)
    (hquiet : m.Quiet)
  | started {i : ι} (hi : m.Starter i .started) (hstart : m.timerStart = false)
    (hsetups : m.setups = 1) (halive : m.Alive)
  | set (hstart : m.timerStart = true) (hsetups : m.setups = 1)
    (hnone : ∀ j, (m.writes j).startsTimer = false) (halive : m.Alive)

/-- What is known of the timer when a call is at a point of starting it. -/
inductive Starting (m : Lifecycle ι) : WritePc → Prop
  | setup (hsetups : m.setups = 0) (hquiet : m.Quiet) : Starting m .setup
  | mod (hsetups : m.setups = 1) (hquiet : m.Quiet) : Starting m .mod
  | started (hsetups : m.setups = 1) (halive : m.Alive) : Starting m .started

/-- Where the timer is, what the calls that have returned and the deletion say about it, and that it
was never set up while it was pending. -/
structure TimerFits (m : Lifecycle ι) : Prop where
  phase : m.StartedUpTo
  returned : ∀ i, m.writes i = .returned → m.timerStart = true
  deleted : m.exit.timerDeleted = true → m.Quiet
  once : m.reinitialised = false

section Timer

variable {m later : Lifecycle ι} {i j : ι}

/-- A call that is about to start the timer is the one that does. -/
theorem Starter.unique {pc : WritePc} (hi : m.Starter i pc)
    (hj : (m.writes j).startsTimer = true) : j = i := by
  by_contra hne
  rw [hi.alone j hne] at hj
  cases hj

/-- Who starts the timer depends on the calls alone. -/
theorem Starter.congr {pc : WritePc} (hi : m.Starter i pc) (hwrites : later.writes = m.writes) :
    later.Starter i pc := by
  refine ⟨?_, ?_⟩
  · rw [hwrites]
    exact hi.at_pc
  · rw [hwrites]
    exact hi.alone

/-- The timer is where a call that is about to start it has come to. -/
theorem StartedUpTo.starting (hm : m.StartedUpTo) {pc : WritePc} (hpc : m.writes i = pc)
    (hstarts : pc.startsTimer = true) :
    m.Starter i pc ∧ m.timerStart = false ∧ m.Starting pc := by
  have hi : (m.writes i).startsTimer = true := hpc ▸ hstarts
  -- the call is the one at whose point the timer is
  have hsame : ∀ {k : ι} {at_ : WritePc}, m.Starter k at_ → k = i ∧ at_ = pc := by
    intro k at_ hk
    obtain rfl := hk.unique hi
    exact ⟨rfl, hk.at_pc.symm.trans hpc⟩
  cases hm with
  | unset _ _ hnone _ => cases (hnone i).symm.trans hi
  | setup hk hfalse hsetups hquiet =>
    obtain ⟨rfl, rfl⟩ := hsame hk
    exact ⟨hk, hfalse, .setup hsetups hquiet⟩
  | mod hk hfalse hsetups hquiet =>
    obtain ⟨rfl, rfl⟩ := hsame hk
    exact ⟨hk, hfalse, .mod hsetups hquiet⟩
  | started hk hfalse hsetups halive =>
    obtain ⟨rfl, rfl⟩ := hsame hk
    exact ⟨hk, hfalse, .started hsetups halive⟩
  | set _ _ hnone _ => cases (hnone i).symm.trans hi

/-- Before anybody starts it, the timer has not been set up. -/
theorem StartedUpTo.unstarted (hm : m.StartedUpTo) (hfalse : m.timerStart = false)
    (hnone : ∀ j, (m.writes j).startsTimer = false) : m.setups = 0 ∧ m.Quiet := by
  have hnobody : ∀ {k : ι} {pc : WritePc}, m.Starter k pc → pc.startsTimer = false :=
    fun hk ↦ hk.at_pc ▸ hnone _
  cases hm with
  | unset _ hsetups _ hquiet => exact ⟨hsetups, hquiet⟩
  | setup hk _ _ _ => cases hnobody hk
  | mod hk _ _ _ => cases hnobody hk
  | started hk _ _ _ => cases hnobody hk
  | set htrue _ _ _ => cases hfalse.symm.trans htrue

/-- The timer stays where it is under steps that leave the calls alone. -/
theorem StartedUpTo.congr (hm : m.StartedUpTo) (hwrites : later.writes = m.writes)
    (hstart : later.timerStart = m.timerStart) (hsetups : later.setups = m.setups)
    (hquiet : m.Quiet → later.Quiet) (halive : m.Alive → later.Alive) : later.StartedUpTo := by
  cases hm with
  | unset hfalse hzero hnone hbefore =>
    exact .unset (hstart.trans hfalse) (hsetups.trans hzero) (hwrites ▸ hnone) (hquiet hbefore)
  | setup hi hfalse hzero hbefore =>
    exact .setup (hi.congr hwrites) (hstart.trans hfalse) (hsetups.trans hzero) (hquiet hbefore)
  | mod hi hfalse hone hbefore =>
    exact .mod (hi.congr hwrites) (hstart.trans hfalse) (hsetups.trans hone) (hquiet hbefore)
  | started hi hfalse hone hbefore =>
    exact .started (hi.congr hwrites) (hstart.trans hfalse) (hsetups.trans hone) (halive hbefore)
  | set htrue hone hnone hbefore =>
    exact .set (hstart.trans htrue) (hsetups.trans hone) (hwrites ▸ hnone) (halive hbefore)

/-- A step of the handler keeps the timer in order. -/
theorem TimerFits.tick (hm : m.TimerFits) {utimes : Utimes}
    (hstep : m.tickStep utimes = some later) : later.TimerFits := by
  obtain ⟨hbusy, nodes, process, locked, pending, tick, -, hticks, rfl⟩ := tickStep_spec hstep
  have hnotQuiet : ¬ m.Quiet := fun hquiet ↦ hbusy hquiet.2
  refine ⟨?_, hm.returned, fun hdeleted ↦ absurd (hm.deleted hdeleted) hnotQuiet, hm.once⟩
  refine hm.phase.congr rfl rfl rfl (fun hquiet ↦ absurd hquiet hnotQuiet) fun _ _ ↦ ?_
  cases hticks with
  | goesOn htick => exact .inr htick
  | rearms => exact .inl rfl

/-- An expiry keeps the timer in order. -/
theorem TimerFits.expire (hm : m.TimerFits) (hpending : m.pending = true) :
    TimerFits { m with pending := false, tick := .lock } := by
  have hnotQuiet : ¬ m.Quiet := by
    rintro ⟨hfalse, -⟩
    cases hpending.symm.trans hfalse
  refine ⟨?_, hm.returned, fun hdeleted ↦ absurd (hm.deleted hdeleted) hnotQuiet, hm.once⟩
  exact hm.phase.congr rfl rfl rfl (fun hquiet ↦ absurd hquiet hnotQuiet)
    fun _ _ ↦ .inr TickPc.noConfusion

/-- A step of `mp1_exit` keeps the timer in order. Assumes: no handler runs when the timer is
deleted. -/
theorem TimerFits.exit (hm : m.TimerFits) (horderly : m.Orderly .exit)
    (hstep : m.exitStep = some later) : later.TimerFits := by
  have hspec := exitStep_spec hstep
  have hsame : ∀ (nodes : List Addr) (exit : ExitPc) (removed : Bool),
      exit.timerDeleted = m.exit.timerDeleted →
      TimerFits { m with nodes := nodes, exit := exit, removed := removed } := by
    intro nodes exit removed hexit
    refine ⟨hm.phase.congr rfl rfl rfl id fun halive hdeleted ↦ halive (hexit ▸ hdeleted),
      hm.returned, fun hdeleted ↦ hm.deleted (hexit ▸ hdeleted), hm.once⟩
  generalize hpc : m.exit = pc at hspec hsame
  cases hspec with
  | delTimer =>
    have hidle := horderly hpc
    have hquiet : Quiet { m with pending := false, exit := .kfree } := ⟨rfl, hidle⟩
    have halive : Alive { m with pending := false, exit := .kfree } := by
      intro hdeleted
      cases hdeleted
    exact ⟨hm.phase.congr rfl rfl rfl (fun _ ↦ hquiet) fun _ ↦ halive, hm.returned,
      fun _ ↦ hquiet, hm.once⟩
  | _ => exact hsame _ _ _ rfl

variable [DecidableEq ι]

/-- The timer stays where it is when a call goes on that is not about to start it. -/
theorem StartedUpTo.goto (hm : m.StartedUpTo) (hbefore : (m.writes i).startsTimer = false)
    {pc : WritePc} (hpc : pc.startsTimer = false) : (m.goto i pc).StartedUpTo := by
  have hnone : (∀ j, (m.writes j).startsTimer = false) →
      ∀ j, ((m.goto i pc).writes j).startsTimer = false := by
    intro hall j
    by_cases hji : j = i
    · rw [hji, goto_writes, Function.update_self]
      exact hpc
    · rw [goto_writes, Function.update_of_ne hji]
      exact hall j
  have hstarter : ∀ k at_, at_.startsTimer = true → m.Starter k at_ →
      (m.goto i pc).Starter k at_ := by
    intro k at_ hat hk
    have hki : k ≠ i := by
      rintro rfl
      rw [hk.at_pc, hat] at hbefore
      cases hbefore
    refine ⟨?_, fun j hjk ↦ ?_⟩
    · rw [goto_writes, Function.update_of_ne hki]
      exact hk.at_pc
    · by_cases hji : j = i
      · rw [hji, goto_writes, Function.update_self]
        exact hpc
      · rw [goto_writes, Function.update_of_ne hji]
        exact hk.alone j hjk
  cases hm with
  | unset hstart hsetups hall hquiet => exact .unset hstart hsetups (hnone hall) hquiet
  | setup hk hstart hsetups hquiet =>
    exact .setup (hstarter _ _ rfl hk) hstart hsetups hquiet
  | mod hk hstart hsetups hquiet => exact .mod (hstarter _ _ rfl hk) hstart hsetups hquiet
  | started hk hstart hsetups halive =>
    exact .started (hstarter _ _ rfl hk) hstart hsetups halive
  | set hstart hsetups hall halive => exact .set hstart hsetups (hnone hall) halive

/-- The call that starts the timer goes on, and stays alone. -/
theorem Starter.goto {before : WritePc} (hi : m.Starter i before) (pc : WritePc) :
    (m.goto i pc).Starter i pc := by
  refine ⟨Function.update_self .., fun j hji ↦ ?_⟩
  rw [goto_writes, Function.update_of_ne hji]
  exact hi.alone j hji

/-- The call that starts the timer has set the flag. -/
theorem Starter.ends {before : WritePc} (hi : m.Starter i before) (j : ι) :
    ((m.goto i .returned).writes j).startsTimer = false := by
  by_cases hji : j = i
  · rw [hji, goto_writes, Function.update_self]
    rfl
  · rw [goto_writes, Function.update_of_ne hji]
    exact hi.alone j hji

/-- Calls that have returned, after one of them has gone on. -/
theorem returned_goto {pc : WritePc} {start : Bool}
    (hreturned : ∀ j, m.writes j = .returned → start = true) (hpc : pc = .returned → start = true)
    (j : ι) (hj : (m.goto i pc).writes j = .returned) : start = true := by
  by_cases hji : j = i
  · rw [hji, goto_writes, Function.update_self] at hj
    exact hpc hj
  · rw [goto_writes, Function.update_of_ne hji] at hj
    exact hreturned j hj

/-- A step of a call keeps the timer in order. Assumes: the step is orderly. -/
theorem TimerFits.write (hm : m.TimerFits) (horderly : m.Orderly (.write i))
    (hstep : m.writeStep i = some later) : later.TimerFits := by
  obtain ⟨htest, -, hmod⟩ := horderly
  have hspec := writeStep_spec hstep
  have hphase := hm.phase
  generalize hpc : m.writes i = pc at hspec
  have hreturned : ∀ {after : WritePc}, after ≠ .returned →
      ∀ j, (m.goto i after).writes j = .returned → m.timerStart = true :=
    fun hne ↦ returned_goto hm.returned fun heq ↦ absurd heq hne
  -- a call that is not about to start the timer goes on
  have houtside : ∀ {after : WritePc} (hbefore : pc.startsTimer = false)
      (hafter : after.startsTimer = false), (m.goto i after).StartedUpTo :=
    fun hbefore hafter ↦ hphase.goto (hpc ▸ hbefore) hafter
  cases hspec with
  | start | lock | add | unlock =>
    exact ⟨(houtside rfl rfl).congr rfl rfl rfl id id, hreturned WritePc.noConfusion, hm.deleted,
      hm.once⟩
  | isStarted hstart =>
    exact ⟨(houtside rfl rfl).congr rfl rfl rfl id id,
      returned_goto hm.returned fun _ ↦ hstart, hm.deleted, hm.once⟩
  | notStarted hstart =>
    have hnone := htest hpc hstart
    obtain ⟨hsetups, hquiet⟩ := hphase.unstarted hstart hnone
    have hi : m.Starter i .test := ⟨hpc, fun j _ ↦ hnone j⟩
    exact ⟨.setup (hi.goto .setup) hstart hsetups hquiet, hreturned WritePc.noConfusion,
      hm.deleted, hm.once⟩
  | setup =>
    obtain ⟨hk, hstart, hstarting⟩ := hphase.starting hpc rfl
    cases hstarting with
    | setup hsetups hquiet =>
      have hi : Starter { m.goto i .mod with
          pending := false
          setups := m.setups + 1
          reinitialised := m.reinitialised || m.pending } i .mod := (hk.goto .mod).congr rfl
      refine ⟨.mod hi hstart (congrArg (· + 1) hsetups) ⟨rfl, hquiet.2⟩,
        hreturned WritePc.noConfusion, fun hdeleted ↦ ?_,
        Bool.or_eq_false_iff.mpr ⟨hm.once, hquiet.1⟩⟩
      exact ⟨rfl, (hm.deleted hdeleted).2⟩
  | mod =>
    have hundeleted := hmod hpc
    obtain ⟨hk, hstart, hstarting⟩ := hphase.starting hpc rfl
    cases hstarting with
    | mod hsetups _ =>
      refine ⟨.started ((hk.goto .started).congr rfl) hstart hsetups fun _ ↦ .inl rfl,
        hreturned WritePc.noConfusion, fun hdeleted ↦ ?_, hm.once⟩
      cases hundeleted.symm.trans hdeleted
  | started =>
    obtain ⟨hk, -, hstarting⟩ := hphase.starting hpc rfl
    cases hstarting with
    | started hsetups halive =>
      exact ⟨.set rfl hsetups hk.ends halive, fun _ _ ↦ rfl, hm.deleted, hm.once⟩

end Timer

/-! ### What the unload frees -/

/-- A pointer that was read ahead: the next node, or a node that has been removed since. -/
def Ahead (rest : List Addr) (tmp : Addr) : Prop :=
  tmp = rest.headD pList ∨ tmp ≠ pList ∧ tmp ∉ rest

/-- What the list holds, by the next step of `mp1_exit`: the loop is at the first node, at one that
has been removed, or at the head of an empty list; when the loop is over, the list is empty. -/
def Freeing (nodes : List Addr) (fresh : Addr) : ExitPc → Prop
  | .idle => True
  | .free itr tmp =>
    itr < fresh ∧ tmp < fresh ∧
      ((itr = pList ∧ tmp = pList ∧ nodes = []) ∨ (itr ≠ pList ∧ itr ∉ nodes) ∨
        ∃ rest, nodes = itr :: rest ∧ Ahead rest tmp)
  | .advance tmp => tmp < fresh ∧ Ahead nodes tmp
  | _ => nodes = []

/-- The nodes of the list are allocated and occur once, and `mp1_exit` frees them. -/
structure ListFits (m : Lifecycle ι) : Prop where
  head : pList < m.fresh
  nodup : m.nodes.Nodup
  allocated : ∀ node ∈ m.nodes, node ≠ pList ∧ node < m.fresh
  freeing : Freeing m.nodes m.fresh m.exit

section Nodes

variable {rest nodes : List Addr} {tmp fresh node : Addr} {pc : ExitPc}

/-- Pointers ahead, after a node has been removed. -/
theorem Ahead.erase (hahead : Ahead rest tmp) (hnodup : rest.Nodup)
    (hhead : ∀ node ∈ rest, node ≠ pList) (node : Addr) : Ahead (rest.erase node) tmp := by
  rcases hahead with hnext | ⟨hne, hremoved⟩
  · cases rest with
    | nil => exact .inl hnext
    | cons first rest =>
      rw [List.headD_cons] at hnext
      by_cases hnode : first = node
      · rw [← hnode, List.erase_cons_head, hnext]
        exact .inr ⟨hhead first List.mem_cons_self, (List.nodup_cons.mp hnodup).1⟩
      · rw [List.erase_cons_tail (by simpa using hnode)]
        exact .inl hnext
  · exact .inr ⟨hne, fun hmem ↦ hremoved (List.mem_of_mem_erase hmem)⟩

/-- Pointers ahead, after a node has been added, unless it is the head that is ahead. -/
theorem Ahead.append (hahead : Ahead rest tmp) (hhead : tmp ≠ pList) (hnew : tmp ≠ node) :
    Ahead (rest ++ [node]) tmp := by
  rcases hahead with hnext | ⟨-, hremoved⟩
  · cases rest with
    | nil => exact absurd hnext hhead
    | cons first rest => exact .inl hnext
  · refine .inr ⟨hhead, fun hmem ↦ ?_⟩
    rcases List.mem_append.mp hmem with hmem | hmem
    · exact hremoved hmem
    · exact hnew (List.mem_singleton.mp hmem)

/-- A node has been removed by somebody else. -/
theorem Freeing.erase (hfreeing : Freeing nodes fresh pc) (hnodup : nodes.Nodup)
    (hhead : ∀ node ∈ nodes, node ≠ pList) (node : Addr) :
    Freeing (nodes.erase node) fresh pc := by
  cases pc with
  | idle => trivial
  | free itr tmp =>
    obtain ⟨hitr, htmp, ⟨hend, hlast, rfl⟩ | ⟨hne, hremoved⟩ | ⟨rest, rfl, hahead⟩⟩ := hfreeing
    · exact ⟨hitr, htmp, .inl ⟨hend, hlast, rfl⟩⟩
    · exact ⟨hitr, htmp, .inr (.inl ⟨hne, fun hmem ↦ hremoved (List.mem_of_mem_erase hmem)⟩)⟩
    · obtain ⟨hout, hrest⟩ := List.nodup_cons.mp hnodup
      refine ⟨hitr, htmp, .inr ?_⟩
      by_cases hnode : itr = node
      · rw [← hnode, List.erase_cons_head]
        exact .inl ⟨hhead itr List.mem_cons_self, hout⟩
      · rw [List.erase_cons_tail (by simpa using hnode)]
        exact .inr ⟨_, rfl, hahead.erase hrest
          (fun other hother ↦ hhead other (List.mem_cons_of_mem itr hother)) node⟩
  | advance tmp => exact ⟨hfreeing.1, hfreeing.2.erase hnodup hhead node⟩
  | _ =>
    have hnil : nodes = [] := hfreeing
    rw [hnil]
    rfl

/-- A node has been added while the loop has a node ahead. -/
theorem Freeing.append (hfreeing : Freeing nodes fresh pc) (hfreed : pc.freed = false) :
    Freeing (nodes ++ [fresh]) (fresh + 1) pc := by
  cases pc with
  | idle => trivial
  | free itr tmp =>
    have htmpHead : tmp ≠ pList := of_decide_eq_false hfreed
    obtain ⟨hitr, htmp, ⟨-, hlast, -⟩ | ⟨hne, hremoved⟩ | ⟨rest, rfl, hahead⟩⟩ := hfreeing
    · exact absurd hlast htmpHead
    · refine ⟨Nat.lt_succ_of_lt hitr, Nat.lt_succ_of_lt htmp, .inr (.inl ⟨hne, fun hmem ↦ ?_⟩)⟩
      rcases List.mem_append.mp hmem with hmem | hmem
      · exact hremoved hmem
      · exact Nat.ne_of_lt hitr (List.mem_singleton.mp hmem)
    · exact ⟨Nat.lt_succ_of_lt hitr, Nat.lt_succ_of_lt htmp,
        .inr (.inr ⟨_, rfl, hahead.append htmpHead (Nat.ne_of_lt htmp)⟩)⟩
  | advance tmp =>
    have htmpHead : tmp ≠ pList := of_decide_eq_false hfreed
    exact ⟨Nat.lt_succ_of_lt hfreeing.1, hfreeing.2.append htmpHead (Nat.ne_of_lt hfreeing.1)⟩
  | _ => cases hfreed

variable {m later : Lifecycle ι}

/-- The next pointer of the first node. -/
theorem after_first (hnodes : m.nodes = node :: rest) (hne : node ≠ pList) :
    m.after node = some (rest.headD pList) := by
  rw [after, if_neg hne, hnodes, List.dropWhile_cons_of_neg (by simp)]

/-- Nobody follows the pointers of a removed node. -/
theorem after_removed (hnode : node ∉ m.nodes) (hne : node ≠ pList) : m.after node = none := by
  have hdrop : m.nodes.dropWhile (· ≠ node) = [] := by
    rw [List.dropWhile_eq_nil_iff]
    rintro other hother
    refine decide_eq_true fun heq ↦ hnode ?_
    rw [← heq]
    exact hother
  rw [after, if_neg hne, hdrop]

/-- The loop comes to the first node of the list, or to the head. -/
theorem ListFits.freeing_headD (hm : m.ListFits) {tmp : Addr}
    (htmp : m.after (m.nodes.headD pList) = some tmp) :
    Freeing m.nodes m.fresh (.free (m.nodes.headD pList) tmp) := by
  cases hnodes : m.nodes with
  | nil =>
    rw [hnodes, List.headD_nil, after, if_pos rfl, hnodes] at htmp
    cases htmp
    exact ⟨hm.head, hm.head, .inl ⟨rfl, rfl, rfl⟩⟩
  | cons first rest =>
    obtain ⟨hfirst, hallocated⟩ := hm.allocated first (by rw [hnodes]; exact List.mem_cons_self)
    rw [hnodes, List.headD_cons, after_first hnodes hfirst] at htmp
    cases htmp
    refine ⟨hallocated, ?_, .inr (.inr ⟨rest, rfl, .inl rfl⟩)⟩
    cases hrest : rest with
    | nil => exact hm.head
    | cons second rest =>
      exact (hm.allocated second (by rw [hnodes, hrest]; simp)).2

/-- A step of `mp1_exit` keeps the list in order. -/
theorem ListFits.exit (hm : m.ListFits) (hstep : m.exitStep = some later) : later.ListFits := by
  have hfreeing := hm.freeing
  have hspec := exitStep_spec hstep
  generalize m.exit = pc at hspec hfreeing
  cases hspec with
  | begins htmp => exact ⟨hm.head, hm.nodup, hm.allocated, hm.freeing_headD htmp⟩
  | freed =>
    refine ⟨hm.head, hm.nodup, hm.allocated, ?_⟩
    obtain ⟨-, -, ⟨-, -, hnil⟩ | ⟨hne, -⟩ | ⟨rest, hnodes, -⟩⟩ := hfreeing
    · exact hnil
    · exact absurd rfl hne
    · exact absurd rfl (hm.allocated pList (by rw [hnodes]; exact List.mem_cons_self)).1
  | @free itr tmp hitr hmem =>
    obtain ⟨-, htmp, ⟨hend, -, -⟩ | ⟨-, hremoved⟩ | ⟨rest, hnodes, hahead⟩⟩ := hfreeing
    · exact absurd hend hitr
    · exact absurd hmem hremoved
    · refine ⟨hm.head, hm.nodup.erase itr,
        fun node hnode ↦ hm.allocated node (List.mem_of_mem_erase hnode), htmp, ?_⟩
      show Ahead (m.nodes.erase itr) tmp
      rw [hnodes, List.erase_cons_head]
      exact hahead
  | @advance tmp ahead hahead =>
    refine ⟨hm.head, hm.nodup, hm.allocated, ?_⟩
    obtain ⟨-, hnext | ⟨hne, hremoved⟩⟩ := hfreeing
    · rw [hnext] at hahead ⊢
      exact hm.freeing_headD hahead
    · rw [after_removed hremoved hne] at hahead
      cases hahead
  | _ => exact ⟨hm.head, hm.nodup, hm.allocated, hfreeing⟩

/-- A step of the handler keeps the list in order. -/
theorem ListFits.tick (hm : m.ListFits) {utimes : Utimes}
    (hstep : m.tickStep utimes = some later) : later.ListFits := by
  obtain ⟨-, nodes, process, locked, pending, tick, hremoves, -, rfl⟩ := tickStep_spec hstep
  cases hremoves with
  | none => exact ⟨hm.head, hm.nodup, hm.allocated, hm.freeing⟩
  | @one node hnode =>
    exact ⟨hm.head, hm.nodup.erase node,
      fun other hother ↦ hm.allocated other (List.mem_of_mem_erase hother),
      hm.freeing.erase hm.nodup (fun other hother ↦ (hm.allocated other hother).1) node⟩

/-- A step of a call keeps the list in order. Assumes: the step is orderly. -/
theorem ListFits.write [DecidableEq ι] (hm : m.ListFits) {i : ι} (horderly : m.Orderly (.write i))
    (hstep : m.writeStep i = some later) : later.ListFits := by
  have hspec := writeStep_spec hstep
  generalize hpc : m.writes i = pc at hspec
  cases hspec with
  | add =>
    have hfreed := horderly.2.1 (congrArg WritePc.adds hpc)
    have hnew : m.fresh ∉ m.nodes := fun hmem ↦ Nat.lt_irrefl _ (hm.allocated _ hmem).2
    refine ⟨Nat.lt_succ_of_lt hm.head, ?_, fun node hnode ↦ ?_, hm.freeing.append hfreed⟩
    · exact List.nodup_append.mpr ⟨hm.nodup, List.nodup_singleton _, by
        intro node hnode other hother heq
        rw [heq, List.mem_singleton.mp hother] at hnode
        exact hnew hnode⟩
    · rcases List.mem_append.mp hnode with hnode | hnode
      · obtain ⟨hne, hlt⟩ := hm.allocated node hnode
        exact ⟨hne, Nat.lt_succ_of_lt hlt⟩
      · rw [List.mem_singleton.mp hnode]
        exact ⟨Nat.ne_of_gt hm.head, Nat.lt_succ_self m.fresh⟩
  | _ => exact ⟨hm.head, hm.nodup, hm.allocated, hm.freeing⟩

end Nodes

/-! ### Runs -/

/-- The timer and the list are in order. -/
structure Fits (m : Lifecycle ι) : Prop where
  timer : m.TimerFits
  list : m.ListFits

namespace Fits

variable {m later : Lifecycle ι}

/-- The start is in order. -/
theorem start (process : Addr → Process) (pids : ι → UInt32) :
    Fits (Lifecycle.start process pids) where
  timer :=
    { phase := .unset rfl rfl (fun _ ↦ rfl) ⟨rfl, rfl⟩
      returned := fun _ hreturned ↦ absurd hreturned WritePc.noConfusion
      deleted := fun hdeleted ↦ absurd hdeleted Bool.false_ne_true
      once := rfl }
  list :=
    { head := Nat.lt_succ_self pList
      nodup := List.nodup_nil
      allocated := fun _ hnode ↦ absurd hnode List.not_mem_nil
      freeing := trivial }

/-- An orderly step keeps the order. -/
theorem next [DecidableEq ι] (hm : m.Fits) {label : LifecycleLabel ι}
    (horderly : m.Orderly label) (hnext : m.next label = some later) : later.Fits := by
  cases label with
  | write i => exact ⟨hm.timer.write horderly hnext, hm.list.write horderly hnext⟩
  | expire =>
    obtain ⟨⟨hpending, -⟩, rfl⟩ := Option.ite_none_right_eq_some.mp hnext |>.imp id Option.some.inj
    exact ⟨hm.timer.expire hpending, hm.list.head, hm.list.nodup, hm.list.allocated,
      hm.list.freeing⟩
  | tick utimes => exact ⟨hm.timer.tick hnext, hm.list.tick hnext⟩
  | exit => exact ⟨hm.timer.exit horderly hnext, hm.list.exit hnext⟩

/-- In order, the timer has been set up once at most. -/
theorem setUpOnce (hm : m.Fits) : m.SetUpOnce := by
  refine ⟨?_, hm.timer.once⟩
  cases hm.timer.phase with
  | unset _ hsetups _ _ => exact hsetups.trans_le (Nat.zero_le 1)
  | setup _ _ hsetups _ => exact hsetups.trans_le (Nat.zero_le 1)
  | mod _ _ hsetups _ => exact hsetups.le
  | started _ _ hsetups _ => exact hsetups.le
  | set _ hsetups _ _ => exact hsetups.le

/-- In order, the timer runs once a write is completed. -/
theorem runsUntilUnload (hm : m.Fits) : m.RunsUntilUnload := by
  rintro ⟨i, hi⟩ hidle
  have hundeleted : m.exit.timerDeleted = false := by
    rw [hidle]
    rfl
  have hset := hm.timer.returned i hi
  cases hm.timer.phase with
  | unset hstart _ _ _ => cases hset.symm.trans hstart
  | setup _ hstart _ _ => cases hset.symm.trans hstart
  | mod _ hstart _ _ => cases hset.symm.trans hstart
  | started _ hstart _ _ => cases hset.symm.trans hstart
  | set _ _ _ halive => exact halive hundeleted

/-- In order, the timer and the list are gone after the unload. -/
theorem endsWithUnload (hm : m.Fits) : m.EndsWithUnload := by
  intro hreturned
  obtain ⟨hpending, hidle⟩ := hm.timer.deleted (by rw [hreturned]; rfl)
  have hfreed := hm.list.freeing
  rw [hreturned] at hfreed
  exact ⟨hpending, hidle, hfreed⟩

end Fits

end Lifecycle

/-- The number of steps of one party. -/
def LifecycleLabel.times {ι : Type*} (label : LifecycleLabel ι) (count : ℕ) :
    List (LifecycleLabel ι) :=
  List.replicate count label

end KernelModules.ProcessTimes

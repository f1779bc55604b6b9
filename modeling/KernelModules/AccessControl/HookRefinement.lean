import KernelModules.AccessControl.KernelMemory

/-!
# Concurrent hooks behave like hooks that run at once

The kernel of concurrent hooks, whose state is a heap, against the processes on which every hook is
one step on values. A state of the kernel is tracked by a state of the processes (`Tracks`): the
heap is divided among the running calls, and what is common holds each credential with the label
that the processes have for it, each security structure under one credential, and the buffers of
the paths that were checked.

Every event keeps this: the operations of a call change nothing that the processes see, and when the
call finishes the processes take its one step (`Tracks.step`, `Tracks.begin`, `Tracks.finish`).
-/

set_option autoImplicit false
set_option relaxedAutoImplicit false

namespace KernelModules.AccessControl

open Foundation

variable {κ Inode Dentry : Type} [DecidableEq κ] [Fintype κ] [DecidableEq Dentry]

/-! ### What a call ensures -/

/-- What a call starts with: the new credential without a structure, or the credential that it
takes, in its own memory; the credential that it reads, in its view. -/
def HookCall.Begins (new : ℕ) (cred : Cred) (view : ℕ → Option KernelBlock)
    (own : Owned KernelBlock Dentry) : HookCall Inode → Prop
  | .credAllocBlank _ => own.blocks new = some (.cred none) ∧ OnlyCred own.blocks new
  | .credPrepare old _ => own.blocks new = some (.cred none) ∧ OnlyCred own.blocks new ∧
      HoldsCred view old cred
  | .credFree c => HoldsCred own.blocks c cred ∧ OnlyCred own.blocks c
  | .bprmSetCreds c _ _ => HoldsCred own.blocks c cred ∧ OnlyCred own.blocks c
  | .inodePermission c _ _ _ _ _ => (own.blocks = fun _ ↦ none) ∧ HoldsCred view c cred
  | .inodeInitSecurity c _ _ _ => (own.blocks = fun _ ↦ none) ∧ HoldsCred view c cred

/-- The caller of `mp4_inode_init_security` has used its outputs, and has freed the value. -/
def ReturnsXattr (expected : Except Fault (ℤ × InitXattr)) (result : Except Fault Reply)
    (later : Owned KernelBlock Dentry) : Prop :=
  match expected with
  | .ok answer => result = .ok (.xattr answer.1 answer.2) ∧ (later.refs = fun _ ↦ 0) ∧
      later.blocks = fun _ ↦ none
  | .error fault => result = .error fault

/-- How a call ends, for the credential that it reads or takes: with the answer of the hook on
values, and with what is left of its memory. -/
def HookCall.Ends (vfs : Vfs Inode Dentry) (new : ℕ) (cred : Cred) (call : HookCall Inode)
    (result : Except Fault Reply) (later : Owned KernelBlock Dentry) : Prop :=
  match call with
  | .credAllocBlank block => ∃ r, result = Except.map .number r ∧
      GivesCred new (.ok (mp4CredAllocBlank ⟨none⟩ block.isSome)) r later
  | .credPrepare _ block => ∃ r, result = Except.map .number r ∧
      GivesCred new (.ok (mp4CredPrepare ⟨none⟩ cred block.isSome)) r later
  | .credFree _ => result = .ok (.number 0) ∧ (later.refs = fun _ ↦ 0) ∧
      later.blocks = fun _ ↦ none
  | .bprmSetCreds c inode val => ∃ r, result = Except.map .number r ∧
      GivesCred c (mp4BprmSetCreds vfs cred inode val) r later
  | .inodePermission _ inode mask buf val _ => ∃ r, result = Except.map .verdict r ∧
      GivesVerdict (mp4InodePermission vfs cred.security inode mask buf.isSome val) buf
        ⟨fun _ ↦ none, fun _ ↦ 0⟩ r later
  | .inodeInitSecurity _ inode wanted succeeds => ReturnsXattr
      (mp4InodeInitSecurity vfs cred.security inode wanted succeeds ⟨none, none, 0⟩) result later

omit [DecidableEq Dentry] in
/-- The bytes of a text that is laid out. -/
theorem map_ofText_range (text : Text) :
    (List.range text.length).map (Memory.ofText text) = text := by
  refine List.ext_getElem (by simp) fun i hi hi' ↦ ?_
  simp [Memory.ofText, List.getD_eq_getElem?_getD, List.getElem?_eq_getElem hi']

/-- Every call ensures how it ends. Assumes: it starts with what it needs, and no references. -/
theorem HookCall.ensures_program {vfs : Vfs Inode Dentry} {new : ℕ} {cred : Cred}
    {view : ℕ → Option KernelBlock} {own : Owned KernelBlock Dentry} {call : HookCall Inode}
    (hbegins : call.Begins new cred view own) (hrefs : own.refs = fun _ ↦ 0) :
    (call.program vfs new).Ensures view (call.Ends vfs new cred) own := by
  cases call with
  | credAllocBlank block =>
    refine (HookProgram.ensures_mp4CredAllocBlank hbegins.1 hbegins.2 hrefs block).bind
      (fun ret later hlater ↦ ⟨.ok ret, rfl, hlater⟩) fun reason later hlater ↦ ?_
    exact ⟨.error reason, rfl, hlater⟩
  | credPrepare old block =>
    obtain ⟨hnew, honly, hold⟩ := hbegins
    refine (HookProgram.ensures_mp4CredPrepare hnew honly hrefs hold block).bind
      (fun ret later hlater ↦ ⟨.ok ret, rfl, hlater⟩) fun reason later hlater ↦ ?_
    exact ⟨.error reason, rfl, hlater⟩
  | credFree c =>
    refine (HookProgram.ensures_mp4CredFree hbegins.1 hbegins.2 hrefs).bind
      (fun _ later hlater ↦ ?_) fun reason later hlater ↦ by cases hlater.1
    obtain ⟨-, hlaterRefs, hcred, honly⟩ := hlater
    have hnull : later.blocks c = some (.cred none) := hcred.pointer_eq_none
    refine HookProgram.ensures_kfree hnull ⟨rfl, hlaterRefs, ?_⟩
    funext b
    by_cases hb : b = c
    · rw [hb]
      exact Owned.blocks_set_self later c none
    · rw [Owned.blocks_set, Function.update_of_ne hb]
      by_contra hlive
      obtain ⟨content, hcontent⟩ := Option.ne_none_iff_exists'.mp hlive
      exact hb (honly.eq_of_null hnull hcontent)
  | bprmSetCreds c inode val =>
    refine (HookProgram.ensures_mp4BprmSetCreds hbegins.1 hbegins.2 hrefs vfs inode val).bind
      (fun ret later hlater ↦ ⟨.ok ret, rfl, hlater⟩) fun reason later hlater ↦ ?_
    exact ⟨.error reason, rfl, hlater⟩
  | inodePermission c inode mask buf val ratelimit =>
    obtain ⟨hblocks, hcred⟩ := hbegins
    obtain rfl : own = ⟨fun _ ↦ none, fun _ ↦ 0⟩ := Owned.ext hblocks hrefs
    refine (HookProgram.ensures_mp4InodePermission hcred vfs inode mask buf val ratelimit).bind
      (fun verdict later hlater ↦ ⟨.ok verdict, rfl, hlater⟩) fun reason later hlater ↦ ?_
    exact ⟨.error reason, rfl, hlater⟩
  | inodeInitSecurity c inode wanted succeeds =>
    obtain ⟨hblocks, hcred⟩ := hbegins
    obtain rfl : own = ⟨fun _ ↦ none, fun _ ↦ 0⟩ := Owned.ext hblocks hrefs
    refine (HookProgram.ensures_mp4InodeInitSecurity hcred vfs inode wanted succeeds).bind
      (fun answer later hlater ↦ ?_) fun reason later hlater ↦ ?_
    · change Program.Ensures view (ReturnsXattr
        (mp4InodeInitSecurity vfs cred.security inode wanted succeeds ⟨none, none, 0⟩)) _ later
      generalize mp4InodeInitSecurity vfs cred.security inode wanted succeeds ⟨none, none, 0⟩ =
        expected at hlater ⊢
      cases expected with
      | error fault => cases hlater
      | ok expected =>
        obtain ⟨ret, name, given, len⟩ := expected
        obtain ⟨value, hanswer, hvalue⟩ := hlater
        obtain rfl := Except.ok.inj hanswer
        rcases hvalue with ⟨rfl, rfl, rfl⟩ | ⟨a, text, rfl, rfl, rfl, ha, rfl⟩
        · exact ⟨rfl, rfl, rfl⟩
        · refine HookProgram.ensures_readBuffer (Owned.blocks_set_self ..) ?_
          refine HookProgram.ensures_kfree (Owned.blocks_set_self ..) ?_
          rw [Owned.set_set, Owned.set_eq_self ha, map_ofText_range]
          exact ⟨rfl, rfl, rfl⟩
    · change ReturnsXattr (mp4InodeInitSecurity vfs cred.security inode wanted succeeds
        ⟨none, none, 0⟩) _ later
      generalize mp4InodeInitSecurity vfs cred.security inode wanted succeeds ⟨none, none, 0⟩ =
        expected at hlater ⊢
      cases expected with
      | error fault =>
        cases hlater
        rfl
      | ok expected =>
        obtain ⟨value, hanswer, -⟩ := hlater
        cases hanswer

/-! ### The processes that the kernel stands for -/

/-- The credential that a running call has for itself. -/
def Task.subject (task : Task Inode Dentry) : Option ℕ :=
  if task.call.Produces then some task.new else task.call.takes

/-- Where a running call stands, for the credential that it reads or takes. -/
structure Placed (creds : ℕ → Option CredStatus) (slots : ℕ → Option Credential) (fresh : ℕ)
    (common : ℕ → Option KernelBlock) (task : Task Inode Dentry) (cred : Cred)
    (view : ℕ → Option KernelBlock) : Prop where
  reads : ∀ c ∈ task.call.reads, creds c = some .ready ∧ ∃ credential, slots c = some credential ∧
    credential.freed = false ∧ credential.cred = cred
  view : ∀ a content, view a = some content → ∃ c ∈ task.call.reads, a ∈ footprint common c
  subject : ∀ c ∈ task.subject, creds c = none ∧ c < fresh
  takes : ∀ c ∈ task.call.takes, (∃ credential, slots c = some credential ∧
    credential.freed = false ∧ credential.cred = cred) ∨
      (slots c = none ∧ task.call = .credFree c)
  new : task.call.Produces → slots task.new = none

/-- A state of the processes tracks the kernel. -/
structure Tracks (vfs : Vfs Inode Dentry) (s : Kernel κ Inode Dentry)
    (processes : Processes ℕ Inode) (view : κ → ℕ → Option KernelBlock)
    (post : κ → Except Fault Reply → Owned KernelBlock Dentry → Prop)
    (owner : ℕ → Option κ) (held : κ → Dentry → ℕ) (leaked : Finset ℕ) : Prop where
  divided : Divided s.heap (fun k ↦ (s.running k).map Task.rest) view post owner held
  memory : KernelMemory (s.heap.part owner none) s.creds processes.credentials.slots leaked
  placed : ∀ k task, s.running k = some task → ∃ cred, post k = task.call.Ends vfs task.new cred ∧
    Placed s.creds processes.credentials.slots s.heap.fresh (s.heap.part owner none) task cred
      (view k)
  apart : ∀ k other task rival c, s.running k = some task → s.running other = some rival →
    c ∈ task.subject → c ∈ rival.subject → k = other
  unborn : ∀ c, s.heap.fresh ≤ c → processes.credentials.slots c = none
  executed : s.executed = processes.executed
  checks : leaked.card = s.checks

/-- The processes are represented by the kernel. -/
def Simulates (vfs : Vfs Inode Dentry) (s : Kernel κ Inode Dentry)
    (processes : Processes ℕ Inode) : Prop :=
  ∃ view post owner held leaked, Tracks vfs s processes view post owner held leaked

omit [DecidableEq Dentry] in
/-- What a call takes it has for itself. -/
theorem Task.takes_subject {task : Task Inode Dentry} {c : ℕ} (hc : c ∈ task.call.takes) :
    c ∈ task.subject := by
  unfold Task.subject
  cases hcall : task.call with
  | credFree _ => simpa [hcall, HookCall.Produces] using hc
  | bprmSetCreds _ _ _ => simpa [hcall, HookCall.Produces] using hc
  | _ => simp [hcall, HookCall.takes] at hc

omit [DecidableEq Dentry] in
/-- A call stands where it stood when nothing has changed for its credentials. -/
theorem Placed.keep {creds creds' : ℕ → Option CredStatus} {slots slots' : ℕ → Option Credential}
    {fresh fresh' : ℕ} {common common' : ℕ → Option KernelBlock} {task : Task Inode Dentry}
    {cred : Cred} {view : ℕ → Option KernelBlock}
    (hplaced : Placed creds slots fresh common task cred view) (hfresh : fresh ≤ fresh')
    (hreads : ∀ c ∈ task.call.reads, creds' c = creds c ∧ slots' c = slots c ∧
      common' c = common c)
    (hsubject : ∀ c ∈ task.subject, creds' c = creds c ∧ slots' c = slots c) :
    Placed creds' slots' fresh' common' task cred view := by
  refine ⟨fun c hc ↦ ?_, fun a content ha ↦ ?_, fun c hc ↦ ?_, fun c hc ↦ ?_, fun hproduces ↦ ?_⟩
  · obtain ⟨hcreds, hslots, -⟩ := hreads c hc
    rw [hcreds, hslots]
    exact hplaced.reads c hc
  · obtain ⟨c, hc, hmem⟩ := hplaced.view a content ha
    refine ⟨c, hc, ?_⟩
    rw [mem_footprint, (hreads c hc).2.2, ← mem_footprint]
    exact hmem
  · rw [(hsubject c hc).1]
    exact ⟨(hplaced.subject c hc).1, (hplaced.subject c hc).2.trans_le hfresh⟩
  · rw [(hsubject c (Task.takes_subject hc)).2]
    exact hplaced.takes c hc
  · have hnew : task.new ∈ task.subject := by simp [Task.subject, hproduces]
    rw [(hsubject _ hnew).2]
    exact hplaced.new hproduces

/-! ### The operations of a call -/

omit [Fintype κ] [DecidableEq Dentry] in
/-- The running programs after a change of one of them. -/
theorem map_rest_update (running : κ → Option (Task Inode Dentry)) (k : κ)
    (task : Option (Task Inode Dentry)) :
    (fun other ↦ (Function.update running k task other).map Task.rest) =
      Function.update (fun other ↦ (running other).map Task.rest) k (task.map Task.rest) := by
  funext other
  by_cases hne : other = k
  · rw [hne, Function.update_self, Function.update_self]
  · rw [Function.update_of_ne hne, Function.update_of_ne hne]

namespace Tracks

variable {vfs : Vfs Inode Dentry} {s : Kernel κ Inode Dentry} {processes : Processes ℕ Inode}
  {view : κ → ℕ → Option KernelBlock}
  {post : κ → Except Fault Reply → Owned KernelBlock Dentry → Prop}
  {owner : ℕ → Option κ} {held : κ → Dentry → ℕ} {leaked : Finset ℕ}

/-- A call that has not ended takes its next operation, and the processes do not see it. -/
theorem step (htracks : Tracks vfs s processes view post owner held leaked) {k : κ}
    {task : Task Inode Dentry} (hk : s.running k = some task) (hgoing : task.rest.outcome = none) :
    ∃ later, nextKernel vfs s (.step k) = some later ∧ later.answers = s.answers ∧
      Simulates vfs later processes := by
  have hprogram : (s.running k).map Task.rest = some task.rest := by rw [hk, Option.map_some]
  obtain ⟨rest, heap, hstep, owners, holdings, hdivided, hcommon, hfresh⟩ :=
    htracks.divided.step (k := k) hprogram hgoing
  refine ⟨{ s with
    heap := heap
    running := Function.update s.running k (some { task with rest := rest }) },
    by simp only [nextKernel, hk, hstep, Option.map_some], rfl, ?_⟩
  have hrunning : ∀ other rival, Function.update s.running k (some { task with rest := rest })
      other = some rival → ∃ before, s.running other = some before ∧ rival.call = before.call ∧
        rival.new = before.new := by
    intro other rival hother
    by_cases hne : other = k
    · rw [hne, Function.update_self] at hother
      obtain rfl := Option.some.inj hother
      exact ⟨task, hne ▸ hk, rfl, rfl⟩
    · rw [Function.update_of_ne hne] at hother
      exact ⟨rival, hother, rfl, rfl⟩
  have hsubject : ∀ {rival before : Task Inode Dentry}, rival.call = before.call →
      rival.new = before.new → rival.subject = before.subject := by
    intro rival before hcall hnew
    simp only [Task.subject, hcall, hnew]
  refine ⟨view, post, owners, holdings, leaked, ⟨?_, ?_, fun other rival hother ↦ ?_,
    fun first second one two c hone htwo hc hc' ↦ ?_, fun c hc ↦ ?_, htracks.executed,
    htracks.checks⟩⟩
  · dsimp only
    rw [map_rest_update]
    exact hdivided
  · dsimp only
    rw [hcommon]
    exact htracks.memory
  · obtain ⟨before, hbefore, hcall, hnew⟩ := hrunning other rival hother
    obtain ⟨cred, hpost, hplaced⟩ := htracks.placed other before hbefore
    dsimp only
    rw [hcommon]
    refine ⟨cred, by rw [hpost, hcall, hnew], ⟨?_, ?_, ?_, ?_, ?_⟩⟩
    · rw [hcall]
      exact hplaced.reads
    · rw [hcall]
      exact hplaced.view
    · rw [hsubject hcall hnew]
      exact fun c hc ↦ ⟨(hplaced.subject c hc).1, (hplaced.subject c hc).2.trans_le hfresh⟩
    · rw [hcall]
      exact hplaced.takes
    · rw [hcall, hnew]
      exact hplaced.new
  · obtain ⟨before, hbefore, hcall, hnew⟩ := hrunning first one hone
    obtain ⟨before', hbefore', hcall', hnew'⟩ := hrunning second two htwo
    rw [hsubject hcall hnew] at hc
    rw [hsubject hcall' hnew'] at hc'
    exact htracks.apart first second before before' c hbefore hbefore' hc hc'
  · exact htracks.unborn c (hfresh.trans hc)

/-! ### The start of a call -/

/-- A call starts. Assumes: how the heap is divided when what the call takes is common, that nobody
may read that, and that the call then begins with what it needs. -/
theorem launch (htracks : Tracks vfs s processes view post owner held leaked) {k : κ}
    {call : HookCall Inode} (hidle : s.running k = none) {owners : ℕ → Option κ}
    {common : ℕ → Option KernelBlock} {taken : Finset ℕ} {cred : Cred}
    {sees : ℕ → Option KernelBlock}
    (hdivided : Divided (s.begin vfs k call).heap (fun other ↦ (s.running other).map Task.rest)
      view post owners held)
    (hcommon : (s.begin vfs k call).heap.part owners none = common)
    (hfresh : s.heap.fresh ≤ (s.begin vfs k call).heap.fresh)
    (huntaken : ∀ other, s.running other ≠ none → ∀ a ∈ taken, view other a = none)
    (hsees : ∀ a content, sees a = some content → a ∉ taken ∧ common a = some content)
    (hbegins : call.Begins s.heap.fresh cred sees
      (⟨fun a ↦ if a ∈ taken then common a else none, fun _ ↦ 0⟩ : Owned KernelBlock Dentry))
    (hmemory : KernelMemory (fun a ↦ if a ∈ taken then none else common a)
      (s.begin vfs k call).creds processes.credentials.slots leaked)
    (hothers : ∀ other task, s.running other = some task → ∀ c ∈ task.call.reads,
      (s.begin vfs k call).creds c = s.creds c ∧
        (if c ∈ taken then none else common c) = s.heap.part owner none c)
    (hplaced : Placed (s.begin vfs k call).creds processes.credentials.slots
      (s.begin vfs k call).heap.fresh (fun a ↦ if a ∈ taken then none else common a)
      (⟨call, s.heap.fresh, call.program vfs s.heap.fresh⟩ : Task Inode Dentry) cred sees)
    (hapart : ∀ other task c, s.running other = some task → c ∈ task.subject →
      c ∉ (⟨call, s.heap.fresh, call.program vfs s.heap.fresh⟩ : Task Inode Dentry).subject) :
    Simulates vfs (s.begin vfs k call) processes := by
  have hprogram : (s.running k).map Task.rest = none := by rw [hidle, Option.map_none]
  have hensures : (call.program vfs s.heap.fresh).Ensures sees (call.Ends vfs s.heap.fresh cred)
      (⟨fun a ↦ if a ∈ taken then common a else none, fun _ ↦ 0⟩ : Owned KernelBlock Dentry) :=
    HookCall.ensures_program hbegins rfl
  obtain ⟨ownersAfter, hdividedAfter, hcommonAfter⟩ :=
    hdivided.start (k := k) hprogram taken
      (fun other hother ↦ huntaken other fun hnone ↦ hother (by simp only [hnone, Option.map_none]))
      (fun a content ha ↦ by rw [hcommon]; exact hsees a content ha)
      (by rw [hcommon]; exact hensures)
  rw [hcommon] at hcommonAfter
  have hrunning : ∀ other task, (s.begin vfs k call).running other = some task →
      (other = k ∧ task = ⟨call, s.heap.fresh, call.program vfs s.heap.fresh⟩) ∨
        (other ≠ k ∧ s.running other = some task) := by
    intro other task hother
    change Function.update s.running k _ other = some task at hother
    by_cases hne : other = k
    · rw [hne, Function.update_self] at hother
      exact Or.inl ⟨hne, (Option.some.inj hother).symm⟩
    · rw [Function.update_of_ne hne] at hother
      exact Or.inr ⟨hne, hother⟩
  have hsubjects : ∀ other task, s.running other = some task → ∀ c ∈ task.subject,
      (s.begin vfs k call).creds c = s.creds c := by
    intro other task hother c hc
    obtain ⟨cred, -, hother⟩ := htracks.placed other task hother
    have hnone := (hother.subject c hc).1
    change call.takes.elim s.creds (fun taken ↦ Function.update s.creds taken none) c = s.creds c
    cases call.takes with
    | none => rfl
    | some taken =>
      rw [Option.elim_some, hnone]
      by_cases hne : c = taken
      · rw [hne, Function.update_self]
      · rw [Function.update_of_ne hne, hnone]
  refine ⟨Function.update view k sees,
    Function.update post k (call.Ends vfs s.heap.fresh cred), ownersAfter, held, leaked,
    ⟨?_, ?_, fun other task hother ↦ ?_, fun first second one two c hone htwo hc hc' ↦ ?_,
      fun c hc ↦ htracks.unborn c (hfresh.trans hc), htracks.executed, htracks.checks⟩⟩
  · change Divided _ (fun other ↦ (Function.update s.running k _ other).map Task.rest) _ _ _ _
    rw [map_rest_update]
    exact hdividedAfter
  · rw [hcommonAfter]
    exact hmemory
  · rw [hcommonAfter]
    rcases hrunning other task hother with ⟨rfl, rfl⟩ | ⟨hne, hbefore⟩
    · rw [Function.update_self, Function.update_self]
      exact ⟨cred, rfl, hplaced⟩
    · rw [Function.update_of_ne hne, Function.update_of_ne hne]
      obtain ⟨before, hpost, hbeforePlaced⟩ := htracks.placed other task hbefore
      refine ⟨before, hpost, hbeforePlaced.keep hfresh (fun c hc ↦ ?_) fun c hc ↦ ?_⟩
      · obtain ⟨hcreds, hblock⟩ := hothers other task hbefore c hc
        exact ⟨hcreds, rfl, hblock⟩
      · exact ⟨hsubjects other task hbefore c hc, rfl⟩
  · rcases hrunning first one hone with ⟨rfl, rfl⟩ | ⟨-, hfirst⟩ <;>
      rcases hrunning second two htwo with ⟨rfl, rfl⟩ | ⟨-, hsecond⟩
    · rfl
    · exact absurd hc (hapart second two c hsecond hc')
    · exact absurd hc' (hapart first one c hfirst hc)
    · exact htracks.apart first second one two c hfirst hsecond hc hc'

/-- A credential of the kernel lies below the addresses that were never given out. -/
theorem lt_fresh (htracks : Tracks vfs s processes view post owner held leaked) {c : ℕ}
    (hc : s.creds c ≠ none) : c < s.heap.fresh := by
  obtain ⟨pointer, hpointer⟩ := htracks.memory.exists_pointer hc
  exact htracks.divided.wellFormed.lt_fresh (Heap.part_eq_some_iff.mp hpointer).2

/-- A credential that a running call has for itself was given out, and is not in use. -/
theorem subject_spec (htracks : Tracks vfs s processes view post owner held leaked) {other : κ}
    {task : Task Inode Dentry} (hother : s.running other = some task) {c : ℕ}
    (hc : c ∈ task.subject) : s.creds c = none ∧ c < s.heap.fresh := by
  obtain ⟨cred, -, hplaced⟩ := htracks.placed other task hother
  exact hplaced.subject c hc

/-- A credential that a running call reads is in use. -/
theorem reads_spec (htracks : Tracks vfs s processes view post owner held leaked) {other : κ}
    {task : Task Inode Dentry} (hother : s.running other = some task) {c : ℕ}
    (hc : c ∈ task.call.reads) : s.creds c = some .ready := by
  obtain ⟨cred, -, hplaced⟩ := htracks.placed other task hother
  exact (hplaced.reads c hc).1

/-- A running call does not see what lies outside the credential that it reads. -/
theorem view_eq_none (htracks : Tracks vfs s processes view post owner held leaked) {other : κ}
    {a : ℕ} (hother : s.running other ≠ none)
    (houtside : ∀ task, s.running other = some task → ∀ c ∈ task.call.reads,
      a ∉ footprint (s.heap.part owner none) c) : view other a = none := by
  obtain ⟨task, htask⟩ := Option.ne_none_iff_exists'.mp hother
  obtain ⟨cred, -, hplaced⟩ := htracks.placed other task htask
  by_contra hseen
  obtain ⟨content, hcontent⟩ := Option.ne_none_iff_exists'.mp hseen
  obtain ⟨c, hc, hmem⟩ := hplaced.view a content hcontent
  exact houtside task htask c hc hmem

/-- What belongs to a credential was given out. -/
theorem fresh_notMem_footprint (htracks : Tracks vfs s processes view post owner held leaked)
    {c : ℕ} (hc : s.creds c ≠ none) : s.heap.fresh ∉ footprint (s.heap.part owner none) c := by
  rw [mem_footprint]
  rintro (heq | hpointer)
  · exact absurd (htracks.lt_fresh hc) (heq ▸ lt_irrefl _)
  · obtain ⟨msec, hmsec⟩ := htracks.memory.security_of_pointer hpointer
    rw [htracks.divided.wellFormed.part_fresh] at hmsec
    cases hmsec

omit [DecidableEq κ] [Fintype κ] [DecidableEq Dentry] in
/-- A call for a new credential takes none. -/
theorem takes_of_produces {call : HookCall Inode} (hproduces : call.Produces) :
    call.takes = none := by
  cases call with
  | credAllocBlank _ => rfl
  | credPrepare _ _ => rfl
  | _ => exact hproduces.elim

/-- A call for a new credential starts. Assumes: with the new credential in its own memory, and with
what it sees, the call has what it needs. -/
theorem begin_produces (htracks : Tracks vfs s processes view post owner held leaked) {k : κ}
    {call : HookCall Inode} (hidle : s.running k = none) (hproduces : call.Produces) {cred : Cred}
    {sees : ℕ → Option KernelBlock}
    (hsees : ∀ a content, sees a = some content → s.heap.part owner none a = some content ∧
      ∃ c ∈ call.reads, a ∈ footprint (s.heap.part owner none) c)
    (hreads : ∀ c ∈ call.reads, s.creds c = some .ready ∧ ∃ credential,
      processes.credentials.slots c = some credential ∧ credential.freed = false ∧
        credential.cred = cred)
    (hbegins : ∀ own : Owned KernelBlock Dentry,
      own.blocks s.heap.fresh = some (.cred none) → OnlyCred own.blocks s.heap.fresh →
        call.Begins s.heap.fresh cred sees own) :
    Simulates vfs (s.begin vfs k call) processes := by
  have htakes := takes_of_produces hproduces
  have hheap : (s.begin vfs k call).heap = s.heap.alloc (.cred none) := if_pos hproduces
  have hcreds : (s.begin vfs k call).creds = s.creds := by
    simp only [Kernel.begin, htakes, Option.elim_none]
  have hempty := htracks.divided.wellFormed.part_fresh owner none
  let new : Finset ℕ := {s.heap.fresh}
  let more := Function.update (s.heap.part owner none) s.heap.fresh (some (.cred none))
  obtain ⟨owners, hdivided, hcommon⟩ := htracks.divided.alloc (.cred none)
  have hrest : (fun a ↦ if a ∈ new then none else more a) = s.heap.part owner none := by
    funext a
    by_cases ha : a = s.heap.fresh
    · rw [if_pos (Finset.mem_singleton.mpr ha), ha, hempty]
    · rw [if_neg (Finset.notMem_singleton.mpr ha)]
      exact Function.update_of_ne ha _ _
  have huntaken : ∀ other, s.running other ≠ none → ∀ a ∈ new, view other a = none := by
    intro other hother a ha
    rw [Finset.mem_singleton.mp ha]
    refine htracks.view_eq_none hother fun task htask c hc ↦ htracks.fresh_notMem_footprint ?_
    rw [htracks.reads_spec htask hc]
    exact Option.some_ne_none _
  have hseen : ∀ a content, sees a = some content → a ∉ new ∧ more a = some content := by
    intro a content ha
    have hcontent := (hsees a content ha).1
    have hne : a ≠ s.heap.fresh := by
      intro heq
      rw [heq, hempty] at hcontent
      cases hcontent
    exact ⟨Finset.notMem_singleton.mpr hne, (Function.update_of_ne hne _ _).trans hcontent⟩
  have hown : call.Begins s.heap.fresh cred sees
      (⟨fun a ↦ if a ∈ new then more a else none, fun _ ↦ 0⟩ : Owned KernelBlock Dentry) := by
    refine hbegins _ ?_ fun a content ha ↦ Or.inl ?_
    · exact (if_pos (Finset.mem_singleton_self _)).trans (Function.update_self ..)
    · dsimp only at ha
      split_ifs at ha with hmem
      exact Finset.mem_singleton.mp hmem
  have hsubject :
      (⟨call, s.heap.fresh, call.program vfs s.heap.fresh⟩ : Task Inode Dentry).subject =
        some s.heap.fresh := if_pos hproduces
  have hplaced : Placed (s.begin vfs k call).creds processes.credentials.slots
      (s.begin vfs k call).heap.fresh (fun a ↦ if a ∈ new then none else more a)
      (⟨call, s.heap.fresh, call.program vfs s.heap.fresh⟩ : Task Inode Dentry) cred sees := by
    rw [hrest, hcreds, hheap]
    refine ⟨hreads, fun a content ha ↦ (hsees a content ha).2, fun c hc ↦ ?_, fun c hc ↦ ?_,
      fun _ ↦ htracks.unborn _ le_rfl⟩
    · rw [hsubject, Option.mem_some_iff] at hc
      rw [← hc]
      refine ⟨?_, Nat.lt_succ_self _⟩
      by_contra hlive
      exact absurd (htracks.lt_fresh hlive) (lt_irrefl _)
    · rw [htakes] at hc
      cases hc
  refine htracks.launch hidle (by rw [hheap]; exact hdivided) (by rw [hheap]; exact hcommon)
    (by rw [hheap]; exact Nat.le_succ _) huntaken hseen hown ?_ (fun other task hother c hc ↦ ?_)
    hplaced fun other task c hother hc hnew ↦ ?_
  · rw [hcreds]
    rw [hrest]
    exact htracks.memory
  · rw [hcreds]
    exact ⟨rfl, congrFun hrest c⟩
  · rw [hsubject, Option.mem_some_iff] at hnew
    exact absurd (htracks.subject_spec hother hc).2 (hnew ▸ lt_irrefl _)

/-- A call that takes a credential starts. Assumes: the credential is one of the kernel, no running
call reads it, and with it the call has what it needs. -/
theorem begin_takes (htracks : Tracks vfs s processes view post owner held leaked) {k : κ}
    {call : HookCall Inode} (hidle : s.running k = none) {c : ℕ} (hc : call.takes = some c)
    (hnot : ¬ call.Produces) (hreads : call.reads = none) (hlive : s.creds c ≠ none) {cred : Cred}
    (hholds : HoldsCred (s.heap.part owner none) c cred)
    (hunread : ∀ other task, s.running other = some task → task.call.reads ≠ some c)
    (hslot : (∃ credential, processes.credentials.slots c = some credential ∧
      credential.freed = false ∧ credential.cred = cred) ∨
        (processes.credentials.slots c = none ∧ call = .credFree c))
    (hbegins : ∀ own : Owned KernelBlock Dentry, HoldsCred own.blocks c cred →
      OnlyCred own.blocks c → call.Begins s.heap.fresh cred (fun _ ↦ none) own) :
    Simulates vfs (s.begin vfs k call) processes := by
  have hheap : (s.begin vfs k call).heap = s.heap := if_neg hnot
  have hcreds : (s.begin vfs k call).creds = Function.update s.creds c none := by
    simp only [Kernel.begin, hc, Option.elim_some]
  let taken := footprint (s.heap.part owner none) c
  have hapart : ∀ other task, s.running other = some task → ∀ d ∈ task.call.reads, d ≠ c ∧
      ∀ a ∈ footprint (s.heap.part owner none) d, a ∉ taken := by
    intro other task hother d hd
    have hne : d ≠ c := by
      rintro rfl
      exact hunread other task hother hd
    have hready := htracks.reads_spec hother hd
    exact ⟨hne, fun a ha ↦ htracks.memory.notMem_footprint hlive (by simp [hready]) hne ha⟩
  have huntaken : ∀ other, s.running other ≠ none → ∀ a ∈ taken, view other a = none := by
    intro other hother a ha
    exact htracks.view_eq_none hother fun task htask d hd hmem ↦
      (hapart other task htask d hd).2 a hmem ha
  have hsubject :
      (⟨call, s.heap.fresh, call.program vfs s.heap.fresh⟩ : Task Inode Dentry).subject =
        some c := (if_neg hnot).trans hc
  have hown : call.Begins s.heap.fresh cred (fun _ ↦ none)
      (⟨fun a ↦ if a ∈ taken then s.heap.part owner none a else none, fun _ ↦ 0⟩ :
        Owned KernelBlock Dentry) := by
    obtain ⟨hwhole, honly⟩ := KernelMemory.taken hholds
    exact hbegins _ hwhole honly
  have hplaced : Placed (s.begin vfs k call).creds processes.credentials.slots
      (s.begin vfs k call).heap.fresh
      (fun a ↦ if a ∈ taken then none else s.heap.part owner none a)
      (⟨call, s.heap.fresh, call.program vfs s.heap.fresh⟩ : Task Inode Dentry) cred
      fun _ ↦ none := by
    rw [hcreds, hheap]
    refine ⟨fun d hd ↦ ?_, fun a content ha ↦ ?_, fun d hd ↦ ?_, fun d hd ↦ ?_, fun hproduces ↦
      absurd hproduces hnot⟩
    · rw [hreads] at hd
      cases hd
    · cases ha
    · rw [hsubject, Option.mem_some_iff] at hd
      rw [← hd, Function.update_self]
      exact ⟨rfl, htracks.lt_fresh hlive⟩
    · rw [hc, Option.mem_some_iff] at hd
      rw [← hd]
      exact hslot
  refine htracks.launch hidle (by rw [hheap]; exact htracks.divided) (by rw [hheap])
    (by rw [hheap]) huntaken (fun a content ha ↦ by cases ha) hown ?_
    (fun other task hother d hd ↦ ?_) hplaced fun other task d hother hd htaken ↦ ?_
  · rw [hcreds]
    exact htracks.memory.take hlive
  · obtain ⟨hne, hmem⟩ := hapart other task hother d hd
    rw [hcreds, Function.update_of_ne hne]
    exact ⟨rfl, if_neg (hmem d (mem_footprint.mpr (Or.inl rfl)))⟩
  · rw [hsubject, Option.mem_some_iff] at htaken
    exact hlive (htaken ▸ (htracks.subject_spec hother hd).1)

/-- A call that only reads a credential starts. Assumes: the credential is in use, and with it in
view the call has what it needs. -/
theorem begin_reads (htracks : Tracks vfs s processes view post owner held leaked) {k : κ}
    {call : HookCall Inode} (hidle : s.running k = none) {c : ℕ} (hc : call.reads = some c)
    (hnot : ¬ call.Produces) (htakes : call.takes = none) {credential : Credential}
    (hready : s.creds c = some .ready) (hslot : processes.credentials.slots c = some credential)
    (hfreed : credential.freed = false)
    (hbegins : ∀ sees, HoldsCred sees c credential.cred →
      call.Begins s.heap.fresh credential.cred sees
        (⟨fun _ ↦ none, fun _ ↦ 0⟩ : Owned KernelBlock Dentry))
    (hholds : HoldsCred (s.heap.part owner none) c credential.cred) :
    Simulates vfs (s.begin vfs k call) processes := by
  have hheap : (s.begin vfs k call).heap = s.heap := if_neg hnot
  have hcreds : (s.begin vfs k call).creds = s.creds := by
    simp only [Kernel.begin, htakes, Option.elim_none]
  have hrest : (fun a ↦ if a ∈ (∅ : Finset ℕ) then none else s.heap.part owner none a) =
      s.heap.part owner none := by
    funext a
    exact if_neg (Finset.notMem_empty a)
  let sees : ℕ → Option KernelBlock :=
    fun a ↦ if a ∈ footprint (s.heap.part owner none) c then s.heap.part owner none a else none
  have hseen : ∀ a content, sees a = some content →
      a ∈ footprint (s.heap.part owner none) c ∧ s.heap.part owner none a = some content := by
    intro a content ha
    dsimp only [sees] at ha
    split_ifs at ha with hmem
    exact ⟨hmem, ha⟩
  have hown : call.Begins s.heap.fresh credential.cred sees
      (⟨fun a ↦ if a ∈ (∅ : Finset ℕ) then s.heap.part owner none a else none, fun _ ↦ 0⟩ :
        Owned KernelBlock Dentry) := by
    simp only [Finset.notMem_empty, if_false]
    exact hbegins sees (KernelMemory.taken hholds).1
  have hsubject :
      (⟨call, s.heap.fresh, call.program vfs s.heap.fresh⟩ : Task Inode Dentry).subject =
        none := (if_neg hnot).trans htakes
  have hplaced : Placed (s.begin vfs k call).creds processes.credentials.slots
      (s.begin vfs k call).heap.fresh
      (fun a ↦ if a ∈ (∅ : Finset ℕ) then none else s.heap.part owner none a)
      (⟨call, s.heap.fresh, call.program vfs s.heap.fresh⟩ : Task Inode Dentry) credential.cred
      sees := by
    rw [hrest, hcreds, hheap]
    refine ⟨fun d hd ↦ ?_, fun a content ha ↦ ⟨c, hc, (hseen a content ha).1⟩, fun d hd ↦ ?_,
      fun d hd ↦ ?_, fun hproduces ↦ absurd hproduces hnot⟩
    · rw [hc, Option.mem_some_iff] at hd
      rw [← hd]
      exact ⟨hready, credential, hslot, hfreed, rfl⟩
    · rw [hsubject] at hd
      cases hd
    · rw [htakes] at hd
      cases hd
  refine htracks.launch hidle (by rw [hheap]; exact htracks.divided) (by rw [hheap])
    (by rw [hheap]) (fun _ _ a ha ↦ absurd ha (Finset.notMem_empty a))
    (fun a content ha ↦ ⟨Finset.notMem_empty a, (hseen a content ha).2⟩) hown ?_
    (fun other task hother d hd ↦ ?_) hplaced fun other task d hother hd htaken ↦ ?_
  · rw [hcreds, hrest]
    exact htracks.memory
  · rw [hcreds]
    exact ⟨rfl, congrFun hrest d⟩
  · rw [hsubject] at htaken
    cases htaken

/-- A call that the kernel allows starts, and the processes do not see it. -/
theorem begin (htracks : Tracks vfs s processes view post owner held leaked) {k : κ}
    {call : HookCall Inode} (hidle : s.running k = none) (hallows : s.Allows call) :
    Simulates vfs (s.begin vfs k call) processes := by
  have hunread : ∀ c, call.takes = some c → ∀ other task, s.running other = some task →
      task.call.reads ≠ some c :=
    fun c hc other task hother ↦ (hallows.2 c hc).2 other task hother
  cases call with
  | credAllocBlank block =>
    have hsees : ∀ a content, (fun _ : ℕ ↦ (none : Option KernelBlock)) a = some content →
        s.heap.part owner none a = some content ∧ ∃ c ∈
          (HookCall.credAllocBlank block : HookCall Inode).reads,
            a ∈ footprint (s.heap.part owner none) c := by
      intro a content ha
      cases ha
    have hreads : ∀ c ∈ (HookCall.credAllocBlank block : HookCall Inode).reads,
        s.creds c = some .ready ∧ ∃ credential, processes.credentials.slots c = some credential ∧
          credential.freed = false ∧ credential.cred = ⟨none⟩ := by
      intro c hc
      cases hc
    exact htracks.begin_produces hidle trivial hsees hreads fun own hnew honly ↦ ⟨hnew, honly⟩
  | credPrepare old block =>
    have hready : s.creds old = some .ready := hallows.1 old rfl
    obtain ⟨credential, hslot, hfreed, hholds⟩ := htracks.memory.ready old hready
    let sees : ℕ → Option KernelBlock := fun a ↦
      if a ∈ footprint (s.heap.part owner none) old then s.heap.part owner none a else none
    have hsees : ∀ a content, sees a = some content → s.heap.part owner none a = some content ∧
        ∃ c ∈ (HookCall.credPrepare old block : HookCall Inode).reads,
          a ∈ footprint (s.heap.part owner none) c := by
      intro a content ha
      dsimp only [sees] at ha
      split_ifs at ha with hmem
      exact ⟨ha, old, rfl, hmem⟩
    have hreads : ∀ c ∈ (HookCall.credPrepare old block : HookCall Inode).reads,
        s.creds c = some .ready ∧ ∃ other, processes.credentials.slots c = some other ∧
          other.freed = false ∧ other.cred = credential.cred := by
      intro c hc
      obtain rfl : old = c := Option.some.inj hc
      exact ⟨hready, credential, hslot, hfreed, rfl⟩
    exact htracks.begin_produces hidle trivial hsees hreads fun own hnew honly ↦
      ⟨hnew, honly, (KernelMemory.taken hholds).1⟩
  | credFree c =>
    have hlive : s.creds c ≠ none := (hallows.2 c rfl).1
    obtain ⟨status, hstatus⟩ := Option.ne_none_iff_exists'.mp hlive
    cases status with
    | ready =>
      obtain ⟨credential, hslot, hfreed, hholds⟩ := htracks.memory.ready c hstatus
      exact htracks.begin_takes hidle rfl not_false rfl hlive hholds (hunread c rfl)
        (Or.inl ⟨credential, hslot, hfreed, rfl⟩) fun own hown honly ↦ ⟨hown, honly⟩
    | failed =>
      obtain ⟨hslot, hholds⟩ := htracks.memory.failed c hstatus
      exact htracks.begin_takes hidle rfl not_false rfl hlive hholds (hunread c rfl)
        (Or.inr ⟨hslot, rfl⟩) fun own hown honly ↦ ⟨hown, honly⟩
  | bprmSetCreds c inode val =>
    have hready : s.creds c = some .ready := (hallows.2 c rfl).1
    obtain ⟨credential, hslot, hfreed, hholds⟩ := htracks.memory.ready c hready
    exact htracks.begin_takes hidle rfl not_false rfl (by simp [hready]) hholds (hunread c rfl)
      (Or.inl ⟨credential, hslot, hfreed, rfl⟩) fun own hown honly ↦ ⟨hown, honly⟩
  | inodePermission c inode mask buf val ratelimit =>
    have hready : s.creds c = some .ready := hallows.1 c rfl
    obtain ⟨credential, hslot, hfreed, hholds⟩ := htracks.memory.ready c hready
    exact htracks.begin_reads hidle rfl not_false rfl hready hslot hfreed
      (fun sees hsees ↦ ⟨rfl, hsees⟩) hholds
  | inodeInitSecurity c inode wanted succeeds =>
    have hready : s.creds c = some .ready := hallows.1 c rfl
    obtain ⟨credential, hslot, hfreed, hholds⟩ := htracks.memory.ready c hready
    exact htracks.begin_reads hidle rfl not_false rfl hready hslot hfreed
      (fun sees hsees ↦ ⟨rfl, hsees⟩) hholds

end Tracks

end KernelModules.AccessControl

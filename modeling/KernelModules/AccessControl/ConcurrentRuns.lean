import KernelModules.AccessControl.HookRefinement

/-!
# Runs of concurrent hooks

What a call does when it finishes, and what follows for whole runs: in every reachable state of the
kernel the processes stand behind it (`accounts_of_reachable`), whatever the order in which the
calls take their operations.

So no call accesses memory that it should not, frees twice or drops a reference that it does not
hold (`neverMisuses_of_reachable`). When no call runs, the live memory is that of the credentials,
and one buffer for each check by `mp4_inode_permission` (`memoryAccounted_of_reachable`). Every
answer is the one that the hook gives at once, on the processes of some moment
(`actsAtOnce_of_reachable`).
-/

set_option autoImplicit false
set_option relaxedAutoImplicit false

namespace KernelModules.AccessControl

open Foundation

variable {κ Inode Dentry : Type} [DecidableEq κ] [Fintype κ] [DecidableEq Dentry]

/-! ### What the processes do for a call -/

/-- A step of the processes for a call. An execution whose buffer could not be allocated comes to
its end only where no attribute is read. -/
def HookCall.Steps (vfs : Vfs Inode Dentry) (new : ℕ) (call : HookCall Inode)
    (label : ProcessLabel ℕ Inode) : Prop :=
  match call with
  | .credAllocBlank block => label = .call (.allocBlank new block.isSome)
  | .credPrepare old block => label = .call (.prepare new old block.isSome)
  | .credFree c => label = .call (.free c)
  | .bprmSetCreds c inode val => ∃ mem, label = .exec c inode mem ∧
      (val = some mem ∨
        (val = none ∧ (vfs.dFindAlias inode = none ∨ vfs.getxattr inode = none)))
  | .inodePermission _ _ _ _ _ _ => False
  | .inodeInitSecurity _ _ _ _ => False

/-- What a hook that only reads answers at once, for a credential. -/
def HookCall.answer (vfs : Vfs Inode Dentry) (cred : Cred) :
    HookCall Inode → Option (Except Fault Reply)
  | .inodePermission _ inode mask buf val _ => some
      ((mp4InodePermission vfs cred.security inode mask buf.isSome val).map .verdict)
  | .inodeInitSecurity _ inode wanted succeeds => some
      ((mp4InodeInitSecurity vfs cred.security inode wanted succeeds ⟨none, none, 0⟩).map
        fun answer ↦ .xattr answer.1 answer.2)
  | _ => none

/-- The answer is the one that the hook gives at once, for a credential of the processes that is in
use and has the history of the answer. -/
def Justifies (vfs : Vfs Inode Dentry) (processes : Processes ℕ Inode) (answer : Answer Inode) :
    Prop :=
  ∃ c ∈ answer.call.reads, ∃ credential, processes.credentials.slots c = some credential ∧
    credential.freed = false ∧ processes.executed c = answer.executed ∧
      answer.call.answer vfs credential.cred = some (.ok answer.reply)

/-! ### The end of a call -/

namespace Tracks

variable {vfs : Vfs Inode Dentry} {s : Kernel κ Inode Dentry} {processes : Processes ℕ Inode}
  {view : κ → ℕ → Option KernelBlock}
  {post : κ → Except Fault Reply → Owned KernelBlock Dentry → Prop}
  {owner : ℕ → Option κ} {held : κ → Dentry → ℕ} {leaked : Finset ℕ}

/-- A call that has ended has ended as it should. -/
theorem ends (htracks : Tracks vfs s processes view post owner held leaked) {k : κ}
    {task : Task Inode Dentry} (hk : s.running k = some task) {result : Except Fault Reply}
    (houtcome : task.rest.outcome = some result) :
    ∃ cred, Placed s.creds processes.credentials.slots s.heap.fresh (s.heap.part owner none) task
      cred (view k) ∧
        task.call.Ends vfs task.new cred result ⟨s.heap.part owner (some k), held k⟩ := by
  obtain ⟨cred, hpost, hplaced⟩ := htracks.placed k task hk
  have hensures := htracks.divided.running k task.rest (by rw [hk, Option.map_some])
  rw [hpost] at hensures
  exact ⟨cred, hplaced, hensures.post_of_outcome houtcome⟩

omit [Fintype κ] [DecidableEq Dentry] in
/-- What belongs to a call is not common. -/
theorem disjoint (s : Kernel κ Inode Dentry) (owner : ℕ → Option κ) (k : κ) (a : ℕ)
    (content : KernelBlock) (ha : s.heap.part owner (some k) a = some content) :
    s.heap.part owner none a = none :=
  Heap.part_eq_none_of_ne ha (Option.some_ne_none k)

/-- A call finishes. Assumes: it holds no references, its blocks fit into the common memory, and
nothing has changed for credentials other than the one that it has for itself. -/
theorem settle (htracks : Tracks vfs s processes view post owner held leaked) {k : κ}
    {task : Task Inode Dentry} (hk : s.running k = some task) (hheld : held k = fun _ ↦ 0)
    {later : Kernel κ Inode Dentry} {after : Processes ℕ Inode} {leaks : Finset ℕ}
    (hheap : later.heap = s.heap) (hrunning : later.running = Function.update s.running k none)
    (hmemory : KernelMemory
      (fun a ↦ (s.heap.part owner none a).or (s.heap.part owner (some k) a)) later.creds
        after.credentials.slots leaks)
    (hothers : ∀ c, c ∉ task.subject → later.creds c = s.creds c ∧
      after.credentials.slots c = processes.credentials.slots c)
    (hexecuted : later.executed = after.executed) (hchecks : leaks.card = later.checks) :
    Simulates vfs later after := by
  obtain ⟨owners, hdivided, hcommon⟩ := htracks.divided.stop (k := k) hheld
  have hrun : ∀ other rival, later.running other = some rival →
      other ≠ k ∧ s.running other = some rival := by
    intro other rival hother
    rw [hrunning] at hother
    by_cases hne : other = k
    · rw [hne, Function.update_self] at hother
      cases hother
    · rw [Function.update_of_ne hne] at hother
      exact ⟨hne, hother⟩
  refine ⟨view, post, owners, held, leaks, ⟨?_, ?_, fun other rival hother ↦ ?_,
    fun first second one two c hone htwo hc hc' ↦ ?_, fun c hc ↦ ?_, hexecuted, hchecks⟩⟩
  · rw [hheap, hrunning, map_rest_update]
    exact hdivided
  · rw [hheap, hcommon]
    exact hmemory
  · obtain ⟨hne, hbefore⟩ := hrun other rival hother
    obtain ⟨cred, hpost, hplaced⟩ := htracks.placed other rival hbefore
    rw [hheap, hcommon]
    refine ⟨cred, hpost, hplaced.keep le_rfl (fun c hc ↦ ?_) fun c hc ↦ hothers c fun hmine ↦ ?_⟩
    · have hready := htracks.reads_spec hbefore hc
      have hnot : c ∉ task.subject := by
        intro hmine
        rw [(htracks.subject_spec hk hmine).1] at hready
        cases hready
      have hlive : s.creds c ≠ none := by simp [hready]
      obtain ⟨pointer, hpointer⟩ := htracks.memory.exists_pointer hlive
      refine ⟨(hothers c hnot).1, (hothers c hnot).2, ?_⟩
      rw [hpointer, Option.some_or]
    · exact hne (htracks.apart other k rival task c hbefore hk hc hmine)
  · exact htracks.apart first second one two c (hrun first one hone).2 (hrun second two htwo).2 hc
      hc'
  · rw [hheap] at hc
    have hnot : c ∉ task.subject := fun hmine ↦
      absurd (htracks.subject_spec hk hmine).2 (not_lt.mpr hc)
    rw [(hothers c hnot).2]
    exact htracks.unborn c hc

/-- A call gives a credential back when it finishes. Assumes: its memory is that of the credential,
and the processes have the credential with its label, or not at all when its production failed. -/
theorem settle_cred (htracks : Tracks vfs s processes view post owner held leaked) {k : κ}
    {task : Task Inode Dentry} (hk : s.running k = some task) (hheld : held k = fun _ ↦ 0)
    {later : Kernel κ Inode Dentry} {after : Processes ℕ Inode} {c : ℕ} {cred : Cred}
    {status : CredStatus} (hsubject : task.subject = some c) (hheap : later.heap = s.heap)
    (hrunning : later.running = Function.update s.running k none)
    (hcreds : later.creds = Function.update s.creds c (some status))
    (hholds : HoldsCred (s.heap.part owner (some k)) c cred)
    (honly : OnlyCred (s.heap.part owner (some k)) c)
    (hafter : ∀ other, other ≠ c →
      after.credentials.slots other = processes.credentials.slots other)
    (hready : status = .ready → ∃ credential, after.credentials.slots c = some credential ∧
      credential.freed = false ∧ credential.cred = cred)
    (hfailed : status = .failed → after.credentials.slots c = none ∧ cred = ⟨none⟩)
    (hexecuted : later.executed = after.executed) (hchecks : later.checks = s.checks) :
    Simulates vfs later after := by
  refine htracks.settle hk hheld hheap hrunning ?_ (fun other hother ↦ ?_) hexecuted
    (hchecks ▸ htracks.checks)
  · rw [hcreds]
    exact htracks.memory.give hholds honly (disjoint s owner k) hafter hready hfailed
  · have hne : other ≠ c := by
      rintro rfl
      exact hother hsubject
    rw [hcreds, Function.update_of_ne hne]
    exact ⟨rfl, hafter other hne⟩

/-- A call leaves nothing when it finishes. Assumes: it has no memory left, and nothing has changed
for credentials other than the one that it has for itself, which is no longer in use. -/
theorem settle_empty (htracks : Tracks vfs s processes view post owner held leaked) {k : κ}
    {task : Task Inode Dentry} (hk : s.running k = some task) (hheld : held k = fun _ ↦ 0)
    (hempty : s.heap.part owner (some k) = fun _ ↦ none) {later : Kernel κ Inode Dentry}
    {after : Processes ℕ Inode} (hheap : later.heap = s.heap)
    (hrunning : later.running = Function.update s.running k none) (hcreds : later.creds = s.creds)
    (hafter : ∀ c, c ∉ task.subject →
      after.credentials.slots c = processes.credentials.slots c)
    (hexecuted : later.executed = after.executed) (hchecks : later.checks = s.checks) :
    Simulates vfs later after := by
  refine htracks.settle hk hheld hheap hrunning ?_ (fun c hc ↦ ⟨by rw [hcreds], hafter c hc⟩)
    hexecuted (hchecks ▸ htracks.checks)
  have hcommon : (fun a ↦ (s.heap.part owner none a).or (s.heap.part owner (some k) a)) =
      s.heap.part owner none := by
    funext a
    rw [hempty, Option.or_none]
  rw [hcommon, hcreds]
  have hsame : ∀ c, s.creds c ≠ none →
      after.credentials.slots c = processes.credentials.slots c := by
    intro c hc
    exact hafter c fun hmine ↦ hc (htracks.subject_spec hk hmine).1
  refine { htracks.memory with ready := fun c hc ↦ ?_, failed := fun c hc ↦ ?_ }
  · rw [hsame c (by simp [hc])]
    exact htracks.memory.ready c hc
  · rw [hsame c (by simp [hc])]
    exact htracks.memory.failed c hc

/-- A call for a new credential finishes, and the processes produce it. Assumes: a production that
fails leaves the credential without a structure. -/
theorem finish_produces (htracks : Tracks vfs s processes view post owner held leaked) {k : κ}
    {task : Task Inode Dentry} (hk : s.running k = some task) (hproduces : task.call.Produces)
    (hnew : processes.credentials.slots task.new = none) {result : ℤ × Cred} (label : ℤ)
    (hfail : result.1 ≠ 0 → result.2 = ⟨none⟩) {r : Except Fault ℤ}
    (hgives : GivesCred task.new (.ok result) r ⟨s.heap.part owner (some k), held k⟩)
    {later : Kernel κ Inode Dentry} {executed : ℕ → List Inode} (hheap : later.heap = s.heap)
    (hrunning : later.running = Function.update s.running k none)
    (hcreds : later.creds =
      Function.update s.creds task.new (some (CredStatus.ofReturned result.1)))
    (hexecuted : later.executed = executed) (hchecks : later.checks = s.checks) :
    Simulates vfs later ⟨processes.credentials.produce task.new label result, executed⟩ := by
  obtain ⟨-, hheld, hholds, honly⟩ := hgives
  have hsubject : task.subject = some task.new := if_pos hproduces
  refine htracks.settle_cred hk hheld hsubject hheap hrunning hcreds hholds honly
    (fun other hother ↦ ?_) (fun hready ↦ ?_) (fun hfailed ↦ ?_) hexecuted hchecks
  · change (if result.1 = 0 then _ else processes.credentials.slots) other = _
    split_ifs
    · exact Function.update_of_ne hother _ _
    · rfl
  · have hzero : result.1 = 0 := by
      by_contra hne
      rw [CredStatus.ofReturned, if_neg hne] at hready
      cases hready
    refine ⟨⟨result.2, some label, false⟩, ?_, rfl, rfl⟩
    change (if result.1 = 0 then _ else processes.credentials.slots) task.new = _
    rw [if_pos hzero, Function.update_self]
  · have hne : result.1 ≠ 0 := by
      intro hzero
      rw [CredStatus.ofReturned, if_pos hzero] at hfailed
      cases hfailed
    refine ⟨?_, hfail hne⟩
    change (if result.1 = 0 then _ else processes.credentials.slots) task.new = _
    rw [if_neg hne, hnew]

/-- What a call leads to when it finishes: the processes stay as they are or take a step for the
call, and a new answer is the one that the hook gives at once. -/
def Finishes (vfs : Vfs Inode Dentry) (s : Kernel κ Inode Dentry) (processes : Processes ℕ Inode)
    (task : Task Inode Dentry) (later : Kernel κ Inode Dentry) : Prop :=
  ∃ after, Simulates vfs later after ∧
    (after = processes ∨ ∃ label, task.call.Steps vfs task.new label ∧
      nextProcesses vfs processes label = some after) ∧
    ∀ answer ∈ later.answers, answer ∈ s.answers ∨
      (answer.call = task.call ∧ Justifies vfs processes answer)

omit [DecidableEq Dentry] in
/-- An execution without a buffer that comes to its end reads no attribute. -/
theorem mp4BprmSetCreds_of_none {cred : Cred} {inode : Inode} {answer : ℤ × Cred}
    (hok : mp4BprmSetCreds vfs cred inode none = .ok answer) :
    (vfs.dFindAlias inode = none ∨ vfs.getxattr inode = none) ∧
      ∀ mem, mp4BprmSetCreds vfs cred inode (some mem) = .ok answer := by
  cases halias : vfs.dFindAlias inode with
  | none =>
    refine ⟨Or.inl rfl, fun mem ↦ ?_⟩
    rw [← hok]
    simp only [mp4BprmSetCreds, getInodeSid, halias]
  | some dentry =>
    cases hget : vfs.getxattr inode with
    | none =>
      refine ⟨Or.inr rfl, fun mem ↦ ?_⟩
      rw [← hok]
      simp only [mp4BprmSetCreds, getInodeSid, halias, hget]
    | some getxattr =>
      simp only [mp4BprmSetCreds, getInodeSid, halias, hget] at hok
      cases hok

/-- A call of `mp4_cred_alloc_blank` or `mp4_cred_prepare` finishes. -/
theorem finish_produced (htracks : Tracks vfs s processes view post owner held leaked) {k : κ}
    {task : Task Inode Dentry} (hk : s.running k = some task) {reply : Reply}
    (houtcome : task.rest.outcome = some (.ok reply)) (hproduces : task.call.Produces) :
    Finishes vfs s processes task
      { s.receive task.new task.call reply with running := Function.update s.running k none } := by
  obtain ⟨cred, hplaced, hends⟩ := htracks.ends hk houtcome
  obtain ⟨call, new, rest⟩ := task
  have hslot : processes.credentials.slots new = none := hplaced.new hproduces
  cases call with
  | credAllocBlank block =>
    obtain ⟨r, hreply, hgives⟩ := hends
    rw [hgives.1] at hreply
    obtain rfl := Except.ok.inj hreply
    have hfail : (mp4CredAllocBlank ⟨none⟩ block.isSome).1 ≠ 0 →
        (mp4CredAllocBlank ⟨none⟩ block.isSome).2 = ⟨none⟩ := by
      cases block with
      | none => exact fun _ ↦ rfl
      | some content => exact fun hne ↦ absurd rfl hne
    have hexecuted : executedAfter s.executed (.allocBlank new block.isSome) =
        executedAfter processes.executed (.allocBlank new block.isSome) := by
      rw [htracks.executed]
    refine ⟨_, htracks.finish_produces hk hproduces hslot mp4NoAccess hfail hgives rfl rfl rfl
      hexecuted rfl, Or.inr ⟨_, rfl, ?_⟩,
      fun answer hanswer ↦ Or.inl hanswer⟩
    simp only [nextProcesses, nextCredentials, hslot, Option.map_some]
  | credPrepare old block =>
    obtain ⟨r, hreply, hgives⟩ := hends
    rw [hgives.1] at hreply
    obtain rfl := Except.ok.inj hreply
    obtain ⟨-, credential, hold, hfreed, rfl⟩ := hplaced.reads old rfl
    have hfail : (mp4CredPrepare ⟨none⟩ credential.cred block.isSome).1 ≠ 0 →
        (mp4CredPrepare ⟨none⟩ credential.cred block.isSome).2 = ⟨none⟩ := by
      unfold mp4CredPrepare
      cases credential.cred.security with
      | none => exact fun hne ↦ absurd rfl hne
      | some msec =>
        cases block with
        | none => exact fun _ ↦ rfl
        | some content => exact fun hne ↦ absurd rfl hne
    have hexecuted : executedAfter s.executed (.prepare new old block.isSome) =
        executedAfter processes.executed (.prepare new old block.isSome) := by
      rw [htracks.executed]
    refine ⟨_, htracks.finish_produces hk hproduces hslot credential.cred.labelOf hfail hgives rfl
      rfl rfl hexecuted rfl, Or.inr ⟨_, rfl, ?_⟩,
      fun answer hanswer ↦ Or.inl hanswer⟩
    simp only [nextProcesses, nextCredentials, hslot, hold, hfreed, Bool.false_eq_true, if_false,
      Option.map_some]
  | _ => exact hproduces.elim

/-- A call of `mp4_cred_free` finishes. -/
theorem finish_free (htracks : Tracks vfs s processes view post owner held leaked) {k : κ}
    {c new : ℕ} {rest : HookProgram Dentry Reply} (hk : s.running k = some ⟨.credFree c, new, rest⟩)
    {reply : Reply} (houtcome : rest.outcome = some (.ok reply)) :
    Finishes vfs s processes ⟨.credFree c, new, rest⟩
      { s.receive new (.credFree c) reply with running := Function.update s.running k none } := by
  obtain ⟨cred, hplaced, -, hheld, hempty⟩ := htracks.ends hk houtcome
  rcases hplaced.takes c rfl with ⟨credential, hslot, hfreed, -⟩ | ⟨hslot, -⟩
  · refine ⟨⟨{ processes.credentials with
      slots := Function.update processes.credentials.slots c
        (some { credential with cred := mp4CredFree credential.cred, freed := true }) },
      processes.executed⟩, htracks.settle_empty hk hheld hempty rfl rfl rfl (fun other hother ↦ ?_)
        htracks.executed rfl, Or.inr ⟨.call (.free c), rfl, ?_⟩,
      fun answer hanswer ↦ Or.inl hanswer⟩
    · have hne : other ≠ c := by
        rintro rfl
        exact hother rfl
      exact Function.update_of_ne hne _ _
    · simp only [nextProcesses, nextCredentials, hslot, hfreed, Bool.false_eq_true, if_false,
        Option.map_some]
      rfl
  · exact ⟨processes, htracks.settle_empty hk hheld hempty rfl rfl rfl (fun _ _ ↦ rfl)
      htracks.executed rfl, Or.inl rfl, fun answer hanswer ↦ Or.inl hanswer⟩

/-- A call of `mp4_bprm_set_creds` finishes. -/
theorem finish_exec (htracks : Tracks vfs s processes view post owner held leaked) {k : κ}
    {c new : ℕ} {inode : Inode} {val : Option Memory} {rest : HookProgram Dentry Reply}
    (hk : s.running k = some ⟨.bprmSetCreds c inode val, new, rest⟩) {reply : Reply}
    (houtcome : rest.outcome = some (.ok reply)) :
    Finishes vfs s processes ⟨.bprmSetCreds c inode val, new, rest⟩
      { s.receive new (.bprmSetCreds c inode val) reply with
        running := Function.update s.running k none } := by
  obtain ⟨cred, hplaced, r, hreply, hgives⟩ := htracks.ends hk houtcome
  obtain ⟨credential, hslot, hfreed, rfl⟩ := (hplaced.takes c rfl).resolve_right fun hfree ↦ by
    cases hfree.2
  cases hexpected : mp4BprmSetCreds vfs credential.cred inode val with
  | error fault =>
    rw [hexpected] at hgives
    rw [show r = .error fault from hgives] at hreply
    cases hreply
  | ok answer =>
    rw [hexpected] at hgives
    obtain ⟨-, hheld, hholds, honly⟩ := hgives
    obtain ⟨mem, hval, hmem⟩ : ∃ mem, (val = some mem ∨
        (val = none ∧ (vfs.dFindAlias inode = none ∨ vfs.getxattr inode = none))) ∧
          mp4BprmSetCreds vfs credential.cred inode (some mem) = .ok answer := by
      cases val with
      | none =>
        obtain ⟨hunread, hsame⟩ := mp4BprmSetCreds_of_none hexpected
        exact ⟨fun _ ↦ 0, Or.inr ⟨rfl, hunread⟩, hsame _⟩
      | some mem => exact ⟨mem, Or.inl rfl, hexpected⟩
    refine ⟨⟨{ processes.credentials with
      slots := Function.update processes.credentials.slots c
        (some { credential with cred := answer.2 }) },
      Function.update processes.executed c (processes.executed c ++ [inode])⟩,
      htracks.settle_cred hk hheld rfl rfl rfl rfl hholds honly
        (fun other hother ↦ Function.update_of_ne hother _ _)
        (fun _ ↦ ⟨_, Function.update_self .., hfreed, rfl⟩) (fun hfailed ↦ by cases hfailed) ?_ rfl,
      Or.inr ⟨.exec c inode mem, ⟨mem, rfl, hval⟩, ?_⟩, fun other hother ↦ Or.inl hother⟩
    · dsimp only [Kernel.receive]
      rw [htracks.executed]
    · simp only [nextProcesses, hslot, hfreed, Bool.false_eq_true, if_false, hmem]

/-- A call of `mp4_inode_permission` finishes. -/
theorem finish_permission (htracks : Tracks vfs s processes view post owner held leaked) {k : κ}
    {c new : ℕ} {inode : Inode} {mask : UInt32} {buf val : Option Memory} {ratelimit : Bool}
    {rest : HookProgram Dentry Reply}
    (hk : s.running k = some ⟨.inodePermission c inode mask buf val ratelimit, new, rest⟩)
    {reply : Reply} (houtcome : rest.outcome = some (.ok reply)) :
    Finishes vfs s processes ⟨.inodePermission c inode mask buf val ratelimit, new, rest⟩
      { s.receive new (.inodePermission c inode mask buf val ratelimit) reply with
        running := Function.update s.running k none } := by
  obtain ⟨cred, hplaced, r, hreply, hgives⟩ := htracks.ends hk houtcome
  obtain ⟨hready, credential, hslot, hfreed, rfl⟩ := hplaced.reads c rfl
  cases hexpected : mp4InodePermission vfs credential.cred.security inode mask buf.isSome val with
  | error fault =>
    rw [hexpected] at hgives
    rw [show r = .error fault from hgives] at hreply
    cases hreply
  | ok verdict =>
    rw [hexpected] at hgives
    obtain ⟨rfl, hheld, hblocks⟩ := hgives
    obtain rfl := Except.ok.inj hreply
    refine ⟨processes, ?_, Or.inl rfl, fun answer hanswer ↦ ?_⟩
    · rcases hblocks with ⟨rfl, hempty⟩ | ⟨hsome, b, mem, -, hmine⟩
      · exact htracks.settle_empty hk hheld hempty rfl rfl rfl (fun _ _ ↦ rfl) htracks.executed rfl
      · have hfree : s.heap.part owner none b = none := by
          refine disjoint s owner k b (.buffer mem) ?_
          rw [show s.heap.part owner (some k) = _ from hmine, Function.update_self]
        obtain ⟨hmemory, hnew⟩ := htracks.memory.leak hfree hmine
        refine htracks.settle hk hheld rfl rfl hmemory (fun _ _ ↦ ⟨rfl, rfl⟩) htracks.executed ?_
        rw [Finset.card_insert_of_notMem hnew, htracks.checks]
        simp only [Kernel.receive, hsome, if_true]
    · rcases List.mem_append.mp hanswer with hbefore | hnew
      · exact Or.inl hbefore
      · rw [List.mem_singleton.mp hnew]
        refine Or.inr ⟨rfl, c, rfl, credential, hslot, hfreed, ?_, ?_⟩
        · rw [htracks.executed]
        · simp only [HookCall.answer, hexpected]
          rfl

/-- A call of `mp4_inode_init_security` finishes. -/
theorem finish_init (htracks : Tracks vfs s processes view post owner held leaked) {k : κ}
    {c new : ℕ} {inode : Inode} {wanted : Wanted} {succeeds : Bool}
    {rest : HookProgram Dentry Reply}
    (hk : s.running k = some ⟨.inodeInitSecurity c inode wanted succeeds, new, rest⟩)
    {reply : Reply} (houtcome : rest.outcome = some (.ok reply)) :
    Finishes vfs s processes ⟨.inodeInitSecurity c inode wanted succeeds, new, rest⟩
      { s.receive new (.inodeInitSecurity c inode wanted succeeds) reply with
        running := Function.update s.running k none } := by
  obtain ⟨cred, hplaced, hends⟩ := htracks.ends hk houtcome
  obtain ⟨hready, credential, hslot, hfreed, rfl⟩ := hplaced.reads c rfl
  have hreturns : ReturnsXattr (mp4InodeInitSecurity vfs credential.cred.security inode wanted
      succeeds ⟨none, none, 0⟩) (.ok reply) ⟨s.heap.part owner (some k), held k⟩ := hends
  cases hexpected : mp4InodeInitSecurity vfs credential.cred.security inode wanted succeeds
      ⟨none, none, 0⟩ with
  | error fault =>
    rw [hexpected] at hreturns
    cases hreturns
  | ok out =>
    rw [hexpected] at hreturns
    obtain ⟨hreply, hheld, hempty⟩ := hreturns
    obtain rfl := Except.ok.inj hreply
    refine ⟨processes, htracks.settle_empty hk hheld hempty rfl rfl rfl (fun _ _ ↦ rfl)
      htracks.executed rfl, Or.inl rfl, fun answer hanswer ↦ ?_⟩
    rcases List.mem_append.mp hanswer with hbefore | hnew
    · exact Or.inl hbefore
    · rw [List.mem_singleton.mp hnew]
      refine Or.inr ⟨rfl, c, rfl, credential, hslot, hfreed, ?_, ?_⟩
      · rw [htracks.executed]
      · simp only [HookCall.answer, hexpected]
        rfl

/-- A call that has ended without a fault finishes. -/
theorem finish (htracks : Tracks vfs s processes view post owner held leaked) {k : κ}
    {task : Task Inode Dentry} (hk : s.running k = some task) {reply : Reply}
    (houtcome : task.rest.outcome = some (.ok reply)) :
    Finishes vfs s processes task
      { s.receive task.new task.call reply with running := Function.update s.running k none } := by
  obtain ⟨call, new, rest⟩ := task
  cases call with
  | credAllocBlank block => exact htracks.finish_produced hk houtcome trivial
  | credPrepare old block => exact htracks.finish_produced hk houtcome trivial
  | credFree c => exact htracks.finish_free hk houtcome
  | bprmSetCreds c inode val => exact htracks.finish_exec hk houtcome
  | inodePermission c inode mask buf val ratelimit => exact htracks.finish_permission hk houtcome
  | inodeInitSecurity c inode wanted succeeds => exact htracks.finish_init hk houtcome

end Tracks

/-! ### Whole runs -/

/-- The processes with the initial credential alone. -/
def bootProcesses : Processes ℕ Inode where
  credentials := initialCredential 0
  executed := fun _ ↦ []

/-- A call that starts is one of those with the property. -/
def KernelEvent.Starts (fine : HookCall Inode → Prop) : KernelEvent κ Inode → Prop
  | .start _ call => fine call
  | _ => True

/-- The processes stand behind the kernel when it boots. -/
theorem simulates_boot (vfs : Vfs Inode Dentry) :
    Simulates vfs (bootKernel : Kernel κ Inode Dentry) bootProcesses := by
  have hblocks : ∀ a content, (bootKernel : Kernel κ Inode Dentry).heap.part
      (fun _ ↦ (none : Option κ)) none a = some content → a = 0 ∧ content = .cred none := by
    intro a content ha
    by_cases hzero : a = 0
    · rw [hzero] at ha
      exact ⟨hzero, (Option.some.inj ha).symm⟩
    · have hnone : Function.update (fun _ ↦ none) 0 (some (.cred none)) a = some content := ha
      rw [Function.update_of_ne hzero] at hnone
      cases hnone
  have hcreds : ∀ c status, (bootKernel : Kernel κ Inode Dentry).creds c = some status →
      c = 0 ∧ status = .ready := by
    intro c status hc
    by_cases hzero : c = 0
    · rw [hzero] at hc
      exact ⟨hzero, (Option.some.inj hc).symm⟩
    · have hnone : Function.update (fun _ ↦ none) 0 (some CredStatus.ready) c = some status := hc
      rw [Function.update_of_ne hzero] at hnone
      cases hnone
  refine ⟨fun _ _ ↦ none, fun _ _ _ ↦ True, fun _ ↦ none, fun _ _ ↦ 0, ∅,
    ⟨⟨fun a ha ↦ ?_, fun _ _ hk ↦ (by cases hk), fun _ hk ↦ absurd rfl hk,
      fun k _ ↦ ⟨?_, rfl⟩, fun _ ↦ (by simp [bootKernel])⟩,
    ⟨fun c hc ↦ ?_, fun c hc ↦ ?_, fun c pointer hc ↦ ?_, fun a msec ha ↦ ?_,
      fun a c other hc _ ↦ ?_, fun a ↦ ?_⟩, fun _ _ hk ↦ (by cases hk),
    fun _ _ _ _ _ hk ↦ (by cases hk), fun c hc ↦ ?_, rfl, rfl⟩⟩
  · change Function.update (fun _ ↦ none) 0 (some (KernelBlock.cred none)) a = none
    rw [Function.update_of_ne (Nat.one_le_iff_ne_zero.mp ha)]
  · funext a
    exact if_neg (by simp)
  · rw [(hcreds c _ hc).1]
    exact ⟨⟨⟨none⟩, none, false⟩, rfl, rfl, .null rfl⟩
  · cases (hcreds c _ hc).2
  · rw [(hblocks c _ hc).1]
    exact Option.some_ne_none CredStatus.ready
  · cases (hblocks a _ ha).2
  · cases (hblocks c _ hc).2
  · refine iff_of_false (Finset.notMem_empty a) ?_
    rintro ⟨mem, hmem⟩
    cases (hblocks a _ hmem).2
  · change Function.update (fun _ ↦ none) 0 (some (⟨⟨none⟩, none, false⟩ : Credential)) c = none
    rw [Function.update_of_ne (Nat.one_le_iff_ne_zero.mp hc)]

/-- An operation is one of a running call. -/
theorem exists_of_step {vfs : Vfs Inode Dentry} {s later : Kernel κ Inode Dentry} {k : κ}
    (hnext : nextKernel vfs s (.step k) = some later) :
    ∃ task, s.running k = some task ∧ ∃ next, task.rest.step s.heap = some next ∧
      later = { s with
        heap := next.2
        running := Function.update s.running k (some { task with rest := next.1 }) } := by
  cases hk : s.running k with
  | none =>
    simp only [nextKernel, hk] at hnext
    cases hnext
  | some task =>
    simp only [nextKernel, hk] at hnext
    obtain ⟨next, hstep, hlater⟩ := Option.map_eq_some_iff.mp hnext
    exact ⟨task, rfl, next, hstep, hlater.symm⟩

/-- A call that finishes has ended without a fault. -/
theorem exists_of_finish {vfs : Vfs Inode Dentry} {s later : Kernel κ Inode Dentry} {k : κ}
    (hnext : nextKernel vfs s (.finish k) = some later) :
    ∃ task, s.running k = some task ∧ ∃ reply, task.rest.outcome = some (.ok reply) ∧
      later = { s.receive task.new task.call reply with
        running := Function.update s.running k none } := by
  cases hk : s.running k with
  | none =>
    simp only [nextKernel, hk] at hnext
    cases hnext
  | some task =>
    simp only [nextKernel, hk] at hnext
    split at hnext
    · rename_i reply houtcome
      exact ⟨task, rfl, reply, houtcome, (Option.some.inj hnext).symm⟩
    · cases hnext

/-- What the kernel has answered, and what it still runs, against the processes: every call has the
property, and every answer is the one that the hook gives at once, on the processes of a moment
before. -/
structure Accounts (vfs : Vfs Inode Dentry) (fine : HookCall Inode → Prop)
    (ok : ProcessLabel ℕ Inode → Prop) (s : Kernel κ Inode Dentry)
    (processes : Processes ℕ Inode) : Prop where
  reachable : ReachableUnder (nextProcesses vfs) (fun _ label ↦ ok label) bootProcesses processes
  simulates : Simulates vfs s processes
  running : ∀ k task, s.running k = some task → fine task.call
  answers : ∀ answer ∈ s.answers, fine answer.call ∧ ∃ moment,
    ReachableUnder (nextProcesses vfs) (fun _ label ↦ ok label) bootProcesses moment ∧
      ReachableUnder (nextProcesses vfs) (fun _ label ↦ ok label) moment processes ∧
        Justifies vfs moment answer

/-- Every event keeps the account. Assumes: the calls that start have the property, and the
processes may take their steps. -/
theorem Accounts.next {vfs : Vfs Inode Dentry} {fine : HookCall Inode → Prop}
    {ok : ProcessLabel ℕ Inode → Prop}
    (hfine : ∀ new call label, fine call → HookCall.Steps vfs new call label → ok label)
    {s later : Kernel κ Inode Dentry} {processes : Processes ℕ Inode}
    (haccounts : Accounts vfs fine ok s processes) {event : KernelEvent κ Inode}
    (hevent : event.Starts fine) (hnext : nextKernel vfs s event = some later) :
    ∃ after, Accounts vfs fine ok later after := by
  obtain ⟨view, post, owner, held, leaked, htracks⟩ := haccounts.simulates
  cases event with
  | start k call =>
    simp only [nextKernel] at hnext
    split_ifs at hnext with hguard
    obtain rfl := Option.some.inj hnext
    refine ⟨processes, haccounts.reachable,
      htracks.begin (Option.isNone_iff_eq_none.mp hguard.1) hguard.2, fun other task hother ↦ ?_,
      haccounts.answers⟩
    change Function.update s.running k _ other = some task at hother
    by_cases hne : other = k
    · rw [hne, Function.update_self] at hother
      rw [← Option.some.inj hother]
      exact hevent
    · rw [Function.update_of_ne hne] at hother
      exact haccounts.running other task hother
  | step k =>
    obtain ⟨task, hk, next, hstep, rfl⟩ := exists_of_step hnext
    obtain ⟨other, hother, -, hsimulates⟩ :=
      htracks.step hk (Program.outcome_eq_none_of_step hstep)
    obtain rfl := Option.some.inj (hnext.symm.trans hother)
    refine ⟨processes, haccounts.reachable, hsimulates, fun k' rival hrival ↦ ?_,
      haccounts.answers⟩
    change Function.update s.running k _ k' = some rival at hrival
    by_cases hne : k' = k
    · rw [hne, Function.update_self] at hrival
      rw [← Option.some.inj hrival]
      exact haccounts.running k task hk
    · rw [Function.update_of_ne hne] at hrival
      exact haccounts.running k' rival hrival
  | finish k =>
    obtain ⟨task, hk, reply, houtcome, rfl⟩ := exists_of_finish hnext
    obtain ⟨after, hsimulates, hafter, hanswers⟩ := htracks.finish hk houtcome
    have hfineTask := haccounts.running k task hk
    have hlater : ∀ {start : Processes ℕ Inode},
        ReachableUnder (nextProcesses vfs) (fun _ label ↦ ok label) start processes →
          ReachableUnder (nextProcesses vfs) (fun _ label ↦ ok label) start after := by
      intro start hstart
      rcases hafter with rfl | ⟨label, hsteps, hprocesses⟩
      · exact hstart
      · exact hstart.step (hfine task.new task.call label hfineTask hsteps) hprocesses
    refine ⟨after, hlater haccounts.reachable, hsimulates, fun k' rival hrival ↦ ?_,
      fun answer hanswer ↦ ?_⟩
    · change Function.update s.running k none k' = some rival at hrival
      by_cases hne : k' = k
      · rw [hne, Function.update_self] at hrival
        cases hrival
      · rw [Function.update_of_ne hne] at hrival
        exact haccounts.running k' rival hrival
    · rcases hanswers answer hanswer with hbefore | ⟨hcall, hjustified⟩
      · obtain ⟨hfineAnswer, moment, hmoment, hway, hjustified⟩ := haccounts.answers answer hbefore
        exact ⟨hfineAnswer, moment, hmoment, hlater hway, hjustified⟩
      · exact ⟨hcall ▸ hfineTask, processes, haccounts.reachable, hlater .refl, hjustified⟩

/-- In every reachable state of the kernel the processes stand behind it. Assumes: the calls that
start have the property, and the processes may take their steps. -/
theorem accounts_of_reachable {vfs : Vfs Inode Dentry} {fine : HookCall Inode → Prop}
    {ok : ProcessLabel ℕ Inode → Prop}
    (hfine : ∀ new call label, fine call → HookCall.Steps vfs new call label → ok label)
    {s : Kernel κ Inode Dentry}
    (hreach : ReachableUnder (nextKernel vfs) (fun _ event ↦ event.Starts fine) bootKernel s) :
    ∃ processes, Accounts vfs fine ok s processes := by
  refine hreach.invariant (fun s ↦ ∃ processes, Accounts vfs fine ok s processes)
    ⟨bootProcesses, .refl, simulates_boot vfs, fun _ _ hk ↦ (by cases hk),
      fun _ hanswer ↦ (by cases hanswer)⟩ ?_
  rintro before event later ⟨processes, haccounts⟩ hevent hnext
  exact haccounts.next hfine hevent hnext

/-! ### What follows for the kernel -/

/-- The hook follows a NULL pointer at once, for a credential. -/
def HookCall.Faults (vfs : Vfs Inode Dentry) (cred : Cred) (fault : Fault) : HookCall Inode → Prop
  | .bprmSetCreds _ inode val => mp4BprmSetCreds vfs cred inode val = .error fault
  | .inodePermission _ inode mask buf val _ =>
    mp4InodePermission vfs cred.security inode mask buf.isSome val = .error fault
  | .inodeInitSecurity _ inode wanted succeeds =>
    mp4InodeInitSecurity vfs cred.security inode wanted succeeds ⟨none, none, 0⟩ = .error fault
  | _ => False

omit [DecidableEq Dentry] in
/-- A call that has ended with a fault is one whose hook follows a NULL pointer at once. -/
theorem HookCall.Ends.faults {vfs : Vfs Inode Dentry} {new : ℕ} {cred : Cred}
    {call : HookCall Inode} {fault : Fault} {later : Owned KernelBlock Dentry}
    (hends : call.Ends vfs new cred (.error fault) later) : call.Faults vfs cred fault := by
  cases call with
  | credAllocBlank block =>
    obtain ⟨r, hresult, hgives⟩ := hends
    rw [hgives.1] at hresult
    cases hresult
  | credPrepare old block =>
    obtain ⟨r, hresult, hgives⟩ := hends
    rw [hgives.1] at hresult
    cases hresult
  | credFree c => cases hends.1
  | bprmSetCreds c inode val =>
    obtain ⟨r, hresult, hgives⟩ := hends
    cases hexpected : mp4BprmSetCreds vfs cred inode val with
    | error expected =>
      rw [hexpected] at hgives
      rw [show r = .error expected from hgives] at hresult
      cases hresult
      exact hexpected
    | ok answer =>
      rw [hexpected] at hgives
      rw [hgives.1] at hresult
      cases hresult
  | inodePermission c inode mask buf val ratelimit =>
    obtain ⟨r, hresult, hgives⟩ := hends
    cases hexpected : mp4InodePermission vfs cred.security inode mask buf.isSome val with
    | error expected =>
      rw [hexpected] at hgives
      rw [show r = .error expected from hgives] at hresult
      cases hresult
      exact hexpected
    | ok verdict =>
      rw [hexpected] at hgives
      rw [hgives.1] at hresult
      cases hresult
  | inodeInitSecurity c inode wanted succeeds =>
    have hreturns : ReturnsXattr (mp4InodeInitSecurity vfs cred.security inode wanted succeeds
      ⟨none, none, 0⟩) (.error fault) later := hends
    cases hexpected : mp4InodeInitSecurity vfs cred.security inode wanted succeeds
        ⟨none, none, 0⟩ with
    | error expected =>
      rw [hexpected] at hreturns
      cases hreturns
      exact hexpected
    | ok answer =>
      rw [hexpected] at hreturns
      cases hreturns.1

/-- The operations of the running calls are sound: a call that has not ended can take its next
operation, one that has ended without a fault can finish, and one that has ended with a fault has
followed a NULL pointer that its hook follows at once, for the credential of the processes that it
reads or takes. -/
def NeverMisuses (vfs : Vfs Inode Dentry) (s : Kernel κ Inode Dentry) : Prop :=
  ∀ k task, s.running k = some task →
    (task.rest.outcome = none → ∃ later, nextKernel vfs s (.step k) = some later) ∧
    (∀ reply, task.rest.outcome = some (.ok reply) →
      ∃ later, nextKernel vfs s (.finish k) = some later) ∧
    ∀ fault, task.rest.outcome = some (.error fault) → ∃ processes,
      Reachable (nextProcesses vfs) bootProcesses processes ∧ ∃ c credential,
        (c ∈ task.call.reads ∨ c ∈ task.call.takes) ∧
          processes.credentials.slots c = some credential ∧ credential.freed = false ∧
            task.call.Faults vfs credential.cred fault

omit [DecidableEq Dentry] in
/-- A call that has ended with a fault had a credential of the processes. -/
theorem Placed.exists_of_faults {creds : ℕ → Option CredStatus} {slots : ℕ → Option Credential}
    {fresh : ℕ} {common : ℕ → Option KernelBlock} {task : Task Inode Dentry} {cred : Cred}
    {view : ℕ → Option KernelBlock} (hplaced : Placed creds slots fresh common task cred view)
    {vfs : Vfs Inode Dentry} {fault : Fault} (hfaults : task.call.Faults vfs cred fault) :
    ∃ c credential, (c ∈ task.call.reads ∨ c ∈ task.call.takes) ∧ slots c = some credential ∧
      credential.freed = false ∧ task.call.Faults vfs credential.cred fault := by
  obtain ⟨call, new, rest⟩ := task
  cases call with
  | bprmSetCreds c inode val =>
    obtain ⟨credential, hslot, hfreed, rfl⟩ := (hplaced.takes c rfl).resolve_right fun hfree ↦ by
      cases hfree.2
    exact ⟨c, credential, Or.inr rfl, hslot, hfreed, hfaults⟩
  | inodePermission c inode mask buf val ratelimit =>
    obtain ⟨-, credential, hslot, hfreed, rfl⟩ := hplaced.reads c rfl
    exact ⟨c, credential, Or.inl rfl, hslot, hfreed, hfaults⟩
  | inodeInitSecurity c inode wanted succeeds =>
    obtain ⟨-, credential, hslot, hfreed, rfl⟩ := hplaced.reads c rfl
    exact ⟨c, credential, Or.inl rfl, hslot, hfreed, hfaults⟩
  | _ => exact hfaults.elim

/-- The processes stand behind the kernel in every state of every run. -/
theorem accounts_of_run {vfs : Vfs Inode Dentry} {s : Kernel κ Inode Dentry}
    (hreach : Reachable (nextKernel vfs) bootKernel s) :
    ∃ processes, Accounts vfs (fun _ ↦ True) (fun _ ↦ True) s processes := by
  have hstarts : ReachableUnder (nextKernel vfs) (fun _ event ↦ event.Starts fun _ ↦ True)
      bootKernel s := hreach.mono fun _ event _ ↦ by cases event <;> trivial
  exact accounts_of_reachable (fun _ _ _ _ _ ↦ trivial) hstarts

/-- In every run, with the operations of the calls in any order and allocations that may fail, no
call accesses memory that was freed or is of another kind, frees a block twice, or drops a reference
that it does not hold. -/
theorem neverMisuses_of_reachable {vfs : Vfs Inode Dentry} {s : Kernel κ Inode Dentry}
    (hreach : Reachable (nextKernel vfs) bootKernel s) : NeverMisuses vfs s := by
  obtain ⟨processes, haccounts⟩ := accounts_of_run hreach
  obtain ⟨view, post, owner, held, leaked, htracks⟩ := haccounts.simulates
  refine fun k task hk ↦ ⟨fun hgoing ↦ ?_, fun reply houtcome ↦ ?_, fun fault houtcome ↦ ?_⟩
  · obtain ⟨later, hnext, -⟩ := htracks.step hk hgoing
    exact ⟨later, hnext⟩
  · refine ⟨{ s.receive task.new task.call reply with
      running := Function.update s.running k none }, ?_⟩
    simp only [nextKernel, hk, houtcome]
  · obtain ⟨cred, hplaced, hends⟩ := htracks.ends hk houtcome
    exact ⟨processes, haccounts.reachable, hplaced.exists_of_faults hends.faults⟩

deriving instance DecidableEq for File

/-- A call that takes its operations without another in between. -/
def KernelEvent.alone (k : κ) (call : HookCall Inode) (operations : ℕ) :
    List (KernelEvent κ Inode) :=
  .start k call :: List.replicate operations (.step k) ++ [.finish k]

/-- The process with the credential 1 writes to a file that the target alone may write. -/
def writeNotes : HookCall File :=
  .inodePermission 1 (labelledFile homeNotes (some (bytes "read-write"))) mayWrite
    (some fun _ ↦ 0) (some fun _ ↦ 0) true

/-- A credential is prepared. While its process asks for a write, a second is prepared from it. -/
def preparedTwice : List (KernelEvent Bool File) :=
  KernelEvent.alone false (.credPrepare 0 (some ⟨mp4NoAccess⟩)) 4 ++
    [.start false writeNotes, .step false, .start true (.credPrepare 1 (some ⟨mp4NoAccess⟩))] ++
    (List.replicate 5 [.step false, .step true]).flatten

/-- Two calls are under way, and both can go on. -/
theorem exists_neverMisuses : ∃ s : Kernel Bool File File,
    (∀ k, (s.running k).isSome = true) ∧ NeverMisuses fileVfs s := by
  have hrun : ∃ s : Kernel Bool File File, Reachable (nextKernel fileVfs) bootKernel s ∧
      ∀ k, (s.running k).isSome = true :=
    exists_reachableUnder_of_run preparedTwice (by decide +kernel) (by decide +kernel)
  obtain ⟨s, hreach, hrunning⟩ := hrun
  exact ⟨s, hrunning, neverMisuses_of_reachable hreach⟩

/-- What is in the memory when no call runs: the credentials of the kernel; their security
structures, each of one credential; and one buffer for each check that got one. No reference to a
dentry is held. -/
def MemoryAccounted (s : Kernel κ Inode Dentry) : Prop :=
  (∀ dentry, s.heap.refs dentry = 0) ∧
    (∀ c pointer, s.heap.blocks c = some (.cred pointer) → s.creds c ≠ none) ∧
    (∀ a msec, s.heap.blocks a = some (.security msec) →
      ∃! c, s.heap.blocks c = some (.cred (some a))) ∧
    ∃ leaked : Finset ℕ, (∀ a, a ∈ leaked ↔ ∃ mem, s.heap.blocks a = some (.buffer mem)) ∧
      leaked.card = s.checks

/-- There are as many buffers in the memory as there were checks with a buffer, at least. -/
def KeepsBuffers (s : Kernel κ Inode Dentry) : Prop :=
  ∃ leaked : Finset ℕ, (∀ a ∈ leaked, ∃ mem, s.heap.blocks a = some (.buffer mem)) ∧
    leaked.card = s.checks

/-- In every run `mp4_inode_permission` leaves one buffer for each of its checks. Whenever no call
runs, these are the only buffers, and all other live memory is of the credentials of the kernel. -/
theorem memoryAccounted_of_reachable {vfs : Vfs Inode Dentry} {s : Kernel κ Inode Dentry}
    (hreach : Reachable (nextKernel vfs) bootKernel s) :
    KeepsBuffers s ∧ ((∀ k, s.running k = none) → MemoryAccounted s) := by
  obtain ⟨processes, haccounts⟩ := accounts_of_run hreach
  obtain ⟨view, post, owner, held, leaked, htracks⟩ := haccounts.simulates
  have hmemory := htracks.memory
  refine ⟨⟨leaked, fun a ha ↦ ?_, htracks.checks⟩, fun hquiet ↦ ?_⟩
  · obtain ⟨mem, hmem⟩ := (hmemory.buffers a).mp ha
    exact ⟨mem, (Heap.part_eq_some_iff.mp hmem).2⟩
  · have hidle : ∀ k, (s.heap.part owner (some k) = fun _ ↦ none) ∧ held k = fun _ ↦ 0 :=
      fun k ↦ htracks.divided.idle k (by rw [hquiet k, Option.map_none])
    have hcommon : s.heap.part owner none = s.heap.blocks := by
      funext a
      cases howner : owner a with
      | none => exact if_pos howner
      | some k =>
        have hnone : s.heap.blocks a = none :=
          (if_pos howner).symm.trans (congrFun (hidle k).1 a)
        rw [hnone, Heap.part, if_neg (by simp [howner])]
    rw [hcommon] at hmemory
    refine ⟨fun dentry ↦ ?_, hmemory.cred_mem, fun a msec ha ↦ ?_, leaked, hmemory.buffers,
      htracks.checks⟩
    · rw [htracks.divided.refs]
      exact Finset.sum_eq_zero fun k _ ↦ congrFun (hidle k).2 dentry
    · obtain ⟨c, hc⟩ := hmemory.security_mem a msec ha
      exact ⟨c, hc, fun other hother ↦ hmemory.alone a other c hother hc⟩

/-- After both calls have finished, with one check, one buffer is left. -/
theorem exists_memoryAccounted : ∃ s : Kernel Bool File File, s.checks = 1 ∧
    s.creds 3 = some .ready ∧ KeepsBuffers s ∧ MemoryAccounted s := by
  have hrun : ∃ s : Kernel Bool File File, Reachable (nextKernel fileVfs) bootKernel s ∧
      s.checks = 1 ∧ s.creds 3 = some .ready ∧ ∀ k, (s.running k).isNone = true :=
    exists_reachableUnder_of_run
      (preparedTwice ++ List.replicate 8 (.step false) ++ [.finish true, .finish false])
      (by decide +kernel) (by decide +kernel)
  obtain ⟨s, hreach, hchecks, hready, hquiet⟩ := hrun
  obtain ⟨hkeeps, haccounted⟩ := memoryAccounted_of_reachable hreach
  exact ⟨s, hchecks, hready, hkeeps,
    haccounted fun k ↦ Option.isNone_iff_eq_none.mp (hquiet k)⟩

/-- The processes of the value-level hooks stand behind the kernel: every credential that can be
used is in memory with the label that they have for it, the histories are the same, and every answer
is the one that the hook gives at once on the processes of a moment before. -/
def ActsAtOnce (vfs : Vfs Inode Dentry) (s : Kernel κ Inode Dentry)
    (processes : Processes ℕ Inode) : Prop :=
  (∀ c, s.creds c = some .ready → ∃ credential, processes.credentials.slots c = some credential ∧
      credential.freed = false ∧ HoldsCred s.heap.blocks c credential.cred) ∧
    s.executed = processes.executed ∧
    ∀ answer ∈ s.answers, ∃ moment, Reachable (nextProcesses vfs) bootProcesses moment ∧
      Reachable (nextProcesses vfs) moment processes ∧ Justifies vfs moment answer

/-- In every run of hooks whose operations interleave, the kernel acts as if every hook ran at once.
-/
theorem actsAtOnce_of_reachable {vfs : Vfs Inode Dentry} {s : Kernel κ Inode Dentry}
    (hreach : Reachable (nextKernel vfs) bootKernel s) :
    ∃ processes, Reachable (nextProcesses vfs) bootProcesses processes ∧
      ActsAtOnce vfs s processes := by
  obtain ⟨processes, haccounts⟩ := accounts_of_run hreach
  obtain ⟨view, post, owner, held, leaked, htracks⟩ := haccounts.simulates
  refine ⟨processes, haccounts.reachable, fun c hc ↦ ?_, htracks.executed, fun answer hanswer ↦ ?_⟩
  · obtain ⟨credential, hslot, hfreed, hholds⟩ := htracks.memory.ready c hc
    exact ⟨credential, hslot, hfreed, hholds.of_part⟩
  · exact (haccounts.answers answer hanswer).2

/-- The write is denied while the second credential is prepared, as it is at once. -/
theorem exists_actsAtOnce : ∃ (s : Kernel Bool File File) (processes : Processes ℕ File),
    (s.answers.map Answer.reply = [.verdict ⟨-eacces, true⟩]) ∧ s.creds 3 = some .ready ∧
      Reachable (nextProcesses fileVfs) bootProcesses processes ∧
        ActsAtOnce fileVfs s processes := by
  have hrun : ∃ s : Kernel Bool File File, Reachable (nextKernel fileVfs) bootKernel s ∧
      (s.answers.map Answer.reply = [.verdict ⟨-eacces, true⟩]) ∧ s.creds 3 = some .ready :=
    exists_reachableUnder_of_run
      (preparedTwice ++ List.replicate 8 (.step false) ++ [.finish true, .finish false])
      (by decide +kernel) (by decide +kernel)
  obtain ⟨s, hreach, hanswers, hready⟩ := hrun
  obtain ⟨processes, hprocesses, hacts⟩ := actsAtOnce_of_reachable hreach
  exact ⟨s, processes, hanswers, hready, hprocesses, hacts⟩

end KernelModules.AccessControl

import KernelModules.AccessControl.HookPrograms
import KernelModules.AccessControl.ProcessLabels

/-!
# Hooks that run at the same time

The calls of the hooks by any number of tasks `κ`, with their operations in any order. A call
starts, takes the operations of its program one at a time, and finishes; a task that has followed a
NULL pointer does not go on, and keeps what it has.

What the kernel keeps to is in `Kernel.Allows`: a credential that a hook reads stays in use while it
does, and one that a hook changes or frees is used by no other. Beside the heap stand the binaries
that were executed under each credential, and the answers that the hooks gave, oldest first.
-/

set_option autoImplicit false
set_option relaxedAutoImplicit false

namespace KernelModules.AccessControl

open Foundation

variable {κ Inode Dentry : Type} [DecidableEq κ] [Fintype κ] [DecidableEq Dentry]

/-! ### Calls -/

/-- A call of a hook, with what its allocations give it. -/
inductive HookCall (Inode : Type)
  | credAllocBlank (block : Option Mp4Security)
  | credPrepare (old : ℕ) (block : Option Mp4Security)
  | credFree (cred : ℕ)
  | bprmSetCreds (cred : ℕ) (inode : Inode) (val : Option Memory)
  | inodePermission (current : ℕ) (inode : Inode) (mask : UInt32) (buf val : Option Memory)
      (ratelimit : Bool)
  | inodeInitSecurity (current : ℕ) (inode : Inode) (wanted : Wanted) (succeeds : Bool)

/-- What a hook answers. -/
inductive Reply
  | number (ret : ℤ)
  | verdict (verdict : Verdict)
  | xattr (ret : ℤ) (out : InitXattr)
  deriving DecidableEq

namespace HookCall

/-- The credential that a call reads. -/
def reads : HookCall Inode → Option ℕ
  | credPrepare old _ => some old
  | inodePermission current _ _ _ _ _ => some current
  | inodeInitSecurity current _ _ _ => some current
  | _ => none

/-- The credential that a call changes or frees. -/
def takes : HookCall Inode → Option ℕ
  | credFree cred => some cred
  | bprmSetCreds cred _ _ => some cred
  | _ => none

/-- A call for a new credential. -/
def Produces : HookCall Inode → Prop
  | credAllocBlank _ => True
  | credPrepare _ _ => True
  | _ => False

instance : DecidablePred (@Produces Inode) := fun call ↦
  match call with
  | credAllocBlank _ => isTrue trivial
  | credPrepare _ _ => isTrue trivial
  | credFree _ => isFalse not_false
  | bprmSetCreds _ _ _ => isFalse not_false
  | inodePermission _ _ _ _ _ _ => isFalse not_false
  | inodeInitSecurity _ _ _ _ => isFalse not_false

/-- What runs for a call: the hook, and what its caller does with the blocks that the hook leaves.
`put_cred_rcu` frees the credential after `mp4_cred_free`, and `security_inode_init_security` frees
the value after it has used it. -/
def program (vfs : Vfs Inode Dentry) (new : ℕ) : HookCall Inode → HookProgram Dentry Reply
  | credAllocBlank block => do
    return .number (← HookProgram.mp4CredAllocBlank new block)
  | credPrepare old block => do
    return .number (← HookProgram.mp4CredPrepare new old block)
  | credFree cred => do
    HookProgram.mp4CredFree cred
    HookProgram.kfree (some cred)
    return .number 0
  | bprmSetCreds cred inode val => do
    return .number (← HookProgram.mp4BprmSetCreds vfs cred inode val)
  | inodePermission current inode mask buf val ratelimit => do
    return .verdict (← HookProgram.mp4InodePermission vfs current inode mask buf val ratelimit)
  | inodeInitSecurity current inode wanted succeeds => do
    let answer ← HookProgram.mp4InodeInitSecurity vfs current inode wanted succeeds ⟨none, none, 0⟩
    let out := answer.2
    match out.value with
    | none => return .xattr answer.1 ⟨out.name, none, out.len⟩
    | some value =>
      let mem ← HookProgram.readBuffer (some value)
      HookProgram.kfree (some value)
      return .xattr answer.1 ⟨out.name, some ((List.range out.len).map mem), out.len⟩

end HookCall

/-! ### The kernel -/

/-- A credential that can be used, or one whose production failed and that is only to be freed. -/
inductive CredStatus
  | ready
  | failed
  deriving DecidableEq

/-- A call that has started. The address `new` is the one of the credential that it is to produce.
-/
structure Task (Inode Dentry : Type) where
  call : HookCall Inode
  new : ℕ
  rest : HookProgram Dentry Reply

/-- What a hook has answered, and the binaries that were executed under the credential it read. -/
structure Answer (Inode : Type) where
  call : HookCall Inode
  executed : List Inode
  reply : Reply

/-- The kernel. The credentials in `creds` are those that no running call produces, changes or
frees. The number `checks` counts the answers of `mp4_inode_permission` with a buffer. -/
structure Kernel (κ Inode Dentry : Type) where
  heap : Heap KernelBlock Dentry
  creds : ℕ → Option CredStatus
  running : κ → Option (Task Inode Dentry)
  executed : ℕ → List Inode
  answers : List (Answer Inode)
  checks : ℕ

/-- An event: a call starts, takes an operation, or finishes. -/
inductive KernelEvent (κ Inode : Type)
  | start (k : κ) (call : HookCall Inode)
  | step (k : κ)
  | finish (k : κ)

/-- The credential is of use for the call. One whose production failed is only freed. -/
def Kernel.Offers (s : Kernel κ Inode Dentry) (c : ℕ) : HookCall Inode → Prop
  | .credFree _ => s.creds c ≠ none
  | _ => s.creds c = some .ready

instance (s : Kernel κ Inode Dentry) (c : ℕ) : DecidablePred (s.Offers c) := fun call ↦
  match call with
  | .credAllocBlank _ => inferInstanceAs (Decidable (s.creds c = some .ready))
  | .credPrepare _ _ => inferInstanceAs (Decidable (s.creds c = some .ready))
  | .credFree _ => inferInstanceAs (Decidable (s.creds c ≠ none))
  | .bprmSetCreds _ _ _ => inferInstanceAs (Decidable (s.creds c = some .ready))
  | .inodePermission _ _ _ _ _ _ => inferInstanceAs (Decidable (s.creds c = some .ready))
  | .inodeInitSecurity _ _ _ _ => inferInstanceAs (Decidable (s.creds c = some .ready))

/-- The kernel may make the call: the credential that the call reads is in use, and the one that it
changes or frees is read by no running call. -/
def Kernel.Allows (s : Kernel κ Inode Dentry) (call : HookCall Inode) : Prop :=
  (∀ c ∈ call.reads, s.Offers c call) ∧
    ∀ c ∈ call.takes, s.Offers c call ∧ ∀ k, ∀ task ∈ s.running k, task.call.reads ≠ some c

instance (s : Kernel κ Inode Dentry) : DecidablePred s.Allows := fun call ↦
  inferInstanceAs (Decidable ((∀ c ∈ call.reads, s.Offers c call) ∧
    ∀ c ∈ call.takes, s.Offers c call ∧ ∀ k, ∀ task ∈ s.running k, task.call.reads ≠ some c))

/-- The status of a new credential, by what the hook returned. -/
def CredStatus.ofReturned (ret : ℤ) : CredStatus := if ret = 0 then .ready else .failed

/-- What the kernel does with the answer to a call. -/
def Kernel.receive (s : Kernel κ Inode Dentry) (new : ℕ) (call : HookCall Inode) (reply : Reply) :
    Kernel κ Inode Dentry :=
  match call, reply with
  | .credAllocBlank block, .number ret =>
    { s with
      creds := Function.update s.creds new (some (.ofReturned ret))
      executed := executedAfter s.executed (.allocBlank new block.isSome) }
  | .credPrepare old block, .number ret =>
    { s with
      creds := Function.update s.creds new (some (.ofReturned ret))
      executed := executedAfter s.executed (.prepare new old block.isSome) }
  | .bprmSetCreds cred inode _, _ =>
    { s with
      creds := Function.update s.creds cred (some .ready)
      executed := Function.update s.executed cred (s.executed cred ++ [inode]) }
  | .inodePermission current _ _ buf _ _, _ =>
    { s with
      answers := s.answers ++ [⟨call, s.executed current, reply⟩]
      checks := s.checks + if buf.isSome then 1 else 0 }
  | .inodeInitSecurity current _ _ _, _ =>
    { s with answers := s.answers ++ [⟨call, s.executed current, reply⟩] }
  | _, _ => s

/-- The kernel after a call has started. For a call that is to produce a credential it allocates the
credential first, with the pointer `security` NULL. -/
def Kernel.begin (vfs : Vfs Inode Dentry) (s : Kernel κ Inode Dentry) (k : κ)
    (call : HookCall Inode) : Kernel κ Inode Dentry :=
  { s with
    heap := if call.Produces then s.heap.alloc (.cred none) else s.heap
    creds := call.takes.elim s.creds fun c ↦ Function.update s.creds c none
    running := Function.update s.running k
      (some ⟨call, s.heap.fresh, call.program vfs s.heap.fresh⟩) }

/-- The step of the kernel. -/
def nextKernel (vfs : Vfs Inode Dentry) (s : Kernel κ Inode Dentry) :
    KernelEvent κ Inode → Option (Kernel κ Inode Dentry)
  | .start k call =>
    if (s.running k).isNone = true ∧ s.Allows call then some (s.begin vfs k call) else none
  | .step k =>
    match s.running k with
    | none => none
    | some task => (task.rest.step s.heap).map fun next ↦
      { s with
        heap := next.2
        running := Function.update s.running k (some { task with rest := next.1 }) }
  | .finish k =>
    match s.running k with
    | none => none
    | some task =>
      match task.rest.outcome with
      | some (.ok reply) => some
        { s.receive task.new task.call reply with running := Function.update s.running k none }
      | _ => none

/-- The kernel with the initial credential alone, whose pointer `security` is NULL. -/
def bootKernel : Kernel κ Inode Dentry where
  heap :=
    { blocks := Function.update (fun _ ↦ none) 0 (some (.cred none))
      fresh := 1
      refs := fun _ ↦ 0 }
  creds := Function.update (fun _ ↦ none) 0 (some .ready)
  running := fun _ ↦ none
  executed := fun _ ↦ []
  answers := []
  checks := 0

end KernelModules.AccessControl

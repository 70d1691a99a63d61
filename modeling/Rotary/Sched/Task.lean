import Rotary.Core.List
import Rotary.Core.Machine

namespace Rotary

open Lib

/-!
# Tasks and the scheduler (`kernel/sched/task.c`)

A `struct task *` is the address of the struct.  The `list_node` members of the tasks and of
`task_head` form one node heap, and every traversal follows the `next` words in it.

The functions that run inside `task_schedule` also return what they do to memory: every struct
they read or write, every resource they give back and every lock they take on the way.  What
`kmalloc` and `page_alloc` return to `task_create` is an argument.

Left out: the `name` of a task and the log messages.  The functions here run one at a time, so a
lock is only recorded; `Rotary.Sched.Preempt` lets them be interrupted.
-/

/-- `task_state_t`. -/
inductive TaskState
  | invalid
  | running
  | waiting
  | paused
  | killed
  deriving DecidableEq, Repr

/-- `struct task`, less its list node. -/
structure Task where
  id : ℕ
  type : ℕ
  state : TaskState
  priority : ℕ
  ticks : ℕ
  kstackTop : ℕ
  kstackBot : ℕ
  kstackSize : ℕ
  vmSpace : Option ℕ
  startAddr : ℕ
  deriving DecidableEq, Repr

/-- The list nodes: `task_head.list_node` and the `list_node` of the task at an address. -/
inductive TaskNode
  | head
  | task (addr : ℕ)
  deriving DecidableEq, Repr

def taskPriorityMin : ℕ := 1
def taskPriorityMax : ℕ := 5
def taskKernelStackOrder : ℕ := 4

/-- `sizeof(struct isr_registers)` and `sizeof(struct task_context)`. -/
def sizeofIsrRegisters : ℕ := 64
def sizeofTaskContext : ℕ := 20

/-- `sizeof(struct task)`. -/
def sizeofTask : ℕ := 68

/-- The scheduler's globals and the memory behind its pointers. -/
structure Sched where
  tasks : ℕ → Task
  /-- `task_head`, the sentinel of the list. -/
  head : Task
  /-- `vm_space->pgd`, by the address of the `struct vm_space`. -/
  pgd : ℕ → ℕ
  nodes : NodeHeap TaskNode
  current : ℕ
  schedEnabled : Bool
  lastTaskId : ℕ
  /-- How many tasks were ever put on the list; no traversal is longer. -/
  created : ℕ

/-- `task_lock` and `buddy_allocator.lock`. -/
inductive Lock
  | task
  | buddy
  deriving DecidableEq, Repr

/-- What a function does to memory, and the locks it takes. -/
inductive Event
  | lock (l : Lock)
  | touch (task : ℕ)
  | freeStruct (task : ℕ)
  | freeStack (start : ℕ)
  | freePgd (pgd : ℕ)
  | freeSpace (space : ℕ)
  deriving DecidableEq, Repr

/-- Write a task struct. -/
def Sched.setTask (s : Sched) (a : ℕ) (t : Task) : Sched :=
  { s with tasks := Function.update s.tasks a t }

/-- `container_of(node, struct task, list_node)`. -/
def Sched.taskAt (s : Sched) : TaskNode → Task
  | .head => s.head
  | .task a => s.tasks a

/-- The struct a list node belongs to, when it is a task's. -/
def touchNode : Option TaskNode → List Event
  | some (.task a) => [.touch a]
  | some .head => []
  | none => []

/-- The `next` word behind a node pointer. -/
def nextOf (s : Sched) : Option TaskNode → Option TaskNode
  | some n => (s.nodes n).next
  | none => none

/-- The tasks on the list, in order. -/
def taskList (s : Sched) : List ℕ :=
  (Ring.walk s.nodes .head s.created (s.nodes .head).next).filterMap fun
    | .task a => some a
    | .head => none

/-! ### Lookup -/

/-- The loop of `task_get_from_id`. -/
def findFrom (s : Sched) (id : ℕ) : ℕ → Option TaskNode → Option ℕ × List Event
  | 0, _ => (none, [])
  | _ + 1, none => (none, [])
  | _ + 1, some .head => (none, [])
  | fuel + 1, some (.task a) =>
    if (s.tasks a).id = id then (some a, [.touch a])
    else
      let (found, es) := findFrom s id fuel (s.nodes (.task a)).next
      (found, .touch a :: es)

/-- `task_get_from_id`. -/
def taskGetFromId (s : Sched) (id : ℕ) : Option ℕ × List Event :=
  let (found, es) := findFrom s id (s.created + 1) (s.nodes .head).next
  (found, .lock .task :: es)

/-! ### Creating tasks -/

/-- The arguments of `task_create`. -/
structure TaskArgs where
  type : ℕ
  startAddr : ℕ
  priority : ℕ
  state : TaskState

/-- What the allocators return during one `task_create`: the task struct, the pages of the
    kernel stack, and the `struct vm_space` with its page directory. -/
structure TaskAlloc where
  struct : Option ℕ
  stack : Option ℕ
  space : Option (ℕ × ℕ)

/-- `task_destroy_vm_space` of a task; `page_free` takes the lock of the page allocator. -/
def taskDestroyVmSpace (s : Sched) (a : ℕ) : List Event :=
  match (s.tasks a).vmSpace with
  | none => [.touch a]
  | some v => [.touch a, .lock .buddy, .freePgd (s.pgd v), .freeSpace v]

/-- `task_destroy_kernel_stack` of a task. -/
def taskDestroyKernelStack (s : Sched) (a : ℕ) : List Event :=
  if (s.tasks a).kstackBot = 0 then [.touch a]
  else [.touch a, .lock .buddy, .freeStack ((s.tasks a).kstackBot - (s.tasks a).kstackSize)]

/-- The clean-up of a failed `task_create`, and the end of `task_purge`. -/
def taskRelease (s : Sched) (a : ℕ) : List Event :=
  taskDestroyVmSpace s a ++ taskDestroyKernelStack s a ++ [.freeStruct a]

/-- `task_alloc_struct`, the struct being at `a`. -/
def taskAllocStruct (s : Sched) (args : TaskArgs) (a : ℕ) : Sched :=
  let t : Task :=
    { id := s.lastTaskId, type := args.type, state := args.state, priority := args.priority,
      ticks := 0, kstackTop := 0, kstackBot := 0, kstackSize := 0, vmSpace := none,
      startAddr := args.startAddr }
  { s.setTask a t with
    nodes := clistInit s.nodes (.task a)
    lastTaskId := inc32 s.lastTaskId }

/-- `task_create_kernel_stack`, the pages being at `v`. -/
def taskCreateKernelStack (s : Sched) (a v : ℕ) : Sched :=
  let size := 2 ^ taskKernelStackOrder * pageSize
  s.setTask a { s.tasks a with kstackSize := size, kstackBot := v + size, kstackTop := v + size }

/-- `task_create_vm_space`, the space being at `v` with directory `pgd`. -/
def taskCreateVmSpace (s : Sched) (a v pgd : ℕ) : Sched :=
  { s.setTask a { s.tasks a with vmSpace := some v } with pgd := Function.update s.pgd v pgd }

/-- `arch_task_create`: make room for the registers and the context on the new stack. -/
def archTaskCreate (s : Sched) (a : ℕ) : Sched :=
  s.setTask a { s.tasks a with
    kstackTop := (s.tasks a).kstackTop - sizeofIsrRegisters - sizeofTaskContext }

/-- `task_add_to_scheduler`, and the same call in `task_create`. -/
def taskAddToScheduler (s : Sched) (a : ℕ) : Sched :=
  { s with nodes := clistAdd s.nodes .head (.task a), created := s.created + 1 }

/-- `task_create`: the new task, the state, and what was given back on failure. -/
def taskCreate (s : Sched) (args : TaskArgs) (al : TaskAlloc) : Option ℕ × Sched × List Event :=
  if args.state ≠ .paused ∧ args.state ≠ .waiting then (none, s, [])
  else if args.priority < taskPriorityMin ∨ taskPriorityMax < args.priority then (none, s, [])
  else
    match al.struct with
    | none => (none, s, [])
    | some a =>
      let s := taskAllocStruct s args a
      match al.stack with
      | none => (none, s, taskRelease s a)
      | some v =>
        let s := taskCreateKernelStack s a v
        match al.space with
        | none => (none, s, taskRelease s a)
        | some (w, pgd) =>
          let s := archTaskCreate (taskCreateVmSpace s a w pgd) a
          (some a, taskAddToScheduler s a, [])

/-! ### Ending tasks -/

/-- `task_kill`. -/
def taskKill (s : Sched) (id : ℕ) : Status × Sched :=
  if id = 0 then (.error, s)
  else
    match (taskGetFromId s id).1 with
    | none => (.error, s)
    | some a =>
      match (s.tasks a).state with
      | .invalid => (.error, s)
      | .killed => (.error, s)
      | .running | .waiting | .paused =>
        (.success, s.setTask a { s.tasks a with state := .killed })

/-- `task_exit_current`. -/
def taskExitCurrent (s : Sched) : Sched :=
  s.setTask s.current { s.tasks s.current with state := .killed }

/-- `task_purge`. -/
def taskPurge (s : Sched) (id : ℕ) : Status × Sched × List Event :=
  if id = 0 then (.error, s, [])
  else
    let (found, es) := taskGetFromId s id
    match found with
    | none => (.error, s, es)
    | some a =>
      if (s.tasks a).state ≠ .killed then (.error, s, es ++ [.touch a])
      else
        -- unlinking writes the neighbours' list nodes
        let unlink := .lock .task :: .touch a :: touchNode (s.nodes (.task a)).prev
          ++ touchNode (s.nodes (.task a)).next
        (.success, { s with nodes := clistDeleteNode s.nodes (.task a) },
          es ++ unlink ++ taskRelease s a)

/-- The loop of `task_purge_killed_tasks`, with the two cursors of `clist_for_each_safe`. -/
def purgeFrom : ℕ → Option TaskNode → Option TaskNode → Sched → Sched × List Event
  | 0, _, _, s => (s, [])
  | _ + 1, none, _, s => (s, [])
  | _ + 1, some .head, _, s => (s, [])
  | fuel + 1, some (.task a), tmp, s =>
    let (s, es) := if (s.tasks a).state = .killed then (taskPurge s (s.tasks a).id).2 else (s, [])
    let (s, es') := purgeFrom fuel tmp (nextOf s tmp) s
    (s, .touch a :: es ++ touchNode tmp ++ es')

/-- `task_purge_killed_tasks`. -/
def taskPurgeKilledTasks (s : Sched) : Sched × List Event :=
  let entry := (s.nodes .head).next
  let (s', es) := purgeFrom (s.created + 1) entry (nextOf s entry) s
  (s', touchNode entry ++ es)

/-! ### Scheduling -/

/-- A task the scheduler may switch to. -/
def Task.runnable (t : Task) : Bool := t.state = .waiting || t.state = .running

/-- The search loop of `task_schedule` over at most `fuel` nodes, from a node on. -/
def searchFrom (s : Sched) : ℕ → TaskNode → Option TaskNode × List Event
  | 0, _ => (none, [])
  | fuel + 1, n =>
    if (s.taskAt n).runnable then (some n, touchNode (some n))
    else
      -- a null `next` is replaced by `&task_head.list_node`
      let (next, es) := searchFrom s fuel ((s.nodes n).next.getD .head)
      (next, touchNode (some n) ++ es)

/-- The end of `task_schedule`, once the next task is found, with `arch_task_switch`. -/
def switchTo (s : Sched) (prev next esp : ℕ) : Sched :=
  let s := { s with current := next }
  let s := if (s.tasks prev).state = .running
    then s.setTask prev { s.tasks prev with state := .waiting } else s
  let s := s.setTask next { s.tasks next with state := .running }
  -- `task_context_switch` saves the stack pointer in `prev` and loads that of `next`
  s.setTask prev { s.tasks prev with kstackTop := esp }

/-- `task_schedule` up to the end of its search: the state after the purge, the node found, and
    what was done to memory. -/
def taskSelect (s : Sched) : Sched × Option TaskNode × List Event :=
  let s := s.setTask s.current { s.tasks s.current with ticks := inc32 (s.tasks s.current).ticks }
  let (s₁, purged) := taskPurgeKilledTasks s
  -- one full turn of the list, its head included, ends at the current task again
  let (found, searched) :=
    searchFrom s₁ (s₁.created + 2) ((s₁.nodes (.task s₁.current)).next.getD .head)
  (s₁, found, .touch s.current :: purged ++ .touch s₁.current :: searched)

/-- `task_schedule`: the state in which the next task runs, or `none` when the search loop does
    not end or ends at the sentinel; and what the call does to memory.  `esp` is the stack pointer
    that `task_context_switch` saves. -/
def taskSchedule (s : Sched) (esp : ℕ) : Option Sched × List Event :=
  if !s.schedEnabled then (some s, [])
  else
    match taskSelect s with
    | (s₁, some (.task next), before) =>
      (some (switchTo s₁ s₁.current next esp), before ++ [.touch s₁.current, .touch next,
        .touch next, .touch s₁.current, .touch next])
    | (_, some .head, before) => (none, before)
    | (_, none, before) => (none, before)

/-! ### Initialisation -/

/-- A struct after `memset`; state 0 is `TASK_STATE_INVALID`. -/
def Task.zero : Task := ⟨0, 0, .invalid, 0, 0, 0, 0, 0, none, 0⟩

/-- `task_init`, the idle task's struct being at `a` with the contents `raw`, and its address
    space at `v` with directory `pgd`.  The memory elsewhere is `mem`. -/
def taskInit (mem : ℕ → Task) (links : NodeHeap TaskNode) (pgds : ℕ → ℕ) (stackBottom a v pgd : ℕ)
    (raw : Task) : Sched :=
  let idle : Task := { raw with state := .running, id := 0, kstackBot := stackBottom, vmSpace := some v }
  let s : Sched :=
    { tasks := Function.update mem a idle, head := .zero, pgd := Function.update pgds v pgd,
      nodes := clistInit links .head, current := a, schedEnabled := false, lastTaskId := 1,
      created := 0 }
  { taskAddToScheduler s a with schedEnabled := true }

end Rotary

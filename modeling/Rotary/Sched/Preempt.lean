import Mathlib.Logic.Relation
import Rotary.Sched.Select

namespace Rotary

open Lib

/-!
# The task functions, interrupted

One processor on which the current task executes `task_create`, `task_kill`, `task_exit_current`,
`page_alloc` or `page_free` one statement at a time, and on which the timer may interrupt it before
any of them.  The interrupt gates clear the interrupt flag, so `task_schedule` runs to its end once
entered; a lock that it finds taken is then never given back, and the processor stands still.

* `Pc` — where a task stands in the function it is executing, with the function's local variables;
* `Cpu.exec` — one statement of the current task;
* `Cpu.step` — a call, a statement or a timer tick;
* `Runs` — any sequence of these;
* `execs_kill`, `execs_exit`, `execs_create` — a function that is not interrupted does what the
  function of the same name in `Rotary.Sched.Task` does.

What `kmalloc` and `page_alloc` return to `task_create` is again an argument, with the number of
times `page_alloc` is called on the way.  Of the page allocator only the lock is in the state.
-/

/-- One call of `task_create`: its arguments, what the allocators return to it, and how often the
    `kmalloc` of the struct and `vm_space_new` call `page_alloc`. -/
structure CreateCall where
  args : TaskArgs
  al : TaskAlloc
  structPages : ℕ
  spacePages : ℕ

/-- The stores of `clist_add`, in order. -/
inductive LinkStep
  | firstPrev
  | newNext
  | newPrev
  | headNext
  deriving DecidableEq, Repr

/-- Who has called the page allocator, and how many calls it has still to make after this one. -/
inductive PageSite
  | caller
  | struct (c : CreateCall) (left : ℕ)
  | stack (c : CreateCall) (a : ℕ)
  | space (c : CreateCall) (a : ℕ) (left : ℕ)
  | freePgd (a : ℕ)
  | freeStack (a : ℕ)

/-- The statements of `page_alloc` and `page_free`, as far as the lock is concerned. -/
inductive PageStep
  | lock
  | work
  | unlock

/-- The next statement of a task. -/
inductive Pc
  /-- The task is in none of the functions. -/
  | out
  | exitLock
  | exitMark
  | exitUnlock
  | killLock (id : ℕ)
  | killFirst (id : ℕ)
  /-- The head of the loop of `task_get_from_id`. -/
  | killFind (id : ℕ) (node : Option TaskNode)
  | killReturn (id : ℕ) (found : Option ℕ)
  | killTest (id a : ℕ)
  | killTestState (id a : ℕ)
  | killRelock (id a : ℕ)
  | killMark (id a : ℕ)
  | killUnlock (id : ℕ)
  | pages (st : PageStep) (site : PageSite)
  | createLock (c : CreateCall)
  | createStruct (c : CreateCall)
  | createStack (c : CreateCall) (a : ℕ)
  | createSpace (c : CreateCall) (a : ℕ)
  | createArch (a : ℕ)
  | createLink (a : ℕ) (st : LinkStep)
  | createFree (a : ℕ)
  | createUnlock

/-- The scheduler, the next statement of every task, and which task has taken which lock. -/
structure Cpu where
  sched : Sched
  pc : ℕ → Pc
  holder : Lock → Option ℕ
  /-- The lock that `task_schedule` is waiting for inside the timer interrupt. -/
  spins : Option Lock

/-- The processor with all tasks outside the functions. -/
def Cpu.boot (s : Sched) : Cpu := ⟨s, fun _ => .out, fun _ => none, none⟩

variable {x y : Cpu} {s : Sched} {l : List ℕ} {a id : ℕ}

/-! ### Statements -/

/-- The current task gets to `p`. -/
def Cpu.goto (x : Cpu) (p : Pc) : Cpu := { x with pc := Function.update x.pc x.sched.current p }

/-- `lock`: the task goes on at `p`, or waits. -/
def Cpu.take (x : Cpu) (k : Lock) (p : Pc) : Option Cpu :=
  match x.holder k with
  | some _ => none
  | none => some ({ x with holder := Function.update x.holder k (some x.sched.current) }.goto p)

/-- `unlock`. -/
def Cpu.give (x : Cpu) (k : Lock) (p : Pc) : Cpu :=
  { x with holder := Function.update x.holder k none }.goto p

/-- The rest of `kmalloc(sizeof(struct task))`, with `left` calls of `page_alloc` to come. -/
def enterStruct (c : CreateCall) : ℕ → Pc
  | 0 => .createStruct c
  | left + 1 => .pages .lock (.struct c left)

/-- The rest of `vm_space_new`. -/
def enterSpace (c : CreateCall) (a : ℕ) : ℕ → Pc
  | 0 => .createSpace c a
  | left + 1 => .pages .lock (.space c a left)

/-- `task_destroy_kernel_stack` in the clean-up of `task_create`. -/
def enterFreeStack (s : Sched) (a : ℕ) : Pc :=
  if (s.tasks a).kstackBot = 0 then .createFree a else .pages .lock (.freeStack a)

/-- The clean-up of `task_create`. -/
def enterCleanup (s : Sched) (a : ℕ) : Pc :=
  match (s.tasks a).vmSpace with
  | none => enterFreeStack s a
  | some _ => .pages .lock (.freePgd a)

/-- Where a call of the page allocator returns to. -/
def PageSite.resume (s : Sched) : PageSite → Pc
  | .caller => .out
  | .struct c left => enterStruct c left
  | .stack c a => .createStack c a
  | .space c a left => enterSpace c a left
  | .freePgd a => enterFreeStack s a
  | .freeStack a => .createFree a

/-- One store of `clist_add(&task_head.list_node, &task->list_node)`. -/
def linkStore (h : NodeHeap TaskNode) (a : ℕ) : LinkStep → NodeHeap TaskNode
  | .firstPrev =>
    match (h .head).next with
    | some n => setPrev h n (some (.task a))
    | none => h
  | .newNext => setNext h (.task a) (h .head).next
  | .newPrev => setPrev h (.task a) (some .head)
  | .headNext => setNext h .head (some (.task a))

/-- The statement after a store of `clist_add`. -/
def LinkStep.next (a : ℕ) : LinkStep → Pc
  | .firstPrev => .createLink a .newNext
  | .newNext => .createLink a .newPrev
  | .newPrev => .createLink a .headNext
  | .headNext => .createUnlock

/-- One statement of the current task; `none` while it waits for a lock, or is in none of the
    functions. -/
def Cpu.exec (x : Cpu) : Option Cpu :=
  match x.pc x.sched.current with
  | .out => none
  | .exitLock => x.take .task .exitMark
  | .exitMark => some ({ x with sched := taskExitCurrent x.sched }.goto .exitUnlock)
  | .exitUnlock => some (x.give .task .out)
  | .killLock id => x.take .task (.killFirst id)
  | .killFirst id => some (x.goto (.killFind id (x.sched.nodes .head).next))
  | .killFind id (some (.task a)) =>
    if (x.sched.tasks a).id = id then some (x.goto (.killReturn id (some a)))
    else some (x.goto (.killFind id (x.sched.nodes (.task a)).next))
  | .killFind id (some .head) => some (x.goto (.killReturn id none))
  | .killFind id none => some (x.goto (.killReturn id none))
  | .killReturn _ none => some (x.give .task .out)
  | .killReturn id (some a) => some (x.give .task (.killTest id a))
  | .killTest id a =>
    if (x.sched.tasks a).state = .invalid then some (x.goto .out)
    else some (x.goto (.killTestState id a))
  | .killTestState id a =>
    if (x.sched.tasks a).state ≠ .running ∧ (x.sched.tasks a).state ≠ .waiting ∧
      (x.sched.tasks a).state ≠ .paused then some (x.goto .out)
    else some (x.goto (.killRelock id a))
  | .killRelock id a => x.take .task (.killMark id a)
  | .killMark id a =>
    some ({ x with sched := x.sched.setTask a { x.sched.tasks a with state := .killed } }.goto
      (.killUnlock id))
  | .killUnlock _ => some (x.give .task .out)
  | .pages .lock site => x.take .buddy (.pages .work site)
  | .pages .work site => some (x.goto (.pages .unlock site))
  | .pages .unlock site => some (x.give .buddy (site.resume x.sched))
  | .createLock c => x.take .task (enterStruct c c.structPages)
  | .createStruct c =>
    match c.al.struct with
    | none => some (x.goto .createUnlock)
    | some a =>
      -- a task that was purged may have left its struct here; the new one starts afresh
      some ({ x with
        sched := taskAllocStruct x.sched c.args a
        pc := Function.update x.pc a .out }.goto (.pages .lock (.stack c a)))
  | .createStack c a =>
    match c.al.stack with
    | none => some (x.goto (enterCleanup x.sched a))
    | some v =>
      some ({ x with sched := taskCreateKernelStack x.sched a v }.goto (enterSpace c a c.spacePages))
  | .createSpace c a =>
    match c.al.space with
    | none => some (x.goto (enterCleanup x.sched a))
    | some (w, pgd) =>
      some ({ x with sched := taskCreateVmSpace x.sched a w pgd }.goto (.createArch a))
  | .createArch a =>
    some ({ x with sched := archTaskCreate x.sched a }.goto (.createLink a .firstPrev))
  | .createLink a st =>
    let created := if st = .headNext then x.sched.created + 1 else x.sched.created
    some ({ x with
      sched := { x.sched with nodes := linkStore x.sched.nodes a st, created := created } }.goto
      (st.next a))
  | .createFree _ => some (x.goto .createUnlock)
  | .createUnlock => some (x.give .task .out)

/-- The four stores are `clist_add`. -/
theorem linkStore_all (h : NodeHeap TaskNode) (a : ℕ) :
    linkStore (linkStore (linkStore (linkStore h a .firstPrev) a .newNext) a .newPrev) a .headNext =
      clistAdd h .head (.task a) := by
  unfold linkStore clistAdd
  cases (h .head).next with
  | none => rfl
  | some n => rfl

/-! ### Steps -/

/-- A call made by the current task. -/
inductive Call
  | exitCurrent
  | kill (id : ℕ)
  | create (c : CreateCall)
  /-- `page_alloc` or `page_free`, when it gets as far as the lock. -/
  | pages

/-- The first statement of a call behind the tests of its arguments. -/
def Call.entry : Call → Pc
  | .exitCurrent => .exitLock
  | .kill id => if id = 0 then .out else .killLock id
  | .create c =>
    if c.args.state ≠ .paused ∧ c.args.state ≠ .waiting then .out
    else if c.args.priority < taskPriorityMin ∨ taskPriorityMax < c.args.priority then .out
    else .createLock c
  | .pages => .pages .lock .caller

/-- The locks that `task_schedule` takes, in order. -/
def locksOf (es : List Event) : List Lock :=
  es.filterMap fun
    | .lock k => some k
    | .touch _ => none
    | .freeStruct _ => none
    | .freeStack _ => none
    | .freePgd _ => none
    | .freeSpace _ => none

/-- A timer tick: `task_schedule`, which switches to another task, or waits for the first lock that
    it finds taken.  What it has done up to that lock is not recorded, since nothing runs any more. -/
def Cpu.tick (x : Cpu) (esp : ℕ) : Option Cpu :=
  let (next, es) := taskSchedule x.sched esp
  match (locksOf es).find? fun k => (x.holder k).isSome with
  | some k => some { x with spins := some k }
  | none => next.map fun s => { x with sched := s }

inductive Action
  | call (f : Call)
  | exec
  | tick (esp : ℕ)

/-- One step of the processor. -/
def Cpu.step (x : Cpu) (act : Action) : Option Cpu :=
  match x.spins with
  | some _ => none
  | none =>
    match act with
    | .call f =>
      match x.pc x.sched.current with
      | .out => some (x.goto f.entry)
      | _ => none
    | .exec => x.exec
    | .tick esp => x.tick esp

/-- Steps, each taken in a state in which `ok` allows it, lead from `x₀` to the state. -/
inductive Runs (ok : Cpu → Action → Prop) (x₀ : Cpu) : Cpu → Prop
  | refl : Runs ok x₀ x₀
  | step (x y : Cpu) (act : Action) (hx : Runs ok x₀ x) (hok : ok x act) (hstep : x.step act = some y) :
      Runs ok x₀ y

def Action.isExec : Action → Bool
  | .exec => true
  | .call _ => false
  | .tick _ => false

def Action.isTick : Action → Bool
  | .tick _ => true
  | .call _ => false
  | .exec => false

/-- The struct that the statement gets from `kmalloc`. -/
def Pc.allocates : Pc → Option ℕ
  | .createStruct c => c.al.struct
  | _ => none

/-- What the allocators promise: a struct that `kmalloc` returns is that of no task on the list. -/
def Promised (x : Cpu) (act : Action) : Prop :=
  act.isExec = true → ∀ a ∈ (x.pc x.sched.current).allocates, a ∉ taskList x.sched

instance (x : Cpu) (act : Action) : Decidable (Promised x act) :=
  inferInstanceAs (Decidable (_ → ∀ a ∈ _, a ∉ _))

/-- Take these steps, as long as `ok` allows them. -/
def Cpu.follow (ok : Cpu → Action → Prop) [∀ x act, Decidable (ok x act)] (x : Cpu) :
    List Action → Option Cpu
  | [] => some x
  | act :: acts =>
    if ok x act then
      match x.step act with
      | none => none
      | some y => y.follow ok acts
    else none

theorem follow_runs {ok : Cpu → Action → Prop} [∀ x act, Decidable (ok x act)] {x₀ : Cpu}
    {acts : List Action} (hx : Runs ok x₀ x) (h : x.follow ok acts = some y) : Runs ok x₀ y := by
  induction acts generalizing x with
  | nil =>
    obtain rfl := Option.some.inj h
    exact hx
  | cons act acts ih =>
    rw [Cpu.follow] at h
    split at h
    · rename_i hok
      split at h
      · cases h
      · rename_i z hstep
        exact ih (Runs.step x z act hx hok hstep) h
    · cases h

/-! ### Calls that are not interrupted -/

/-- Statements of the current task, without a tick between them. -/
abbrev Alone := Relation.ReflTransGen fun x y : Cpu => x.exec = some y

/-- The locks with `k` taken by the current task. -/
def Cpu.locked (x : Cpu) (k : Lock) : Cpu :=
  { x with holder := Function.update x.holder k (some x.sched.current) }

@[simp] theorem Cpu.goto_goto (x : Cpu) (p q : Pc) : (x.goto p).goto q = x.goto q := by
  simp [Cpu.goto]

@[simp] theorem Cpu.goto_pc (x : Cpu) (p : Pc) : (x.goto p).pc x.sched.current = p := by
  simp [Cpu.goto]

theorem Cpu.goto_out (hpc : x.pc x.sched.current = .out) : x.goto .out = x := by
  unfold Cpu.goto
  rw [← hpc, Function.update_eq_self]

theorem Cpu.take_eq_some {k : Lock} {p : Pc} (h : x.take k p = some y) :
    x.holder k = none ∧
      y = { x with holder := Function.update x.holder k (some x.sched.current) }.goto p := by
  unfold Cpu.take at h
  split at h
  · cases h
  · rename_i hfree
    exact ⟨hfree, (Option.some.inj h).symm⟩

theorem Cpu.take_goto (x : Cpu) {k : Lock} (hfree : x.holder k = none) (p q : Pc) :
    (x.goto p).take k q = some ((x.locked k).goto q) := by
  simp [Cpu.take, Cpu.goto, Cpu.locked, hfree]

theorem Cpu.give_goto (x : Cpu) {k : Lock} (hfree : x.holder k = none) (p q : Pc) :
    ((x.locked k).goto p).give k q = x.goto q := by
  have hback : Function.update x.holder k none = x.holder := by
    rw [← hfree, Function.update_eq_self]
  simp [Cpu.give, Cpu.goto, Cpu.locked, hback]

/-- One more statement in front. -/
theorem Alone.exec {z : Cpu} (hexec : x.exec = some y) (h : Alone y z) : Alone x z :=
  Relation.ReflTransGen.head hexec h

/-- A call of the page allocator. -/
theorem alone_pages (x : Cpu) (site : PageSite) (hfree : x.holder .buddy = none) :
    Alone (x.goto (.pages .lock site)) (x.goto (site.resume x.sched)) := by
  have hlock : (x.goto (.pages .lock site)).exec =
      some ((x.locked .buddy).goto (.pages .work site)) := by
    simp only [Cpu.exec, Cpu.goto, Function.update_self]
    exact x.take_goto hfree _ _
  have hwork : ((x.locked .buddy).goto (.pages .work site)).exec =
      some ((x.locked .buddy).goto (.pages .unlock site)) := by
    simp [Cpu.exec, Cpu.goto]
  have hunlock : ((x.locked .buddy).goto (.pages .unlock site)).exec =
      some (x.goto (site.resume x.sched)) := by
    simp only [Cpu.exec, Cpu.goto, Function.update_self]
    exact congrArg some (x.give_goto hfree _ _)
  exact Alone.exec hlock (Alone.exec hwork (Relation.ReflTransGen.single hunlock))

/-- A final `unlock(&task_lock)`. -/
theorem alone_unlock (x : Cpu) {p : Pc} (hpc : x.pc x.sched.current = .out)
    (hfree : x.holder .task = none)
    (hexec : ((x.locked .task).goto p).exec = some (((x.locked .task).goto p).give .task .out)) :
    Alone ((x.locked .task).goto p) x := by
  rw [x.give_goto hfree, x.goto_out hpc] at hexec
  exact Relation.ReflTransGen.single hexec

/-- **`task_exit_current`**, not interrupted. -/
theorem execs_exit (x : Cpu) (hpc : x.pc x.sched.current = .out) (hfree : x.holder .task = none) :
    Alone (x.goto Call.exitCurrent.entry) { x with sched := taskExitCurrent x.sched } := by
  have hlock : (x.goto .exitLock).exec = some ((x.locked .task).goto .exitMark) := by
    simp only [Cpu.exec, Cpu.goto, Function.update_self]
    exact x.take_goto hfree _ _
  have hmark : ((x.locked .task).goto .exitMark).exec =
      some (({ x with sched := taskExitCurrent x.sched }.locked .task).goto .exitUnlock) := by
    simp [Cpu.exec, Cpu.goto, Cpu.locked, taskExitCurrent, Sched.setTask]
  refine Alone.exec hlock (Alone.exec hmark (alone_unlock _ hpc hfree ?_))
  simp [Cpu.exec, Cpu.goto]

/-- The loop of `task_get_from_id`, from any point of the list. -/
theorem alone_find (x : Cpu) (id : ℕ) (pre rest : List ℕ) (h : ListInv x.sched (pre ++ rest)) :
    Alone (x.goto (.killFind id (some ((rest.map TaskNode.task).headD .head))))
      (x.goto (.killReturn id (rest.find? fun a => (x.sched.tasks a).id = id))) := by
  induction rest generalizing pre with
  | nil =>
    apply Relation.ReflTransGen.single
    simp [Cpu.exec, Cpu.goto]
  | cons a rest ih =>
    by_cases ha : (x.sched.tasks a).id = id
    · apply Relation.ReflTransGen.single
      simp [Cpu.exec, Cpu.goto, ha]
    · have hnext : (x.sched.nodes (.task a)).next = some ((rest.map TaskNode.task).headD .head) := by
        have hr := h.ring
        rw [List.map_append, List.map_cons] at hr
        exact hr.neighbours.2
      have hexec : (x.goto (.killFind id (some (.task a)))).exec =
          some (x.goto (.killFind id (some ((rest.map TaskNode.task).headD .head)))) := by
        simp [Cpu.exec, Cpu.goto, ha, hnext]
      have h' : ListInv x.sched ((pre ++ [a]) ++ rest) := by simpa using h
      rw [List.find?_cons_of_neg (by simpa using ha)]
      exact Alone.exec hexec (ih (pre ++ [a]) h')

/-- The two tests of `task_kill` on a task that can be killed, and its second critical section. -/
theorem alone_mark (x : Cpu) (id a : ℕ) (hpc : x.pc x.sched.current = .out)
    (hfree : x.holder .task = none) (hkillable : (x.sched.tasks a).state = .running ∨
      (x.sched.tasks a).state = .waiting ∨ (x.sched.tasks a).state = .paused) :
    Alone (x.goto (.killTest id a))
      { x with sched := x.sched.setTask a { x.sched.tasks a with state := .killed } } := by
  have htest : (x.goto (.killTest id a)).exec = some (x.goto (.killTestState id a)) := by
    rcases hkillable with hst | hst | hst <;> simp [Cpu.exec, Cpu.goto, hst]
  have hstate : (x.goto (.killTestState id a)).exec = some (x.goto (.killRelock id a)) := by
    rcases hkillable with hst | hst | hst <;> simp [Cpu.exec, Cpu.goto, hst]
  have hrelock : (x.goto (.killRelock id a)).exec =
      some ((x.locked .task).goto (.killMark id a)) := by
    simp only [Cpu.exec, Cpu.goto, Function.update_self]
    exact x.take_goto hfree _ _
  have hwrite : ((x.locked .task).goto (.killMark id a)).exec = some (({ x with
      sched := x.sched.setTask a { x.sched.tasks a with state := .killed } }.locked .task).goto
      (.killUnlock id)) := by
    simp [Cpu.exec, Cpu.goto, Cpu.locked, Sched.setTask]
  refine Alone.exec htest (Alone.exec hstate (Alone.exec hrelock (Alone.exec hwrite
    (alone_unlock _ hpc hfree ?_))))
  simp [Cpu.exec, Cpu.goto]

/-- **`task_kill`**, not interrupted. -/
theorem execs_kill (x : Cpu) (id : ℕ) (h : ListInv x.sched l) (hpc : x.pc x.sched.current = .out)
    (hfree : x.holder .task = none) :
    Alone (x.goto (Call.kill id).entry) { x with sched := (taskKill x.sched id).2 } := by
  by_cases hid : id = 0
  · rw [show (Call.kill id).entry = .out by simp [Call.entry, hid], x.goto_out hpc]
    simp only [taskKill, hid, if_true]
    exact Relation.ReflTransGen.refl
  have hentry : (Call.kill id).entry = .killLock id := by simp [Call.entry, hid]
  have hlock : (x.goto (.killLock id)).exec = some ((x.locked .task).goto (.killFirst id)) := by
    simp only [Cpu.exec, Cpu.goto, Function.update_self]
    exact x.take_goto hfree _ _
  have hfirst : ((x.locked .task).goto (.killFirst id)).exec = some ((x.locked .task).goto
      (.killFind id (some ((l.map TaskNode.task).headD .head)))) := by
    simp [Cpu.exec, Cpu.goto, Cpu.locked, h.ring.next_head]
  -- the search goes over the whole list, or up to the task
  have hfind := alone_find (x.locked .task) id [] l h
  rw [hentry]
  refine Alone.exec hlock (Alone.exec hfirst (hfind.trans ?_))
  show Alone ((x.locked .task).goto (.killReturn id (l.find? fun a => (x.sched.tasks a).id = id))) _
  unfold taskKill
  rw [if_neg hid, (taskGetFromId_spec h id).1]
  cases l.find? fun a => (x.sched.tasks a).id = id with
  | none =>
    apply alone_unlock _ hpc hfree
    simp [Cpu.exec, Cpu.goto]
  | some a =>
    have hreturn : ((x.locked .task).goto (.killReturn id (some a))).exec =
        some (x.goto (.killTest id a)) := by
      simp only [Cpu.exec, Cpu.goto, Function.update_self]
      exact congrArg some (x.give_goto hfree _ _)
    -- the lock is given back before the state is tested
    apply Alone.exec hreturn
    dsimp only
    cases hst : (x.sched.tasks a).state with
    | invalid =>
      apply Relation.ReflTransGen.single
      rw [← x.goto_out hpc]
      simp [Cpu.exec, Cpu.goto, hst]
    | killed =>
      have htest : (x.goto (.killTest id a)).exec = some (x.goto (.killTestState id a)) := by
        simp [Cpu.exec, Cpu.goto, hst]
      refine Alone.exec htest (Relation.ReflTransGen.single ?_)
      rw [← x.goto_out hpc]
      simp [Cpu.exec, Cpu.goto, hst]
    | running => exact alone_mark x id a hpc hfree (Or.inl hst)
    | waiting => exact alone_mark x id a hpc hfree (Or.inr (Or.inl hst))
    | paused => exact alone_mark x id a hpc hfree (Or.inr (Or.inr hst))

/-- The calls of `page_alloc` on the way to the struct. -/
theorem alone_enterStruct (x : Cpu) (c : CreateCall) (hfree : x.holder .buddy = none) (left : ℕ) :
    Alone (x.goto (enterStruct c left)) (x.goto (.createStruct c)) := by
  induction left with
  | zero => exact Relation.ReflTransGen.refl
  | succ left ih => exact (alone_pages x (.struct c left) hfree).trans ih

/-- The calls of `page_alloc` on the way to the address space. -/
theorem alone_enterSpace (x : Cpu) (c : CreateCall) (a : ℕ) (hfree : x.holder .buddy = none)
    (left : ℕ) : Alone (x.goto (enterSpace c a left)) (x.goto (.createSpace c a)) := by
  induction left with
  | zero => exact Relation.ReflTransGen.refl
  | succ left ih => exact (alone_pages x (.space c a left) hfree).trans ih

section Create

variable (x : Cpu) (c : CreateCall) (hpc : x.pc x.sched.current = .out)
  (htask : x.holder .task = none)
include hpc htask

/-- The end of every `task_create` that has taken the lock. -/
theorem alone_createUnlock : Alone ((x.locked .task).goto .createUnlock) x := by
  apply alone_unlock x hpc htask
  simp [Cpu.exec, Cpu.goto]

theorem alone_createFree (a : ℕ) : Alone ((x.locked .task).goto (.createFree a)) x := by
  have hfree : ((x.locked .task).goto (.createFree a)).exec =
      some ((x.locked .task).goto .createUnlock) := by
    simp [Cpu.exec, Cpu.goto]
  exact Alone.exec hfree (alone_createUnlock x hpc htask)

/-- The four stores of `clist_add`. -/
theorem alone_link (a : ℕ) : Alone ((x.locked .task).goto (.createLink a .firstPrev))
    { x with sched := taskAddToScheduler x.sched a } := by
  have hstore : ∀ (h : NodeHeap TaskNode) (st : LinkStep), st ≠ .headNext →
      (({ x with sched := { x.sched with nodes := h } }.locked .task).goto
        (.createLink a st)).exec =
        some (({ x with sched := { x.sched with nodes := linkStore h a st } }.locked .task).goto
          (st.next a)) := by
    intro h st hst
    simp [Cpu.exec, Cpu.goto, Cpu.locked, hst]
  have hlast : ∀ h : NodeHeap TaskNode, linkStore h a .headNext = clistAdd x.sched.nodes .head (.task a) →
      (({ x with sched := { x.sched with nodes := h } }.locked .task).goto
        (.createLink a .headNext)).exec =
        some (({ x with sched := taskAddToScheduler x.sched a }.locked .task).goto
          .createUnlock) := by
    intro h hall
    simp [Cpu.exec, Cpu.goto, Cpu.locked, LinkStep.next, hall, taskAddToScheduler]
  apply Alone.exec (hstore x.sched.nodes .firstPrev (by decide))
  apply Alone.exec (hstore _ .newNext (by decide))
  apply Alone.exec (hstore _ .newPrev (by decide))
  apply Alone.exec (hlast _ (linkStore_all x.sched.nodes a))
  exact alone_createUnlock { x with sched := taskAddToScheduler x.sched a } hpc htask

variable (hbuddy : x.holder .buddy = none)
include hbuddy

/-- The end of `task_create`, once it knows the address space of the task at `a`. -/
theorem alone_createSpace (a : ℕ) (hvm : (x.sched.tasks a).vmSpace = none)
    (hbot : (x.sched.tasks a).kstackBot ≠ 0) :
    Alone ((x.locked .task).goto (.createSpace c a)) { x with sched :=
      match c.al.space with
      | none => x.sched
      | some (w, pgd) =>
        taskAddToScheduler (archTaskCreate (taskCreateVmSpace x.sched a w pgd) a) a } := by
  cases hspace : c.al.space with
  | none =>
    -- the stack is given back
    have hclean : ((x.locked .task).goto (.createSpace c a)).exec =
        some ((x.locked .task).goto (.pages .lock (.freeStack a))) := by
      simp [Cpu.exec, Cpu.goto, Cpu.locked, hspace, enterCleanup, enterFreeStack, hvm, hbot]
    have hfree := alone_pages (x.locked .task) (.freeStack a) hbuddy
    exact Alone.exec hclean (hfree.trans (alone_createFree x hpc htask a))
  | some wp =>
    obtain ⟨w, pgd⟩ := wp
    have hset : ((x.locked .task).goto (.createSpace c a)).exec =
        some (({ x with sched := taskCreateVmSpace x.sched a w pgd }.locked .task).goto
          (.createArch a)) := by
      simp [Cpu.exec, Cpu.goto, Cpu.locked, hspace, taskCreateVmSpace, Sched.setTask]
    generalize hs : taskCreateVmSpace x.sched a w pgd = s at hset
    have hcur : s.current = x.sched.current := by
      rw [← hs]
      rfl
    have harch : (({ x with sched := s }.locked .task).goto (.createArch a)).exec =
        some (({ x with sched := archTaskCreate s a }.locked .task).goto
          (.createLink a .firstPrev)) := by
      simp [Cpu.exec, Cpu.goto, Cpu.locked, archTaskCreate, Sched.setTask]
    refine Alone.exec hset (Alone.exec harch ?_)
    rw [← hcur] at hpc
    dsimp only
    rw [hs]
    exact alone_link { x with sched := archTaskCreate s a } hpc htask a

/-- `task_create` from the stack on, the struct being at `a`. -/
theorem alone_createStack (a : ℕ) (hvm : (x.sched.tasks a).vmSpace = none)
    (hzero : (x.sched.tasks a).kstackBot = 0) :
    Alone ((x.locked .task).goto (.createStack c a)) { x with sched :=
      match c.al.stack with
      | none => x.sched
      | some v =>
        match c.al.space with
        | none => taskCreateKernelStack x.sched a v
        | some (w, pgd) => taskAddToScheduler (archTaskCreate
            (taskCreateVmSpace (taskCreateKernelStack x.sched a v) a w pgd) a) a } := by
  cases hstack : c.al.stack with
  | none =>
    have hexec : ((x.locked .task).goto (.createStack c a)).exec =
        some ((x.locked .task).goto (.createFree a)) := by
      simp [Cpu.exec, Cpu.goto, Cpu.locked, hstack, enterCleanup, enterFreeStack, hvm, hzero]
    exact Alone.exec hexec (alone_createFree x hpc htask a)
  | some v =>
    have hexec : ((x.locked .task).goto (.createStack c a)).exec =
        some (({ x with sched := taskCreateKernelStack x.sched a v }.locked .task).goto
          (enterSpace c a c.spacePages)) := by
      simp [Cpu.exec, Cpu.goto, Cpu.locked, hstack, taskCreateKernelStack, Sched.setTask]
    have hbot : ((taskCreateKernelStack x.sched a v).tasks a).kstackBot ≠ 0 := by
      simp [taskCreateKernelStack, Sched.setTask, pageSize]
    have hvm' : ((taskCreateKernelStack x.sched a v).tasks a).vmSpace = none := by
      simp [taskCreateKernelStack, Sched.setTask, hvm]
    have hpages := alone_enterSpace ({ x with sched := taskCreateKernelStack x.sched a v }.locked .task)
      c a hbuddy c.spacePages
    exact Alone.exec hexec (hpages.trans (alone_createSpace
      { x with sched := taskCreateKernelStack x.sched a v } c hpc htask hbuddy a hvm' hbot))

end Create

/-- **`task_create`**, not interrupted. -/
theorem execs_create (x : Cpu) (c : CreateCall) (hpc : x.pc x.sched.current = .out)
    (htask : x.holder .task = none) (hbuddy : x.holder .buddy = none)
    (hnew : ∀ a, c.al.struct = some a → x.pc a = .out) :
    Alone (x.goto (Call.create c).entry)
      { x with sched := (taskCreate x.sched c.args c.al).2.1 } := by
  unfold Call.entry taskCreate
  dsimp only
  split
  · rw [x.goto_out hpc]
  split
  · rw [x.goto_out hpc]
  have hlock : (x.goto (.createLock c)).exec =
      some ((x.locked .task).goto (enterStruct c c.structPages)) := by
    simp only [Cpu.exec, Cpu.goto, Function.update_self]
    exact x.take_goto htask _ _
  have hgrow := alone_enterStruct (x.locked .task) c hbuddy c.structPages
  refine Alone.exec hlock (hgrow.trans ?_)
  cases hstruct : c.al.struct with
  | none =>
    have hexec : ((x.locked .task).goto (.createStruct c)).exec =
        some ((x.locked .task).goto .createUnlock) := by
      simp [Cpu.exec, Cpu.goto, hstruct]
    exact Alone.exec hexec (alone_createUnlock x hpc htask)
  | some a =>
    -- the struct is nobody's, so that resetting its counter changes nothing
    have hsame : ∀ p q, Function.update (Function.update (Function.update x.pc x.sched.current p)
        a .out) x.sched.current q = Function.update x.pc x.sched.current q := by
      intro p q
      by_cases ha : a = x.sched.current
      · subst ha
        simp
      · rw [Function.update_comm ha, Function.update_idem, Function.update_comm (Ne.symm ha),
          ← hnew a hstruct, Function.update_eq_self]
    have hexec : ((x.locked .task).goto (.createStruct c)).exec =
        some (({ x with sched := taskAllocStruct x.sched c.args a }.locked .task).goto
          (.pages .lock (.stack c a))) := by
      simp only [Cpu.exec, Cpu.goto, Cpu.locked, Function.update_self, hstruct, taskAllocStruct,
        Sched.setTask, hsame]
    have hpages := alone_pages ({ x with sched := taskAllocStruct x.sched c.args a }.locked .task)
      (.stack c a) hbuddy
    refine Alone.exec hexec (hpages.trans ?_)
    -- from the stack on; the failures are its own cases
    have hrest := alone_createStack { x with sched := taskAllocStruct x.sched c.args a } c hpc htask
      hbuddy a (by simp [taskAllocStruct, Sched.setTask]) (by simp [taskAllocStruct, Sched.setTask])
    dsimp only at hrest ⊢
    cases hstack : c.al.stack with
    | none =>
      rw [hstack] at hrest
      exact hrest
    | some v =>
      rw [hstack] at hrest
      cases hspace : c.al.space with
      | none =>
        rw [hspace] at hrest
        exact hrest
      | some wp =>
        rw [hspace] at hrest
        exact hrest

end Rotary

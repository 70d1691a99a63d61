import Rotary.Sched.Preempt
import Rotary.Sched.Resources

namespace Rotary

open Lib

/-!
# A `task_create` that runs out of memory

`task_create` makes four allocations, and each of them may be the first one that fails.  The clean-up
behind `goto cleanup` decides from the fields of the new struct what there is to give back.  It is
reached from three of the four points: without a page for the directory, `page_alloc_va` looks up the
frame number of the null page, before `ptable_pgd_new` tests for a null pointer.

* `failPoint` — the first allocation that fails, from the memory before the call;
* `GivesUp` — a call that fails and gives back what it has acquired, one lemma for each point;
* `taskCreate_undone_iff` — a failed call is undone exactly if it did not fail at the directory.
-/

/-- The allocations of `task_create`, in their order. -/
inductive FailPoint
  | struct
  | stack
  | space
  | pgd
  deriving DecidableEq, Repr

/-- The first allocation of a `task_create` that fails.  There is none also if a page turns out to be
    outside the direct map before that. -/
def failPoint (M : KernelMemory) : Option FailPoint :=
  match kmallocMem M sizeofTask with
  | none => none
  | some (a, M) =>
    if a = 0 then some .struct
    else
      match pageAlloc M.buddy taskKernelStackOrder with
      | (none, _) => some .stack
      | (some t, b) =>
        if addressable t taskKernelStackOrder then
          match kmallocMem { M with buddy := b } sizeofVmSpace with
          | none => none
          | some (vms, M) =>
            if vms = 0 then some .space
            else
              match allocPage M.buddy with
              | (none, _) => some .pgd
              | (some _, _) => none
        else none

/-- What has come before the failure. -/
inductive FailsAt (M : KernelMemory) : FailPoint → Prop
  | struct (M₁ : KernelMemory) (hstruct : kmallocMem M sizeofTask = some (0, M₁)) :
      FailsAt M .struct
  | stack (a : ℕ) (M₁ : KernelMemory) (b : BuddyAllocator)
      (hstruct : kmallocMem M sizeofTask = some (a, M₁)) (ha : a ≠ 0)
      (hstack : pageAlloc M₁.buddy taskKernelStackOrder = (none, b)) : FailsAt M .stack
  | space (a t : ℕ) (M₁ M₂ : KernelMemory) (b : BuddyAllocator)
      (hstruct : kmallocMem M sizeofTask = some (a, M₁)) (ha : a ≠ 0)
      (hstack : pageAlloc M₁.buddy taskKernelStackOrder = (some t, b))
      (haddr : addressable t taskKernelStackOrder = true)
      (hspace : kmallocMem { M₁ with buddy := b } sizeofVmSpace = some (0, M₂)) : FailsAt M .space
  | pgd (a t vms : ℕ) (M₁ M₂ : KernelMemory) (b b' : BuddyAllocator)
      (hstruct : kmallocMem M sizeofTask = some (a, M₁)) (ha : a ≠ 0)
      (hstack : pageAlloc M₁.buddy taskKernelStackOrder = (some t, b))
      (haddr : addressable t taskKernelStackOrder = true)
      (hspace : kmallocMem { M₁ with buddy := b } sizeofVmSpace = some (vms, M₂)) (hvms : vms ≠ 0)
      (hpgd : allocPage M₂.buddy = (none, b')) : FailsAt M .pgd

variable {M M₁ M' : KernelMemory} {point : FailPoint} {sys sys' : System} {args : TaskArgs}
  {al : TaskAlloc} {s sched : Sched} {l : List ℕ} {es : List Event} {log : List (Entry Resource)}
  {β : Baseline} {H : Set Resource} {a kernelPgd : ℕ}

theorem failsAt_of_failPoint (h : failPoint M = some point) : FailsAt M point := by
  unfold failPoint at h
  cases hstruct : kmallocMem M sizeofTask with
  | none => simp [hstruct] at h
  | some r =>
    obtain ⟨a, M₁⟩ := r
    rw [hstruct] at h
    dsimp only at h
    by_cases ha : a = 0
    · subst ha
      obtain rfl : FailPoint.struct = point := by simpa using h
      exact .struct M₁ hstruct
    rw [if_neg ha] at h
    cases hstack : pageAlloc M₁.buddy taskKernelStackOrder with
    | mk found b =>
      rw [hstack] at h
      cases found with
      | none =>
        obtain rfl := Option.some.inj h
        exact .stack a M₁ b hstruct ha hstack
      | some t =>
        dsimp only at h
        by_cases haddr : addressable t taskKernelStackOrder = true
        · rw [if_pos haddr] at h
          cases hspace : kmallocMem { M₁ with buddy := b } sizeofVmSpace with
          | none => simp [hspace] at h
          | some r =>
            obtain ⟨vms, M₂⟩ := r
            rw [hspace] at h
            dsimp only at h
            by_cases hvms : vms = 0
            · subst hvms
              obtain rfl : FailPoint.space = point := by simpa using h
              exact .space a t M₁ M₂ b hstruct ha hstack haddr hspace
            rw [if_neg hvms] at h
            cases hpgd : allocPage M₂.buddy with
            | mk found' b' =>
              rw [hpgd] at h
              cases found' with
              | none =>
                obtain rfl := Option.some.inj h
                exact .pgd a t vms M₁ M₂ b b' hstruct ha hstack haddr hspace hvms hpgd
              | some q => cases h
        · rw [if_neg haddr] at h
          cases h

/-! ### Giving up -/

/-- A call that fails: it returns null, the new task is not on the list, and the clean-up gives back
    what was acquired. -/
structure GivesUp (β : Baseline) (kernelPgd : ℕ) (sys : System) (args : TaskArgs) (l : List ℕ)
    (al : TaskAlloc) (M₁ : KernelMemory) (log : List (Entry Resource)) (sched : Sched)
    (es : List Event) (M' : KernelMemory) : Prop where
  allocs : taskAllocs kernelPgd sys.mem = some (al, M₁, log)
  call : taskCreate sys.sched args al = (none, sched, es)
  list : ListInv sched l
  tasks : ∀ x ∈ l, sched.tasks x = sys.sched.tasks x
  back : ∃ H, Legal ∅ log H ∧ GivesBack β M₁ H es M' ∅

/-- Behind the tests of its arguments, `task_create` goes by what it is given. -/
theorem taskCreate_valid (hargs : args.valid = true) (s : Sched) :
    taskCreate s args ⟨none, none, none⟩ = (none, s, []) ∧
      (∀ a, taskCreate s args ⟨some a, none, none⟩ =
        (none, taskAllocStruct s args a, taskRelease (taskAllocStruct s args a) a)) ∧
      ∀ a v, taskCreate s args ⟨some a, some v, none⟩ =
        (none, taskCreateKernelStack (taskAllocStruct s args a) a v,
          taskRelease (taskCreateKernelStack (taskAllocStruct s args a) a v) a) := by
  unfold TaskArgs.valid at hargs
  simp only [Bool.and_eq_true, Bool.or_eq_true, decide_eq_true_eq] at hargs
  obtain ⟨⟨hstate, hmin⟩, hmax⟩ := hargs
  have hst : ¬ (args.state ≠ .paused ∧ args.state ≠ .waiting) := by
    rintro ⟨hpaused, hwaiting⟩
    exact hstate.elim hpaused hwaiting
  have hprio : ¬ (args.priority < taskPriorityMin ∨ taskPriorityMax < args.priority) := by
    omega
  refine ⟨?_, fun a => ?_, fun a v => ?_⟩
  · unfold taskCreate
    rw [if_neg hst, if_neg hprio]
  · unfold taskCreate
    rw [if_neg hst, if_neg hprio]
  · unfold taskCreate
    rw [if_neg hst, if_neg hprio]

section Points

variable (hheld : Held β sys.mem ∅) (hlist : ListInv sys.sched l)

include hheld hlist

/-- The new struct is that of no task on the list. -/
theorem newStruct_inv (args : TaskArgs) (hlive : ∀ a ∈ l, a ∈ β.objects)
    (hstruct : kmallocMem sys.mem sizeofTask = some (a, M₁)) (ha : a ≠ 0) :
    a ∉ l ∧ Held β M₁ {.object .task a} ∧
      Legal ∅ [.acquire (Resource.object .task a)] {.object .task a} ∧
      ListInv (taskAllocStruct sys.sched args a) l := by
  obtain ⟨-, hfresh, hnot, hheld₁⟩ := hheld.kmallocMem .task hstruct ha
  have hal : a ∉ l := fun hmem => hfresh (hlive a hmem)
  rw [insert_empty_eq] at hheld₁
  refine ⟨hal, hheld₁, .acquire _ _ _ _ (hnot .task) ?_, ?_⟩
  · rw [insert_empty_eq]
    exact .nil _
  · exact hlist.outside hal (fun n hn => clistInit_other sys.sched.nodes hn) rfl rfl

variable (hargs : args.valid = true)

include hargs

/-- Without a struct there is nothing to give back. -/
theorem givesUp_struct (hstruct : kmallocMem sys.mem sizeofTask = some (0, M₁)) :
    GivesUp β kernelPgd sys args l ⟨none, none, none⟩ M₁ [] sys.sched [] M₁ := by
  refine ⟨?_, (taskCreate_valid hargs sys.sched).1, hlist, fun _ _ => rfl, ∅, .nil ∅, .nil ?_⟩
  · unfold taskAllocs
    rw [hstruct]
    rfl
  · exact hheld.kmallocMem_null hstruct

variable (hlive : ∀ a ∈ l, a ∈ β.objects)

include hlive

/-- Without a stack the struct is given back. -/
theorem givesUp_stack {b : BuddyAllocator} (hstruct : kmallocMem sys.mem sizeofTask = some (a, M₁))
    (ha : a ≠ 0) (hstack : pageAlloc M₁.buddy taskKernelStackOrder = (none, b)) :
    ∃ M', GivesUp β kernelPgd sys args l ⟨some a, none, none⟩ M₁ [.acquire (.object .task a)]
      (taskAllocStruct sys.sched args a) (taskRelease (taskAllocStruct sys.sched args a) a) M' := by
  obtain ⟨hal, hheld₁, hlegal, hinv⟩ := newStruct_inv hheld hlist args hlive hstruct ha
  obtain rfl := hheld₁.pageAlloc_null hstack
  obtain ⟨M', hback⟩ := hheld₁.freeStruct (Set.mem_singleton _)
  rw [Set.sdiff_self] at hback
  refine ⟨M', ?_, (taskCreate_valid hargs sys.sched).2.1 a, hinv, ?_, _, hlegal, ?_⟩
  · unfold taskAllocs
    rw [hstruct]
    dsimp only
    rw [if_neg ha, hstack]
  · intro x hx
    exact Function.update_of_ne (ne_of_mem_of_not_mem hx hal) _ _
  · -- the struct was cleared: there is no stack, and no space
    have hevents : taskRelease (taskAllocStruct sys.sched args a) a =
        [.touch a, .touch a] ++ [.freeStruct a] := by
      simp [taskRelease, taskDestroyVmSpace, taskDestroyKernelStack, taskAllocStruct, Sched.setTask]
    rw [hevents]
    refine .silent_append (fun e he => ?_) hback
    simp only [List.mem_cons, List.not_mem_nil, or_false, or_self] at he
    subst he
    trivial

/-- Without a space the stack and the struct are given back. -/
theorem givesUp_space {t : ℕ} {M₂ : KernelMemory} {b : BuddyAllocator}
    (hstruct : kmallocMem sys.mem sizeofTask = some (a, M₁)) (ha : a ≠ 0)
    (hstack : pageAlloc M₁.buddy taskKernelStackOrder = (some t, b))
    (haddr : addressable t taskKernelStackOrder = true)
    (hspace : kmallocMem { M₁ with buddy := b } sizeofVmSpace = some (0, M₂)) :
    ∃ M', GivesUp β kernelPgd sys args l ⟨some a, some (pageVa t), none⟩ M₂
      [.acquire (.object .task a), .acquire (.block t taskKernelStackOrder)]
      (taskCreateKernelStack (taskAllocStruct sys.sched args a) a (pageVa t))
      (taskRelease (taskCreateKernelStack (taskAllocStruct sys.sched args a) a (pageVa t)) a)
      M' := by
  obtain ⟨hal, hheld₁, hlegal, hinv⟩ := newStruct_inv hheld hlist args hlive hstruct ha
  obtain ⟨hnot, hheld₂⟩ := hheld₁.pageAlloc hstack
  have hheld₃ := hheld₂.kmallocMem_null hspace
  have hlt : t < directMapPages := Nat.lt_of_lt_of_le
    (Nat.lt_add_of_pos_right (Nat.two_pow_pos _)) (of_decide_eq_true haddr)
  -- the clean-up goes in the opposite order
  obtain ⟨M₃, hback₁⟩ := hheld₃.freeStack (Set.mem_insert _ _) hlt
  rw [Set.insert_sdiff_self_of_notMem (hnot taskKernelStackOrder)] at hback₁
  obtain ⟨M', hback₂⟩ := hback₁.held.freeStruct (Set.mem_singleton _)
  rw [Set.sdiff_self] at hback₂
  refine ⟨M', ?_, (taskCreate_valid hargs sys.sched).2.2 a (pageVa t), ?_, ?_, _,
    hlegal.append (.acquire _ _ _ _ (hnot taskKernelStackOrder) (.nil _)), ?_⟩
  · unfold taskAllocs vmSpaceNewMem
    rw [hstruct]
    dsimp only
    rw [if_neg ha, hstack]
    dsimp only
    rw [if_pos haddr, hspace]
    rfl
  · exact ⟨hinv.ring, hinv.length_le, hinv.sentinel⟩
  · intro x hx
    have hxa : x ≠ a := ne_of_mem_of_not_mem hx hal
    simp [taskCreateKernelStack, taskAllocStruct, Sched.setTask, hxa]
  · -- the stack is found from `kstack_bot`, and there is no space
    have hsize : pageSize ≠ 0 := by decide
    have hevents : taskRelease (taskCreateKernelStack (taskAllocStruct sys.sched args a) a
        (pageVa t)) a = [.touch a, .touch a, .lock .buddy] ++ ([.freeStack (pageVa t)] ++
          [.freeStruct a]) := by
      simp [taskRelease, taskDestroyVmSpace, taskDestroyKernelStack, taskCreateKernelStack,
        taskAllocStruct, Sched.setTask, hsize]
    rw [hevents]
    refine .silent_append (fun e he => ?_) (hback₁.append hback₂)
    simp only [List.mem_cons, List.not_mem_nil, or_false] at he
    rcases he with rfl | rfl | rfl <;> trivial

end Points

/-- Without a page for the directory the null page is looked up, in the middle of the call. -/
theorem taskAllocs_pgd (hfail : FailsAt M .pgd) (kernelPgd : ℕ) : taskAllocs kernelPgd M = none := by
  cases hfail with
  | pgd a t vms M₁ M₂ b b' hstruct ha hstack haddr hspace hvms hpgd =>
    unfold taskAllocs vmSpaceNewMem ptablePgdNew
    rw [hstruct]
    dsimp only
    rw [if_neg ha, hstack]
    dsimp only
    rw [if_pos haddr, hspace]
    dsimp only
    rw [if_neg hvms, hpgd]
    rfl

/-! ### Undone -/

/-- Nothing is left of a call: the list and the tasks on it are as before, and so are the objects and
    the pages in use, slab frames apart; everything acquired was released, once.  The clean-up ends in
    a `kfree` also without a struct, and in an `unlock`: run by the current task on a processor
    whose locks are free, the call leaves them free. -/
structure Undone (kernelPgd : ℕ) (S : Set ℕ) (sys : System) (args : TaskArgs) (sys' : System)
    (log : List (Entry Resource)) : Prop where
  list : taskList sys'.sched = taskList sys.sched
  tasks : ∀ a ∈ taskList sys.sched, sys'.sched.tasks a = sys.sched.tasks a
  objects : liveObjects sys'.mem.heap = liveObjects sys.mem.heap
  pages : allocatedPages S sys'.mem = allocatedPages S sys.mem
  once : Once log
  balanced : ∀ r, log.count (.acquire r) = log.count (.release r)
  kfree : kfreeMem sys'.mem 0 = some sys'.mem
  unlocked : ∀ al M₁ log₁, taskAllocs kernelPgd sys.mem = some (al, M₁, log₁) →
    ∀ (structPages spacePages : ℕ) (x : Cpu), x.sched = sys.sched → x.pc x.sched.current = .out →
      x.holder .task = none → x.holder .buddy = none → (∀ a, al.struct = some a → x.pc a = .out) →
      Alone (x.goto (Call.create ⟨args, al, structPages, spacePages⟩).entry)
        { x with sched := sys'.sched }

/-- **A call that gives up is undone.** -/
theorem GivesUp.undone (h : GivesUp β kernelPgd sys args l al M₁ log sched es M')
    (hinv : sys.mem.Inv β.count β.pages β.objects β.blocks) (hlist : ListInv sys.sched l)
    (hargs : args.valid = true) :
    ∃ log', taskCreateMem β.img kernelPgd sys args = some (none, ⟨sched, M'⟩, log') ∧
      Undone kernelPgd β.pages sys args ⟨sched, M'⟩ log' := by
  obtain ⟨H, hacquired, log', hrelease, -, hheld, hreleased⟩ := h.back
  have hinv' := hheld.inv
  have hlegal := hacquired.append hreleased
  have hl := hlist.taskList_eq
  refine ⟨log ++ log', ?_, ?_⟩
  · unfold taskCreateMem
    rw [if_neg (by simp [hargs]), h.allocs]
    dsimp only
    rw [h.call, hrelease]
    rfl
  · refine ⟨h.list.taskList_eq.trans hl.symm, ?_, ?_, ?_, hlegal.once, fun r => hlegal.balanced r,
      hinv'.kfreeMem_null, ?_⟩
    · rw [hl]
      exact h.tasks
    · exact hinv'.objects.symm.trans hinv.objects
    · rw [hinv'.allocatedPages_eq, hinv.allocatedPages_eq]
    · intro al₁ M₂ log₂ hallocs structPages spacePages x hsched hpc htask hbuddy hnew
      obtain ⟨rfl, -, -⟩ : al = al₁ ∧ M₁ = M₂ ∧ log = log₂ := by
        simpa using h.allocs.symm.trans hallocs
      have halone := execs_create x ⟨args, al, structPages, spacePages⟩ hpc htask hbuddy hnew
      rw [hsched, h.call] at halone
      exact halone

section

variable {img : KernelImage} {n : ℕ} {S O : Set ℕ} {B : Live}

/-- **A failed `task_create` is undone** exactly if the page of the directory is not what it could not
    get. -/
theorem taskCreate_undone_iff (hinv : sys.mem.Inv n S O B) (hbelow : BuddiesBelow n S)
    (himg : ∀ p ∈ S, OutsideImage img p) (hlist : ListInv sys.sched l) (hlive : ∀ a ∈ l, a ∈ O)
    (hargs : args.valid = true) (hfail : failPoint sys.mem = some point) :
    (∃ sys' log, taskCreateMem img kernelPgd sys args = some (none, sys', log) ∧
      Undone kernelPgd S sys args sys' log) ↔ point ≠ .pgd := by
  let β : Baseline := ⟨img, n, S, hbelow, himg, O, B⟩
  have hheld : Held β sys.mem ∅ := Held.of_inv hinv
  constructor
  · rintro ⟨sys', log, hcall, -⟩ rfl
    unfold taskCreateMem at hcall
    rw [hargs, taskAllocs_pgd (failsAt_of_failPoint hfail)] at hcall
    cases hcall
  · intro hne
    have hundone : ∀ {al M₁ log sched es M'}, GivesUp β kernelPgd sys args l al M₁ log sched es M' →
        ∃ sys' log, taskCreateMem img kernelPgd sys args = some (none, sys', log) ∧
          Undone kernelPgd S sys args sys' log := by
      intro al M₁ log sched es M' h
      obtain ⟨log', hcall, hrest⟩ := h.undone hinv hlist hargs
      exact ⟨_, log', hcall, hrest⟩
    cases failsAt_of_failPoint hfail with
    | struct M₁ hstruct => exact hundone (givesUp_struct hheld hlist hargs hstruct)
    | stack a M₁ b hstruct ha hstack =>
      obtain ⟨M', h⟩ := givesUp_stack hheld hlist hargs hlive hstruct ha hstack
      exact hundone h
    | space a t M₁ M₂ b hstruct ha hstack haddr hspace =>
      obtain ⟨M', h⟩ := givesUp_space hheld hlist hargs hlive hstruct ha hstack haddr hspace
      exact hundone h
    | pgd => exact absurd rfl hne

end

/-- Page 64 and the `count` pages from 80 on: one page for the directory of the idle task, and
    16 for each slab and each stack. -/
def tightPages (count : ℕ) : List ℕ := 64 :: List.range' 80 count
def tightAllocator (count : ℕ) : BuddyAllocator :=
  releaseAll (initialAllocator emptyImage zeroPast 0xC0010000 128) (tightPages count)
def tightSystem (count : ℕ) : Option System :=
  taskInitMem 0 (KernelMemory.start (fun _ => 0) (fun _ _ => 0) (tightAllocator count))
    (fun _ => rawTask) (fun _ => ⟨none, none⟩) (fun _ => 0) 64 rawTask

theorem tightSystem_started {count : ℕ} (hcount : count ≤ 48)
    (hrange : ∀ i ∈ (tightAllocator count).indexed, i < 128) (h : tightSystem count = some sys) :
    Started 128 {p | p ∈ tightPages count} 0 sys ∧ BuddiesBelow 128 {p | p ∈ tightPages count} := by
  have hboot : HandedOver emptyImage 128 (tightPages count) (tightAllocator count) :=
    ⟨by decide, zeroPast, smallBootmem, _, _, rfl, rfl⟩
  have hps : ∀ p ∈ tightPages count, p < 128 := by
    intro p hp
    rcases List.mem_cons.mp hp with rfl | hp
    · decide
    · have := List.mem_range'_1.mp hp
      omega
  have hnd : (tightPages count).Nodup := by
    refine List.nodup_cons.mpr ⟨fun hmem => ?_, List.nodup_range'⟩
    have := List.mem_range'_1.mp hmem
    omega
  have hstart := KernelMemory.start_inv (fun _ => 0) (fun _ _ => 0)
    (hboot.running hnd hps (Or.inl hrange))
  refine ⟨taskInitMem_started hstart (fun i _ => ?_) h, hboot.buddiesBelow hnd hps hrange⟩
  simp [KernelMemory.start, entryExists, testFlag]

theorem tightSystem_failPoint :
    (tightSystem 32).map (fun sys => failPoint sys.mem) = some (some .stack) := by
  decide +kernel

/-- With the pages for the idle task and the slabs only, there is no stack. -/
theorem taskCreate_undone_iff_noStack : ∃ sys sys' log, tightSystem 32 = some sys ∧
    taskCreateMem emptyImage 0 sys workerArgs = some (none, sys', log) ∧
      Undone 0 {p | p ∈ tightPages 32} sys workerArgs sys' log := by
  obtain ⟨sys, hsys, hfail⟩ := Option.map_eq_some_iff.mp tightSystem_failPoint
  obtain ⟨hstarted, hbelow⟩ := tightSystem_started (by decide) (by decide +kernel) hsys
  obtain ⟨B, hinv⟩ := hstarted.mem
  have hlive : ∀ a ∈ [sys.sched.current], a ∈ liveObjects sys.mem.heap := by
    intro a ha
    rw [List.mem_singleton.mp ha]
    exact hstarted.idle
  have hargs : workerArgs.valid = true := by decide
  obtain ⟨sys', log, hundone⟩ := (taskCreate_undone_iff hinv hbelow (fun p _ => outsideImage_empty p)
    hstarted.list hlive hargs hfail).mpr (by decide)
  exact ⟨sys, sys', log, hsys, hundone⟩

/-- With the pages of one stack more, everything but the directory is there. -/
theorem tightSystem_pgd :
    (tightSystem 48).map (fun sys => failPoint sys.mem) = some (some .pgd) := by
  decide +kernel

/-- There the call does not return: the null page is dereferenced. -/
theorem taskCreate_null_page : ∃ sys, tightSystem 48 = some sys ∧ workerArgs.valid = true ∧
    failPoint sys.mem = some .pgd ∧ taskCreateMem emptyImage 0 sys workerArgs = none ∧
      ¬ ∃ sys' log, taskCreateMem emptyImage 0 sys workerArgs = some (none, sys', log) ∧
        Undone 0 {p | p ∈ tightPages 48} sys workerArgs sys' log := by
  obtain ⟨sys, hsys, hfail⟩ := Option.map_eq_some_iff.mp tightSystem_pgd
  have hnone : taskCreateMem emptyImage 0 sys workerArgs = none := by
    unfold taskCreateMem
    rw [taskAllocs_pgd (failsAt_of_failPoint hfail)]
    rfl
  refine ⟨sys, hsys, by decide, hfail, hnone, ?_⟩
  rintro ⟨sys', log, hcall, -⟩
  rw [hnone] at hcall
  cases hcall

end Rotary

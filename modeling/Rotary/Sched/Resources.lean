import Rotary.Lib.Ledger
import Rotary.Mm.KernelMemory
import Rotary.Sched.Lifecycle

namespace Rotary

open Lib

/-!
# What tasks own (`kernel/sched/task.c` on the allocators)

The task functions with the memory behind them: `task_create` takes a `struct task`, the pages of
a kernel stack, a `struct vm_space` and the page of a directory from the allocators, and a purge
finds them again in the fields of the task, from `kstack_bot - kstack_size` and from the physical
address of the directory.

* `taskCreateMem` / `taskScheduleMem` — the calls, with the log of what they acquire and release;
* `SysStep` / `SysRun` — runs from `task_init` of `task_create`, `task_kill` and `task_schedule`,
  with stores of the tasks in between;
* `Held` — of the objects and blocks in use, those of the created tasks are `H`, and without
  them the allocators stand as before the first `task_create`;
* `Owns` — the fields of a task lead back to what was allocated for it;
* `sysRun_neutral` — once every created task is purged, nothing is left, and everything was
  released once.

A fault (a null page, or a page outside the direct map) ends a run: the calls are `none` then.
-/

/-- The scheduler and the memory of the kernel. -/
structure System where
  sched : Sched
  mem : KernelMemory

/-- The structs on the heap. -/
inductive Kind
  | task
  | space
  deriving DecidableEq, Repr

/-- What a task is given: an object of the heap, or a block of `2 ^ order` pages. -/
inductive Resource
  | object (kind : Kind) (addr : ℕ)
  | block (pfn order : ℕ)
  deriving DecidableEq, Repr

/-- `sizeof(struct vm_space)`. -/
def sizeofVmSpace : ℕ := 16

/-! ### Acquiring -/

/-- `vm_space_new`: the space with the physical address of its directory, if there is one. -/
def vmSpaceNewMem (kernelPgd : ℕ) (M : KernelMemory) :
    Option (Option (ℕ × ℕ) × KernelMemory × List (Entry Resource)) :=
  match kmallocMem M sizeofVmSpace with
  | none => none
  | some (vms, M) =>
    if vms = 0 then some (none, M, [])
    else
      match ptablePgdNew allocPage M.frames M.buddy kernelPgd with
      | none => none
      | some (pgd, frames, b) =>
        -- the directory is filled through `PAGE_VA`
        if addressable pgd 0 then
          some (some (vms, virToPhy (pageVa pgd)), { M with frames := frames, buddy := b },
            [.acquire (.object .space vms), .acquire (.block pgd 0)])
        else none

/-- What the allocators return during one `task_create`, in its order. -/
def taskAllocs (kernelPgd : ℕ) (M : KernelMemory) :
    Option (TaskAlloc × KernelMemory × List (Entry Resource)) :=
  match kmallocMem M sizeofTask with
  | none => none
  | some (a, M) =>
    if a = 0 then some (⟨none, none, none⟩, M, [])
    else
      match pageAlloc M.buddy taskKernelStackOrder with
      | (none, b) =>
        some (⟨some a, none, none⟩, { M with buddy := b }, [.acquire (.object .task a)])
      | (some t, b) =>
        -- the stack is cleared through `PAGE_VA`
        if addressable t taskKernelStackOrder then
          (vmSpaceNewMem kernelPgd { M with buddy := b }).map fun (space, M, log) =>
            (⟨some a, some (pageVa t), space⟩, M,
              .acquire (.object .task a) :: .acquire (.block t taskKernelStackOrder) :: log)
        else none

/-! ### Releasing -/

/-- What an event of the scheduler does to memory. -/
def release (img : KernelImage) (M : KernelMemory) :
    Event → Option (KernelMemory × List (Entry Resource))
  | .lock _ => some (M, [])
  | .touch _ => some (M, [])
  | .freeStruct a => (kfreeMem M a).map fun M => (M, [.release (.object .task a)])
  | .freeStack start =>
    some (pageFreeVaMem img M start taskKernelStackOrder,
      [.release (.block (paToPfn (virToPhy start)) taskKernelStackOrder)])
  | .freePgd pgd =>
    -- the entries are read through `PHY_TO_VIR`
    if addressable (paToPfn pgd) 0 then
      some ({ M with buddy := ptablePgdFree (freePage img) M.frames M.buddy (paToPfn pgd) },
        (pgdPages M.frames (paToPfn pgd)).map fun p => .release (.block p 0))
    else none
  | .freeSpace v => (kfreeMem M v).map fun M => (M, [.release (.object .space v)])

/-- A list of events. -/
def releaseEvents (img : KernelImage) :
    KernelMemory → List Event → Option (KernelMemory × List (Entry Resource))
  | M, [] => some (M, [])
  | M, e :: es =>
    match release img M e with
    | none => none
    | some (M, log) => (releaseEvents img M es).map fun (M, log') => (M, log ++ log')

/-! ### The calls -/

/-- `task_create`: the new task, the state, and what was acquired and released. -/
def taskCreateMem (img : KernelImage) (kernelPgd : ℕ) (sys : System) (args : TaskArgs) :
    Option (Option ℕ × System × List (Entry Resource)) :=
  -- a refused argument comes before the first allocation
  if !args.valid then some (none, sys, [])
  else
    match taskAllocs kernelPgd sys.mem with
    | none => none
    | some (al, M, log) =>
      let (task, sched, events) := taskCreate sys.sched args al
      (releaseEvents img M events).map fun (M, log') => (task, ⟨sched, M⟩, log ++ log')

/-- `task_schedule`: the state in which the next task runs, and what the purge released. -/
def taskScheduleMem (img : KernelImage) (sys : System) (esp : ℕ) :
    Option (System × List (Entry Resource)) :=
  match taskSchedule sys.sched esp with
  | (none, _) => none
  | (some sched, events) =>
    (releaseEvents img sys.mem events).map fun (M, log) => (⟨sched, M⟩, log)

/-- `task_init`, the memory of the structs being `mem`, `links` and `pgds` before it; `none` also
    stands for the `PANIC` without a struct for the idle task. -/
def taskInitMem (kernelPgd : ℕ) (M : KernelMemory) (mem : ℕ → Task) (links : NodeHeap TaskNode)
    (pgds : ℕ → ℕ) (stackBottom : ℕ) (raw : Task) : Option System :=
  match kmallocMem M sizeofTask with
  | none => none
  | some (a, M) =>
    if a = 0 then none
    else
      match vmSpaceNewMem kernelPgd M with
      | none => none
      | some (some (v, pgd), M, _) => some ⟨taskInit mem links pgds stackBottom a v pgd raw, M⟩
      | some (none, M, _) =>
        -- a null `vm_space` is not checked
        let s := taskInit mem links pgds stackBottom a 0 (pgds 0) raw
        some ⟨s.setTask a { s.tasks a with vmSpace := none }, M⟩

/-- A call, or stores of the tasks between two calls; the log is what the step acquires and
    releases. -/
inductive SysStep (img : KernelImage) (kernelPgd : ℕ) :
    System → List (Entry Resource) → System → Prop
  | create (sys : System) (args : TaskArgs) (a : ℕ) (sys' : System) (log : List (Entry Resource))
      (hcall : taskCreateMem img kernelPgd sys args = some (some a, sys', log)) :
      SysStep img kernelPgd sys log sys'
  | kill (sys : System) (id : ℕ)
      (hother : (taskGetFromId sys.sched id).1 ≠ some sys.sched.current) :
      SysStep img kernelPgd sys [] ⟨(taskKill sys.sched id).2, sys.mem⟩
  | schedule (sys : System) (esp : ℕ) (sys' : System) (log : List (Entry Resource))
      (hcall : taskScheduleMem img sys esp = some (sys', log)) : SysStep img kernelPgd sys log sys'
  /-- Nobody stores into the allocators' bytes, and nothing is mapped: the user half of the
      directories stays. -/
  | write (sys : System) (m' : ByteMem) (frames' : PhysMem)
      (hstore : ∀ a, m' a ≠ sys.mem.heap.mem a → sys.mem.heap.ClientByte a)
      (htasks : ∀ a ∈ taskList sys.sched, ∀ v, (sys.sched.tasks a).vmSpace = some v →
        ∀ i < kernelPdeStart, frames' (paToPfn (sys.sched.pgd v)) i =
          sys.mem.frames (paToPfn (sys.sched.pgd v)) i)
      (hkernel : ∀ i < kernelPdeStart, frames' kernelPgd i = sys.mem.frames kernelPgd i) :
      SysStep img kernelPgd sys []
        ⟨sys.sched, ⟨{ sys.mem.heap with mem := m' }, frames', sys.mem.buddy⟩⟩

/-- A run, with its log. -/
inductive SysRun (img : KernelImage) (kernelPgd : ℕ) (sys₀ : System) :
    List (Entry Resource) → System → Prop
  | nil : SysRun img kernelPgd sys₀ [] sys₀
  | snoc (log log' : List (Entry Resource)) (sys sys' : System)
      (hrun : SysRun img kernelPgd sys₀ log sys) (hstep : SysStep img kernelPgd sys log' sys') :
      SysRun img kernelPgd sys₀ (log ++ log') sys'

variable {a x t order esp idle kernelPgd : ℕ} {M M' M₁ M₂ : KernelMemory} {H H' H₁ H₂ : Set Resource}
  {kind : Kind} {s s' : Sched} {l pre rest : List ℕ} {es es' : List Event} {e : Event}
  {log log' log₁ log₂ : List (Entry Resource)} {sys sys' : System}

/-! ### What is held -/

/-- The objects among the resources. -/
def objectsOf (H : Set Resource) : Set ℕ := {x | ∃ kind, .object kind x ∈ H}

/-- The objects and blocks in use before the first `task_create`, in an allocator of the pages
    `pages` whose lookups stay in the page array, with no page of the kernel image. -/
structure Baseline where
  img : KernelImage
  count : ℕ
  pages : Set ℕ
  below : BuddiesBelow count pages
  outside : ∀ p ∈ pages, OutsideImage img p
  objects : Set ℕ
  blocks : Live

variable {β : Baseline}

/-- Beside the objects and blocks of `β`, exactly the resources `H` are in use. -/
structure Held (β : Baseline) (M : KernelMemory) (H : Set Resource) : Prop where
  mem : ∃ B, M.Inv β.count β.pages (β.objects ∪ objectsOf H) B ∧
    (∀ t order, .block t order ∈ H → B t = some ⟨order, 1⟩ ∧ β.blocks t = none) ∧
    ∀ t, (∀ order, .block t order ∉ H) → B t = β.blocks t
  fresh : ∀ x ∈ objectsOf H, x ∉ β.objects
  kinds : ∀ x kind kind', .object kind x ∈ H → .object kind' x ∈ H → kind = kind'

theorem objectsOf_insert_object (kind : Kind) (x : ℕ) (H : Set Resource) :
    objectsOf (insert (.object kind x) H) = insert x (objectsOf H) := by
  ext y
  simp only [objectsOf, Set.mem_ofPred_eq, Set.mem_insert_iff, Resource.object.injEq]
  constructor
  · rintro ⟨j, ⟨-, rfl⟩ | hj⟩
    · exact Or.inl rfl
    · exact Or.inr ⟨j, hj⟩
  · rintro (rfl | ⟨j, hj⟩)
    · exact ⟨kind, Or.inl ⟨rfl, rfl⟩⟩
    · exact ⟨j, Or.inr hj⟩

theorem objectsOf_insert_block (t order : ℕ) (H : Set Resource) :
    objectsOf (insert (.block t order) H) = objectsOf H := by
  simp [objectsOf]

theorem objectsOf_sdiff_block (t order : ℕ) (H : Set Resource) :
    objectsOf (H \ {.block t order}) = objectsOf H := by
  simp [objectsOf]

/-- With nothing held, the allocators stand as before. -/
theorem Held.of_inv (h : M.Inv β.count β.pages β.objects β.blocks) : Held β M ∅ := by
  have hempty : objectsOf ∅ = ∅ := by simp [objectsOf]
  refine ⟨⟨β.blocks, ?_, fun _ _ hb => absurd hb (Set.notMem_empty _), fun _ _ => rfl⟩, ?_, ?_⟩
  · rw [hempty, Set.union_empty]
    exact h
  · simp [hempty]
  · exact fun _ _ _ hx => absurd hx (Set.notMem_empty _)

theorem Held.inv (h : Held β M ∅) : M.Inv β.count β.pages β.objects β.blocks := by
  have hempty : objectsOf ∅ = ∅ := by simp [objectsOf]
  obtain ⟨B, hinv, -, hsame⟩ := h.mem
  have hB : B = β.blocks := funext fun t => hsame t fun _ => Set.notMem_empty _
  rwa [hB, hempty, Set.union_empty] at hinv

/-- `kmalloc` of a struct. -/
theorem Held.kmallocMem {size : ℕ} (h : Held β M H) (kind : Kind)
    (hcall : Rotary.kmallocMem M size = some (x, M')) (hx : x ≠ 0) :
    M'.frames = M.frames ∧ x ∉ β.objects ∧ (∀ j, .object j x ∉ H) ∧
      Held β M' (insert (.object kind x) H) := by
  obtain ⟨B, hinv, hblocks, hsame⟩ := h.mem
  obtain ⟨hframes, hcases⟩ := hinv.kmallocMem hcall
  rcases hcases with ⟨hnull, -⟩ | ⟨-, hnot, hinv'⟩
  · exact absurd hnull hx
  · have hold : x ∉ β.objects := fun hin => hnot (Or.inl hin)
    have hH : ∀ j, .object j x ∉ H := fun j hin => hnot (Or.inr ⟨j, hin⟩)
    refine ⟨hframes, hold, hH, ⟨B, ?_, ?_, ?_⟩, ?_, ?_⟩
    · rw [objectsOf_insert_object, Set.union_insert]
      exact hinv'
    · intro t order hb
      exact hblocks t order (hb.resolve_left (by simp))
    · intro t hb
      exact hsame t fun order hin => hb order (Set.mem_insert_of_mem _ hin)
    · rw [objectsOf_insert_object]
      rintro y (rfl | hy)
      · exact hold
      · exact h.fresh y hy
    · -- one object is not two kinds of struct: the new one was not held
      intro y j j' hj hj'
      rcases hj with hj | hj
      · obtain ⟨rfl, rfl⟩ := Resource.object.inj hj
        rcases hj' with hj' | hj'
        · exact (Resource.object.inj hj').1.symm
        · exact absurd hj' (hH j')
      · rcases hj' with hj' | hj'
        · obtain ⟨-, rfl⟩ := Resource.object.inj hj'
          exact absurd hj (hH j)
        · exact h.kinds y j j' hj hj'

/-- `kmalloc` that fails. -/
theorem Held.kmallocMem_null {size : ℕ} (h : Held β M H)
    (hcall : Rotary.kmallocMem M size = some (0, M')) : Held β M' H := by
  obtain ⟨B, hinv, hblocks, hsame⟩ := h.mem
  obtain ⟨-, hcases⟩ := hinv.kmallocMem hcall
  rcases hcases with ⟨-, hinv'⟩ | ⟨hne, -⟩
  · exact ⟨⟨B, hinv', hblocks, hsame⟩, h.fresh, h.kinds⟩
  · exact absurd rfl hne

/-- `page_alloc` that fails. -/
theorem Held.pageAlloc_null {b' : BuddyAllocator} (h : Held β M H)
    (hcall : Rotary.pageAlloc M.buddy order = (none, b')) : b' = M.buddy := by
  obtain ⟨B, hinv, -, -⟩ := h.mem
  rcases hinv.pageAlloc_cases order with heq | ⟨t, b₁, heq, -, -, -⟩
  · exact (Prod.mk.inj (hcall.symm.trans heq)).2
  · rw [hcall] at heq
    cases (Prod.mk.inj heq).1

/-- `page_alloc` of a block. -/
theorem Held.pageAlloc {b' : BuddyAllocator} (h : Held β M H)
    (hcall : Rotary.pageAlloc M.buddy order = (some t, b')) :
    (∀ k, .block t k ∉ H) ∧
      Held β { M with buddy := b' } (insert (.block t order) H) := by
  obtain ⟨B, hinv, hblocks, hsame⟩ := h.mem
  rcases hinv.pageAlloc_cases order with heq | ⟨t', b₁, heq, -, hB, hinv'⟩
  · rw [hcall] at heq
    simp at heq
  · rw [hcall] at heq
    obtain ⟨rfl, rfl⟩ : t = t' ∧ b' = b₁ := by simpa using heq
    -- a block just allocated was not live, and what is held is
    have hH : ∀ k, .block t k ∉ H := fun k hin => by
      rw [(hblocks t k hin).1] at hB
      cases hB
    have hnone : β.blocks t = none := (hsame t hH).symm.trans hB
    refine ⟨hH, ⟨Function.update B t (some ⟨order, 1⟩), ?_, ?_, ?_⟩, ?_, ?_⟩
    · rw [objectsOf_insert_block]
      exact hinv'
    · rintro u k (hu | hu)
      · obtain ⟨rfl, rfl⟩ := Resource.block.inj hu
        exact ⟨Function.update_self _ _ _, hnone⟩
      · have hut : u ≠ t := fun heq => hH k (heq ▸ hu)
        rw [Function.update_of_ne hut]
        exact hblocks u k hu
    · intro u hu
      have hut : u ≠ t := fun heq => hu order (heq ▸ Set.mem_insert _ _)
      rw [Function.update_of_ne hut]
      exact hsame u fun k hin => hu k (Set.mem_insert_of_mem _ hin)
    · rw [objectsOf_insert_block]
      exact h.fresh
    · intro y j j' hj hj'
      exact h.kinds y j j' (hj.resolve_left (by simp)) (hj'.resolve_left (by simp))

/-- `kfree` of a struct that is held. -/
theorem Held.kfreeMem (h : Held β M H) (hx : .object kind x ∈ H) :
    ∃ M', Rotary.kfreeMem M x = some M' ∧ M'.frames = M.frames ∧
      Held β M' (H \ {.object kind x}) := by
  obtain ⟨B, hinv, hblocks, hsame⟩ := h.mem
  obtain ⟨M', hcall, hframes, hinv'⟩ := hinv.kfreeMem (Or.inr ⟨kind, hx⟩)
  -- the object is held under one kind, and it is none of those from before
  have hobjects : (β.objects ∪ objectsOf H) \ {x} = β.objects ∪ objectsOf (H \ {.object kind x}) := by
    ext y
    simp only [objectsOf, Set.mem_sdiff, Set.mem_union, Set.mem_ofPred_eq, Set.mem_singleton_iff,
      Resource.object.injEq, not_and]
    constructor
    · rintro ⟨hy | ⟨j, hj⟩, hne⟩
      · exact Or.inl hy
      · exact Or.inr ⟨j, hj, fun _ => hne⟩
    · rintro (hy | ⟨j, hj, hne⟩)
      · refine ⟨Or.inl hy, ?_⟩
        rintro rfl
        exact h.fresh y ⟨kind, hx⟩ hy
      · refine ⟨Or.inr ⟨j, hj⟩, ?_⟩
        rintro rfl
        exact hne (h.kinds y j kind hj hx) rfl
  refine ⟨M', hcall, hframes, ⟨B, ?_, ?_, ?_⟩, ?_, ?_⟩
  · rw [← hobjects]
    exact hinv'
  · exact fun t order hb => hblocks t order hb.1
  · intro t hb
    exact hsame t fun order hin => hb order ⟨hin, by simp⟩
  · rintro y ⟨j, hj⟩
    exact h.fresh y ⟨j, hj.1⟩
  · exact fun y j j' hj hj' => h.kinds y j j' hj.1 hj'.1

/-- `page_free` of a block that is held, with its order. -/
theorem Held.pageFree (h : Held β M H) (ht : .block t order ∈ H) :
    Held β { M with buddy := (Rotary.pageFree β.img M.buddy (some t) order).2 }
      (H \ {.block t order}) := by
  obtain ⟨B, hinv, hblocks, hsame⟩ := h.mem
  obtain ⟨hB, hnone⟩ := hblocks t order ht
  -- a block is held with one order
  have honly : ∀ k, .block t k ∈ H → k = order := by
    intro k hk
    have heq := (hblocks t k hk).1.symm.trans hB
    simpa using heq
  refine ⟨⟨Function.update B t none, ?_, ?_, ?_⟩, ?_, ?_⟩
  · rw [objectsOf_sdiff_block]
    exact hinv.pageFree β.below β.outside hB
  · rintro u k ⟨hu, hne⟩
    have hut : u ≠ t := by
      rintro rfl
      exact hne (by rw [honly k hu]; rfl)
    rw [Function.update_of_ne hut]
    exact hblocks u k hu
  · intro u hu
    by_cases hut : u = t
    · rw [hut, Function.update_self, hnone]
    · rw [Function.update_of_ne hut]
      refine hsame u fun k hin => hu k ⟨hin, fun heq => hut ?_⟩
      exact (Resource.block.inj heq).1
  · rw [objectsOf_sdiff_block]
    exact h.fresh
  · exact fun y j j' hj hj' => h.kinds y j j' hj.1 hj'.1

theorem Held.write {m' : ByteMem} (h : Held β M H)
    (hstore : ∀ a, m' a ≠ M.heap.mem a → M.heap.ClientByte a) (frames' : PhysMem) :
    Held β ⟨{ M.heap with mem := m' }, frames', M.buddy⟩ H := by
  obtain ⟨B, hinv, hblocks, hsame⟩ := h.mem
  exact ⟨⟨B, hinv.write hstore frames', hblocks, hsame⟩, h.fresh, h.kinds⟩

/-! ### Giving back -/

/-- The event is an access or a lock taken. -/
def Event.Silent : Event → Prop
  | .lock _ => True
  | .touch _ => True
  | .freeStruct _ => False
  | .freeStack _ => False
  | .freePgd _ => False
  | .freeSpace _ => False

theorem TouchesOnly.silent (h : TouchesOnly l es) : ∀ e ∈ es, e.Silent := by
  intro e he
  rcases h e he with ⟨a, -, rfl⟩ | ⟨k, rfl⟩
  · trivial
  · trivial

theorem touchNode_silent (n : Option TaskNode) : ∀ e ∈ touchNode n, e.Silent := by
  intro e he
  cases n with
  | none => cases he
  | some n =>
    cases n with
    | head => cases he
    | task a =>
      rw [List.mem_singleton.mp he]
      trivial

theorem searchFrom_silent (s : Sched) (fuel : ℕ) (n : TaskNode) :
    ∀ e ∈ (searchFrom s fuel n).2, e.Silent := by
  induction fuel generalizing n with
  | zero => exact fun e he => absurd he List.not_mem_nil
  | succ fuel ih =>
    intro e he
    rw [searchFrom] at he
    split at he
    · exact touchNode_silent _ e he
    · rcases List.mem_append.mp he with he | he
      · exact touchNode_silent _ e he
      · exact ih _ e he

/-- The events lead from `M`, with `H` held, to `M'` with `H'` held: they do not fault, and their
    log is legal. -/
def GivesBack (β : Baseline) (M : KernelMemory) (H : Set Resource) (es : List Event)
    (M' : KernelMemory) (H' : Set Resource) : Prop :=
  ∃ log, releaseEvents β.img M es = some (M', log) ∧ M'.frames = M.frames ∧ Held β M' H' ∧
    Legal H log H'

theorem GivesBack.nil (h : Held β M H) : GivesBack β M H [] M H :=
  ⟨[], rfl, rfl, h, .nil H⟩

theorem GivesBack.held (h : GivesBack β M H es M' H') : Held β M' H' := by
  obtain ⟨log, -, -, hheld, -⟩ := h
  exact hheld

theorem GivesBack.frames (h : GivesBack β M H es M' H') : M'.frames = M.frames := by
  obtain ⟨log, -, hframes, -, -⟩ := h
  exact hframes

theorem release_silent (h : e.Silent) (img : KernelImage) (M : KernelMemory) :
    release img M e = some (M, []) := by
  cases e with
  | lock k => rfl
  | touch a => rfl
  | freeStruct a => cases h
  | freeStack v => cases h
  | freePgd p => cases h
  | freeSpace v => cases h

/-- Accesses before what gives back. -/
theorem GivesBack.silent_append (hes : ∀ e ∈ es, e.Silent) (h : GivesBack β M H es' M' H') :
    GivesBack β M H (es ++ es') M' H' := by
  induction es with
  | nil => exact h
  | cons e es ih =>
    obtain ⟨log, heq, hframes, hheld, hlegal⟩ := ih fun e he => hes e (List.mem_cons_of_mem _ he)
    refine ⟨log, ?_, hframes, hheld, hlegal⟩
    rw [List.cons_append, releaseEvents, release_silent (hes e List.mem_cons_self)]
    dsimp only
    rw [heq]
    rfl

theorem releaseEvents_append {img : KernelImage} (h : releaseEvents img M es = some (M₁, log₁))
    (h' : releaseEvents img M₁ es' = some (M₂, log₂)) :
    releaseEvents img M (es ++ es') = some (M₂, log₁ ++ log₂) := by
  induction es generalizing M log₁ with
  | nil =>
    obtain ⟨rfl, rfl⟩ : M = M₁ ∧ [] = log₁ := by simpa [releaseEvents] using h
    exact h'
  | cons e es ih =>
    rw [releaseEvents] at h
    rw [List.cons_append, releaseEvents]
    cases hrelease : release img M e with
    | none => simp [hrelease] at h
    | some r =>
      obtain ⟨M', log'⟩ := r
      rw [hrelease] at h
      obtain ⟨⟨M'', log''⟩, heq, hres⟩ := Option.map_eq_some_iff.mp h
      obtain ⟨rfl, rfl⟩ : M'' = M₁ ∧ log' ++ log'' = log₁ := by simpa using hres
      dsimp only
      rw [ih heq, List.append_assoc]
      rfl

theorem GivesBack.append (h : GivesBack β M H es M₁ H₁) (h' : GivesBack β M₁ H₁ es' M' H') :
    GivesBack β M H (es ++ es') M' H' := by
  obtain ⟨log, heq, hframes, -, hlegal⟩ := h
  obtain ⟨log', heq', hframes', hheld, hlegal'⟩ := h'
  exact ⟨log ++ log', releaseEvents_append heq heq', hframes'.trans hframes, hheld,
    hlegal.append hlegal'⟩

/-- An event that gives one resource back. -/
theorem GivesBack.single {r : Resource} (hheld : Held β M₁ (H \ {r})) (hr : r ∈ H)
    (hframes : M₁.frames = M.frames) (hrelease : release β.img M e = some (M₁, [.release r])) :
    GivesBack β M H [e] M₁ (H \ {r}) := by
  refine ⟨[.release r], ?_, hframes, hheld, .release H _ r [] hr (.nil _)⟩
  rw [releaseEvents, hrelease]
  rfl

theorem Held.freeSpace (h : Held β M H) (hx : .object .space x ∈ H) :
    ∃ M', GivesBack β M H [.freeSpace x] M' (H \ {.object .space x}) := by
  obtain ⟨M', hcall, hframes, hheld⟩ := h.kfreeMem hx
  refine ⟨M', .single hheld hx hframes ?_⟩
  rw [release, hcall]
  rfl

theorem Held.freeStruct (h : Held β M H) (hx : .object .task x ∈ H) :
    ∃ M', GivesBack β M H [.freeStruct x] M' (H \ {.object .task x}) := by
  obtain ⟨M', hcall, hframes, hheld⟩ := h.kfreeMem hx
  refine ⟨M', .single hheld hx hframes ?_⟩
  rw [release, hcall]
  rfl

/-- From the physical address of the directory back to its page: with nothing mapped, it is the
    only page freed. -/
theorem Held.freePgd (h : Held β M H) (hx : .block x 0 ∈ H) (hlt : x < directMapPages)
    (hempty : ∀ i < kernelPdeStart, entryExists (M.frames x i) = false) :
    ∃ M', GivesBack β M H [.freePgd (virToPhy (pageVa x))] M' (H \ {.block x 0}) := by
  have hpage := paToPfn_pageVa hlt
  have haddr : addressable x 0 = true := decide_eq_true (Nat.succ_le_of_lt hlt)
  have hx20 : x < 2 ^ 20 := by
    rw [directMapPages_eq] at hlt
    omega
  have hpages := pgdPages_of_empty hempty
  refine ⟨_, .single (h.pageFree hx) hx rfl ?_⟩
  rw [release, hpage, haddr, ptablePgdFree_eq (freePage β.img) M.frames M.buddy hx20, hpages]
  rfl

/-- From the start of the stack back to its first page. -/
theorem Held.freeStack (h : Held β M H) (hx : .block x taskKernelStackOrder ∈ H)
    (hlt : x < directMapPages) :
    ∃ M', GivesBack β M H [.freeStack (pageVa x)] M' (H \ {.block x taskKernelStackOrder}) := by
  have hpage := paToPfn_pageVa hlt
  refine ⟨_, .single (h.pageFree hx) hx rfl ?_⟩
  rw [release, pageFreeVaMem, hpage]
  rfl

/-! ### What a task owns -/

/-- What `task_create` has allocated for a task beside its struct: the pages of the stack, the
    space, the page of the directory. -/
structure Owner where
  stack : ℕ
  space : ℕ
  pgd : ℕ

/-- All that was allocated for the task at `a`. -/
def Owner.resources (w : Owner) (a : ℕ) : Set Resource :=
  {.object .task a, .block w.stack taskKernelStackOrder, .object .space w.space, .block w.pgd 0}

theorem Owner.task_mem (w : Owner) (a : ℕ) : .object .task a ∈ w.resources a := by
  simp [Owner.resources]

theorem Owner.stack_mem (w : Owner) (a : ℕ) :
    .block w.stack taskKernelStackOrder ∈ w.resources a := by
  simp [Owner.resources]

theorem Owner.space_mem (w : Owner) (a : ℕ) : .object .space w.space ∈ w.resources a := by
  simp [Owner.resources]

theorem Owner.pgd_mem (w : Owner) (a : ℕ) : .block w.pgd 0 ∈ w.resources a := by
  simp [Owner.resources]

/-- The fields of the task at `a` lead back to what was allocated for it, and nothing is mapped in
    its directory. -/
structure Owns (s : Sched) (frames : PhysMem) (a : ℕ) (w : Owner) : Prop where
  kstackBot : (s.tasks a).kstackBot = pageVa w.stack + 2 ^ taskKernelStackOrder * pageSize
  kstackSize : (s.tasks a).kstackSize = 2 ^ taskKernelStackOrder * pageSize
  vmSpace : (s.tasks a).vmSpace = some w.space
  pgd : s.pgd w.space = virToPhy (pageVa w.pgd)
  stack_lt : w.stack < directMapPages
  pgd_lt : w.pgd < directMapPages
  empty : ∀ i < kernelPdeStart, entryExists (frames w.pgd i) = false

variable {w : Owner}

theorem Owns.sameOwner {frames : PhysMem} (h : Owns s frames a w) (hpgd : s'.pgd = s.pgd)
    (ht : SameOwner (s.tasks a) (s'.tasks a)) : Owns s' frames a w :=
  ⟨ht.kstackBot.trans h.kstackBot, ht.kstackSize.trans h.kstackSize, ht.vmSpace.trans h.vmSpace,
    (congrFun hpgd w.space).trans h.pgd, h.stack_lt, h.pgd_lt, h.empty⟩

theorem Owns.taskRelease_eq {frames : PhysMem} (h : Owns s frames a w) :
    taskRelease s a = [.touch a, .lock .buddy, .freePgd (virToPhy (pageVa w.pgd)),
      .freeSpace w.space, .touch a, .lock .buddy, .freeStack (pageVa w.stack), .freeStruct a] := by
  have hne : pageVa w.stack + 2 ^ taskKernelStackOrder * pageSize ≠ 0 := by
    unfold taskKernelStackOrder pageSize
    omega
  unfold taskRelease taskDestroyVmSpace taskDestroyKernelStack
  rw [h.kstackBot, h.kstackSize, h.vmSpace]
  simp only [h.pgd, hne, if_false, Nat.add_sub_cancel]
  rfl

/-- **Releasing a task** gives back everything that was allocated for it, each thing once. -/
theorem Owns.givesBack (hown : Owns s M.frames a w) (h : Held β M H) (hsub : w.resources a ⊆ H) :
    ∃ M', GivesBack β M H (taskRelease s a) M' (H \ w.resources a) := by
  have htask := hsub (w.task_mem a)
  have hstack := hsub (w.stack_mem a)
  have hspace := hsub (w.space_mem a)
  have hpgd := hsub (w.pgd_mem a)
  have horder : taskKernelStackOrder ≠ 0 := by decide
  -- the four differ in their kind or in their order
  obtain ⟨M₁, h₁⟩ := h.freePgd hpgd hown.pgd_lt hown.empty
  obtain ⟨M₂, h₂⟩ := h₁.held.freeSpace ⟨hspace, by simp⟩
  obtain ⟨M₃, h₃⟩ := h₂.held.freeStack
    ⟨⟨hstack, fun heq => horder (Resource.block.inj heq).2⟩, by simp⟩ hown.stack_lt
  obtain ⟨M₄, h₄⟩ := h₃.held.freeStruct ⟨⟨⟨htask, by simp⟩, by simp⟩, by simp⟩
  have hrest : (((H \ {.block w.pgd 0}) \ {.object .space w.space}) \
      {.block w.stack taskKernelStackOrder}) \ {.object .task a} = H \ w.resources a := by
    ext r
    simp only [Owner.resources, Set.mem_sdiff, Set.mem_singleton_iff, Set.mem_insert_iff, not_or]
    tauto
  have hlocks : ∀ e ∈ [Event.touch a, .lock .buddy], e.Silent := by
    intro e he
    simp only [List.mem_cons, List.not_mem_nil, or_false] at he
    rcases he with rfl | rfl <;> trivial
  refine ⟨M₄, ?_⟩
  rw [hown.taskRelease_eq, ← hrest]
  exact .silent_append hlocks (h₁.append (h₂.append (.silent_append hlocks (h₃.append h₄))))

/-- What the tasks of the list other than the idle task own. -/
def owned (idle : ℕ) (own : ℕ → Owner) (l : List ℕ) : Set Resource :=
  {r | ∃ a ∈ l, a ≠ idle ∧ r ∈ (own a).resources a}

/-- The tasks of the list own what `own` says, and share nothing. -/
structure TasksOwn (s : Sched) (frames : PhysMem) (idle : ℕ) (own : ℕ → Owner) (l : List ℕ) :
    Prop where
  idle_id : (s.tasks idle).id = 0
  owns : ∀ a ∈ l, a ≠ idle → Owns s frames a (own a)
  apart : ∀ a ∈ l, ∀ b ∈ l, a ≠ idle → b ≠ idle → a ≠ b →
    Disjoint ((own a).resources a) ((own b).resources b)

variable {own own' : ℕ → Owner} {frames frames' : PhysMem} {f : ℕ} {l' : List ℕ}

theorem resources_subset_owned (ha : a ∈ l) (hne : a ≠ idle) :
    (own a).resources a ⊆ owned idle own l := fun _ hr => ⟨a, ha, hne, hr⟩

/-- A change that leaves to each task what it owns. -/
theorem TasksOwn.congr (h : TasksOwn s frames idle own l) (hpgd : s'.pgd = s.pgd)
    (ht : ∀ a, SameOwner (s.tasks a) (s'.tasks a))
    (hframes : ∀ a ∈ l, a ≠ idle → ∀ i < kernelPdeStart,
      frames' (own a).pgd i = frames (own a).pgd i) : TasksOwn s' frames' idle own l := by
  refine ⟨(ht idle).id.trans h.idle_id, fun a ha hne => ?_, h.apart⟩
  have hown := (h.owns a ha hne).sameOwner hpgd (ht a)
  refine { hown with empty := fun i hi => ?_ }
  rw [hframes a ha hne i hi]
  exact hown.empty i hi

theorem TasksOwn.sublist (h : TasksOwn s frames idle own l) (hsub : ∀ a ∈ l', a ∈ l) :
    TasksOwn s frames idle own l' :=
  ⟨h.idle_id, fun a ha => h.owns a (hsub a ha), fun a ha b hb => h.apart a (hsub a ha) b (hsub b hb)⟩

/-- Taking one task off the list takes away what it owns, and nothing of the others. -/
theorem TasksOwn.owned_erase (h : TasksOwn s frames idle own l) (hnd : l.Nodup) (hf : f ∈ l)
    (hne : f ≠ idle) : owned idle own (l.erase f) = owned idle own l \ (own f).resources f := by
  ext r
  constructor
  · rintro ⟨a, ha, hai, hr⟩
    have hal := List.mem_of_mem_erase ha
    have haf : a ≠ f := by
      rintro rfl
      exact hnd.not_mem_erase ha
    exact ⟨⟨a, hal, hai, hr⟩, fun hrf =>
      Set.disjoint_left.mp (h.apart a hal f hf hai hne haf) hr hrf⟩
  · rintro ⟨⟨a, ha, hai, hr⟩, hrf⟩
    have haf : a ≠ f := by
      rintro rfl
      exact hrf hr
    exact ⟨a, (List.mem_erase_of_ne haf).mpr ha, hai, hr⟩

/-- **A purge** gives back what the purged tasks owned. -/
theorem PurgeTrace.givesBack (h : PurgeTrace s l es s' l') (hinv : ListInv s l)
    (hown : TasksOwn s M.frames idle own l) (hheld : Held β M (owned idle own l)) :
    ∃ M', GivesBack β M (owned idle own l) es M' (owned idle own l') ∧
      TasksOwn s' M'.frames idle own l' := by
  induction h generalizing M with
  | done s l es ht =>
    have hback := GivesBack.silent_append ht.silent (.nil hheld)
    rw [List.append_nil] at hback
    exact ⟨M, hback, hown⟩
  | purge s l f es es' s' l' ht hf hkilled hid _ ih =>
    have hne : f ≠ idle := by
      rintro rfl
      exact hid hown.idle_id
    obtain ⟨M₁, hrelease⟩ := (hown.owns f hf hne).givesBack hheld (resources_subset_owned hf hne)
    rw [← hown.owned_erase hinv.nodup hf hne] at hrelease
    have hown₁ : TasksOwn { s with nodes := clistDeleteNode s.nodes (.task f) } M₁.frames idle own
        (l.erase f) := by
      rw [hrelease.frames]
      refine TasksOwn.congr (s := s) ?_ rfl (fun _ => ⟨rfl, rfl, rfl, rfl⟩) fun _ _ _ _ _ => rfl
      exact hown.sublist fun a ha => List.mem_of_mem_erase ha
    obtain ⟨M', hrest, hown'⟩ := ih (hinv.unlink hf) hown₁ hrelease.held
    refine ⟨M', ?_, hown'⟩
    rw [List.append_assoc]
    exact .silent_append ht.silent (hrelease.append hrest)

/-! ### The invariant of a run -/

/-- The invariant: the task list is a ring, its tasks own what is held beside `β`, and the kernel's
    own directory maps nothing in the user half. -/
structure System.Inv (β : Baseline) (kernelPgd idle : ℕ) (sys : System) (own : ℕ → Owner)
    (l : List ℕ) : Prop where
  list : ListInv sys.sched l
  tasks : TasksOwn sys.sched sys.mem.frames idle own l
  held : Held β sys.mem (owned idle own l)
  kernel : ∀ i < kernelPdeStart, entryExists (sys.mem.frames kernelPgd i) = false

theorem switchTo_sameOwner (s : Sched) (prev next esp a : ℕ) :
    SameOwner (s.tasks a) ((switchTo s prev next esp).tasks a) := by
  unfold switchTo Sched.setTask
  constructor <;> by_cases han : a = next <;> by_cases hap : a = prev <;>
    by_cases hst : (s.tasks prev).state = .running <;> simp_all [Function.update_of_ne]

theorem ticked_sameOwner (s : Sched) (a : ℕ) : SameOwner (s.tasks a) ((ticked s).tasks a) := by
  unfold ticked
  apply setTask_sameOwner
  exact ⟨rfl, rfl, rfl, rfl⟩

/-- `task_schedule` returns at once, or it purges and switches; its events are those of the purge,
    with accesses around them. -/
theorem taskSchedule_events {sched : Sched} (h : taskSchedule s esp = (some sched, es)) :
    (sched = s ∧ es = []) ∨
    ∃ next before after, sched = switchTo (taskPurgeKilledTasks (ticked s)).1
        (taskPurgeKilledTasks (ticked s)).1.current next esp ∧
      es = before ++ ((taskPurgeKilledTasks (ticked s)).2 ++ after) ∧
      (∀ e ∈ before, e.Silent) ∧ ∀ e ∈ after, e.Silent := by
  have hselect : taskSelect s = ((taskPurgeKilledTasks (ticked s)).1,
      (searchFrom (taskPurgeKilledTasks (ticked s)).1
        ((taskPurgeKilledTasks (ticked s)).1.created + 2)
        (((taskPurgeKilledTasks (ticked s)).1.nodes
          (.task (taskPurgeKilledTasks (ticked s)).1.current)).next.getD .head)).1,
      .touch s.current :: (taskPurgeKilledTasks (ticked s)).2 ++
        .touch (taskPurgeKilledTasks (ticked s)).1.current ::
          (searchFrom (taskPurgeKilledTasks (ticked s)).1
            ((taskPurgeKilledTasks (ticked s)).1.created + 2)
            (((taskPurgeKilledTasks (ticked s)).1.nodes
              (.task (taskPurgeKilledTasks (ticked s)).1.current)).next.getD .head)).2) := rfl
  unfold taskSchedule at h
  rw [hselect] at h
  -- neither the purge nor the search is looked into
  generalize taskPurgeKilledTasks (ticked s) = r at h ⊢
  obtain ⟨s₁, purged⟩ := r
  dsimp only at h ⊢
  have hsilent := searchFrom_silent s₁ (s₁.created + 2)
    ((s₁.nodes (.task s₁.current)).next.getD .head)
  generalize searchFrom s₁ (s₁.created + 2) ((s₁.nodes (.task s₁.current)).next.getD .head) = q
    at h hsilent
  obtain ⟨found, searched⟩ := q
  cases hen : s.schedEnabled with
  | false =>
    rw [hen] at h
    obtain ⟨rfl, rfl⟩ : s = sched ∧ [] = es := by simpa using h
    exact Or.inl ⟨rfl, rfl⟩
  | true =>
    rw [hen] at h
    cases found with
    | none => simp at h
    | some n =>
      cases n with
      | head => simp at h
      | task next =>
        obtain ⟨hsched, hes⟩ := Prod.mk.inj h
        refine Or.inr ⟨next, [.touch s.current], .touch s₁.current :: searched ++
          [.touch s₁.current, .touch next, .touch next, .touch s₁.current, .touch next], ?_, ?_,
          ?_, ?_⟩
        · exact (Option.some.inj hsched).symm
        · rw [← hes]
          simp
        · intro e he
          rw [List.mem_singleton.mp he]
          trivial
        · intro e he
          simp only [List.mem_append, List.mem_cons, List.not_mem_nil, or_false] at he
          rcases he with (rfl | he) | he
          · trivial
          · exact hsilent e he
          · rcases he with rfl | rfl | rfl | rfl | rfl <;> trivial

/-- **`task_schedule`**: what the purge releases is what the purged tasks owned.  The memory side
    of the call returns whenever the scheduler does. -/
theorem System.Inv.schedule {sched : Sched} (h : sys.Inv β kernelPgd idle own l)
    (hsched : taskSchedule sys.sched esp = (some sched, es)) :
    ∃ M' log l', releaseEvents β.img sys.mem es = some (M', log) ∧
      (⟨sched, M'⟩ : System).Inv β kernelPgd idle own l' ∧
      Legal (owned idle own l) log (owned idle own l') := by
  rcases taskSchedule_events hsched with ⟨rfl, rfl⟩ | ⟨next, before, after, rfl, rfl, hbefore, hafter⟩
  · exact ⟨sys.mem, [], l, rfl, h, .nil _⟩
  · have hlist : ListInv (ticked sys.sched) l := h.list.ticked
    have hown : TasksOwn (ticked sys.sched) sys.mem.frames idle own l :=
      h.tasks.congr rfl (ticked_sameOwner sys.sched) fun _ _ _ _ _ => rfl
    obtain ⟨l', htrace⟩ := taskPurgeKilledTasks_trace hlist
    obtain ⟨M', hback, hown'⟩ := htrace.givesBack hlist hown h.held
    have hafter' := GivesBack.silent_append hafter (.nil hback.held)
    rw [List.append_nil] at hafter'
    obtain ⟨log, heq, hframes, hheld, hlegal⟩ :=
      GivesBack.silent_append hbefore (hback.append hafter')
    refine ⟨M', log, l', heq, ⟨(htrace.inv hlist).switchTo _ _ _, ?_, hheld, ?_⟩, hlegal⟩
    · refine hown'.congr ?_ (switchTo_sameOwner _ _ _ _) fun _ _ _ _ _ => rfl
      rw [switchTo_frame]
    · show ∀ i < kernelPdeStart, entryExists (M'.frames kernelPgd i) = false
      rw [hframes]
      exact h.kernel

/-- **`task_kill`** takes nothing from a task. -/
theorem System.Inv.kill (h : sys.Inv β kernelPgd idle own l) (id : ℕ) :
    (⟨(taskKill sys.sched id).2, sys.mem⟩ : System).Inv β kernelPgd idle own l := by
  rcases taskKill_cases h.list id with heq | ⟨a, -, -, -, heq⟩
  · rw [heq]
    exact h
  · rw [heq]
    refine ⟨h.list.marked a, ?_, h.held, h.kernel⟩
    refine h.tasks.congr rfl (fun b => ?_) fun _ _ _ _ _ => rfl
    unfold marked
    apply setTask_sameOwner
    exact ⟨rfl, rfl, rfl, rfl⟩

/-- **Stores of the tasks**, none of them a mapping. -/
theorem System.Inv.write {m' : ByteMem} (h : sys.Inv β kernelPgd idle own l)
    (hstore : ∀ a, m' a ≠ sys.mem.heap.mem a → sys.mem.heap.ClientByte a)
    (htasks : ∀ a ∈ taskList sys.sched, ∀ v, (sys.sched.tasks a).vmSpace = some v →
      ∀ i < kernelPdeStart, frames' (paToPfn (sys.sched.pgd v)) i =
        sys.mem.frames (paToPfn (sys.sched.pgd v)) i)
    (hkernel : ∀ i < kernelPdeStart, frames' kernelPgd i = sys.mem.frames kernelPgd i) :
    (⟨sys.sched, ⟨{ sys.mem.heap with mem := m' }, frames', sys.mem.buddy⟩⟩ : System).Inv
      β kernelPgd idle own l := by
  refine ⟨h.list, ?_, h.held.write hstore frames', fun i hi => ?_⟩
  · refine h.tasks.congr rfl (fun _ => ⟨rfl, rfl, rfl, rfl⟩) fun a ha hne i hi => ?_
    have hown := h.tasks.owns a ha hne
    have hdir := htasks a (h.list.taskList_eq.symm ▸ ha) _ hown.vmSpace i hi
    rwa [hown.pgd, paToPfn_pageVa hown.pgd_lt] at hdir
  · show entryExists (frames' kernelPgd i) = false
    rw [hkernel i hi]
    exact h.kernel i hi

/-! ### Creating a task -/

/-- The frames after `ptable_pgd_new` has copied the kernel's directory into frame `q`. -/
def withDirectory (frames : PhysMem) (kernelPgd q : ℕ) : PhysMem :=
  Function.update (clearFrame frames q) q (clearFrame frames q kernelPgd)

theorem withDirectory_kernel
    (h : ∀ i < kernelPdeStart, entryExists (frames kernelPgd i) = false) (q : ℕ) :
    ∀ i < kernelPdeStart, entryExists (withDirectory frames kernelPgd q kernelPgd i) = false := by
  intro i hi
  by_cases hq : kernelPgd = q
  · rw [withDirectory, hq]
    exact newDirectory_empty (hq ▸ h) q i hi
  · rw [withDirectory, Function.update_of_ne hq, clearFrame, Function.update_of_ne hq]
    exact h i hi

theorem Held.setFrames (h : Held β M H) (frames' : PhysMem) :
    Held β { M with frames := frames' } H := by
  obtain ⟨B, hinv, hblocks, hsame⟩ := h.mem
  exact ⟨⟨B, hinv.setFrames frames', hblocks, hsame⟩, h.fresh, h.kinds⟩

/-- `vm_space_new` returns null when `kmalloc` does; otherwise it takes one page. -/
theorem vmSpaceNewMem_cases {space : Option (ℕ × ℕ)}
    (hnew : vmSpaceNewMem kernelPgd M = some (space, M', log)) :
    ∃ vms M₁, kmallocMem M sizeofVmSpace = some (vms, M₁) ∧
      (vms = 0 ∧ space = none ∧ M' = M₁ ∨
        vms ≠ 0 ∧ ∃ q b, pageAlloc M₁.buddy 0 = (some q, b) ∧ q < directMapPages ∧
          space = some (vms, virToPhy (pageVa q)) ∧
          M' = { M₁ with frames := withDirectory M₁.frames kernelPgd q, buddy := b } ∧
          log = [.acquire (.object .space vms), .acquire (.block q 0)]) := by
  unfold vmSpaceNewMem at hnew
  cases hkmalloc : kmallocMem M sizeofVmSpace with
  | none => simp [hkmalloc] at hnew
  | some r =>
    obtain ⟨vms, M₁⟩ := r
    refine ⟨vms, M₁, rfl, ?_⟩
    rw [hkmalloc] at hnew
    dsimp only at hnew
    -- the null check of `kmalloc`; that of `page_alloc` comes too late to matter
    split at hnew
    · rename_i hvms
      obtain ⟨hspace, hM', -⟩ : none = space ∧ M₁ = M' ∧ [] = log := by simpa using hnew
      exact Or.inl ⟨hvms, hspace.symm, hM'.symm⟩
    · rename_i hvms
      unfold ptablePgdNew allocPage at hnew
      cases halloc : pageAlloc M₁.buddy 0 with
      | mk found b =>
        rw [halloc] at hnew
        cases found with
        | none => simp at hnew
        | some q =>
          dsimp only at hnew
          split at hnew
          · rename_i haddr
            obtain ⟨hspace, hrest⟩ := Prod.mk.inj (Option.some.inj hnew)
            obtain ⟨hM', hlog⟩ := Prod.mk.inj hrest
            exact Or.inr ⟨hvms, q, b, rfl, of_decide_eq_true haddr, hspace.symm, hM'.symm,
              hlog.symm⟩
          · simp at hnew

/-- **`vm_space_new`** returns a space and a directory that nothing else holds. -/
theorem vmSpaceNewMem_spec {v p : ℕ} (h : Held β M H)
    (hnew : vmSpaceNewMem kernelPgd M = some (some (v, p), M', log)) :
    ∃ q, p = virToPhy (pageVa q) ∧ q < directMapPages ∧
      log = [.acquire (.object .space v), .acquire (.block q 0)] ∧
      .object .space v ∉ H ∧ .block q 0 ∉ H ∧
      Held β M' (insert (.block q 0) (insert (.object .space v) H)) ∧
      M'.frames = withDirectory M.frames kernelPgd q := by
  obtain ⟨vms, M₁, hkmalloc, hcases⟩ := vmSpaceNewMem_cases hnew
  rcases hcases with ⟨-, hnull, -⟩ | ⟨hvms, q, b, halloc, hq, hspace, rfl, rfl⟩
  · cases hnull
  · obtain ⟨hframes, -, hnot, hheld⟩ := h.kmallocMem .space hkmalloc hvms
    obtain ⟨hqfree, hheld'⟩ := hheld.pageAlloc halloc
    obtain ⟨rfl, hp⟩ := Prod.mk.inj (Option.some.inj hspace)
    refine ⟨q, hp, hq, rfl, hnot .space, fun hin => ?_, hheld'.setFrames _, ?_⟩
    · exact hqfree 0 (Set.mem_insert_of_mem _ hin)
    · rw [← hframes]

/-- What the allocators have given to a task under construction. -/
structure Acquired (β : Baseline) (kernelPgd : ℕ) (M : KernelMemory) (H : Set Resource) (a : ℕ)
    (w : Owner) (M' : KernelMemory) (log : List (Entry Resource)) : Prop where
  held : Held β M' (H ∪ w.resources a)
  legal : Legal H log (H ∪ w.resources a)
  apart : Disjoint H (w.resources a)
  fresh : a ∉ β.objects
  stack_lt : w.stack < directMapPages
  pgd_lt : w.pgd < directMapPages
  frames : M'.frames = withDirectory M.frames kernelPgd w.pgd

/-- The four resources of a task, in the order in which they are allocated. -/
theorem acquired_eq (w : Owner) (a : ℕ) (H : Set Resource) :
    insert (.block w.pgd 0) (insert (.object .space w.space)
      (insert (.block w.stack taskKernelStackOrder) (insert (.object .task a) H))) =
        H ∪ w.resources a := by
  ext r
  simp only [Owner.resources, Set.mem_union, Set.mem_insert_iff, Set.mem_singleton_iff]
  tauto

theorem acquired_legal {w : Owner} (htask : .object .task a ∉ H)
    (hstack : .block w.stack taskKernelStackOrder ∉ insert (.object .task a) H)
    (hspace : .object .space w.space ∉
      insert (.block w.stack taskKernelStackOrder) (insert (.object .task a) H))
    (hpgd : .block w.pgd 0 ∉
      insert (.block w.stack taskKernelStackOrder) (insert (.object .task a) H)) :
    Legal H [.acquire (.object .task a), .acquire (.block w.stack taskKernelStackOrder),
      .acquire (.object .space w.space), .acquire (.block w.pgd 0)] (H ∪ w.resources a) ∧
      Disjoint H (w.resources a) := by
  constructor
  · rw [← acquired_eq]
    refine .acquire _ _ _ _ htask (.acquire _ _ _ _ hstack (.acquire _ _ _ _ hspace
      (.acquire _ _ _ _ ?_ (.nil _))))
    rintro (heq | hin)
    · cases heq
    · exact hpgd hin
  · apply Set.disjoint_left.mpr
    intro r hr hin
    simp only [Owner.resources, Set.mem_insert_iff, Set.mem_singleton_iff] at hin
    rcases hin with rfl | rfl | rfl | rfl
    · exact htask hr
    · exact hstack (Set.mem_insert_of_mem _ hr)
    · exact hspace (Set.mem_insert_of_mem _ (Set.mem_insert_of_mem _ hr))
    · exact hpgd (Set.mem_insert_of_mem _ (Set.mem_insert_of_mem _ hr))

/-- **The allocations of `task_create`**, when none of them fails. -/
theorem taskAllocs_spec {v space p : ℕ} (h : Held β M H)
    (hal : taskAllocs kernelPgd M = some (⟨some a, some v, some (space, p)⟩, M', log)) :
    ∃ w : Owner, v = pageVa w.stack ∧ space = w.space ∧ p = virToPhy (pageVa w.pgd) ∧
      Acquired β kernelPgd M H a w M' log := by
  unfold taskAllocs at hal
  cases hkmalloc : kmallocMem M sizeofTask with
  | none => simp [hkmalloc] at hal
  | some r =>
    obtain ⟨x, M₁⟩ := r
    rw [hkmalloc] at hal
    dsimp only at hal
    split at hal
    · simp at hal
    · rename_i hx
      obtain ⟨hframes, hfresh, hnot, hheld⟩ := h.kmallocMem .task hkmalloc hx
      cases halloc : pageAlloc M₁.buddy taskKernelStackOrder with
      | mk found b =>
        rw [halloc] at hal
        cases found with
        | none => simp at hal
        | some t =>
          dsimp only at hal
          split at hal
          · rename_i haddr
            -- each allocation is fresh with respect to those before it
            obtain ⟨ht, hheld'⟩ := hheld.pageAlloc halloc
            obtain ⟨⟨sp, M₂, log₂⟩, hspace, hres⟩ := Option.map_eq_some_iff.mp hal
            obtain ⟨⟨rfl, hv, rfl⟩, rfl, rfl⟩ : (x = a ∧ pageVa t = v ∧ sp = some (space, p)) ∧
                M₂ = M' ∧ .acquire (.object .task x) ::
                  .acquire (.block t taskKernelStackOrder) :: log₂ = log := by
              simpa using hres
            obtain ⟨q, hp, hq, rfl, hnotspace, hnotq, hheld'', hframes'⟩ :=
              vmSpaceNewMem_spec hheld' hspace
            obtain ⟨hlegal, hapart⟩ := acquired_legal (w := ⟨t, space, q⟩) (hnot .task)
              (ht taskKernelStackOrder) hnotspace hnotq
            have ht_lt : t < directMapPages := Nat.lt_of_lt_of_le
              (Nat.lt_add_of_pos_right (Nat.two_pow_pos _)) (of_decide_eq_true haddr)
            refine ⟨⟨t, space, q⟩, hv.symm, rfl, hp, ?_, hlegal, hapart, hfresh, ht_lt, hq, ?_⟩
            · rw [← acquired_eq]
              exact hheld''
            · rw [hframes', ← hframes]
          · simp at hal

/-- `task_create` returns a task only when every allocation has succeeded; it gives nothing
    back then. -/
theorem taskCreate_some {args : TaskArgs} {al : TaskAlloc}
    (h : taskCreate s args al = (some a, s', es)) :
    ∃ v space p, al = ⟨some a, some v, some (space, p)⟩ ∧
      s' = taskAddToScheduler (prepared s args a v space p) a ∧ es = [] := by
  obtain ⟨struct, stack, space⟩ := al
  unfold taskCreate at h
  split at h
  · simp at h
  split at h
  · simp at h
  cases struct with
  | none => simp at h
  | some b =>
    cases stack with
    | none => simp at h
    | some v =>
      cases space with
      | none => simp at h
      | some vp =>
        obtain ⟨space, p⟩ := vp
        obtain ⟨hab, hrest⟩ := Prod.mk.inj h
        obtain ⟨hs', hes⟩ := Prod.mk.inj hrest
        obtain rfl : b = a := Option.some.inj hab
        exact ⟨v, space, p, rfl, hs'.symm, hes.symm⟩

/-- The new task owns what was allocated for it, and the others keep what they own. -/
theorem TasksOwn.created {args : TaskArgs} {w : Owner} (h : TasksOwn s M.frames idle own l)
    (hal : a ∉ l) (hai : a ≠ idle) (hac : Acquired β kernelPgd M (owned idle own l) a w M' log)
    (hkernel : ∀ i < kernelPdeStart, entryExists (M.frames kernelPgd i) = false) :
    TasksOwn (taskAddToScheduler (prepared s args a (pageVa w.stack) w.space
      (virToPhy (pageVa w.pgd))) a) M'.frames idle (Function.update own a w) (a :: l) := by
  have hold : ∀ b ∈ l, Function.update own a w b = own b := fun b hb =>
    Function.update_of_ne (ne_of_mem_of_not_mem hb hal) _ _
  have hcases : ∀ b ∈ a :: l, b = a ∨ b ∈ l ∧ b ≠ a := by
    intro b hb
    rcases List.mem_cons.mp hb with rfl | hb
    · exact Or.inl rfl
    · exact Or.inr ⟨hb, ne_of_mem_of_not_mem hb hal⟩
  -- what the others own is held already
  have hothers : ∀ b ∈ l, b ≠ idle → Disjoint (w.resources a) ((own b).resources b) :=
    fun b hb hbi => (hac.apart.mono_left (resources_subset_owned hb hbi)).symm
  refine ⟨?_, ?_, ?_⟩
  · show ((prepared s args a _ _ _).tasks idle).id = 0
    rw [prepared_other s args _ _ _ (Ne.symm hai)]
    exact h.idle_id
  · intro b hb hbi
    rcases hcases b hb with rfl | ⟨hb, hba⟩
    · obtain ⟨hbot, hsize, hspace, hpgd⟩ := prepared_task s args b (pageVa w.stack) w.space
        (virToPhy (pageVa w.pgd))
      rw [Function.update_self]
      refine ⟨hbot, hsize, hspace, hpgd, hac.stack_lt, hac.pgd_lt, ?_⟩
      rw [hac.frames]
      exact newDirectory_empty hkernel w.pgd
    · have hown := h.owns b hb hbi
      have htask : (prepared s args a (pageVa w.stack) w.space (virToPhy (pageVa w.pgd))).tasks b =
          s.tasks b := prepared_other s args _ _ _ hba
      have hspace : (own b).space ≠ w.space := by
        intro heq
        have hin := (own b).space_mem b
        rw [heq] at hin
        exact Set.disjoint_left.mp (hothers b hb hbi) (w.space_mem a) hin
      have hpgd : (own b).pgd ≠ w.pgd := by
        intro heq
        have hin := (own b).pgd_mem b
        rw [heq] at hin
        exact Set.disjoint_left.mp (hothers b hb hbi) (w.pgd_mem a) hin
      rw [hold b hb]
      refine ⟨?_, ?_, ?_, ?_, hown.stack_lt, hown.pgd_lt, ?_⟩
      · exact (congrArg Task.kstackBot htask).trans hown.kstackBot
      · exact (congrArg Task.kstackSize htask).trans hown.kstackSize
      · exact (congrArg Task.vmSpace htask).trans hown.vmSpace
      · exact (Function.update_of_ne hspace _ _).trans hown.pgd
      · intro i hi
        rw [hac.frames, withDirectory, Function.update_of_ne hpgd, clearFrame,
          Function.update_of_ne hpgd]
        exact hown.empty i hi
  · intro b hb c hc hbi hci hbc
    rcases hcases b hb with hba | ⟨hb, -⟩
    · rcases hcases c hc with hca | ⟨hc, -⟩
      · exact absurd (hba.trans hca.symm) hbc
      · rw [hba, Function.update_self, hold c hc]
        exact hothers c hc hci
    · rcases hcases c hc with hca | ⟨hc, -⟩
      · rw [hca, Function.update_self, hold b hb]
        exact (hothers b hb hbi).symm
      · rw [hold b hb, hold c hc]
        exact h.apart b hb c hc hbi hci hbc

theorem owned_cons (own : ℕ → Owner) (w : Owner) (hal : a ∉ l) (hai : a ≠ idle) :
    owned idle (Function.update own a w) (a :: l) = owned idle own l ∪ w.resources a := by
  ext r
  constructor
  · rintro ⟨b, hb, hbi, hr⟩
    rcases List.mem_cons.mp hb with rfl | hb
    · rw [Function.update_self] at hr
      exact Or.inr hr
    · rw [Function.update_of_ne (ne_of_mem_of_not_mem hb hal)] at hr
      exact Or.inl ⟨b, hb, hbi, hr⟩
  · rintro (⟨b, hb, hbi, hr⟩ | hr)
    · refine ⟨b, List.mem_cons_of_mem a hb, hbi, ?_⟩
      rw [Function.update_of_ne (ne_of_mem_of_not_mem hb hal)]
      exact hr
    · refine ⟨a, List.mem_cons_self, hai, ?_⟩
      rw [Function.update_self]
      exact hr

/-- **A successful `task_create`** puts one more task on the list, with resources of its own. -/
theorem System.Inv.create {args : TaskArgs} (h : sys.Inv β kernelPgd idle own l)
    (hidle : idle ∈ β.objects)
    (hcall : taskCreateMem β.img kernelPgd sys args = some (some a, sys', log)) :
    ∃ own' l', sys'.Inv β kernelPgd idle own' l' ∧
      Legal (owned idle own l) log (owned idle own' l') := by
  unfold taskCreateMem at hcall
  split at hcall
  · simp at hcall
  · cases hallocs : taskAllocs kernelPgd sys.mem with
    | none => simp [hallocs] at hcall
    | some r =>
      obtain ⟨al, M, log₁⟩ := r
      rw [hallocs] at hcall
      dsimp only at hcall
      cases hcreate : taskCreate sys.sched args al with
      | mk task r =>
        obtain ⟨sched, events⟩ := r
        rw [hcreate] at hcall
        obtain ⟨⟨M', log₂⟩, hrelease, hres⟩ := Option.map_eq_some_iff.mp hcall
        obtain ⟨rfl, rfl, rfl⟩ : task = some a ∧ ⟨sched, M'⟩ = sys' ∧ log₁ ++ log₂ = log := by
          simpa using hres
        obtain ⟨v, space, p, rfl, rfl, rfl⟩ := taskCreate_some hcreate
        obtain ⟨rfl, rfl⟩ : M = M' ∧ [] = log₂ := by simpa [releaseEvents] using hrelease
        obtain ⟨w, hv, rfl, hp, hac⟩ := taskAllocs_spec h.held hallocs
        -- the struct is fresh: it is not that of the idle task, nor of a task on the list
        have hai : a ≠ idle := by
          rintro rfl
          exact hac.fresh hidle
        have hal : a ∉ l := by
          intro hin
          have hheld := resources_subset_owned hin hai ((own a).task_mem a)
          exact Set.disjoint_left.mp hac.apart hheld (w.task_mem a)
        rw [hv, hp, List.append_nil]
        have hheld := hac.held
        have hlegal := hac.legal
        rw [← owned_cons own w hal hai] at hheld hlegal
        refine ⟨Function.update own a w, a :: l, ⟨?_, ?_, hheld, ?_⟩, hlegal⟩
        · have hprepared : ListInv (prepared sys.sched args a (pageVa w.stack) w.space
              (virToPhy (pageVa w.pgd))) l :=
            h.list.outside hal (fun n hn => clistInit_other _ hn) rfl rfl
          exact ⟨clistAdd_ring hprepared.ring (by simp [hal]),
            Nat.succ_le_succ hprepared.length_le, hprepared.sentinel⟩
        · exact h.tasks.created hal hai hac h.kernel
        · show ∀ i < kernelPdeStart, entryExists (M.frames kernelPgd i) = false
          rw [hac.frames]
          exact withDirectory_kernel h.kernel w.pgd

/-! ### Runs -/

/-- **One step.** -/
theorem System.Inv.step (h : sys.Inv β kernelPgd idle own l) (hidle : idle ∈ β.objects)
    (hstep : SysStep β.img kernelPgd sys log sys') :
    ∃ own' l', sys'.Inv β kernelPgd idle own' l' ∧
      Legal (owned idle own l) log (owned idle own' l') := by
  cases hstep with
  | create args a _ _ hcall => exact h.create hidle hcall
  | kill id hother => exact ⟨own, l, h.kill id, .nil _⟩
  | schedule esp _ _ hcall =>
    unfold taskScheduleMem at hcall
    cases hsched : taskSchedule sys.sched esp with
    | mk found events =>
      rw [hsched] at hcall
      cases found with
      | none => simp at hcall
      | some sched =>
        obtain ⟨M', log', l', heq, hinv, hlegal⟩ := h.schedule hsched
        dsimp only at hcall
        rw [heq] at hcall
        obtain ⟨rfl, rfl⟩ : ⟨sched, M'⟩ = sys' ∧ log' = log := by simpa using hcall
        exact ⟨own, l', hinv, hlegal⟩
  | write m' frames' hstore htasks hkernel =>
    exact ⟨own, l, h.write hstore htasks hkernel, .nil _⟩

/-- **Any run**, its log being legal from what was owned at its start. -/
theorem SysRun.inv {sys₀ : System} (hrun : SysRun β.img kernelPgd sys₀ log sys)
    (h : sys₀.Inv β kernelPgd idle own l) (hidle : idle ∈ β.objects) :
    ∃ own' l', sys.Inv β kernelPgd idle own' l' ∧
      Legal (owned idle own l) log (owned idle own' l') := by
  induction hrun with
  | nil => exact ⟨own, l, h, .nil _⟩
  | snoc log log' sys sys' _ hstep ih =>
    obtain ⟨own₁, l₁, h₁, hlegal₁⟩ := ih
    obtain ⟨own₂, l₂, h₂, hlegal₂⟩ := h₁.step hidle hstep
    exact ⟨own₂, l₂, h₂, hlegal₁.append hlegal₂⟩

/-- The state in which the idle task is the only one. -/
structure Started (n : ℕ) (S : Set ℕ) (kernelPgd : ℕ) (sys : System) : Prop where
  mem : ∃ B, sys.mem.Inv n S (liveObjects sys.mem.heap) B
  list : ListInv sys.sched [sys.sched.current]
  id : (sys.sched.tasks sys.sched.current).id = 0
  idle : sys.sched.current ∈ liveObjects sys.mem.heap
  kernel : ∀ i < kernelPdeStart, entryExists (sys.mem.frames kernelPgd i) = false

variable {n : ℕ} {S O : Set ℕ} {B : Live}

theorem started_of_inv (h : M.Inv n S O B) (hx : s.current ∈ O)
    (hlist : ListInv s [s.current]) (hid : (s.tasks s.current).id = 0)
    (hkernel : ∀ i < kernelPdeStart, entryExists (M.frames kernelPgd i) = false) :
    Started n S kernelPgd ⟨s, M⟩ :=
  ⟨⟨B, h.objects ▸ h⟩, hlist, hid, h.objects ▸ hx, hkernel⟩

/-- **`task_init`** leaves the idle task alone on the list, its struct being an object in use. -/
theorem taskInitMem_started {sys₀ : System} {mem : ℕ → Task} {links : NodeHeap TaskNode}
    {pgds : ℕ → ℕ} {stackBottom : ℕ} {raw : Task} (h : M.Inv n S O B)
    (hkernel : ∀ i < kernelPdeStart, entryExists (M.frames kernelPgd i) = false)
    (hinit : taskInitMem kernelPgd M mem links pgds stackBottom raw = some sys₀) :
    Started n S kernelPgd sys₀ := by
  have hlist := fun a v p => (taskInit_inv mem links pgds stackBottom a v p raw).toListInv
  have hid : ∀ a v p, ((taskInit mem links pgds stackBottom a v p raw).tasks a).id = 0 := by
    intro a v p
    simp [taskInit, taskAddToScheduler]
  unfold taskInitMem at hinit
  cases hkmalloc : kmallocMem M sizeofTask with
  | none => simp [hkmalloc] at hinit
  | some r =>
    obtain ⟨a, M₁⟩ := r
    rw [hkmalloc] at hinit
    dsimp only at hinit
    split at hinit
    · simp at hinit
    · rename_i ha
      obtain ⟨hframes, hcases⟩ := h.kmallocMem hkmalloc
      obtain ⟨-, -, h₁⟩ := hcases.resolve_left fun hnull => ha hnull.1
      rw [← hframes] at hkernel
      cases hnew : vmSpaceNewMem kernelPgd M₁ with
      | none => simp [hnew] at hinit
      | some r =>
        obtain ⟨space, M', log⟩ := r
        rw [hnew] at hinit
        obtain ⟨vms, M₂, hkmalloc₂, hspace⟩ := vmSpaceNewMem_cases hnew
        obtain ⟨hframes₂, hcases₂⟩ := h₁.kmallocMem hkmalloc₂
        rw [← hframes₂] at hkernel
        rcases hspace with ⟨rfl, rfl, rfl⟩ | ⟨hvms, q, b, halloc, -, rfl, rfl, -⟩
        · -- no space: the idle task runs without one
          obtain ⟨-, h₂⟩ := hcases₂.resolve_right fun hnew => hnew.1 rfl
          obtain rfl := Option.some.inj hinit
          -- the list does not depend on the space
          have hring := hlist a 0 (pgds 0)
          refine started_of_inv h₂ (Set.mem_insert a O) ?_ ?_ hkernel
          · exact ⟨hring.ring, hring.length_le, hring.sentinel⟩
          · simp [Sched.setTask, taskInit, taskAddToScheduler]
        · obtain ⟨-, -, h₂⟩ := hcases₂.resolve_left fun hnull => hvms hnull.1
          have hmem : a ∈ insert vms (insert a O) := Set.mem_insert_of_mem _ (Set.mem_insert a O)
          rcases h₂.pageAlloc_cases 0 with hnone | ⟨q', b', hsome, -, -, h₃⟩
          · rw [halloc] at hnone
            simp at hnone
          · obtain ⟨-, rfl⟩ : q = q' ∧ b = b' := by simpa using halloc.symm.trans hsome
            obtain rfl := Option.some.inj hinit
            apply started_of_inv (h₃.setFrames _) hmem (hlist a _ _) (hid a _ _)
            exact withDirectory_kernel hkernel q

theorem owned_idle (own : ℕ → Owner) (h : ∀ a ∈ l, a = idle) : owned idle own l = ∅ := by
  apply Set.eq_empty_iff_forall_notMem.mpr
  rintro r ⟨a, ha, hne, -⟩
  exact hne (h a ha)

section

variable {img : KernelImage} {ps : List ℕ} {b₀ : BuddyAllocator} {m : ByteMem} {mem : ℕ → Task}
  {links : NodeHeap TaskNode} {pgds : ℕ → ℕ} {stackBottom : ℕ} {raw : Task} {sys₀ : System}

/-- The invariant in every state of a run from `task_init`; beside what the created tasks own, the
    allocators stand as when it began. -/
theorem sysRun_inv (hboot : HandedOver img n ps b₀) (hnd : ps.Nodup) (hps : ∀ p ∈ ps, p < n)
    (hrange : ∀ i ∈ b₀.indexed, i < n) (himg : ∀ p ∈ ps, OutsideImage img p)
    (hearlier : MemRun img (KernelMemory.start m frames b₀, fun _ => none) (M, B))
    (hkernel : ∀ i < kernelPdeStart, entryExists (M.frames kernelPgd i) = false)
    (hinit : taskInitMem kernelPgd M mem links pgds stackBottom raw = some sys₀)
    (hrun : SysRun img kernelPgd sys₀ log sys) :
    ∃ β own l, β.img = img ∧ sys₀.mem.Inv n {p | p ∈ ps} β.objects β.blocks ∧
      β.count = n ∧ β.pages = {p | p ∈ ps} ∧
      sys.Inv β kernelPgd sys₀.sched.current own l ∧
      Legal ∅ log (owned sys₀.sched.current own l) := by
  have hbelow := hboot.buddiesBelow hnd hps hrange
  have hstart := KernelMemory.start_inv m frames (hboot.running hnd hps (Or.inl hrange))
  obtain ⟨O, hM⟩ := MemRun.inv hearlier hstart hbelow
  have hstarted := taskInitMem_started hM hkernel hinit
  obtain ⟨B', h₀⟩ := hstarted.mem
  let β : Baseline := ⟨img, n, {p | p ∈ ps}, hbelow, himg, liveObjects sys₀.mem.heap, B'⟩
  let own : ℕ → Owner := fun _ => ⟨0, 0, 0⟩
  have hempty : owned sys₀.sched.current own [sys₀.sched.current] = ∅ :=
    owned_idle own fun a ha => List.mem_singleton.mp ha
  have hsys₀ : sys₀.Inv β kernelPgd sys₀.sched.current own [sys₀.sched.current] := by
    refine ⟨hstarted.list, ⟨hstarted.id, ?_, ?_⟩, ?_, hstarted.kernel⟩
    · exact fun a ha hne => absurd (List.mem_singleton.mp ha) hne
    · exact fun a ha _ _ hne _ => absurd (List.mem_singleton.mp ha) hne
    · rw [hempty]
      exact Held.of_inv h₀
  have hrun' : SysRun β.img kernelPgd sys₀ log sys := hrun
  obtain ⟨own', l', hsys, hlegal⟩ := hrun'.inv hsys₀ hstarted.idle
  rw [hempty] at hlegal
  exact ⟨β, own', l', rfl, h₀, rfl, rfl, hsys, hlegal⟩

/-- **No purge faults**: in every state of a run, the memory side of `task_schedule` returns
    whenever the scheduler does. -/
theorem sysRun_schedule_returns {sched : Sched} (hboot : HandedOver img n ps b₀) (hnd : ps.Nodup)
    (hps : ∀ p ∈ ps, p < n) (hrange : ∀ i ∈ b₀.indexed, i < n)
    (himg : ∀ p ∈ ps, OutsideImage img p)
    (hearlier : MemRun img (KernelMemory.start m frames b₀, fun _ => none) (M, B))
    (hkernel : ∀ i < kernelPdeStart, entryExists (M.frames kernelPgd i) = false)
    (hinit : taskInitMem kernelPgd M mem links pgds stackBottom raw = some sys₀)
    (hrun : SysRun img kernelPgd sys₀ log sys)
    (hsched : (taskSchedule sys.sched esp).1 = some sched) :
    ∃ M' log', taskScheduleMem img sys esp = some (⟨sched, M'⟩, log') := by
  obtain ⟨β, own, l, rfl, -, -, -, hsys, -⟩ :=
    sysRun_inv hboot hnd hps hrange himg hearlier hkernel hinit hrun
  have hpair : taskSchedule sys.sched esp = (some sched, (taskSchedule sys.sched esp).2) := by
    rw [← hsched]
  obtain ⟨M', log', l', heq, -, -⟩ := hsys.schedule hpair
  refine ⟨M', log', ?_⟩
  unfold taskScheduleMem
  rw [hpair]
  dsimp only
  rw [heq]
  rfl

/-- **Creating and destroying tasks is resource neutral.**  After any run of kernel code on the
    allocators, `task_init`, and any run of successful `task_create` calls, `task_kill` of tasks
    other than the current one and `task_schedule`: once only the idle task is left on the list,
    the objects in use and the allocated pages that are not slab frames are those from before the
    run; nothing was released that was not held, or acquired while it was held, and everything
    acquired was released, as the kind and with the order it was acquired with. -/
theorem sysRun_neutral (hboot : HandedOver img n ps b₀) (hnd : ps.Nodup) (hps : ∀ p ∈ ps, p < n)
    (hrange : ∀ i ∈ b₀.indexed, i < n) (himg : ∀ p ∈ ps, OutsideImage img p)
    (hearlier : MemRun img (KernelMemory.start m frames b₀, fun _ => none) (M, B))
    (hkernel : ∀ i < kernelPdeStart, entryExists (M.frames kernelPgd i) = false)
    (hinit : taskInitMem kernelPgd M mem links pgds stackBottom raw = some sys₀)
    (hrun : SysRun img kernelPgd sys₀ log sys)
    (hpurged : ∀ a ∈ taskList sys.sched, a = sys₀.sched.current) :
    liveObjects sys.mem.heap = liveObjects sys₀.mem.heap ∧
      allocatedPages {p | p ∈ ps} sys.mem = allocatedPages {p | p ∈ ps} sys₀.mem ∧
      Once log ∧ ∀ r, log.count (.acquire r) = log.count (.release r) := by
  obtain ⟨β, own, l, -, h₀, hcount, hpages, hsys, hlegal⟩ :=
    sysRun_inv hboot hnd hps hrange himg hearlier hkernel hinit hrun
  rw [hsys.list.taskList_eq] at hpurged
  have hnothing := owned_idle own hpurged
  have hheld := hsys.held
  rw [hnothing] at hheld hlegal
  have hinv := hheld.inv
  rw [hcount, hpages] at hinv
  refine ⟨hinv.objects.symm.trans h₀.objects, ?_, hlegal.once, fun r => hlegal.balanced r⟩
  rw [hinv.allocatedPages_eq, h₀.allocatedPages_eq]

end

/-- 64 pages, the memory when nothing is allocated yet, and the system after `task_init`. -/
def sixtyFourPages : BuddyAllocator :=
  releaseAll (initialAllocator emptyImage zeroPast 0xC0010000 128) (List.range' 64 64)
def emptyMemory : KernelMemory := KernelMemory.start (fun _ => 0) (fun _ _ => 0) sixtyFourPages
def idleSystem : Option System :=
  taskInitMem 0 emptyMemory (fun _ => rawTask) (fun _ => ⟨none, none⟩) (fun _ => 0) 64 rawTask

/-- The new task is not the current one, has the pages 112 to 127 for its stack, and is purged once
    it is killed. -/
def comesAndGoes (sys₀ : System) (r : Option ℕ × System × List (Entry Resource)) : Bool :=
  r.1.isSome && decide ((taskGetFromId r.2.1.sched 1).1 ≠ some r.2.1.sched.current) &&
    decide (.acquire (.block 112 4) ∈ r.2.2) &&
    (taskSchedule (taskKill r.2.1.sched 1).2 0).1.any fun s =>
      (taskList s).all fun a => decide (a = sys₀.sched.current)

theorem handedOver_sixtyFour : HandedOver emptyImage 128 (List.range' 64 64) sixtyFourPages :=
  ⟨by decide, zeroPast, smallBootmem, _, _, rfl, rfl⟩

theorem comesAndGoes_worker : (idleSystem.bind fun sys₀ =>
    (taskCreateMem emptyImage 0 sys₀ workerArgs).map (comesAndGoes sys₀)) = some true := by
  decide +kernel

/-- One task that is created, killed and purged. -/
theorem sysRun_neutral_oneTask : ∃ sys₀ sys log,
    idleSystem = some sys₀ ∧ SysRun emptyImage 0 sys₀ log sys ∧
      Entry.acquire (.block 112 4) ∈ log ∧
      liveObjects sys.mem.heap = liveObjects sys₀.mem.heap ∧
      allocatedPages {p | p ∈ List.range' 64 64} sys.mem =
        allocatedPages {p | p ∈ List.range' 64 64} sys₀.mem ∧
      Once log ∧ ∀ r, log.count (.acquire r) = log.count (.release r) := by
  obtain ⟨sys₀, hinit, hrest⟩ := Option.bind_eq_some_iff.mp comesAndGoes_worker
  obtain ⟨⟨task, sys₁, log₁⟩, hcreate, hgoes⟩ := Option.map_eq_some_iff.mp hrest
  simp only [comesAndGoes, Bool.and_eq_true, decide_eq_true_eq] at hgoes
  obtain ⟨⟨⟨htask, hother⟩, hlog⟩, hpurged⟩ := hgoes
  obtain ⟨a, rfl⟩ := Option.isSome_iff_exists.mp htask
  have hnd : (List.range' 64 64).Nodup := List.nodup_range'
  have hps : ∀ p ∈ List.range' 64 64, p < 128 := by
    intro p hp
    have := List.mem_range'_1.mp hp
    omega
  have hrange : ∀ i ∈ sixtyFourPages.indexed, i < 128 := by decide +kernel
  have hkernel : ∀ i < kernelPdeStart, entryExists (emptyMemory.frames 0 i) = false := by
    intro i _
    simp [emptyMemory, KernelMemory.start, entryExists, testFlag]
  have hkilled : SysRun emptyImage 0 sys₀ (([] ++ log₁) ++ []) ⟨(taskKill sys₁.sched 1).2, sys₁.mem⟩ :=
    .snoc _ _ _ _ (.snoc _ _ _ _ .nil (.create sys₀ workerArgs a sys₁ log₁ hcreate))
      (.kill sys₁ 1 hother)
  -- the kill only marks the task; the next call of the scheduler purges it
  cases hsched : (taskSchedule (taskKill sys₁.sched 1).2 0).1 with
  | none => simp [hsched] at hpurged
  | some sched =>
    obtain ⟨M', log₂, hschedule⟩ := sysRun_schedule_returns handedOver_sixtyFour hnd hps hrange
      (fun p _ => outsideImage_empty p) .refl hkernel hinit hkilled hsched
    have hrun := SysRun.snoc _ _ _ _ hkilled (.schedule _ 0 _ _ hschedule)
    have hidle : ∀ a ∈ taskList sched, a = sys₀.sched.current := by
      simpa [hsched] using hpurged
    have hneutral := sysRun_neutral handedOver_sixtyFour hnd hps hrange
      (fun p _ => outsideImage_empty p) .refl hkernel hinit hrun hidle
    exact ⟨sys₀, _, _, hinit, hrun, by simp [hlog], hneutral⟩

end Rotary

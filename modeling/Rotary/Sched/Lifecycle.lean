import Rotary.Sched.Select

namespace Rotary

open Lib

/-!
# Runs of the task functions

`Calls ok s₀ cs s` says that the calls `cs`, each made in a state in which `ok` allows it, lead from
`s₀` to `s`.

* `LifeInv` — ids on the list are distinct and below `last_task_id`, and only the current task is
  running;
* `Dead` — an id whose tasks are all killed, and which no new task gets;
* `calls_life` — both are kept by any calls, up to the wrap of `last_task_id`;
* `calls_idle` — the idle task stays on the list and runnable as long as it does not exit.
-/

/-- A call of one of the task functions, with what the allocators return to it. -/
inductive TaskCall
  | create (args : TaskArgs) (al : TaskAlloc)
  | kill (id : ℕ)
  | exitCurrent
  | schedule (esp : ℕ)

/-- The state after a call; `none` if it does not return. -/
def TaskCall.run (s : Sched) : TaskCall → Option Sched
  | .create args al => some (taskCreate s args al).2.1
  | .kill id => some (taskKill s id).2
  | .exitCurrent => some (taskExitCurrent s)
  | .schedule esp => (taskSchedule s esp).1

/-- The arguments `task_create` does not refuse. -/
def TaskArgs.valid (args : TaskArgs) : Bool :=
  (args.state = .paused || args.state = .waiting) && taskPriorityMin ≤ args.priority &&
    args.priority ≤ taskPriorityMax

/-- How many task structs a call allocates. -/
def TaskCall.structs : TaskCall → ℕ
  | .create args al => if args.valid && al.struct.isSome then 1 else 0
  | .kill _ => 0
  | .exitCurrent => 0
  | .schedule _ => 0

/-- How many task structs a list of calls allocates. -/
def structCount (cs : List TaskCall) : ℕ := (cs.map TaskCall.structs).sum

/-- The calls `cs` lead from `s₀` to the state. -/
inductive Calls (ok : Sched → TaskCall → Prop) (s₀ : Sched) : List TaskCall → Sched → Prop
  | nil : Calls ok s₀ [] s₀
  | snoc (cs : List TaskCall) (c : TaskCall) (s s' : Sched) (hcs : Calls ok s₀ cs s) (hok : ok s c)
      (hrun : c.run s = some s') : Calls ok s₀ (cs ++ [c]) s'

variable {s s' s₀ : Sched} {l l' : List ℕ} {a b k : ℕ} {c : TaskCall} {cs : List TaskCall}
  {args : TaskArgs} {al : TaskAlloc}

/-! ### Marking a task as killed -/

/-- `task->state = TASK_STATE_KILLED`. -/
def marked (s : Sched) (a : ℕ) : Sched := s.setTask a { s.tasks a with state := .killed }

@[simp] theorem marked_state (s : Sched) (a b : ℕ) :
    ((marked s a).tasks b).state = if b = a then .killed else (s.tasks b).state := by
  unfold marked Sched.setTask
  by_cases hb : b = a
  · subst hb
    simp
  · simp [hb]

@[simp] theorem marked_id (s : Sched) (a b : ℕ) : ((marked s a).tasks b).id = (s.tasks b).id := by
  unfold marked Sched.setTask
  by_cases hb : b = a
  · subst hb
    simp
  · simp [Function.update_of_ne hb]

theorem ListInv.marked (h : ListInv s l) (a : ℕ) : ListInv (Rotary.marked s a) l :=
  ⟨h.ring, h.length_le, h.sentinel⟩

/-- **`task_kill`** changes nothing, or marks the first task with the id. -/
theorem taskKill_cases (h : ListInv s l) (id : ℕ) :
    (taskKill s id).2 = s ∨
      ∃ a ∈ l, (s.tasks a).id = id ∧ id ≠ 0 ∧ (taskKill s id).2 = marked s a := by
  obtain ⟨hfind, -⟩ := taskGetFromId_spec h id
  unfold taskKill
  split
  · exact Or.inl rfl
  · rename_i hid
    rw [hfind]
    cases hf : l.find? fun a => (s.tasks a).id = id with
    | none => exact Or.inl rfl
    | some a =>
      have ha := List.mem_of_find?_eq_some hf
      have haid : (s.tasks a).id = id := by
        simpa using List.find?_some hf
      dsimp only
      cases (s.tasks a).state with
      | invalid => exact Or.inl rfl
      | killed => exact Or.inl rfl
      | running => exact Or.inr ⟨a, ha, haid, hid, rfl⟩
      | waiting => exact Or.inr ⟨a, ha, haid, hid, rfl⟩
      | paused => exact Or.inr ⟨a, ha, haid, hid, rfl⟩

/-! ### Creating a task -/

/-- What `task_create` does once it has a struct, at `a`: it fails and leaves the list alone, or
    puts the new task in front. -/
structure Creates (s : Sched) (l : List ℕ) (args : TaskArgs) (a : ℕ) (s' : Sched) (l' : List ℕ) :
    Prop where
  inv : ListInv s' l'
  lastTaskId : s'.lastTaskId = inc32 s.lastTaskId
  current : s'.current = s.current
  schedEnabled : s'.schedEnabled = s.schedEnabled
  other : ∀ b, b ≠ a → s'.tasks b = s.tasks b
  list : l' = l ∨ l' = a :: l
  id : (s'.tasks a).id = s.lastTaskId
  state : (s'.tasks a).state = .paused ∨ (s'.tasks a).state = .waiting

theorem creates_allocStruct (h : ListInv s l) (ha : a ∉ l)
    (hst : args.state = .paused ∨ args.state = .waiting) :
    Creates s l args a (taskAllocStruct s args a) l := by
  refine ⟨h.outside ha (fun n hn => clistInit_other s.nodes hn) rfl rfl, rfl, rfl, rfl, ?_,
    Or.inl rfl, ?_, ?_⟩
  · exact fun b hb => Function.update_of_ne hb _ _
  · simp [taskAllocStruct, Sched.setTask]
  · simpa [taskAllocStruct, Sched.setTask] using hst

/-- Filling in the new struct. -/
theorem Creates.setTask (h : Creates s l args a s' l') {t : Task} (hid : t.id = (s'.tasks a).id)
    (hst : t.state = (s'.tasks a).state) : Creates s l args a (s'.setTask a t) l' := by
  refine ⟨⟨h.inv.ring, h.inv.length_le, h.inv.sentinel⟩, h.lastTaskId, h.current, h.schedEnabled,
    ?_, h.list, ?_, ?_⟩
  · intro b hb
    exact (Function.update_of_ne hb _ _).trans (h.other b hb)
  · show (Function.update s'.tasks a t a).id = _
    rw [Function.update_self, hid]
    exact h.id
  · show (Function.update s'.tasks a t a).state = _ ∨ (Function.update s'.tasks a t a).state = _
    rw [Function.update_self, hst]
    exact h.state

theorem Creates.addToScheduler (h : Creates s l args a s' l) (ha : a ∉ l) :
    Creates s l args a (taskAddToScheduler s' a) (a :: l) :=
  ⟨⟨clistAdd_ring h.inv.ring (by simp [ha]), Nat.succ_le_succ h.inv.length_le, h.inv.sentinel⟩,
    h.lastTaskId, h.current, h.schedEnabled, h.other, Or.inr rfl, h.id, h.state⟩

/-- **`task_create`**, for a struct that is on no list. -/
theorem taskCreate_cases (h : ListInv s l) (hfresh : ∀ a, al.struct = some a → a ∉ l) :
    (TaskCall.create args al).structs = 0 ∧ (taskCreate s args al).2.1 = s ∨
    (TaskCall.create args al).structs = 1 ∧
      ∃ a l', al.struct = some a ∧ Creates s l args a (taskCreate s args al).2.1 l' := by
  have hstructs : (TaskCall.create args al).structs =
      if args.valid && al.struct.isSome then 1 else 0 := rfl
  generalize (TaskCall.create args al).structs = n at hstructs ⊢
  unfold taskCreate
  split
  · rename_i hst
    have hinvalid : args.valid = false := by simp [TaskArgs.valid, hst]
    exact Or.inl ⟨by simp [hstructs, hinvalid], rfl⟩
  rename_i hst
  have hst : args.state = .paused ∨ args.state = .waiting := Decidable.or_iff_not_not_and_not.mpr hst
  split
  · rename_i hprio
    have hinvalid : args.valid = false := by
      rcases hprio with hprio | hprio <;> simp [TaskArgs.valid, Nat.not_le.mpr hprio]
    exact Or.inl ⟨by simp [hstructs, hinvalid], rfl⟩
  rename_i hprio
  have hvalid : args.valid = true := by
    rw [not_or, Nat.not_lt, Nat.not_lt] at hprio
    simp [TaskArgs.valid, hst, hprio]
  split
  · rename_i hnone
    exact Or.inl ⟨by simp [hstructs, hnone], rfl⟩
  rename_i a hstruct
  refine Or.inr ⟨by simp [hstructs, hvalid, hstruct], ?_⟩
  have ha := hfresh a hstruct
  -- the struct is initialised from here on, and a failure keeps its id
  have halloc := creates_allocStruct h ha hst
  dsimp only
  split
  · exact ⟨a, l, hstruct, halloc⟩
  rename_i v _
  have hstack : Creates s l args a (taskCreateKernelStack (taskAllocStruct s args a) a v) l :=
    halloc.setTask rfl rfl
  split
  · exact ⟨a, l, hstruct, hstack⟩
  rename_i w p _
  -- the space is stored in the struct, and its directory beside it
  have hspace : Creates s l args a
      (taskCreateVmSpace (taskCreateKernelStack (taskAllocStruct s args a) a v) a w p) l := by
    obtain ⟨hinv, hlast, hcur, hen, hother, hlist, hid, hstate⟩ :=
      hstack.setTask (t := { (taskCreateKernelStack (taskAllocStruct s args a) a v).tasks a with
        vmSpace := some w }) rfl rfl
    exact ⟨⟨hinv.ring, hinv.length_le, hinv.sentinel⟩, hlast, hcur, hen, hother, hlist, hid, hstate⟩
  have harch : Creates s l args a (archTaskCreate
      (taskCreateVmSpace (taskCreateKernelStack (taskAllocStruct s args a) a v) a w p) a) l :=
    hspace.setTask rfl rfl
  exact ⟨a, a :: l, hstruct, harch.addToScheduler ha⟩

/-! ### The invariant of a run -/

/-- The invariant of the task functions, `k` task structs having been allocated by
    `task_create`. -/
structure LifeInv (s : Sched) (l : List ℕ) (k : ℕ) : Prop extends ListInv s l where
  current : s.current ∈ l
  enabled : s.schedEnabled = true
  lastTaskId : s.lastTaskId = k + 1
  ids : (l.map fun a => (s.tasks a).id).Nodup
  id_le : ∀ a ∈ l, (s.tasks a).id ≤ k
  running : ∀ a ∈ l, (s.tasks a).state = .running → a = s.current

/-- Every task with the id `i` is killed, and no new task will get it. -/
def Dead (s : Sched) (l : List ℕ) (k i : ℕ) : Prop :=
  i ≤ k ∧ ∀ b ∈ l, (s.tasks b).id = i → (s.tasks b).state = .killed

/-- Calls made with memory the allocators own, `task_schedule` with a task to run. -/
def MayCall (s : Sched) : TaskCall → Prop
  | .create _ al => Fresh s al
  | .kill _ => True
  | .exitCurrent => True
  | .schedule _ => ∃ a ∈ taskList s, (s.tasks a).runnable = true

/-- What one call keeps: the invariant, and the ids that are dead. -/
def Keeps (s : Sched) (l : List ℕ) (k : ℕ) (s' : Sched) (l' : List ℕ) (k' : ℕ) : Prop :=
  LifeInv s' l' k' ∧ ∀ i, Dead s l k i → Dead s' l' k' i

theorem Keeps.refl (h : LifeInv s l k) : Keeps s l k s l k := ⟨h, fun _ hi => hi⟩

theorem LifeInv.marked (h : LifeInv s l k) (a : ℕ) : Keeps s l k (Rotary.marked s a) l k := by
  refine ⟨⟨h.toListInv.marked a, h.current, h.enabled, h.lastTaskId, ?_, ?_, ?_⟩, ?_⟩
  · simpa using h.ids
  · simpa using h.id_le
  · intro b hb hst
    rw [marked_state] at hst
    split at hst
    · cases hst
    · exact h.running b hb hst
  · intro i ⟨hi, hdead⟩
    refine ⟨hi, fun b hb hid => ?_⟩
    rw [marked_id] at hid
    rw [marked_state]
    split
    · rfl
    · exact hdead b hb hid

theorem LifeInv.creates (h : LifeInv s l k) (ha : a ∉ l) (hk : k + 1 < 2 ^ 32 - 1)
    (hc : Creates s l args a s' l') : Keeps s l k s' l' (k + 1) := by
  have hold : ∀ b ∈ l, s'.tasks b = s.tasks b := fun b hb =>
    hc.other b (ne_of_mem_of_not_mem hb ha)
  have hlast : s'.lastTaskId = k + 1 + 1 := by
    rw [hc.lastTaskId, h.lastTaskId]
    exact inc32_of_lt (by omega)
  have hnewid : (s'.tasks a).id = k + 1 := hc.id.trans h.lastTaskId
  have hmap : l.map (fun b => (s'.tasks b).id) = l.map fun b => (s.tasks b).id :=
    List.map_congr_left fun b hb => by rw [hold b hb]
  have hmem : ∀ b ∈ l', b = a ∨ b ∈ l := by
    intro b hb
    rcases hc.list with rfl | rfl
    · exact Or.inr hb
    · exact List.mem_cons.mp hb
  refine ⟨⟨hc.inv, ?_, hc.schedEnabled.trans h.enabled, hlast, ?_, ?_, ?_⟩, ?_⟩
  · rw [hc.current]
    rcases hc.list with rfl | rfl
    · exact h.current
    · exact List.mem_cons_of_mem a h.current
  · rcases hc.list with rfl | rfl
    · rw [hmap]
      exact h.ids
    · -- the id of the new task is above all others
      rw [List.map_cons, hmap, hnewid]
      refine List.nodup_cons.mpr ⟨fun hin => ?_, h.ids⟩
      obtain ⟨b, hb, heq⟩ := List.mem_map.mp hin
      have hle := h.id_le b hb
      omega
  · intro b hb
    rcases hmem b hb with rfl | hb
    · exact hnewid.le
    · rw [hold b hb]
      exact (h.id_le b hb).trans (Nat.le_succ k)
  · intro b hb hst
    rw [hc.current]
    rcases hmem b hb with rfl | hb
    · -- a new task is paused or waiting
      rcases hc.state with heq | heq <;> rw [heq] at hst <;> cases hst
    · rw [hold b hb] at hst
      exact h.running b hb hst
  · intro i ⟨hi, hdead⟩
    refine ⟨by omega, fun b hb hid => ?_⟩
    rcases hmem b hb with rfl | hb
    · omega
    · rw [hold b hb] at hid ⊢
      exact hdead b hb hid

theorem LifeInv.scheduled {next : ℕ} (h : LifeInv s l k) (hs : Scheduled s l s' l' next) :
    Keeps s l k s' l' k := by
  have hmem : ∀ b ∈ l', b ∈ l := fun b hb => hs.sub.subset hb
  refine ⟨⟨hs.inv, hs.current.symm ▸ hs.mem, hs.schedEnabled.trans h.enabled,
    hs.lastTaskId.trans h.lastTaskId, ?_, ?_, ?_⟩, ?_⟩
  · simp only [hs.id]
    exact h.ids.sublist (hs.sub.map _)
  · intro b hb
    rw [hs.id]
    exact h.id_le b (hmem b hb)
  · intro b hb hst
    rw [hs.current]
    by_contra hne
    rw [hs.state, if_neg hne] at hst
    split at hst
    · cases hst
    · -- only the task that was current could have been running
      rename_i hwas
      have hcur := h.running b (hmem b hb) hst
      exact hwas ⟨hcur, hcur ▸ hst⟩
  · intro i ⟨hi, hdead⟩
    refine ⟨hi, fun b hb hid => ?_⟩
    rw [hs.id] at hid
    have hkilled := hdead b (hmem b hb) hid
    -- the task selected is runnable, which a killed one is not
    have hnext : b ≠ next := by
      rintro rfl
      exact absurd hs.runnable (by rw [not_runnable_of_killed hkilled]; decide)
    rw [hs.state, if_neg hnext]
    split
    · rename_i hwas
      rw [hwas.1, hwas.2] at hkilled
      cases hkilled
    · exact hkilled

/-- **One call.** -/
theorem LifeInv.call (h : LifeInv s l k) (hok : MayCall s c) (hk : k + c.structs < 2 ^ 32 - 1)
    (hrun : c.run s = some s') : ∃ l', Keeps s l k s' l' (k + c.structs) := by
  cases c with
  | create args al =>
    have hfresh : ∀ a, al.struct = some a → a ∉ l := fun a ha =>
      h.taskList_eq ▸ hok.struct a ha
    obtain rfl := Option.some.inj hrun
    rcases taskCreate_cases h.toListInv hfresh with
      ⟨hnone, heq⟩ | ⟨hone, a, l', hstruct, hc⟩
    · rw [hnone, heq]
      exact ⟨l, Keeps.refl h⟩
    · rw [hone] at hk ⊢
      exact ⟨l', h.creates (hfresh a hstruct) hk hc⟩
  | kill id =>
    obtain rfl := Option.some.inj hrun
    rcases taskKill_cases h.toListInv id with heq | ⟨a, -, -, -, heq⟩
    · rw [heq]
      exact ⟨l, Keeps.refl h⟩
    · rw [heq]
      exact ⟨l, h.marked a⟩
  | exitCurrent =>
    obtain rfl := Option.some.inj hrun
    exact ⟨l, h.marked s.current⟩
  | schedule esp =>
    have hrunnable : ∃ a ∈ l, (s.tasks a).runnable = true := h.taskList_eq ▸ hok
    obtain ⟨s₁, l', next, heq, -, hs⟩ := taskSchedule_spec h.toListInv h.enabled h.current hrunnable esp
    obtain rfl : s₁ = s' := Option.some.inj (heq.symm.trans hrun)
    exact ⟨l', h.scheduled hs⟩

theorem structCount_snoc (cs : List TaskCall) (c : TaskCall) :
    structCount (cs ++ [c]) = structCount cs + c.structs := by
  simp [structCount]

/-- **Any calls.** -/
theorem LifeInv.calls (h : LifeInv s₀ l k) (hcs : Calls MayCall s₀ cs s)
    (hk : k + structCount cs < 2 ^ 32 - 1) : ∃ l', Keeps s₀ l k s l' (k + structCount cs) := by
  induction hcs with
  | nil => exact ⟨l, Keeps.refl h⟩
  | snoc cs c s s' _ hok hrun ih =>
    rw [structCount_snoc, ← Nat.add_assoc] at hk ⊢
    obtain ⟨l₁, h₁, hdead₁⟩ := ih (by omega)
    obtain ⟨l₂, h₂, hdead₂⟩ := h₁.call hok hk hrun
    exact ⟨l₂, h₂, fun i hi => hdead₂ i (hdead₁ i hi)⟩

theorem taskInit_life (mem : ℕ → Task) (links : NodeHeap TaskNode) (pgds : ℕ → ℕ)
    (stackBottom a v p : ℕ) (raw : Task) :
    LifeInv (taskInit mem links pgds stackBottom a v p raw) [a] 0 := by
  have hid : ((taskInit mem links pgds stackBottom a v p raw).tasks a).id = 0 := by
    simp [taskInit, taskAddToScheduler]
  refine ⟨(taskInit_inv mem links pgds stackBottom a v p raw).toListInv, List.mem_singleton.mpr rfl,
    rfl, rfl, List.nodup_singleton _, ?_, ?_⟩
  · intro b hb
    rw [List.mem_singleton.mp hb, hid]
  · intro b hb _
    exact List.mem_singleton.mp hb

/-- What a call of `task_schedule` has to find and to leave behind. -/
def SchedulesOne (s : Sched) (esp : ℕ) : Prop :=
  (taskSelect s).2.1 ≠ some .head ∧ ∃ s', (taskSchedule s esp).1 = some s' ∧
    s'.current ∈ taskList s' ∧
    ∀ a ∈ taskList s', (s'.tasks a).state = .running ↔ a = s'.current

theorem LifeInv.schedulesOne (h : LifeInv s l k) {esp : ℕ} (hok : MayCall s (.schedule esp)) :
    SchedulesOne s esp := by
  have hrunnable : ∃ a ∈ l, (s.tasks a).runnable = true := h.taskList_eq ▸ hok
  obtain ⟨s', l', next, heq, hsel, hs⟩ :=
    taskSchedule_spec h.toListInv h.enabled h.current hrunnable esp
  obtain ⟨h', -⟩ := h.scheduled hs
  rw [SchedulesOne, hsel]
  refine ⟨by simp, s', heq, ?_, fun a ha => ⟨?_, ?_⟩⟩
  · rw [h'.taskList_eq]
    exact h'.current
  · rw [h'.taskList_eq] at ha
    exact h'.running a ha
  · rintro rfl
    rw [hs.state, if_pos hs.current]

/-- A dead id is not selected. -/
theorem LifeInv.not_selected (h : LifeInv s l k) {i next : ℕ} (hi : Dead s l k i)
    (hrun : ∃ a ∈ l, (s.tasks a).runnable = true)
    (hsel : (taskSelect s).2.1 = some (.task next)) : (s.tasks next).id ≠ i := by
  intro hid
  obtain ⟨l', next', hp, -, hfound, hmem, hnrun⟩ := taskSelect_spec h.toListInv h.current hrun
  obtain rfl : next' = next := by simpa using hfound.symm.trans hsel
  have hkilled := hi.2 next' (hp.sub.subset hmem) hid
  rw [not_runnable_of_killed hkilled] at hnrun
  cases hnrun

/-- The id is dead: in every later state its tasks are killed, and it is not selected. -/
def StaysDead (s : Sched) (k i : ℕ) : Prop :=
  ∀ cs s', Calls MayCall s cs s' → k + structCount cs < 2 ^ 32 - 1 →
    (∀ b ∈ taskList s', (s'.tasks b).id = i → (s'.tasks b).state = .killed) ∧
    ∀ next, (∃ a ∈ taskList s', (s'.tasks a).runnable = true) →
      (taskSelect s').2.1 = some (.task next) → (s'.tasks next).id ≠ i

/-- **The scheduler's invariant.**  After any calls from `task_init` on, with fewer than
    `2 ^ 32 - 1` task structs allocated and a task to run whenever `task_schedule` is called: the
    ids on the list are distinct; only the current task is running; a call of `task_schedule`
    selects a task, not the sentinel, and leaves it current and the only one running; and a killed
    task stays killed and is never selected. -/
theorem calls_life {mem : ℕ → Task} {links : NodeHeap TaskNode} {pgds : ℕ → ℕ}
    {stackBottom a v p : ℕ} {raw : Task}
    (hcs : Calls MayCall (taskInit mem links pgds stackBottom a v p raw) cs s)
    (hcount : structCount cs < 2 ^ 32 - 1) :
    ((taskList s).map fun a => (s.tasks a).id).Nodup ∧
      (∀ a ∈ taskList s, (s.tasks a).state = .running → a = s.current) ∧
      (∀ esp, MayCall s (.schedule esp) → SchedulesOne s esp) ∧
      ∀ a ∈ taskList s, (s.tasks a).state = .killed →
        StaysDead s (structCount cs) (s.tasks a).id := by
  have h₀ := taskInit_life mem links pgds stackBottom a v p raw
  obtain ⟨l, h, -⟩ := h₀.calls hcs (by omega)
  rw [Nat.zero_add] at h
  rw [h.taskList_eq]
  refine ⟨h.ids, h.running, fun esp hok => h.schedulesOne hok, fun a ha hkilled => ?_⟩
  intro cs' s' hcs' hcount'
  have hdead : Dead s l (structCount cs) (s.tasks a).id := by
    refine ⟨h.id_le a ha, fun b hb hid => ?_⟩
    -- ids are distinct, so this is the same task
    rw [List.inj_on_of_nodup_map h.ids hb ha hid]
    exact hkilled
  obtain ⟨l', h', hkeep⟩ := h.calls hcs' hcount'
  have hdead' := hkeep _ hdead
  rw [h'.taskList_eq]
  exact ⟨hdead'.2, fun next hrun hsel => h'.not_selected hdead' hrun hsel⟩

theorem calls_life_worker :
    ((taskList idleAndWorker).map fun a => (idleAndWorker.tasks a).id).Nodup ∧
      SchedulesOne idleAndWorker 0 := by
  have hcs : Calls MayCall idleOnly [.create workerArgs workerAlloc] idleAndWorker :=
    Calls.snoc [] _ _ _ Calls.nil fresh_workerAlloc rfl
  obtain ⟨hids, -, hsched, -⟩ := calls_life hcs (by decide)
  exact ⟨hids, hsched 0 ⟨1, by decide, by decide⟩⟩

/-! ### The idle task -/

/-- Calls made with memory the allocators own. -/
def FreshCall (s : Sched) : TaskCall → Prop
  | .create _ al => Fresh s al
  | .kill _ => True
  | .exitCurrent => True
  | .schedule _ => True

/-- The call is not a `task_exit_current` of the task at `idle`. -/
def IdleStays (idle : ℕ) (s : Sched) (c : TaskCall) : Prop :=
  FreshCall s c ∧ (c = .exitCurrent → s.current ≠ idle)

/-- The task at `idle` is on the list, can run, and cannot be killed by id. -/
structure IdleInv (idle : ℕ) (s : Sched) (l : List ℕ) : Prop extends ListInv s l where
  current : s.current ∈ l
  enabled : s.schedEnabled = true
  mem : idle ∈ l
  id : (s.tasks idle).id = 0
  runnable : (s.tasks idle).runnable = true

variable {idle : ℕ}

theorem IdleInv.marked (h : IdleInv idle s l) (ha : a ≠ idle) :
    IdleInv idle (Rotary.marked s a) l := by
  refine ⟨h.toListInv.marked a, h.current, h.enabled, h.mem, ?_, ?_⟩
  · rw [marked_id]
    exact h.id
  · rw [runnable_of_state (t := s.tasks idle)]
    · exact h.runnable
    · rw [marked_state, if_neg ha.symm]

theorem IdleInv.scheduled {next : ℕ} (h : IdleInv idle s l) (hs : Scheduled s l s' l' next) :
    IdleInv idle s' l' := by
  refine ⟨hs.inv, hs.current.symm ▸ hs.mem, hs.schedEnabled.trans h.enabled, ?_,
    (hs.id idle).trans h.id, ?_⟩
  · by_contra hgone
    exact (hs.gone idle h.mem hgone).2 h.id
  · rw [runnable_iff, hs.state]
    split
    · exact Or.inr rfl
    · split
      · exact Or.inl rfl
      · exact runnable_iff.mp h.runnable

theorem IdleInv.call (h : IdleInv idle s l) (hok : IdleStays idle s c) (hrun : c.run s = some s') :
    ∃ l', IdleInv idle s' l' := by
  cases c with
  | create args al =>
    have hfresh : ∀ a, al.struct = some a → a ∉ l := fun a ha =>
      h.taskList_eq ▸ Fresh.struct hok.1 a ha
    obtain rfl := Option.some.inj hrun
    rcases taskCreate_cases h.toListInv hfresh with ⟨-, heq⟩ | ⟨-, a, l', hstruct, hc⟩
    · rw [heq]
      exact ⟨l, h⟩
    · have hidle : (taskCreate s args al).2.1.tasks idle = s.tasks idle :=
        hc.other idle (ne_of_mem_of_not_mem h.mem (hfresh a hstruct))
      have hsub : ∀ b ∈ l, b ∈ l' := by
        intro b hb
        rcases hc.list with rfl | rfl
        · exact hb
        · exact List.mem_cons_of_mem a hb
      refine ⟨l', hc.inv, ?_, hc.schedEnabled.trans h.enabled, hsub _ h.mem, ?_, ?_⟩
      · rw [hc.current]
        exact hsub _ h.current
      · rw [hidle]
        exact h.id
      · rw [hidle]
        exact h.runnable
  | kill id =>
    obtain rfl := Option.some.inj hrun
    rcases taskKill_cases h.toListInv id with heq | ⟨a, -, haid, hid, heq⟩
    · rw [heq]
      exact ⟨l, h⟩
    · rw [heq]
      refine ⟨l, h.marked ?_⟩
      -- the idle task has id 0, which `task_kill` refuses
      rintro rfl
      exact hid (haid.symm.trans h.id)
  | exitCurrent =>
    obtain rfl := Option.some.inj hrun
    exact ⟨l, h.marked (hok.2 rfl)⟩
  | schedule esp =>
    obtain ⟨s₁, l', next, heq, -, hs⟩ :=
      taskSchedule_spec h.toListInv h.enabled h.current ⟨idle, h.mem, h.runnable⟩ esp
    obtain rfl : s₁ = s' := Option.some.inj (heq.symm.trans hrun)
    exact ⟨l', h.scheduled hs⟩

theorem IdleInv.calls (h : IdleInv idle s₀ l) (hcs : Calls (IdleStays idle) s₀ cs s) :
    ∃ l', IdleInv idle s l' := by
  induction hcs with
  | nil => exact ⟨l, h⟩
  | snoc cs c s s' _ hok hrun ih =>
    obtain ⟨l₁, h₁⟩ := ih
    exact h₁.call hok hrun

/-- The idle task can run, and so `task_schedule` returns. -/
def FindsIdle (idle : ℕ) (s : Sched) : Prop :=
  idle ∈ taskList s ∧ (s.tasks idle).id = 0 ∧
    ((s.tasks idle).state = .waiting ∨ (s.tasks idle).state = .running) ∧
    ∀ esp, (taskSchedule s esp).1.isSome = true

/-- **The scheduler finds something to run.**  After any calls from `task_init` on among which the
    idle task does not call `task_exit_current`, the idle task is on the list and can run, and
    `task_schedule` returns. -/
theorem calls_idle {mem : ℕ → Task} {links : NodeHeap TaskNode} {pgds : ℕ → ℕ}
    {stackBottom v p : ℕ} {raw : Task}
    (hcs : Calls (IdleStays idle) (taskInit mem links pgds stackBottom idle v p raw) cs s) :
    FindsIdle idle s := by
  have hinit := taskInit_inv mem links pgds stackBottom idle v p raw
  have h₀ : IdleInv idle (taskInit mem links pgds stackBottom idle v p raw) [idle] := by
    refine ⟨hinit.toListInv, hinit.current, rfl, List.mem_singleton.mpr rfl, ?_, ?_⟩
    · simp [taskInit, taskAddToScheduler]
    · simp [taskInit, taskAddToScheduler, Task.runnable]
  obtain ⟨l, h⟩ := h₀.calls hcs
  refine ⟨h.taskList_eq.symm ▸ h.mem, h.id, runnable_iff.mp h.runnable, fun esp => ?_⟩
  obtain ⟨s', -, -, heq, -⟩ :=
    taskSchedule_spec h.toListInv h.enabled h.current ⟨idle, h.mem, h.runnable⟩ esp
  rw [heq]
  rfl

/-- The other task exits, and the idle task runs again. -/
theorem calls_idle_worker : FindsIdle 1 (taskExitCurrent workerCurrent) := by
  have hret : (taskSchedule idleAndWorker 0).1 = some workerCurrent := by
    obtain ⟨s', hs'⟩ := Option.isSome_iff_exists.mp
      (show (taskSchedule idleAndWorker 0).1.isSome = true by decide)
    rw [workerCurrent, hs']
    rfl
  have hcreate : Calls (IdleStays 1) idleOnly [.create workerArgs workerAlloc] idleAndWorker :=
    Calls.snoc [] _ _ _ Calls.nil ⟨fresh_workerAlloc, fun heq => by cases heq⟩ rfl
  have hsched := Calls.snoc _ (.schedule 0) _ _ hcreate ⟨trivial, fun heq => by cases heq⟩ hret
  exact calls_idle (Calls.snoc _ .exitCurrent _ _ hsched ⟨trivial, fun _ => by decide⟩ rfl)

/-- **The idle task can exit.**  `task_exit_current` does not look at the id, so that it marks the
    idle task as killed when that is current, and `task_schedule` searches forever. -/
theorem idle_exits :
    ¬ ∀ (mem : ℕ → Task) (links : NodeHeap TaskNode) (pgds : ℕ → ℕ) (stackBottom idle v p : ℕ)
      (raw : Task) (cs : List TaskCall) (s : Sched),
      Calls FreshCall (taskInit mem links pgds stackBottom idle v p raw) cs s →
      FindsIdle idle s := by
  intro h
  have hcs : Calls FreshCall idleOnly [.exitCurrent] (taskExitCurrent idleOnly) :=
    Calls.snoc [] _ _ _ Calls.nil trivial rfl
  obtain ⟨-, -, hstate, -⟩ := h _ _ _ _ _ _ _ _ _ _ hcs
  exact absurd hstate (by decide)

end Rotary

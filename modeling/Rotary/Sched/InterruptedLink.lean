import Rotary.Sched.PreemptInv

namespace Rotary

open Lib

/-!
# The scheduler's walk during an insertion

The timer may interrupt `task_create` between any two stores of its `clist_add`, and
`task_schedule` follows the `next` words without taking `task_lock`.

* `linkedUpTo` — the nodes after the first stores of `clist_add`; until the last of them the `next`
  words of the list are the old ones (`linkedUpTo_next`), and after it the new task is on the list
  (`linkedUpTo_all`);
* `Walkable` — a turn from the head or from an old task visits the list and comes back, and the
  search meets only initialised tasks of the list and ends;
* `interrupted_walk_iff` — at every point of the insertion the walk is all of that if and only if
  the search has something to find;
* `runs_initialised` — in every state that the processor reaches the tasks on the list are
  initialised, so that there too only the end of the search is in question (`runs_walkable_iff`).

The search of an idle task that has called `task_exit_current` and is interrupted while it creates
another task has nothing to find (`interrupted_walk_endless`).
-/

variable {x y : Cpu} {s s' : Sched} {l visited : List ℕ} {a b : ℕ} {p : Pc}

/-! ### The stores -/

/-- The stores of `clist_add` in program order. -/
def linkSteps : List LinkStep := [.firstPrev, .newNext, .newPrev, .headNext]

/-- The nodes after the first `k` stores. -/
def linkedUpTo (h : NodeHeap TaskNode) (a k : ℕ) : NodeHeap TaskNode :=
  (linkSteps.take k).foldl (fun h st => linkStore h a st) h

/-- The tasks on the list after the first `k` stores: the new one is there once all are done. -/
def linkedTasks (l : List ℕ) (a k : ℕ) : List ℕ := if k < linkSteps.length then l else a :: l

/-- The scheduler when the timer interrupts `clist_add` after its first `k` stores. -/
def interruptedLink (s : Sched) (a k : ℕ) : Sched := { s with nodes := linkedUpTo s.nodes a k }

/-- Stores before the last one leave the `next` words of the list alone. -/
theorem linkStores_next (h : NodeHeap TaskNode) {sts : List LinkStep} (hlast : .headNext ∉ sts)
    {n : TaskNode} (hn : n ≠ .task a) :
    (sts.foldl (fun h st => linkStore h a st) h n).next = (h n).next := by
  induction sts generalizing h with
  | nil => rfl
  | cons st sts ih =>
    rw [List.foldl_cons, ih _ fun hin => hlast (List.mem_cons_of_mem st hin)]
    exact linkStore_next h (fun heq => hlast (heq ▸ List.mem_cons_self)) hn

theorem linkedUpTo_next (h : NodeHeap TaskNode) {k : ℕ} (hk : k < linkSteps.length) {n : TaskNode}
    (hn : n ≠ .task a) : (linkedUpTo h a k n).next = (h n).next := by
  have hbefore : ∀ k < 4, LinkStep.headNext ∉ linkSteps.take k := by decide
  exact linkStores_next h (hbefore k hk) hn

/-- All four stores are `clist_add`. -/
theorem linkedUpTo_all (h : NodeHeap TaskNode) {k : ℕ} (hk : ¬k < linkSteps.length) :
    linkedUpTo h a k = clistAdd h .head (.task a) := by
  rw [linkedUpTo, List.take_of_length_le (Nat.le_of_not_lt hk)]
  exact linkStore_all h a

/-! ### Lists by their `next` words -/

/-- The `next` words lead around the list.  The `prev` words may be on the way from one list to
    another. -/
def NextRing (s : Sched) (l : List ℕ) : Prop :=
  ∃ h₀, Ring h₀ .head (l.map TaskNode.task) ∧
    ∀ n ∈ TaskNode.head :: l.map TaskNode.task, (s.nodes n).next = (h₀ n).next

/-- **Between the stores** the `next` words lead around the old list, and around the new one when
    all stores are done. -/
theorem nextRing_interruptedLink (hr : Ring s.nodes .head (l.map TaskNode.task)) (ha : a ∉ l)
    (k : ℕ) : NextRing (interruptedLink s a k) (linkedTasks l a k) := by
  have hnew : TaskNode.task a ∉ TaskNode.head :: l.map TaskNode.task := by
    rw [List.mem_cons, List.mem_map]
    rintro (heq | ⟨b, hb, heq⟩)
    · cases heq
    · obtain rfl := TaskNode.task.inj heq
      exact ha hb
  by_cases hk : k < linkSteps.length
  · rw [linkedTasks, if_pos hk]
    refine ⟨s.nodes, hr, ?_⟩
    intro n hn
    exact linkedUpTo_next s.nodes hk fun heq => hnew (heq ▸ hn)
  · rw [linkedTasks, if_neg hk]
    refine ⟨clistAdd s.nodes .head (.task a), clistAdd_ring hr hnew, ?_⟩
    intro n _
    show (linkedUpTo s.nodes a k n).next = _
    rw [linkedUpTo_all s.nodes hk]

/-- At every statement of every task the `next` words lead around the list. -/
theorem Base.nextRing (h : Base x l) : NextRing x.sched l := by
  obtain ⟨h₀, hl, hnext⟩ := h.next
  exact ⟨h₀, hl.ring, hnext⟩

theorem NextRing.closed (h : NextRing s l) : NextClosed s l := by
  obtain ⟨h₀, hr, hnext⟩ := h
  intro n hn
  obtain ⟨m, hm, hnm⟩ := hr.next_mem hn
  exact ⟨m, hm, (hnext n hn).trans hnm⟩

/-! ### The walk -/

/-- The search of `task_schedule`, from the node behind the current task on. -/
def scheduleSearch (s : Sched) (fuel : ℕ) : Option TaskNode × List Event :=
  searchFrom s fuel ((s.nodes (.task s.current)).next.getD .head)

/-- The walk over a list whose old tasks are `l` and whose tasks are `visited`. -/
structure Walkable (s : Sched) (l visited : List ℕ) : Prop where
  /-- From the head and from every old task, following `next` visits exactly the head and the tasks
      `visited`, in their cyclic order, and returns. -/
  turn : ∀ c ∈ TaskNode.head :: l.map TaskNode.task, ∃ ns,
    List.IsChain (Ring.Follows s.nodes) (c :: ns ++ [c]) ∧
    (c :: ns).IsRotated (TaskNode.head :: visited.map TaskNode.task)
  /-- An empty struct is in `TASK_STATE_INVALID`. -/
  meets : ∀ fuel b, Event.touch b ∈ (scheduleSearch s fuel).2 →
    b ∈ visited ∧ (s.tasks b).state ≠ .invalid
  ends : ∃ fuel, (scheduleSearch s fuel).1.isSome = true

/-- **The search ends if and only if it has something to find.** -/
theorem scheduleSearch_ends_iff (h : NextRing s l) (hcur : s.current ∈ l) :
    (∃ fuel, (scheduleSearch s fuel).1.isSome = true) ↔
      ∃ n ∈ TaskNode.head :: l.map TaskNode.task, s.runs n = true := by
  have hmem : TaskNode.task s.current ∈ TaskNode.head :: l.map TaskNode.task :=
    List.mem_cons_of_mem _ (List.mem_map_of_mem hcur)
  constructor
  · rintro ⟨fuel, hsome⟩
    obtain ⟨m, hm⟩ := Option.isSome_iff_exists.mp hsome
    exact ⟨m, (searchFrom_closed h.closed fuel (h.closed.getD_mem hmem)).2 m hm⟩
  · rintro ⟨n, hn, hruns⟩
    obtain ⟨h₀, hr, hnext⟩ := h
    -- one turn from the current task on passes every node
    obtain ⟨ns, hchain, hrot⟩ := hr.turns_congr hnext hmem
    obtain ⟨d, path, hpath⟩ : ∃ d path, ns ++ [TaskNode.task s.current] = d :: path := by
      cases ns with
      | nil => exact ⟨_, [], rfl⟩
      | cons d ns => exact ⟨d, ns ++ [TaskNode.task s.current], rfl⟩
    rw [List.cons_append, hpath] at hchain
    obtain ⟨hfirst, hrest⟩ := List.isChain_cons_cons.mp hchain
    have hin : n ∈ d :: path := by
      rw [← hpath, List.mem_append, List.mem_singleton]
      rcases List.mem_cons.mp (hrot.mem_iff.mpr hn) with rfl | hns
      · exact Or.inr rfl
      · exact Or.inl hns
    have hsome : ((d :: path).find? s.runs).isSome = true := List.find?_isSome.mpr ⟨n, hin, hruns⟩
    obtain ⟨m, hm⟩ := Option.isSome_iff_exists.mp hsome
    refine ⟨path.length + 1, ?_⟩
    have hword : (s.nodes (.task s.current)).next = some d := hfirst
    rw [scheduleSearch, hword, Option.getD_some, searchFrom_chain hrest (Nat.lt_succ_self _) hm]
    rfl

/-- From every node of the list, following `next` goes once around it. -/
theorem NextRing.turn (h : NextRing s l) {c : TaskNode}
    (hc : c ∈ TaskNode.head :: l.map TaskNode.task) : ∃ ns,
    List.IsChain (Ring.Follows s.nodes) (c :: ns ++ [c]) ∧
    (c :: ns).IsRotated (TaskNode.head :: l.map TaskNode.task) := by
  obtain ⟨h₀, hr, hnext⟩ := h
  exact hr.turns_congr hnext hc

/-- Whatever the states of the tasks are, the search meets tasks of the list only. -/
theorem NextRing.meets (h : NextRing s l) (hcur : s.current ∈ l) {fuel : ℕ}
    (hb : Event.touch b ∈ (scheduleSearch s fuel).2) : b ∈ l := by
  have hmem : TaskNode.task s.current ∈ TaskNode.head :: l.map TaskNode.task :=
    List.mem_cons_of_mem _ (List.mem_map_of_mem hcur)
  have htouch := (searchFrom_closed h.closed fuel (h.closed.getD_mem hmem)).1
  rcases htouch _ hb with ⟨c, hc, heq⟩ | ⟨k, heq⟩
  · obtain rfl := Event.touch.inj heq
    exact hc
  · cases heq

/-- On a list of initialised tasks only the end of the search is in question. -/
theorem NextRing.walkable_iff (h : NextRing s visited) (hcur : s.current ∈ visited)
    (hinit : ∀ b ∈ visited, (s.tasks b).state ≠ .invalid) (hsub : ∀ b ∈ l, b ∈ visited) :
    Walkable s l visited ↔ ∃ n ∈ TaskNode.head :: visited.map TaskNode.task, s.runs n = true := by
  rw [← scheduleSearch_ends_iff h hcur]
  constructor
  · exact fun hw => hw.ends
  · intro hends
    refine ⟨?_, ?_, hends⟩
    · intro c hc
      apply h.turn
      rcases List.mem_cons.mp hc with rfl | hc
      · exact List.mem_cons_self
      · obtain ⟨b, hb, rfl⟩ := List.mem_map.mp hc
        exact List.mem_cons_of_mem _ (List.mem_map_of_mem (hsub b hb))
    · intro fuel b hb
      have hin : b ∈ visited := h.meets hcur hb
      exact ⟨hin, hinit b hin⟩

/-- **An interrupted insertion.**  After any number of its stores the walk is a whole turn of the
    list, which holds the new task once they are all done, and meets no other task; it finds a task
    to switch to if and only if one of those is waiting or running. -/
theorem interrupted_walk_iff (hr : Ring s.nodes .head (l.map TaskNode.task)) (ha : a ∉ l)
    (hcur : s.current ∈ l) (k : ℕ)
    (hinit : ∀ b ∈ linkedTasks l a k, (s.tasks b).state ≠ .invalid) :
    Walkable (interruptedLink s a k) l (linkedTasks l a k) ↔
      ∃ n ∈ TaskNode.head :: (linkedTasks l a k).map TaskNode.task, s.runs n = true := by
  have hsub : ∀ b ∈ l, b ∈ linkedTasks l a k := by
    intro b hb
    unfold linkedTasks
    split
    · exact hb
    · exact List.mem_cons_of_mem a hb
  exact (nextRing_interruptedLink hr ha k).walkable_iff (hsub _ hcur) hinit hsub

/-- A tick after two stores of the second `clist_add` still goes around the idle task alone. -/
theorem interrupted_walk_iff_idleOnly :
    Walkable (interruptedLink idleOnly 10 2) [1] (linkedTasks [1] 10 2) := by
  have hinv : SchedInv idleOnly [1] := taskInit_inv _ _ _ _ _ _ _ _
  apply (interrupted_walk_iff hinv.ring (by decide) hinv.current 2 (by decide)).mpr
  exact ⟨.task 1, List.mem_cons_of_mem _ List.mem_cons_self, by decide⟩

/-! ### Initialised structs -/

/-- The `task_create` that has not filled in its struct yet. -/
def PageSite.orders : PageSite → Option CreateCall
  | .struct c _ => some c
  | _ => none

def Pc.orders : Pc → Option CreateCall
  | .createLock c => some c
  | .createStruct c => some c
  | .pages _ site => site.orders
  | _ => none

/-- No `task_create` is going to fill in an empty state, and those that have filled in their struct
    have left another state there. -/
structure Ready (x : Cpu) : Prop where
  ordered : ∀ b c, (x.pc b).orders = some c → c.args.state ≠ .invalid
  filled : ∀ b a, (x.pc b).creates = some a → (x.sched.tasks a).state ≠ .invalid

/-- A struct that is filled in stays so. -/
def KeepsFilled (s s' : Sched) : Prop :=
  ∀ a, (s.tasks a).state ≠ .invalid → (s'.tasks a).state ≠ .invalid

theorem KeepsFilled.refl (s : Sched) : KeepsFilled s s := fun _ ha => ha

theorem keepsFilled_update {t : Task} (hs : s'.tasks = Function.update s.tasks a t)
    (ht : (s.tasks a).state ≠ .invalid → t.state ≠ .invalid) : KeepsFilled s s' := by
  intro b hb
  rw [hs]
  by_cases hba : b = a
  · subst hba
    rw [Function.update_self]
    exact ht hb
  · rw [Function.update_of_ne hba]
    exact hb

/-- A statement after which the current task stands at `p`. -/
theorem Ready.moves (h : Ready x) (hkeeps : KeepsFilled x.sched y.sched)
    (hother : ∀ b, b ≠ x.sched.current → y.pc b = x.pc b ∨ y.pc b = .out)
    (hself : y.pc x.sched.current = p)
    (horders : ∀ c, p.orders = some c → (x.pc x.sched.current).orders = some c)
    (hcreates : ∀ a, p.creates = some a →
      (x.pc x.sched.current).creates = some a ∨ (y.sched.tasks a).state ≠ .invalid) :
    Ready y ∧ KeepsFilled x.sched y.sched := by
  refine ⟨⟨?_, ?_⟩, hkeeps⟩
  · intro b c hc
    by_cases hb : b = x.sched.current
    · rw [hb, hself] at hc
      exact h.ordered _ c (horders c hc)
    · rcases hother b hb with heq | heq
      · rw [heq] at hc
        exact h.ordered b c hc
      · rw [heq] at hc
        cases hc
  · intro b a ha
    by_cases hb : b = x.sched.current
    · rw [hb, hself] at ha
      rcases hcreates a ha with hold | hnew
      · exact hkeeps a (h.filled _ a hold)
      · exact hnew
    · rcases hother b hb with heq | heq
      · rw [heq] at ha
        exact hkeeps a (h.filled b a ha)
      · rw [heq] at ha
        cases ha

/-- A statement that moves the current task only. -/
theorem Ready.goto (h : Ready x) (hkeeps : KeepsFilled x.sched y.sched)
    (hpc : y.pc = Function.update x.pc x.sched.current p)
    (horders : ∀ c, p.orders = some c → (x.pc x.sched.current).orders = some c)
    (hcreates : ∀ a, p.creates = some a →
      (x.pc x.sched.current).creates = some a ∨ (y.sched.tasks a).state ≠ .invalid) :
    Ready y ∧ KeepsFilled x.sched y.sched := by
  apply h.moves hkeeps _ _ horders hcreates
  · intro b hb
    rw [hpc, Function.update_of_ne hb]
    exact Or.inl rfl
  · rw [hpc, Function.update_self]

/-- A statement outside the part of `task_create` that fills in the struct. -/
theorem Ready.leave (h : Ready x) (hkeeps : KeepsFilled x.sched y.sched)
    (hpc : y.pc = Function.update x.pc x.sched.current p) (horders : p.orders = none)
    (hcreates : p.creates = none ∨ p.creates = (x.pc x.sched.current).creates) :
    Ready y ∧ KeepsFilled x.sched y.sched := by
  apply h.goto hkeeps hpc
  · intro c hc
    rw [horders] at hc
    cases hc
  · intro a ha
    rcases hcreates with hnone | hsame
    · rw [hnone] at ha
      cases ha
    · exact Or.inl (hsame ▸ ha)

theorem enterStruct_orders (c : CreateCall) (left : ℕ) : (enterStruct c left).orders = some c := by
  cases left <;> rfl

theorem enterSpace_orders (c : CreateCall) (a left : ℕ) : (enterSpace c a left).orders = none := by
  cases left <;> rfl

theorem enterFreeStack_orders (s : Sched) (a : ℕ) : (enterFreeStack s a).orders = none := by
  unfold enterFreeStack
  split <;> rfl

theorem enterCleanup_orders (s : Sched) (a : ℕ) : (enterCleanup s a).orders = none := by
  unfold enterCleanup
  split
  · exact enterFreeStack_orders s a
  · rfl

/-- A call of the page allocator returns to the `task_create` that made it. -/
theorem resume_orders (s : Sched) (site : PageSite) :
    (site.resume s).orders = site.orders := by
  cases site with
  | struct c left => exact enterStruct_orders c left
  | space c a left => exact enterSpace_orders c a left
  | freePgd a => exact enterFreeStack_orders s a
  | _ => rfl

/-- **One statement** of the current task. -/
theorem Ready.exec (h : Ready x) (hexec : x.exec = some y) :
    Ready y ∧ KeepsFilled x.sched y.sched := by
  cases hq : x.pc x.sched.current with
  | out =>
    rw [Cpu.exec, hq] at hexec
    cases hexec
  | exitLock | killLock id | killRelock id a =>
    rw [Cpu.exec, hq] at hexec
    obtain ⟨-, rfl⟩ := Cpu.take_eq_some hexec
    exact h.leave (KeepsFilled.refl _) rfl rfl (Or.inl rfl)
  | exitMark | killMark id a =>
    rw [Cpu.exec, hq] at hexec
    obtain rfl := Option.some.inj hexec
    exact h.leave (keepsFilled_update rfl fun _ heq => by cases heq) rfl rfl (Or.inl rfl)
  | exitUnlock | killFirst id | killUnlock id | createFree a | createUnlock =>
    rw [Cpu.exec, hq] at hexec
    obtain rfl := Option.some.inj hexec
    exact h.leave (KeepsFilled.refl _) rfl rfl (Or.inl rfl)
  | killFind id node =>
    rw [Cpu.exec, hq] at hexec
    cases node with
    | none =>
      obtain rfl := Option.some.inj hexec
      exact h.leave (KeepsFilled.refl _) rfl rfl (Or.inl rfl)
    | some m =>
      cases m with
      | head =>
        obtain rfl := Option.some.inj hexec
        exact h.leave (KeepsFilled.refl _) rfl rfl (Or.inl rfl)
      | task a =>
        dsimp only at hexec
        split at hexec
        · obtain rfl := Option.some.inj hexec
          exact h.leave (KeepsFilled.refl _) rfl rfl (Or.inl rfl)
        · obtain rfl := Option.some.inj hexec
          exact h.leave (KeepsFilled.refl _) rfl rfl (Or.inl rfl)
  | killReturn id found =>
    rw [Cpu.exec, hq] at hexec
    cases found with
    | none =>
      obtain rfl := Option.some.inj hexec
      exact h.leave (KeepsFilled.refl _) rfl rfl (Or.inl rfl)
    | some a =>
      obtain rfl := Option.some.inj hexec
      exact h.leave (KeepsFilled.refl _) rfl rfl (Or.inl rfl)
  | killTest id a | killTestState id a =>
    rw [Cpu.exec, hq] at hexec
    dsimp only at hexec
    split at hexec
    · obtain rfl := Option.some.inj hexec
      exact h.leave (KeepsFilled.refl _) rfl rfl (Or.inl rfl)
    · obtain rfl := Option.some.inj hexec
      exact h.leave (KeepsFilled.refl _) rfl rfl (Or.inl rfl)
  | pages st site =>
    rw [Cpu.exec, hq] at hexec
    cases st with
    | lock =>
      obtain ⟨-, rfl⟩ := Cpu.take_eq_some hexec
      exact h.goto (KeepsFilled.refl _) rfl (fun c hc => hq ▸ hc) fun a ha => Or.inl (hq ▸ ha)
    | work =>
      obtain rfl := Option.some.inj hexec
      exact h.goto (KeepsFilled.refl _) rfl (fun c hc => hq ▸ hc) fun a ha => Or.inl (hq ▸ ha)
    | unlock =>
      obtain rfl := Option.some.inj hexec
      refine h.goto (KeepsFilled.refl _) rfl (fun c hc => ?_) fun a ha => Or.inl ?_
      · rw [resume_orders] at hc
        rw [hq]
        exact hc
      · rw [(resume_plain x.sched site).creates] at ha
        rw [hq]
        exact ha
  | createLock c =>
    rw [Cpu.exec, hq] at hexec
    obtain ⟨-, rfl⟩ := Cpu.take_eq_some hexec
    refine h.goto (KeepsFilled.refl _) rfl (fun c' hc => ?_) fun a ha => ?_
    · rw [enterStruct_orders] at hc
      rw [hq]
      exact hc
    · rw [(enterStruct_plain c c.structPages).creates] at ha
      cases ha
  | createStruct c =>
    rw [Cpu.exec, hq] at hexec
    dsimp only at hexec
    split at hexec
    · obtain rfl := Option.some.inj hexec
      exact h.leave (KeepsFilled.refl _) rfl rfl (Or.inl rfl)
    · -- the struct gets the state that `task_create` was called with
      rename_i a _
      obtain rfl := Option.some.inj hexec
      have hstate : c.args.state ≠ .invalid := h.ordered _ c (by rw [hq]; rfl)
      apply h.moves (keepsFilled_update rfl fun _ => hstate) _ (Function.update_self _ _ _)
      · intro c' hc
        cases hc
      · intro a' ha
        obtain rfl : a = a' := Option.some.inj ha
        refine Or.inr ?_
        show (Function.update x.sched.tasks a _ a).state ≠ .invalid
        rw [Function.update_self]
        exact hstate
      · intro b hb
        have hold := Function.update_of_ne hb (.pages .lock (.stack c a)) (Function.update x.pc a .out)
        by_cases hba : b = a
        · have hout : Function.update x.pc a .out b = .out := by rw [hba, Function.update_self]
          exact Or.inr (hold.trans hout)
        · exact Or.inl (hold.trans (Function.update_of_ne hba _ _))
  | createStack c a =>
    rw [Cpu.exec, hq] at hexec
    dsimp only at hexec
    split at hexec
    · obtain rfl := Option.some.inj hexec
      exact h.leave (KeepsFilled.refl _) rfl (enterCleanup_orders _ _)
        (Or.inl (enterCleanup_plain _ _).creates)
    · obtain rfl := Option.some.inj hexec
      apply h.leave (keepsFilled_update rfl (by exact fun ha => ha)) rfl (enterSpace_orders _ _ _)
      rw [hq]
      exact Or.inr (enterSpace_plain _ _ _).creates
  | createSpace c a =>
    rw [Cpu.exec, hq] at hexec
    dsimp only at hexec
    split at hexec
    · obtain rfl := Option.some.inj hexec
      exact h.leave (KeepsFilled.refl _) rfl (enterCleanup_orders _ _)
        (Or.inl (enterCleanup_plain _ _).creates)
    · obtain rfl := Option.some.inj hexec
      apply h.leave (keepsFilled_update rfl (by exact fun ha => ha)) rfl rfl
      rw [hq]
      exact Or.inr rfl
  | createArch a =>
    rw [Cpu.exec, hq] at hexec
    obtain rfl := Option.some.inj hexec
    apply h.leave (keepsFilled_update rfl (by exact fun ha => ha)) rfl rfl
    rw [hq]
    exact Or.inr rfl
  | createLink a st =>
    rw [Cpu.exec, hq] at hexec
    obtain rfl := Option.some.inj hexec
    refine h.leave (fun _ ha => ha) rfl ?_ ?_
    · cases st <;> rfl
    · rw [hq]
      cases st with
      | headNext => exact Or.inl rfl
      | _ => exact Or.inr rfl

/-- Purging tasks writes list nodes only. -/
theorem purgeFrom_tasks (fuel : ℕ) (entry tmp : Option TaskNode) (s : Sched) :
    (purgeFrom fuel entry tmp s).1.tasks = s.tasks := by
  induction fuel generalizing entry tmp s with
  | zero => rfl
  | succ fuel ih =>
    match entry with
    | none => rfl
    | some .head => rfl
    | some (.task a) =>
      have hpurge : (taskPurge s (s.tasks a).id).2.1.tasks = s.tasks := by
        unfold taskPurge
        split
        · rfl
        · generalize taskGetFromId s (s.tasks a).id = r
          obtain ⟨found, es⟩ := r
          cases found with
          | none => rfl
          | some b =>
            dsimp only
            split <;> rfl
      rw [purgeFrom]
      dsimp only
      rw [ih]
      split
      · exact hpurge
      · rfl

/-- The states that `task_schedule` writes are those of a filled struct. -/
theorem taskSchedule_keepsFilled {esp : ℕ} (hen : s.schedEnabled = true)
    (hret : (taskSchedule s esp).1 = some s') : KeepsFilled s s' := by
  obtain ⟨next, -, rfl⟩ := (taskSchedule_eq_some_iff hen).mp hret
  intro a ha
  have hpurged : ((taskSelect s).1.tasks a).state = (s.tasks a).state := by
    rw [(taskSelect_eq s).1]
    show ((purgeFrom _ _ _ (ticked s)).1.tasks a).state = _
    rw [purgeFrom_tasks, ticked_state]
  rw [switchTo_state, hpurged]
  split
  · exact fun heq => by cases heq
  · split
    · exact fun heq => by cases heq
    · exact ha

/-- `task_create` refuses an empty initial state. -/
theorem entry_orders (f : Call) {c : CreateCall} (hc : f.entry.orders = some c) :
    c.args.state ≠ .invalid := by
  cases f with
  | create c' =>
    rw [Call.entry] at hc
    split at hc
    · cases hc
    · rename_i hstate
      split at hc
      · cases hc
      · obtain rfl : c' = c := Option.some.inj hc
        intro heq
        apply hstate
        rw [heq]
        exact ⟨by decide, by decide⟩
  | kill id =>
    rw [Call.entry] at hc
    split at hc <;> cases hc
  | _ => cases hc

/-- **One step** fills in structs and leaves the others as they are. -/
theorem Ready.step {act : Action} (h : Ready x) (hen : x.sched.schedEnabled = true)
    (hstep : x.step act = some y) : Ready y ∧ KeepsFilled x.sched y.sched := by
  unfold Cpu.step at hstep
  split at hstep
  · cases hstep
  cases act with
  | call f =>
    dsimp only at hstep
    split at hstep
    · obtain rfl := Option.some.inj hstep
      refine ⟨⟨fun b c hc => ?_, fun b a ha => ?_⟩, KeepsFilled.refl _⟩
      · by_cases hb : b = x.sched.current
        · rw [hb, Cpu.goto_pc] at hc
          exact entry_orders f hc
        · have hold : (x.goto f.entry).pc b = x.pc b := Function.update_of_ne hb _ _
          rw [hold] at hc
          exact h.ordered b c hc
      · by_cases hb : b = x.sched.current
        · rw [hb, Cpu.goto_pc, (entry_plain f).creates] at ha
          cases ha
        · have hold : (x.goto f.entry).pc b = x.pc b := Function.update_of_ne hb _ _
          rw [hold] at ha
          exact h.filled b a ha
    · cases hstep
  | exec => exact h.exec hstep
  | tick esp =>
    dsimp only at hstep
    unfold Cpu.tick at hstep
    dsimp only at hstep
    split at hstep
    · -- the timer waits for a lock
      obtain rfl := Option.some.inj hstep
      exact ⟨⟨h.ordered, h.filled⟩, KeepsFilled.refl _⟩
    · obtain ⟨s', hret, rfl⟩ := Option.map_eq_some_iff.mp hstep
      have hkeeps := taskSchedule_keepsFilled hen hret
      exact ⟨⟨h.ordered, fun b a ha => hkeeps a (h.filled b a ha)⟩, hkeeps⟩

/-- **Initialised tasks.**  In every state that is reached no struct on the list is empty. -/
theorem runs_initialised {mem : ℕ → Task} {links : NodeHeap TaskNode} {pgds : ℕ → ℕ}
    {stackBottom v pgd : ℕ} {raw : Task}
    (hrun : Runs Promised (Cpu.boot (taskInit mem links pgds stackBottom a v pgd raw)) x) :
    ∃ l, Base x l ∧ Ready x ∧ ∀ b ∈ l, (x.sched.tasks b).state ≠ .invalid := by
  induction hrun with
  | refl =>
    refine ⟨[a], boot_base mem links pgds stackBottom a v pgd raw, ⟨?_, ?_⟩, ?_⟩
    · intro b c hc
      cases hc
    · intro b a' ha
      cases ha
    · intro b hb
      obtain rfl := List.mem_singleton.mp hb
      show (Function.update mem b _ b).state ≠ .invalid
      rw [Function.update_self]
      exact fun heq => by cases heq
  | step x y act _ hok hstep ih =>
    obtain ⟨l, h, hready, hlist⟩ := ih
    obtain ⟨hready', hkeeps⟩ := hready.step h.enabled hstep
    obtain ⟨-, hcases⟩ := h.step hok hstep
    rcases hcases with ⟨k, esp, -, -, rfl⟩ | ⟨l', hmoves, -⟩ | ⟨esp, l', -, hbase, htick, -⟩
    · exact ⟨l, h.spinning k, hready', hlist⟩
    · refine ⟨l', hmoves.base, hready', ?_⟩
      intro b hb
      by_cases hbl : b ∈ l
      · exact hkeeps b (hlist b hbl)
      · -- only the struct that was being created gets onto the list
        exact hkeeps b (hready.filled _ b (hmoves.created b hb hbl))
    · exact ⟨l', hbase, hready', fun b hb => hkeeps b (hlist b (htick.sub.subset hb))⟩

/-! ### Runs -/

/-- **Every state that is reached**, whatever each task is executing: the list can be walked from
    every task on it if and only if one of them is waiting or running. -/
theorem runs_walkable_iff {mem : ℕ → Task} {links : NodeHeap TaskNode} {pgds : ℕ → ℕ}
    {stackBottom v pgd : ℕ} {raw : Task}
    (hrun : Runs Promised (Cpu.boot (taskInit mem links pgds stackBottom a v pgd raw)) x) :
    Walkable x.sched (taskList x.sched) (taskList x.sched) ↔
      ∃ b ∈ taskList x.sched, (x.sched.tasks b).runnable = true := by
  obtain ⟨l, h, -, hinit⟩ := runs_initialised hrun
  rw [h.taskList_eq, h.nextRing.walkable_iff h.current hinit fun _ hb => hb]
  constructor
  · rintro ⟨n, hn, hruns⟩
    rcases List.mem_cons.mp hn with rfl | hn
    · exact absurd (h.sentinel.symm.trans hruns) (by decide)
    · obtain ⟨b, hb, rfl⟩ := List.mem_map.mp hn
      exact ⟨b, hb, hruns⟩
  · rintro ⟨b, hb, hruns⟩
    exact ⟨.task b, List.mem_cons_of_mem _ (List.mem_map_of_mem hb), hruns⟩

/-- The idle task calls `task_exit_current`, and then `task_create` until two stores of `clist_add`
    are done. -/
def exitThenCreate : List Action :=
  .call .exitCurrent :: List.replicate 3 .exec ++
    .call (.create (createAt 10)) :: List.replicate 13 .exec

/-- **The search that never ends.**  The processor gets into an insertion with no task to switch to:
    the only task on the list is the idle task, which has exited and is never purged. -/
theorem interrupted_walk_endless :
    ¬ ∀ (x : Cpu) (s : Sched) (l : List ℕ) (a k : ℕ),
      Runs Promised (Cpu.boot idleOnly) x → x.sched = interruptedLink s a k →
      Ring s.nodes .head (l.map TaskNode.task) → a ∉ l → s.current ∈ l →
      (∀ b ∈ linkedTasks l a k, (s.tasks b).state ≠ .invalid) →
      Walkable x.sched l (linkedTasks l a k) := by
  intro hall
  have hend : ((Cpu.boot idleOnly).follow Promised exitThenCreate).map
      (fun x => (x.linking, taskList x.sched, (x.sched.tasks 1).state)) =
        some (some (10, .newPrev), [1], .killed) := by
    decide +kernel
  obtain ⟨x, hx, heq⟩ := Option.map_eq_some_iff.mp hend
  obtain ⟨hlink, hrest⟩ := Prod.mk.inj heq
  obtain ⟨hlist, hkilled⟩ := Prod.mk.inj hrest
  have hrun : Runs Promised (Cpu.boot idleOnly) x := follow_runs Runs.refl hx
  obtain ⟨l, h, -, hinit⟩ := runs_initialised hrun
  obtain rfl : l = [1] := h.taskList_eq.symm.trans hlist
  obtain ⟨h₀, hl, hnodes⟩ := h.list
  rw [hlink] at hnodes
  have hsched : x.sched = interruptedLink { x.sched with nodes := h₀ } 10 2 := by
    show x.sched = { x.sched with nodes := linkedUpTo h₀ 10 2 }
    rw [show linkedUpTo h₀ 10 2 = x.sched.nodes from hnodes.symm]
  have hwalk : Walkable x.sched [1] [1] :=
    hall x _ [1] 10 2 hrun hsched hl.ring (by decide) h.current hinit
  rw [← hlist] at hwalk
  obtain ⟨b, hb, hruns⟩ := (runs_walkable_iff hrun).mp hwalk
  rw [hlist] at hb
  obtain rfl := List.mem_singleton.mp hb
  rw [not_runnable_of_killed hkilled] at hruns
  cases hruns

end Rotary

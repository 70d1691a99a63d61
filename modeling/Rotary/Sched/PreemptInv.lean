import Rotary.Sched.Preempt

namespace Rotary

open Lib

/-!
# What holds however the task functions are interrupted

* `taskSchedule_cases` — a `task_schedule` that returns has purged killed tasks, under `task_lock`,
  or changed nothing but the tasks' states;
* `Base` — in every state that is reached the task list is a ring, but for the stores of a
  `clist_add` under way; whoever stands in a critical section holds `task_lock`; and a task that is
  being created is not on the list yet;
* `tick_never_waits` — without a killed task on the list, or with no lock in the hands of the
  interrupted task, the timer never waits for a lock of that task;
* `kill_hits_target` — as long as no tick finds the target of a `task_kill` under way killed, it
  marks the task it has looked up, which is still on the list.
-/

variable {x y : Cpu} {s s' : Sched} {l l' : List ℕ} {a b id esp : ℕ} {p : Pc}

/-! ### One call of `task_schedule` -/

/-- `task_purge` of another id than 0 takes the lock before it does anything. -/
theorem lock_mem_taskPurge (hid : id ≠ 0) : Event.lock .task ∈ (taskPurge s id).2.2 := by
  have hget : Event.lock .task ∈ (taskGetFromId s id).2 := List.mem_cons_self
  rw [taskPurge, if_neg hid]
  generalize taskGetFromId s id = r at hget
  obtain ⟨found, es⟩ := r
  dsimp only at hget ⊢
  split
  · exact hget
  · split
    · exact List.mem_append_left _ hget
    · exact List.mem_append_left _ (List.mem_append_left _ hget)

/-- The purge loop changes nothing unless it takes `task_lock`. -/
theorem purgeFrom_unlocked (fuel : ℕ) (entry tmp : Option TaskNode) (s : Sched)
    (hlock : Event.lock .task ∉ (purgeFrom fuel entry tmp s).2) :
    (purgeFrom fuel entry tmp s).1 = s := by
  induction fuel generalizing entry tmp s with
  | zero => rfl
  | succ fuel ih =>
    match entry with
    | none => rfl
    | some .head => rfl
    | some (.task a) =>
      rw [purgeFrom] at hlock ⊢
      have hvisit : (if (s.tasks a).state = .killed then (taskPurge s (s.tasks a).id).2
          else (s, [])) = (s, []) := by
        split
        · by_cases hid : (s.tasks a).id = 0
          · rw [taskPurge, if_pos hid]
          · rename_i hkilled
            exfalso
            apply hlock
            have hin : Event.lock .task ∈ (taskPurge s (s.tasks a).id).2.2 := lock_mem_taskPurge hid
            rw [if_pos hkilled]
            generalize (taskPurge s (s.tasks a).id).2 = r at hin
            obtain ⟨s₁, es⟩ := r
            dsimp only at hin ⊢
            simp [hin]
        · rfl
      rw [hvisit] at hlock ⊢
      dsimp only at hlock ⊢
      refine ih _ _ _ fun hin => hlock ?_
      simp [hin]

/-- The nodes of the list as it was before a purge are closed under `next` after it. -/
theorem Purges.nextClosed (h : Purges s l s' l') : NextClosed s' l := by
  have hsub : ∀ n ∈ TaskNode.head :: l'.map TaskNode.task,
      n ∈ TaskNode.head :: l.map TaskNode.task := by
    intro n hn
    rcases List.mem_cons.mp hn with rfl | hn
    · exact List.mem_cons_self
    · obtain ⟨a, ha, rfl⟩ := List.mem_map.mp hn
      exact List.mem_cons_of_mem _ (List.mem_map_of_mem (h.sub.subset ha))
  intro n hn
  by_cases hn' : n ∈ TaskNode.head :: l'.map TaskNode.task
  · obtain ⟨m, hm, hnext⟩ := h.inv.nextClosed n hn'
    exact ⟨m, hsub m hm, hnext⟩
  · -- a purged task: its `next` word leads over purged ones to the list
    rcases List.mem_cons.mp hn with rfl | hn
    · exact absurd List.mem_cons_self hn'
    obtain ⟨a, ha, rfl⟩ := List.mem_map.mp hn
    have hgone : a ∉ l' := fun hin => hn' (List.mem_cons_of_mem _ (List.mem_map_of_mem hin))
    obtain ⟨zs, m, hchain, hzs, -, hm⟩ := h.stale a ha hgone
    cases zs with
    | nil =>
      obtain ⟨hnext, -⟩ := List.isChain_cons_cons.mp hchain
      exact ⟨m, hsub m hm, hnext⟩
    | cons z zs =>
      obtain ⟨hnext, -⟩ := List.isChain_cons_cons.mp hchain
      refine ⟨.task z, List.mem_cons_of_mem _ (List.mem_map_of_mem ?_), hnext⟩
      exact (hzs z (by simp)).1

/-- What is found by a search that starts behind a task of a closed list. -/
theorem NextClosed.found (h : NextClosed s l) (hsentinel : s.head.runnable = false) (ha : a ∈ l)
    {fuel : ℕ} {m : TaskNode}
    (hfound : (searchFrom s fuel ((s.nodes (.task a)).next.getD .head)).1 = some m) :
    ∃ next ∈ l, m = .task next ∧ (s.tasks next).runnable = true := by
  have hmem : TaskNode.task a ∈ TaskNode.head :: l.map TaskNode.task :=
    List.mem_cons_of_mem _ (List.mem_map_of_mem ha)
  obtain ⟨hm, hruns⟩ := (searchFrom_closed h fuel (h.getD_mem hmem)).2 m hfound
  cases m with
  | head => exact absurd (hsentinel.symm.trans hruns) (by decide)
  | task next =>
    refine ⟨next, ?_, rfl, hruns⟩
    simpa using hm

/-- What a `task_schedule` that returns has done to the list. -/
structure TickKeeps (s : Sched) (l : List ℕ) (es : List Event) (s' : Sched) (l' : List ℕ) :
    Prop where
  sub : l'.Sublist l
  gone : ∀ a ∈ l, a ∉ l' → (s.tasks a).state = .killed ∧ (s.tasks a).id ≠ 0
  current : s'.current ∈ l'
  id : ∀ a, (s'.tasks a).id = (s.tasks a).id
  enabled : s'.schedEnabled = s.schedEnabled
  list : ListInv s' l' ∧ Event.lock .task ∈ es ∨
    l' = l ∧ s'.nodes = s.nodes ∧ s'.created = s.created ∧ s'.head = s.head

/-- It returns, so there was a task to switch to. -/
theorem runnable_of_returns (h : ListInv s l) (hcur : s.current ∈ l)
    (hen : s.schedEnabled = true) (hret : (taskSchedule s esp).1 = some s') :
    ∃ a ∈ l, (s.tasks a).runnable = true := by
  obtain ⟨l', hp⟩ := taskPurgeKilledTasks_purges h.ticked
  obtain ⟨m, hsel, -⟩ := (taskSchedule_eq_some_iff hen).mp hret
  have hcurrent : (taskPurgeKilledTasks (ticked s)).1.current = s.current := by
    rw [hp.frame]
    rfl
  have hstate : ∀ a, ((taskPurgeKilledTasks (ticked s)).1.tasks a).runnable =
      (s.tasks a).runnable := by
    intro a
    apply runnable_of_state
    rw [hp.tasks_eq, ticked_state]
  rw [(taskSelect_eq s).2] at hsel
  obtain ⟨next, hnext, -, hrun⟩ := hp.nextClosed.found hp.inv.sentinel (hcurrent ▸ hcur) hsel
  exact ⟨next, hnext, (hstate next).symm.trans hrun⟩

/-- Without the lock nothing is purged. -/
theorem purge_unlocked (hen : s.schedEnabled = true)
    (hlock : Event.lock .task ∉ (taskSchedule s esp).2) :
    (taskPurgeKilledTasks (ticked s)).1 = ticked s := by
  refine purgeFrom_unlocked _ _ _ _ fun hin => hlock ?_
  apply lock_mem_taskSchedule.mpr
  refine ⟨hen, ?_⟩
  unfold taskSelect
  refine List.mem_append_left _ (List.mem_cons_of_mem _ ?_)
  show Event.lock .task ∈ (taskPurgeKilledTasks (ticked s)).2
  exact List.mem_append_right _ hin

/-- **`task_schedule`** purges under `task_lock`, or leaves the list alone. -/
theorem taskSchedule_cases (hclosed : NextClosed s l) (hsentinel : s.head.runnable = false)
    (hcur : s.current ∈ l) (hen : s.schedEnabled = true)
    (hlist : Event.lock .task ∈ (taskSchedule s esp).2 → ListInv s l)
    (hret : (taskSchedule s esp).1 = some s') :
    ∃ l', TickKeeps s l (taskSchedule s esp).2 s' l' := by
  by_cases hlock : Event.lock .task ∈ (taskSchedule s esp).2
  · have h := hlist hlock
    have hrun := runnable_of_returns h hcur hen hret
    obtain ⟨s₁, l', next, heq, -, hs⟩ := taskSchedule_spec h hen hcur hrun esp
    obtain rfl := Option.some.inj (heq.symm.trans hret)
    exact ⟨l', hs.sub, hs.gone, hs.current.symm ▸ hs.mem, hs.id, hs.schedEnabled,
      Or.inl ⟨hs.inv, hlock⟩⟩
  · obtain ⟨m, hsel, rfl⟩ := (taskSchedule_eq_some_iff hen).mp hret
    obtain ⟨hs₁, hfound⟩ := taskSelect_eq s
    rw [purge_unlocked hen hlock] at hs₁ hfound
    have hclosed' : NextClosed (ticked s) l := hclosed
    obtain ⟨next, hnext, hm, -⟩ := hclosed'.found hsentinel hcur (hfound.symm.trans hsel)
    obtain rfl := TaskNode.task.inj hm
    rw [hs₁]
    refine ⟨l, List.Sublist.refl l, fun a ha hna => absurd ha hna, ?_, ?_, ?_, Or.inr ⟨rfl, ?_⟩⟩
    · rw [switchTo_frame]
      exact hnext
    · intro a
      rw [switchTo_id, ticked_id]
    · rw [switchTo_frame]
      rfl
    · rw [switchTo_frame]
      exact ⟨rfl, rfl, rfl⟩

/-! ### The invariant -/

def PageSite.holdsTask : PageSite → Bool
  | .caller => false
  | .struct _ _ => true
  | .stack _ _ => true
  | .space _ _ _ => true
  | .freePgd _ => true
  | .freeStack _ => true

/-- The statement stands between a `lock(&task_lock)` and its `unlock`. -/
def Pc.holdsTask : Pc → Bool
  | .out => false
  | .exitLock => false
  | .exitMark => true
  | .exitUnlock => true
  | .killLock _ => false
  | .killFirst _ => true
  | .killFind _ _ => true
  | .killReturn _ _ => true
  | .killTest _ _ => false
  | .killTestState _ _ => false
  | .killRelock _ _ => false
  | .killMark _ _ => true
  | .killUnlock _ => true
  | .pages _ site => site.holdsTask
  | .createLock _ => false
  | .createStruct _ => true
  | .createStack _ _ => true
  | .createSpace _ _ => true
  | .createArch _ => true
  | .createLink _ _ => true
  | .createFree _ => true
  | .createUnlock => true

def PageSite.creates : PageSite → Option ℕ
  | .stack _ a => some a
  | .space _ a _ => some a
  | .caller => none
  | .struct _ _ => none
  | .freePgd _ => none
  | .freeStack _ => none

/-- The struct that a `task_create` under way is going to put on the list. -/
def Pc.creates : Pc → Option ℕ
  | .pages _ site => site.creates
  | .createStack _ a => some a
  | .createSpace _ a => some a
  | .createArch a => some a
  | .createLink a _ => some a
  | _ => none

/-- The `clist_add` under way, if the statement is one of its stores. -/
def Pc.links : Pc → Option (ℕ × LinkStep)
  | .createLink a st => some (a, st)
  | _ => none

/-- The `clist_add` that the holder of `task_lock` is executing. -/
def Cpu.linking (x : Cpu) : Option (ℕ × LinkStep) :=
  (x.holder .task).bind fun b => (x.pc b).links

/-- The nodes before a given store of a `clist_add` that started with the nodes `h`. -/
def linkedBy (h : NodeHeap TaskNode) : Option (ℕ × LinkStep) → NodeHeap TaskNode
  | none => h
  | some (_, .firstPrev) => h
  | some (a, .newNext) => linkStore h a .firstPrev
  | some (a, .newPrev) => linkStore (linkStore h a .firstPrev) a .newNext
  | some (a, .headNext) => linkStore (linkStore (linkStore h a .firstPrev) a .newNext) a .newPrev

/-- The invariant of every run, the tasks on the list being `l`. -/
structure Base (x : Cpu) (l : List ℕ) : Prop where
  list : ∃ h₀, ListInv { x.sched with nodes := h₀ } l ∧ x.sched.nodes = linkedBy h₀ x.linking
  current : x.sched.current ∈ l
  enabled : x.sched.schedEnabled = true
  holds : ∀ b ∈ l, (x.pc b).holdsTask = true → x.holder .task = some b
  held : ∀ b, x.holder .task = some b → b ∈ l ∧ (x.pc b).holdsTask = true
  creating : ∀ b ∈ l, ∀ a, (x.pc b).creates = some a → a ∉ l ∧ x.pc a = .out
  /-- The cursor of a lookup is on the list. -/
  finding : ∀ b ∈ l, ∀ id n, x.pc b = .killFind id n →
    ∃ m ∈ TaskNode.head :: l.map TaskNode.task, n = some m

theorem Pc.holdsTask_of_creates (h : p.creates = some a) : p.holdsTask = true := by
  cases p with
  | pages st site => cases site <;> first | rfl | cases h
  | _ => first | rfl | cases h

theorem Cpu.linking_none (h : x.holder .task = none) : x.linking = none := by
  rw [Cpu.linking, h]
  rfl

theorem Cpu.linking_holder (h : x.holder .task = some b) : x.linking = (x.pc b).links := by
  rw [Cpu.linking, h]
  rfl

/-- The scheduler's data that the list depends on. -/
structure SameList (s s' : Sched) : Prop where
  nodes : s'.nodes = s.nodes
  created : s'.created = s.created
  head : s'.head = s.head
  current : s'.current = s.current
  enabled : s'.schedEnabled = s.schedEnabled

theorem SameList.refl (s : Sched) : SameList s s := ⟨rfl, rfl, rfl, rfl, rfl⟩

theorem SameList.setTask (s : Sched) (a : ℕ) (t : Task) : SameList s (s.setTask a t) :=
  ⟨rfl, rfl, rfl, rfl, rfl⟩

theorem SameList.listInv (h : SameList s s') {h₀ : NodeHeap TaskNode}
    (hl : ListInv { s with nodes := h₀ } l) : ListInv { s' with nodes := h₀ } l :=
  ⟨hl.ring, h.created ▸ hl.length_le, h.head ▸ hl.sentinel⟩

/-- Without a `clist_add` under way the list is a ring. -/
theorem Base.listInv (h : Base x l) (hlink : x.linking = none) : ListInv x.sched l := by
  obtain ⟨h₀, hl, hnodes⟩ := h.list
  rw [hlink] at hnodes
  have heq : { x.sched with nodes := h₀ } = x.sched := by
    rw [show h₀ = x.sched.nodes from hnodes.symm]
  rwa [heq] at hl

/-- With the current task in a critical section, the other tasks are outside. -/
theorem Base.others_outside (h : Base x l) (hholds : (x.pc x.sched.current).holdsTask = true)
    (hb : b ∈ l) (hbc : b ≠ x.sched.current) : (x.pc b).holdsTask = false := by
  have hmine := h.holds _ h.current hholds
  by_contra hbh
  have hb' := h.holds b hb (by simpa using hbh)
  exact hbc (Option.some.inj (hb'.symm.trans hmine))

/-- With the lock in nobody's hands, all tasks are. -/
theorem Base.nobody_inside (h : Base x l) (hfree : x.holder .task = none) (hb : b ∈ l) :
    (x.pc b).holdsTask = false := by
  by_contra hbh
  have hheld := h.holds b hb (by simpa using hbh)
  rw [hfree] at hheld
  cases hheld

/-- The invariant with all tasks outside the critical sections: only the list matters. -/
theorem Base.outside (hlist : ListInv y.sched l) (hcur : y.sched.current ∈ l)
    (hen : y.sched.schedEnabled = true) (hfree : y.holder .task = none)
    (hnobody : ∀ b ∈ l, (y.pc b).holdsTask = false) : Base y l := by
  refine ⟨⟨y.sched.nodes, hlist, ?_⟩, hcur, hen, ?_, ?_, ?_, ?_⟩
  · rw [Cpu.linking_none hfree]
    rfl
  · intro b hb hbh
    rw [hnobody b hb] at hbh
    cases hbh
  · intro b hb
    rw [hfree] at hb
    cases hb
  · intro b hb a ha
    have hbh := Pc.holdsTask_of_creates ha
    rw [hnobody b hb] at hbh
    cases hbh
  · intro b hb id n hbn
    have hbh := hnobody b hb
    rw [hbn] at hbh
    cases hbh

/-- The invariant with the current task in a critical section: only its own position matters. -/
theorem Base.inside
    (hlist : ∃ h₀, ListInv { y.sched with nodes := h₀ } l ∧ y.sched.nodes = linkedBy h₀ y.linking)
    (hcur : y.sched.current ∈ l) (hen : y.sched.schedEnabled = true)
    (hholder : y.holder .task = some y.sched.current)
    (hholds : (y.pc y.sched.current).holdsTask = true)
    (hothers : ∀ b ∈ l, b ≠ y.sched.current → (y.pc b).holdsTask = false)
    (hcreates : ∀ a, (y.pc y.sched.current).creates = some a → a ∉ l ∧ y.pc a = .out)
    (hfind : ∀ id n, y.pc y.sched.current = .killFind id n →
      ∃ m ∈ TaskNode.head :: l.map TaskNode.task, n = some m) : Base y l := by
  refine ⟨hlist, hcur, hen, ?_, ?_, ?_, ?_⟩
  · intro b hb hbh
    by_cases hbc : b = y.sched.current
    · rw [hbc]
      exact hholder
    · rw [hothers b hb hbc] at hbh
      cases hbh
  · intro b hb
    obtain rfl : y.sched.current = b := Option.some.inj (hholder.symm.trans hb)
    exact ⟨hcur, hholds⟩
  · intro b hb a ha
    by_cases hbc : b = y.sched.current
    · rw [hbc] at ha
      exact hcreates a ha
    · -- whoever is creating a task is in a critical section
      have hbh := Pc.holdsTask_of_creates ha
      rw [hothers b hb hbc] at hbh
      cases hbh
  · intro b hb id n hbn
    by_cases hbc : b = y.sched.current
    · rw [hbc] at hbn
      exact hfind id n hbn
    · have hbh := hothers b hb hbc
      rw [hbn] at hbh
      cases hbh

/-! ### Statements -/

/-- **A statement that neither touches the list nor `task_lock`.** -/
theorem Base.move (h : Base x l) (hs : SameList x.sched y.sched)
    (hholder : y.holder .task = x.holder .task)
    (hpc : y.pc = Function.update x.pc x.sched.current p)
    (hholds : p.holdsTask = (x.pc x.sched.current).holdsTask)
    (hlinks : ∀ h₀, linkedBy h₀ p.links = linkedBy h₀ (x.pc x.sched.current).links)
    (hcreates : ∀ a, p.creates = some a → (x.pc x.sched.current).creates = some a)
    (hfind : ∀ id n, p = .killFind id n →
      ∃ m ∈ TaskNode.head :: l.map TaskNode.task, n = some m) : Base y l := by
  have hother : ∀ b, b ≠ x.sched.current → y.pc b = x.pc b := by
    intro b hb
    rw [hpc, Function.update_of_ne hb]
  have hself : y.pc x.sched.current = p := by
    rw [hpc, Function.update_self]
  -- whoever holds `task_lock` is as far with `clist_add` as before
  have hlinking : ∀ h₀, linkedBy h₀ y.linking = linkedBy h₀ x.linking := by
    intro h₀
    cases hh : x.holder .task with
    | none => rw [Cpu.linking_none hh, Cpu.linking_none (hholder.trans hh)]
    | some b =>
      rw [Cpu.linking_holder hh, Cpu.linking_holder (hholder.trans hh)]
      by_cases hb : b = x.sched.current
      · subst hb
        rw [hself, hlinks]
      · rw [hother b hb]
  obtain ⟨h₀, hl, hnodes⟩ := h.list
  have hholdsb : ∀ b, (y.pc b).holdsTask = (x.pc b).holdsTask := by
    intro b
    by_cases hb : b = x.sched.current
    · subst hb
      rw [hself, hholds]
    · rw [hother b hb]
  refine ⟨⟨h₀, hs.listInv hl, ?_⟩, ?_, ?_, ?_, ?_, ?_, ?_⟩
  · rw [hs.nodes, hnodes, hlinking]
  · rw [hs.current]
    exact h.current
  · rw [hs.enabled]
    exact h.enabled
  · intro b hb hbh
    rw [hholder]
    exact h.holds b hb ((hholdsb b).symm.trans hbh)
  · intro b hb
    rw [hholder] at hb
    rw [hholdsb]
    exact h.held b hb
  · intro b hb a ha
    have hxa : (x.pc b).creates = some a := by
      by_cases hbc : b = x.sched.current
      · subst hbc
        rw [hself] at ha
        exact hcreates a ha
      · rwa [hother b hbc] at ha
    obtain ⟨hal, hout⟩ := h.creating b hb a hxa
    refine ⟨hal, ?_⟩
    -- the struct being made is not on the list, so that it is not the current task
    rw [hother a fun heq => hal (heq ▸ h.current)]
    exact hout
  · intro b hb id n hbn
    by_cases hbc : b = x.sched.current
    · subst hbc
      rw [hself] at hbn
      exact hfind id n hbn
    · rw [hother b hbc] at hbn
      exact h.finding b hb id n hbn

/-- **`lock(&task_lock)`.** -/
theorem Base.lock (h : Base x l) (hfree : x.holder .task = none) (hs : y.sched = x.sched)
    (hholder : y.holder .task = some x.sched.current)
    (hpc : y.pc = Function.update x.pc x.sched.current p) (hholds : p.holdsTask = true)
    (hlinks : p.links = none) (hcreates : p.creates = none)
    (hfind : ∀ id n, p ≠ .killFind id n) : Base y l := by
  have hother : ∀ b, b ≠ x.sched.current → y.pc b = x.pc b := by
    intro b hb
    rw [hpc, Function.update_of_ne hb]
  have hself : y.pc x.sched.current = p := by
    rw [hpc, Function.update_self]
  obtain ⟨h₀, hl, hnodes⟩ := h.list
  rw [Cpu.linking_none hfree] at hnodes
  have hcur : y.sched.current = x.sched.current := by rw [hs]
  rw [← hcur] at hself hother hholder
  refine .inside ⟨h₀, hs.symm ▸ hl, ?_⟩ (hs.symm ▸ h.current) (hs.symm ▸ h.enabled) hholder ?_ ?_ ?_ ?_
  · rw [Cpu.linking_holder hholder, hself, hlinks, hs]
    exact hnodes
  · rw [hself]
    exact hholds
  · intro b hb hbc
    rw [hother b hbc]
    exact h.nobody_inside hfree hb
  · intro a ha
    rw [hself, hcreates] at ha
    cases ha
  · intro id n hn
    rw [hself] at hn
    exact absurd hn (hfind id n)

/-- **`unlock(&task_lock)`.** -/
theorem Base.unlock (h : Base x l) (hholdsx : (x.pc x.sched.current).holdsTask = true)
    (hlinks' : (x.pc x.sched.current).links = none) (hs : y.sched = x.sched)
    (hholder : y.holder .task = none) (hpc : y.pc = Function.update x.pc x.sched.current p)
    (hholds : p.holdsTask = false) : Base y l := by
  have hother : ∀ b, b ≠ x.sched.current → y.pc b = x.pc b := by
    intro b hb
    rw [hpc, Function.update_of_ne hb]
  have hself : y.pc x.sched.current = p := by
    rw [hpc, Function.update_self]
  have hcur := h.holds _ h.current hholdsx
  have hnobody : ∀ b ∈ l, (y.pc b).holdsTask = false := by
    intro b hb
    by_cases hbc : b = x.sched.current
    · rw [hbc, hself, hholds]
    · rw [hother b hbc]
      exact h.others_outside hholdsx hb hbc
  have hlist := h.listInv ((Cpu.linking_holder hcur).trans hlinks')
  exact .outside (hs.symm ▸ hlist) (hs.symm ▸ h.current) (hs.symm ▸ h.enabled) hholder hnobody

/-- A store of `clist_add` before the last one leaves the `next` words of the list alone. -/
theorem linkStore_next (h : NodeHeap TaskNode) {st : LinkStep} (hst : st ≠ .headNext) {n : TaskNode}
    (hn : n ≠ .task a) : (linkStore h a st n).next = (h n).next := by
  cases st with
  | firstPrev =>
    unfold linkStore
    cases (h .head).next with
    | none => rfl
    | some m => simp
  | newNext => simp [linkStore, hn]
  | newPrev => simp [linkStore]
  | headNext => exact absurd rfl hst

theorem linkedBy_next (h : NodeHeap TaskNode) (st : LinkStep) {n : TaskNode} (hn : n ≠ .task a) :
    (linkedBy h (some (a, st)) n).next = (h n).next := by
  cases st with
  | firstPrev => rfl
  | newNext => exact linkStore_next h (by decide) hn
  | newPrev => exact (linkStore_next _ (by decide) hn).trans (linkStore_next h (by decide) hn)
  | headNext =>
    apply (linkStore_next _ (by decide) hn).trans
    exact (linkStore_next _ (by decide) hn).trans (linkStore_next h (by decide) hn)

/-- The `next` words of the list are those of a ring, in every state. -/
theorem Base.next (h : Base x l) : ∃ h₀, ListInv { x.sched with nodes := h₀ } l ∧
    ∀ n ∈ TaskNode.head :: l.map TaskNode.task, (x.sched.nodes n).next = (h₀ n).next := by
  obtain ⟨h₀, hl, hnodes⟩ := h.list
  refine ⟨h₀, hl, fun n hn => ?_⟩
  rw [hnodes]
  cases hlink : x.linking with
  | none => rfl
  | some link =>
    obtain ⟨a, st⟩ := link
    -- the task being linked is not on the list
    obtain ⟨b, hb, hlinks⟩ := Option.bind_eq_some_iff.mp hlink
    obtain ⟨hbl, -⟩ := h.held b hb
    have hpc : x.pc b = .createLink a st := by
      generalize x.pc b = q at hlinks
      cases q <;> first | (cases hlinks; rfl) | cases hlinks
    have hal := (h.creating b hbl a (by rw [hpc]; rfl)).1
    apply linkedBy_next h₀ st
    rintro rfl
    simp [hal] at hn

theorem Base.nextClosed (h : Base x l) : NextClosed x.sched l := by
  obtain ⟨h₀, hl, hnext⟩ := h.next
  intro n hn
  obtain ⟨m, hm, hnm⟩ := hl.ring.next_mem hn
  exact ⟨m, hm, (hnext n hn).trans hnm⟩

theorem Base.sentinel (h : Base x l) : x.sched.head.runnable = false := by
  obtain ⟨h₀, hl, -⟩ := h.list
  exact hl.sentinel

theorem Base.taskList_eq (h : Base x l) : taskList x.sched = l := by
  obtain ⟨h₀, hl, hnext⟩ := h.next
  have hlist : taskList { x.sched with nodes := h₀ } = l := hl.taskList_eq
  obtain ⟨m, hm, hhead⟩ := hl.ring.next_mem List.mem_cons_self
  refine Eq.trans ?_ hlist
  unfold taskList
  dsimp only at hhead ⊢
  rw [hnext .head List.mem_cons_self, hhead, hl.ring.walk_congr hnext _ hm]

/-- The task that a `task_kill` has looked up and is going to mark, with the id it was asked for. -/
def Pc.target : Pc → Option (ℕ × ℕ)
  | .killReturn id (some a) => some (id, a)
  | .killTest id a => some (id, a)
  | .killTestState id a => some (id, a)
  | .killRelock id a => some (id, a)
  | .killMark id a => some (id, a)
  | _ => none

/-- What one statement of the current task does. -/
structure Moves (x : Cpu) (l : List ℕ) (y : Cpu) (l' : List ℕ) : Prop where
  base : Base y l'
  sub : ∀ a ∈ l, a ∈ l'
  new : ∀ b ∈ l', b ∉ l → y.pc b = .out
  id : ∀ a ∈ l, (y.sched.tasks a).id = (x.sched.tasks a).id
  other : ∀ b ∈ l, b ≠ x.sched.current → y.pc b = x.pc b
  /-- It has just looked a task up, or goes on with the task it had looked up before. -/
  target : ∀ i t, (y.pc x.sched.current).target = some (i, t) →
    (x.pc x.sched.current).target = some (i, t) ∨ t ∈ l ∧ (x.sched.tasks t).id = i
  created : ∀ b ∈ l', b ∉ l → (x.pc x.sched.current).creates = some b

/-- A statement that leaves the list as it is. -/
theorem Moves.same (hbase : Base y l) (hid : ∀ a ∈ l, (y.sched.tasks a).id = (x.sched.tasks a).id)
    (hpc : y.pc = Function.update x.pc x.sched.current p)
    (htarget : ∀ i t, p.target = some (i, t) →
      (x.pc x.sched.current).target = some (i, t) ∨ t ∈ l ∧ (x.sched.tasks t).id = i) :
    Moves x l y l := by
  refine ⟨hbase, fun a ha => ha, fun b hb hnb => absurd hb hnb, hid, fun b _ hbc => ?_, ?_,
    fun b hb hnb => absurd hb hnb⟩
  · rw [hpc, Function.update_of_ne hbc]
  · rw [hpc, Function.update_self]
    exact htarget

variable {q : Pc} (h : Base x l) (hq : x.pc x.sched.current = q)
include h hq

/-- A statement that goes on in the same critical section, or outside any. -/
theorem Base.goto (hs : SameList x.sched s') (hid : ∀ a ∈ l, (s'.tasks a).id = (x.sched.tasks a).id)
    (hholds : p.holdsTask = q.holdsTask) (hlinks : ∀ h₀, linkedBy h₀ p.links = linkedBy h₀ q.links)
    (hcreates : p.creates = none ∨ p.creates = q.creates)
    (hfind : ∀ id n, p = .killFind id n →
      ∃ m ∈ TaskNode.head :: l.map TaskNode.task, n = some m)
    (htarget : ∀ i t, p.target = some (i, t) →
      q.target = some (i, t) ∨ t ∈ l ∧ (x.sched.tasks t).id = i) :
    Moves x l ({ x with sched := s' }.goto p) l := by
  have hpc : ({ x with sched := s' }.goto p).pc = Function.update x.pc x.sched.current p := by
    show Function.update x.pc s'.current p = _
    rw [hs.current]
  refine Moves.same (h.move hs rfl hpc (hq ▸ hholds) (hq ▸ hlinks) ?_ hfind) hid hpc
    (hq ▸ htarget)
  intro a ha
  rw [hq]
  rcases hcreates with hnone | hsame
  · rw [hnone] at ha
    cases ha
  · rw [← hsame]
    exact ha

/-- `lock(&task_lock)` of the current task. -/
theorem Base.takeTask (htake : x.take .task p = some y) (hholds : p.holdsTask = true)
    (hlinks : p.links = none) (hcreates : p.creates = none) (hfind : ∀ id n, p ≠ .killFind id n)
    (htarget : ∀ i t, p.target = some (i, t) → q.target = some (i, t)) : Moves x l y l := by
  obtain ⟨hfree, rfl⟩ := Cpu.take_eq_some htake
  refine Moves.same (h.lock hfree rfl (by simp [Cpu.goto]) rfl hholds hlinks hcreates hfind)
    (fun a _ => rfl) rfl fun i t ht => Or.inl ?_
  rw [hq]
  exact htarget i t ht

/-- `unlock(&task_lock)` of the current task. -/
theorem Base.giveTask (hholds' : q.holdsTask = true) (hlinks' : q.links = none)
    (hholds : p.holdsTask = false)
    (htarget : ∀ i t, p.target = some (i, t) → q.target = some (i, t)) :
    Moves x l (x.give .task p) l := by
  have hbase : Base (x.give .task p) l := by
    refine h.unlock ?_ ?_ rfl (by simp [Cpu.give, Cpu.goto]) rfl hholds
    · rw [hq]
      exact hholds'
    · rw [hq]
      exact hlinks'
  refine Moves.same hbase (fun a _ => rfl) rfl fun i t ht => Or.inl ?_
  rw [hq]
  exact htarget i t ht

/-- A statement of the page allocator, which moves the other lock only. -/
theorem Base.buddy {k : Option ℕ} (hholds : p.holdsTask = q.holdsTask)
    (hlinks : ∀ h₀, linkedBy h₀ p.links = linkedBy h₀ q.links)
    (hcreates : p.creates = none ∨ p.creates = q.creates)
    (hfind : ∀ id n, p ≠ .killFind id n) (htarget : p.target = none) :
    Moves x l ({ x with holder := Function.update x.holder .buddy k }.goto p) l := by
  refine Moves.same (h.move (SameList.refl _) (by simp [Cpu.goto]) rfl (hq ▸ hholds) (hq ▸ hlinks)
    ?_ fun id n hp => absurd hp (hfind id n)) (fun a _ => rfl) rfl fun i t ht => ?_
  · intro a ha
    rw [hq]
    rcases hcreates with hnone | hsame
    · rw [hnone] at ha
      cases ha
    · rw [← hsame]
      exact ha
  · rw [htarget] at ht
    cases ht

/-- `task_alloc_struct`: the new struct is not on the list, and no task stands in it. -/
theorem Base.allocStruct {c : CreateCall} (hc : q = .createStruct c) (ha : a ∉ l)
    (hs : y.sched = taskAllocStruct x.sched c.args a) (hholder : y.holder = x.holder)
    (hpc : y.pc = Function.update (Function.update x.pc a .out) x.sched.current
      (.pages .lock (.stack c a))) : Moves x l y l := by
  subst hc
  have hholds : (x.pc x.sched.current).holdsTask = true := by
    rw [hq]
    rfl
  have hmine := h.holds _ h.current hholds
  have hother : ∀ b ∈ l, b ≠ x.sched.current → y.pc b = x.pc b := by
    intro b hb hbc
    rw [hpc, Function.update_of_ne hbc, Function.update_of_ne (ne_of_mem_of_not_mem hb ha)]
  -- the holder is not linking, and `clist_init` writes the node of the new struct only
  have hlist : ListInv y.sched l := by
    have hx := h.listInv (by rw [Cpu.linking_holder hmine, hq]; rfl)
    rw [hs]
    exact hx.outside ha (fun n hn => clistInit_other x.sched.nodes hn) rfl rfl
  have hcur : y.sched.current = x.sched.current := by
    rw [hs]
    rfl
  have hself : y.pc y.sched.current = .pages .lock (.stack c a) := by
    rw [hcur, hpc, Function.update_self]
  have hholder' : y.holder .task = some y.sched.current := by
    rw [hholder, hcur]
    exact hmine
  have hbase : Base y l := by
    refine .inside ⟨y.sched.nodes, hlist, ?_⟩ (hcur ▸ h.current) ?_ hholder' ?_ ?_ ?_ ?_
    · rw [Cpu.linking_holder hholder', hself]
      rfl
    · rw [hs]
      exact h.enabled
    · rw [hself]
      rfl
    · intro b hb hbc
      rw [hcur] at hbc
      rw [hother b hb hbc]
      -- the current task is inside, so that no other task is
      exact h.others_outside hholds hb hbc
    · intro a' ha'
      rw [hself] at ha'
      obtain rfl : a = a' := Option.some.inj ha'
      refine ⟨ha, ?_⟩
      have hac : a ≠ x.sched.current := fun heq => ha (heq ▸ h.current)
      rw [hpc, Function.update_of_ne hac, Function.update_self]
    · intro id n hn
      rw [hself] at hn
      cases hn
  refine ⟨hbase, fun b hb => hb, fun b hb hnb => absurd hb hnb, ?_, hother, ?_,
    fun b hb hnb => absurd hb hnb⟩
  · intro b hb
    rw [hs]
    exact congrArg Task.id (Function.update_of_ne (ne_of_mem_of_not_mem hb ha) _ _)
  · intro i t ht
    rw [← hcur, hself] at ht
    cases ht

omit h hq in
/-- The list behind a store of `clist_add`. -/
theorem linkStore_list {h₀ : NodeHeap TaskNode} {st : LinkStep} (ha : a ∉ l)
    (hl : ListInv { s with nodes := h₀ } l) (hnodes : s.nodes = linkedBy h₀ (some (a, st)))
    (hs : s' = { s with
      nodes := linkStore s.nodes a st
      created := if st = .headNext then s.created + 1 else s.created }) :
    ∃ h₁, ListInv { s' with nodes := h₁ } (if st = .headNext then a :: l else l) ∧
      s'.nodes = linkedBy h₁ (st.next a).links := by
  rw [hs, hnodes]
  cases st with
  | firstPrev => exact ⟨h₀, hl, rfl⟩
  | newNext => exact ⟨h₀, hl, rfl⟩
  | newPrev => exact ⟨h₀, hl, rfl⟩
  | headNext =>
    refine ⟨clistAdd h₀ .head (.task a), ⟨?_, ?_, hl.sentinel⟩, linkStore_all h₀ a⟩
    · exact clistAdd_ring hl.ring (by simp [ha])
    · exact Nat.succ_le_succ hl.length_le

/-- A store of `clist_add`; the last one puts the task on the list. -/
theorem Base.link {st : LinkStep} (hc : q = .createLink a st)
    (hs : y.sched = { x.sched with
      nodes := linkStore x.sched.nodes a st
      created := if st = .headNext then x.sched.created + 1 else x.sched.created })
    (hholder : y.holder = x.holder)
    (hpc : y.pc = Function.update x.pc x.sched.current (st.next a)) :
    Moves x l y (if st = .headNext then a :: l else l) := by
  subst hc
  have hholds : (x.pc x.sched.current).holdsTask = true := by
    rw [hq]
    rfl
  have hmine := h.holds _ h.current hholds
  obtain ⟨hal, hout⟩ := h.creating _ h.current a (by rw [hq]; rfl)
  have hac : a ≠ x.sched.current := fun heq => hal (heq ▸ h.current)
  have hother : ∀ b, b ≠ x.sched.current → y.pc b = x.pc b := by
    intro b hbc
    rw [hpc, Function.update_of_ne hbc]
  have hnewout : y.pc a = .out := (hother a hac).trans hout
  have hcur : y.sched.current = x.sched.current := by rw [hs]
  have hself : y.pc y.sched.current = st.next a := by
    rw [hcur, hpc, Function.update_self]
  have hholder' : y.holder .task = some y.sched.current := by
    rw [hholder, hcur]
    exact hmine
  have hmem : ∀ b ∈ (if st = .headNext then a :: l else l), b = a ∨ b ∈ l := by
    intro b hb
    split at hb
    · exact List.mem_cons.mp hb
    · exact Or.inr hb
  have hsub : ∀ b ∈ l, b ∈ (if st = .headNext then a :: l else l) := by
    intro b hb
    split
    · exact List.mem_cons_of_mem a hb
    · exact hb
  obtain ⟨h₀, hl, hnodes⟩ := h.list
  rw [Cpu.linking_holder hmine, hq] at hnodes
  -- up to the last store the list is the old one, and from it on the new one
  have hlist := linkStore_list hal hl hnodes hs
  rw [← hself, ← Cpu.linking_holder hholder'] at hlist
  have hbase : Base y (if st = .headNext then a :: l else l) := by
    refine .inside hlist (hcur ▸ hsub _ h.current) ?_ hholder' ?_ ?_ ?_ ?_
    · rw [hs]
      exact h.enabled
    · rw [hself]
      cases st <;> rfl
    · intro b hb hbc
      -- the new task has not started, and the others are outside as before
      rcases hmem b hb with rfl | hb
      · rw [hnewout]
        rfl
      · rw [hcur] at hbc
        rw [hother b hbc]
        exact h.others_outside hholds hb hbc
    · intro a' ha'
      rw [hself] at ha'
      cases st with
      -- the last store leaves nothing to create
      | headNext => cases ha'
      | firstPrev =>
        obtain rfl : a = a' := Option.some.inj ha'
        exact ⟨hal, hnewout⟩
      | newNext =>
        obtain rfl : a = a' := Option.some.inj ha'
        exact ⟨hal, hnewout⟩
      | newPrev =>
        obtain rfl : a = a' := Option.some.inj ha'
        exact ⟨hal, hnewout⟩
    · intro id n hn
      rw [hself] at hn
      cases st <;> cases hn
  refine ⟨hbase, hsub, ?_, ?_, fun b _ hbc => hother b hbc, ?_, ?_⟩
  · intro b hb hnb
    rcases hmem b hb with rfl | hb
    · exact hnewout
    · exact absurd hb hnb
  · intro b _
    rw [hs]
  · intro i t ht
    rw [← hcur, hself] at ht
    cases st <;> cases ht
  · intro b hb hnb
    rcases hmem b hb with rfl | hb
    · rw [hq]
      rfl
    · exact absurd hb hnb

/-- A statement that changes nothing but where the task stands. -/
theorem Base.stay (hholds : p.holdsTask = q.holdsTask)
    (hlinks : ∀ h₀, linkedBy h₀ p.links = linkedBy h₀ q.links)
    (hcreates : p.creates = none ∨ p.creates = q.creates)
    (hfind : ∀ id n, p = .killFind id n →
      ∃ m ∈ TaskNode.head :: l.map TaskNode.task, n = some m)
    (htarget : ∀ i t, p.target = some (i, t) →
      q.target = some (i, t) ∨ t ∈ l ∧ (x.sched.tasks t).id = i) : Moves x l (x.goto p) l :=
  h.goto hq (SameList.refl _) (fun _ _ => rfl) hholds hlinks hcreates hfind htarget

omit h hq

/-- A statement that neither links a task nor looks one up. -/
structure Plain (p : Pc) (holds : Bool) (creates : Option ℕ) : Prop where
  holds : p.holdsTask = holds
  links : p.links = none
  creates : p.creates = creates
  find : ∀ id n, p ≠ .killFind id n
  target : p.target = none

theorem enterStruct_plain (c : CreateCall) (left : ℕ) : Plain (enterStruct c left) true none := by
  cases left with
  | zero => exact ⟨rfl, rfl, rfl, by simp [enterStruct], rfl⟩
  | succ left => exact ⟨rfl, rfl, rfl, by simp [enterStruct], rfl⟩

theorem enterSpace_plain (c : CreateCall) (a left : ℕ) :
    Plain (enterSpace c a left) true (some a) := by
  cases left with
  | zero => exact ⟨rfl, rfl, rfl, by simp [enterSpace], rfl⟩
  | succ left => exact ⟨rfl, rfl, rfl, by simp [enterSpace], rfl⟩

theorem enterFreeStack_plain (s : Sched) (a : ℕ) : Plain (enterFreeStack s a) true none := by
  unfold enterFreeStack
  split
  · exact ⟨rfl, rfl, rfl, by simp, rfl⟩
  · exact ⟨rfl, rfl, rfl, by simp, rfl⟩

theorem enterCleanup_plain (s : Sched) (a : ℕ) : Plain (enterCleanup s a) true none := by
  unfold enterCleanup
  split
  · exact enterFreeStack_plain s a
  · exact ⟨rfl, rfl, rfl, by simp, rfl⟩

/-- A call of the page allocator returns into the critical section it was made from. -/
theorem resume_plain (s : Sched) (site : PageSite) :
    Plain (site.resume s) site.holdsTask site.creates := by
  cases site with
  | caller => exact ⟨rfl, rfl, rfl, by simp [PageSite.resume], rfl⟩
  | struct c left => exact enterStruct_plain c left
  | stack c a => exact ⟨rfl, rfl, rfl, by simp [PageSite.resume], rfl⟩
  | space c a left => exact enterSpace_plain c a left
  | freePgd a => exact enterFreeStack_plain s a
  | freeStack a => exact ⟨rfl, rfl, rfl, by simp [PageSite.resume], rfl⟩

theorem setTask_id {t : Task} (hs : s'.tasks = Function.update s.tasks a t)
    (ht : t.id = (s.tasks a).id) (b : ℕ) : (s'.tasks b).id = (s.tasks b).id := by
  rw [hs]
  by_cases hb : b = a
  · subst hb
    rw [Function.update_self, ht]
  · rw [Function.update_of_ne hb]

section Plain

variable {o : Option ℕ} (h : Base x l) (hq : x.pc x.sched.current = q)
include h hq

/-- A statement of `task_create` under the lock, with what it writes to the new struct. -/
theorem Base.plain (hplain : Plain p q.holdsTask o) (hs : SameList x.sched s')
    (hid : ∀ a ∈ l, (s'.tasks a).id = (x.sched.tasks a).id) (hlinks' : q.links = none)
    (hcreates : o = none ∨ o = q.creates) : Moves x l ({ x with sched := s' }.goto p) l := by
  refine h.goto hq hs hid hplain.holds (fun h₀ => by rw [hplain.links, hlinks']) ?_
    (fun id n heq => absurd heq (hplain.find id n)) fun i t ht => ?_
  · rw [hplain.creates]
    exact hcreates
  · rw [hplain.target] at ht
    cases ht

/-- The lookup of `task_kill` comes to the next node, which is on the list. -/
theorem Base.killFind {node : Option TaskNode} (hc : q = .killFind id node)
    (hexec : x.exec = some y) : Moves x l y l := by
  subst hc
  obtain ⟨m, hm, rfl⟩ := h.finding _ h.current id node hq
  rw [Cpu.exec, hq] at hexec
  cases m with
  | head =>
    obtain rfl := Option.some.inj hexec
    exact h.stay hq rfl (fun _ => rfl) (Or.inl rfl) (by simp) (by simp [Pc.target])
  | task a =>
    have ha : a ∈ l := by simpa using hm
    dsimp only at hexec
    split at hexec
    · -- found: the task is on the list and has the id
      rename_i hid
      obtain rfl := Option.some.inj hexec
      refine h.stay hq rfl (fun _ => rfl) (Or.inl rfl) (by simp) ?_
      intro i t ht
      cases ht
      exact Or.inr ⟨ha, hid⟩
    · obtain rfl := Option.some.inj hexec
      refine h.stay hq rfl (fun _ => rfl) (Or.inl rfl) ?_ (by simp [Pc.target])
      intro id' n heq
      obtain ⟨m, hm', hnext⟩ := h.nextClosed (.task a) hm
      cases heq
      exact ⟨m, hm', hnext⟩

/-- The statements of `page_alloc` and `page_free`. -/
theorem Base.pages {st : PageStep} {site : PageSite} (hst : q = .pages st site)
    (hexec : x.exec = some y) : Moves x l y l := by
  subst hst
  rw [Cpu.exec, hq] at hexec
  cases st with
  | lock =>
    obtain ⟨-, rfl⟩ := Cpu.take_eq_some hexec
    exact h.buddy hq rfl (fun _ => rfl) (Or.inr rfl) (by simp) rfl
  | work =>
    obtain rfl := Option.some.inj hexec
    exact h.stay hq rfl (fun _ => rfl) (Or.inr rfl) (by simp) (by simp [Pc.target])
  | unlock =>
    have hplain := resume_plain x.sched site
    obtain rfl := Option.some.inj hexec
    exact h.buddy hq hplain.holds (fun h₀ => by rw [hplain.links]; rfl) (Or.inr hplain.creates)
      hplain.find hplain.target

/-- The statements of `task_create` behind `task_alloc_struct`. -/
theorem Base.createRest {c : CreateCall} (hc : q = .createStack c a ∨ q = .createSpace c a)
    (hexec : x.exec = some y) : Moves x l y l := by
  have hclean : ∀ q', x.pc x.sched.current = q' → q'.holdsTask = true → q'.links = none →
      Moves x l (x.goto (enterCleanup x.sched a)) l := by
    rintro q' rfl hholds hlinks
    exact h.plain rfl (hholds ▸ enterCleanup_plain x.sched a) (SameList.refl _) (fun _ _ => rfl)
      hlinks (Or.inl rfl)
  rcases hc with rfl | rfl
  · rw [Cpu.exec, hq] at hexec
    dsimp only at hexec
    split at hexec
    · obtain rfl := Option.some.inj hexec
      exact hclean _ hq rfl rfl
    · obtain rfl := Option.some.inj hexec
      exact h.plain hq (enterSpace_plain c a _) (SameList.setTask _ _ _)
        (fun b _ => setTask_id rfl (by rfl) b) rfl (Or.inr rfl)
  · rw [Cpu.exec, hq] at hexec
    dsimp only at hexec
    split at hexec
    · obtain rfl := Option.some.inj hexec
      exact hclean _ hq rfl rfl
    · obtain rfl := Option.some.inj hexec
      exact h.plain hq (o := some a) ⟨rfl, rfl, rfl, by simp, rfl⟩ ⟨rfl, rfl, rfl, rfl, rfl⟩
        (fun b _ => setTask_id rfl (by rfl) b) rfl (Or.inr rfl)

end Plain

/-- **One statement** of the current task keeps the invariant. -/
theorem Base.exec (h : Base x l) (hok : Promised x .exec) (hexec : x.exec = some y) :
    ∃ l', Moves x l y l' := by
  cases hq : x.pc x.sched.current with
  | out =>
    rw [Cpu.exec, hq] at hexec
    cases hexec
  | exitLock =>
    rw [Cpu.exec, hq] at hexec
    exact ⟨l, h.takeTask hq hexec rfl rfl rfl (by simp) (by simp [Pc.target])⟩
  -- storing the state of a task leaves the list and the ids
  | exitMark =>
    rw [Cpu.exec, hq] at hexec
    obtain rfl := Option.some.inj hexec
    exact ⟨l, h.goto hq (SameList.setTask _ _ _) (fun b _ => setTask_id rfl (by rfl) b) rfl
      (fun _ => rfl) (Or.inl rfl) (by simp) (by simp [Pc.target])⟩
  | exitUnlock =>
    rw [Cpu.exec, hq] at hexec
    obtain rfl := Option.some.inj hexec
    exact ⟨l, h.giveTask hq rfl rfl rfl (by simp [Pc.target])⟩
  | killLock id =>
    rw [Cpu.exec, hq] at hexec
    exact ⟨l, h.takeTask hq hexec rfl rfl rfl (by simp) (by simp [Pc.target])⟩
  | killFirst id =>
    rw [Cpu.exec, hq] at hexec
    obtain rfl := Option.some.inj hexec
    refine ⟨l, h.stay hq rfl (fun _ => rfl) (Or.inl rfl) ?_ (by simp [Pc.target])⟩
    intro id' n heq
    -- the lock is held, so that what `task_list.next` points to is on the list
    obtain ⟨m, hm, hnext⟩ := h.nextClosed .head List.mem_cons_self
    cases heq
    exact ⟨m, hm, hnext⟩
  | killFind id node => exact ⟨l, h.killFind hq rfl hexec⟩
  | killReturn id found =>
    rw [Cpu.exec, hq] at hexec
    cases found with
    | none =>
      obtain rfl := Option.some.inj hexec
      exact ⟨l, h.giveTask hq rfl rfl rfl (by simp [Pc.target])⟩
    | some a =>
      obtain rfl := Option.some.inj hexec
      exact ⟨l, h.giveTask hq rfl rfl rfl (by simp [Pc.target])⟩
  | killTest id a =>
    rw [Cpu.exec, hq] at hexec
    dsimp only at hexec
    split at hexec
    · obtain rfl := Option.some.inj hexec
      exact ⟨l, h.stay hq rfl (fun _ => rfl) (Or.inl rfl) (by simp) (by simp [Pc.target])⟩
    · obtain rfl := Option.some.inj hexec
      exact ⟨l, h.stay hq rfl (fun _ => rfl) (Or.inl rfl) (by simp) (fun i t ht => Or.inl ht)⟩
  | killTestState id a =>
    rw [Cpu.exec, hq] at hexec
    dsimp only at hexec
    split at hexec
    · obtain rfl := Option.some.inj hexec
      exact ⟨l, h.stay hq rfl (fun _ => rfl) (Or.inl rfl) (by simp) (by simp [Pc.target])⟩
    · obtain rfl := Option.some.inj hexec
      exact ⟨l, h.stay hq rfl (fun _ => rfl) (Or.inl rfl) (by simp) (fun i t ht => Or.inl ht)⟩
  | killRelock id a =>
    rw [Cpu.exec, hq] at hexec
    exact ⟨l, h.takeTask hq hexec rfl rfl rfl (by simp) (fun i t ht => ht)⟩
  | killMark id a =>
    rw [Cpu.exec, hq] at hexec
    obtain rfl := Option.some.inj hexec
    exact ⟨l, h.goto hq (SameList.setTask _ _ _) (fun b _ => setTask_id rfl (by rfl) b) rfl
      (fun _ => rfl) (Or.inl rfl) (by simp) (by simp [Pc.target])⟩
  | killUnlock id =>
    rw [Cpu.exec, hq] at hexec
    obtain rfl := Option.some.inj hexec
    exact ⟨l, h.giveTask hq rfl rfl rfl (by simp [Pc.target])⟩
  | pages st site => exact ⟨l, h.pages hq rfl hexec⟩
  | createLock c =>
    -- the calls of `kmalloc` run inside the lock, whether or not they ask for a page
    have hplain := enterStruct_plain c c.structPages
    rw [Cpu.exec, hq] at hexec
    refine ⟨l, h.takeTask hq hexec hplain.holds hplain.links hplain.creates hplain.find ?_⟩
    intro i t ht
    rw [hplain.target] at ht
    cases ht
  | createStruct c =>
    have hfresh := hok rfl
    rw [hq] at hfresh
    rw [Cpu.exec, hq] at hexec
    dsimp only at hexec
    cases hstruct : c.al.struct with
    | none =>
      rw [hstruct] at hexec
      obtain rfl := Option.some.inj hexec
      exact ⟨l, h.stay hq rfl (fun _ => rfl) (Or.inl rfl) (by simp) (by simp [Pc.target])⟩
    | some a =>
      rw [hstruct] at hexec
      obtain rfl := Option.some.inj hexec
      -- the only place that uses what `kmalloc` promises
      have ha : a ∉ l := h.taskList_eq ▸ hfresh a hstruct
      exact ⟨l, h.allocStruct hq rfl ha rfl rfl rfl⟩
  | createStack c a => exact ⟨l, h.createRest hq (Or.inl rfl) hexec⟩
  | createSpace c a => exact ⟨l, h.createRest hq (Or.inr rfl) hexec⟩
  | createArch a =>
    rw [Cpu.exec, hq] at hexec
    obtain rfl := Option.some.inj hexec
    exact ⟨l, h.goto hq (SameList.setTask _ _ _) (fun b _ => setTask_id rfl (by rfl) b) rfl
      (fun _ => rfl) (Or.inr rfl) (by simp) (by simp [Pc.target])⟩
  | createLink a st =>
    rw [Cpu.exec, hq] at hexec
    obtain rfl := Option.some.inj hexec
    exact ⟨_, h.link hq rfl rfl rfl rfl⟩
  | createFree a =>
    rw [Cpu.exec, hq] at hexec
    obtain rfl := Option.some.inj hexec
    exact ⟨l, h.stay hq rfl (fun _ => rfl) (Or.inl rfl) (by simp) (by simp [Pc.target])⟩
  | createUnlock =>
    rw [Cpu.exec, hq] at hexec
    obtain rfl := Option.some.inj hexec
    exact ⟨l, h.giveTask hq rfl rfl rfl (by simp [Pc.target])⟩

/-! ### Steps and runs -/

theorem entry_plain (f : Call) : Plain f.entry false none := by
  cases f with
  | exitCurrent => exact ⟨rfl, rfl, rfl, by simp [Call.entry], rfl⟩
  | kill id =>
    unfold Call.entry
    dsimp only
    split
    · exact ⟨rfl, rfl, rfl, by simp, rfl⟩
    · exact ⟨rfl, rfl, rfl, by simp, rfl⟩
  | create c =>
    unfold Call.entry
    dsimp only
    split
    · exact ⟨rfl, rfl, rfl, by simp, rfl⟩
    · split
      · exact ⟨rfl, rfl, rfl, by simp, rfl⟩
      · exact ⟨rfl, rfl, rfl, by simp, rfl⟩
  | pages => exact ⟨rfl, rfl, rfl, by simp [Call.entry], rfl⟩

theorem Base.call (h : Base x l) (hq : x.pc x.sched.current = .out) (f : Call) :
    Moves x l (x.goto f.entry) l :=
  h.plain hq (entry_plain f) (SameList.refl _) (fun _ _ => rfl) rfl (Or.inl rfl)

theorem mem_locksOf {es : List Event} {k : Lock} : k ∈ locksOf es ↔ Event.lock k ∈ es := by
  unfold locksOf
  rw [List.mem_filterMap]
  constructor
  · rintro ⟨e, he, heq⟩
    cases e with
    | lock k' =>
      obtain rfl := Option.some.inj heq
      exact he
    | _ => cases heq
  · intro hk
    exact ⟨.lock k, hk, rfl⟩

/-- **A timer tick** waits for a lock that some task holds, or switches to another task. -/
theorem Base.tick (h : Base x l) (htick : x.tick esp = some y) :
    (∃ k, Event.lock k ∈ (taskSchedule x.sched esp).2 ∧ y = { x with spins := some k }) ∨
      ∃ l', Base y l' ∧ TickKeeps x.sched l (taskSchedule x.sched esp).2 y.sched l' ∧
        y.pc = x.pc ∧ y.spins = x.spins := by
  unfold Cpu.tick at htick
  have hmem : ∀ k, k ∈ locksOf (taskSchedule x.sched esp).2 ↔
      Event.lock k ∈ (taskSchedule x.sched esp).2 := fun k => mem_locksOf
  cases hfirst : (locksOf (taskSchedule x.sched esp).2).find? fun k => (x.holder k).isSome with
  | some k =>
    dsimp only at htick
    rw [hfirst] at htick
    obtain rfl := Option.some.inj htick
    exact Or.inl ⟨k, (hmem k).mp (List.mem_of_find?_eq_some hfirst), rfl⟩
  | none =>
    dsimp only at htick
    rw [hfirst] at htick
    obtain ⟨s', hret, rfl⟩ := Option.map_eq_some_iff.mp htick
    apply Or.inr
    -- the locks that `task_schedule` takes are free
    have hfree : Event.lock .task ∈ (taskSchedule x.sched esp).2 → x.holder .task = none := by
      intro hlock
      have hnone := List.find?_eq_none.mp hfirst .task ((hmem _).mpr hlock)
      simpa using hnone
    have hlist : Event.lock .task ∈ (taskSchedule x.sched esp).2 → ListInv x.sched l := fun hlock =>
      h.listInv (Cpu.linking_none (hfree hlock))
    obtain ⟨l', ht⟩ := taskSchedule_cases h.nextClosed h.sentinel h.current h.enabled hlist hret
    have hsub : ∀ b ∈ l', b ∈ l := fun b hb => ht.sub.subset hb
    refine ⟨l', ?_, ht, rfl, rfl⟩
    rcases ht.list with ⟨hinv, hlock⟩ | ⟨rfl, hnodes, hcreated, hhead⟩
    · have hnone := hfree hlock
      exact .outside hinv ht.current (ht.enabled.trans h.enabled) hnone fun b hb =>
        h.nobody_inside hnone (hsub b hb)
    · obtain ⟨h₀, hl, hx⟩ := h.list
      refine ⟨⟨h₀, ⟨hl.ring, hcreated ▸ hl.length_le, hhead ▸ hl.sentinel⟩, ?_⟩, ht.current,
        ht.enabled.trans h.enabled, h.holds, h.held, h.creating, h.finding⟩
      rw [hnodes]
      exact hx

theorem Cpu.take_spins {k : Lock} (htake : x.take k p = some y) : y.spins = x.spins := by
  obtain ⟨-, rfl⟩ := Cpu.take_eq_some htake
  rfl

theorem Cpu.exec_spins (hexec : x.exec = some y) : y.spins = x.spins := by
  unfold Cpu.exec at hexec
  split at hexec <;> (try split at hexec) <;>
    first
    | exact Cpu.take_spins hexec
    | (obtain rfl := Option.some.inj hexec; rfl)
    | cases hexec

theorem boot_base (mem : ℕ → Task) (links : NodeHeap TaskNode) (pgds : ℕ → ℕ)
    (stackBottom a v pgd : ℕ) (raw : Task) :
    Base (Cpu.boot (taskInit mem links pgds stackBottom a v pgd raw)) [a] := by
  have hinit := taskInit_inv mem links pgds stackBottom a v pgd raw
  exact .outside hinit.toListInv hinit.current rfl rfl fun _ _ => rfl

/-- **One step**, from a state in which the timer does not wait. -/
theorem Base.step {act : Action} (h : Base x l) (hok : Promised x act) (hstep : x.step act = some y) :
    x.spins = none ∧
      ((∃ k esp, act = .tick esp ∧ Event.lock k ∈ (taskSchedule x.sched esp).2 ∧
        y = { x with spins := some k }) ∨
      (∃ l', Moves x l y l' ∧ y.spins = none) ∨
      ∃ esp l', act = .tick esp ∧ Base y l' ∧
        TickKeeps x.sched l (taskSchedule x.sched esp).2 y.sched l' ∧ y.pc = x.pc ∧
        y.spins = none) := by
  unfold Cpu.step at hstep
  split at hstep
  · cases hstep
  · rename_i hspins
    refine ⟨hspins, ?_⟩
    cases act with
    | call f =>
      dsimp only at hstep
      split at hstep
      · rename_i hq
        obtain rfl := Option.some.inj hstep
        exact Or.inr (Or.inl ⟨l, h.call hq f, hspins⟩)
      · cases hstep
    | exec =>
      obtain ⟨l', hmoves⟩ := h.exec hok hstep
      exact Or.inr (Or.inl ⟨l', hmoves, (Cpu.exec_spins hstep).trans hspins⟩)
    | tick esp =>
      rcases h.tick hstep with ⟨k, hk, rfl⟩ | ⟨l', hbase, ht, hpc, hspins'⟩
      · exact Or.inl ⟨k, esp, rfl, hk, rfl⟩
      · exact Or.inr (Or.inr ⟨esp, l', rfl, hbase, ht, hpc, hspins'.trans hspins⟩)

/-- A timer that waits for a lock changes nothing. -/
theorem Base.spinning (h : Base x l) (k : Lock) : Base { x with spins := some k } l :=
  ⟨h.list, h.current, h.enabled, h.holds, h.held, h.creating, h.finding⟩

/-! ### The timer and the locks -/

theorem searchFrom_unlocked (s : Sched) (k : Lock) (fuel : ℕ) (n : TaskNode) :
    Event.lock k ∉ (searchFrom s fuel n).2 := by
  have htouch : ∀ n : TaskNode, Event.lock k ∉ touchNode (some n) := by
    intro n
    cases n <;> simp [touchNode]
  induction fuel generalizing n with
  | zero => simp [searchFrom]
  | succ fuel ih =>
    rw [searchFrom]
    split
    · exact htouch n
    · intro hin
      rcases List.mem_append.mp hin with hin | hin
      · exact htouch n hin
      · exact ih _ hin

/-- Without a killed task the purge loop takes no lock; the idle task is never purged. -/
theorem purgeFrom_quiet (h : NextClosed s l)
    (hkilled : ∀ a ∈ l, (s.tasks a).state = .killed → (s.tasks a).id = 0) (k : Lock) (fuel : ℕ)
    {n : TaskNode} (hn : n ∈ TaskNode.head :: l.map TaskNode.task) :
    Event.lock k ∉ (purgeFrom fuel (some n) (nextOf s (some n)) s).2 := by
  induction fuel generalizing n with
  | zero => simp [purgeFrom]
  | succ fuel ih =>
    cases n with
    | head => simp [purgeFrom]
    | task a =>
      have ha : a ∈ l := by simpa using hn
      obtain ⟨d, hd, hnext⟩ := h _ hn
      have htmp : nextOf s (some (.task a)) = some d := hnext
      have hvisit : (if (s.tasks a).state = .killed then (taskPurge s (s.tasks a).id).2
          else (s, [])) = (s, []) := by
        split
        · rename_i hst
          rw [taskPurge, if_pos (hkilled a ha hst)]
        · rfl
      rw [htmp, purgeFrom, hvisit]
      have hrest := ih hd
      intro hin
      simp only [List.cons_append, List.mem_cons, List.mem_append, reduceCtorEq, false_or] at hin
      rcases hin with hin | hin
      · cases d <;> simp [touchNode] at hin
      · exact hrest hin

/-- A `task_schedule` with nothing to purge takes no lock. -/
theorem taskSchedule_quiet (h : NextClosed s l)
    (hkilled : ∀ a ∈ l, (s.tasks a).state = .killed → (s.tasks a).id = 0) (k : Lock) (esp : ℕ) :
    Event.lock k ∉ (taskSchedule s esp).2 := by
  have hticked : NextClosed (ticked s) l := h
  obtain ⟨d, hd, hnext⟩ := hticked .head List.mem_cons_self
  have hpurge : Event.lock k ∉ (taskPurgeKilledTasks (ticked s)).2 := by
    unfold taskPurgeKilledTasks
    dsimp only
    rw [hnext]
    intro hin
    rcases List.mem_append.mp hin with hin | hin
    · cases d <;> simp [touchNode] at hin
    · refine purgeFrom_quiet hticked ?_ k _ hd hin
      intro a ha hst
      rw [ticked_state] at hst
      rw [ticked_id]
      exact hkilled a ha hst
  have hselect : Event.lock k ∉ (taskSelect s).2.2 := by
    intro hin
    have hcases : Event.lock k ∈ (taskPurgeKilledTasks (ticked s)).2 ∨
        ∃ s₁ fuel n, Event.lock k ∈ (searchFrom s₁ fuel n).2 := by
      have hin' : Event.lock k ∈ .touch s.current :: (taskPurgeKilledTasks (ticked s)).2 ++
          .touch (taskPurgeKilledTasks (ticked s)).1.current ::
            (searchFrom (taskPurgeKilledTasks (ticked s)).1
              ((taskPurgeKilledTasks (ticked s)).1.created + 2)
              (((taskPurgeKilledTasks (ticked s)).1.nodes
                (.task (taskPurgeKilledTasks (ticked s)).1.current)).next.getD .head)).2 := hin
      simp only [List.cons_append, List.mem_cons, List.mem_append, reduceCtorEq, false_or] at hin'
      rcases hin' with hin' | hin'
      · exact Or.inl hin'
      · exact Or.inr ⟨_, _, _, hin'⟩
    rcases hcases with hin | ⟨s₁, fuel, n, hin⟩
    · exact hpurge hin
    · exact searchFrom_unlocked s₁ k fuel n hin
  intro hin
  exact hselect (lock_mem_taskSchedule.mp hin).2

/-- The timer is not waiting for a lock of the task it has interrupted. -/
def TimerSafe (x : Cpu) : Prop := ∀ k, x.spins = some k → x.holder k ≠ some x.sched.current

/-- A tick arrives while no task but the idle task is marked as killed, or while the current task
    holds neither lock. -/
def TickApart (x : Cpu) (act : Action) : Prop :=
  Promised x act ∧ (act.isTick = true →
    (∀ a ∈ taskList x.sched, (x.sched.tasks a).state = .killed → (x.sched.tasks a).id = 0) ∨
      x.holder .task ≠ some x.sched.current ∧ x.holder .buddy ≠ some x.sched.current)

instance (x : Cpu) (act : Action) : Decidable (TickApart x act) :=
  inferInstanceAs (Decidable (_ ∧ (_ → (∀ a ∈ _, _ → _) ∨ _ ∧ _)))

theorem Base.timerSafe {act : Action} (h : Base x l) (hok : TickApart x act)
    (hstep : x.step act = some y) : (∃ l', Base y l') ∧ TimerSafe y := by
  obtain ⟨-, hcases⟩ := h.step hok.1 hstep
  rcases hcases with
    ⟨k, esp, hact, hlock, rfl⟩ | ⟨l', hmoves, hspins⟩ | ⟨esp, l', -, hbase, -, -, hspins⟩
  · refine ⟨⟨l, h.spinning k⟩, ?_⟩
    rcases hok.2 (by rw [hact]; rfl) with hkilled | ⟨htask, hbuddy⟩
    · rw [h.taskList_eq] at hkilled
      exact absurd hlock (taskSchedule_quiet h.nextClosed hkilled k esp)
    · intro k' _
      cases k' with
      | task => exact htask
      | buddy => exact hbuddy
  · refine ⟨⟨l', hmoves.base⟩, fun k hk => ?_⟩
    rw [hspins] at hk
    cases hk
  · refine ⟨⟨l', hbase⟩, fun k hk => ?_⟩
    rw [hspins] at hk
    cases hk

/-- **The timer and the task it interrupts.**  In every run from `task_init` in which each tick finds
    no killed task, the idle task apart, or finds the current task without a lock, `task_schedule`
    never waits inside the interrupt for a lock that the interrupted task holds. -/
theorem tick_never_waits {mem : ℕ → Task} {links : NodeHeap TaskNode} {pgds : ℕ → ℕ}
    {stackBottom v pgd : ℕ} {raw : Task}
    (hrun : Runs TickApart (Cpu.boot (taskInit mem links pgds stackBottom a v pgd raw)) x) :
    TimerSafe x := by
  have hinv : (∃ l, Base x l) ∧ TimerSafe x := by
    induction hrun with
    | refl =>
      refine ⟨⟨[a], boot_base mem links pgds stackBottom a v pgd raw⟩, fun k hk => ?_⟩
      cases hk
    | step x y act _ hok hstep ih =>
      obtain ⟨⟨l, h⟩, -⟩ := ih
      exact h.timerSafe hok hstep
  exact hinv.2

/-- A call of `task_create` whose struct is at `a`; `vm_space_new` needs one page. -/
def createAt (a : ℕ) : CreateCall :=
  ⟨workerArgs, ⟨some a, some (a * 0x10000), some (a + 1, a + 2)⟩, 0, 1⟩

/-- The idle task creates a task; a tick interrupts the second call of `task_create`, which has just
    taken `task_lock`. -/
def interruptedCreate : List Action :=
  .call (.create (createAt 10)) :: List.replicate 16 .exec ++
    [.call (.create (createAt 20)), .exec, .tick 0]

theorem tick_never_waits_interruptedCreate :
    ∃ x, (Cpu.boot idleOnly).follow TickApart interruptedCreate = some x ∧ TimerSafe x := by
  have hend : ((Cpu.boot idleOnly).follow TickApart interruptedCreate).isSome = true := by
    decide +kernel
  obtain ⟨x, hx⟩ := Option.isSome_iff_exists.mp hend
  exact ⟨x, hx, tick_never_waits (follow_runs Runs.refl hx)⟩

/-- The idle task creates a task, kills it, and is interrupted in a second `task_create`, which has
    just taken `task_lock`. -/
def killedPending : List Action :=
  .call (.create (createAt 10)) :: List.replicate 16 .exec ++
    .call (.kill 1) :: List.replicate 9 .exec ++
    [.call (.create (createAt 20)), .exec, .tick 0]

/-- **The timer waits for the task it has interrupted.**  With a killed task on the list the tick
    calls `task_purge`, which takes `task_lock` while the interrupted `task_create` holds it. -/
theorem tick_waits_forever :
    ¬ ∀ (mem : ℕ → Task) (links : NodeHeap TaskNode) (pgds : ℕ → ℕ) (stackBottom a v pgd : ℕ)
      (raw : Task) (x : Cpu),
      Runs Promised (Cpu.boot (taskInit mem links pgds stackBottom a v pgd raw)) x →
      TimerSafe x := by
  intro h
  have hend : ((Cpu.boot idleOnly).follow Promised killedPending).map
      (fun x => (x.spins, x.holder .task, x.sched.current)) = some (some .task, some 1, 1) := by
    decide +kernel
  obtain ⟨x, hx, heq⟩ := Option.map_eq_some_iff.mp hend
  obtain ⟨hspins, hrest⟩ := Prod.mk.inj heq
  obtain ⟨hholder, hcur⟩ := Prod.mk.inj hrest
  apply h _ _ _ _ _ _ _ _ x (follow_runs Runs.refl hx) .task hspins
  rw [hholder, hcur]

/-! ### The target of `task_kill` -/

/-- The id that a `task_kill` under way was called with. -/
def Pc.killing : Pc → Option ℕ
  | .killLock id => some id
  | .killFirst id => some id
  | .killFind id _ => some id
  | .killReturn id _ => some id
  | .killTest id _ => some id
  | .killTestState id _ => some id
  | .killRelock id _ => some id
  | .killMark id _ => some id
  | .killUnlock id => some id
  | _ => none

/-- A statement of `task_kill(id)` changes the state of no struct but that of a task on the list
    which has that id. -/
def KillHits (x : Cpu) : Prop :=
  ∀ y id, (x.pc x.sched.current).killing = some id → x.exec = some y →
    ∀ a, (y.sched.tasks a).state ≠ (x.sched.tasks a).state →
      a ∈ taskList x.sched ∧ (x.sched.tasks a).id = id

/-- No tick arrives while the target of a `task_kill` under way is marked as killed. -/
def TargetSpared (x : Cpu) (act : Action) : Prop :=
  Promised x act ∧ (act.isTick = true → ∀ b ∈ taskList x.sched, ∀ it ∈ (x.pc b).target,
    (x.sched.tasks it.2).state ≠ .killed)

instance (x : Cpu) (act : Action) : Decidable (TargetSpared x act) :=
  inferInstanceAs (Decidable (_ ∧ (_ → ∀ b ∈ _, ∀ it ∈ _, _ ≠ _)))

/-- Every task that has been looked up is still on the list, under the id it was looked up by. -/
def OnTarget (x : Cpu) (l : List ℕ) : Prop :=
  ∀ b ∈ l, ∀ i t, (x.pc b).target = some (i, t) → t ∈ l ∧ (x.sched.tasks t).id = i

theorem OnTarget.moves (h : OnTarget x l) (hcur : x.sched.current ∈ l) (hm : Moves x l y l') :
    OnTarget y l' := by
  -- the target was known before, or has just been found
  have hold : ∀ i t, t ∈ l ∧ (x.sched.tasks t).id = i → t ∈ l' ∧ (y.sched.tasks t).id = i :=
    fun i t ht => ⟨hm.sub t ht.1, (hm.id t ht.1).trans ht.2⟩
  intro b hb i t ht
  by_cases hbl : b ∈ l
  · by_cases hbc : b = x.sched.current
    · rw [hbc] at ht
      rcases hm.target i t ht with hx | hx
      · exact hold i t (h _ hcur i t hx)
      · exact hold i t hx
    · rw [hm.other b hbl hbc] at ht
      exact hold i t (h b hbl i t ht)
  · rw [hm.new b hb hbl] at ht
    cases ht

theorem OnTarget.tick {es : List Event} (h : OnTarget x l) (hk : TickKeeps x.sched l es y.sched l')
    (hpc : y.pc = x.pc) (hspared : ∀ b ∈ l, ∀ i t, (x.pc b).target = some (i, t) →
      (x.sched.tasks t).state ≠ .killed) : OnTarget y l' := by
  intro b hb i t ht
  have hbl := hk.sub.subset hb
  rw [hpc] at ht
  obtain ⟨htl, hid⟩ := h b hbl i t ht
  refine ⟨?_, (hk.id t).trans hid⟩
  by_contra hgone
  exact hspared b hbl i t ht (hk.gone t htl hgone).1

/-- The statements of `task_kill`, as far as the scheduler's data is concerned. -/
theorem exec_killing (hkill : (x.pc x.sched.current).killing = some id) (hexec : x.exec = some y) :
    y.sched = x.sched ∨ ∃ t, x.pc x.sched.current = .killMark id t ∧
      y.sched = x.sched.setTask t { x.sched.tasks t with state := .killed } := by
  -- taking a lock, where it succeeds, leaves the scheduler
  have htake : ∀ {k : Lock} {p : Pc}, x.take k p = some y → y.sched = x.sched := by
    intro k p h
    obtain ⟨-, rfl⟩ := Cpu.take_eq_some h
    rfl
  cases hq : x.pc x.sched.current with
  | killLock i =>
    rw [Cpu.exec, hq] at hexec
    exact Or.inl (htake hexec)
  | killFirst i =>
    rw [Cpu.exec, hq] at hexec
    obtain rfl := Option.some.inj hexec
    exact Or.inl rfl
  | killFind i n =>
    rw [Cpu.exec, hq] at hexec
    cases n with
    | none =>
      obtain rfl := Option.some.inj hexec
      exact Or.inl rfl
    | some node =>
      cases node with
      | head =>
        obtain rfl := Option.some.inj hexec
        exact Or.inl rfl
      | task a =>
        dsimp only at hexec
        split at hexec
        · obtain rfl := Option.some.inj hexec
          exact Or.inl rfl
        · obtain rfl := Option.some.inj hexec
          exact Or.inl rfl
  | killReturn i found =>
    rw [Cpu.exec, hq] at hexec
    cases found with
    | none =>
      obtain rfl := Option.some.inj hexec
      exact Or.inl rfl
    | some a =>
      obtain rfl := Option.some.inj hexec
      exact Or.inl rfl
  | killTest i a =>
    rw [Cpu.exec, hq] at hexec
    dsimp only at hexec
    split at hexec
    · obtain rfl := Option.some.inj hexec
      exact Or.inl rfl
    · obtain rfl := Option.some.inj hexec
      exact Or.inl rfl
  | killTestState i a =>
    rw [Cpu.exec, hq] at hexec
    dsimp only at hexec
    split at hexec
    · obtain rfl := Option.some.inj hexec
      exact Or.inl rfl
    · obtain rfl := Option.some.inj hexec
      exact Or.inl rfl
  | killRelock i a =>
    rw [Cpu.exec, hq] at hexec
    exact Or.inl (htake hexec)
  -- the one store of `task_kill`
  | killMark i a =>
    rw [Cpu.exec, hq] at hexec
    obtain rfl := Option.some.inj hexec
    rw [hq] at hkill
    obtain rfl : i = id := Option.some.inj hkill
    exact Or.inr ⟨a, rfl, rfl⟩
  | killUnlock i =>
    rw [Cpu.exec, hq] at hexec
    obtain rfl := Option.some.inj hexec
    exact Or.inl rfl
  | _ =>
    rw [hq] at hkill
    cases hkill

theorem OnTarget.killHits (h : OnTarget x l) (hbase : Base x l) : KillHits x := by
  intro y id hkill hexec a hchanged
  rcases exec_killing hkill hexec with hsame | ⟨t, hq, hset⟩
  · rw [hsame] at hchanged
    exact absurd rfl hchanged
  · have hat : a = t := by
      by_contra hne
      rw [hset] at hchanged
      exact hchanged (congrArg Task.state (Function.update_of_ne hne _ _))
    rw [hat, hbase.taskList_eq]
    exact h _ hbase.current id t (by rw [hq]; rfl)

theorem Base.onTarget {act : Action} (h : Base x l) (htarget : OnTarget x l)
    (hok : TargetSpared x act) (hstep : x.step act = some y) :
    ∃ l', Base y l' ∧ OnTarget y l' := by
  obtain ⟨-, hcases⟩ := h.step hok.1 hstep
  rcases hcases with ⟨k, esp, -, -, rfl⟩ | ⟨l', hmoves, -⟩ | ⟨esp, l', hact, hbase, hk, hpc, -⟩
  · exact ⟨l, h.spinning k, htarget⟩
  · exact ⟨l', hmoves.base, htarget.moves h.current hmoves⟩
  · refine ⟨l', hbase, htarget.tick hk hpc ?_⟩
    have hspared := hok.2 (by rw [hact]; rfl)
    rw [h.taskList_eq] at hspared
    exact fun b hb i t ht => hspared b hb (i, t) ht

/-- **`task_kill` marks the task it was asked for.**  In every run from `task_init` in which no tick
    arrives while the target of a `task_kill` under way is marked as killed, a statement of
    `task_kill(id)` changes the state of no struct but that of a task with this id on the list. -/
theorem kill_hits_target {mem : ℕ → Task} {links : NodeHeap TaskNode} {pgds : ℕ → ℕ}
    {stackBottom v pgd : ℕ} {raw : Task}
    (hrun : Runs TargetSpared (Cpu.boot (taskInit mem links pgds stackBottom a v pgd raw)) x) :
    KillHits x := by
  have hinv : ∃ l, Base x l ∧ OnTarget x l := by
    induction hrun with
    | refl =>
      refine ⟨[a], boot_base mem links pgds stackBottom a v pgd raw, fun b _ i t ht => ?_⟩
      cases ht
    | step x y act _ hok hstep ih =>
      obtain ⟨l, h, htarget⟩ := ih
      exact h.onTarget htarget hok hstep
  obtain ⟨l, hbase, htarget⟩ := hinv
  exact htarget.killHits hbase

/-- The idle task has two others created, and calls `task_kill` for the first; after its two tests the
    second task runs and kills the first as well. -/
def killedTwice : List Action :=
  .call (.create (createAt 10)) :: List.replicate 16 .exec ++
    .call (.create (createAt 20)) :: List.replicate 16 .exec ++
    .call (.kill 1) :: List.replicate 7 .exec ++ .tick 0 ::
    .call (.kill 1) :: List.replicate 10 .exec

theorem kill_hits_target_killedTwice :
    ∃ x, (Cpu.boot idleOnly).follow TargetSpared killedTwice = some x ∧ KillHits x := by
  have hend : ((Cpu.boot idleOnly).follow TargetSpared killedTwice).isSome = true := by
    decide +kernel
  obtain ⟨x, hx⟩ := Option.isSome_iff_exists.mp hend
  exact ⟨x, hx, kill_hits_target (follow_runs Runs.refl hx)⟩

/-- Now ticks purge the first task, the second creates another in its place, and the idle task takes
    the lock to mark what it had looked up. -/
def structReused : List Action :=
  killedTwice ++ [.tick 0, .tick 0, .call (.create (createAt 10))] ++ List.replicate 16 .exec ++
    [.tick 0, .exec]

/-- **`task_kill` marks another task.**  The struct of the task it has looked up has become that of a
    task with another id. -/
theorem kill_hits_other :
    ¬ ∀ (mem : ℕ → Task) (links : NodeHeap TaskNode) (pgds : ℕ → ℕ) (stackBottom a v pgd : ℕ)
      (raw : Task) (x : Cpu),
      Runs Promised (Cpu.boot (taskInit mem links pgds stackBottom a v pgd raw)) x →
      KillHits x := by
  intro h
  have hend : ((Cpu.boot idleOnly).follow Promised structReused).map
      (fun x => ((x.pc x.sched.current).killing, (x.sched.tasks 10).id, (x.sched.tasks 10).state,
        x.exec.map fun y => (y.sched.tasks 10).state)) =
      some (some 1, 3, .waiting, some .killed) := by
    decide +kernel
  obtain ⟨x, hx, heq⟩ := Option.map_eq_some_iff.mp hend
  obtain ⟨hkill, hrest⟩ := Prod.mk.inj heq
  obtain ⟨hid, hrest⟩ := Prod.mk.inj hrest
  obtain ⟨hbefore, hrest⟩ := Prod.mk.inj hrest
  obtain ⟨y, hexec, hafter⟩ := Option.map_eq_some_iff.mp hrest
  obtain ⟨-, hid'⟩ := h _ _ _ _ _ _ _ _ x (follow_runs Runs.refl hx) y 1 hkill hexec 10 (by
    rw [hbefore, hafter]
    decide)
  rw [hid] at hid'
  exact absurd hid' (by decide)

end Rotary

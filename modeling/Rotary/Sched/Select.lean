import Rotary.Sched.TaskInv

namespace Rotary

open Lib

/-!
# Purging and selecting

What `task_schedule` does to the task list, in any state of the list: also when the current task
is itself purged, so that the search starts at a struct that is on no list any more.

* `Purges` — the tasks left keep their order, only killed ones are gone, and the `next` words of
  those still lead back to the list;
* `taskPurgeKilledTasks_purges` — so does the purge loop;
* `searchFrom_chain` — the search finds the first runnable struct along the `next` words;
* `taskSelect_spec` — with a runnable task on the list, a runnable task of the list is selected.
-/

variable {s s' s'' : Sched} {l l' l'' pre rest : List ℕ} {a f fuel : ℕ}

/-- The scheduler's view of a node. -/
def Sched.runs (s : Sched) (n : TaskNode) : Bool := (s.taskAt n).runnable

theorem searchFrom_succ (s : Sched) (fuel : ℕ) (n : TaskNode) :
    (searchFrom s (fuel + 1) n).1 =
      if s.runs n = true then some n
      else (searchFrom s fuel ((s.nodes n).next.getD .head)).1 := by
  rw [searchFrom]
  unfold Sched.runs
  split
  · rfl
  · rfl

/-- The search loop finds the first runnable node on its way. -/
theorem searchFrom_chain {n m : TaskNode} {ns : List TaskNode}
    (hchain : List.IsChain (Ring.Follows s.nodes) (n :: ns)) (hfuel : ns.length < fuel)
    (hfind : (n :: ns).find? s.runs = some m) : (searchFrom s fuel n).1 = some m := by
  induction ns generalizing n fuel with
  | nil =>
    obtain ⟨fuel, rfl⟩ : ∃ k, fuel = k + 1 := Nat.exists_eq_succ_of_ne_zero (by omega)
    rw [searchFrom_succ]
    by_cases hn : s.runs n = true
    · rw [List.find?_cons_of_pos hn] at hfind
      rw [if_pos hn]
      exact hfind
    · rw [List.find?_cons_of_neg hn] at hfind
      cases hfind
  | cons d ns ih =>
    obtain ⟨fuel, rfl⟩ : ∃ k, fuel = k + 1 := Nat.exists_eq_succ_of_ne_zero (by omega)
    obtain ⟨hnext, hrest⟩ := List.isChain_cons_cons.mp hchain
    have hword : (s.nodes n).next = some d := hnext
    rw [searchFrom_succ]
    by_cases hn : s.runs n = true
    · rw [List.find?_cons_of_pos hn] at hfind
      rw [if_pos hn]
      exact hfind
    · rw [List.find?_cons_of_neg hn] at hfind
      rw [if_neg hn, hword]
      exact ih hrest (Nat.lt_of_succ_lt_succ hfuel) hfind

/-- Writes to the node of a struct that is not on the list do not concern the list. -/
theorem ListInv.outside (h : ListInv s l) (ha : a ∉ l)
    (hnodes : ∀ n, n ≠ .task a → s'.nodes n = s.nodes n) (hcreated : s'.created = s.created)
    (hhead : s'.head = s.head) : ListInv s' l := by
  refine ⟨h.ring.frame fun n hn => hnodes n ?_, hcreated ▸ h.length_le, hhead ▸ h.sentinel⟩
  rintro rfl
  simp [ha] at hn

/-! ### The purge loop -/

/-- The list `l` of `s` has become the list `l'` of `s'` by purging. -/
structure Purges (s : Sched) (l : List ℕ) (s' : Sched) (l' : List ℕ) : Prop where
  inv : ListInv s' l'
  frame : s' = { s with nodes := s'.nodes }
  sub : l'.Sublist l
  gone : ∀ a ∈ l, a ∉ l' → (s.tasks a).state = .killed ∧ (s.tasks a).id ≠ 0
  outside : ∀ n, n ∉ TaskNode.head :: l.map TaskNode.task → s'.nodes n = s.nodes n
  /-- From a task that is gone, `next` leads over others that are gone to the list. -/
  stale : ∀ a ∈ l, a ∉ l' → ∃ zs m,
    List.IsChain (Ring.Follows s'.nodes) ((a :: zs).map TaskNode.task ++ [m]) ∧
    (∀ z ∈ a :: zs, z ∈ l ∧ z ∉ l') ∧ (a :: zs).length + l'.length ≤ l.length ∧
    m ∈ TaskNode.head :: l'.map TaskNode.task

theorem Purges.refl (h : ListInv s l) : Purges s l s l :=
  ⟨h, rfl, List.Sublist.refl l, fun _ ha hna => absurd ha hna, fun _ _ => rfl,
    fun _ ha hna => absurd ha hna⟩

theorem Purges.tasks_eq (h : Purges s l s' l') : s'.tasks = s.tasks := by
  rw [h.frame]

/-- A chain of nodes whose words did not change. -/
theorem follows_congr {ns : List TaskNode} {m : TaskNode}
    (hchain : List.IsChain (Ring.Follows s.nodes) (ns ++ [m]))
    (heq : ∀ n ∈ ns, s'.nodes n = s.nodes n) :
    List.IsChain (Ring.Follows s'.nodes) (ns ++ [m]) := by
  induction ns with
  | nil => exact List.isChain_singleton m
  | cons n ns ih =>
    have hrest := ih (List.IsChain.tail hchain) fun x hx => heq x (List.mem_cons_of_mem n hx)
    cases ns with
    | nil =>
      obtain ⟨hnext, -⟩ := List.isChain_cons_cons.mp hchain
      refine List.isChain_cons_cons.mpr ⟨?_, hrest⟩
      show (s'.nodes n).next = some m
      rw [heq n List.mem_cons_self]
      exact hnext
    | cons d ns =>
      obtain ⟨hnext, -⟩ := List.isChain_cons_cons.mp hchain
      refine List.isChain_cons_cons.mpr ⟨?_, hrest⟩
      show (s'.nodes n).next = some d
      rw [heq n List.mem_cons_self]
      exact hnext

theorem Purges.trans (h : Purges s l s' l') (h' : Purges s' l' s'' l'') : Purges s l s'' l'' := by
  have hframe : s'' = { s with nodes := s''.nodes } := by
    rw [h'.frame, h.frame]
  have hsub : ∀ a ∈ l', a ∈ l := fun a ha => h.sub.subset ha
  -- what is outside the first list, or purged from it, is not written again
  have hout : ∀ z, z ∉ l' → s''.nodes (.task z) = s'.nodes (.task z) := by
    intro z hz
    apply h'.outside _
    simpa using hz
  refine ⟨h'.inv, hframe, h'.sub.trans h.sub, ?_, ?_, ?_⟩
  · intro a ha hna
    by_cases hal : a ∈ l'
    · rw [← h.tasks_eq]
      exact h'.gone a hal hna
    · exact h.gone a ha hal
  · intro n hn
    rw [h'.outside n, h.outside n hn]
    intro hmem
    rcases List.mem_cons.mp hmem with rfl | hmem
    · exact hn List.mem_cons_self
    · obtain ⟨a, ha, rfl⟩ := List.mem_map.mp hmem
      exact hn (List.mem_cons_of_mem _ (List.mem_map_of_mem (hsub a ha)))
  · intro a ha hna
    by_cases hal : a ∈ l'
    · obtain ⟨zs, m, hchain, hzs, hlen, hm⟩ := h'.stale a hal hna
      have hlen' := h.sub.length_le
      exact ⟨zs, m, hchain, fun z hz => ⟨hsub z (hzs z hz).1, (hzs z hz).2⟩, by omega, hm⟩
    · obtain ⟨zs, m, hchain, hzs, hlen, hm⟩ := h.stale a ha hal
      have hlen' := h'.sub.length_le
      have hchain' : List.IsChain (Ring.Follows s''.nodes) ((a :: zs).map TaskNode.task ++ [m]) := by
        apply follows_congr hchain
        intro n hn
        obtain ⟨z, hz, rfl⟩ := List.mem_map.mp hn
        exact hout z (hzs z hz).2
      have hzs' : ∀ z ∈ a :: zs, z ∈ l ∧ z ∉ l'' := fun z hz =>
        ⟨(hzs z hz).1, fun hin => (hzs z hz).2 (h'.sub.subset hin)⟩
      by_cases hm' : m ∈ TaskNode.head :: l''.map TaskNode.task
      · exact ⟨zs, m, hchain', hzs', by omega, hm'⟩
      · -- the end of the chain has been purged in turn: go on from there
        obtain ⟨b, hb, rfl⟩ : ∃ b ∈ l', m = .task b := by
          rcases List.mem_cons.mp hm with rfl | hm
          · exact absurd List.mem_cons_self hm'
          · obtain ⟨b, hb, rfl⟩ := List.mem_map.mp hm
            exact ⟨b, hb, rfl⟩
        have hbl : b ∉ l'' := fun hin =>
          hm' (List.mem_cons_of_mem _ (List.mem_map_of_mem hin))
        obtain ⟨ys, m', hys, hymem, hylen, hm''⟩ := h'.stale b hb hbl
        refine ⟨zs ++ b :: ys, m', ?_, ?_, ?_, hm''⟩
        · have hjoin : ((a :: (zs ++ b :: ys)).map TaskNode.task ++ [m'])
              = (a :: zs).map TaskNode.task ++ TaskNode.task b :: (ys.map TaskNode.task ++ [m']) := by
            simp
          rw [hjoin]
          exact List.isChain_split.mpr ⟨hchain', hys⟩
        · intro z hz
          rw [← List.cons_append, List.mem_append] at hz
          rcases hz with hz | hz
          · exact hzs' z hz
          · exact ⟨hsub z (hymem z hz).1, (hymem z hz).2⟩
        · simp only [List.length_cons, List.length_append] at hlen hylen ⊢
          omega

/-- Unlinking one killed task. -/
theorem purges_unlink (h : ListInv s l) (hf : f ∈ l) (hkilled : (s.tasks f).state = .killed)
    (hid : (s.tasks f).id ≠ 0) :
    Purges s l { s with nodes := clistDeleteNode s.nodes (.task f) } (l.erase f) := by
  have hnd := h.nodup
  have hother : ∀ a ∈ l, a ∉ l.erase f → a = f := by
    intro a ha hna
    by_contra hne
    exact hna ((List.mem_erase_of_ne hne).mpr ha)
  obtain ⟨pre, post, hl⟩ := List.append_of_mem hf
  have hr := h.ring
  rw [hl, List.map_append, List.map_cons] at hr
  refine ⟨h.unlink hf, rfl, List.erase_sublist, ?_, ?_, ?_⟩
  · intro a ha hna
    rw [hother a ha hna]
    exact ⟨hkilled, hid⟩
  · intro n hn
    apply clistDeleteNode_frame hr
    rw [hl, List.map_append, List.map_cons] at hn
    exact hn
  · intro a ha hna
    obtain rfl := hother a ha hna
    -- the words of the unlinked node are left as they were
    have hkept : (clistDeleteNode s.nodes (.task a) (.task a)).next =
        some ((post.map TaskNode.task).headD .head) := by
      rw [(clistDeleteNode_words hr (.task a)).1, hr.neighbours.1, hr.neighbours.2]
      split
      · rfl
      · rfl
    have hlen : (l.erase a).length + 1 = l.length := by
      rw [List.length_erase_of_mem hf]
      have := List.length_pos_of_mem hf
      omega
    refine ⟨[], (post.map TaskNode.task).headD .head, ?_, ?_, ?_, ?_⟩
    · exact List.isChain_cons_cons.mpr ⟨hkept, List.isChain_singleton _⟩
    · intro z hz
      rw [List.mem_singleton.mp hz]
      exact ⟨ha, hna⟩
    · simp only [List.length_cons, List.length_nil]
      omega
    · have hpre : a ∉ pre := by
        rw [hl] at hnd
        exact fun hin => (List.nodup_append.mp hnd).2.2 a hin a (by simp) rfl
      rw [hl, List.erase_append_right _ hpre, List.erase_cons_head]
      cases post <;> simp

/-- A purge, one killed task after the other. -/
theorem PurgeTrace.purges {es : List Event} (h : PurgeTrace s l es s' l') (hinv : ListInv s l) :
    Purges s l s' l' := by
  induction h with
  | done s l es ht => exact Purges.refl hinv
  | purge s l f es es' s' l' ht hf hkilled hid _ ih =>
    have hone := purges_unlink hinv hf hkilled hid
    exact hone.trans (ih hone.inv)

/-- **`task_purge_killed_tasks`**, in any state of the list. -/
theorem taskPurgeKilledTasks_purges (h : ListInv s l) :
    ∃ l', Purges s l (taskPurgeKilledTasks s).1 l' := by
  obtain ⟨l', hp⟩ := taskPurgeKilledTasks_trace h
  exact ⟨l', hp.purges h⟩

/-! ### Selection -/

/-- The state in which `task_schedule` purges: the current task has one more tick. -/
def ticked (s : Sched) : Sched :=
  s.setTask s.current { s.tasks s.current with ticks := inc32 (s.tasks s.current).ticks }

@[simp] theorem ticked_state (s : Sched) (a : ℕ) :
    ((ticked s).tasks a).state = (s.tasks a).state := by
  unfold ticked Sched.setTask
  by_cases ha : a = s.current
  · subst ha
    simp
  · simp [Function.update_of_ne ha]

@[simp] theorem ticked_id (s : Sched) (a : ℕ) : ((ticked s).tasks a).id = (s.tasks a).id := by
  unfold ticked Sched.setTask
  by_cases ha : a = s.current
  · subst ha
    simp
  · simp [Function.update_of_ne ha]

theorem ListInv.ticked (h : ListInv s l) : ListInv (Rotary.ticked s) l :=
  ⟨h.ring, h.length_le, h.sentinel⟩

/-- Where the search goes from the current task, whether it has been purged or not. -/
theorem Purges.search_chain (h : Purges s l s' l') (hcur : s'.current ∈ l) :
    ∃ n ns, (s'.nodes (.task s'.current)).next = some n ∧
      List.IsChain (Ring.Follows s'.nodes) (n :: ns) ∧ ns.length ≤ l.length ∧
      (∀ a ∈ l', TaskNode.task a ∈ n :: ns) ∧
      ∀ a, TaskNode.task a ∈ n :: ns → a ∈ l' ∨ a ∈ l ∧ a ∉ l' := by
  -- a turn of the list, from one of its nodes
  have hturn : ∀ m ∈ TaskNode.head :: l'.map TaskNode.task, ∃ ns,
      List.IsChain (Ring.Follows s'.nodes) (m :: ns) ∧ ns.length = l'.length ∧
      (∀ a ∈ l', TaskNode.task a ∈ m :: ns) ∧ ∀ a, TaskNode.task a ∈ m :: ns → a ∈ l' := by
    intro m hm
    obtain ⟨ns, hchain, hrot⟩ := h.inv.ring.turns hm
    have hlen : (m :: ns).length = (TaskNode.head :: l'.map TaskNode.task).length :=
      hrot.perm.length_eq
    refine ⟨ns, (List.isChain_append.mp hchain).1, by simpa using hlen, ?_, ?_⟩
    · intro a ha
      exact hrot.mem_iff.mpr (List.mem_cons_of_mem _ (List.mem_map_of_mem ha))
    · intro a ha
      have hin := hrot.mem_iff.mp ha
      simpa using hin
  by_cases hcl : s'.current ∈ l'
  · obtain ⟨d, hd, hnext⟩ := h.inv.ring.next_mem
      (List.mem_cons_of_mem _ (List.mem_map_of_mem (f := TaskNode.task) hcl))
    obtain ⟨ns, hchain, hlen, hall, honly⟩ := hturn d hd
    exact ⟨d, ns, hnext, hchain, hlen.trans_le h.sub.length_le, hall,
      fun a ha => Or.inl (honly a ha)⟩
  · obtain ⟨zs, m, hchain, hzs, hlen, hm⟩ := h.stale _ hcur hcl
    obtain ⟨ns, hns, hnslen, hall, honly⟩ := hturn m hm
    have hjoin : List.IsChain (Ring.Follows s'.nodes)
        (TaskNode.task s'.current :: (zs.map TaskNode.task ++ m :: ns)) := by
      have hsplit := List.isChain_split.mpr ⟨hchain, hns⟩
      simpa using hsplit
    have hmem : ∀ a, TaskNode.task a ∈ zs.map TaskNode.task ++ m :: ns →
        a ∈ l' ∨ a ∈ l ∧ a ∉ l' := by
      intro a ha
      rcases List.mem_append.mp ha with ha | ha
      · obtain ⟨z, hz, heq⟩ := List.mem_map.mp ha
        cases heq
        exact Or.inr (hzs a (List.mem_cons_of_mem _ hz))
      · exact Or.inl (honly a ha)
    have hin : ∀ a ∈ l', TaskNode.task a ∈ zs.map TaskNode.task ++ m :: ns := fun a ha =>
      List.mem_append_right _ (hall a ha)
    have hlength : (zs.map TaskNode.task ++ m :: ns).length ≤ l.length := by
      simp only [List.length_append, List.length_map, List.length_cons] at hlen ⊢
      omega
    have hne : zs.map TaskNode.task ++ m :: ns ≠ [] := by simp
    generalize zs.map TaskNode.task ++ m :: ns = path at hjoin hmem hin hlength hne
    cases path with
    | nil => exact absurd rfl hne
    | cons n path =>
      obtain ⟨hnext, hrest⟩ := List.isChain_cons_cons.mp hjoin
      exact ⟨n, path, hnext, hrest, (Nat.le_succ _).trans hlength, hin, hmem⟩

theorem runnable_of_state {t t' : Task} (h : t'.state = t.state) : t'.runnable = t.runnable := by
  unfold Task.runnable
  rw [h]

theorem runnable_iff {t : Task} : t.runnable = true ↔ t.state = .waiting ∨ t.state = .running := by
  simp [Task.runnable]

theorem not_runnable_of_killed {t : Task} (h : t.state = .killed) : t.runnable = false := by
  simp [Task.runnable, h]

theorem taskSelect_eq (s : Sched) : (taskSelect s).1 = (taskPurgeKilledTasks (ticked s)).1 ∧
    (taskSelect s).2.1 = (searchFrom (taskPurgeKilledTasks (ticked s)).1
      ((taskPurgeKilledTasks (ticked s)).1.created + 2)
      (((taskPurgeKilledTasks (ticked s)).1.nodes
        (.task (taskPurgeKilledTasks (ticked s)).1.current)).next.getD .head)).1 :=
  ⟨rfl, rfl⟩

/-- **What `task_schedule` selects**: with a runnable task on the list, the search ends at a
    runnable task that is still on the list after the purge. -/
theorem taskSelect_spec (h : ListInv s l) (hcur : s.current ∈ l)
    (hrun : ∃ a ∈ l, (s.tasks a).runnable = true) :
    ∃ l' next, Purges (ticked s) l (taskSelect s).1 l' ∧ (taskSelect s).1.current = s.current ∧
      (taskSelect s).2.1 = some (.task next) ∧ next ∈ l' ∧ (s.tasks next).runnable = true := by
  obtain ⟨l', hp⟩ := taskPurgeKilledTasks_purges h.ticked
  obtain ⟨hs₁, hfound⟩ := taskSelect_eq s
  rw [hs₁, hfound]
  generalize (taskPurgeKilledTasks (ticked s)).1 = s₁ at hp
  have hcurrent : s₁.current = s.current := by
    rw [hp.frame]
    rfl
  have hstate : ∀ a, (s₁.tasks a).runnable = (s.tasks a).runnable := by
    intro a
    apply runnable_of_state
    rw [hp.tasks_eq, ticked_state]
  have hcreated : l.length ≤ s₁.created := by
    rw [hp.frame]
    exact h.length_le
  obtain ⟨n, ns, hnext, hchain, hlen, hall, honly⟩ := hp.search_chain (hcurrent ▸ hcur)
  -- the runnable task is not killed, so it is on the way
  obtain ⟨a, ha, harun⟩ := hrun
  have hal' : a ∈ l' := by
    by_contra hna
    have hkilled := (hp.gone a ha hna).1
    rw [ticked_state] at hkilled
    rw [not_runnable_of_killed hkilled] at harun
    cases harun
  have hsome : ((n :: ns).find? s₁.runs).isSome = true := by
    rw [List.find?_isSome]
    exact ⟨.task a, hall a hal', (hstate a).trans harun⟩
  obtain ⟨m, hm⟩ := Option.isSome_iff_exists.mp hsome
  have hmruns : s₁.runs m = true := List.find?_some hm
  have hmmem := List.mem_of_find?_eq_some hm
  have hsearch : (searchFrom s₁ (s₁.created + 2) n).1 = some m :=
    searchFrom_chain hchain (by omega) hm
  rw [hnext, Option.getD_some, hsearch]
  cases m with
  | head => exact absurd (hp.inv.sentinel.symm.trans hmruns) (by decide)
  | task next =>
    have hnrun : (s.tasks next).runnable = true := (hstate next).symm.trans hmruns
    refine ⟨l', next, hp, hcurrent, rfl, ?_, hnrun⟩
    rcases honly next hmmem with hin | ⟨hin, hout⟩
    · exact hin
    · have hkilled := (hp.gone next hin hout).1
      rw [ticked_state] at hkilled
      rw [not_runnable_of_killed hkilled] at hnrun
      cases hnrun

/-! ### Switching -/

/-- The states after a switch from `prev` to `next`. -/
theorem switchTo_state (s : Sched) (prev next esp a : ℕ) :
    ((switchTo s prev next esp).tasks a).state =
      if a = next then .running
      else if a = prev ∧ (s.tasks prev).state = .running then .waiting else (s.tasks a).state := by
  unfold switchTo Sched.setTask
  by_cases han : a = next
  · subst han
    by_cases hap : a = prev
    · subst hap
      simp
    · simp [Function.update_of_ne hap]
  · by_cases hap : a = prev
    · subst hap
      by_cases hst : (s.tasks a).state = .running <;> simp [hst, han]
    · by_cases hst : (s.tasks prev).state = .running <;>
        simp [hst, han, hap, Function.update_of_ne]

theorem switchTo_id (s : Sched) (prev next esp a : ℕ) :
    ((switchTo s prev next esp).tasks a).id = (s.tasks a).id := by
  unfold switchTo Sched.setTask
  by_cases han : a = next <;> by_cases hap : a = prev <;>
    by_cases hst : (s.tasks prev).state = .running <;>
    simp_all [Function.update_of_ne]

/-- A switch writes task structs and `current_task`. -/
theorem switchTo_frame (s : Sched) (prev next esp : ℕ) :
    switchTo s prev next esp =
      { s with tasks := (switchTo s prev next esp).tasks, current := next } := by
  unfold switchTo Sched.setTask
  dsimp only
  split
  · rfl
  · rfl

theorem ListInv.switchTo (h : ListInv s l) (prev next esp : ℕ) :
    ListInv (Rotary.switchTo s prev next esp) l := by
  rw [switchTo_frame]
  exact ⟨h.ring, h.length_le, h.sentinel⟩

/-- What a call of `task_schedule` leads to: the list `l` has been purged to `l'`, and the runnable
    task `next` of it runs. -/
structure Scheduled (s : Sched) (l : List ℕ) (s' : Sched) (l' : List ℕ) (next : ℕ) : Prop where
  inv : ListInv s' l'
  sub : l'.Sublist l
  gone : ∀ a ∈ l, a ∉ l' → (s.tasks a).state = .killed ∧ (s.tasks a).id ≠ 0
  current : s'.current = next
  mem : next ∈ l'
  runnable : (s.tasks next).runnable = true
  id : ∀ a, (s'.tasks a).id = (s.tasks a).id
  state : ∀ a, (s'.tasks a).state =
    if a = next then .running
    else if a = s.current ∧ (s.tasks s.current).state = .running then .waiting
    else (s.tasks a).state
  lastTaskId : s'.lastTaskId = s.lastTaskId
  schedEnabled : s'.schedEnabled = s.schedEnabled

/-- A `task_schedule` that returns has switched to the task it found. -/
theorem taskSchedule_eq_some_iff {esp : ℕ} (hen : s.schedEnabled = true) :
    (taskSchedule s esp).1 = some s' ↔ ∃ next, (taskSelect s).2.1 = some (.task next) ∧
      s' = switchTo (taskSelect s).1 (taskSelect s).1.current next esp := by
  unfold taskSchedule
  rw [hen]
  obtain ⟨s₁, found, before⟩ := taskSelect s
  cases found with
  | none => simp
  | some n =>
    cases n with
    | head => simp
    | task next => simp [eq_comm]

/-- The locks are taken before the switch. -/
theorem lock_mem_taskSchedule {esp : ℕ} {k : Lock} : Event.lock k ∈ (taskSchedule s esp).2 ↔
    s.schedEnabled = true ∧ Event.lock k ∈ (taskSelect s).2.2 := by
  unfold taskSchedule
  cases s.schedEnabled with
  | false => simp
  | true =>
    obtain ⟨s₁, found, before⟩ := taskSelect s
    cases found with
    | none => simp
    | some n =>
      cases n with
      | head => simp
      | task next => simp

/-- **One call of `task_schedule`**, in any state with a runnable task on the list. -/
theorem taskSchedule_spec (h : ListInv s l) (hen : s.schedEnabled = true) (hcur : s.current ∈ l)
    (hrun : ∃ a ∈ l, (s.tasks a).runnable = true) (esp : ℕ) :
    ∃ s' l' next, (taskSchedule s esp).1 = some s' ∧ (taskSelect s).2.1 = some (.task next) ∧
      Scheduled s l s' l' next := by
  obtain ⟨l', next, hp, hcurrent, hfound, hmem, hnrun⟩ := taskSelect_spec h hcur hrun
  refine ⟨_, l', next, (taskSchedule_eq_some_iff hen).mpr ⟨next, hfound, rfl⟩, hfound, ?_⟩
  refine ⟨hp.inv.switchTo _ _ _, hp.sub, ?_, ?_, hmem, hnrun, ?_, ?_, ?_, ?_⟩
  · intro a ha hna
    have hgone := hp.gone a ha hna
    rwa [ticked_state, ticked_id] at hgone
  · rw [switchTo_frame]
  · intro a
    rw [switchTo_id, hp.tasks_eq, ticked_id]
  · intro a
    rw [switchTo_state, hcurrent, hp.tasks_eq, ticked_state, ticked_state]
  · rw [switchTo_frame, hp.frame]
    rfl
  · rw [switchTo_frame, hp.frame]
    rfl

end Rotary

import Rotary.Sched.Select

namespace Rotary

open Lib

/-!
# Round robin

The order in which repeated calls of `task_schedule` give the processor to the tasks, when none is
marked as killed.

* `taskPurgeKilledTasks_none` — the purge then changes nothing;
* `taskSchedule_turn` — one call takes the first runnable task on the turn that starts after the
  current task, and the turn that starts after that one is the same turn, rotated;
* `schedules_turn` — as many calls as there are runnable tasks give one turn.
-/

variable {s s₀ s' : Sched} {l : List ℕ} {next : ℕ} {ns : List TaskNode} {ys : List ℕ}

/-- The states after each of some calls of `task_schedule`, one for each stack pointer that
    `task_context_switch` saves. -/
def schedules (s : Sched) : List ℕ → Option (List Sched)
  | [] => some []
  | esp :: esps =>
    match (taskSchedule s esp).1 with
    | none => none
    | some s' => (schedules s' esps).map (s' :: ·)

/-! ### One call -/

theorem purgeFrom_none (h : ListInv s l) (hkilled : ∀ a ∈ l, (s.tasks a).state ≠ .killed)
    (fuel : ℕ) {n : TaskNode} (hn : n ∈ TaskNode.head :: l.map TaskNode.task) :
    (purgeFrom fuel (some n) (nextOf s (some n)) s).1 = s := by
  induction fuel generalizing n with
  | zero => rfl
  | succ fuel ih =>
    cases n with
    | head => rfl
    | task a =>
      have ha : a ∈ l := by simpa using hn
      -- the second cursor stays on the list as well
      obtain ⟨d, hd, hnext⟩ := h.ring.next_mem hn
      have htmp : nextOf s (some (.task a)) = some d := hnext
      rw [htmp, purgeFrom, if_neg (hkilled a ha)]
      exact ih hd

/-- Without a killed task on the list there is nothing to purge. -/
theorem taskPurgeKilledTasks_none (h : ListInv s l)
    (hkilled : ∀ a ∈ l, (s.tasks a).state ≠ .killed) : (taskPurgeKilledTasks s).1 = s := by
  obtain ⟨d, hd, hnext⟩ := h.ring.next_mem List.mem_cons_self
  unfold taskPurgeKilledTasks
  dsimp only
  rw [hnext]
  exact purgeFrom_none h hkilled _ hd

theorem ticked_runs (s : Sched) (n : TaskNode) : (ticked s).runs n = s.runs n := by
  cases n with
  | head => rfl
  | task a => exact runnable_of_state (ticked_state s a)

/-- **One call.**  With the turn `ns` from the current task back to itself, the call switches to the
    first runnable task on it. -/
theorem taskSchedule_turn (h : ListInv s l) (hen : s.schedEnabled = true)
    (hkilled : ∀ a ∈ l, (s.tasks a).state ≠ .killed)
    (hturn : List.IsChain (Ring.Follows s.nodes) (.task s.current :: ns ++ [.task s.current]))
    (hlen : ns.length ≤ l.length)
    (hfirst : (ns ++ [TaskNode.task s.current]).filter s.runs = (next :: ys).map TaskNode.task)
    (esp : ℕ) :
    (taskSchedule s esp).1 = some (switchTo (ticked s) s.current next esp) := by
  have hpurge : (taskPurgeKilledTasks (ticked s)).1 = ticked s :=
    taskPurgeKilledTasks_none h.ticked fun a ha => by
      rw [ticked_state]
      exact hkilled a ha
  obtain ⟨hs₁, hfound⟩ := taskSelect_eq s
  rw [hpurge] at hs₁ hfound
  have hfind : (ns ++ [TaskNode.task s.current]).find? (ticked s).runs = some (.task next) := by
    rw [funext (ticked_runs s), ← List.head?_filter, hfirst]
    rfl
  -- the search starts at the node after the current task
  have hsearch : (taskSelect s).2.1 = some (.task next) := by
    rw [hfound]
    have hcreated : l.length ≤ (ticked s).created := h.length_le
    rw [List.cons_append] at hturn
    generalize hpath : ns ++ [TaskNode.task s.current] = path at hturn hfind
    have hpathlen : path.length = ns.length + 1 := by
      rw [← hpath]
      simp
    cases path with
    | nil => cases hfind
    | cons d path =>
      obtain ⟨hnext, hrest⟩ := List.isChain_cons_cons.mp hturn
      have hword : ((ticked s).nodes (.task (ticked s).current)).next = some d := hnext
      rw [hword]
      rw [List.length_cons] at hpathlen
      exact searchFrom_chain hrest (by omega) hfind
  apply (taskSchedule_eq_some_iff hen).mpr
  refine ⟨next, hsearch, ?_⟩
  rw [hs₁]
  rfl

/-! ### Many calls -/

/-- The state `s` is `s₀` later in a turn: the list is the same, the current task runs, and the one
    that ran in `s₀` waits. -/
structure Turned (s₀ : Sched) (l : List ℕ) (s : Sched) : Prop where
  nodes : s.nodes = s₀.nodes
  created : s.created = s₀.created
  head : s.head = s₀.head
  enabled : s.schedEnabled = true
  mem : s.current ∈ l
  runnable : (s₀.tasks s.current).runnable = true
  state : ∀ a, (s.tasks a).state =
    if a = s.current then .running
    else if a = s₀.current then .waiting else (s₀.tasks a).state

section Turn

variable (h : ListInv s₀ l) (hrunning : (s₀.tasks s₀.current).state = .running)
  (honly : ∀ a ∈ l, (s₀.tasks a).state = .running → a = s₀.current)
  (hkilled : ∀ a ∈ l, (s₀.tasks a).state ≠ .killed)

include hrunning in
theorem Turned.runs (ht : Turned s₀ l s) (n : TaskNode) : s.runs n = s₀.runs n := by
  cases n with
  | head =>
    show s.head.runnable = s₀.head.runnable
    rw [ht.head]
  | task a =>
    show (s.tasks a).runnable = (s₀.tasks a).runnable
    have hstate := ht.state a
    split at hstate
    · rename_i heq
      rw [heq, ht.runnable]
      exact runnable_iff.mpr (Or.inr (heq ▸ hstate))
    · split at hstate
      · rename_i heq
        rw [runnable_iff.mpr (Or.inl hstate), heq]
        exact (runnable_iff.mpr (Or.inr hrunning)).symm
      · exact runnable_of_state hstate

include honly in
theorem Turned.switchTo (ht : Turned s₀ l s) (hnext : next ∈ l)
    (hrun : (s₀.tasks next).runnable = true) (esp : ℕ) :
    Turned s₀ l (Rotary.switchTo (ticked s) s.current next esp) := by
  have hcurrent : (Rotary.switchTo (ticked s) s.current next esp).current = next := by
    rw [switchTo_frame]
  have hran : (s.tasks s.current).state = .running := by
    rw [ht.state, if_pos rfl]
  refine ⟨?_, ?_, ?_, ?_, ?_, ?_, ?_⟩
  · rw [switchTo_frame]
    exact ht.nodes
  · rw [switchTo_frame]
    exact ht.created
  · rw [switchTo_frame]
    exact ht.head
  · rw [switchTo_frame]
    exact ht.enabled
  · rw [hcurrent]
    exact hnext
  · rw [hcurrent]
    exact hrun
  · intro a
    rw [switchTo_state, hcurrent, ticked_state, ticked_state]
    by_cases han : a = next
    · rw [if_pos han, if_pos han]
    · rw [if_neg han, if_neg han]
      by_cases hac : a = s.current
      · -- the task that ran before this call: it waited in `s₀`, or ran there
        rw [if_pos ⟨hac, hran⟩]
        split
        · rfl
        · rename_i hne
          rw [hac]
          rcases runnable_iff.mp ht.runnable with hst | hst
          · exact hst.symm
          · exact absurd (hac.trans (honly _ ht.mem hst)) hne
      · rw [if_neg (fun hand => hac hand.1), ht.state, if_neg hac]

include h hrunning honly hkilled

/-- **Any number of calls**, up to one turn. -/
theorem Turned.schedules (ht : Turned s₀ l s) (esps : List ℕ)
    (hturn : List.IsChain (Ring.Follows s.nodes) (.task s.current :: ns ++ [.task s.current]))
    (hlen : ns.length ≤ l.length) (hys : ∀ a ∈ ys, a ∈ l)
    (horder : (ns ++ [TaskNode.task s.current]).filter s.runs = ys.map TaskNode.task)
    (hcount : esps.length ≤ ys.length) :
    ∃ ss, Rotary.schedules s esps = some ss ∧ ss.map Sched.current = ys.take esps.length ∧
      ∀ s' ∈ ss, Turned s₀ l s' := by
  induction esps generalizing s ns ys with
  | nil => exact ⟨[], rfl, rfl, fun s' hs' => absurd hs' List.not_mem_nil⟩
  | cons esp esps ih =>
    cases ys with
    | nil => simp at hcount
    | cons next ys =>
      have hinv : ListInv s l :=
        ⟨ht.nodes.symm ▸ h.ring, ht.created.symm ▸ h.length_le, ht.head.symm ▸ h.sentinel⟩
      have hnone : ∀ a ∈ l, (s.tasks a).state ≠ .killed := by
        intro a ha
        rw [ht.state]
        split
        · simp
        · split
          · simp
          · exact hkilled a ha
      have hnext : next ∈ l := hys next List.mem_cons_self
      have hruns : s.runs (.task next) = true := by
        have hmem : TaskNode.task next ∈ (ns ++ [TaskNode.task s.current]).filter s.runs := by
          rw [horder]
          exact List.mem_cons_self
        exact (List.mem_filter.mp hmem).2
      have hrun : (s₀.tasks next).runnable = true := by
        have heq := ht.runs hrunning (.task next)
        rw [hruns] at heq
        exact heq.symm
      have hcall := taskSchedule_turn hinv ht.enabled hnone hturn hlen horder esp
      have ht' := ht.switchTo honly hnext hrun esp
      -- the turn goes on from the task that was switched to
      obtain ⟨ns', hturn', horder', hlen'⟩ := Ring.turn_from hturn horder
      have hcurrent : (Rotary.switchTo (ticked s) s.current next esp).current = next := by
        rw [switchTo_frame]
      have hnodes : (Rotary.switchTo (ticked s) s.current next esp).nodes = s.nodes := by
        rw [switchTo_frame]
        rfl
      have hsame : (Rotary.switchTo (ticked s) s.current next esp).runs = s.runs := by
        funext n
        rw [ht'.runs hrunning, ht.runs hrunning]
      have horder'' : (ns' ++ [TaskNode.task next]).filter s.runs =
          (ys ++ [next]).map TaskNode.task := by
        rw [horder', List.map_append]
        rfl
      generalize Rotary.switchTo (ticked s) s.current next esp = s₁ at hcall ht' hcurrent hnodes hsame
      rw [← hnodes, ← hcurrent] at hturn'
      rw [← hsame, ← hcurrent] at horder''
      have hys' : ∀ a ∈ ys ++ [s₁.current], a ∈ l := by
        rw [hcurrent]
        exact fun a ha => hys a (by simpa [or_comm] using ha)
      obtain ⟨ss, hss, hcur, hall⟩ := ih ht' hturn' (hlen'.trans_le hlen) hys' horder''
        (by simp at hcount ⊢; omega)
      refine ⟨s₁ :: ss, ?_, ?_, ?_⟩
      · rw [Rotary.schedules, hcall]
        show (Rotary.schedules s₁ esps).map _ = _
        rw [hss]
        rfl
      · rw [List.map_cons, hcur, hcurrent, List.length_cons, List.take_succ_cons,
          List.take_append_of_le_length (by simpa using hcount)]
      · intro s' hs'
        rcases List.mem_cons.mp hs' with rfl | hs'
        · exact ht'
        · exact hall s' hs'

end Turn

/-- **Round robin.**  As many calls of `task_schedule` as there are runnable tasks, none being
    killed and the current task `c` the only one running, make each of those current once, in the
    order of the list from behind `c` round to `c`.  All along the list stays as it is, and of the
    tasks' states only those of the current task and of `c` differ; at the end they are all as
    before. -/
theorem schedules_turn {c : ℕ} {pre post : List ℕ} (esps : List ℕ)
    (h : ListInv s (pre ++ c :: post))
    (hen : s.schedEnabled = true) (hcur : s.current = c)
    (hrunning : (s.tasks c).state = .running)
    (honly : ∀ a ∈ pre ++ c :: post, (s.tasks a).state = .running → a = c)
    (hkilled : ∀ a ∈ pre ++ c :: post, (s.tasks a).state ≠ .killed)
    (hcount : esps.length = ((pre ++ c :: post).filter fun a => (s.tasks a).runnable).length) :
    ∃ ss, schedules s esps = some ss ∧
      ss.map Sched.current = (post ++ pre ++ [c]).filter (fun a => (s.tasks a).runnable) ∧
      (∀ a ∈ pre ++ c :: post, (s.tasks a).runnable = true → (ss.map Sched.current).count a = 1) ∧
      (∃ s', ss.getLast? = some s' ∧ s'.current = c ∧
        ∀ a, (s'.tasks a).state = (s.tasks a).state) ∧
      ∀ s' ∈ ss, taskList s' = taskList s ∧ ∀ a, (s'.tasks a).state =
        if a = s'.current then .running else if a = c then .waiting else (s.tasks a).state := by
  subst hcur
  have hcrun : (s.tasks s.current).runnable = true := runnable_iff.mpr (Or.inr hrunning)
  have ht : Turned s (pre ++ s.current :: post) s := by
    refine ⟨rfl, rfl, rfl, hen, by simp, hcrun, fun a => ?_⟩
    split
    · rename_i heq
      rw [heq]
      exact hrunning
    · rfl
  have hr := h.ring
  rw [List.map_append, List.map_cons] at hr
  -- the order of the turn is a rotation of the list
  have hperm : (post ++ pre ++ [s.current]).Perm (pre ++ s.current :: post) := by
    rw [List.append_assoc]
    exact List.perm_append_comm.trans (by simp)
  -- the sentinel is passed over, since it is not runnable
  have horder : (post.map TaskNode.task ++ TaskNode.head :: pre.map TaskNode.task ++
      [TaskNode.task s.current]).filter s.runs =
      ((post ++ pre ++ [s.current]).filter fun a => (s.tasks a).runnable).map TaskNode.task := by
    have hhead : s.runs .head = false := h.sentinel
    have hmap : ∀ ys : List ℕ, (ys.map TaskNode.task).filter s.runs =
        (ys.filter fun a => (s.tasks a).runnable).map TaskNode.task := by
      intro ys
      rw [List.filter_map]
      rfl
    rw [List.append_assoc, List.cons_append, List.filter_append, List.filter_cons, hhead]
    rw [← List.map_singleton (f := TaskNode.task), ← List.map_append, hmap, if_neg (by simp), hmap,
      ← List.map_append, ← List.filter_append, List.append_assoc]
  have hlength : esps.length =
      ((post ++ pre ++ [s.current]).filter fun a => (s.tasks a).runnable).length := by
    rw [hcount]
    exact (hperm.symm.filter _).length_eq
  obtain ⟨ss, hss, hcurs, hall⟩ := ht.schedules h hrunning honly hkilled esps hr.whole_turn
    (by simp; omega) (fun a ha => hperm.mem_iff.mp (List.mem_of_mem_filter ha)) horder hlength.le
  rw [hlength, List.take_length] at hcurs
  refine ⟨ss, hss, hcurs, ?_, ?_, ?_⟩
  · intro a ha harun
    rw [hcurs]
    have hnodup : (post ++ pre ++ [s.current]).Nodup := hperm.nodup_iff.mpr h.nodup
    refine List.count_eq_one_of_mem (hnodup.filter _) (List.mem_filter.mpr ⟨?_, harun⟩)
    exact hperm.mem_iff.mpr ha
  · -- the current task is runnable, so the turn ends with it
    have hlast : (ss.map Sched.current).getLast? = some s.current := by
      rw [hcurs, List.filter_append, List.filter_cons, if_pos hcrun]
      simp
    rw [List.getLast?_map] at hlast
    obtain ⟨s', hs', hs'cur⟩ := Option.map_eq_some_iff.mp hlast
    refine ⟨s', hs', hs'cur, fun a => ?_⟩
    rw [(hall s' (List.mem_of_getLast? hs')).state, hs'cur]
    split
    · rename_i heq
      rw [heq]
      exact hrunning.symm
    · rfl
  · intro s' hs'
    have ht' := hall s' hs'
    refine ⟨?_, ht'.state⟩
    unfold taskList
    rw [ht'.nodes, ht'.created]

/-- With the idle task current and a worker before it on the list, two calls. -/
theorem schedules_turn_worker : ∃ ss, schedules idleAndWorker [0, 0] = some ss ∧
    ss.map Sched.current = [10, 1] := by
  have h : ListInv idleAndWorker ([10] ++ 1 :: []) := by
    obtain ⟨l, hl⟩ := taskCreate_inv (taskInit_inv _ _ _ 64 1 2 3 rawTask) workerArgs
      fresh_workerAlloc
    have hlist : taskList idleAndWorker = l := hl.taskList_eq
    rw [show taskList idleAndWorker = [10] ++ 1 :: [] by decide] at hlist
    rw [hlist]
    exact hl.toListInv
  obtain ⟨ss, hss, horder, -⟩ := schedules_turn [0, 0] h rfl rfl (by decide) (by decide)
    (by decide) (by decide)
  refine ⟨ss, hss, horder.trans ?_⟩
  decide

end Rotary

import Rotary.Sched.TaskInv

namespace Rotary

open Lib

/-!
# What the purge leaves

`task_purge_killed_tasks` deletes list nodes and frees structs while it walks the list, and each
removal looks the task up again by its id.  With distinct ids that lookup finds the very task the
loop stands at, so the loop filters the list.

* `purgeFrom_filter` — the loop, from any point of the list;
* `taskPurgeKilledTasks_filter` — the list afterwards, and what has been released.
-/

/-- A task that the purge removes: killed, and not the idle task. -/
def Sched.doomed (s : Sched) (a : ℕ) : Bool := (s.tasks a).state = .killed ∧ (s.tasks a).id ≠ 0

/-- The event gives a resource back. -/
def Event.isRelease : Event → Bool
  | .lock _ => false
  | .touch _ => false
  | .freeStruct _ => true
  | .freeStack _ => true
  | .freePgd _ => true
  | .freeSpace _ => true

/-- What is given back, in order. -/
def released (es : List Event) : List Event := es.filter Event.isRelease

/-- Distinct tasks of the list have distinct ids. -/
def DistinctIds (s : Sched) (l : List ℕ) : Prop :=
  l.Pairwise fun a b => (s.tasks a).id ≠ (s.tasks b).id

variable {s s' : Sched} {l pre rest : List ℕ} {es es' : List Event} {a fuel : ℕ}

theorem released_append (es es' : List Event) : released (es ++ es') = released es ++ released es' :=
  List.filter_append ..

/-- Accesses and locks release nothing. -/
theorem TouchesOnly.released (h : TouchesOnly l es) : released es = [] := by
  apply List.filter_eq_nil_iff.mpr
  intro e he
  rcases h e he with ⟨a, -, rfl⟩ | ⟨k, rfl⟩
  · exact Bool.false_ne_true
  · exact Bool.false_ne_true

/-- The lookup by the id of a task finds that task. -/
theorem DistinctIds.find (h : DistinctIds s (pre ++ a :: rest)) :
    (pre ++ a :: rest).find? (fun b => (s.tasks b).id = (s.tasks a).id) = some a := by
  have hcross := (List.pairwise_append.mp h).2.2
  have hpre : pre.find? (fun b => decide ((s.tasks b).id = (s.tasks a).id)) = none := by
    apply List.find?_eq_none.mpr
    intro b hb
    simpa using hcross b hb a List.mem_cons_self
  rw [List.find?_append, hpre, List.find?_cons_of_pos (by simp)]
  rfl

/-- **`task_purge`** of a killed task that its id finds unlinks and releases it. -/
theorem taskPurge_doomed (h : ListInv s l) (hdoomed : s.doomed a = true)
    (hfind : l.find? (fun b => (s.tasks b).id = (s.tasks a).id) = some a) :
    (taskPurge s (s.tasks a).id).2.1 = { s with nodes := clistDeleteNode s.nodes (.task a) } ∧
      released (taskPurge s (s.tasks a).id).2.2 = released (taskRelease s a) := by
  obtain ⟨hkilled, hid⟩ := of_decide_eq_true hdoomed
  have hal : a ∈ l := List.mem_of_find?_eq_some hfind
  obtain ⟨hlookup, htouch⟩ := taskGetFromId_spec h (s.tasks a).id
  rw [hfind] at hlookup
  obtain ⟨hprev, hnext⟩ := h.neighbours hal
  unfold taskPurge
  rw [if_neg hid]
  generalize taskGetFromId s (s.tasks a).id = r at hlookup htouch
  obtain ⟨found, es⟩ := r
  dsimp only at hlookup htouch ⊢
  rw [hlookup]
  dsimp only
  rw [if_neg (not_not_intro hkilled)]
  refine ⟨rfl, ?_⟩
  -- only the release at the end of the function gives something back
  have hbefore := htouch.append (((hprev.cons hal).lock .task).append hnext)
  rw [released_append, hbefore.released]
  rfl

/-- Any other call of `task_purge` in the loop is refused. -/
theorem taskPurge_idle (s : Sched) : (taskPurge s 0).2 = (s, []) := rfl

/-- The visit of one task by the loop. -/
theorem visit_filter (h : ListInv s (pre ++ a :: rest)) (hids : DistinctIds s (pre ++ a :: rest)) :
    ∃ s' es, (if (s.tasks a).state = .killed then (taskPurge s (s.tasks a).id).2 else (s, []))
        = (s', es) ∧
      ListInv s' (pre ++ [a].filter (fun b => !s.doomed b) ++ rest) ∧
      s' = { s with nodes := s'.nodes } ∧
      released es = ([a].filter s.doomed).flatMap fun b => released (taskRelease s b) := by
  have hsame : pre ++ a :: rest = pre ++ [a] ++ rest := by simp
  by_cases hdoomed : s.doomed a = true
  · have hkilled := (of_decide_eq_true hdoomed).1
    obtain ⟨hstate, hreleased⟩ := taskPurge_doomed h hdoomed hids.find
    refine ⟨_, _, if_pos hkilled, ?_, ?_, ?_⟩
    · have hnot : a ∉ pre := fun hin =>
        (List.nodup_append.mp h.nodup).2.2 a hin a List.mem_cons_self rfl
      have hunlinked := h.unlink (f := a) (by simp)
      rw [List.erase_append_right _ hnot, List.erase_cons_head] at hunlinked
      rw [hstate, List.filter_cons_of_neg (by simp [hdoomed]), List.filter_nil, List.append_nil]
      exact hunlinked
    · rw [hstate]
    · rw [hreleased, List.filter_cons_of_pos hdoomed]
      simp
  · have hnone : (if (s.tasks a).state = .killed then (taskPurge s (s.tasks a).id).2 else (s, []))
        = (s, []) := by
      split
      · -- killed, but the idle task
        rename_i hkilled
        have hid : (s.tasks a).id = 0 := by
          by_contra hne
          exact hdoomed (decide_eq_true ⟨hkilled, hne⟩)
        rw [hid, taskPurge_idle]
      · rfl
    refine ⟨s, [], hnone, ?_, rfl, ?_⟩
    · rw [List.filter_cons_of_pos (by simp [hdoomed]), List.filter_nil, ← hsame]
      exact h
    · rw [List.filter_cons_of_neg hdoomed]
      rfl

/-- **The purge loop**, from any point of the list: with enough turns, whatever their number, it
    filters the tasks it still has to visit. -/
theorem purgeFrom_filter (h : ListInv s (pre ++ rest)) (hids : DistinctIds s (pre ++ rest)) :
    ∃ s' es, (∀ fuel, rest.length < fuel →
        purgeFrom fuel (some ((rest.map TaskNode.task).headD .head))
          (nextOf s (some ((rest.map TaskNode.task).headD .head))) s = (s', es)) ∧
      ListInv s' (pre ++ rest.filter fun b => !s.doomed b) ∧
      s' = { s with nodes := s'.nodes } ∧
      released es = (rest.filter s.doomed).flatMap fun b => released (taskRelease s b) := by
  induction rest generalizing pre s with
  | nil =>
    refine ⟨s, [], fun fuel hfuel => ?_, h, rfl, rfl⟩
    obtain ⟨fuel, rfl⟩ := Nat.exists_eq_succ_of_ne_zero (Nat.ne_zero_of_lt hfuel)
    rfl
  | cons a rest ih =>
    have hnext : nextOf s (some (.task a)) = some ((rest.map TaskNode.task).headD .head) := by
      have hr := h.ring
      rw [List.map_append, List.map_cons] at hr
      exact hr.neighbours.2
    -- the visit leaves what the later ones look at
    obtain ⟨s₁, es₁, hvisit, hinv₁, hframe₁, hreleased₁⟩ := visit_filter h hids
    have htasks : s₁.tasks = s.tasks := by rw [hframe₁]
    have hdoomed : s₁.doomed = s.doomed := by
      funext b
      unfold Sched.doomed
      rw [htasks]
    have hrelease : ∀ b, taskRelease s₁ b = taskRelease s b := by
      intro b
      rw [hframe₁]
      rfl
    have hids₁ : DistinctIds s₁ (pre ++ [a].filter (fun b => !s.doomed b) ++ rest) := by
      unfold DistinctIds
      rw [htasks]
      refine hids.sublist ?_
      have hsame : pre ++ a :: rest = pre ++ [a] ++ rest := by simp
      rw [hsame]
      exact ((List.Sublist.refl pre).append List.filter_sublist).append (List.Sublist.refl rest)
    obtain ⟨s', es, hloop, hinv', hframe', hreleased⟩ := ih hinv₁ hids₁
    have htouched : TouchesOnly (a :: rest)
        (touchNode (some ((rest.map TaskNode.task).headD TaskNode.head))) := by
      refine touchNode_of_mem ?_
      cases rest <;> simp
    refine ⟨s', .touch a :: es₁ ++ touchNode (some ((rest.map TaskNode.task).headD .head)) ++ es,
      fun fuel hfuel => ?_, ?_, ?_, ?_⟩
    · obtain ⟨fuel, rfl⟩ := Nat.exists_eq_succ_of_ne_zero (Nat.ne_zero_of_lt hfuel)
      rw [List.map_cons, List.headD_cons, hnext, purgeFrom, hvisit]
      dsimp only
      rw [hloop fuel (Nat.lt_of_succ_lt_succ hfuel)]
    · rw [hdoomed, List.append_assoc, ← List.filter_append] at hinv'
      exact hinv'
    · rw [hframe', hframe₁]
    · -- a touch releases nothing
      have hfirst : released [Event.touch a] = [] := rfl
      have hcons : Event.touch a :: es₁ = [Event.touch a] ++ es₁ := rfl
      have hsplit : a :: rest = [a] ++ rest := rfl
      rw [released_append, released_append, hcons, released_append, hfirst, htouched.released,
        hreleased₁, hreleased, hdoomed, hsplit, List.filter_append, List.flatMap_append]
      simp only [hrelease, List.nil_append, List.append_nil]

/-- What a purge of the list `l` has to leave: a ring of the tasks that are not doomed, nothing else
    written, and the resources of the others given back, each once.  The loop has come to its end:
    more turns would do nothing more. -/
structure PurgedExactly (s : Sched) (l : List ℕ) (s' : Sched) (es : List Event) : Prop where
  ends : ∀ fuel, s.created < fuel →
    (purgeFrom fuel (s.nodes .head).next (nextOf s (s.nodes .head).next) s).1 = s' ∧
    touchNode (s.nodes .head).next
      ++ (purgeFrom fuel (s.nodes .head).next (nextOf s (s.nodes .head).next) s).2 = es
  inv : ListInv s' (l.filter fun a => !s.doomed a)
  order : taskList s' = l.filter fun a => !s.doomed a
  frame : s' = { s with nodes := s'.nodes }
  releases : released es = (l.filter s.doomed).flatMap fun a => released (taskRelease s a)

/-- **`task_purge_killed_tasks`** on a list with distinct ids removes and releases exactly the
    killed tasks other than the idle task. -/
theorem taskPurgeKilledTasks_filter (h : ListInv s l) (hids : DistinctIds s l) :
    PurgedExactly s l (taskPurgeKilledTasks s).1 (taskPurgeKilledTasks s).2 := by
  have h' : ListInv s ([] ++ l) := h
  obtain ⟨s', es, hloop, hinv, hframe, hreleased⟩ := purgeFrom_filter h' hids
  rw [List.nil_append] at hinv
  rw [← h.ring.next_head] at hloop
  have hpurge : taskPurgeKilledTasks s = (s', touchNode (s.nodes .head).next ++ es) := by
    unfold taskPurgeKilledTasks
    dsimp only
    rw [hloop _ (Nat.lt_succ_of_le h.length_le)]
  have htouched : TouchesOnly l (touchNode (s.nodes .head).next) := by
    rw [h.ring.next_head]
    refine touchNode_of_mem ?_
    cases l <;> simp
  rw [hpurge]
  refine ⟨fun fuel hfuel => ?_, hinv, hinv.taskList_eq, hframe, ?_⟩
  · rw [hloop fuel (h.length_le.trans_lt hfuel)]
    exact ⟨rfl, rfl⟩
  · rw [released_append, htouched.released, hreleased]
    rfl

/-- The idle task and a killed one. -/
theorem taskPurgeKilledTasks_filter_worker :
    PurgedExactly (taskKill idleAndWorker 1).2 (taskList (taskKill idleAndWorker 1).2)
      (taskPurgeKilledTasks (taskKill idleAndWorker 1).2).1
      (taskPurgeKilledTasks (taskKill idleAndWorker 1).2).2 := by
  have hrun : TaskRun CurrentSpared idleOnly (taskKill idleAndWorker 1).2 :=
    (Relation.ReflTransGen.single (TaskStep.create idleOnly workerArgs workerAlloc
      fresh_workerAlloc)).tail (TaskStep.kill idleAndWorker 1)
  obtain ⟨l, hinv⟩ := hrun.inv (taskInit_inv _ _ _ _ _ _ _ _)
  have hlist := hinv.toListInv.taskList_eq
  have hids : DistinctIds (taskKill idleAndWorker 1).2 (taskList (taskKill idleAndWorker 1).2) := by
    unfold DistinctIds
    decide
  rw [hlist] at hids ⊢
  exact taskPurgeKilledTasks_filter hinv.toListInv hids

end Rotary

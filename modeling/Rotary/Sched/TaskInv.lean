import Mathlib.Data.List.Nodup
import Mathlib.Data.Set.Lattice
import Mathlib.Logic.Relation
import Mathlib.Order.CompletePartialOrder
import Mathlib.Order.Interval.Set.Disjoint
import Rotary.Sched.Task

namespace Rotary

open Lib

/-!
# What the scheduler may release

`SchedInv s l` says that the task list is a well-formed ring holding the tasks `l`, that the
current task is one of them, and that releasing one task takes nothing from another.  A
`task_schedule` entered while the current task is not marked as killed keeps the invariant,
releases nothing of the current task, and touches no struct that its purge phase has freed
(`taskSchedule_safe`); `run_schedule_safe` says so of every such call in a run.
-/

/-- No struct is touched after it was freed, the structs `Z` being free at the start. -/
def CleanFrom : Set ℕ → List Event → Prop
  | _, [] => True
  | Z, .lock _ :: es => CleanFrom Z es
  | Z, .touch a :: es => a ∉ Z ∧ CleanFrom Z es
  | Z, .freeStruct a :: es => CleanFrom (insert a Z) es
  | Z, .freeStack _ :: es => CleanFrom Z es
  | Z, .freePgd _ :: es => CleanFrom Z es
  | Z, .freeSpace _ :: es => CleanFrom Z es

/-- The structs freed by a list of events. -/
def freedStructs (es : List Event) : Set ℕ := {a | .freeStruct a ∈ es}

/-- The event gives back something of the task at `c`: its struct, the pages under the bottom of
    its kernel stack, its page directory or its address space. -/
def Releases (s : Sched) (c : ℕ) : Event → Prop
  | .lock _ => False
  | .touch _ => False
  | .freeStruct a => a = c
  | .freeStack start => start < (s.tasks c).kstackBot ∧
      (s.tasks c).kstackBot ≤ start + 2 ^ taskKernelStackOrder * pageSize
  | .freePgd p => ∃ v, (s.tasks c).vmSpace = some v ∧ s.pgd v = p
  | .freeSpace v => (s.tasks c).vmSpace = some v

/-- The task list is a ring that holds the tasks `l`, and its head is not a task to run. -/
structure ListInv (s : Sched) (l : List ℕ) : Prop where
  ring : Ring s.nodes .head (l.map .task)
  length_le : l.length ≤ s.created
  sentinel : s.head.runnable = false

/-- The invariant of the scheduler; see the module header. -/
structure SchedInv (s : Sched) (l : List ℕ) : Prop extends ListInv s l where
  current : s.current ∈ l
  apart : ∀ a ∈ l, ∀ b ∈ l, a ≠ b → (s.tasks a).id ≠ 0 → ∀ e ∈ taskRelease s a, ¬ Releases s b e

/-- The current task is not going to be purged. -/
def CurrentSpared (s : Sched) : Prop :=
  (s.tasks s.current).state ≠ .killed ∨ (s.tasks s.current).id = 0

variable {s s' : Sched} {l l' pre rest : List ℕ} {Z : Set ℕ} {es es' : List Event} {a f fuel : ℕ}

/-! ### Events -/

/-- The events are accesses to structs of `l`, and locks taken. -/
def TouchesOnly (l : List ℕ) (es : List Event) : Prop :=
  ∀ e ∈ es, (∃ a ∈ l, e = .touch a) ∨ ∃ k, e = .lock k

theorem TouchesOnly.append (h : TouchesOnly l es) (h' : TouchesOnly l es') :
    TouchesOnly l (es ++ es') := by
  intro e he
  rcases List.mem_append.mp he with he | he
  · exact h e he
  · exact h' e he

theorem TouchesOnly.cons (ha : a ∈ l) (h : TouchesOnly l es) : TouchesOnly l (.touch a :: es) := by
  intro e he
  rcases List.mem_cons.mp he with rfl | he
  · exact Or.inl ⟨a, ha, rfl⟩
  · exact h e he

theorem TouchesOnly.lock (h : TouchesOnly l es) (k : Lock) : TouchesOnly l (.lock k :: es) := by
  intro e he
  rcases List.mem_cons.mp he with rfl | he
  · exact Or.inr ⟨k, rfl⟩
  · exact h e he

theorem TouchesOnly.mono {l' : List ℕ} (h : TouchesOnly l es) (hsub : ∀ a ∈ l, a ∈ l') :
    TouchesOnly l' es := by
  intro e he
  rcases h e he with ⟨a, ha, rfl⟩ | ⟨k, rfl⟩
  · exact Or.inl ⟨a, hsub a ha, rfl⟩
  · exact Or.inr ⟨k, rfl⟩

theorem touchesOnly_nil (l : List ℕ) : TouchesOnly l [] := fun _ he => absurd he List.not_mem_nil

theorem TouchesOnly.freed (h : TouchesOnly l es) : freedStructs es = ∅ := by
  ext a
  simp only [freedStructs, Set.mem_ofPred_eq, Set.mem_empty_iff_false, iff_false]
  intro ha
  rcases h _ ha with ⟨b, -, heq⟩ | ⟨k, heq⟩
  · cases heq
  · cases heq

theorem TouchesOnly.not_releases (h : TouchesOnly l es) (s : Sched) (c : ℕ) :
    ∀ e ∈ es, ¬ Releases s c e := by
  intro e he
  rcases h e he with ⟨b, -, rfl⟩ | ⟨k, rfl⟩
  · exact fun hr => hr
  · exact fun hr => hr

theorem TouchesOnly.clean (h : TouchesOnly l es) (hZ : ∀ a ∈ l, a ∉ Z) : CleanFrom Z es := by
  induction es with
  | nil => trivial
  | cons e es ih =>
    have hrest : CleanFrom Z es := ih fun e he => h e (List.mem_cons_of_mem _ he)
    rcases h e List.mem_cons_self with ⟨a, ha, rfl⟩ | ⟨k, rfl⟩
    · exact ⟨hZ a ha, hrest⟩
    · exact hrest

theorem freedStructs_append (es es' : List Event) :
    freedStructs (es ++ es') = freedStructs es ∪ freedStructs es' := by
  ext a
  simp [freedStructs]

/-- Clean lists compose, the second starting with what the first has freed. -/
theorem CleanFrom.append (h : CleanFrom Z es) (h' : CleanFrom (Z ∪ freedStructs es) es') :
    CleanFrom Z (es ++ es') := by
  induction es generalizing Z with
  | nil => simpa [freedStructs] using h'
  | cons e es ih =>
    have hother : freedStructs (e :: es) = freedStructs [e] ∪ freedStructs es :=
      freedStructs_append [e] es
    rw [hother, ← Set.union_assoc] at h'
    cases e with
    | lock k => exact ih (Z := Z) h (by simpa [freedStructs] using h')
    | touch b => exact ⟨h.1, ih h.2 (by simpa [freedStructs] using h')⟩
    | freeStruct b =>
      apply ih (Z := insert b Z) h
      have hset : Z ∪ freedStructs [.freeStruct b] = insert b Z := by
        ext x
        simp [freedStructs, or_comm]
      rwa [hset] at h'
    | freeStack v => exact ih (Z := Z) h (by simpa [freedStructs] using h')
    | freePgd v => exact ih (Z := Z) h (by simpa [freedStructs] using h')
    | freeSpace v => exact ih (Z := Z) h (by simpa [freedStructs] using h')

theorem taskRelease_clean (s : Sched) (ha : a ∉ Z) :
    CleanFrom Z (taskRelease s a) ∧ freedStructs (taskRelease s a) = {a} := by
  constructor
  · unfold taskRelease taskDestroyVmSpace taskDestroyKernelStack
    split <;> split <;> simp [CleanFrom, ha]
  · ext b
    unfold taskRelease taskDestroyVmSpace taskDestroyKernelStack
    split <;> split <;> simp [freedStructs]

/-- What releasing a task does. -/
theorem mem_taskRelease {e : Event} (he : e ∈ taskRelease s a) :
    e = .touch a ∨ e = .lock .buddy ∨ e = .freeStruct a ∨
      e = .freeStack ((s.tasks a).kstackBot - (s.tasks a).kstackSize) ∨
      ∃ v, (s.tasks a).vmSpace = some v ∧ (e = .freePgd (s.pgd v) ∨ e = .freeSpace v) := by
  unfold taskRelease at he
  rcases List.mem_append.mp he with he | he
  · rcases List.mem_append.mp he with he | he
    · unfold taskDestroyVmSpace at he
      cases hv : (s.tasks a).vmSpace with
      | none =>
        rw [hv] at he
        exact Or.inl (List.mem_singleton.mp he)
      | some v =>
        rw [hv] at he
        simp only [List.mem_cons, List.not_mem_nil, or_false] at he
        rcases he with he | he | he | he
        · exact Or.inl he
        · exact Or.inr (Or.inl he)
        · exact Or.inr (Or.inr (Or.inr (Or.inr ⟨v, rfl, Or.inl he⟩)))
        · exact Or.inr (Or.inr (Or.inr (Or.inr ⟨v, rfl, Or.inr he⟩)))
    · unfold taskDestroyKernelStack at he
      split at he
      · exact Or.inl (List.mem_singleton.mp he)
      · simp only [List.mem_cons, List.not_mem_nil, or_false] at he
        rcases he with he | he | he
        · exact Or.inl he
        · exact Or.inr (Or.inl he)
        · exact Or.inr (Or.inr (Or.inr (Or.inl he)))
  · exact Or.inr (Or.inr (Or.inl (List.mem_singleton.mp he)))

/-! ### Lookup -/

/-- The walk of `task_get_from_id` from a point of the ring. -/
theorem findFrom_spec (id fuel : ℕ) (hr : Ring s.nodes .head ((pre ++ rest).map TaskNode.task))
    (hfuel : rest.length < fuel) :
    (findFrom s id fuel (some ((rest.map TaskNode.task).headD .head))).1
        = rest.find? (fun a => (s.tasks a).id = id) ∧
      TouchesOnly rest (findFrom s id fuel (some ((rest.map TaskNode.task).headD .head))).2 := by
  induction rest generalizing pre fuel with
  | nil =>
    cases fuel with
    | zero => exact absurd hfuel (Nat.not_lt_zero _)
    | succ fuel => exact ⟨rfl, touchesOnly_nil _⟩
  | cons a rest ih =>
    cases fuel with
    | zero => exact absurd hfuel (Nat.not_lt_zero _)
    | succ fuel =>
      have hnext : (s.nodes (.task a)).next = some ((rest.map TaskNode.task).headD .head) := by
        rw [List.map_append, List.map_cons] at hr
        exact hr.neighbours.2
      have hstep : pre ++ a :: rest = (pre ++ [a]) ++ rest := by simp
      rw [hstep] at hr
      obtain ⟨ih1, ih2⟩ := ih fuel hr (Nat.lt_of_succ_lt_succ hfuel)
      show (findFrom s id (fuel + 1) (some (.task a))).1 = _ ∧ _
      rw [List.map_cons, List.headD_cons, findFrom]
      by_cases hid : (s.tasks a).id = id
      · rw [if_pos hid, List.find?_cons_of_pos (by simpa using hid)]
        exact ⟨rfl, (touchesOnly_nil _).cons List.mem_cons_self⟩
      · rw [if_neg hid, List.find?_cons_of_neg (by simpa using hid), hnext]
        refine ⟨ih1, TouchesOnly.cons List.mem_cons_self ?_⟩
        exact ih2.mono fun b hb => List.mem_cons_of_mem a hb

/-- **`task_get_from_id`** returns the first task of the list with the id. -/
theorem taskGetFromId_spec (h : ListInv s l) (id : ℕ) :
    (taskGetFromId s id).1 = l.find? (fun a => (s.tasks a).id = id) ∧
      TouchesOnly l (taskGetFromId s id).2 := by
  have hr : Ring s.nodes .head (([] ++ l).map TaskNode.task) := h.ring
  have hspec := findFrom_spec id (s.created + 1) hr (Nat.lt_succ_of_le h.length_le)
  rw [← h.ring.next_head] at hspec
  exact ⟨hspec.1, hspec.2.lock .task⟩

/-! ### Purging -/

theorem ListInv.nodup (h : ListInv s l) : l.Nodup := List.Nodup.of_map _ h.ring.nodup_tail

/-- The struct behind a node of the ring belongs to a task of the list. -/
theorem touchNode_of_mem {n : TaskNode} (hn : n ∈ TaskNode.head :: l.map TaskNode.task) :
    TouchesOnly l (touchNode (some n)) := by
  rcases List.mem_cons.mp hn with rfl | hn
  · exact touchesOnly_nil l
  · obtain ⟨a, ha, rfl⟩ := List.mem_map.mp hn
    exact (touchesOnly_nil l).cons ha

theorem ListInv.neighbours (h : ListInv s l) (ha : a ∈ l) :
    TouchesOnly l (touchNode (s.nodes (.task a)).prev) ∧
      TouchesOnly l (touchNode (s.nodes (.task a)).next) := by
  obtain ⟨pre, post, rfl⟩ := List.append_of_mem ha
  have hr := h.ring
  rw [List.map_append, List.map_cons] at hr
  obtain ⟨hprev, hnext⟩ := hr.neighbours
  rw [hprev, hnext]
  constructor
  · apply touchNode_of_mem
    rw [List.getLastD_eq_getLast?]
    cases hlast : (pre.map TaskNode.task).getLast? with
    | none => exact List.mem_cons_self
    | some n =>
      have hmem := List.mem_of_getLast? hlast
      simp only [Option.getD_some, List.mem_cons, List.map_append, List.mem_append]
      exact Or.inr (Or.inl hmem)
  · apply touchNode_of_mem
    cases post <;> simp

/-- Unlinking a task. -/
theorem ListInv.unlink (h : ListInv s l) (hf : f ∈ l) :
    ListInv { s with nodes := clistDeleteNode s.nodes (.task f) } (l.erase f) := by
  obtain ⟨pre, post, rfl⟩ := List.append_of_mem hf
  have hnd := h.nodup
  have hpre : f ∉ pre := fun hin => (List.nodup_append.mp hnd).2.2 f hin f (by simp) rfl
  have herase : (pre ++ f :: post).erase f = pre ++ post := by
    rw [List.erase_append_right _ hpre, List.erase_cons_head]
  have hr := h.ring
  rw [List.map_append, List.map_cons] at hr
  rw [herase]
  refine ⟨?_, ?_, h.sentinel⟩
  · rw [List.map_append]
    exact clistDeleteNode_ring hr
  · have hlen := h.length_le
    simp only [List.length_append, List.length_cons] at hlen ⊢
    omega

/-- Unlinking a task that is not the current one. -/
theorem SchedInv.unlink (h : SchedInv s l) (hf : f ∈ l) (hcur : s.current ≠ f) :
    SchedInv { s with nodes := clistDeleteNode s.nodes (.task f) } (l.erase f) := by
  refine ⟨h.toListInv.unlink hf, ?_, ?_⟩
  · exact (List.mem_erase_of_ne hcur).mpr h.current
  · exact fun a ha b hb => h.apart a (List.mem_of_mem_erase ha) b (List.mem_of_mem_erase hb)

/-- **`task_purge`** changes nothing, or unlinks and releases the first task with the id. -/
theorem taskPurge_spec (h : ListInv s l) (id : ℕ) :
    ((taskPurge s id).2.1 = s ∧ TouchesOnly l (taskPurge s id).2.2) ∨
    ∃ f es, l.find? (fun a => (s.tasks a).id = id) = some f ∧ id ≠ 0 ∧
      (s.tasks f).state = .killed ∧ TouchesOnly l es ∧
      (taskPurge s id).2 =
        ({ s with nodes := clistDeleteNode s.nodes (.task f) }, es ++ taskRelease s f) := by
  obtain ⟨hfind, htouch⟩ := taskGetFromId_spec h id
  unfold taskPurge
  split
  · exact Or.inl ⟨rfl, touchesOnly_nil l⟩
  · rename_i hid
    generalize taskGetFromId s id = r at hfind htouch
    obtain ⟨found, es⟩ := r
    dsimp only at hfind htouch ⊢
    cases found with
    | none => exact Or.inl ⟨rfl, htouch⟩
    | some f =>
      have hf : f ∈ l := List.mem_of_find?_eq_some hfind.symm
      dsimp only
      split
      · exact Or.inl ⟨rfl, htouch.append ((touchesOnly_nil l).cons hf)⟩
      · rename_i hst
        obtain ⟨hprev, hnext⟩ := h.neighbours hf
        exact Or.inr ⟨f, _, hfind.symm, hid, by simpa using hst,
          htouch.append (((hprev.cons hf).lock .task).append hnext), rfl⟩

/-! ### The purge -/

/-- What a purge does, from the list `l` to the list `l'`: it accesses tasks of the list, and now
    and then unlinks and releases a killed one. -/
inductive PurgeTrace : Sched → List ℕ → List Event → Sched → List ℕ → Prop
  | done (s : Sched) (l : List ℕ) (es : List Event) (ht : TouchesOnly l es) : PurgeTrace s l es s l
  | purge (s : Sched) (l : List ℕ) (f : ℕ) (es es' : List Event) (s' : Sched) (l' : List ℕ)
      (ht : TouchesOnly l es) (hf : f ∈ l) (hkilled : (s.tasks f).state = .killed)
      (hid : (s.tasks f).id ≠ 0)
      (hrest : PurgeTrace { s with nodes := clistDeleteNode s.nodes (.task f) } (l.erase f) es' s' l') :
      PurgeTrace s l (es ++ taskRelease s f ++ es') s' l'

theorem PurgeTrace.inv (h : PurgeTrace s l es s' l') (hinv : ListInv s l) : ListInv s' l' := by
  induction h with
  | done s l es ht => exact hinv
  | purge s l f es es' s' l' ht hf hkilled hid _ ih => exact ih (hinv.unlink hf)

theorem PurgeTrace.trans {s'' : Sched} {l'' : List ℕ} (h : PurgeTrace s l es s' l')
    (h' : PurgeTrace s' l' es' s'' l'') : PurgeTrace s l (es ++ es') s'' l'' := by
  induction h with
  | done s l es ht =>
    cases h' with
    | done _ _ es' ht' => exact .done _ _ _ (ht.append ht')
    | purge _ _ f es₁ es₂ _ _ ht₁ hf hkilled hid hrest =>
      have hsame : es ++ (es₁ ++ taskRelease s f ++ es₂) = (es ++ es₁) ++ taskRelease s f ++ es₂ := by
        simp only [List.append_assoc]
      rw [hsame]
      exact .purge s l f _ es₂ _ _ (ht.append ht₁) hf hkilled hid hrest
  | purge s l f es es₁ s' l' ht hf hkilled hid _ ih =>
    rw [List.append_assoc]
    exact .purge s l f es _ _ _ ht hf hkilled hid (ih h')

/-- Visiting one task, which may purge it or an earlier one, leaves the tasks behind it alone. -/
theorem purgeOne_trace (h : ListInv s (pre ++ a :: rest)) :
    ∃ pre', PurgeTrace s (pre ++ a :: rest) (taskPurge s (s.tasks a).id).2.2
      (taskPurge s (s.tasks a).id).2.1 (pre' ++ rest) := by
  have hsame : pre ++ a :: rest = (pre ++ [a]) ++ rest := by simp
  rcases taskPurge_spec h (s.tasks a).id with ⟨hst, ht⟩ | ⟨f, es, hfind, hid, hkilled, ht, heq⟩
  · rw [hst]
    rw [hsame] at ht ⊢
    exact ⟨pre ++ [a], .done _ _ _ ht⟩
  · have hfl : f ∈ pre ++ a :: rest := List.mem_of_find?_eq_some hfind
    have hfid : (s.tasks f).id = (s.tasks a).id := by
      simpa using List.find?_some hfind
    -- the first task with the id of `a` stands no later than `a`
    have hfpre : f ∈ pre ++ [a] := by
      rw [List.find?_append, List.find?_cons_of_pos (by simp)] at hfind
      rcases Option.or_eq_some_iff.mp hfind with hpre | ⟨-, heq⟩
      · exact List.mem_append_left _ (List.mem_of_find?_eq_some hpre)
      · cases heq
        simp
    have herase : (pre ++ a :: rest).erase f = (pre ++ [a]).erase f ++ rest := by
      rw [hsame, List.erase_append_left _ hfpre]
    rw [heq]
    refine ⟨(pre ++ [a]).erase f, ?_⟩
    have hone := PurgeTrace.purge s _ f es [] _ _ ht hfl hkilled (hfid ▸ hid)
      (.done _ _ [] (touchesOnly_nil _))
    rwa [List.append_nil, herase] at hone

/-- **The purge loop**, from any point of the list. -/
theorem purgeFrom_trace (fuel : ℕ) (h : ListInv s (pre ++ rest)) (hfuel : rest.length < fuel) :
    ∃ l', PurgeTrace s (pre ++ rest)
      (purgeFrom fuel (some ((rest.map TaskNode.task).headD .head))
        (nextOf s (some ((rest.map TaskNode.task).headD .head))) s).2
      (purgeFrom fuel (some ((rest.map TaskNode.task).headD .head))
        (nextOf s (some ((rest.map TaskNode.task).headD .head))) s).1 l' := by
  induction rest generalizing pre s fuel with
  | nil =>
    obtain ⟨fuel, rfl⟩ : ∃ k, fuel = k + 1 := Nat.exists_eq_succ_of_ne_zero (by omega)
    exact ⟨pre ++ [], .done _ _ _ (touchesOnly_nil _)⟩
  | cons a rest ih =>
    obtain ⟨fuel, rfl⟩ : ∃ k, fuel = k + 1 := Nat.exists_eq_succ_of_ne_zero (by omega)
    have hnext : nextOf s (some (.task a)) = some ((rest.map TaskNode.task).headD .head) := by
      have hr := h.ring
      rw [List.map_append, List.map_cons] at hr
      exact hr.neighbours.2
    have hal : a ∈ pre ++ a :: rest := by simp
    -- the visit of `a`, which may purge it
    have hvisit : ∃ pre', PurgeTrace s (pre ++ a :: rest)
        (if (s.tasks a).state = .killed then (taskPurge s (s.tasks a).id).2 else (s, [])).2
        (if (s.tasks a).state = .killed then (taskPurge s (s.tasks a).id).2 else (s, [])).1
        (pre' ++ rest) := by
      split
      · exact purgeOne_trace h
      · have hsame : pre ++ a :: rest = (pre ++ [a]) ++ rest := by simp
        rw [hsame]
        exact ⟨pre ++ [a], .done _ _ _ (touchesOnly_nil _)⟩
    rw [List.map_cons, List.headD_cons, hnext, purgeFrom]
    generalize (if (s.tasks a).state = .killed then (taskPurge s (s.tasks a).id).2 else (s, []))
      = r at hvisit
    obtain ⟨s₁, es₁⟩ := r
    obtain ⟨pre', hp⟩ := hvisit
    dsimp only at hp ⊢
    obtain ⟨l', hrest⟩ := ih fuel (hp.inv h) (Nat.lt_of_succ_lt_succ hfuel)
    have hfirst : PurgeTrace s (pre ++ a :: rest) [.touch a] s (pre ++ a :: rest) :=
      .done _ _ _ ((touchesOnly_nil _).cons hal)
    have hmid : PurgeTrace s₁ (pre' ++ rest)
        (touchNode (some ((rest.map TaskNode.task).headD TaskNode.head))) s₁ (pre' ++ rest) := by
      refine .done _ _ _ (touchNode_of_mem ?_)
      cases rest <;> simp
    have hall := ((hfirst.trans hp).trans hmid).trans hrest
    exact ⟨l', hall⟩

/-- **`task_purge_killed_tasks`**, in any state of the list. -/
theorem taskPurgeKilledTasks_trace (h : ListInv s l) :
    ∃ l', PurgeTrace s l (taskPurgeKilledTasks s).2 (taskPurgeKilledTasks s).1 l' := by
  have h' : ListInv s ([] ++ l) := h
  obtain ⟨l', hp⟩ := purgeFrom_trace (s.created + 1) h' (Nat.lt_succ_of_le h.length_le)
  have ht : TouchesOnly l (touchNode (some ((l.map TaskNode.task).headD .head))) := by
    apply touchNode_of_mem
    cases l <;> simp
  have hfirst : PurgeTrace s l (touchNode (some ((l.map TaskNode.task).headD .head))) s l :=
    .done _ _ _ ht
  refine ⟨l', ?_⟩
  unfold taskPurgeKilledTasks
  dsimp only
  rw [h.ring.next_head]
  exact hfirst.trans hp

/-- What a phase of the scheduler does: only list nodes change, the tasks left are none of the
    freed ones, and the current task loses nothing. -/
structure PhaseSafe (s : Sched) (l : List ℕ) (Z : Set ℕ) (s' : Sched) (es : List Event) : Prop where
  inv : SchedInv s' l
  frame : s' = { s with nodes := s'.nodes }
  clean : CleanFrom Z es
  left : ∀ a ∈ l, a ∉ Z ∪ freedStructs es
  spares : ∀ e ∈ es, ¬ Releases s s.current e

theorem PhaseSafe.refl (h : SchedInv s l) (hZ : ∀ a ∈ l, a ∉ Z) (ht : TouchesOnly l es) :
    PhaseSafe s l Z s es :=
  ⟨h, rfl, ht.clean hZ, by rw [ht.freed, Set.union_empty]; exact hZ, ht.not_releases s s.current⟩

theorem PhaseSafe.trans {s'' : Sched} (h : PhaseSafe s l Z s' es)
    (h' : PhaseSafe s' l' (Z ∪ freedStructs es) s'' es') : PhaseSafe s l' Z s'' (es ++ es') := by
  have hframe : s'' = { s with nodes := s''.nodes } := by
    rw [h'.frame, h.frame]
  refine ⟨h'.inv, hframe, h.clean.append h'.clean, ?_, ?_⟩
  · rw [freedStructs_append, ← Set.union_assoc]
    exact h'.left
  · intro e he
    rcases List.mem_append.mp he with he | he
    · exact h.spares e he
    · have hspares := h'.spares e he
      rw [h.frame] at hspares
      exact hspares

/-- Unlinking and releasing one killed task that is not the current one. -/
theorem phaseSafe_release (h : SchedInv s l) (hne : s.current ≠ f) (hf : f ∈ l)
    (hid : (s.tasks f).id ≠ 0) (hZ : ∀ b ∈ l, b ∉ Z) :
    PhaseSafe s (l.erase f) Z { s with nodes := clistDeleteNode s.nodes (.task f) }
      (taskRelease s f) := by
  have hnd := h.nodup
  obtain ⟨hclean, hfreed⟩ := taskRelease_clean (Z := Z) s (hZ f hf)
  refine ⟨h.unlink hf hne, rfl, hclean, ?_, ?_⟩
  · intro b hb
    rw [hfreed]
    rintro (hin | rfl)
    · exact hZ b (List.mem_of_mem_erase hb) hin
    · exact hnd.not_mem_erase hb
  · exact h.apart f hf s.current h.current hne.symm hid

theorem CurrentSpared.frame (h : CurrentSpared s) (hs : s' = { s with nodes := s'.nodes }) :
    CurrentSpared s' := by
  rw [hs]
  exact h

/-- A purge with a current task that is spared. -/
theorem PurgeTrace.safe (h : PurgeTrace s l es s' l') (hinv : SchedInv s l) (hcur : CurrentSpared s)
    (hZ : ∀ a ∈ l, a ∉ Z) : PhaseSafe s l' Z s' es := by
  induction h generalizing Z with
  | done s l es ht => exact PhaseSafe.refl hinv hZ ht
  | purge s l f es es' s' l' ht hf hkilled hid _ ih =>
    have hne : s.current ≠ f := by
      rintro rfl
      rcases hcur with hnk | hzero
      · exact hnk hkilled
      · exact hid hzero
    have hfirst := PhaseSafe.refl hinv hZ ht
    have hrelease := phaseSafe_release hinv hne hf hid hfirst.left
    have hone := hfirst.trans hrelease
    have hrest := ih hone.inv (hcur.frame hone.frame) hone.left
    exact hone.trans hrest

/-- **`task_purge_killed_tasks`** with a current task that is spared. -/
theorem taskPurgeKilledTasks_safe (h : SchedInv s l) (hcur : CurrentSpared s) :
    ∃ l', PhaseSafe s l' ∅ (taskPurgeKilledTasks s).1 (taskPurgeKilledTasks s).2 := by
  obtain ⟨l', hp⟩ := taskPurgeKilledTasks_trace h.toListInv
  exact ⟨l', hp.safe h hcur fun a _ => Set.notMem_empty a⟩

/-! ### Updates that keep what a task owns -/

/-- The two structs have the same id and own the same resources. -/
structure SameOwner (t t' : Task) : Prop where
  id : t'.id = t.id
  kstackBot : t'.kstackBot = t.kstackBot
  kstackSize : t'.kstackSize = t.kstackSize
  vmSpace : t'.vmSpace = t.vmSpace

theorem setTask_sameOwner {t : Task} (ht : SameOwner (s.tasks a) t) (b : ℕ) :
    SameOwner (s.tasks b) ((s.setTask a t).tasks b) := by
  unfold Sched.setTask
  by_cases hb : b = a
  · subst hb
    simpa using ht
  · simp only [Function.update_of_ne hb]
    exact ⟨rfl, rfl, rfl, rfl⟩

theorem taskRelease_sameOwner (hpgd : s'.pgd = s.pgd) (ht : SameOwner (s.tasks a) (s'.tasks a)) :
    taskRelease s' a = taskRelease s a := by
  unfold taskRelease taskDestroyVmSpace taskDestroyKernelStack
  rw [ht.vmSpace, ht.kstackBot, ht.kstackSize, hpgd]

theorem releases_sameOwner {c : ℕ} {e : Event} (hpgd : s'.pgd = s.pgd)
    (ht : SameOwner (s.tasks c) (s'.tasks c)) : Releases s' c e ↔ Releases s c e := by
  cases e <;> simp only [Releases, ht.vmSpace, ht.kstackBot, hpgd]

/-- The invariant depends on the list, the current task and what the tasks own. -/
theorem SchedInv.congr (h : SchedInv s l) (hnodes : s'.nodes = s.nodes)
    (hcreated : s'.created = s.created) (hhead : s'.head = s.head) (hcur : s'.current ∈ l)
    (hpgd : s'.pgd = s.pgd) (ht : ∀ a, SameOwner (s.tasks a) (s'.tasks a)) : SchedInv s' l := by
  refine ⟨⟨hnodes ▸ h.ring, hcreated ▸ h.length_le, hhead ▸ h.sentinel⟩, hcur,
    fun a ha b hb hab hid e he => ?_⟩
  rw [taskRelease_sameOwner hpgd (ht a)] at he
  rw [releases_sameOwner hpgd (ht b)]
  exact h.apart a ha b hb hab ((ht a).id ▸ hid) e he

theorem SchedInv.setTask (h : SchedInv s l) {t : Task} (ht : SameOwner (s.tasks a) t) :
    SchedInv (s.setTask a t) l :=
  h.congr rfl rfl rfl h.current rfl (setTask_sameOwner ht)

/-! ### Scheduling -/

/-- The list `l` is closed under `next`, also while a `clist_add` is under way. -/
def NextClosed (s : Sched) (l : List ℕ) : Prop :=
  ∀ n ∈ TaskNode.head :: l.map TaskNode.task,
    ∃ m ∈ TaskNode.head :: l.map TaskNode.task, (s.nodes n).next = some m

theorem ListInv.nextClosed (h : ListInv s l) : NextClosed s l := fun _ hn => h.ring.next_mem hn

theorem NextClosed.getD_mem (h : NextClosed s l) {n : TaskNode}
    (hn : n ∈ TaskNode.head :: l.map TaskNode.task) :
    (s.nodes n).next.getD .head ∈ TaskNode.head :: l.map TaskNode.task := by
  obtain ⟨m, hm, hnext⟩ := h n hn
  rw [hnext]
  exact hm

/-- The search stays on a closed list: it meets tasks of the list only, and what it finds is a
    runnable node of it. -/
theorem searchFrom_closed (h : NextClosed s l) (fuel : ℕ) {n : TaskNode}
    (hn : n ∈ TaskNode.head :: l.map TaskNode.task) :
    TouchesOnly l (searchFrom s fuel n).2 ∧ ∀ m, (searchFrom s fuel n).1 = some m →
      m ∈ TaskNode.head :: l.map TaskNode.task ∧ (s.taskAt m).runnable = true := by
  induction fuel generalizing n with
  | zero => exact ⟨touchesOnly_nil l, fun m hm => by cases hm⟩
  | succ fuel ih =>
    rw [searchFrom]
    split
    · rename_i hrun
      refine ⟨touchNode_of_mem hn, fun m hm => ?_⟩
      cases hm
      exact ⟨hn, hrun⟩
    · obtain ⟨htouch, hfound⟩ := ih (h.getD_mem hn)
      exact ⟨(touchNode_of_mem hn).append htouch, hfound⟩

/-- The search visits tasks of the list only, and finds one of them. -/
theorem searchFrom_spec (fuel : ℕ) (h : ListInv s l) {n : TaskNode}
    (hn : n ∈ TaskNode.head :: l.map TaskNode.task) :
    TouchesOnly l (searchFrom s fuel n).2 ∧
      ∀ m, (searchFrom s fuel n).1 = some m → ∃ next ∈ l, m = .task next := by
  obtain ⟨htouch, hfound⟩ := searchFrom_closed h.nextClosed fuel hn
  refine ⟨htouch, fun m hm => ?_⟩
  obtain ⟨hmem, hrun⟩ := hfound m hm
  -- the head of the list is never runnable
  cases m with
  | head => exact absurd (h.sentinel.symm.trans hrun) (by decide)
  | task a => exact ⟨a, by simpa using hmem, rfl⟩

/-- Switching changes states and saved stack pointers only. -/
theorem SchedInv.switchTo (h : SchedInv s l) (prev : ℕ) {next : ℕ} (hn : next ∈ l) (esp : ℕ) :
    SchedInv (Rotary.switchTo s prev next esp) l := by
  have hcur : SchedInv { s with current := next } l :=
    h.congr rfl rfl rfl hn rfl fun a => ⟨rfl, rfl, rfl, rfl⟩
  have hprev : SchedInv (if (s.tasks prev).state = .running
      then Sched.setTask { s with current := next } prev { s.tasks prev with state := .waiting }
      else { s with current := next }) l := by
    split
    · exact hcur.setTask ⟨rfl, rfl, rfl, rfl⟩
    · exact hcur
  unfold Rotary.switchTo
  dsimp only
  generalize (if (s.tasks prev).state = .running
    then Sched.setTask { s with current := next } prev { s.tasks prev with state := .waiting }
    else { s with current := next }) = s₁ at hprev ⊢
  have hnext : SchedInv (s₁.setTask next { s₁.tasks next with state := .running }) l :=
    hprev.setTask ⟨rfl, rfl, rfl, rfl⟩
  exact hnext.setTask ⟨rfl, rfl, rfl, rfl⟩

/-- What a call of `task_schedule` must not do. -/
def ScheduleSafe (s : Sched) (esp : ℕ) : Prop :=
  CleanFrom ∅ (taskSchedule s esp).2 ∧ ∀ e ∈ (taskSchedule s esp).2, ¬ Releases s s.current e

/-- What `task_schedule` has done when it has found the next task. -/
structure SelectSafe (s : Sched) (l : List ℕ) (s₁ : Sched) (found : Option TaskNode)
    (es : List Event) : Prop where
  inv : SchedInv s₁ l
  clean : CleanFrom ∅ es
  left : ∀ a ∈ l, a ∉ ∅ ∪ freedStructs es
  spares : ∀ e ∈ es, ¬ Releases s s.current e
  found : ∀ m, found = some m → ∃ next ∈ l, m = .task next

/-- **The first part of `task_schedule`**, entered with a current task that is spared. -/
theorem taskSelect_safe (h : SchedInv s l) (hcur : CurrentSpared s) :
    ∃ l', SelectSafe s l' (taskSelect s).1 (taskSelect s).2.1 (taskSelect s).2.2 := by
  unfold taskSelect
  dsimp only
  -- counting the tick changes nothing that matters
  have hticks : SameOwner (s.tasks s.current)
      { s.tasks s.current with ticks := inc32 (s.tasks s.current).ticks } := ⟨rfl, rfl, rfl, rfl⟩
  have h₀ := h.setTask hticks
  have hcur₀ : CurrentSpared (s.setTask s.current
      { s.tasks s.current with ticks := inc32 (s.tasks s.current).ticks }) := by
    unfold CurrentSpared Sched.setTask at *
    simpa using hcur
  have hrel : ∀ e, Releases (s.setTask s.current
      { s.tasks s.current with ticks := inc32 (s.tasks s.current).ticks }) s.current e ↔
      Releases s s.current e := fun e => releases_sameOwner rfl (setTask_sameOwner hticks _)
  have hcurrent : (s.setTask s.current
      { s.tasks s.current with ticks := inc32 (s.tasks s.current).ticks }).current = s.current := rfl
  generalize s.setTask s.current
      { s.tasks s.current with ticks := inc32 (s.tasks s.current).ticks } = s₀ at *
  obtain ⟨l', hp⟩ := taskPurgeKilledTasks_safe h₀ hcur₀
  generalize taskPurgeKilledTasks s₀ = r at hp
  obtain ⟨s₁, purged⟩ := r
  dsimp only at hp ⊢
  have hprev : s₁.current ∈ l' := hp.inv.current
  obtain ⟨d, hd, hnext⟩ := hp.inv.ring.next_mem
    (List.mem_cons_of_mem _ (List.mem_map_of_mem (f := TaskNode.task) hprev))
  obtain ⟨hsearch, hfound⟩ := searchFrom_spec (s₁.created + 2) hp.inv.toListInv hd
  rw [hnext, Option.getD_some]
  have hfirst : PhaseSafe s₀ l ∅ s₀ [.touch s₀.current] :=
    PhaseSafe.refl h₀ (fun a _ => Set.notMem_empty a) ((touchesOnly_nil l).cons h₀.current)
  have hz : (∅ : Set ℕ) ∪ freedStructs [Event.touch s₀.current] = ∅ := by simp [freedStructs]
  have hsearched : PhaseSafe s₁ l' (∅ ∪ freedStructs purged) s₁
      (.touch s₁.current :: (searchFrom s₁ (s₁.created + 2) d).2) :=
    PhaseSafe.refl hp.inv hp.left (hsearch.cons hprev)
  have hall := hfirst.trans (hz.symm ▸ hp.trans hsearched)
  have hes : Event.touch s₀.current :: purged ++
        .touch s₁.current :: (searchFrom s₁ (s₁.created + 2) d).2
      = [.touch s₀.current] ++
        (purged ++ .touch s₁.current :: (searchFrom s₁ (s₁.created + 2) d).2) := by simp
  rw [hes]
  refine ⟨l', hp.inv, hall.clean, hall.left, fun e he => ?_, hfound⟩
  rw [← hrel e, ← hcurrent]
  exact hall.spares e he

/-- **One call of `task_schedule`**, entered with a current task that is spared. -/
theorem taskSchedule_safe (h : SchedInv s l) (hcur : CurrentSpared s) (esp : ℕ) :
    ScheduleSafe s esp ∧ ∀ s', (taskSchedule s esp).1 = some s' → ∃ l', SchedInv s' l' := by
  unfold ScheduleSafe taskSchedule
  split
  · refine ⟨⟨trivial, fun e he => absurd he List.not_mem_nil⟩, fun s' heq => ?_⟩
    cases heq
    exact ⟨l, h⟩
  obtain ⟨l', hsel⟩ := taskSelect_safe h hcur
  generalize taskSelect s = r at hsel
  obtain ⟨s₁, found, before⟩ := r
  dsimp only at hsel
  cases found with
  | none => exact ⟨⟨hsel.clean, hsel.spares⟩, fun s' h' => by cases h'⟩
  | some m =>
    obtain ⟨next, hnl, rfl⟩ := hsel.found m rfl
    have hprev := hsel.inv.current
    have hlast : TouchesOnly l'
        [.touch s₁.current, .touch next, .touch next, .touch s₁.current, .touch next] :=
      (((((touchesOnly_nil l').cons hnl).cons hprev).cons hnl).cons hnl).cons hprev
    refine ⟨⟨hsel.clean.append (hlast.clean hsel.left), fun e he => ?_⟩, fun s' h' => ?_⟩
    · rcases List.mem_append.mp he with he | he
      · exact hsel.spares e he
      · exact hlast.not_releases s s.current e he
    · cases h'
      exact ⟨l', hsel.inv.switchTo _ hnl esp⟩

/-! ### The other operations -/

/-- The tasks of the ring are what a walk finds. -/
theorem ListInv.taskList_eq (h : ListInv s l) : taskList s = l := by
  have hlen : (l.map TaskNode.task).length ≤ s.created := by
    rw [List.length_map]
    exact h.length_le
  unfold taskList
  rw [h.ring.walk_eq hlen, List.filterMap_map]
  exact List.filterMap_some

/-- What the allocators promise `task_create`: the memory they return belongs to none of the
    tasks on the list. -/
structure Fresh (s : Sched) (al : TaskAlloc) : Prop where
  struct : ∀ a, al.struct = some a → a ∉ taskList s
  stack : ∀ v, al.stack = some v → ∀ b ∈ taskList s,
    ¬ (v < (s.tasks b).kstackBot ∧ (s.tasks b).kstackBot ≤ v + 2 ^ taskKernelStackOrder * pageSize) ∧
    ((s.tasks b).id ≠ 0 → Disjoint (Set.Ico v (v + 2 ^ taskKernelStackOrder * pageSize))
      (Set.Ico ((s.tasks b).kstackBot - (s.tasks b).kstackSize)
        ((s.tasks b).kstackBot - (s.tasks b).kstackSize + 2 ^ taskKernelStackOrder * pageSize)))
  space : ∀ w p, al.space = some (w, p) → ∀ b ∈ taskList s, ∀ v, (s.tasks b).vmSpace = some v →
    v ≠ w ∧ s.pgd v ≠ p

theorem taskKill_inv (h : SchedInv s l) (id : ℕ) : SchedInv (taskKill s id).2 l := by
  unfold taskKill
  split
  · exact h
  · split
    · exact h
    · rename_i a _
      cases hst : (s.tasks a).state with
      | invalid => exact h
      | killed => exact h
      | running => exact h.setTask ⟨rfl, rfl, rfl, rfl⟩
      | waiting => exact h.setTask ⟨rfl, rfl, rfl, rfl⟩
      | paused => exact h.setTask ⟨rfl, rfl, rfl, rfl⟩

theorem taskExitCurrent_inv (h : SchedInv s l) : SchedInv (taskExitCurrent s) l :=
  h.setTask ⟨rfl, rfl, rfl, rfl⟩

/-- Writing a struct that is not on the list, with its own list node, changes nothing for the
    tasks that are. -/
theorem SchedInv.outside (h : SchedInv s l) (ha : a ∉ l)
    (hnodes : ∀ n, n ≠ .task a → s'.nodes n = s.nodes n)
    (hcreated : s'.created = s.created) (hhead : s'.head = s.head) (hcur : s'.current = s.current)
    (hpgd : ∀ b ∈ l, ∀ v, (s.tasks b).vmSpace = some v → s'.pgd v = s.pgd v)
    (ht : ∀ b, b ≠ a → s'.tasks b = s.tasks b) : SchedInv s' l := by
  have hne : ∀ b ∈ l, b ≠ a := fun b hb heq => ha (heq ▸ hb)
  -- a task on the list owns what it owned
  have hrel : ∀ b ∈ l, taskRelease s' b = taskRelease s b := by
    intro b hb
    unfold taskRelease taskDestroyVmSpace taskDestroyKernelStack
    rw [ht b (hne b hb)]
    cases hv : (s.tasks b).vmSpace with
    | none => rfl
    | some v => simp only [hpgd b hb v hv]
  refine ⟨⟨?_, hcreated ▸ h.length_le, hhead ▸ h.sentinel⟩, hcur ▸ h.current, ?_⟩
  · refine h.ring.frame fun n hn => hnodes n ?_
    rintro rfl
    simp [ha] at hn
  · intro b hb c hc hbc hid e he
    rw [hrel b hb] at he
    rw [ht b (hne b hb)] at hid
    have hapart := h.apart b hb c hc hbc hid e he
    cases e with
    | lock x => exact fun hx => hx
    | touch x => exact fun hx => hx
    | freeStruct x => exact hapart
    | freeStack x =>
      simp only [Releases, ht c (hne c hc)]
      exact hapart
    | freePgd x =>
      rintro ⟨v, hv, hp⟩
      rw [ht c (hne c hc)] at hv
      exact hapart ⟨v, hv, (hpgd c hc v hv) ▸ hp⟩
    | freeSpace x =>
      simp only [Releases, ht c (hne c hc)]
      exact hapart

/-- The state of `task_create` right before the new task is put on the list. -/
def prepared (s : Sched) (args : TaskArgs) (a v w p : ℕ) : Sched :=
  archTaskCreate (taskCreateVmSpace (taskCreateKernelStack (taskAllocStruct s args a) a v) a w p) a

theorem prepared_task (s : Sched) (args : TaskArgs) (a v w p : ℕ) :
    ((prepared s args a v w p).tasks a).kstackBot = v + 2 ^ taskKernelStackOrder * pageSize ∧
      ((prepared s args a v w p).tasks a).kstackSize = 2 ^ taskKernelStackOrder * pageSize ∧
      ((prepared s args a v w p).tasks a).vmSpace = some w ∧ (prepared s args a v w p).pgd w = p := by
  simp [prepared, archTaskCreate, taskCreateVmSpace, taskCreateKernelStack, taskAllocStruct,
    Sched.setTask]

/-- What releasing the new task would give back. -/
theorem taskRelease_prepared (s : Sched) (args : TaskArgs) (a v w p : ℕ) :
    taskRelease (prepared s args a v w p) a
      = [.touch a, .lock .buddy, .freePgd p, .freeSpace w, .touch a, .lock .buddy, .freeStack v,
        .freeStruct a] := by
  obtain ⟨hbot, hsize, hspace, hpgd⟩ := prepared_task s args a v w p
  have hne : v + 2 ^ taskKernelStackOrder * pageSize ≠ 0 := by
    unfold taskKernelStackOrder pageSize
    omega
  unfold taskRelease taskDestroyVmSpace taskDestroyKernelStack
  rw [hbot, hsize, hspace]
  simp only [hpgd, hne, if_false, Nat.add_sub_cancel]
  rfl

theorem prepared_inv (h : SchedInv s l) (args : TaskArgs) {v w p : ℕ} (ha : a ∉ l)
    (hw : ∀ b ∈ l, ∀ x, (s.tasks b).vmSpace = some x → x ≠ w) :
    SchedInv (prepared s args a v w p) l := by
  refine h.outside ha ?_ rfl rfl rfl ?_ ?_
  · intro n hn
    exact clistInit_other s.nodes hn
  · intro b hb x hx
    exact Function.update_of_ne (hw b hb x hx) _ _
  · intro b hb
    simp [prepared, archTaskCreate, taskCreateVmSpace, taskCreateKernelStack, taskAllocStruct,
      Sched.setTask, hb]

theorem prepared_other (s : Sched) (args : TaskArgs) (v w p : ℕ) {b : ℕ} (hb : b ≠ a) :
    (prepared s args a v w p).tasks b = s.tasks b := by
  simp [prepared, archTaskCreate, taskCreateVmSpace, taskCreateKernelStack, taskAllocStruct,
    Sched.setTask, hb]

/-- **Putting the new task on the list** keeps the invariant: what it owns is fresh. -/
theorem taskAddToScheduler_inv (h : SchedInv s l) (args : TaskArgs) {al : TaskAlloc}
    (hfresh : Fresh s al) {v w p : ℕ} (ha : al.struct = some a) (hv : al.stack = some v)
    (hw : al.space = some (w, p)) :
    SchedInv (taskAddToScheduler (prepared s args a v w p) a) (a :: l) := by
  have hlist := h.taskList_eq
  have hal : a ∉ l := hlist ▸ hfresh.struct a ha
  have hstack := fun b hb => hfresh.stack v hv b (hlist.symm ▸ hb)
  have hspace := fun b hb => hfresh.space w p hw b (hlist.symm ▸ hb)
  have hprep := prepared_inv (v := v) (p := p) h args hal fun b hb x hx => (hspace b hb x hx).1
  obtain ⟨hbot, -, hvm, hpgd⟩ := prepared_task s args a v w p
  have hother : ∀ b ∈ l, (prepared s args a v w p).tasks b = s.tasks b := fun b hb =>
    prepared_other s args v w p (ne_of_mem_of_not_mem hb hal)
  have hpgdo : ∀ b ∈ l, ∀ x, (s.tasks b).vmSpace = some x →
      (prepared s args a v w p).pgd x = s.pgd x :=
    fun b hb x hx => Function.update_of_ne (hspace b hb x hx).1 _ _
  refine ⟨⟨?_, ?_, hprep.sentinel⟩, List.mem_cons_of_mem a hprep.current, ?_⟩
  · exact clistAdd_ring hprep.ring (by simp [hal])
  · exact Nat.succ_le_succ hprep.length_le
  intro x hx y hy hxy hid e he
  change e ∈ taskRelease (prepared s args a v w p) x at he
  change ¬ Releases (prepared s args a v w p) y e
  rcases List.mem_cons.mp hx with rfl | hxl
  · -- the new task owns nothing of the task `y`
    have hyl := (List.mem_cons.mp hy).resolve_left (Ne.symm hxy)
    rw [taskRelease_prepared] at he
    simp only [List.mem_cons, List.not_mem_nil, or_false] at he
    rcases he with rfl | rfl | rfl | rfl | rfl | rfl | rfl | rfl
    · exact fun h => h
    · exact fun h => h
    · rintro ⟨z, hz, hzp⟩
      rw [hother y hyl] at hz
      rw [hpgdo y hyl z hz] at hzp
      exact (hspace y hyl z hz).2 hzp
    · intro hz
      simp only [Releases, hother y hyl] at hz
      exact (hspace y hyl w hz).1 rfl
    · exact fun h => h
    · exact fun h => h
    · intro hz
      simp only [Releases, hother y hyl] at hz
      exact (hstack y hyl).1 hz
    · exact hxy
  · rcases List.mem_cons.mp hy with rfl | hyl
    · -- and `x` nothing of the new task
      have hxid : (s.tasks x).id ≠ 0 := by
        have hid' : ((prepared s args y v w p).tasks x).id ≠ 0 := hid
        rwa [hother x hxl] at hid'
      have he' := mem_taskRelease he
      rw [hother x hxl] at he'
      rcases he' with rfl | rfl | rfl | rfl | ⟨u, hu, rfl | rfl⟩
      · exact fun h => h
      · exact fun h => h
      · exact hxy
      · simp only [Releases, hbot]
        have hd := (hstack x hxl).2 hxid
        have hpos : 0 < 2 ^ taskKernelStackOrder * pageSize := by decide
        rw [Set.Ico_disjoint_Ico] at hd
        omega
      · rintro ⟨u', hu', hp⟩
        rw [hvm, Option.some.injEq] at hu'
        rw [← hu', hpgd, hpgdo x hxl u hu] at hp
        exact (hspace x hxl u hu).2 hp.symm
      · intro hz
        simp only [Releases, hvm, Option.some.injEq] at hz
        exact (hspace x hxl u hu).1 hz.symm
    · exact hprep.apart x hxl y hyl hxy hid e he

theorem taskCreate_inv (h : SchedInv s l) (args : TaskArgs) {al : TaskAlloc} (hfresh : Fresh s al) :
    ∃ l', SchedInv (taskCreate s args al).2.1 l' := by
  have hlist := h.taskList_eq
  unfold taskCreate
  split
  · exact ⟨l, h⟩
  split
  · exact ⟨l, h⟩
  split
  · exact ⟨l, h⟩
  rename_i a hstruct
  have hal : a ∉ l := hlist ▸ hfresh.struct a hstruct
  have halloc : SchedInv (taskAllocStruct s args a) l :=
    h.outside hal (fun n hn => clistInit_other s.nodes hn) rfl rfl rfl (fun _ _ _ _ => rfl)
      fun b hb => Function.update_of_ne hb _ _
  dsimp only
  split
  · exact ⟨l, halloc⟩
  rename_i v hstack
  have hkstack : SchedInv (taskCreateKernelStack (taskAllocStruct s args a) a v) l :=
    halloc.outside hal (fun _ _ => rfl) rfl rfl rfl (fun _ _ _ _ => rfl)
      fun b hb => Function.update_of_ne hb _ _
  split
  · exact ⟨l, hkstack⟩
  rename_i w p hspace
  exact ⟨a :: l, taskAddToScheduler_inv h args hfresh hstruct hstack hspace⟩

/-! ### Runs -/

theorem taskInit_inv (mem : ℕ → Task) (links : NodeHeap TaskNode) (pgds : ℕ → ℕ)
    (stackBottom a v p : ℕ) (raw : Task) :
    SchedInv (taskInit mem links pgds stackBottom a v p raw) [a] := by
  have hring : Ring (clistInit links .head) TaskNode.head [] := by
    refine Ring.empty ?_ ?_ <;> rw [clistInit_self]
  refine ⟨⟨?_, le_rfl, rfl⟩, List.mem_singleton.mpr rfl, ?_⟩
  · exact clistAdd_ring hring (by simp)
  · intro x hx y hy hxy
    rw [List.mem_singleton.mp hx, List.mem_singleton.mp hy] at hxy
    exact absurd rfl hxy

/-- The calls a run is made of; `task_schedule` is only entered in states that satisfy `ok`. -/
inductive TaskStep (ok : Sched → Prop) : Sched → Sched → Prop
  | create (s : Sched) (args : TaskArgs) (al : TaskAlloc) (hfresh : Fresh s al) :
      TaskStep ok s (taskCreate s args al).2.1
  | kill (s : Sched) (id : ℕ) : TaskStep ok s (taskKill s id).2
  | exitCurrent (s : Sched) : TaskStep ok s (taskExitCurrent s)
  | schedule (s s' : Sched) (esp : ℕ) (hok : ok s) (hret : (taskSchedule s esp).1 = some s') :
      TaskStep ok s s'

/-- A run of calls. -/
abbrev TaskRun (ok : Sched → Prop) := Relation.ReflTransGen (TaskStep ok)

theorem TaskStep.inv (h : TaskStep CurrentSpared s s') (hinv : SchedInv s l) :
    ∃ l', SchedInv s' l' := by
  cases h with
  | create args al hfresh => exact taskCreate_inv hinv args hfresh
  | kill id => exact ⟨l, taskKill_inv hinv id⟩
  | exitCurrent => exact ⟨l, taskExitCurrent_inv hinv⟩
  | schedule _ esp hok hret => exact (taskSchedule_safe hinv hok esp).2 s' hret

theorem TaskRun.inv (h : TaskRun CurrentSpared s s') (hinv : SchedInv s l) :
    ∃ l', SchedInv s' l' := by
  induction h with
  | refl => exact ⟨l, hinv⟩
  | tail _ hstep ih =>
    obtain ⟨l', hl'⟩ := ih
    exact hstep.inv hl'

/-- **Nothing is pulled from under the running task.**  In every run from `task_init` whose calls
    of `task_schedule` are entered while the current task is not marked as killed, or is the
    idle task, each such call releases nothing of the current task and touches no struct it has
    freed. -/
theorem run_schedule_safe {mem : ℕ → Task} {links : NodeHeap TaskNode} {pgds : ℕ → ℕ}
    {stackBottom a v p : ℕ} {raw : Task}
    (hrun : TaskRun CurrentSpared (taskInit mem links pgds stackBottom a v p raw) s)
    (hspared : CurrentSpared s) (esp : ℕ) : ScheduleSafe s esp := by
  obtain ⟨l, hinv⟩ := TaskRun.inv hrun (taskInit_inv mem links pgds stackBottom a v p raw)
  exact (taskSchedule_safe hinv hspared esp).1

/-- The idle task alone, with one more task, and with that task running. -/
def rawTask : Task := ⟨0, 0, .invalid, 0, 0, 0, 0, 0, none, 0⟩
def idleOnly : Sched := taskInit (fun _ => rawTask) (fun _ => ⟨none, none⟩) (fun _ => 0) 64 1 2 3 rawTask
def workerArgs : TaskArgs := ⟨0, 0, 1, .waiting⟩
def workerAlloc : TaskAlloc := ⟨some 10, some 0x100000, some (11, 12)⟩
def idleAndWorker : Sched := (taskCreate idleOnly workerArgs workerAlloc).2.1
def workerCurrent : Sched := (taskSchedule idleAndWorker 0).1.getD idleAndWorker

theorem fresh_workerAlloc : Fresh idleOnly workerAlloc := by
  have hlist : taskList idleOnly = [1] := by decide
  refine ⟨?_, ?_, ?_⟩
  · intro a ha
    rw [hlist]
    cases ha
    decide
  · intro v hv b hb
    rw [hlist, List.mem_singleton] at hb
    subst hb
    cases hv
    exact ⟨by decide, fun hid => absurd rfl hid⟩
  · intro w p hw b hb x hx
    rw [hlist, List.mem_singleton] at hb
    subst hb
    cases hw
    cases hx
    decide

/-- The other task is killed and then purged by `task_schedule`. -/
theorem run_schedule_safe_worker : ScheduleSafe (taskKill idleAndWorker 1).2 0 :=
  run_schedule_safe
    ((Relation.ReflTransGen.single (TaskStep.create idleOnly workerArgs workerAlloc
      fresh_workerAlloc)).tail (TaskStep.kill idleAndWorker 1))
    (Or.inl (by decide)) 0

/-- **A task that exits is purged while it runs.**  Once the other task is current and has called
    `task_exit_current`, the next `task_schedule` frees its struct, and then goes on with it. -/
theorem schedule_frees_current :
    ¬ ∀ (mem : ℕ → Task) (links : NodeHeap TaskNode) (pgds : ℕ → ℕ) (stackBottom a v p : ℕ)
      (raw : Task) (s : Sched) (esp : ℕ),
      TaskRun (fun _ => True) (taskInit mem links pgds stackBottom a v p raw) s →
      ScheduleSafe s esp := by
  intro h
  have hret : (taskSchedule idleAndWorker 0).1 = some workerCurrent := by
    obtain ⟨s', hs'⟩ := Option.isSome_iff_exists.mp
      (show (taskSchedule idleAndWorker 0).1.isSome = true by decide)
    rw [workerCurrent, hs']
    rfl
  have hrun : TaskRun (fun _ => True) idleOnly (taskExitCurrent workerCurrent) :=
    ((Relation.ReflTransGen.single (TaskStep.create idleOnly workerArgs workerAlloc
      fresh_workerAlloc)).tail (TaskStep.schedule idleAndWorker _ 0 trivial hret)).tail
      (TaskStep.exitCurrent _)
  obtain ⟨-, hspares⟩ := h _ _ _ _ _ _ _ _ _ 0 hrun
  have hcur : 10 = (taskExitCurrent workerCurrent).current := by decide
  exact hspares (.freeStruct 10) (by decide) hcur

end Rotary

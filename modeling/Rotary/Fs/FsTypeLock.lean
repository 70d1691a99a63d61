import Rotary.Fs.FsType
import Rotary.Lib.SpinLock
import Rotary.Lib.OpenTraversal

namespace Rotary

open Lib

/-!
# The registry of filesystem types under its lock (`fs_type.c`, `sync.c`)

Tasks register, unregister and look up filesystem types at the same time.  What they log comes
before the lock; what they do to the list is one store or one comparison at a time, in the order of
the source, with `lock` and `unlock` of `sync.c` around it.

* `fsSection` — the critical sections of `fs_type.c`;
* `FsAt` / `FsAt.step` — what holds at each point of them, and what one step does;
* `OwnObjects` — each task registers objects of its own, and none twice at a time;
* `fsTypes_interleaved` — however the tasks are interleaved, the calls return what the registry
  says in the order in which they took the lock;
* `fsTypes_printed` — `file_system_type_print_debug`, which takes no lock.
-/

/-! ### The code -/

/-- A call of one of the three functions that take the lock. -/
inductive FsRequest
  | register (fs : ℕ)
  | unregister (fs : ℕ)
  | get (name : CStr)

/-- The call without the lock. -/
def FsRequest.call : FsRequest → FsCall
  | .register fs => .register fs
  | .unregister fs => .unregister fs
  | .get name => .get name

/-- The points between `lock` and `unlock`. -/
inductive FsPoint
  /-- `clist_add`: `node_head->next->prev = node_new`, unless it is null. -/
  | addFirst (fs : ℕ)
  /-- `node_new->next = node_head->next` -/
  | addNext (fs : ℕ)
  /-- `node_new->prev = node_head` -/
  | addPrev (fs : ℕ)
  /-- `node_head->next = node_new` -/
  | addHead (fs : ℕ)
  /-- `file_system_type_unregister`: the end of the loop or `strcmp`, with a node in hand. -/
  | compare (fs : ℕ) (c : FsNode)
  /-- `clist_delete_node`: `node->prev->next = node->next` -/
  | deleteNext (fs f : ℕ)
  /-- `node->next->prev = node->prev` -/
  | deletePrev (fs f : ℕ)
  /-- The node behind the one in hand. -/
  | advance (fs : ℕ) (c : FsNode)
  /-- `file_system_type_get`: the end of the loop or `strcmp`. -/
  | search (name : CStr) (c : FsNode)
  | searchOn (name : CStr) (c : FsNode)

/-- One step inside the lock; a result means that `unlock` is next. -/
def fsMicro : FsPoint → FsTypes → Option (FsTypes × (FsPoint ⊕ Option ℕ))
  | .addFirst fs, s =>
    let nodes := match (s.nodes .head).next with
      | some n => setPrev s.nodes n (some (.entry fs))
      | none => s.nodes
    some ({ s with nodes := nodes }, .inl (.addNext fs))
  | .addNext fs, s =>
    some ({ s with nodes := setNext s.nodes (.entry fs) (s.nodes .head).next }, .inl (.addPrev fs))
  | .addPrev fs, s =>
    some ({ s with nodes := setPrev s.nodes (.entry fs) (some .head) }, .inl (.addHead fs))
  | .addHead fs, s => some ({ s with nodes := setNext s.nodes .head (some (.entry fs)) }, .inr none)
  | .compare _ .head, s => some (s, .inr none)
  | .compare fs (.entry f), s => do
    let r ← strcmp (s.name f).bytes (s.name fs).bytes
    return (s, .inl (if r = 0 then .deleteNext fs f else .advance fs (.entry f)))
  | .deleteNext fs f, s => do
    let p ← (s.nodes (.entry f)).prev
    return ({ s with nodes := setNext s.nodes p (s.nodes (.entry f)).next },
      .inl (.deletePrev fs f))
  | .deletePrev fs f, s => do
    let n ← (s.nodes (.entry f)).next
    return ({ s with nodes := setPrev s.nodes n (s.nodes (.entry f)).prev },
      .inl (.advance fs (.entry f)))
  | .advance fs c, s => do
    let n ← (s.nodes c).next
    return (s, .inl (.compare fs n))
  | .search _ .head, s => some (s, .inr none)
  | .search name (.entry f), s => do
    let r ← strcmp (s.name f).bytes name.bytes
    return (s, if r = 0 then .inr (some f) else .inl (.searchOn name (.entry f)))
  | .searchOn name c, s => do
    let n ← (s.nodes c).next
    return (s, .inl (.search name n))

/-- The critical sections: a traversal begins with the node behind the head. -/
def fsSection : Section FsTypes FsRequest FsPoint (Option ℕ) where
  start
    | .register fs => .addFirst fs
    | .unregister fs => .advance fs .head
    | .get name => .searchOn name .head
  micro := fsMicro

/-- The tasks, the lock and the list. -/
abbrev FsSystem (τ : Type) := Locked τ FsTypes FsRequest FsPoint (Option ℕ)

/-- What single calls do to the registry. -/
def registrySpec : SeqSpec Registry FsRequest (Option ℕ) where
  after r a := r.after a.call
  answer r a := r.answer a.call
  Allows r a := r.Allows a.call

variable {r : Registry} {a : FsRequest} {x : FsPoint} {s s' : FsTypes} {n : ℕ}

/-! ### Inside the lock -/

/-- The objects that stay when those of the name of `fs` are removed. -/
def Registry.others (r : Registry) (fs : ℕ) (objects : List ℕ) : List ℕ :=
  objects.filter fun f => r.name f ≠ r.name fs

/-- What holds at a point inside, for a call on the registry `r`, with a bound on the steps that are
    left.  Inside `clist_add` and `clist_delete_node` the list is described by the `heap` that they
    have begun with. -/
inductive FsAt (r : Registry) : FsRequest → FsPoint → FsTypes → ℕ → Prop
  | addFirst (fs : ℕ) (s : FsTypes) (h : Represents s r) (hnew : fs ∉ r.objects) :
      FsAt r (.register fs) (.addFirst fs) s 4
  | addNext (fs : ℕ) (heap : NodeHeap FsNode) (first : FsNode)
      (hring : Ring heap .head (r.objects.map .entry)) (hfirst : (heap .head).next = some first)
      (hnew : fs ∉ r.objects) :
      FsAt r (.register fs) (.addNext fs) ⟨setPrev heap first (some (.entry fs)), r.name⟩ 3
  | addPrev (fs : ℕ) (heap : NodeHeap FsNode) (first : FsNode)
      (hring : Ring heap .head (r.objects.map .entry)) (hfirst : (heap .head).next = some first)
      (hnew : fs ∉ r.objects) :
      FsAt r (.register fs) (.addPrev fs)
        ⟨setNext (setPrev heap first (some (.entry fs))) (.entry fs) (some first), r.name⟩ 2
  | addHead (fs : ℕ) (heap : NodeHeap FsNode) (first : FsNode)
      (hring : Ring heap .head (r.objects.map .entry)) (hfirst : (heap .head).next = some first)
      (hnew : fs ∉ r.objects) :
      FsAt r (.register fs) (.addHead fs)
        ⟨setPrev (setNext (setPrev heap first (some (.entry fs))) (.entry fs) (some first))
          (.entry fs) (some .head), r.name⟩ 1
  | compare (fs : ℕ) (s : FsTypes) (done rest : List ℕ) (hobjects : r.objects = done ++ rest)
      (hring : Ring s.nodes .head ((r.others fs done ++ rest).map .entry))
      (hnames : s.name = r.name) :
      FsAt r (.unregister fs) (.compare fs ((rest.map .entry).headD .head)) s (4 * rest.length + 1)
  | deleteNext (fs f : ℕ) (s : FsTypes) (done rest : List ℕ)
      (hobjects : r.objects = done ++ f :: rest)
      (hring : Ring s.nodes .head ((r.others fs done ++ f :: rest).map .entry))
      (hsame : r.name f = r.name fs) (hnames : s.name = r.name) :
      FsAt r (.unregister fs) (.deleteNext fs f) s (4 * rest.length + 4)
  | deletePrev (fs f : ℕ) (heap : NodeHeap FsNode) (p n : FsNode) (done rest : List ℕ)
      (hobjects : r.objects = done ++ f :: rest)
      (hring : Ring heap .head ((r.others fs done ++ f :: rest).map .entry))
      (hsame : r.name f = r.name fs) (hprev : (heap (.entry f)).prev = some p)
      (hnext : (heap (.entry f)).next = some n) :
      FsAt r (.unregister fs) (.deletePrev fs f) ⟨setNext heap p (some n), r.name⟩
        (4 * rest.length + 3)
  | advance (fs : ℕ) (c : FsNode) (s : FsTypes) (done rest : List ℕ)
      (hobjects : r.objects = done ++ rest)
      (hring : Ring s.nodes .head ((r.others fs done ++ rest).map .entry))
      (hnext : (s.nodes c).next = some ((rest.map .entry).headD .head)) (hnames : s.name = r.name) :
      FsAt r (.unregister fs) (.advance fs c) s (4 * rest.length + 2)
  | search (name : CStr) (s : FsTypes) (done rest : List ℕ) (hobjects : r.objects = done ++ rest)
      (h : Represents s r) (hnone : ∀ f ∈ done, r.name f ≠ name) :
      FsAt r (.get name) (.search name ((rest.map .entry).headD .head)) s (2 * rest.length + 1)
  | searchOn (name : CStr) (c : FsNode) (s : FsTypes) (done rest : List ℕ)
      (hobjects : r.objects = done ++ rest) (h : Represents s r)
      (hnone : ∀ f ∈ done, r.name f ≠ name)
      (hnext : (s.nodes c).next = some ((rest.map .entry).headD .head)) :
      FsAt r (.get name) (.searchOn name c) s (2 * rest.length + 2)

/-- What holds when a call comes to `unlock` with a result. -/
def FsDone (r : Registry) (a : FsRequest) (found : Option ℕ) (s : FsTypes) : Prop :=
  found = r.answer a.call ∧ Represents s (r.after a.call)

/-- A step inside keeps the list together for traversals without the lock. -/
def FsStore (s s' : FsTypes) : Prop :=
  ChainStore FsNode.head (nextWords s.nodes) (nextWords s'.nodes)

/-- One step at a point: it goes on, with fewer steps left, or it ends the call. -/
def FsGoes (r : Registry) (a : FsRequest) (x : FsPoint) (s : FsTypes) (n : ℕ) : Prop :=
  (∃ x' s' m, fsMicro x s = some (s', .inl x') ∧ FsAt r a x' s' m ∧ m < n ∧ FsStore s s') ∨
    ∃ found s', fsMicro x s = some (s', .inr found) ∧ FsDone r a found s' ∧ FsStore s s'

theorem entry_notMem {fs : ℕ} (h : fs ∉ r.objects) :
    FsNode.entry fs ∉ FsNode.head :: r.objects.map FsNode.entry := by
  intro hmem
  rcases List.mem_cons.mp hmem with hhead | hmem
  · exact FsNode.noConfusion hhead
  · obtain ⟨f, hf, heq⟩ := List.mem_map.mp hmem
    exact h (FsNode.entry.inj heq ▸ hf)

/-- The stores of `clist_add`. -/
theorem clistAdd_stores {ν : Type} [DecidableEq ν] {h : NodeHeap ν} {head node first : ν}
    (hfirst : (h head).next = some first) :
    clistAdd h head node = setNext (setPrev (setNext (setPrev h first (some node)) node
      (some first)) node (some head)) head (some node) := by
  simp only [clistAdd, hfirst, setPrev_next]

/-- The stores of `clist_delete_node`. -/
theorem clistDeleteNode_stores {ν : Type} [DecidableEq ν] {h : NodeHeap ν} {node p n : ν}
    (hprev : (h node).prev = some p) (hnext : (h node).next = some n) (hne : node ≠ p) :
    clistDeleteNode h node = setPrev (setNext h p (some n)) n (some p) := by
  simp [clistDeleteNode, hprev, hnext, hne]

/-- They leave the ring without the node. -/
theorem ring_deleteStores {ν : Type} [DecidableEq ν] {h : NodeHeap ν} {head x p v : ν}
    {pre post : List ν} (hr : Ring h head (pre ++ x :: post)) (hprev : (h x).prev = some p)
    (hnext : (h x).next = some v) :
    x ≠ p ∧ Ring (setPrev (setNext h p (some v)) v (some p)) head (pre ++ post) := by
  have hne : x ≠ p := fun heq =>
    hr.ne_prev (heq.trans (Option.some.inj (hprev.symm.trans hr.neighbours.1)))
  have hdeleted := clistDeleteNode_ring hr
  rw [clistDeleteNode_stores hprev hnext hne] at hdeleted
  exact ⟨hne, hdeleted⟩

theorem FsAt.add_goes {fs : ℕ} (h : FsAt r (.register fs) x s n) :
    FsGoes r (.register fs) x s n := by
  cases h with
  | addFirst fs s h hnew =>
    obtain ⟨nodes, name⟩ := s
    obtain rfl : name = r.name := h.names
    have hfirst : (nodes .head).next = _ := h.ring.next_head
    refine Or.inl ⟨_, _, 3, ?_, .addNext fs nodes _ h.ring hfirst hnew, by omega, ?_⟩
    · simp only [fsMicro, hfirst]
    · rw [FsStore, nextWords_setPrev]
      exact .keep
  | addNext fs heap first hring hfirst hnew =>
    refine Or.inl ⟨_, _, 2, ?_, .addPrev fs heap first hring hfirst hnew, by omega, ?_⟩
    · simp only [fsMicro, setPrev_next, hfirst]
    · rw [FsStore, nextWords_setNext, nextWords_setPrev]
      exact .prepare _ _ (fun hon => entry_notMem hnew (hring.onChain_iff.mp hon))
        (fun heq => FsNode.noConfusion heq) hfirst
  | addPrev fs heap first hring hfirst hnew =>
    refine Or.inl ⟨_, _, 1, rfl, .addHead fs heap first hring hfirst hnew, by omega, ?_⟩
    rw [FsStore, nextWords_setPrev]
    exact .keep
  | addHead fs heap first hring hfirst hnew =>
    refine Or.inr ⟨_, _, rfl, ⟨rfl, ?_, rfl⟩, ?_⟩
    · show Ring (setNext _ _ _) _ _
      rw [← clistAdd_stores hfirst]
      exact clistAdd_ring hring (entry_notMem hnew)
    · rw [FsStore, nextWords_setNext, nextWords_setPrev, nextWords_setNext, nextWords_setPrev]
      refine .publish _ ?_ (fun heq => FsNode.noConfusion heq)
      rw [Function.update_self, Function.update_of_ne (fun heq => FsNode.noConfusion heq)]
      exact hfirst.symm

/-- The first store of `clist_delete_node` takes the node out of the chain. -/
theorem clistDeleteNode_chainStore {ν : Type} [DecidableEq ν] {h : NodeHeap ν} {head x p v : ν}
    {pre post : List ν} (hr : Ring h head (pre ++ x :: post)) (hprev : (h x).prev = some p)
    (hnext : (h x).next = some v) :
    ChainStore head (nextWords h) (nextWords (setNext h p (some v))) := by
  obtain rfl : pre.getLastD head = p := Option.some.inj (hr.neighbours.1.symm.trans hprev)
  obtain ⟨hne, hdeleted⟩ := ring_deleteStores hr hprev hnext
  have hlast : pre.getLastD head ∈ head :: pre := List.getLastD_mem_cons
  have hbehind : (h (pre.getLastD head)).next = some x := by
    rcases List.eq_nil_or_concat pre with rfl | ⟨front, y, rfl⟩
    · exact hr.next_head
    · rw [List.concat_eq_append, List.append_assoc] at hr
      rw [List.concat_eq_append, List.getLastD_concat]
      exact hr.neighbours.2
  have hnodup := hr.nodup
  rw [nextWords_setNext]
  refine .unlink _ x v (hr.onChain_iff.mpr ?_) hbehind hnext ?_ hne fun hon => ?_
  · exact List.mem_append_left (x :: post) hlast
  · exact fun heq => hr.head_notMem (heq ▸ List.mem_append_right pre List.mem_cons_self)
  · -- the chain is that of the ring without the node
    rw [← nextWords_setNext, ← nextWords_setPrev _ v (some (pre.getLastD head)),
      hdeleted.onChain_iff] at hon
    rw [← List.cons_append, List.nodup_middle] at hnodup
    exact (List.nodup_cons.mp hnodup).1 hon

/-- An object of another name stays. -/
theorem others_concat_of_ne {fs f : ℕ} {done : List ℕ} (h : r.name f ≠ r.name fs) :
    r.others fs (done ++ [f]) = r.others fs done ++ [f] := by
  unfold Registry.others
  rw [List.filter_append, List.filter_cons_of_pos (by simpa using h)]
  rfl

theorem others_concat_of_eq {fs f : ℕ} {done : List ℕ} (h : r.name f = r.name fs) :
    r.others fs (done ++ [f]) = r.others fs done := by
  unfold Registry.others
  rw [List.filter_append, List.filter_cons_of_neg (by simpa using h), List.filter_nil,
    List.append_nil]

theorem FsAt.unregister_goes {fs : ℕ} (h : FsAt r (.unregister fs) x s n) :
    FsGoes r (.unregister fs) x s n := by
  cases h with
  | compare fs s done rest hobjects hring hnames =>
    cases rest with
    | nil =>
      refine Or.inr ⟨_, _, rfl, ⟨rfl, ?_, hnames⟩, .keep⟩
      rw [List.append_nil] at hring hobjects
      show Ring _ _ ((r.others fs r.objects).map _)
      rwa [hobjects]
    | cons f rest =>
      obtain ⟨c, hcmp, hequal⟩ := (s.name f).strcmp_eq_zero (s.name fs)
      have hmicro : fsMicro (.compare fs (.entry f)) s =
          some (s, .inl (if c = 0 then .deleteNext fs f else .advance fs (.entry f))) := by
        rw [fsMicro, hcmp]
        rfl
      rw [hnames] at hequal
      by_cases hc : c = 0
      · rw [if_pos hc] at hmicro
        exact Or.inl ⟨_, _, _, hmicro,
          .deleteNext fs f s done rest hobjects hring (hequal.mp hc) hnames,
          by rw [List.length_cons]; omega, .keep⟩
      · rw [if_neg hc] at hmicro
        have hnext := next_entry hring
        refine Or.inl ⟨_, _, _, hmicro, .advance fs (.entry f) s (done ++ [f]) rest ?_ ?_ hnext
          hnames, by rw [List.length_cons]; omega, .keep⟩
        · rw [hobjects, List.append_assoc, List.singleton_append]
        · rwa [others_concat_of_ne fun h => hc (hequal.mpr h), List.append_assoc,
            List.singleton_append]
  | deleteNext fs f s done rest hobjects hring hsame hnames =>
    obtain ⟨nodes, name⟩ := s
    obtain rfl : name = r.name := hnames
    have hring' := hring
    rw [List.map_append, List.map_cons] at hring'
    have hprev : (nodes (.entry f)).prev = _ := hring'.neighbours.1
    have hnext : (nodes (.entry f)).next = _ := hring'.neighbours.2
    refine Or.inl ⟨_, _, _, ?_, .deletePrev fs f nodes _ _ done rest hobjects hring hsame hprev
      hnext, by omega, clistDeleteNode_chainStore hring' hprev hnext⟩
    simp only [fsMicro, hprev, hnext]
    rfl
  | deletePrev fs f heap p v done rest hobjects hring hsame hprev hnext =>
    rw [List.map_append, List.map_cons] at hring
    obtain ⟨hne, hdeleted⟩ := ring_deleteStores hring hprev hnext
    rw [← List.map_append] at hdeleted
    have hnext' : (setNext heap p (some v) (.entry f)).next = some v := by simp [hne, hnext]
    have hprev' : (setNext heap p (some v) (.entry f)).prev = some p := by simp [hprev]
    refine Or.inl ⟨_, ⟨setPrev (setNext heap p (some v)) v (some p), r.name⟩, _, ?_,
      .advance fs (.entry f) _ (done ++ [f]) rest ?_ ?_ ?_ rfl, by omega, ?_⟩
    · simp only [fsMicro, hnext', hprev']
      rfl
    · rw [hobjects, List.append_assoc, List.singleton_append]
    · rwa [others_concat_of_eq hsame]
    · show (setPrev _ _ _ _).next = _
      rw [setPrev_next, hnext', ← hnext, hring.neighbours.2]
    · rw [FsStore, nextWords_setPrev]
      exact .keep
  | advance fs c s done rest hobjects hring hnext hnames =>
    refine Or.inl ⟨_, _, _, ?_, .compare fs s done rest hobjects hring hnames, by omega, .keep⟩
    simp only [fsMicro, hnext]
    rfl

theorem FsAt.get_goes {name : CStr} (h : FsAt r (.get name) x s n) :
    FsGoes r (.get name) x s n := by
  cases h with
  | search name s done rest hobjects h hnone =>
    have hanswer : (r.objects.find? fun f => r.name f = name) =
        rest.find? fun f => r.name f = name := by
      have hskip : (done.find? fun f => r.name f = name) = none :=
        List.find?_eq_none.mpr fun f hf => by simpa using hnone f hf
      rw [hobjects, List.find?_append, hskip, Option.none_or]
    cases rest with
    | nil => exact Or.inr ⟨_, _, rfl, ⟨hanswer.symm, h⟩, .keep⟩
    | cons f rest =>
      obtain ⟨c, hcmp, hequal⟩ := (s.name f).strcmp_eq_zero name
      have hmicro : fsMicro (.search name (.entry f)) s =
          some (s, if c = 0 then .inr (some f) else .inl (.searchOn name (.entry f))) := by
        rw [fsMicro, hcmp]
        rfl
      rw [h.names] at hequal
      by_cases hc : c = 0
      · rw [if_pos hc] at hmicro
        refine Or.inr ⟨_, _, hmicro, ⟨?_, h⟩, .keep⟩
        rw [List.find?_cons_of_pos (by simpa using hequal.mp hc)] at hanswer
        exact hanswer.symm
      · rw [if_neg hc] at hmicro
        have hring := h.ring
        rw [hobjects] at hring
        refine Or.inl ⟨_, _, _, hmicro, .searchOn name (.entry f) s (done ++ [f]) rest ?_ h ?_
          (next_entry hring), by rw [List.length_cons]; omega, .keep⟩
        · rw [hobjects, List.append_assoc, List.singleton_append]
        · intro g hg
          rcases List.mem_append.mp hg with hg | hg
          · exact hnone g hg
          · rw [List.mem_singleton.mp hg]
            exact fun heq => hc (hequal.mpr heq)
  | searchOn name c s done rest hobjects h hnone hnext =>
    refine Or.inl ⟨_, _, _, ?_, .search name s done rest hobjects h hnone, by omega, .keep⟩
    simp only [fsMicro, hnext]
    rfl

/-- **One step inside**, at any point of any call. -/
theorem FsAt.goes (h : FsAt r a x s n) : FsGoes r a x s n := by
  cases a with
  | register fs => exact h.add_goes
  | unregister fs => exact h.unregister_goes
  | get name => exact h.get_goes

theorem fsSection_outlined (r : Registry) (a : FsRequest) :
    fsSection.Outlined (FsAt r a) (FsDone r a) := by
  intro x s n hat
  rcases hat.goes with ⟨x', s', m, hmicro, hat', hlt, -⟩ | ⟨found, s', hmicro, hdone, -⟩
  · exact Or.inl ⟨x', s', m, hmicro, hat', hlt⟩
  · exact Or.inr ⟨found, s', hmicro, hdone⟩

/-- A call begins at its first point. -/
theorem fsAt_start (h : Represents s r) (hallow : r.Allows a.call) :
    ∃ n, FsAt r a (fsSection.start a) s n := by
  cases a with
  | register fs => exact ⟨_, .addFirst fs s h hallow⟩
  | unregister fs => exact ⟨_, .advance fs .head s [] r.objects rfl h.ring h.ring.next_head h.names⟩
  | get name =>
    exact ⟨_, .searchOn name .head s [] r.objects rfl h (by simp) h.ring.next_head⟩

/-- **Each call by itself** does to the list what it does to the registry. -/
theorem fsSection_meets : fsSection.Meets Represents registrySpec := by
  intro s r a h hallow
  obtain ⟨n, hat⟩ := fsAt_start h hallow
  obtain ⟨found, s', hends, rfl, h'⟩ := (fsSection_outlined r a).ends hat
  exact ⟨s', hends, h'⟩

/-! ### The tasks -/

variable {τ : Type} [DecidableEq τ] {owner : ℕ → τ} {name : ℕ → CStr}
  {calls : List (τ × FsRequest)} {t : τ} {fs : ℕ}

/-- The calls of one task. -/
def callsOf (t : τ) (calls : List (τ × FsRequest)) : List (τ × FsRequest) :=
  calls.filter fun c => c.1 = t

/-- Every task registers objects of its own, and by its own calls none that is registered. -/
structure OwnObjects (owner : ℕ → τ) (name : ℕ → CStr) (calls : List (τ × FsRequest)) : Prop where
  own : ∀ t fs, (t, .register fs) ∈ calls → owner fs = t
  allows : ∀ t, registrySpec.AllowsAll ⟨[], name⟩ (callsOf t calls)

theorem callsOf_concat (t t' : τ) (calls : List (τ × FsRequest)) (a : FsRequest) :
    callsOf t (calls ++ [(t', a)]) = callsOf t calls ++ if t' = t then [(t', a)] else [] := by
  unfold callsOf
  rw [List.filter_append]
  split <;> simp_all

theorem OwnObjects.shorter {c : τ × FsRequest} (h : OwnObjects owner name (calls ++ [c])) :
    OwnObjects owner name calls := by
  refine ⟨fun t fs hmem => h.own t fs (List.mem_append_left _ hmem), fun t => ?_⟩
  have hallows := h.allows t
  rw [callsOf_concat] at hallows
  split at hallows
  · exact (SeqSpec.allowsAll_concat.mp hallows).1
  · rwa [List.append_nil] at hallows

omit [DecidableEq τ] in
/-- Calls leave the names as they are. -/
theorem afterAll_name (r : Registry) (calls : List (τ × FsRequest)) :
    (registrySpec.afterAll r calls).name = r.name := by
  induction calls generalizing r with
  | nil => rfl
  | cons c calls ih =>
    obtain ⟨t, a⟩ := c
    refine (ih _).trans ?_
    cases a <;> rfl

/-- What is registered is registered by the calls of its owner alone. -/
theorem OwnObjects.mem_owner (h : OwnObjects owner name calls)
    (hmem : fs ∈ (registrySpec.afterAll ⟨[], name⟩ calls).objects) :
    fs ∈ (registrySpec.afterAll ⟨[], name⟩ (callsOf (owner fs) calls)).objects := by
  induction calls using List.reverseRecOn with
  | nil => exact hmem
  | append_singleton calls c ih =>
    obtain ⟨t, a⟩ := c
    have hbefore := ih h.shorter
    have hname := afterAll_name ⟨[], name⟩ calls
    have hname' := afterAll_name ⟨[], name⟩ (callsOf (owner fs) calls)
    rw [SeqSpec.afterAll_concat] at hmem
    rw [callsOf_concat]
    generalize registrySpec.afterAll ⟨[], name⟩ calls = r at hmem hbefore hname
    cases a with
    | register f =>
      have hmem : fs ∈ f :: r.objects := hmem
      by_cases ht : t = owner fs
      · rw [if_pos ht, SeqSpec.afterAll_concat]
        rcases List.mem_cons.mp hmem with rfl | hmem
        · exact List.mem_cons_self
        · exact List.mem_cons_of_mem _ (hbefore hmem)
      · rw [if_neg ht, List.append_nil]
        rcases List.mem_cons.mp hmem with rfl | hmem
        · exact absurd (h.own t fs (by simp)).symm ht
        · exact hbefore hmem
    | unregister f =>
      obtain ⟨hmem, hother⟩ := List.mem_filter.mp (hmem : fs ∈ r.objects.filter _)
      by_cases ht : t = owner fs
      · rw [if_pos ht, SeqSpec.afterAll_concat]
        refine List.mem_filter.mpr ⟨hbefore hmem, ?_⟩
        rw [hname']
        rw [hname] at hother
        exact hother
      · rw [if_neg ht, List.append_nil]
        exact hbefore hmem
    | get name' =>
      by_cases ht : t = owner fs
      · rw [if_pos ht, SeqSpec.afterAll_concat]
        exact hbefore hmem
      · rw [if_neg ht, List.append_nil]
        exact hbefore hmem

/-- **Each task's care is enough**: no call meets an object that it registers in the registry. -/
theorem OwnObjects.allowsAll (h : OwnObjects owner name calls) :
    registrySpec.AllowsAll ⟨[], name⟩ calls := by
  induction calls using List.reverseRecOn with
  | nil => exact trivial
  | append_singleton calls c ih =>
    obtain ⟨t, a⟩ := c
    refine SeqSpec.allowsAll_concat.mpr ⟨ih h.shorter, ?_⟩
    cases a with
    | unregister _ => exact trivial
    | get _ => exact trivial
    | register fs =>
      obtain rfl := h.own t fs (by simp)
      have hallows := h.allows (owner fs)
      rw [callsOf_concat, if_pos rfl] at hallows
      exact fun hmem => (SeqSpec.allowsAll_concat.mp hallows).2 (h.shorter.mem_owner hmem)

/-! ### Interleavings -/

variable {y₀ y₁ y y' : FsSystem τ}

/-- No task has made a call, and the list head is initialised. -/
structure FsBoot (name : ℕ → CStr) (y₀ : FsSystem τ) : Prop where
  fresh : y₀.Fresh
  shared : Represents y₀.shared ⟨[], name⟩

/-- Tasks that have made no call; all objects are called `aaaa`. -/
def fsStart : FsSystem ℕ where
  flag := false
  shared := ⟨clistInit (fun _ => ⟨none, none⟩) .head, fun _ => longName 4⟩
  phase _ := .outside
  taken := []
  done := []

theorem fsStart_boot : FsBoot (fun _ => longName 4) fsStart :=
  ⟨⟨rfl, fun _ => rfl, rfl, rfl⟩, represents_init _ _⟩

/-- Task 0 registers object 1. -/
theorem fsStart_registers :
    ∃ y, Relation.ReflTransGen (LockStep fsSection) fsStart y ∧
      y.taken = [(0, .register 1)] ∧ y.done = [(0, .register 1, none)] ∧
      nextWords y.shared.nodes .head = some (.entry 1) ∧
      nextWords y.shared.nodes (.entry 1) = some .head := by
  refine ⟨_, .tail (.tail (.tail (.tail (.tail (.tail (.tail .refl
    (.call 0 (.register 1) rfl)) (.take 0 (.register 1) rfl rfl))
    (.goOn 0 (.register 1) _ _ _ rfl rfl)) (.goOn 0 (.register 1) _ _ _ rfl rfl))
    (.goOn 0 (.register 1) _ _ _ rfl rfl)) (.finish 0 (.register 1) _ _ _ rfl rfl))
    (.unlock 0 (.register 1) none rfl), rfl, rfl, rfl, rfl⟩

theorem fsStart_own :
    OwnObjects (fun _ => 0) (fun _ => longName 4) [((0 : ℕ), FsRequest.register 1)] where
  own t fs hmem := by
    rw [List.mem_singleton] at hmem
    exact (Prod.mk.inj hmem).1.symm
  allows t := by
    have hallows := callsOf_concat t 0 [] (.register 1)
    rw [List.nil_append] at hallows
    rw [hallows]
    split
    · exact ⟨List.not_mem_nil, trivial⟩
    · exact trivial

/-- Exactly these objects are on the list, for whoever goes through it now. -/
def Lists (s : FsTypes) (objects : List ℕ) : Prop :=
  ∀ f, OnChain (nextWords s.nodes) .head (.entry f) ↔ f ∈ objects

theorem lists_of_ring {heap : NodeHeap FsNode} {objects : List ℕ}
    (hring : Ring heap .head (objects.map .entry))
    (hnext : nextWords s.nodes = nextWords heap) : Lists s objects := by
  intro f
  rw [hnext, hring.onChain_iff]
  simp

/-- The ring is as it was for a node that is not in it. -/
theorem lists_of_prepared {heap : NodeHeap FsNode} (fs : ℕ) (v : Option FsNode)
    (hring : Ring heap .head (r.objects.map .entry)) (hnew : fs ∉ r.objects)
    (hnext : nextWords s.nodes = Function.update (nextWords heap) (.entry fs) v) :
    Lists s r.objects := by
  have hframe : Ring (setNext heap (.entry fs) v) .head (r.objects.map .entry) := by
    refine hring.frame fun c hc => ?_
    have hne : c ≠ .entry fs := fun heq => entry_notMem hnew (heq ▸ hc)
    simp [setNext, hne]
  exact lists_of_ring hframe (hnext.trans (nextWords_setNext heap (.entry fs) v).symm)

/-- What is left of the objects in the middle of `file_system_type_unregister`. -/
theorem mem_others (fs : ℕ) {done rest : List ℕ} (hobjects : r.objects = done ++ rest) :
    (∀ f ∈ r.others fs done ++ rest, f ∈ r.objects) ∧
      ∀ f ∈ r.objects, r.name f ≠ r.name fs → f ∈ r.others fs done ++ rest := by
  unfold Registry.others
  rw [hobjects]
  constructor
  · intro f hf
    exact List.mem_append.mpr ((List.mem_append.mp hf).imp (fun h => (List.mem_filter.mp h).1) id)
  · intro f hf hne
    exact List.mem_append.mpr
      ((List.mem_append.mp hf).imp (fun h => List.mem_filter.mpr ⟨h, by simpa using hne⟩) id)

/-- The objects on the list inside a call: those that were registered before it, at least as long
    as the call does not remove them. -/
theorem FsAt.lists (h : FsAt r a x s n) :
    ∃ objects, Lists s objects ∧ (∀ f ∈ objects, f ∈ r.objects) ∧
      ∀ f ∈ r.objects, f ∈ (r.after a.call).objects → f ∈ objects := by
  have hother : ∀ {fs f : ℕ}, f ∈ (r.after (.unregister fs)).objects → r.name f ≠ r.name fs :=
    fun hf => by simpa using (List.mem_filter.mp hf).2
  cases h with
  | addFirst fs s h hnew =>
    exact ⟨r.objects, lists_of_ring h.ring rfl, fun _ => id, fun _ hf _ => hf⟩
  | addNext fs heap first hring hfirst hnew =>
    exact ⟨r.objects, lists_of_ring hring (nextWords_setPrev _ _ _), fun _ => id, fun _ hf _ => hf⟩
  | addPrev fs heap first hring hfirst hnew =>
    refine ⟨r.objects, lists_of_prepared fs (some first) hring hnew ?_, fun _ => id,
      fun _ hf _ => hf⟩
    rw [nextWords_setNext, nextWords_setPrev]
  | addHead fs heap first hring hfirst hnew =>
    refine ⟨r.objects, lists_of_prepared fs (some first) hring hnew ?_, fun _ => id,
      fun _ hf _ => hf⟩
    rw [nextWords_setPrev, nextWords_setNext, nextWords_setPrev]
  | compare fs s done rest hobjects hring hnames =>
    obtain ⟨hsub, hstay⟩ := mem_others fs hobjects
    exact ⟨_, lists_of_ring hring rfl, hsub, fun f hf hafter => hstay f hf (hother hafter)⟩
  | deleteNext fs f s done rest hobjects hring hsame hnames =>
    obtain ⟨hsub, hstay⟩ := mem_others fs hobjects
    exact ⟨_, lists_of_ring hring rfl, hsub, fun f hf hafter => hstay f hf (hother hafter)⟩
  | deletePrev fs f heap p v done rest hobjects hring hsame hprev hnext =>
    rw [List.map_append, List.map_cons] at hring
    obtain ⟨hne, hdeleted⟩ := ring_deleteStores hring hprev hnext
    rw [← List.map_append] at hdeleted
    obtain ⟨hsub, hstay⟩ := mem_others fs hobjects
    refine ⟨_, lists_of_ring hdeleted (nextWords_setPrev _ _ _).symm, fun g hg => hsub g ?_,
      fun g hg hafter => ?_⟩
    · exact List.mem_append.mpr ((List.mem_append.mp hg).imp id (List.mem_cons_of_mem f))
    · have hg' := hstay g hg (hother hafter)
      have hgf : g ≠ f := by
        rintro rfl
        exact hother hafter hsame
      simpa [hgf] using hg'
  | advance fs c s done rest hobjects hring hnext hnames =>
    obtain ⟨hsub, hstay⟩ := mem_others fs hobjects
    exact ⟨_, lists_of_ring hring rfl, hsub, fun f hf hafter => hstay f hf (hother hafter)⟩
  | search name s done rest hobjects h hnone =>
    exact ⟨r.objects, lists_of_ring h.ring rfl, fun _ => id, fun _ hf _ => hf⟩
  | searchOn name c s done rest hobjects h hnone hnext =>
    exact ⟨r.objects, lists_of_ring h.ring rfl, fun _ => id, fun _ hf _ => hf⟩

/-- The registry after the calls that have given the lock back. -/
def registryDone (name : ℕ → CStr) (y : FsSystem τ) : Registry :=
  registrySpec.afterAll ⟨[], name⟩ (y.done.map requestOf)

/-- The registry after the calls that have taken the lock. -/
def registryTaken (name : ℕ → CStr) (y : FsSystem τ) : Registry :=
  registrySpec.afterAll ⟨[], name⟩ y.taken

/-- **The list at any time**: what is registered is on it, unless a call in the lock registers or
    removes it. -/
theorem lockRun_lists (hboot : FsBoot name y₀)
    (hrun : Relation.ReflTransGen (LockStep fsSection) y₀ y)
    (hallow : registrySpec.AllowsAll ⟨[], name⟩ y.taken) :
    ∃ objects, Lists y.shared objects ∧
      (∀ f ∈ objects, f ∈ (registryDone name y).objects ∨ f ∈ (registryTaken name y).objects) ∧
      ∀ f ∈ (registryDone name y).objects, f ∈ (registryTaken name y).objects → f ∈ objects := by
  have hinv := lockRun_inv hboot.fresh hrun
  rcases hinv.shared_or_inside fsSection_meets hboot.shared hallow with hrep | ⟨t, a, x, hin⟩
  · exact ⟨_, lists_of_ring hrep.ring rfl, fun _ => Or.inr, fun _ _ => id⟩
  · obtain ⟨s, hreached, htaken, -, hrep, hallowed⟩ :=
      hinv.inside fsSection_meets hboot.shared hallow hin
    obtain ⟨n, hstart⟩ := fsAt_start hrep hallowed
    obtain ⟨m, hat⟩ := (fsSection_outlined _ a).reaches hstart hreached
    obtain ⟨objects, hlists, hsub, hstay⟩ := hat.lists
    refine ⟨objects, hlists, fun f hf => Or.inl (hsub f hf), fun f hf hafter => hstay f hf ?_⟩
    unfold registryTaken at hafter
    rw [htaken, SeqSpec.afterAll_concat] at hafter
    exact hafter

/-- A step of a task keeps the list together. -/
theorem lockStep_store (hboot : FsBoot name y₀)
    (hrun : Relation.ReflTransGen (LockStep fsSection) y₀ y) (hstep : LockStep fsSection y y')
    (hallow : registrySpec.AllowsAll ⟨[], name⟩ y.taken) : FsStore y.shared y'.shared := by
  have hinside : ∀ {t : τ} {a : FsRequest} {x : FsPoint}, y.phase t = .inside a x →
      ∃ r n, FsGoes r a x y.shared n := by
    intro t a x hin
    obtain ⟨s, hreached, -, -, hrep, hallowed⟩ :=
      (lockRun_inv hboot.fresh hrun).inside fsSection_meets hboot.shared hallow hin
    obtain ⟨n, hstart⟩ := fsAt_start hrep hallowed
    obtain ⟨m, hat⟩ := (fsSection_outlined _ a).reaches hstart hreached
    exact ⟨_, m, hat.goes⟩
  have hsame : ∀ {x : FsPoint} {s' s'' : FsTypes} {out out' : FsPoint ⊕ Option ℕ},
      fsMicro x y.shared = some (s', out) → fsMicro x y.shared = some (s'', out') → s'' = s' := by
    intro x s' s'' out out' h h'
    exact (Prod.mk.inj (Option.some.inj (h'.symm.trans h))).1
  cases hstep with
  | call _ _ _ => exact .keep
  | spin _ _ _ _ => exact .keep
  | take _ _ _ _ => exact .keep
  | unlock _ _ _ _ => exact .keep
  | goOn t a x x' s' hin hmicro =>
    obtain ⟨r, n, ⟨_, s'', _, hmicro', _, _, hstore⟩ | ⟨_, s'', hmicro', _, hstore⟩⟩ := hinside hin
    · exact hsame hmicro hmicro' ▸ hstore
    · exact hsame hmicro hmicro' ▸ hstore
  | finish t a x found s' hin hmicro =>
    obtain ⟨r, n, ⟨_, s'', _, hmicro', _, _, hstore⟩ | ⟨_, s'', hmicro', _, hstore⟩⟩ := hinside hin
    · exact hsame hmicro hmicro' ▸ hstore
    · exact hsame hmicro hmicro' ▸ hstore

/-- `file_system_type_print_debug`, which began at `y₁`: the node in hand, and those that have been
    printed. -/
abbrev PrintDebug (y₁ y : FsSystem τ) (c : FsNode) (printed : List FsNode) : Prop :=
  Traversal (fun y => nextWords y.shared.nodes) (LockStep fsSection) .head y₁ y c printed

end Rotary

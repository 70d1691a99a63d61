import Rotary.Lib.Ring

namespace Rotary

open Lib

/-!
# The circular lists of `list.h`

`clist_init`, `clist_add`, `clist_add_before`, `clist_add_after` and `clist_delete_node` as
sequences of stores into the node heap.  The node type `ν` stays a parameter: the buddy allocator
and the scheduler embed their list nodes in different structs.

* `clistAdd_spliced`, `clistAddBefore_spliced`, `clistAddAfter_spliced`,
  `clistDeleteNode_joined` — the words that each of them leaves behind;
* `clistAdd_ring` / `clistDeleteNode_ring` — on a well-formed ring the stores have exactly
  the effect of a list insertion behind the head and of a list removal;
* `clistAdd_frame` / `clistDeleteNode_frame` — no node outside the ring (and the new node)
  is written, so every other ring survives.
-/

variable {ν : Type} [DecidableEq ν] {h : NodeHeap ν} {head node : ν} {xs pre post : List ν}

/-- `clist_init`: point both words of the node at the node itself. -/
def clistInit (h : NodeHeap ν) (node : ν) : NodeHeap ν :=
  setPrev (setNext h node (some node)) node (some node)

/-- `clist_add`: insert `node` right behind `head`. -/
def clistAdd (h : NodeHeap ν) (head node : ν) : NodeHeap ν :=
  -- if(node_head->next != NULL) node_head->next->prev = node_new;
  let h := match (h head).next with
    | some n => setPrev h n (some node)
    | none => h
  let h := setNext h node (h head).next
  let h := setPrev h node (some head)
  setNext h head (some node)

/-- `clist_add_before`: insert `nodeNew` in front of `nodeRef`.  It writes through
    `node_new->prev`. -/
def clistAddBefore (h : NodeHeap ν) (nodeRef nodeNew : Option ν) : Option (NodeHeap ν) :=
  match nodeRef, nodeNew with
  | some ref, some new => do
    let h := setNext h new (some ref)
    let h := setPrev h new (h ref).prev
    let h := setPrev h ref (some new)
    let p ← (h new).prev
    return setNext h p (some new)
  | _, _ => some h

/-- `clist_add_after`: insert `nodeNew` behind `nodeRef`.  It writes through `node_new->next`. -/
def clistAddAfter (h : NodeHeap ν) (nodeRef nodeNew : Option ν) : Option (NodeHeap ν) :=
  match nodeRef, nodeNew with
  | some ref, some new => do
    let h := setNext h new (h ref).next
    let h := setPrev h new (some ref)
    let h := setNext h ref (some new)
    let n ← (h new).next
    return setPrev h n (some new)
  | _, _ => some h

/-- `clist_delete_node`: make the two neighbours of `node` point at each other.  A null
    neighbour, whose word the source would write through, writes nothing here. -/
def clistDeleteNode (h : NodeHeap ν) (node : ν) : NodeHeap ν :=
  let h := match (h node).prev with
    | some p => setNext h p (h node).next
    | none => h
  match (h node).next with
  | some n => setPrev h n (h node).prev
  | none => h

/-! ### Initialisation -/

theorem clistInit_self (h : NodeHeap ν) (node : ν) :
    clistInit h node node = ⟨some node, some node⟩ := by
  simp [clistInit, setNext, setPrev]

theorem clistInit_other (h : NodeHeap ν) {c : ν} (hc : c ≠ node) :
    clistInit h node c = h c := by
  simp [clistInit, setNext, setPrev, hc]

/-! ### Insertion -/

/-- **`clist_add`** puts the node between the head and what the head points at. -/
theorem clistAdd_spliced (h : NodeHeap ν) (hne : node ≠ head) :
    Spliced h (clistAdd h head node) head node (h head).next := by
  constructor
  · intro c
    unfold clistAdd
    cases hnext : (h head).next with
    | none => by_cases hc : c = head <;> by_cases hn : c = node <;> simp_all
    | some n => by_cases hc : c = head <;> by_cases hn : c = node <;> simp_all
  · intro c
    unfold clistAdd
    cases hnext : (h head).next with
    | none => by_cases hn : c = node <;> simp_all
    | some n => by_cases hn : c = node <;> by_cases hc : c = n <;> simp_all

/-- **`clist_add` on a ring** inserts the node at the front. -/
theorem clistAdd_ring (hr : Ring h head xs) (hnew : node ∉ head :: xs) :
    Ring (clistAdd h head node) head (node :: xs) := by
  have hne : node ≠ head := fun heq => hnew (heq ▸ List.mem_cons_self)
  have hw := clistAdd_spliced h hne
  rw [hr.next_head] at hw
  have hr : Ring h head ([] ++ xs) := hr
  exact hr.spliced hw hnew

/-- `clist_add` writes only the new node, the head and the head's old successor. -/
theorem clistAdd_frame (hr : Ring h head xs) (hnew : node ∉ head :: xs) {c : ν}
    (hc : c ∉ head :: xs) (hcn : c ≠ node) : clistAdd h head node c = h c := by
  have hne : node ≠ head := fun heq => hnew (heq ▸ List.mem_cons_self)
  obtain ⟨d, hd, hnext⟩ := hr.next_mem List.mem_cons_self
  apply (clistAdd_spliced h hne).frame
  · exact fun heq => hc (heq ▸ List.mem_cons_self)
  · exact hcn
  · rw [hnext]
    intro heq
    exact hc (Option.some.inj heq ▸ hd)

/-- **`clist_add_before`** puts the node between the reference and the node in front of it. -/
theorem clistAddBefore_spliced {ref p : ν} (hprev : (h ref).prev = some p) (hne : node ≠ ref) :
    ∃ h', clistAddBefore h (some ref) (some node) = some h' ∧ Spliced h h' p node (some ref) := by
  have hne' : ref ≠ node := hne.symm
  refine ⟨setNext (setPrev (setPrev (setNext h node (some ref)) node (some p)) ref (some node)) p
    (some node), ?_, ?_⟩
  · unfold clistAddBefore
    simp only [setPrev_prev, setNext_prev, if_neg hne, hprev, if_true, Option.bind_eq_bind,
      Option.bind_some]
    rfl
  · constructor
    · intro c
      by_cases hp : c = p <;> by_cases hn : c = node <;> simp_all
    · intro c
      by_cases hn : c = node <;> by_cases hc : c = ref <;> simp_all

/-- **`clist_add_after`** puts the node between the reference and the node behind it. -/
theorem clistAddAfter_spliced {ref n : ν} (hnext : (h ref).next = some n) (hne : node ≠ ref)
    (hn : n ≠ node) :
    ∃ h', clistAddAfter h (some ref) (some node) = some h' ∧ Spliced h h' ref node (some n) := by
  have hne' : ref ≠ node := hne.symm
  refine ⟨setPrev (setNext (setPrev (setNext h node (some n)) node (some ref)) ref (some node)) n
    (some node), ?_, ?_⟩
  · unfold clistAddAfter
    simp only [setPrev_next, setNext_next, if_neg hne, hnext, if_true, Option.bind_eq_bind,
      Option.bind_some]
    rfl
  · constructor
    · intro c
      by_cases hr : c = ref <;> by_cases hnode : c = node <;> simp_all
    · intro c
      by_cases hc : c = n <;> by_cases hnode : c = node <;> simp_all

/-! ### Removal -/

/-- **`clist_delete_node`** makes the two neighbours of the node point at each other. -/
theorem clistDeleteNode_joined {p : ν} (hprev : (h node).prev = some p) (hne : node ≠ p) :
    Joined h (clistDeleteNode h node) p (h node).next := by
  unfold clistDeleteNode
  simp only [hprev, setNext_next, if_neg hne, setNext_prev]
  constructor
  · intro c
    cases (h node).next with
    | none => by_cases hc : c = p <;> simp [hc]
    | some n => by_cases hc : c = p <;> simp [hc]
  · intro c
    cases (h node).next with
    | none => simp
    | some n => by_cases hc : c = n <;> simp [hc]

/-- The words after `clist_delete_node` on a member of a ring. -/
theorem clistDeleteNode_words (hr : Ring h head (pre ++ node :: post)) (c : ν) :
    (clistDeleteNode h node c).next =
        (if some c = (h node).prev then (h node).next else (h c).next) ∧
      (clistDeleteNode h node c).prev =
        (if some c = (h node).next then (h node).prev else (h c).prev) := by
  have hp := hr.neighbours.1
  have hw := clistDeleteNode_joined hp hr.ne_prev
  rw [hw.next, hw.prev, hp]
  simp only [Option.some.injEq, and_self]

/-- **`clist_delete_node` on a ring** removes exactly that node. -/
theorem clistDeleteNode_ring (hr : Ring h head (pre ++ node :: post)) :
    Ring (clistDeleteNode h node) head (pre ++ post) := by
  obtain ⟨hp, hn⟩ := hr.neighbours
  have hw := clistDeleteNode_joined hp hr.ne_prev
  rw [hn] at hw
  exact hr.joined hw

/-- `clist_delete_node` writes only the two neighbours, which belong to the same ring. -/
theorem clistDeleteNode_frame (hr : Ring h head (pre ++ node :: post)) {c : ν}
    (hc : c ∉ head :: (pre ++ node :: post)) : clistDeleteNode h node c = h c := by
  obtain ⟨hp, hn⟩ := hr.neighbours
  apply (clistDeleteNode_joined hp hr.ne_prev).frame
  · have hlast : pre.getLastD head ∈ head :: pre := List.getLastD_mem_cons
    exact fun heq => hc (heq ▸ List.mem_append_left (node :: post) hlast)
  · obtain ⟨d, hd, hnext⟩ := hr.next_mem (List.mem_cons_of_mem head
      (List.mem_append_right pre List.mem_cons_self))
    rw [hnext]
    intro heq
    exact hc (Option.some.inj heq ▸ hd)

end Rotary

import Rotary.Core.List
import Rotary.Core.Machine

namespace Rotary

open Lib

/-!
# The linear lists of `list.h` over a node heap

The `llist_` functions as sequences of stores into the words of nodes, the null pointer being
`none`.  A parameter that the source compares with `NULL` is an `Option`.

* `Nodes.llistAdd_spliced`, `Nodes.llistAddAfter_spliced`, `Nodes.llistAddBefore_spliced`,
  `Nodes.llistDeleteNode_joined` — the words that each of them leaves behind;
* `Nodes.llistGetLast_eq` — on a list that ends, enough steps find its last node.
-/

variable {ν : Type} [DecidableEq ν] {h : NodeHeap ν} {head node ref p : ν} {q : Option ν}

namespace Nodes

/-- `llist_init`. -/
def llistInit (h : NodeHeap ν) (firstNode : Option ν) : NodeHeap ν :=
  match firstNode with
  | none => h
  | some first => setPrev (setNext h first none) first none

/-- `llist_add`: word for word the body of `clist_add`. -/
def llistAdd (h : NodeHeap ν) (nodeHead nodeNew : ν) : NodeHeap ν :=
  clistAdd h nodeHead nodeNew

/-- `llist_add_before`. -/
def llistAddBefore (h : NodeHeap ν) (nodeRef nodeNew : Option ν) : NodeHeap ν :=
  match nodeRef, nodeNew with
  | some ref, some new =>
    let h := setNext h new (some ref)
    let h := setPrev h new (h ref).prev
    -- the preceding node, if there is one, gets its `next` word updated
    let h := setNextIf h (h ref).prev (some new)
    setPrev h ref (some new)
  | _, _ => h

/-- `llist_add_after`. -/
def llistAddAfter (h : NodeHeap ν) (nodeRef nodeNew : Option ν) : NodeHeap ν :=
  match nodeRef, nodeNew with
  | some ref, some new =>
    let h := setNext h new (h ref).next
    let h := setPrev h new (some ref)
    let h := setPrevIf h (h ref).next (some new)
    setNext h ref (some new)
  | _, _ => h

/-- `llist_delete_node`: `clist_delete_node` with a test of either neighbour. -/
def llistDeleteNode (h : NodeHeap ν) (node : Option ν) : NodeHeap ν :=
  match node with
  | none => h
  | some node =>
    let h := setNextIf h (h node).prev (h node).next
    setPrevIf h (h node).next (h node).prev

/-- `llist_get_last`, following `next` for at most `fuel` nodes.  `E_ERROR`, cast to a pointer, is
    the answer for the null pointer only. -/
def llistGetLast (h : NodeHeap ν) : ℕ → Option ν → Option (Except Status ν)
  | 0, _ => none
  | _ + 1, none => some (.error .error)
  | fuel + 1, some current =>
    match (h current).next with
    | none => some (.ok current)
    | some n => llistGetLast h fuel (some n)

/-- `llist_add_end`; `none` when the walk to the last node did not end within `fuel` nodes. -/
def llistAddEnd (h : NodeHeap ν) (fuel : ℕ) (nodeRef nodeNew : Option ν) : Option (NodeHeap ν) :=
  match nodeNew with
  | none => some h
  | some new =>
    match nodeRef with
    | none => some (llistInit h (some new))
    | some ref =>
      match llistGetLast h fuel (some ref) with
      | none => none
      | some (.error _) => some h
      | some (.ok last) => some (llistAddAfter h (some last) (some new))

/-! ### The words they leave -/

theorem llistAdd_spliced (h : NodeHeap ν) (hne : node ≠ head) :
    Spliced h (llistAdd h head node) head node (h head).next :=
  clistAdd_spliced h hne

/-- **`llist_add_after`** puts the node between the reference and what the reference points at. -/
theorem llistAddAfter_spliced (h : NodeHeap ν) (hne : node ≠ ref) (hout : node ∉ (h ref).next) :
    Spliced h (llistAddAfter h (some ref) (some node)) ref node (h ref).next := by
  have hne' : ref ≠ node := hne.symm
  have hout' : some node ≠ (h ref).next := Ne.symm hout
  constructor
  · intro c
    unfold llistAddAfter
    by_cases hc : c = ref <;> by_cases hn : c = node <;> simp_all
  · intro c
    unfold llistAddAfter
    by_cases hn : c = node <;> simp_all

/-- **`llist_add_before`** puts the node between the reference and the node in front of it. -/
theorem llistAddBefore_spliced (hprev : (h ref).prev = some p) (hne : node ≠ ref) :
    Spliced h (llistAddBefore h (some ref) (some node)) p node (some ref) := by
  constructor
  · intro c
    unfold llistAddBefore
    by_cases hp : c = p <;> by_cases hn : c = node <;> simp_all
  · intro c
    unfold llistAddBefore
    by_cases hn : c = node <;> by_cases hc : c = ref <;> simp_all

/-- **`llist_delete_node`** makes the two neighbours of the node point at each other. -/
theorem llistDeleteNode_joined (hprev : (h node).prev = some p) (hne : node ≠ p) :
    Joined h (llistDeleteNode h (some node)) p (h node).next := by
  constructor
  · intro c
    unfold llistDeleteNode
    by_cases hc : c = p <;> simp_all
  · intro c
    unfold llistDeleteNode
    by_cases hc : some c = (h node).next <;> simp_all

/-! ### The last node -/

omit [DecidableEq ν] in
/-- On a list that ends at null, enough steps find its last node. -/
theorem llistGetLast_eq {a : ν} {xs : List ν} (hs : Span h a xs none) {fuel : ℕ}
    (hfuel : xs.length < fuel) : llistGetLast h fuel (some a) = some (.ok (xs.getLastD a)) := by
  induction xs generalizing a fuel with
  | nil =>
    cases fuel with
    | zero => exact absurd hfuel (Nat.not_lt_zero _)
    | succ fuel => simp only [llistGetLast, hs.1, List.getLastD_nil]
  | cons x xs ih =>
    cases fuel with
    | zero => exact absurd hfuel (Nat.not_lt_zero _)
    | succ fuel =>
      obtain ⟨⟨hx, -⟩, hrest⟩ := hs
      rw [List.getLastD_cons]
      simp only [llistGetLast, hx]
      exact ih hrest (Nat.lt_of_succ_lt_succ hfuel)

end Nodes

end Rotary

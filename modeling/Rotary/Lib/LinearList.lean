import Rotary.Lib.ByteMem
import Rotary.Lib.Ring

namespace Rotary.Lib

/-!
# Null-terminated doubly linked lists in a byte memory

A node is two words: the address of the next node, and four bytes behind it the address of the
previous one.  The list begins at an anchor `c`, a node of its own that is never unlinked, and
its last node has a null `next`.

* `LinearList m c xs` — behind the anchor come exactly the nodes `xs`, linked both ways;
* `Far` — nodes that share no byte, so that a store into one leaves the others;
* `linkWords m` — the words of the nodes as a node heap, where `linearList_iff_span` finds the list
  again as a span;
* `Mirrors` — the memory and a node heap agree on the nodes at hand; a store into the one is a store
  into the other (`Mirrors.storeNext`, `Mirrors.storePrev`).
-/

/-- From the node `c` on, the list consists of the nodes `xs`, linked both ways. -/
def LinearList (m : ByteMem) : ℕ → List ℕ → Prop
  | c, [] => load m c = 0
  | c, x :: xs => load m c = x ∧ x ≠ 0 ∧ load m (x + 4) = c ∧ LinearList m x xs

/-- Two nodes of eight bytes that do not overlap. -/
def Far (x y : ℕ) : Prop := x + 8 ≤ y ∨ y + 8 ≤ x

instance : Std.Symm Far := ⟨fun _ _ h => Or.symm h⟩

variable {m m' : ByteMem} {c v x y : ℕ} {xs pre post : List ℕ}

theorem Far.ne (h : Far x y) : x ≠ y := by
  unfold Far at h
  omega

theorem far_nodup (h : xs.Pairwise Far) : xs.Nodup := h.imp Far.ne

/-! ### The two words of a node under a store

Among nodes that are the same or share no byte, a store into a word of one changes the word of
the same name of that node and nothing else. -/

theorem load_next_store_next (hv : v < 2 ^ 32) (hy : y ≠ x → Far y x) :
    load (store m x v) y = if y = x then v else load m y := by
  by_cases heq : y = x
  · subst heq
    rw [if_pos rfl, load_store m y hv]
  · rw [if_neg heq]
    exact load_store_of_disjoint (by have := hy heq; unfold Far at this; omega)

theorem load_prev_store_next (hy : y ≠ x → Far y x) :
    load (store m x v) (y + 4) = load m (y + 4) := by
  by_cases heq : y = x
  · exact load_store_of_disjoint (by omega)
  · exact load_store_of_disjoint (by have := hy heq; unfold Far at this; omega)

theorem load_next_store_prev (hy : y ≠ x → Far y x) :
    load (store m (x + 4) v) y = load m y := by
  by_cases heq : y = x
  · exact load_store_of_disjoint (by omega)
  · exact load_store_of_disjoint (by have := hy heq; unfold Far at this; omega)

theorem load_prev_store_prev (hv : v < 2 ^ 32) (hy : y ≠ x → Far y x) :
    load (store m (x + 4) v) (y + 4) = if y = x then v else load m (y + 4) := by
  by_cases heq : y = x
  · subst heq
    rw [if_pos rfl, load_store m (y + 4) hv]
  · rw [if_neg heq]
    exact load_store_of_disjoint (by have := hy heq; unfold Far at this; omega)

/-! ### Linked lists -/

/-- Following `next` alone visits the nodes and then meets null. -/
theorem LinearList.chain (h : LinearList m c xs) : Chain m (load m c) xs := by
  induction xs generalizing c with
  | nil => exact h
  | cons x xs ih =>
    obtain ⟨hx, hne, -, htail⟩ := h
    exact chain_cons.mpr ⟨hx, hne, ih htail⟩

/-- The list depends on the words of its nodes only. -/
theorem LinearList.congr (h : LinearList m c xs)
    (hnext : ∀ y ∈ c :: xs, load m' y = load m y)
    (hprev : ∀ y ∈ xs, load m' (y + 4) = load m (y + 4)) : LinearList m' c xs := by
  induction xs generalizing c with
  | nil =>
    show load m' c = 0
    rw [hnext c List.mem_cons_self]
    exact h
  | cons x xs ih =>
    obtain ⟨hx, hne, hback, htail⟩ := h
    refine ⟨(hnext c List.mem_cons_self).trans hx, hne, ?_, ?_⟩
    · exact (hprev x List.mem_cons_self).trans hback
    · exact ih htail (fun y hy => hnext y (List.mem_cons_of_mem c hy))
        (fun y hy => hprev y (List.mem_cons_of_mem x hy))

/-! ### The words of nodes -/

/-- The pointer that a word holds. -/
def pointer (v : ℕ) : Option ℕ := if v = 0 then none else some v

theorem pointer_zero : pointer 0 = none := rfl

theorem pointer_of_ne (hv : v ≠ 0) : pointer v = some v := if_neg hv

theorem pointer_inj {w : ℕ} (h : pointer v = pointer w) : v = w := by
  unfold pointer at h
  split at h <;> split at h <;> simp_all

/-- The two words of the nodes at every address. -/
def linkWords (m : ByteMem) : NodeHeap ℕ := fun a => ⟨pointer (load m a), pointer (load m (a + 4))⟩

/-- A list in the memory is a span of its nodes. -/
theorem linearList_iff_span (hc : c ≠ 0) (h0 : ∀ y ∈ xs, y ≠ 0) :
    LinearList m c xs ↔ Span (linkWords m) c xs none := by
  induction xs generalizing c with
  | nil =>
    have hnull : pointer (load m c) = none ↔ load m c = 0 := by
      rw [← pointer_zero]
      exact ⟨pointer_inj, congrArg pointer⟩
    simp [LinearList, Span, linkWords, hnull]
  | cons x xs ih =>
    have hx : x ≠ 0 := h0 x List.mem_cons_self
    have hnext : pointer (load m c) = some x ↔ load m c = x := by
      rw [← pointer_of_ne hx]
      exact ⟨pointer_inj, congrArg pointer⟩
    have hprev : pointer (load m (x + 4)) = some c ↔ load m (x + 4) = c := by
      rw [← pointer_of_ne hc]
      exact ⟨pointer_inj, congrArg pointer⟩
    have hrest := ih hx fun y hy => h0 y (List.mem_cons_of_mem x hy)
    show (load m c = x ∧ x ≠ 0 ∧ load m (x + 4) = c ∧ LinearList m x xs) ↔
      (pointer (load m c) = some x ∧ pointer (load m (x + 4)) = some c) ∧ _
    rw [hrest, hnext, hprev]
    tauto

/-- The memory `m` has the words `h` at the nodes `ns`, and is `base` outside the nodes `ws`. -/
structure Mirrors (ns ws : List ℕ) (base m : ByteMem) (h : NodeHeap ℕ) : Prop where
  words : ∀ y ∈ ns, linkWords m y = h y
  outside : ∀ a, (∀ y ∈ ws, a < y ∨ y + 8 ≤ a) → m a = base a

namespace Mirrors

variable {ns ws : List ℕ} {base : ByteMem} {h : NodeHeap ℕ}

theorem refl (ns ws : List ℕ) (m : ByteMem) : Mirrors ns ws m m (linkWords m) :=
  ⟨fun _ _ => rfl, fun _ _ => rfl⟩

theorem next (hm : Mirrors ns ws base m h) (hx : x ∈ ns) : (h x).next = pointer (load m x) := by
  rw [← hm.words x hx]
  rfl

theorem prev (hm : Mirrors ns ws base m h) (hx : x ∈ ns) :
    (h x).prev = pointer (load m (x + 4)) := by
  rw [← hm.words x hx]
  rfl

/-- A store into the first word of a node. -/
theorem storeNext (hm : Mirrors ns ws base m h) (hfar : ns.Pairwise Far) (hsub : ws ⊆ ns)
    (hx : x ∈ ws) (hv : v < 2 ^ 32) :
    Mirrors ns ws base (store m x v) (setNext h x (pointer v)) := by
  constructor
  · intro y hy
    have hapart : y ≠ x → Far y x := fun hne => hfar.forall hy (hsub hx) hne
    ext : 1
    · show pointer (load (store m x v) y) = _
      rw [load_next_store_next hv hapart, setNext_next, hm.next hy]
      by_cases heq : y = x <;> simp [heq]
    · show pointer (load (store m x v) (y + 4)) = _
      rw [load_prev_store_next hapart, setNext_prev, hm.prev hy]
  · intro a ha
    rw [← hm.outside a ha]
    have hax := ha x hx
    exact store_of_not_mem (by omega)

/-- A store into the second word of a node. -/
theorem storePrev (hm : Mirrors ns ws base m h) (hfar : ns.Pairwise Far) (hsub : ws ⊆ ns)
    (hx : x ∈ ws) (hv : v < 2 ^ 32) :
    Mirrors ns ws base (store m (x + 4) v) (setPrev h x (pointer v)) := by
  constructor
  · intro y hy
    have hapart : y ≠ x → Far y x := fun hne => hfar.forall hy (hsub hx) hne
    ext : 1
    · show pointer (load (store m (x + 4) v) y) = _
      rw [load_next_store_prev hapart, setPrev_next, hm.next hy]
    · show pointer (load (store m (x + 4) v) (y + 4)) = _
      rw [load_prev_store_prev hv hapart, setPrev_prev, hm.prev hy]
      by_cases heq : y = x <;> simp [heq]
  · intro a ha
    rw [← hm.outside a ha]
    have hax := ha x hx
    exact store_of_not_mem (by omega)

/-- A store that is made only if the pointer to the node is not null. -/
theorem storeNextIf {q : ℕ} (hm : Mirrors ns ws base m h) (hfar : ns.Pairwise Far) (hsub : ws ⊆ ns)
    (hq : q = 0 ∨ q ∈ ws) (hv : v < 2 ^ 32) :
    Mirrors ns ws base (if q ≠ 0 then store m q v else m)
      (setNextIf h (pointer q) (pointer v)) := by
  by_cases hnull : q = 0
  · rw [if_neg (not_not.mpr hnull), hnull, pointer_zero]
    exact hm
  · rw [if_pos hnull, pointer_of_ne hnull]
    exact hm.storeNext hfar hsub (hq.resolve_left hnull) hv

theorem storePrevIf {q : ℕ} (hm : Mirrors ns ws base m h) (hfar : ns.Pairwise Far) (hsub : ws ⊆ ns)
    (hq : q = 0 ∨ q ∈ ws) (hv : v < 2 ^ 32) :
    Mirrors ns ws base (if q ≠ 0 then store m (q + 4) v else m)
      (setPrevIf h (pointer q) (pointer v)) := by
  by_cases hnull : q = 0
  · rw [if_neg (not_not.mpr hnull), hnull, pointer_zero]
    exact hm
  · rw [if_pos hnull, pointer_of_ne hnull]
    exact hm.storePrev hfar hsub (hq.resolve_left hnull) hv

/-- A span of the words is a list in the memory. -/
theorem linearList (hm : Mirrors ns ws base m h) (hs : Span h c xs none)
    (hin : ∀ y ∈ c :: xs, y ∈ ns) (h0 : ∀ y ∈ c :: xs, y ≠ 0) : LinearList m c xs := by
  rw [linearList_iff_span (h0 c List.mem_cons_self) fun y hy => h0 y (List.mem_cons_of_mem c hy)]
  apply hs.congr
  · intro y hy
    rw [hm.words y (hin y hy)]
  · rintro y (hy | hy)
    · rw [hm.words y (hin y (List.mem_cons_of_mem c hy))]
    · cases hy

end Mirrors

end Rotary.Lib

import Mathlib.Data.List.Pairwise
import Rotary.Core.NodeLists
import Rotary.Lib.LinearList

namespace Rotary

open Lib

/-!
# The linear lists of `list.h`

`llist_add_after` and `llist_delete_node` over nodes at addresses of a byte memory, the null
pointer being 0: unlike the circular lists, the TTY list is edited while its nodes lie inside
heap objects, so that a stray store would be a store into the allocator's data.

* `llistAddAfter_mirrors` / `llistDeleteNode_mirrors` — among nodes that do not overlap, the stores
  into the bytes are those of `Nodes.llistAddAfter` and `Nodes.llistDeleteNode` into the words;
* `llistAddAfter_spec` / `llistDeleteNode_spec` — so on a well-formed list they insert and remove a
  node, and no byte outside the nodes of the list changes.
-/

variable {m : ByteMem} {c x a : ℕ} {ns before behind : List ℕ}

/-- `llist_add_after`. -/
def llistAddAfter (m : ByteMem) (nodeRef nodeNew : ℕ) : ByteMem :=
  if nodeRef = 0 ∨ nodeNew = 0 then m
  else
    let m := store m nodeNew (load m nodeRef)
    let m := store m (nodeNew + 4) nodeRef
    let m := if load m nodeRef ≠ 0 then store m (load m nodeRef + 4) nodeNew else m
    store m nodeRef nodeNew

/-- `llist_delete_node`. -/
def llistDeleteNode (m : ByteMem) (node : ℕ) : ByteMem :=
  if node = 0 then m
  else
    let m := if load m (node + 4) ≠ 0 then store m (load m (node + 4)) (load m node) else m
    if load m node ≠ 0 then store m (load m node + 4) (load m (node + 4)) else m

/-! ### The stores are those into the words -/

section Simulation

variable {us ws : List ℕ} {base : ByteMem} {h : NodeHeap ℕ}

/-- `llist_add_after` on the bytes does what it does on the words. -/
theorem llistAddAfter_mirrors (hm : Mirrors us ws base m h) (hfar : us.Pairwise Far)
    (hsub : ws ⊆ us) (hcw : c ∈ ws) (hxw : x ∈ ws) (hnext : load m c = 0 ∨ load m c ∈ ws)
    (hc : c ≠ 0) (hx : x ≠ 0) (hc32 : c < 2 ^ 32) (hx32 : x < 2 ^ 32) :
    Mirrors us ws base (llistAddAfter m c x) (Nodes.llistAddAfter h (some c) (some x)) := by
  unfold llistAddAfter Nodes.llistAddAfter
  rw [if_neg (not_or.mpr ⟨hc, hx⟩)]
  have hm₁ := hm.storeNext hfar hsub hxw (load_lt m c)
  have hm₂ := hm₁.storePrev hfar hsub hxw hc32
  -- the `next` word of the reference is read again, and is still the old one
  have hread : load (store (store m x (load m c)) (x + 4) c) c = load m c := by
    apply pointer_inj
    rw [← hm₂.next (hsub hcw), setPrev_next, setNext_next, hm.next (hsub hcw), ite_self]
  rw [← hread] at hnext
  have hm₃ := hm₂.storePrevIf hfar hsub hnext hx32
  have hm₄ := hm₃.storeNext hfar hsub hcw hx32
  rw [← hm₂.next (hsub hcw), pointer_of_ne hc, pointer_of_ne hx, ← hm.next (hsub hcw)] at hm₄
  exact hm₄

/-- `llist_delete_node` on the bytes does what it does on the words. -/
theorem llistDeleteNode_mirrors (hm : Mirrors us ws base m h) (hfar : us.Pairwise Far)
    (hsub : ws ⊆ us) (hxu : x ∈ us) (hx : x ≠ 0)
    (hprev : load m (x + 4) = 0 ∨ load m (x + 4) ∈ ws) (hnext : load m x = 0 ∨ load m x ∈ ws) :
    Mirrors us ws base (llistDeleteNode m x) (Nodes.llistDeleteNode h (some x)) := by
  unfold llistDeleteNode Nodes.llistDeleteNode
  rw [if_neg hx]
  have hm₁ := hm.storeNextIf hfar hsub hprev (load_lt m x)
  have hread : load (if load m (x + 4) ≠ 0 then store m (load m (x + 4)) (load m x) else m) x =
      load m x := by
    apply pointer_inj
    rw [← hm₁.next hxu, setNextIf_next, hm.next hxu, ite_self]
  rw [← hread] at hnext
  rw [← hm.next hxu, ← hm.prev hxu] at hm₁
  -- the second half reads the words of the node again
  have hsecond : ∀ {m₁ h₁}, Mirrors us ws base m₁ h₁ → load m₁ x = 0 ∨ load m₁ x ∈ ws →
      Mirrors us ws base (if load m₁ x ≠ 0 then store m₁ (load m₁ x + 4) (load m₁ (x + 4)) else m₁)
        (setPrevIf h₁ (h₁ x).next (h₁ x).prev) := by
    intro m₁ h₁ hm₁ hnext
    rw [hm₁.next hxu, hm₁.prev hxu]
    exact hm₁.storePrevIf hfar hsub hnext (load_lt m₁ (x + 4))
  exact hsecond hm₁ hnext

end Simulation

/-! ### Lists -/

/-- **`llist_add_after` on a linear list** inserts the node behind the anchor, and stores into the
    nodes only. -/
theorem llistAddAfter_spec (h : LinearList m c ns) (hfar : (c :: x :: ns).Pairwise Far)
    (hc : c ≠ 0) (hx : x ≠ 0) (hc32 : c < 2 ^ 32) (hx32 : x < 2 ^ 32) :
    LinearList (llistAddAfter m c x) c (x :: ns) ∧
      ∀ a, (∀ y ∈ c :: x :: ns, a < y ∨ y + 8 ≤ a) → llistAddAfter m c x a = m a := by
  have hne : ∀ y ∈ c :: x :: ns, y ≠ 0 := by
    intro y hy
    rcases List.mem_cons.mp hy with rfl | hy
    · exact hc
    · rcases List.mem_cons.mp hy with rfl | hy
      · exact hx
      · exact h.chain.ne_zero hy
  have hnext : load m c = 0 ∨ load m c ∈ c :: x :: ns := by
    cases ns with
    | nil => exact Or.inl h
    | cons y ys =>
      rw [h.1]
      exact Or.inr (List.mem_cons_of_mem c (List.mem_cons_of_mem x List.mem_cons_self))
  have hm := llistAddAfter_mirrors (Mirrors.refl _ _ m) hfar (List.Subset.refl _)
    List.mem_cons_self (List.mem_cons_of_mem c List.mem_cons_self) hnext hc hx hc32 hx32
  refine ⟨?_, hm.outside⟩
  have hnd : (x :: c :: ns).Nodup := (List.Perm.swap x c ns).nodup (far_nodup hfar)
  obtain ⟨hxnot, hnd'⟩ := List.nodup_cons.mp hnd
  have hspan : Span (linkWords m) c ([] ++ ns) none :=
    (linearList_iff_span hc fun y hy => h.chain.ne_zero hy).mp h
  have hcx : x ≠ c := fun heq => hxnot (heq ▸ List.mem_cons_self)
  have hout : x ∉ (linkWords m c).next := by
    rw [hspan.next_start]
    intro hin
    rcases eq_or_mem_of_head?_or hin with hin | hin
    · exact hxnot (List.mem_cons_of_mem c hin)
    · cases hin
  have hw := Nodes.llistAddAfter_spliced (linkWords m) hcx hout
  rw [hspan.next_start] at hw
  apply hm.linearList _ (fun y hy => hy) hne
  apply hspan.spliced hw hnd' hxnot
  intro b hb
  cases hb

/-- **`llist_delete_node` on a linear list** takes the node out, and stores into its neighbours
    only. -/
theorem llistDeleteNode_spec (h : LinearList m c (before ++ x :: behind))
    (hfar : (c :: (before ++ x :: behind)).Pairwise Far) (hc : c ≠ 0) :
    LinearList (llistDeleteNode m x) c (before ++ behind) ∧
      ∀ a, (∀ y ∈ c :: (before ++ behind), a < y ∨ y + 8 ≤ a) → llistDeleteNode m x a = m a := by
  have hne : ∀ y ∈ before ++ x :: behind, y ≠ 0 := fun y hy => h.chain.ne_zero hy
  have hxmem : x ∈ before ++ x :: behind := List.mem_append_right before List.mem_cons_self
  have hsub : c :: (before ++ behind) ⊆ c :: (before ++ x :: behind) := by
    apply List.cons_subset_cons
    have hmiddle : before ++ behind ⊆ before ++ ([x] ++ behind) :=
      List.Sublist.subset (List.Sublist.append_left (List.sublist_append_right [x] behind) before)
    exact hmiddle
  have hspan := (linearList_iff_span hc hne).mp h
  obtain ⟨hback, hforward⟩ := hspan.neighbours
  have hlast : before.getLastD c ∈ c :: before := List.getLastD_mem_cons
  have hprev : load m (x + 4) = 0 ∨ load m (x + 4) ∈ c :: (before ++ behind) := by
    have hq : pointer (load m (x + 4)) = some (before.getLastD c) := hback
    by_cases hnull : load m (x + 4) = 0
    · exact Or.inl hnull
    · rw [pointer_of_ne hnull, Option.some.injEq] at hq
      rw [hq]
      exact Or.inr (List.mem_append_left behind hlast)
  have hnext : load m x = 0 ∨ load m x ∈ c :: (before ++ behind) := by
    have hq : pointer (load m x) = behind.head?.or none := hforward
    by_cases hnull : load m x = 0
    · exact Or.inl hnull
    · rw [pointer_of_ne hnull, Option.or_none] at hq
      have hin : load m x ∈ behind := List.mem_of_head? hq.symm
      exact Or.inr (List.mem_cons_of_mem c (List.mem_append_right before hin))
  have hm := llistDeleteNode_mirrors (Mirrors.refl _ _ m) hfar hsub
    (List.mem_cons_of_mem c hxmem) (hne x hxmem) hprev hnext
  refine ⟨?_, hm.outside⟩
  have hnd : (c :: (before ++ x :: behind)).Nodup := far_nodup hfar
  have hself : x ≠ before.getLastD c := by
    intro heq
    have hmiddle : (c :: before ++ x :: behind).Nodup := hnd
    rw [List.nodup_middle] at hmiddle
    exact (List.nodup_cons.mp hmiddle).1 (heq ▸ List.mem_append_left behind hlast)
  have hw := Nodes.llistDeleteNode_joined hback hself
  rw [hforward] at hw
  apply hm.linearList _ (fun y hy => hsub hy)
  · intro y hy
    rcases List.mem_cons.mp (hsub hy) with rfl | hin
    · exact hc
    · exact hne y hin
  · apply hspan.joined hw hnd
    intro b hb
    cases hb

end Rotary

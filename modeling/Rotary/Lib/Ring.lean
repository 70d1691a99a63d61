import Mathlib.Data.List.Chain
import Mathlib.Data.List.Nodup
import Mathlib.Data.List.Rotate
import Mathlib.Logic.Function.Basic

namespace Rotary.Lib

/-!
# Doubly linked rings in a node heap

Pointer-level lists, independent of what the nodes belong to:

* `NodeHeap ν` — the `next` / `prev` words of every node address in `ν`, where `none`
  is the null pointer;
* `Seg h a xs b` — following `next` from `a` visits exactly `xs` and then reaches `b`,
  and every `prev` on the way points back;
* `Ring h head xs` — the segment from `head` back to `head`, with no node repeated;
* `Span h a xs q` — the same up to a pointer `q`, which may be null;
* `Follows h a b` — the `next` word of `a` points at `b`; one turn of a ring is a chain of these.

`Spliced` and `Joined` are the two surgeries.  Both are stated over the *words* of the new heap, so
they apply to any sequence of stores that produces those words; `Ring.spliced` and `Ring.joined` say
what they do to a ring.
-/

/-- The two link words of a list node; `none` is the null pointer. -/
@[ext] structure ListNode (ν : Type) where
  next : Option ν
  prev : Option ν
  deriving DecidableEq, Repr

/-- The link words of every node address. -/
abbrev NodeHeap (ν : Type) := ν → ListNode ν

variable {ν : Type} {h h' : NodeHeap ν} {a b c x p n head new : ν} {xs pre post : List ν}

/-! ### Stores -/

section Stores

variable [DecidableEq ν]

/-- Store `v` into the `next` word of node `a`. -/
def setNext (h : NodeHeap ν) (a : ν) (v : Option ν) : NodeHeap ν :=
  Function.update h a { h a with next := v }

/-- Store `v` into the `prev` word of node `a`. -/
def setPrev (h : NodeHeap ν) (a : ν) (v : Option ν) : NodeHeap ν :=
  Function.update h a { h a with prev := v }

@[simp] theorem setNext_next (h : NodeHeap ν) (a : ν) (v : Option ν) (c : ν) :
    (setNext h a v c).next = if c = a then v else (h c).next := by
  by_cases hc : c = a <;> simp [setNext, hc]

@[simp] theorem setNext_prev (h : NodeHeap ν) (a : ν) (v : Option ν) (c : ν) :
    (setNext h a v c).prev = (h c).prev := by
  by_cases hc : c = a <;> simp [setNext, hc]

@[simp] theorem setPrev_prev (h : NodeHeap ν) (a : ν) (v : Option ν) (c : ν) :
    (setPrev h a v c).prev = if c = a then v else (h c).prev := by
  by_cases hc : c = a <;> simp [setPrev, hc]

@[simp] theorem setPrev_next (h : NodeHeap ν) (a : ν) (v : Option ν) (c : ν) :
    (setPrev h a v c).next = (h c).next := by
  by_cases hc : c = a <;> simp [setPrev, hc]

/-- Store `v` into the `next` word of the node that `q` points at, unless `q` is null. -/
def setNextIf (h : NodeHeap ν) (q v : Option ν) : NodeHeap ν :=
  match q with
  | some p => setNext h p v
  | none => h

/-- Store `v` into the `prev` word of the node that `q` points at, unless `q` is null. -/
def setPrevIf (h : NodeHeap ν) (q v : Option ν) : NodeHeap ν :=
  match q with
  | some p => setPrev h p v
  | none => h

@[simp] theorem setNextIf_next (h : NodeHeap ν) (q v : Option ν) (c : ν) :
    (setNextIf h q v c).next = if some c = q then v else (h c).next := by
  cases q <;> simp [setNextIf]

@[simp] theorem setNextIf_prev (h : NodeHeap ν) (q v : Option ν) (c : ν) :
    (setNextIf h q v c).prev = (h c).prev := by
  cases q <;> simp [setNextIf]

@[simp] theorem setPrevIf_prev (h : NodeHeap ν) (q v : Option ν) (c : ν) :
    (setPrevIf h q v c).prev = if some c = q then v else (h c).prev := by
  cases q <;> simp [setPrevIf]

@[simp] theorem setPrevIf_next (h : NodeHeap ν) (q v : Option ν) (c : ν) :
    (setPrevIf h q v c).next = (h c).next := by
  cases q <;> simp [setPrevIf]

end Stores

/-! ### Segments -/

/-- `a` and `b` are neighbours: `a` points forward to `b` and `b` back to `a`. -/
def Linked (h : NodeHeap ν) (a b : ν) : Prop :=
  (h a).next = some b ∧ (h b).prev = some a

/-- The nodes between `a` and `b` are exactly `xs`, in this order. -/
def Seg (h : NodeHeap ν) (a : ν) (xs : List ν) (b : ν) : Prop :=
  List.IsChain (Linked h) (a :: (xs ++ [b]))

@[simp] theorem seg_nil : Seg h a [] b ↔ Linked h a b := by
  simp [Seg]

@[simp] theorem seg_cons : Seg h a (x :: xs) b ↔ Linked h a x ∧ Seg h x xs b := by
  simp [Seg]

theorem seg_append : Seg h a (pre ++ x :: post) b ↔ Seg h a pre x ∧ Seg h x post b := by
  induction pre generalizing a with
  | nil => simp
  | cons y ys ih => simp [ih, and_assoc]

/-- A segment only reads the `next` words of its start and its nodes, and the `prev`
    words of its nodes and its end. -/
theorem Seg.congr (hs : Seg h a xs b)
    (hnext : ∀ c ∈ a :: xs, (h' c).next = (h c).next)
    (hprev : ∀ c ∈ xs ++ [b], (h' c).prev = (h c).prev) : Seg h' a xs b := by
  induction xs generalizing a with
  | nil =>
    simp only [seg_nil, Linked] at hs ⊢
    exact ⟨(hnext a (by simp)).trans hs.1, (hprev b (by simp)).trans hs.2⟩
  | cons y ys ih =>
    rw [seg_cons] at hs ⊢
    refine ⟨⟨(hnext a (by simp)).trans hs.1.1, (hprev y (by simp)).trans hs.1.2⟩, ?_⟩
    exact ih hs.2 (fun c hc => hnext c (by simp_all)) (fun c hc => hprev c (by simp_all))

/-- The start of a segment points at its first node, or at the end if there is none. -/
theorem Seg.next_start (hs : Seg h a xs b) : (h a).next = some (xs.headD b) := by
  cases xs with
  | nil => exact (seg_nil.mp hs).1
  | cons y ys => exact (seg_cons.mp hs).1.1

/-- The end of a segment points back at its last node, or at the start if there is none. -/
theorem Seg.prev_end (hs : Seg h a xs b) : (h b).prev = some (xs.getLastD a) := by
  induction xs generalizing a with
  | nil => exact (seg_nil.mp hs).2
  | cons y ys ih => rw [ih (seg_cons.mp hs).2, List.getLastD_cons]

/-- Two segments with the same ends have the same nodes, as long as neither passes
    through the end. -/
theorem Seg.unique {ys : List ν} (hx : Seg h a xs b) (hy : Seg h a ys b)
    (hbx : b ∉ xs) (hby : b ∉ ys) : xs = ys := by
  induction xs generalizing a ys with
  | nil =>
    cases ys with
    | nil => rfl
    | cons y ys =>
      have h1 := hx.next_start
      rw [hy.next_start] at h1
      simp_all
  | cons x xs ih =>
    cases ys with
    | nil =>
      have h1 := hy.next_start
      rw [hx.next_start] at h1
      simp_all
    | cons y ys =>
      have h1 := hx.next_start
      rw [hy.next_start] at h1
      obtain rfl : y = x := by simpa using h1
      rw [seg_cons] at hx hy
      rw [ih hx.2 hy.2 (by simp_all) (by simp_all)]

/-! ### Spans -/

/-- A segment whose end may be the null pointer. -/
def Span (h : NodeHeap ν) : ν → List ν → Option ν → Prop
  | a, [], q => (h a).next = q ∧ ∀ b ∈ q, (h b).prev = some a
  | a, x :: xs, q => Linked h a x ∧ Span h x xs q

theorem seg_iff_span : Seg h a xs b ↔ Span h a xs (some b) := by
  induction xs generalizing a with
  | nil => simp [Span, Linked]
  | cons x xs ih => rw [seg_cons, ih, Span]

/-- A span reads the `next` words of its start and its nodes, and the `prev` words of its nodes and
    its end. -/
theorem Span.congr {q : Option ν} (hs : Span h a xs q)
    (hnext : ∀ c ∈ a :: xs, (h' c).next = (h c).next)
    (hprev : ∀ c, c ∈ xs ∨ c ∈ q → (h' c).prev = (h c).prev) : Span h' a xs q := by
  induction xs generalizing a with
  | nil =>
    refine ⟨(hnext a List.mem_cons_self).trans hs.1, ?_⟩
    intro b hb
    exact (hprev b (Or.inr hb)).trans (hs.2 b hb)
  | cons x xs ih =>
    obtain ⟨⟨hx, hback⟩, hrest⟩ := hs
    refine ⟨⟨(hnext a List.mem_cons_self).trans hx, ?_⟩, ?_⟩
    · exact (hprev x (Or.inl List.mem_cons_self)).trans hback
    · apply ih hrest
      · intro c hc
        exact hnext c (List.mem_cons_of_mem a hc)
      · intro c hc
        exact hprev c (hc.imp_left (List.mem_cons_of_mem x))

/-- The start of a span points at its first node, or where the span ends. -/
theorem Span.next_start {q : Option ν} (hs : Span h a xs q) : (h a).next = xs.head?.or q := by
  cases xs with
  | nil => exact hs.1
  | cons x xs => exact hs.1.1

/-- The words of a member lead to its neighbours. -/
theorem Span.neighbours {q : Option ν} (hs : Span h a (pre ++ x :: post) q) :
    (h x).prev = some (pre.getLastD a) ∧ (h x).next = post.head?.or q := by
  induction pre generalizing a with
  | nil => exact ⟨hs.1.2, hs.2.next_start⟩
  | cons y pre ih =>
    rw [List.getLastD_cons]
    exact ih hs.2

/-- From any of its nodes on, a span is a span. -/
theorem Span.suffix {q : Option ν} (hs : Span h a (pre ++ post) q) :
    Span h (pre.getLastD a) post q := by
  induction pre generalizing a with
  | nil => exact hs
  | cons y pre ih =>
    rw [List.getLastD_cons]
    exact ih hs.2

/-- A span whose words in front of one of its nodes are kept goes on as another heap goes on from
    there. -/
theorem Span.replace_rest {q r : Option ν} {rest : List ν} (hs : Span h a (pre ++ post) q)
    (hnd : (a :: pre).Nodup)
    (hnext : ∀ c ∈ a :: pre, c ≠ pre.getLastD a → (h' c).next = (h c).next)
    (hprev : ∀ c ∈ pre, (h' c).prev = (h c).prev) (hrest : Span h' (pre.getLastD a) rest r) :
    Span h' a (pre ++ rest) r := by
  induction pre generalizing a with
  | nil => exact hrest
  | cons x pre ih =>
    obtain ⟨⟨hx, hback⟩, htail⟩ := hs
    obtain ⟨hanot, hnd'⟩ := List.nodup_cons.mp hnd
    rw [List.getLastD_cons] at hnext hrest
    have hlast : a ≠ pre.getLastD x := by
      intro heq
      have hin : pre.getLastD x ∈ x :: pre := List.getLastD_mem_cons
      exact hanot (heq ▸ hin)
    refine ⟨⟨?_, ?_⟩, ?_⟩
    · rw [hnext a List.mem_cons_self hlast]
      exact hx
    · rw [hprev x List.mem_cons_self]
      exact hback
    · apply ih htail hnd' _ _ hrest
      · intro c hc
        exact hnext c (List.mem_cons_of_mem a hc)
      · intro c hc
        exact hprev c (List.mem_cons_of_mem x hc)

/-- In the words of `h'`, the node `new` stands between `p` and what `q` points at; all other words
    are those of `h`. -/
structure Spliced (h h' : NodeHeap ν) (p new : ν) (q : Option ν) [DecidableEq ν] : Prop where
  next : ∀ c, (h' c).next = if c = p then some new else if c = new then q else (h c).next
  prev : ∀ c, (h' c).prev = if c = new then some p else if some c = q then some new else (h c).prev

/-- In the words of `h'`, the node `p` and what `q` points at are neighbours; all other words are
    those of `h`. -/
structure Joined (h h' : NodeHeap ν) (p : ν) (q : Option ν) [DecidableEq ν] : Prop where
  next : ∀ c, (h' c).next = if c = p then q else (h c).next
  prev : ∀ c, (h' c).prev = if some c = q then some p else (h c).prev

theorem eq_or_mem_of_head?_or {q : Option ν} {y : ν} (hy : y ∈ xs.head?.or q) : y ∈ xs ∨ y ∈ q := by
  cases xs with
  | nil => exact Or.inr hy
  | cons x xs =>
    obtain rfl := Option.some.inj hy
    exact Or.inl List.mem_cons_self

/-- A nonempty list ends with its last element. -/
theorem exists_front (a : ν) (xs : List ν) : ∃ front, a :: xs = front ++ [xs.getLastD a] := by
  rcases List.eq_nil_or_concat (a :: xs) with hnil | ⟨front, z, hcut⟩
  · cases hnil
  · rw [List.concat_eq_append] at hcut
    have hlast : (a :: xs).getLastD a = (front ++ [z]).getLastD a := by rw [hcut]
    rw [List.getLastD_cons, List.getLastD_concat] at hlast
    exact ⟨front, hlast ▸ hcut⟩

section Surgery

variable [DecidableEq ν] {q : Option ν}

/-- Surgery at `p` leaves the rest of the heap alone. -/
theorem Spliced.frame (hw : Spliced h h' p new q) (hp : c ≠ p) (hnew : c ≠ new) (hq : c ∉ q) :
    h' c = h c := by
  apply ListNode.ext
  · rw [hw.next, if_neg hp, if_neg hnew]
  · rw [hw.prev, if_neg hnew, if_neg (Ne.symm hq)]

theorem Joined.frame (hw : Joined h h' p q) (hp : c ≠ p) (hq : c ∉ q) : h' c = h c := by
  apply ListNode.ext
  · rw [hw.next, if_neg hp]
  · rw [hw.prev, if_neg (Ne.symm hq)]

/-- Insertion right behind the start of a span. -/
theorem Span.spliced_start (hs : Span h a post q) (hw : Spliced h h' a new (post.head?.or q))
    (hnd : (a :: post).Nodup) (hnew : new ∉ a :: post) (hq : ∀ b ∈ q, b ∉ post ∧ b ≠ new) :
    Span h' a (new :: post) q := by
  have hna : new ≠ a := fun heq => hnew (heq ▸ List.mem_cons_self)
  refine ⟨⟨by rw [hw.next, if_pos rfl], by rw [hw.prev, if_pos rfl]⟩, ?_⟩
  cases post with
  | nil =>
    have hw : Spliced h h' a new q := hw
    refine ⟨by rw [hw.next, if_neg hna, if_pos rfl], ?_⟩
    intro b hb
    rw [hw.prev, if_neg (hq b hb).2, if_pos hb.symm]
  | cons y ys =>
    have hw : Spliced h h' a new (some y) := hw
    obtain ⟨-, hrest⟩ := hs
    obtain ⟨hanot, hynot, -⟩ : a ∉ y :: ys ∧ y ∉ ys ∧ ys.Nodup := by
      simpa only [List.nodup_cons] using hnd
    have hyn : y ≠ new := fun heq => hnew (heq ▸ List.mem_cons_of_mem a List.mem_cons_self)
    refine ⟨⟨by rw [hw.next, if_neg hna, if_pos rfl], ?_⟩, ?_⟩
    · rw [hw.prev, if_neg hyn, if_pos rfl]
    · -- behind the old successor no word was written
      apply hrest.congr
      · intro c hc
        have hca : c ≠ a := fun heq => hanot (heq ▸ hc)
        have hcn : c ≠ new := fun heq => hnew (heq ▸ List.mem_cons_of_mem a hc)
        rw [hw.next, if_neg hca, if_neg hcn]
      · intro c hc
        have hcn : c ≠ new := by
          rcases hc with hc | hc
          · exact fun heq => hnew (heq ▸ List.mem_cons_of_mem a (List.mem_cons_of_mem y hc))
          · exact (hq c hc).2
        have hcy : some c ≠ some y := by
          rintro heq
          obtain rfl := Option.some.inj heq
          rcases hc with hc | hc
          · exact hynot hc
          · exact (hq c hc).1 List.mem_cons_self
        rw [hw.prev, if_neg hcn, if_neg hcy]

/-- **Insertion** anywhere in a span. -/
theorem Span.spliced (hs : Span h a (pre ++ post) q)
    (hw : Spliced h h' (pre.getLastD a) new (post.head?.or q)) (hnd : (a :: (pre ++ post)).Nodup)
    (hnew : new ∉ a :: (pre ++ post)) (hq : ∀ b ∈ q, b ∉ pre ++ post ∧ b ≠ new) :
    Span h' a (pre ++ new :: post) q := by
  obtain ⟨front, hfront⟩ := exists_front a pre
  have hall : a :: (pre ++ post) = front ++ pre.getLastD a :: post := by
    rw [← List.cons_append, hfront, List.append_assoc]
    rfl
  have hfresh : ∀ {c}, c ∈ a :: (pre ++ post) → c ≠ new := fun hc heq => hnew (heq ▸ hc)
  have hkept : (a :: pre).Nodup := List.Nodup.of_append_left (show (a :: pre ++ post).Nodup from hnd)
  apply hs.replace_rest hkept
  · intro c hc hlast
    rw [hw.next, if_neg hlast, if_neg (hfresh (List.mem_append_left post hc))]
  · intro c hc
    have hcq : some c ≠ post.head?.or q := by
      intro heq
      rcases eq_or_mem_of_head?_or heq.symm with hin | hin
      · exact (List.nodup_append'.mp (List.nodup_cons.mp hnd).2).2.2 hc hin
      · exact (hq c hin).1 (List.mem_append_left post hc)
    rw [hw.prev, if_neg (hfresh (List.mem_cons_of_mem a (List.mem_append_left post hc))), if_neg hcq]
  · rw [hall] at hnd hnew
    apply hs.suffix.spliced_start hw
    · exact hnd.of_append_right
    · exact fun hin => hnew (List.mem_append_right front hin)
    · intro b hb
      exact ⟨fun hin => (hq b hb).1 (List.mem_append_right pre hin), (hq b hb).2⟩

/-- Removal of the node right behind the start of a span. -/
theorem Span.joined_start (hs : Span h a (x :: post) q) (hw : Joined h h' a (post.head?.or q))
    (hnd : (a :: x :: post).Nodup) (hq : ∀ b ∈ q, b ∉ x :: post) : Span h' a post q := by
  obtain ⟨-, hrest⟩ := hs
  cases post with
  | nil =>
    have hw : Joined h h' a q := hw
    refine ⟨by rw [hw.next, if_pos rfl], ?_⟩
    intro b hb
    rw [hw.prev, if_pos hb.symm]
  | cons y ys =>
    have hw : Joined h h' a (some y) := hw
    obtain ⟨-, hrest⟩ := hrest
    obtain ⟨hanot, -, hynot, -⟩ : a ∉ x :: y :: ys ∧ x ∉ y :: ys ∧ y ∉ ys ∧ ys.Nodup := by
      simpa only [List.nodup_cons] using hnd
    refine ⟨⟨by rw [hw.next, if_pos rfl], ?_⟩, ?_⟩
    · rw [hw.prev, if_pos rfl]
    · -- behind the new successor no word was written
      apply hrest.congr
      · intro c hc
        have hca : c ≠ a := fun heq => hanot (heq ▸ List.mem_cons_of_mem x hc)
        rw [hw.next, if_neg hca]
      · intro c hc
        have hcy : some c ≠ some y := by
          rintro heq
          obtain rfl := Option.some.inj heq
          rcases hc with hc | hc
          · exact hynot hc
          · exact hq c hc (List.mem_cons_of_mem x List.mem_cons_self)
        rw [hw.prev, if_neg hcy]

/-- **Removal** anywhere in a span. -/
theorem Span.joined (hs : Span h a (pre ++ x :: post) q)
    (hw : Joined h h' (pre.getLastD a) (post.head?.or q)) (hnd : (a :: (pre ++ x :: post)).Nodup)
    (hq : ∀ b ∈ q, b ∉ pre ++ x :: post) : Span h' a (pre ++ post) q := by
  obtain ⟨front, hfront⟩ := exists_front a pre
  have hall : a :: (pre ++ x :: post) = front ++ pre.getLastD a :: x :: post := by
    rw [← List.cons_append, hfront, List.append_assoc]
    rfl
  have hkept : (a :: pre).Nodup :=
    List.Nodup.of_append_left (show (a :: pre ++ x :: post).Nodup from hnd)
  apply hs.replace_rest hkept
  · intro c hc hlast
    rw [hw.next, if_neg hlast]
  · intro c hc
    have hcq : some c ≠ post.head?.or q := by
      intro heq
      rcases eq_or_mem_of_head?_or heq.symm with hin | hin
      · have hin' : c ∈ x :: post := List.mem_cons_of_mem x hin
        exact (List.nodup_append'.mp (List.nodup_cons.mp hnd).2).2.2 hc hin'
      · exact hq c hin (List.mem_append_left (x :: post) hc)
    rw [hw.prev, if_neg hcq]
  · rw [hall] at hnd
    apply hs.suffix.joined_start hw
    · exact hnd.of_append_right
    · intro b hb hin
      exact hq b hb (List.mem_append_right pre hin)

end Surgery

/-! ### Rings -/

/-- The circular list hanging off `head` holds exactly the nodes `xs`, in `next` order. -/
structure Ring (h : NodeHeap ν) (head : ν) (xs : List ν) : Prop where
  seg : Seg h head xs head
  nodup : (head :: xs).Nodup

namespace Ring

theorem head_notMem (hr : Ring h head xs) : head ∉ xs := (List.nodup_cons.mp hr.nodup).1

theorem nodup_tail (hr : Ring h head xs) : xs.Nodup := (List.nodup_cons.mp hr.nodup).2

/-- A head whose two words point at itself is the empty ring. -/
theorem empty (hn : (h head).next = some head) (hp : (h head).prev = some head) :
    Ring h head [] :=
  ⟨seg_nil.mpr ⟨hn, hp⟩, by simp⟩

/-- A heap and a head determine the node sequence. -/
theorem unique {ys : List ν} (hx : Ring h head xs) (hy : Ring h head ys) : xs = ys :=
  hx.seg.unique hy.seg hx.head_notMem hy.head_notMem

/-- A ring survives any change to nodes outside it. -/
theorem frame (hr : Ring h head xs) (heq : ∀ c ∈ head :: xs, h' c = h c) :
    Ring h' head xs := by
  refine ⟨hr.seg.congr (fun c hc => by rw [heq c hc]) (fun c hc => ?_), hr.nodup⟩
  rw [heq c (by simp at hc ⊢; tauto)]

/-- The last node of a ring is what the head's `prev` word points at. -/
theorem prev_head (hr : Ring h head xs) : (h head).prev = some (xs.getLastD head) :=
  hr.seg.prev_end

/-- The first node of a ring is what the head's `next` word points at. -/
theorem next_head (hr : Ring h head xs) : (h head).next = some (xs.headD head) :=
  hr.seg.next_start

/-- The neighbours of a member, as its two words name them. -/
theorem neighbours (hr : Ring h head (pre ++ x :: post)) :
    (h x).prev = some (pre.getLastD head) ∧ (h x).next = some (post.headD head) := by
  have hs := seg_append.mp hr.seg
  exact ⟨hs.1.prev_end, hs.2.next_start⟩

/-- Following `next` never leaves the ring. -/
theorem next_mem {c : ν} (hr : Ring h head xs) (hc : c ∈ head :: xs) :
    ∃ d ∈ head :: xs, (h c).next = some d := by
  rcases List.mem_cons.mp hc with rfl | hc
  · refine ⟨xs.headD c, ?_, hr.next_head⟩
    cases xs <;> simp
  · obtain ⟨pre, post, rfl⟩ := List.append_of_mem hc
    refine ⟨post.headD head, ?_, hr.neighbours.2⟩
    cases post <;> simp

/-- Follow `next` from the node in hand until `head` (or null) is met, for at most `fuel`
    nodes. -/
def walk [DecidableEq ν] (h : NodeHeap ν) (head : ν) : ℕ → Option ν → List ν
  | 0, _ => []
  | _ + 1, none => []
  | fuel + 1, some a => if a = head then [] else a :: walk h head fuel (h a).next

theorem walk_seg [DecidableEq ν] (hs : Seg h a xs head) (hx : head ∉ xs) {fuel : ℕ}
    (hf : xs.length ≤ fuel) : walk h head fuel (h a).next = xs := by
  induction xs generalizing a fuel with
  | nil =>
    rw [(seg_nil.mp hs).1]
    cases fuel <;> simp [walk]
  | cons y ys ih =>
    rw [seg_cons] at hs
    rw [hs.1.1]
    cases fuel with
    | zero => simp at hf
    | succ fuel =>
      have hy : y ≠ head := by rintro rfl; simp at hx
      rw [walk, if_neg hy, ih hs.2 (by simp_all) (by simpa using hf)]

/-- Walking a ring from its head lists its nodes. -/
theorem walk_eq [DecidableEq ν] (hr : Ring h head xs) {fuel : ℕ} (hf : xs.length ≤ fuel) :
    walk h head fuel (h head).next = xs :=
  walk_seg hr.seg hr.head_notMem hf

/-- A walk over a ring reads its `next` words only. -/
theorem walk_congr [DecidableEq ν] (hr : Ring h head xs)
    (hnext : ∀ c ∈ head :: xs, (h' c).next = (h c).next) (fuel : ℕ) {c : ν} (hc : c ∈ head :: xs) :
    walk h' head fuel (some c) = walk h head fuel (some c) := by
  induction fuel generalizing c with
  | zero => rfl
  | succ fuel ih =>
    obtain ⟨d, hd, hcd⟩ := hr.next_mem hc
    simp only [walk, hnext c hc, hcd, ih hd]

theorem head?_or_some (xs : List ν) (a : ν) : xs.head?.or (some a) = some (xs.headD a) := by
  cases xs <;> rfl

/-- **Insertion.**  A heap whose words put `new` between two neighbours holds the ring with `new`
    between them. -/
theorem spliced [DecidableEq ν] (hr : Ring h head (pre ++ post))
    (hw : Spliced h h' (pre.getLastD head) new (some (post.headD head)))
    (hnew : new ∉ head :: (pre ++ post)) : Ring h' head (pre ++ new :: post) := by
  have hne : head ≠ new := fun heq => hnew (heq ▸ List.mem_cons_self)
  have hnot : new ∉ pre ++ post := fun hin => hnew (List.mem_cons_of_mem head hin)
  rw [← head?_or_some] at hw
  constructor
  · rw [seg_iff_span]
    apply (seg_iff_span.mp hr.seg).spliced hw hr.nodup hnew
    intro b hb
    obtain rfl := Option.some.inj hb
    exact ⟨hr.head_notMem, hne⟩
  · have hmiddle : (head :: pre ++ new :: post).Nodup := by
      rw [List.nodup_middle]
      exact List.nodup_cons.mpr ⟨hnew, hr.nodup⟩
    exact hmiddle

/-- **Unlinking a member.**  A heap whose words make the two neighbours of `x` point at each other
    holds the ring without `x`. -/
theorem joined [DecidableEq ν] (hr : Ring h head (pre ++ x :: post))
    (hw : Joined h h' (pre.getLastD head) (some (post.headD head))) : Ring h' head (pre ++ post) := by
  rw [← head?_or_some] at hw
  constructor
  · rw [seg_iff_span]
    apply (seg_iff_span.mp hr.seg).joined hw hr.nodup
    intro b hb
    obtain rfl := Option.some.inj hb
    exact hr.head_notMem
  · have hmiddle : (head :: pre ++ x :: post).Nodup := hr.nodup
    rw [List.nodup_middle] at hmiddle
    exact (List.nodup_cons.mp hmiddle).2

/-- A member is neither of its neighbours. -/
theorem ne_prev (hr : Ring h head (pre ++ x :: post)) : x ≠ pre.getLastD head := by
  have hmiddle : (head :: pre ++ x :: post).Nodup := hr.nodup
  rw [List.nodup_middle] at hmiddle
  intro heq
  have hlast : pre.getLastD head ∈ head :: pre := List.getLastD_mem_cons
  exact (List.nodup_cons.mp hmiddle).1 (heq ▸ List.mem_append_left post hlast)

/-! ### Turns -/

/-- The `next` word of `a` points at `b`. -/
def Follows (h : NodeHeap ν) (a b : ν) : Prop := (h a).next = some b

/-- Following `next` from any place in a ring goes once around it. -/
theorem turn (hr : Ring h head (pre ++ post)) :
    List.IsChain (Follows h) (post ++ head :: pre) := by
  have hchain : List.IsChain (Follows h) (head :: (pre ++ post ++ [head])) :=
    List.IsChain.imp (fun _ _ hl => hl.1) hr.seg
  cases post with
  | nil =>
    rw [List.append_nil, ← List.cons_append] at hchain
    exact (List.isChain_append.mp hchain).1
  | cons y post =>
    rw [List.append_assoc, List.cons_append, List.isChain_cons_split] at hchain
    refine List.isChain_split.mpr ⟨hchain.2, ?_⟩
    have hpre := hchain.1
    rw [← List.cons_append] at hpre
    exact (List.isChain_append.mp hpre).1

/-- A turn from one node of the ring back to it. -/
theorem whole_turn (hr : Ring h head (pre ++ x :: post)) :
    List.IsChain (Follows h) (x :: (post ++ head :: pre) ++ [x]) := by
  have hchain : List.IsChain (Follows h) (head :: (pre ++ x :: post ++ [head])) :=
    List.IsChain.imp (fun _ _ hl => hl.1) hr.seg
  rw [List.append_assoc, List.cons_append, List.isChain_cons_split] at hchain
  obtain ⟨hpre, hpost⟩ := hchain
  rw [List.cons_append, List.append_assoc, List.cons_append]
  exact List.isChain_cons_split.mpr ⟨hpost, hpre⟩

/-- From every node of a ring a turn visits the nodes of the ring, in their cyclic order. -/
theorem turns (hr : Ring h head xs) (hc : c ∈ head :: xs) :
    ∃ ns, List.IsChain (Follows h) (c :: ns ++ [c]) ∧ (c :: ns).IsRotated (head :: xs) := by
  rcases List.mem_cons.mp hc with rfl | hc
  · refine ⟨xs, ?_, List.IsRotated.refl _⟩
    exact List.IsChain.imp (fun _ _ hl => hl.1) hr.seg
  · obtain ⟨pre, post, rfl⟩ := List.append_of_mem hc
    refine ⟨post ++ head :: pre, hr.whole_turn, ?_⟩
    have hrot : (c :: post ++ head :: pre).IsRotated (head :: pre ++ c :: post) :=
      List.isRotated_append
    exact hrot

/-- The turns depend on the `next` words of the ring only. -/
theorem turns_congr (hr : Ring h head xs)
    (hnext : ∀ c ∈ head :: xs, (h' c).next = (h c).next) (hc : c ∈ head :: xs) :
    ∃ ns, List.IsChain (Follows h') (c :: ns ++ [c]) ∧ (c :: ns).IsRotated (head :: xs) := by
  -- with the old `prev` words the new `next` words make a ring
  have hr' : Ring (fun c => ⟨(h' c).next, (h c).prev⟩) head xs :=
    ⟨hr.seg.congr hnext fun _ _ => rfl, hr.nodup⟩
  exact hr'.turns hc

/-- A turn started again at the first node on it that satisfies `p`: that node now comes last. -/
theorem turn_from {R : ν → ν → Prop} {p : ν → Bool} {ns ys : List ν} {y : ν}
    (hturn : List.IsChain R (x :: ns ++ [x])) (hfirst : (ns ++ [x]).filter p = y :: ys) :
    ∃ ns', List.IsChain R (y :: ns' ++ [y]) ∧ (ns' ++ [y]).filter p = ys ++ [y] ∧
      ns'.length = ns.length := by
  obtain ⟨skipped, after, hsplit, hskip, hy, hys⟩ := List.filter_eq_cons_iff.mp hfirst
  have hnone : skipped.filter p = [] := List.filter_eq_nil_iff.mpr hskip
  rcases List.eq_nil_or_concat after with rfl | ⟨after, z, rfl⟩
  · -- the turn leads back to `x` itself
    obtain ⟨rfl, heq⟩ := List.append_inj' hsplit rfl
    obtain rfl : x = y := by simpa using heq
    obtain rfl : ys = [] := by simpa using hys.symm
    exact ⟨ns, hturn, hfirst, rfl⟩
  · rw [List.concat_eq_append] at hsplit hys
    rw [← List.cons_append, ← List.append_assoc] at hsplit
    obtain ⟨rfl, heq⟩ := List.append_inj' hsplit rfl
    obtain rfl : x = z := by simpa using heq
    rw [List.cons_append, List.append_assoc, List.cons_append, List.isChain_cons_split] at hturn
    obtain ⟨hskipped, hafter⟩ := hturn
    refine ⟨after ++ x :: skipped, ?_, ?_, ?_⟩
    · rw [List.cons_append, List.append_assoc, List.cons_append]
      exact List.isChain_cons_split.mpr ⟨hafter, hskipped⟩
    · rw [← hys]
      simp only [List.filter_append, List.filter_cons, List.filter_nil, hnone, hy, if_true]
    · simp only [List.length_append, List.length_cons]
      omega

end Ring

end Rotary.Lib

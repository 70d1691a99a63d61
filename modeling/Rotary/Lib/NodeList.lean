import Rotary.Lib.Ring

namespace Rotary.Lib

/-!
# Families of doubly linked lists in one node heap

* `Line h before first xs` — from `first` on, following `next` visits `xs` and ends at null; the
  `prev` word of `first` is `before`, whatever stands there;
* `NodeList` — the node sequence of a list, circular or linear, and `NodeList.In` its presence in a
  heap;
* `insertBehind` / `insertInFront` — the insertions, as functions on node sequences;
* `NodeList.spliced` / `NodeList.joined` — the two surgeries are an insertion and a removal, for
  lists of either shape;
* `Lists h ls` — the heap holds every list of the family `ls`, no two of them sharing a node;
  `Lists.replace` exchanges one list for another and keeps the rest.
-/

variable {ν : Type} {h h' : NodeHeap ν} {before q : Option ν} {first head p new r x : ν}
  {xs pre post : List ν}

/-! ### Lines -/

/-- The list from `first` on holds the nodes `first :: xs` and ends at the null pointer. -/
structure Line (h : NodeHeap ν) (before : Option ν) (first : ν) (xs : List ν) : Prop where
  prev_first : (h first).prev = before
  span : Span h first xs none
  nodup : (first :: xs).Nodup

theorem Line.frame (hl : Line h before first xs) (heq : ∀ c ∈ first :: xs, h' c = h c) :
    Line h' before first xs := by
  refine ⟨?_, ?_, hl.nodup⟩
  · rw [heq first List.mem_cons_self]
    exact hl.prev_first
  · apply hl.span.congr
    · intro c hc
      rw [heq c hc]
    · rintro c (hc | hc)
      · rw [heq c (List.mem_cons_of_mem first hc)]
      · cases hc

/-- **Insertion** behind any node of a line. -/
theorem Line.spliced [DecidableEq ν] (hl : Line h before first (pre ++ post))
    (hw : Spliced h h' (pre.getLastD first) new post.head?) (hnew : new ∉ first :: (pre ++ post)) :
    Line h' before first (pre ++ new :: post) := by
  have hne : first ≠ new := fun heq => hnew (heq ▸ List.mem_cons_self)
  have hnot : some first ≠ post.head? := by
    intro heq
    have hin : first ∈ post := List.mem_of_head? heq.symm
    exact (List.nodup_cons.mp hl.nodup).1 (List.mem_append_right pre hin)
  refine ⟨?_, ?_, ?_⟩
  · rw [hw.prev, if_neg hne, if_neg hnot]
    exact hl.prev_first
  · rw [← Option.or_none (o := post.head?)] at hw
    apply hl.span.spliced hw hl.nodup hnew
    intro b hb
    cases hb
  · have hmiddle : (first :: pre ++ new :: post).Nodup := by
      rw [List.nodup_middle]
      exact List.nodup_cons.mpr ⟨hnew, hl.nodup⟩
    exact hmiddle

/-- **Removal** of any node of a line but the first. -/
theorem Line.joined [DecidableEq ν] (hl : Line h before first (pre ++ x :: post))
    (hw : Joined h h' (pre.getLastD first) post.head?) : Line h' before first (pre ++ post) := by
  have hnot : some first ≠ post.head? := by
    intro heq
    have hin : first ∈ x :: post := List.mem_cons_of_mem x (List.mem_of_head? heq.symm)
    exact (List.nodup_cons.mp hl.nodup).1 (List.mem_append_right pre hin)
  refine ⟨?_, ?_, ?_⟩
  · rw [hw.prev, if_neg hnot]
    exact hl.prev_first
  · rw [← Option.or_none (o := post.head?)] at hw
    apply hl.span.joined hw hl.nodup
    intro b hb
    cases hb
  · have hmiddle : (first :: pre ++ x :: post).Nodup := hl.nodup
    rw [List.nodup_middle] at hmiddle
    exact (List.nodup_cons.mp hmiddle).2

/-! ### Node sequences -/

section Sequences

variable [DecidableEq ν]

/-- The sequence with `new` right behind the node `p`. -/
def insertBehind (p new : ν) : List ν → List ν
  | [] => []
  | x :: xs => if x = p then x :: new :: xs else x :: insertBehind p new xs

/-- The sequence with `new` right in front of the node `r`. -/
def insertInFront (r new : ν) : List ν → List ν
  | [] => []
  | x :: xs => if x = r then new :: x :: xs else x :: insertInFront r new xs

theorem insertBehind_append (hp : p ∉ pre) :
    insertBehind p new (pre ++ p :: post) = pre ++ p :: new :: post := by
  induction pre with
  | nil => simp only [List.nil_append, insertBehind, if_true]
  | cons y pre ih =>
    obtain ⟨hne, hpre⟩ := not_or.mp (mt List.mem_cons.mpr hp)
    simp only [List.cons_append, insertBehind, if_neg (Ne.symm hne), ih hpre]

theorem insertInFront_append (hr : r ∉ pre) :
    insertInFront r new (pre ++ r :: post) = pre ++ new :: r :: post := by
  induction pre with
  | nil => simp only [List.nil_append, insertInFront, if_true]
  | cons y pre ih =>
    obtain ⟨hne, hpre⟩ := not_or.mp (mt List.mem_cons.mpr hr)
    simp only [List.cons_append, insertInFront, if_neg (Ne.symm hne), ih hpre]

theorem mem_insertBehind {y : ν} (hy : y ∈ insertBehind p new xs) : y ∈ xs ∨ y = new := by
  induction xs with
  | nil => cases hy
  | cons x xs ih =>
    rw [insertBehind] at hy
    by_cases hx : x = p
    · rw [if_pos hx, List.mem_cons, List.mem_cons] at hy
      rcases hy with rfl | rfl | hy
      · exact Or.inl List.mem_cons_self
      · exact Or.inr rfl
      · exact Or.inl (List.mem_cons_of_mem x hy)
    · rw [if_neg hx, List.mem_cons] at hy
      rcases hy with rfl | hy
      · exact Or.inl List.mem_cons_self
      · exact (ih hy).imp_left (List.mem_cons_of_mem x)

theorem mem_insertInFront {y : ν} (hy : y ∈ insertInFront r new xs) : y ∈ xs ∨ y = new := by
  induction xs with
  | nil => cases hy
  | cons x xs ih =>
    rw [insertInFront] at hy
    by_cases hx : x = r
    · rw [if_pos hx, List.mem_cons] at hy
      exact hy.symm
    · rw [if_neg hx, List.mem_cons] at hy
      rcases hy with rfl | hy
      · exact Or.inl List.mem_cons_self
      · exact (ih hy).imp_left (List.mem_cons_of_mem x)

/-- Insertion in front of a node is insertion behind the node in front of it. -/
theorem insertInFront_eq (hnd : (pre ++ p :: r :: post).Nodup) :
    insertInFront r new (pre ++ p :: r :: post) = insertBehind p new (pre ++ p :: r :: post) := by
  obtain ⟨-, hback, hapart⟩ := List.nodup_append'.mp hnd
  have hp : p ∉ pre := fun hin => hapart hin List.mem_cons_self
  have hr : r ∉ pre ++ [p] := by
    rw [List.mem_append, List.mem_singleton]
    rintro (hin | rfl)
    · exact hapart hin (List.mem_cons_of_mem p List.mem_cons_self)
    · exact (List.nodup_cons.mp hback).1 List.mem_cons_self
  have hfront : insertInFront r new ((pre ++ [p]) ++ r :: post) = (pre ++ [p]) ++ new :: r :: post :=
    insertInFront_append hr
  rw [List.append_assoc, List.append_assoc] at hfront
  rw [insertBehind_append hp]
  exact hfront

/-- Insertion behind the last node. -/
theorem insertBehind_last (hnd : (pre ++ [p]).Nodup) :
    insertBehind p new (pre ++ [p]) = pre ++ [p] ++ [new] := by
  obtain ⟨-, -, hapart⟩ := List.nodup_append'.mp hnd
  have hp : p ∉ pre := fun hin => hapart hin List.mem_cons_self
  rw [insertBehind_append hp, List.append_assoc]
  rfl

end Sequences

/-- A list cut behind one of its nodes, with the first node apart. -/
theorem exists_cut (pre : List ν) (p : ν) :
    ∃ first between, first :: between = pre ++ [p] ∧ between.getLastD first = p := by
  cases pre with
  | nil => exact ⟨p, [], rfl, rfl⟩
  | cons y pre => exact ⟨y, pre ++ [p], rfl, by rw [List.getLastD_concat]⟩

theorem append_cons_eq {between : List ν} (hcut : first :: between = pre ++ [p]) (post : List ν) :
    pre ++ p :: post = first :: (between ++ post) := by
  rw [← List.cons_append, hcut, List.append_assoc]
  rfl

/-! ### Lists of either shape -/

/-- How a list ends: back at its first node, or at the null pointer.  The `prev` word of the first
    node of a linear list is `before`. -/
inductive Shape (ν : Type)
  | circular
  | linear (before : Option ν)

/-- What the last node of a list with the given first node points at. -/
def Shape.stop (first : Option ν) : Shape ν → Option ν
  | .circular => first
  | .linear _ => none

/-- The nodes of a list, the head of a circular one first. -/
structure NodeList (ν : Type) where
  shape : Shape ν
  nodes : List ν

namespace NodeList

/-- The heap holds the list.  A circular list has at least its head; the empty linear list occupies
    no memory. -/
def In (h : NodeHeap ν) : NodeList ν → Prop
  | ⟨.circular, []⟩ => False
  | ⟨.circular, head :: xs⟩ => Ring h head xs
  | ⟨.linear before, []⟩ => before = none
  | ⟨.linear before, first :: xs⟩ => Line h before first xs

variable {l : NodeList ν}

theorem In.nodup (hin : l.In h) : l.nodes.Nodup := by
  obtain ⟨shape, nodes⟩ := l
  cases nodes with
  | nil => exact List.nodup_nil
  | cons first xs =>
    cases shape with
    | circular => exact Ring.nodup hin
    | linear before => exact Line.nodup hin

/-- A list survives any change outside its nodes. -/
theorem In.frame (hin : l.In h) (heq : ∀ c ∈ l.nodes, h' c = h c) : l.In h' := by
  obtain ⟨shape, nodes⟩ := l
  cases nodes with
  | nil => cases shape <;> exact hin
  | cons first xs =>
    cases shape with
    | circular => exact Ring.frame hin heq
    | linear before => exact Line.frame hin heq

/-- The `next` word of a node leads to the next node, and behind the last one to where the list
    ends. -/
theorem In.next_eq {shape : Shape ν} (hin : In h ⟨shape, pre ++ p :: post⟩) :
    (h p).next = post.head?.or (shape.stop (pre ++ [p]).head?) := by
  obtain ⟨first, between, hcut, hlast⟩ := exists_cut pre p
  rw [append_cons_eq hcut] at hin
  cases shape with
  | circular =>
    have hr : Ring h first (between ++ post) := hin
    have hspan := seg_iff_span.mp hr.seg
    rw [← hlast, hspan.suffix.next_start, hlast, ← hcut]
    rfl
  | linear before =>
    have hl : Line h before first (between ++ post) := hin
    rw [← hlast, hl.span.suffix.next_start]
    rfl

theorem In.next_mem (hin : l.In h) (hp : p ∈ l.nodes) {d : ν} (hd : d ∈ (h p).next) :
    d ∈ l.nodes := by
  obtain ⟨shape, nodes⟩ := l
  obtain ⟨pre, post, rfl⟩ := List.append_of_mem hp
  rw [hin.next_eq] at hd
  rcases eq_or_mem_of_head?_or hd with hd | hd
  · exact List.mem_append_right pre (List.mem_cons_of_mem p hd)
  · cases shape with
    | circular =>
      have hfront : d ∈ pre ++ [p] := List.mem_of_head? hd
      have hall : d ∈ pre ++ [p] ++ post := List.mem_append_left post hfront
      rwa [List.append_assoc] at hall
    | linear before => cases hd

/-- On a circular list no `next` word is null. -/
theorem In.next_circular (hin : l.In h) (hshape : l.shape = .circular) (hp : p ∈ l.nodes) :
    ∃ n, (h p).next = some n := by
  obtain ⟨shape, nodes⟩ := l
  obtain rfl : shape = .circular := hshape
  cases nodes with
  | nil => cases hp
  | cons head xs =>
    obtain ⟨n, -, hn⟩ := Ring.next_mem hin hp
    exact ⟨n, hn⟩

/-- The two words of a node that is not the first lead to its neighbours. -/
theorem In.neighbours {shape : Shape ν} (hin : In h ⟨shape, pre ++ p :: x :: post⟩) :
    (h x).prev = some p ∧ (h p).next = some x := by
  refine ⟨?_, hin.next_eq⟩
  obtain ⟨first, between, hcut, hlast⟩ := exists_cut pre p
  rw [append_cons_eq hcut] at hin
  rw [← hlast]
  cases shape with
  | circular => exact (Ring.neighbours hin).1
  | linear before => exact hin.span.neighbours.1

/-- From any node of a linear list on, following `next` leads to null. -/
theorem In.span_none (hin : In h ⟨.linear before, pre ++ p :: post⟩) : Span h p post none := by
  obtain ⟨first, between, hcut, hlast⟩ := exists_cut pre p
  rw [append_cons_eq hcut] at hin
  have hl : Line h before first (between ++ post) := hin
  rw [← hlast]
  exact hl.span.suffix

variable [DecidableEq ν]

/-- In front of a node that is not the first stands a node whose words point at it; inserting in
    front of the one is inserting behind the other. -/
theorem In.in_front (hin : l.In h) (hr : r ∈ l.nodes.tail) :
    ∃ p ∈ l.nodes, r ≠ p ∧ (h r).prev = some p ∧ (h p).next = some r ∧
      ∀ new, insertInFront r new l.nodes = insertBehind p new l.nodes := by
  obtain ⟨shape, nodes⟩ := l
  cases nodes with
  | nil => cases hr
  | cons first xs =>
    obtain ⟨between, post, rfl⟩ := List.append_of_mem (show r ∈ xs from hr)
    obtain ⟨pre, hcut⟩ := exists_front first between
    generalize between.getLastD first = p at hcut
    have hnodes : first :: (between ++ r :: post) = pre ++ p :: r :: post :=
      (append_cons_eq hcut (r :: post)).symm
    show ∃ p ∈ first :: (between ++ r :: post), _
    rw [hnodes] at hin ⊢
    obtain ⟨hback, hforward⟩ := hin.neighbours
    have hne : r ≠ p := by
      rintro rfl
      have hrest := (List.nodup_append'.mp hin.nodup).2.1
      exact (List.nodup_cons.mp hrest).1 List.mem_cons_self
    refine ⟨p, List.mem_append_right pre List.mem_cons_self, hne, hback, hforward, ?_⟩
    intro new
    exact insertInFront_eq hin.nodup

/-- In front of the head of a circular list stands its last node. -/
theorem In.in_front_head (hin : In h ⟨.circular, head :: xs⟩) :
    ∃ p ∈ head :: xs, (h head).prev = some p ∧ (h p).next = some head ∧
      ∀ new, head :: xs ++ [new] = insertBehind p new (head :: xs) := by
  have hr : Ring h head xs := hin
  obtain ⟨pre, hcut⟩ := exists_front head xs
  generalize hlast : xs.getLastD head = p at hcut
  have hnext : (h p).next = some head := by
    rw [hcut] at hin
    rw [hin.next_eq, ← hcut]
    rfl
  rw [hcut] at hin ⊢
  refine ⟨p, List.mem_append_right pre List.mem_cons_self, ?_, hnext, ?_⟩
  · rw [hr.prev_head, hlast]
  · intro new
    exact (insertBehind_last hin.nodup).symm

/-- Along a list `next` and `prev` are inverse to each other; on a circular one, around it. -/
theorem In.inverse {b : ν} (hin : l.In h) (hp : p ∈ l.nodes) (hb : b ∈ l.nodes)
    (hback : l.shape = .circular ∨ b ∈ l.nodes.tail) :
    (h p).next = some b ↔ (h b).prev = some p := by
  have hfront : ∃ r, (h b).prev = some r ∧ (h r).next = some b := by
    by_cases htail : b ∈ l.nodes.tail
    · obtain ⟨r, -, -, hprev, hnext, -⟩ := hin.in_front htail
      exact ⟨r, hprev, hnext⟩
    · obtain ⟨shape, nodes⟩ := l
      obtain rfl : shape = .circular := hback.resolve_right htail
      cases nodes with
      | nil => cases hb
      | cons head xs =>
        obtain rfl : b = head := (List.mem_cons.mp hb).resolve_right htail
        obtain ⟨r, -, hprev, hnext, -⟩ := hin.in_front_head
        exact ⟨r, hprev, hnext⟩
  constructor
  · intro hnext
    obtain ⟨shape, nodes⟩ := l
    obtain ⟨pre, post, rfl⟩ := List.append_of_mem hp
    cases post with
    | cons y post =>
      -- the next node is in the sequence
      obtain ⟨hprev, hforward⟩ := hin.neighbours
      obtain rfl := Option.some.inj (hforward.symm.trans hnext)
      exact hprev
    | nil =>
      -- the last node: only a circular list goes on, at its head
      rw [hin.next_eq] at hnext
      cases shape with
      | linear before => cases hnext
      | circular =>
        obtain ⟨first, between, hcut, hlast⟩ := exists_cut pre p
        rw [← hcut] at hin hnext
        have hr : Ring h first between := hin
        obtain rfl : first = b := Option.some.inj hnext
        rw [hr.prev_head, hlast]
  · intro hprev
    obtain ⟨r, hprev', hnext⟩ := hfront
    obtain rfl := Option.some.inj (hprev'.symm.trans hprev)
    exact hnext

/-- **Insertion.**  Splicing a new node in behind a node of the list inserts it there. -/
theorem In.spliced (hin : l.In h) (hp : p ∈ l.nodes) (hw : Spliced h h' p new (h p).next)
    (hnew : new ∉ l.nodes) : In h' ⟨l.shape, insertBehind p new l.nodes⟩ := by
  obtain ⟨shape, nodes⟩ := l
  obtain ⟨pre, post, rfl, hpre⟩ := List.eq_append_cons_of_mem hp
  rw [hin.next_eq] at hw
  rw [insertBehind_append hpre]
  obtain ⟨first, between, hcut, hlast⟩ := exists_cut pre p
  rw [append_cons_eq hcut] at hin hnew
  rw [append_cons_eq hcut (new :: post)]
  cases shape with
  | circular =>
    have hr : Ring h first (between ++ post) := hin
    rw [← hcut, Shape.stop, List.head?_cons, Ring.head?_or_some, ← hlast] at hw
    exact hr.spliced hw hnew
  | linear before =>
    have hl : Line h before first (between ++ post) := hin
    rw [Shape.stop, Option.or_none, ← hlast] at hw
    exact hl.spliced hw hnew

/-- **Removal** of a node that is not the first. -/
theorem In.joined (hin : l.In h) (hx : x ∈ l.nodes.tail) (hprev : (h x).prev = some p)
    (hw : Joined h h' p (h x).next) : In h' ⟨l.shape, l.nodes.erase x⟩ := by
  obtain ⟨shape, nodes⟩ := l
  cases nodes with
  | nil => cases hx
  | cons first xs =>
    obtain ⟨pre, post, rfl, hpre⟩ := List.eq_append_cons_of_mem (show x ∈ xs from hx)
    have hne : (first == x) = false := by
      rw [beq_eq_false_iff_ne]
      rintro rfl
      exact (List.nodup_cons.mp hin.nodup).1 (List.mem_append_right pre List.mem_cons_self)
    have herase : (first :: (pre ++ x :: post)).erase x = first :: (pre ++ post) := by
      rw [List.erase_cons, hne, List.erase_append_right _ hpre, List.erase_cons_head]
      rfl
    show In h' ⟨shape, (first :: (pre ++ x :: post)).erase x⟩
    rw [herase]
    cases shape with
    | circular =>
      have hr : Ring h first (pre ++ x :: post) := hin
      obtain ⟨hback, hforward⟩ := hr.neighbours
      obtain rfl : p = pre.getLastD first := Option.some.inj (hprev.symm.trans hback)
      rw [hforward] at hw
      exact hr.joined hw
    | linear before =>
      have hl : Line h before first (pre ++ x :: post) := hin
      obtain ⟨hback, hforward⟩ := hl.span.neighbours
      obtain rfl : p = pre.getLastD first := Option.some.inj (hprev.symm.trans hback)
      rw [hforward, Option.or_none] at hw
      exact hl.joined hw

end NodeList

/-! ### Families -/

/-- The heap holds all the lists of the family, and no node is on two of them. -/
structure Lists {ι : Type} (h : NodeHeap ν) (ls : ι → NodeList ν) : Prop where
  wellFormed : ∀ i, (ls i).In h
  disjoint : ∀ i j, i ≠ j → (ls i).nodes.Disjoint (ls j).nodes

/-- **Framing.**  A change that turns one list into another one, over its own nodes and nodes of no
    list, keeps the family. -/
theorem Lists.replace {ι : Type} [DecidableEq ι] {ls : ι → NodeList ν} (hls : Lists h ls) {i : ι}
    {l : NodeList ν} {fresh : List ν} (hfresh : ∀ c ∈ fresh, ∀ j, c ∉ (ls j).nodes)
    (hin : l.In h') (hnodes : ∀ c ∈ l.nodes, c ∈ (ls i).nodes ∨ c ∈ fresh)
    (hframe : ∀ c, c ∉ (ls i).nodes → c ∉ fresh → h' c = h c) :
    Lists h' (Function.update ls i l) := by
  have hapart : ∀ j, i ≠ j → l.nodes.Disjoint (ls j).nodes := by
    intro j hij c hc hcj
    rcases hnodes c hc with hc | hc
    · exact hls.disjoint i j hij hc hcj
    · exact hfresh c hc j hcj
  constructor
  · intro j
    by_cases hj : j = i
    · rw [hj, Function.update_self]
      exact hin
    · rw [Function.update_of_ne hj]
      apply (hls.wellFormed j).frame
      intro c hc
      apply hframe c
      · exact fun hci => hls.disjoint i j (Ne.symm hj) hci hc
      · exact fun hcf => hfresh c hcf j hc
  · intro j k hjk
    by_cases hj : j = i
    · have hk : i ≠ k := hj ▸ hjk
      rw [hj, Function.update_self, Function.update_of_ne hk.symm]
      exact hapart k hk
    · rw [Function.update_of_ne hj]
      by_cases hk : k = i
      · rw [hk, Function.update_self]
        exact fun c hcj hcl => hapart j (Ne.symm hj) hcl hcj
      · rw [Function.update_of_ne hk]
        exact hls.disjoint j k hjk

end Rotary.Lib

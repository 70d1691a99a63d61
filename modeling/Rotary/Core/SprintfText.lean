import Rotary.Core.Sprintf

namespace Rotary

/-!
# Texts as formats

A text that is handed to `sprintf` as its format, without arguments, comes out as it is when it has
no `%`.  Otherwise it does not: a directive that takes an argument has none, and any other puts one
character for the two or more that it consists of.  A text that ends within a directive lets the
cursor pass over its terminator, and the null character that is put for it ends the string early.

* `Shrinks` — the text is made of characters of the format, and of fewer than it has once there was
  a directive;
* `sprintf_shrinks` — this holds of all that `sprintf` does without arguments;
* `sprintf_verbatim` — a text without `%` comes out as it is;
* `sprintf_not_verbatim` — a text with `%` does not.
-/

/-- The string that an array holds. -/
def cString (a : List UInt8) : List UInt8 := a.takeWhile fun c => c ≠ 0

/-- The number of characters that are not null. -/
def nonNull (s : List UInt8) : ℕ := s.countP fun c => c ≠ 0

/-- From the characters `consumed` of the format the text `text` has been made. -/
structure Shrinks (consumed text : List UInt8) : Prop where
  le : nonNull text ≤ nonNull consumed
  lt : '%'.toUInt8 ∈ consumed → nonNull text < nonNull consumed

variable {dest out s t fmt pre pend rest text consumed : List UInt8} {c : UInt8}
  {args args' : List Arg} {f : Dest → Option Dest}

/-! ### Characters -/

theorem nonNull_append (s t : List UInt8) : nonNull (s ++ t) = nonNull s + nonNull t :=
  List.countP_append

theorem nonNull_eq_length (hs : ∀ c ∈ s, c ≠ 0) : nonNull s = s.length := by
  apply List.countP_eq_length.mpr
  intro c hc
  exact decide_eq_true (hs c hc)

theorem nonNull_zeros (n : ℕ) : nonNull (List.replicate n 0) = 0 := by
  apply List.countP_eq_zero.mpr
  intro c hc
  rw [List.eq_of_mem_replicate hc]
  decide

/-- A string ends at the first null character. -/
theorem cString_length_le (text rest : List UInt8) :
    (cString (text ++ 0 :: rest)).length ≤ nonNull text := by
  induction text with
  | nil => exact Nat.le_refl 0
  | cons c text ih =>
    by_cases hc : c = 0
    · have hstop : cString (c :: text ++ 0 :: rest) = [] := by simp [cString, hc]
      rw [hstop]
      exact Nat.zero_le _
    · have hmore : cString (c :: text ++ 0 :: rest) = c :: cString (text ++ 0 :: rest) := by
        simp [cString, hc]
      have hcount : nonNull (c :: text) = nonNull text + 1 := by simp [nonNull, hc]
      rw [hmore, hcount, List.length_cons]
      exact Nat.succ_le_succ ih

theorem cString_terminated (hs : ∀ c ∈ s, c ≠ 0) : cString (s ++ 0 :: t) = s := by
  unfold cString
  rw [List.takeWhile_append_of_pos fun c hc => decide_eq_true (hs c hc),
    List.takeWhile_cons_of_neg (by decide), List.append_nil]

/-! ### Directives without arguments -/

/-- What has been written if nothing was written outside of the destination. -/
theorem Appends.eq_wrote {d : Dest} (hf : Appends f s) (hout : out.length ≤ dest.length)
    (h : f (wrote dest out) = some d) :
    d = wrote dest (out ++ s) ∧ (out ++ s).length ≤ dest.length := by
  rw [hf dest out hout] at h
  rw [List.length_append]
  by_cases hroom : out.length + s.length ≤ dest.length
  · rw [if_pos hroom] at h
    exact ⟨(Option.some.inj h).symm, hroom⟩
  · rw [if_neg hroom] at h
    exact absurd h.symm (Option.some_ne_none d)

/-- A conversion finds no argument. -/
theorem directive_conversion (hc : c ∈ conversions) (padding : ℕ) (d : Dest) :
    directive c padding [] d = none := by
  have hlist : conversions =
      ['s'.toUInt8, 'd'.toUInt8, 'u'.toUInt8, 'x'.toUInt8, 'c'.toUInt8] := rfl
  rw [hlist] at hc
  simp only [List.mem_cons, List.not_mem_nil, or_false] at hc
  unfold directive
  rcases hc with rfl | rfl | rfl | rfl | rfl
  · rw [if_pos rfl]
    rfl
  · rw [if_neg (by decide), if_pos rfl]
    rfl
  · rw [if_neg (by decide), if_neg (by decide), if_pos rfl]
    rfl
  · rw [if_neg (by decide), if_neg (by decide), if_neg (by decide), if_pos rfl]
    rfl
  · rw [if_neg (by decide), if_neg (by decide), if_neg (by decide), if_neg (by decide), if_pos rfl]
    cases pad padding 1 d with
    | none => rfl
    | some d => rfl

/-- Where the width ends. -/
theorem readPadding_inv {fuel padding j p : ℕ} (pre rest : List UInt8) (hfmt : fmt = pre ++ rest)
    (h : readPadding fmt fuel pre.length padding = some (j, p)) :
    ∃ ds c rest', rest = ds ++ c :: rest' ∧ j = (pre ++ ds).length := by
  induction fuel generalizing pre rest padding with
  | zero => exact absurd h.symm (Option.some_ne_none _)
  | succ fuel ih =>
    cases rest with
    | nil =>
      have hnone : fmt[pre.length]? = none := by
        rw [hfmt, List.append_nil]
        exact List.getElem?_length _
      rw [readPadding, hnone] at h
      exact absurd h.symm (Option.some_ne_none _)
    | cons c rest =>
      have hchar : fmt[pre.length]? = some c := by
        rw [hfmt]
        simp
      rw [readPadding, hchar, Option.bind_eq_bind, Option.bind_some] at h
      by_cases hdigit : isDigit c = true
      · by_cases hfits : nextPadding padding c < 2 ^ 31
        · rw [if_pos hdigit, if_pos hfits] at h
          have hnext : pre.length + 1 = (pre ++ [c]).length := by
            rw [List.length_append, List.length_singleton]
          rw [hnext] at h
          obtain ⟨ds, e, rest', hrest, hj⟩ := ih (pre ++ [c]) rest (by rw [hfmt]; simp) h
          exact ⟨c :: ds, e, rest', by rw [hrest, List.cons_append], by rw [hj]; simp⟩
        · rw [if_pos hdigit, if_neg hfits] at h
          exact absurd h.symm (Option.some_ne_none _)
      · rw [if_neg hdigit] at h
        refine ⟨[], c, rest, rfl, ?_⟩
        rw [List.append_nil]
        exact (Prod.mk.inj (Option.some.inj h)).1.symm

/-! ### The loop -/

/-- One literal character more. -/
theorem Shrinks.lit (h : Shrinks consumed text) (hpercent : c ≠ '%'.toUInt8) :
    Shrinks (consumed ++ [c]) (text ++ [c]) := by
  constructor
  · rw [nonNull_append, nonNull_append]
    exact Nat.add_le_add_right h.le _
  · intro hmem
    rw [nonNull_append, nonNull_append]
    rcases List.mem_append.mp hmem with hmem | hmem
    · exact Nat.add_lt_add_right (h.lt hmem) _
    · exact absurd (List.mem_singleton.mp hmem).symm hpercent

/-- A directive that puts its conversion character. -/
theorem Shrinks.bare (h : Shrinks consumed text) (ds : List UInt8) (c : UInt8) :
    Shrinks (consumed ++ '%'.toUInt8 :: (ds ++ [c])) (text ++ [c]) := by
  have hlt : nonNull (text ++ [c]) < nonNull (consumed ++ '%'.toUInt8 :: (ds ++ [c])) := by
    have hle := h.le
    have hpercent : nonNull ('%'.toUInt8 :: (ds ++ [c])) = nonNull ds + nonNull [c] + 1 := by
      rw [← nonNull_append]
      exact List.countP_cons_of_pos (by decide)
    rw [nonNull_append, nonNull_append, hpercent]
    omega
  exact ⟨hlt.le, fun _ => hlt⟩

/-- Without arguments a directive is one that takes none: what is pending is copied, the width is
    passed over, and the conversion character is put. -/
theorem sprintfLoop_bare {fuel : ℕ} {stop : ℕ × ℕ × Dest}
    (hfmt : fmt = pre ++ pend ++ '%'.toUInt8 :: rest) (hout : out.length ≤ dest.length)
    (h : sprintfLoop fmt (fuel + 1) (pre.length + pend.length) pre.length [] (wrote dest out) =
      some stop) :
    ∃ ds e rest', rest = ds ++ e :: rest' ∧ (out ++ pend ++ [e]).length ≤ dest.length ∧
      sprintfLoop fmt fuel (pre ++ pend ++ '%'.toUInt8 :: (ds ++ [e])).length
        (pre ++ pend ++ '%'.toUInt8 :: (ds ++ [e])).length [] (wrote dest (out ++ pend ++ [e])) =
          some stop := by
  have hchar : fmt[pre.length + pend.length]? = some '%'.toUInt8 := by
    rw [hfmt, ← List.length_append]
    simp
  rw [sprintfLoop, hchar, Option.bind_eq_bind, Option.bind_some, if_neg (by decide), if_pos rfl,
    Nat.add_sub_cancel_left, Option.bind_eq_bind] at h
  obtain ⟨d, hcopy, h⟩ := Option.bind_eq_some_iff.mp h
  obtain ⟨⟨j, p⟩, hread, h⟩ := Option.bind_eq_some_iff.mp h
  obtain ⟨x, hx, h⟩ := Option.bind_eq_some_iff.mp h
  obtain ⟨⟨args', d'⟩, hdirective, h⟩ := Option.bind_eq_some_iff.mp h
  have happends := appends_copyLiteral pre pend ('%'.toUInt8 :: rest)
  rw [← hfmt] at happends
  obtain ⟨rfl, hroom⟩ := happends.eq_wrote hout hcopy
  have hnext : pre.length + pend.length + 1 = (pre ++ pend ++ ['%'.toUInt8]).length := by
    rw [List.length_append, List.length_append, List.length_singleton]
  rw [hnext] at hread
  obtain ⟨ds, e, rest', hrest, hj⟩ := readPadding_inv (pre ++ pend ++ ['%'.toUInt8]) rest
    (by rw [hfmt]; simp) hread
  have hconv : fmt[j]? = some e := by
    have hsame : fmt = pre ++ pend ++ ['%'.toUInt8] ++ ds ++ e :: rest' := by
      rw [hfmt, hrest]
      simp
    rw [hj, hsame]
    simp
  obtain rfl : x = e := Option.some.inj (hx.symm.trans hconv)
  -- a conversion would look for its argument
  have hbare : x ∉ conversions := by
    intro hmem
    rw [directive_conversion hmem] at hdirective
    exact absurd hdirective.symm (Option.some_ne_none _)
  obtain ⟨f, hf, heq⟩ := converts_bare hbare p []
  rw [heq] at hdirective
  obtain ⟨d'', hemit, hpair⟩ := Option.map_eq_some_iff.mp hdirective
  obtain ⟨rfl, hroom'⟩ := hf.eq_wrote hroom hemit
  obtain ⟨rfl, rfl⟩ := Prod.mk.inj hpair
  have hindex : (pre ++ pend ++ '%'.toUInt8 :: (ds ++ [x])).length = j + 1 := by
    rw [hj]
    simp
    omega
  refine ⟨ds, x, rest', hrest, hroom', ?_⟩
  rw [hindex]
  exact h

/-- **The loop without arguments.** -/
theorem sprintfLoop_shrinks {stop : ℕ × ℕ × Dest} (fuel : ℕ) (pre pend rest out : List UInt8)
    (hfmt : fmt = pre ++ pend ++ rest) (hout : out.length ≤ dest.length)
    (hinv : Shrinks (pre ++ pend) (out ++ pend))
    (h : sprintfLoop fmt fuel (pre.length + pend.length) pre.length [] (wrote dest out) =
      some stop) :
    ∃ pre' pend' out' junk, fmt = pre' ++ pend' ++ 0 :: junk ∧
      stop = (pre'.length + pend'.length, pre'.length, wrote dest out') ∧
      out'.length ≤ dest.length ∧ Shrinks (pre' ++ pend') (out' ++ pend') := by
  induction fuel generalizing pre pend rest out with
  | zero => exact absurd h.symm (Option.some_ne_none _)
  | succ fuel ih =>
    cases rest with
    | nil =>
      have hnone : fmt[pre.length + pend.length]? = none := by
        rw [hfmt, List.append_nil, ← List.length_append]
        exact List.getElem?_length _
      rw [sprintfLoop, hnone] at h
      exact absurd h.symm (Option.some_ne_none _)
    | cons c rest =>
      have hchar : fmt[pre.length + pend.length]? = some c := by
        rw [hfmt, ← List.length_append]
        simp
      by_cases hnull : c = 0
      · -- the terminator
        rw [sprintfLoop, hchar, Option.bind_eq_bind, Option.bind_some, if_pos hnull] at h
        rw [hnull] at hfmt
        exact ⟨pre, pend, out, rest, hfmt, (Option.some.inj h).symm, hout, hinv⟩
      · by_cases hpercent : c = '%'.toUInt8
        · subst hpercent
          obtain ⟨ds, e, rest, rfl, hroom, h⟩ := sprintfLoop_bare hfmt hout h
          have hinv' := hinv.bare ds e
          rw [← List.append_nil (out ++ pend ++ [e]),
            ← List.append_nil (pre ++ pend ++ '%'.toUInt8 :: (ds ++ [e]))] at hinv'
          exact ih _ [] rest _ (by rw [hfmt]; simp) hroom hinv' h
        · rw [sprintfLoop_lit hchar hnull hpercent] at h
          have hindex : pre.length + pend.length + 1 = pre.length + (pend ++ [c]).length := by
            rw [List.length_append, List.length_singleton, Nat.add_assoc]
          rw [hindex] at h
          have hinv' := hinv.lit hpercent
          rw [List.append_assoc, List.append_assoc] at hinv'
          exact ih pre (pend ++ [c]) rest out (by rw [hfmt]; simp) hout hinv' h

/-- **Without arguments** `sprintf` makes no text of more characters than its format has. -/
theorem sprintf_shrinks {r : ℤ × List UInt8} (h : sprintf dest fmt [] = some r) :
    ∃ consumed text junk, fmt = consumed ++ 0 :: junk ∧ Shrinks consumed text ∧
      textIn dest text = some r := by
  rw [sprintf_eq] at h
  obtain ⟨stop, hloop, hfinish⟩ := Option.bind_eq_some_iff.mp h
  have hnothing : Shrinks ([] ++ []) ([] ++ []) := ⟨Nat.le_refl _, fun h => absurd h List.not_mem_nil⟩
  have hstart : sprintfLoop fmt fmt.length (([] : List UInt8).length + ([] : List UInt8).length)
      ([] : List UInt8).length [] (wrote dest []) = some stop := hloop
  have hwhole : fmt = [] ++ [] ++ fmt := rfl
  obtain ⟨pre, pend, out, junk, hfmt, rfl, hout, hinv⟩ :=
    sprintfLoop_shrinks fmt.length [] [] fmt [] hwhole (Nat.zero_le _) hnothing hstart
  rw [finish_wrote junk hfmt hout] at hfinish
  exact ⟨pre ++ pend, out ++ pend, junk, hfmt, hinv, hfinish⟩

/-! ### Texts with and without `%` -/

/-- Literal text in front of other pieces. -/
theorem emits_literal {pieces : List Piece} (hs : ∀ c ∈ s, c ≠ 0) (hpercent : '%'.toUInt8 ∉ s)
    (rest : Emits pieces args text) :
    ∃ all : List Piece, all.flatMap Piece.source = s ++ pieces.flatMap Piece.source ∧
      Emits all args (s ++ text) := by
  induction s with
  | nil => exact ⟨pieces, rfl, rest⟩
  | cons c s ih =>
    obtain ⟨all, hsource, he⟩ := ih (fun d hd => hs d (List.mem_cons_of_mem c hd))
      (fun hmem => hpercent (List.mem_cons_of_mem c hmem))
    have hnull : c ≠ 0 := hs c List.mem_cons_self
    have hlit : c ≠ '%'.toUInt8 := fun h => hpercent (h ▸ List.mem_cons_self)
    refine ⟨.lit c hnull hlit :: all, ?_, Emits.lit c hnull hlit he⟩
    rw [List.flatMap_cons, hsource]
    rfl

/-- **A text without `%`** comes out as it is. -/
theorem sprintf_verbatim (dest junk : List UInt8) (args : List Arg) (hs : ∀ c ∈ s, c ≠ 0)
    (hpercent : '%'.toUInt8 ∉ s) : sprintf dest (s ++ 0 :: junk) args = textIn dest s := by
  obtain ⟨pieces, hsource, he⟩ := emits_literal hs hpercent (Emits.done args)
  rw [List.flatMap_nil, List.append_nil] at hsource
  rw [List.append_nil] at he
  rw [← hsource, sprintf_of_emits dest junk he, hsource]

/-- The terminator of a string is not passed over by a shorter string. -/
theorem prefix_of_terminated {junk : List UInt8} (hs : ∀ c ∈ s, c ≠ 0)
    (h : s ++ 0 :: t = consumed ++ 0 :: junk) : s <+: consumed := by
  rcases List.append_eq_append_iff.mp h with ⟨more, rfl, -⟩ | ⟨more, rfl, hmore⟩
  · exact List.prefix_append s more
  · cases more with
    | nil =>
      rw [List.append_nil]
    | cons c more =>
      have hzero : c = 0 := (List.cons.inj hmore).1.symm
      exact absurd hzero (hs c (List.mem_append_right _ List.mem_cons_self))

/-- **A text with `%`** does not, when nothing but null characters follows its terminator. -/
theorem sprintf_not_verbatim {r : ℤ × List UInt8} (n : ℕ) (hs : ∀ c ∈ s, c ≠ 0)
    (hpercent : '%'.toUInt8 ∈ s)
    (h : sprintf dest (s ++ 0 :: List.replicate n 0) [] = some r) : cString r.2 ≠ s := by
  obtain ⟨consumed, text, junk, hfmt, hinv, htext⟩ := sprintf_shrinks h
  have hpre := prefix_of_terminated hs hfmt
  have hlt := hinv.lt (hpre.subset hpercent)
  -- the format has no more characters than the text
  have hcount := congrArg nonNull hfmt
  have hzeros : nonNull (0 :: List.replicate n 0) = 0 := nonNull_zeros (n + 1)
  rw [nonNull_append, nonNull_append, nonNull_eq_length hs, hzeros] at hcount
  unfold textIn at htext
  intro hsame
  by_cases hroom : text.length < dest.length
  · rw [if_pos hroom] at htext
    rw [← Option.some.inj htext] at hsame
    have hle := cString_length_le text (dest.drop (text.length + 1))
    rw [hsame] at hle
    omega
  · rw [if_neg hroom] at htext
    exact absurd htext.symm (Option.some_ne_none r)

end Rotary

import Rotary.Core.Sprintf
import Rotary.Lib.Reading

namespace Rotary

open Lib Reading

/-!
# What `sprintf` reads of its format

The cursor of `sprintf` goes past the conversion character of every directive, without a look at
it.  When the format ends within a directive, that character is the terminator, and the loop goes
on behind it.

The code is written down once more with its reads of the format; a character that is looked at
several times in a row is read once.  The width is the `int` that the machine computes, which wraps
around, so that no width ends a run.

* `sprintfReads_result` — where `sprintf` has a result, it is that of this code;
* `sprintfLoopReads_fuel` — every turn moves the cursor on, so that the fuel lasts;
* `endsInDirective` — the formats at fault, and `endsInDirective_cases` — what a format begins with;
* `sprintfReads_within` — no other format is read beyond its terminator;
* `sprintfReads_beyond` — each of these is, with suitable arguments.
-/

/-! ### The code -/

/-- The loop that copies literal text. -/
def copyLiteralReads (fmt : List UInt8) : ℕ → ℕ → Dest → Reading Dest
  | 0, _, d => pure d
  | n + 1, processed, d => do
    let c ← read fmt processed
    let d ← lift (d.emit c)
    copyLiteralReads fmt n (processed + 1) d

/-- `padding * 10 + (c - '0')`, wrapped around. -/
def nextPaddingWord (padding : BitVec 32) (c : UInt8) : BitVec 32 :=
  padding * 10 + BitVec.ofNat 32 (c.toNat - '0'.toNat)

/-- The loop that reads the padding. -/
def readPaddingReads (fmt : List UInt8) : ℕ → ℕ → BitVec 32 → Reading (ℕ × BitVec 32)
  | 0, _, _ => lift none
  | fuel + 1, index, padding => do
    let c ← read fmt index
    if isDigit c then readPaddingReads fmt fuel (index + 1) (nextPaddingWord padding c)
    else pure (index, padding)

/-- The main loop of `sprintf`; a negative padding pads nothing. -/
def sprintfLoopReads (fmt : List UInt8) :
    ℕ → ℕ → ℕ → List Arg → Dest → Reading (ℕ × ℕ × Dest)
  | 0, _, _, _, _ => lift none
  | fuel + 1, index, processed, args, d => do
    let c ← read fmt index
    if c = 0 then pure (index, processed, d)
    else if c = '%'.toUInt8 then do
      let d ← copyLiteralReads fmt (index - processed) processed d
      let r ← readPaddingReads fmt (fmt.length + 1) (index + 1) 0
      let c ← read fmt r.1
      let s ← lift (directive c r.2.toInt.toNat args d)
      sprintfLoopReads fmt fuel (r.1 + 1) (r.1 + 1) s.1 s.2
    else sprintfLoopReads fmt fuel (index + 1) processed args d

/-- `sprintf`.  The main loop takes a turn for each character at most, and one for the read behind
    the array. -/
def sprintfReads (dest fmt : List UInt8) (args : List Arg) : Reading (ℤ × List UInt8) := do
  let r ← sprintfLoopReads fmt (fmt.length + 1) 0 0 args ⟨dest, 0⟩
  let d ← copyLiteralReads fmt (r.1 - r.2.1) r.2.1 r.2.2
  let dest ← lift (put d.buf d.index 0)
  return ((BitVec.ofNat 32 d.index).toInt, dest)

/-! ### Formats that end within a directive -/

/-- Whether the next character belongs to a directive that has begun. -/
def scan (inside : Bool) (c : UInt8) : Bool := if inside then isDigit c else c = '%'.toUInt8

/-- The format ends in a `%` that begins a directive, or in such a `%` and digits. -/
def endsInDirective (s : List UInt8) : Bool := s.foldl scan false

variable {dest out s fmt pre pend rest ds : List UInt8} {c : UInt8} {args : List Arg}
  {fuel fuel' index processed n : ℕ} {d : Dest}

/-! ### The results -/

theorem copyLiteralReads_result (fmt : List UInt8) (n processed : ℕ) (d : Dest) :
    (copyLiteralReads fmt n processed d).result = copyLiteral fmt n processed d := by
  induction n generalizing processed d with
  | zero => rfl
  | succ n ih =>
    unfold copyLiteralReads copyLiteral
    simp only [result_bind, result_read, result_lift, ih]
    rfl

/-- A width that does not overflow does not wrap around. -/
theorem nextPaddingWord_ofNat {padding : ℕ} :
    nextPaddingWord (BitVec.ofNat 32 padding) c = BitVec.ofNat 32 (nextPadding padding c) := by
  unfold nextPaddingWord nextPadding
  rw [BitVec.ofNat_add, BitVec.ofNat_mul]
  rfl

theorem readPaddingReads_result {padding q j : ℕ} (hfit : padding < 2 ^ 31) (hfuel : fuel ≤ fuel')
    (h : readPadding fmt fuel index padding = some (j, q)) :
    (readPaddingReads fmt fuel' index (BitVec.ofNat 32 padding)).result =
      some (j, BitVec.ofNat 32 q) ∧ q < 2 ^ 31 := by
  induction fuel generalizing fuel' index padding with
  | zero => exact absurd h.symm (Option.some_ne_none _)
  | succ fuel ih =>
    obtain ⟨fuel', rfl⟩ := Nat.exists_eq_succ_of_ne_zero (by omega : fuel' ≠ 0)
    rw [readPadding, Option.bind_eq_bind] at h
    obtain ⟨c, hchar, h⟩ := Option.bind_eq_some_iff.mp h
    rw [readPaddingReads, result_bind, result_read, hchar, Option.bind_some]
    by_cases hdigit : isDigit c = true
    · rw [if_pos hdigit] at h ⊢
      by_cases hnext : nextPadding padding c < 2 ^ 31
      · rw [if_pos hnext] at h
        rw [nextPaddingWord_ofNat]
        exact ih hnext (Nat.le_of_succ_le_succ hfuel) h
      · rw [if_neg hnext] at h
        exact absurd h.symm (Option.some_ne_none _)
    · rw [if_neg hdigit] at h ⊢
      obtain ⟨rfl, rfl⟩ := Prod.mk.inj (Option.some.inj h)
      exact ⟨rfl, hfit⟩

theorem sprintfLoopReads_result {stop : ℕ × ℕ × Dest} (hfuel : fuel ≤ fuel')
    (h : sprintfLoop fmt fuel index processed args d = some stop) :
    (sprintfLoopReads fmt fuel' index processed args d).result = some stop := by
  induction fuel generalizing fuel' index processed args d with
  | zero => exact absurd h.symm (Option.some_ne_none _)
  | succ fuel ih =>
    obtain ⟨fuel', rfl⟩ := Nat.exists_eq_succ_of_ne_zero (by omega : fuel' ≠ 0)
    rw [sprintfLoop, Option.bind_eq_bind] at h
    obtain ⟨c, hchar, h⟩ := Option.bind_eq_some_iff.mp h
    rw [sprintfLoopReads, result_bind, result_read, hchar, Option.bind_some]
    by_cases hnull : c = 0
    · rw [if_pos hnull] at h ⊢
      exact h
    · rw [if_neg hnull] at h ⊢
      by_cases hpercent : c = '%'.toUInt8
      · rw [if_pos hpercent, Option.bind_eq_bind] at h
        obtain ⟨d, hcopy, h⟩ := Option.bind_eq_some_iff.mp h
        obtain ⟨⟨j, q⟩, hread, h⟩ := Option.bind_eq_some_iff.mp h
        obtain ⟨e, hconv, h⟩ := Option.bind_eq_some_iff.mp h
        obtain ⟨⟨args', d'⟩, hdirective, h⟩ := Option.bind_eq_some_iff.mp h
        obtain ⟨hread, hq⟩ := readPaddingReads_result (by decide) (Nat.le_succ fmt.length) hread
        have hzero : BitVec.ofNat 32 0 = 0 := rfl
        rw [hzero] at hread
        rw [if_pos hpercent, result_bind, copyLiteralReads_result, hcopy, Option.bind_some,
          result_bind, hread, Option.bind_some, result_bind, result_read, hconv, Option.bind_some,
          result_bind, result_lift, toInt_ofNat_of_lt hq, Int.toNat_natCast, hdirective, Option.bind_some]
        exact ih (Nat.le_of_succ_le_succ hfuel) h
      · rw [if_neg hpercent] at h ⊢
        exact ih (Nat.le_of_succ_le_succ hfuel) h

/-- **Where `sprintf` has a result**, the code with its reads has the same. -/
theorem sprintfReads_result {r : ℤ × List UInt8} (h : sprintf dest fmt args = some r) :
    (sprintfReads dest fmt args).result = some r := by
  rw [sprintf_eq] at h
  obtain ⟨stop, hloop, hfinish⟩ := Option.bind_eq_some_iff.mp h
  have hresult := sprintfLoopReads_result (Nat.le_succ fmt.length) hloop
  unfold sprintfReads
  rw [result_bind, hresult, Option.bind_some, result_bind, copyLiteralReads_result, ← hfinish]
  unfold finish
  simp only [result_bind, result_lift, result_pure, Option.bind_eq_bind, Option.pure_def]

/-! ### The fuel

The loops are given a turn for each character and one for the read behind the array; they need no
more. -/

theorem lt_length_of_getElem? (h : fmt[index]? = some c) : index < fmt.length :=
  (List.getElem?_eq_some_iff.mp h).1

theorem readPaddingReads_fuel {padding : BitVec 32} (hindex : index ≤ fmt.length)
    (hfuel : fmt.length < index + fuel) (hfuel' : fmt.length < index + fuel') :
    readPaddingReads fmt fuel index padding = readPaddingReads fmt fuel' index padding := by
  induction fuel generalizing fuel' index padding with
  | zero => exact absurd hfuel (by omega)
  | succ fuel ih =>
    obtain ⟨fuel', rfl⟩ := Nat.exists_eq_succ_of_ne_zero (by omega : fuel' ≠ 0)
    unfold readPaddingReads
    apply bind_eq_bind
    intro c hchar
    have hlt : index < fmt.length := lt_length_of_getElem? hchar
    have hnext : readPaddingReads fmt fuel (index + 1) (nextPaddingWord padding c) =
        readPaddingReads fmt fuel' (index + 1) (nextPaddingWord padding c) :=
      ih hlt (by omega) (by omega)
    rw [hnext]

/-- The cursor does not go back. -/
theorem le_readPaddingReads {padding : BitVec 32} {r : ℕ × BitVec 32}
    (h : (readPaddingReads fmt fuel index padding).result = some r) : index ≤ r.1 := by
  induction fuel generalizing index padding with
  | zero => exact absurd h.symm (Option.some_ne_none _)
  | succ fuel ih =>
    rw [readPaddingReads, result_bind] at h
    obtain ⟨c, -, h⟩ := Option.bind_eq_some_iff.mp h
    by_cases hdigit : isDigit c = true
    · rw [if_pos hdigit] at h
      exact Nat.le_of_succ_le (ih h)
    · rw [if_neg hdigit] at h
      rw [← Option.some.inj h]

/-- **Each turn of the loop moves the cursor on**, so that the fuel lasts. -/
theorem sprintfLoopReads_fuel (hindex : index ≤ fmt.length) (hfuel : fmt.length < index + fuel)
    (hfuel' : fmt.length < index + fuel') :
    sprintfLoopReads fmt fuel index processed args d =
      sprintfLoopReads fmt fuel' index processed args d := by
  induction fuel generalizing fuel' index processed args d with
  | zero => exact absurd hfuel (by omega)
  | succ fuel ih =>
    obtain ⟨fuel', rfl⟩ := Nat.exists_eq_succ_of_ne_zero (by omega : fuel' ≠ 0)
    unfold sprintfLoopReads
    apply bind_eq_bind
    intro c hchar
    have hlt : index < fmt.length := lt_length_of_getElem? hchar
    by_cases hnull : c = 0
    · rw [if_pos hnull, if_pos hnull]
    · rw [if_neg hnull, if_neg hnull]
      by_cases hpercent : c = '%'.toUInt8
      · rw [if_pos hpercent, if_pos hpercent]
        apply bind_eq_bind
        intro d _
        apply bind_eq_bind
        intro r hr
        apply bind_eq_bind
        intro e hconv
        have hlast : r.1 < fmt.length := lt_length_of_getElem? hconv
        have hle := le_readPaddingReads hr
        apply bind_eq_bind
        intro s _
        exact ih hlast (by omega) (by omega)
      · rw [if_neg hpercent, if_neg hpercent]
        exact ih hlt (by omega) (by omega)

/-! ### Reads within the format -/

theorem copyLiteralReads_keeps (hn : processed + index ≤ n + 1) :
    Keeps n (fun _ => True) (copyLiteralReads fmt index processed d) := by
  induction index generalizing processed d with
  | zero => exact Keeps.pure trivial
  | succ index ih =>
    unfold copyLiteralReads
    apply (Keeps.read (by omega)).bind
    intro c _
    apply (Keeps.lift fun _ _ => trivial).bind
    intro d _
    exact ih (by omega)

/-- The loop stops at the first character that is no digit. -/
theorem readPaddingReads_keeps {e : UInt8} {junk : List UInt8} (padding : BitVec 32)
    (hfmt : fmt = pre ++ ds ++ e :: junk) (hds : ∀ c ∈ ds, isDigit c = true)
    (he : isDigit e = false) (hn : (pre ++ ds).length ≤ n) :
    Keeps n (fun r => r.1 = (pre ++ ds).length)
      (readPaddingReads fmt fuel pre.length padding) := by
  induction fuel generalizing pre ds padding with
  | zero => exact Keeps.lift fun _ h => absurd h.symm (Option.some_ne_none _)
  | succ fuel ih =>
    have hle : pre.length ≤ n := by
      rw [List.length_append] at hn
      omega
    unfold readPaddingReads
    apply (Keeps.read hle).bind
    intro c hchar
    cases ds with
    | nil =>
      have hsame : c = e := by
        rw [hfmt] at hchar
        simpa using hchar.symm
      rw [hsame, he, if_neg Bool.false_ne_true]
      apply Keeps.pure
      rw [List.append_nil]
    | cons b ds =>
      have hsame : c = b := by
        rw [hfmt] at hchar
        simpa using hchar.symm
      have hassoc : pre ++ b :: ds = pre ++ [b] ++ ds := by simp
      have hnext : pre.length + 1 = (pre ++ [b]).length := by
        rw [List.length_append, List.length_singleton]
      rw [hsame, hds b List.mem_cons_self, if_pos rfl, hassoc, hnext]
      rw [hassoc] at hfmt hn
      exact ih _ hfmt (fun d hd => hds d (List.mem_cons_of_mem b hd)) hn

/-- Digits do not end a directive. -/
theorem foldl_scan_digits (hds : ∀ c ∈ ds, isDigit c = true) : ds.foldl scan true = true := by
  induction ds with
  | nil => rfl
  | cons c ds ih =>
    have hc : scan true c = true := hds c List.mem_cons_self
    rw [List.foldl_cons, hc]
    exact ih fun d hd => hds d (List.mem_cons_of_mem c hd)

/-- What a format begins with: a literal character, a directive at which it ends, or a whole
    directive. -/
theorem endsInDirective_cases (s : List UInt8) :
    s = [] ∨
    (∃ c rest, s = c :: rest ∧ c ≠ '%'.toUInt8 ∧ endsInDirective s = endsInDirective rest) ∨
    (∃ ds, s = '%'.toUInt8 :: ds ∧ (∀ c ∈ ds, isDigit c = true) ∧ endsInDirective s = true) ∨
    (∃ ds e rest, s = '%'.toUInt8 :: (ds ++ e :: rest) ∧ (∀ c ∈ ds, isDigit c = true) ∧
      isDigit e = false ∧ endsInDirective s = endsInDirective rest) := by
  cases s with
  | nil => exact Or.inl rfl
  | cons c s =>
    apply Or.inr
    by_cases hpercent : c = '%'.toUInt8
    · apply Or.inr
      subst hpercent
      have hds : ∀ c ∈ s.takeWhile isDigit, isDigit c = true := fun c hc =>
        List.all_eq_true.mp List.all_takeWhile c hc
      have hsplit : s = s.takeWhile isDigit ++ s.dropWhile isDigit :=
        List.takeWhile_append_dropWhile.symm
      have hscan : endsInDirective ('%'.toUInt8 :: s) =
          (s.dropWhile isDigit).foldl scan true := by
        show s.foldl scan true = _
        conv_lhs => rw [hsplit, List.foldl_append, foldl_scan_digits hds]
      cases htail : s.dropWhile isDigit with
      | nil =>
        rw [htail] at hscan hsplit
        rw [List.append_nil] at hsplit
        rw [← hsplit] at hds
        exact Or.inl ⟨s, rfl, hds, hscan⟩
      | cons e rest =>
        have he : isDigit e = false := by
          have hhead := List.head?_dropWhile_not isDigit s
          rw [htail] at hhead
          simpa using hhead
        have hout : scan true e = false := he
        rw [htail] at hscan hsplit
        rw [List.foldl_cons, hout] at hscan
        exact Or.inr ⟨s.takeWhile isDigit, e, rest, congrArg _ hsplit, hds, he, hscan⟩
    · have hout : scan false c = false := decide_eq_false hpercent
      have hscan : endsInDirective (c :: s) = endsInDirective s := by
        show s.foldl scan (scan false c) = _
        rw [hout]
        rfl
      exact Or.inl ⟨c, s, rfl, hpercent, hscan⟩

/-- The turn of a directive, when what follows it keeps to the bound. -/
theorem sprintfLoopReads_dir_keeps {post : ℕ × ℕ × Dest → Prop} {e : UInt8} {junk : List UInt8}
    (hfmt : fmt = pre ++ ['%'.toUInt8] ++ ds ++ e :: junk) (hds : ∀ c ∈ ds, isDigit c = true)
    (he : isDigit e = false) (hn : (pre ++ ['%'.toUInt8] ++ ds).length ≤ n)
    (hprocessed : processed ≤ pre.length)
    (hrest : ∀ args d, Keeps n post (sprintfLoopReads fmt fuel
      (pre ++ ['%'.toUInt8] ++ ds ++ [e]).length (pre ++ ['%'.toUInt8] ++ ds ++ [e]).length
      args d)) :
    Keeps n post (sprintfLoopReads fmt (fuel + 1) pre.length processed args d) := by
  have hnext : (pre ++ ['%'.toUInt8]).length = pre.length + 1 := List.length_append
  have hle : pre.length + 1 + ds.length ≤ n := by
    rw [← hnext, ← List.length_append]
    exact hn
  unfold sprintfLoopReads
  apply (Keeps.read (by omega)).bind
  intro c hchar
  have hpercent : c = '%'.toUInt8 := by
    rw [hfmt] at hchar
    simpa using hchar.symm
  rw [hpercent, if_neg (by decide), if_pos rfl, ← hnext]
  apply (copyLiteralReads_keeps (by omega)).bind
  intro d _
  apply (readPaddingReads_keeps 0 hfmt hds he hn).bind
  intro r hr
  apply (Keeps.read (by rw [hr]; exact hn)).bind
  intro x _
  apply (Keeps.lift fun _ _ => trivial).bind
  intro s _
  -- the cursor stands behind the directive
  have hindex : (pre ++ ['%'.toUInt8] ++ ds ++ [e]).length = r.1 + 1 := by
    rw [hr]
    exact List.length_append
  rw [← hindex]
  exact hrest s.1 s.2

/-- **The loop on a format that does not end within a directive.** -/
theorem sprintfLoopReads_keeps {junk : List UInt8} (pre rest : List UInt8)
    (hfmt : fmt = pre ++ rest ++ 0 :: junk) (hrest : ∀ c ∈ rest, c ≠ 0)
    (hend : endsInDirective rest = false) (hprocessed : processed ≤ pre.length) :
    Keeps (pre ++ rest).length (fun r => r.2.1 ≤ r.1 ∧ r.1 ≤ (pre ++ rest).length)
      (sprintfLoopReads fmt fuel pre.length processed args d) := by
  -- every turn takes a character or a whole directive off the rest
  induction fuel generalizing pre rest processed args d with
  | zero => exact Keeps.lift fun _ h => absurd h.symm (Option.some_ne_none _)
  | succ fuel ih =>
    have hle : pre.length ≤ (pre ++ rest).length := by
      rw [List.length_append]
      omega
    rcases endsInDirective_cases rest with
      rfl | ⟨b, rest, rfl, hb, hscan⟩ | ⟨ds, -, -, hscan⟩ | ⟨ds, e, rest, rfl, hds, he, hscan⟩
    · unfold sprintfLoopReads
      apply (Keeps.read hle).bind
      intro c hchar
      have hnull : c = 0 := by
        rw [hfmt] at hchar
        simpa using hchar.symm
      rw [if_pos hnull]
      exact Keeps.pure ⟨hprocessed, hle⟩
    · -- a literal character
      unfold sprintfLoopReads
      apply (Keeps.read hle).bind
      intro c hchar
      have hsame : c = b := by
        rw [hfmt] at hchar
        simpa using hchar.symm
      have hnext : pre.length + 1 = (pre ++ [b]).length := by
        rw [List.length_append, List.length_singleton]
      have hsplit : pre ++ b :: rest = pre ++ [b] ++ rest := by simp
      rw [hsame, if_neg (hrest b List.mem_cons_self), if_neg hb, hnext, hsplit]
      exact ih _ rest (by rw [hfmt, hsplit]) (fun x hx => hrest x (List.mem_cons_of_mem b hx))
        (hscan.symm.trans hend) (by rw [← hnext]; omega)
    · exact absurd (hscan.symm.trans hend) (by decide)
    · have hsplit : pre ++ '%'.toUInt8 :: (ds ++ e :: rest) =
          pre ++ ['%'.toUInt8] ++ ds ++ [e] ++ rest := by simp
      have hwidth : fmt = pre ++ ['%'.toUInt8] ++ ds ++ e :: (rest ++ 0 :: junk) := by
        rw [hfmt]
        simp
      have hlong : (pre ++ ['%'.toUInt8] ++ ds).length ≤
          (pre ++ ['%'.toUInt8] ++ ds ++ [e] ++ rest).length := by
        simp only [List.length_append]
        omega
      rw [hsplit]
      apply sprintfLoopReads_dir_keeps hwidth hds he hlong hprocessed
      intro args d
      exact ih _ rest (by rw [hfmt, hsplit])
        (fun x hx => hrest x (List.mem_cons_of_mem _
          (List.mem_append_right ds (List.mem_cons_of_mem e hx))))
        (hscan.symm.trans hend) (Nat.le_refl _)

/-- **A format that does not end within a directive** is read up to its terminator at most. -/
theorem sprintfReads_within (dest junk : List UInt8) (args : List Arg) (hs : ∀ c ∈ s, c ≠ 0)
    (hend : endsInDirective s = false) :
    ∀ i ∈ (sprintfReads dest (s ++ 0 :: junk) args).reads, i ≤ s.length := by
  have hloop : Keeps s.length _ (sprintfLoopReads (s ++ 0 :: junk) ((s ++ 0 :: junk).length + 1)
      0 0 args ⟨dest, 0⟩) := sprintfLoopReads_keeps [] s rfl hs hend (Nat.le_refl 0)
  have hkeeps : Keeps s.length (fun _ => True) (sprintfReads dest (s ++ 0 :: junk) args) := by
    unfold sprintfReads
    apply hloop.bind
    intro r hr
    have hle : r.1 ≤ s.length := hr.2
    apply (copyLiteralReads_keeps (by omega)).bind
    intro d _
    apply (Keeps.lift fun _ _ => trivial).bind
    intro dest _
    exact Keeps.pure trivial
  exact hkeeps.le

/-! ### Reads beyond the format -/

/-- Every conversion accepts some arguments. -/
theorem exists_converts (c : UInt8) (padding : ℕ) :
    ∃ (a : List Arg) (s : List UInt8), ∀ args, Converts c padding (a ++ args) args s := by
  by_cases hc : c ∈ conversions
  · have hshows : ∃ arg s, Shows c arg s := by
      have hcases : c = 's'.toUInt8 ∨ c = 'd'.toUInt8 ∨ c = 'u'.toUInt8 ∨ c = 'x'.toUInt8 ∨
          c = 'c'.toUInt8 := by simpa [conversions] using hc
      rcases hcases with rfl | rfl | rfl | rfl | rfl
      · exact ⟨_, _, Shows.str [] [] (List.forall_mem_nil _) (Nat.zero_le _)⟩
      · exact ⟨_, _, Shows.int 0 (by decide)⟩
      · exact ⟨_, _, Shows.uint 0⟩
      · exact ⟨_, _, Shows.hex 0⟩
      · exact ⟨_, _, Shows.char 0⟩
    obtain ⟨arg, s, hs⟩ := hshows
    exact ⟨[arg], _, fun args => hs.converts padding args⟩
  · exact ⟨[], _, fun args => converts_bare hc padding args⟩

/-- The digits of the width are read up to the conversion character. -/
theorem readPaddingReads_spec {e : UInt8} (pre ds rest : List UInt8) (padding : BitVec 32)
    (fuel : ℕ) (hds : ∀ c ∈ ds, isDigit c = true) (he : isDigit e = false)
    (hfuel : ds.length < fuel) :
    (readPaddingReads (pre ++ ds ++ e :: rest) fuel pre.length padding).result =
      some ((pre ++ ds).length, ds.foldl nextPaddingWord padding) := by
  induction ds generalizing pre padding fuel with
  | nil =>
    obtain ⟨fuel, rfl⟩ := Nat.exists_eq_succ_of_ne_zero (Nat.ne_of_gt hfuel)
    have hchar : (pre ++ [] ++ e :: rest)[pre.length]? = some e := by simp
    rw [readPaddingReads, result_bind, result_read, hchar, Option.bind_some, he,
      if_neg Bool.false_ne_true, List.append_nil]
    rfl
  | cons d ds ih =>
    obtain ⟨fuel, rfl⟩ := Nat.exists_eq_succ_of_ne_zero (by omega : fuel ≠ 0)
    have hchar : (pre ++ d :: ds ++ e :: rest)[pre.length]? = some d := by simp
    have htail := ih (pre ++ [d]) (nextPaddingWord padding d) fuel
      (fun c hc => hds c (List.mem_cons_of_mem d hc)) (Nat.lt_of_succ_lt_succ hfuel)
    have hassoc : pre ++ [d] ++ ds = pre ++ d :: ds := by simp
    rw [hassoc, List.length_append, List.length_singleton] at htail
    rw [readPaddingReads, result_bind, result_read, hchar, Option.bind_some,
      hds d List.mem_cons_self, if_pos rfl]
    exact htail

theorem mem_sprintfLoopReads (fmt : List UInt8) (fuel index processed : ℕ) (args : List Arg)
    (d : Dest) : index ∈ (sprintfLoopReads fmt (fuel + 1) index processed args d).reads :=
  mem_bind_reads List.mem_cons_self

/-- What is read after a literal character is read. -/
theorem mem_sprintfLoopReads_lit {i : ℕ} (hchar : fmt[index]? = some c) (hnull : c ≠ 0)
    (hpercent : c ≠ '%'.toUInt8)
    (hi : i ∈ (sprintfLoopReads fmt fuel (index + 1) processed args d).reads) :
    i ∈ (sprintfLoopReads fmt (fuel + 1) index processed args d).reads := by
  unfold sprintfLoopReads
  apply mem_reads_bind hchar
  rw [if_neg hnull, if_neg hpercent]
  exact hi

/-- What is read after a directive is read. -/
theorem mem_sprintfLoopReads_dir {e : UInt8} {args' : List Arg} {i : ℕ}
    (hfmt : fmt = pre ++ pend ++ ['%'.toUInt8] ++ ds ++ e :: rest)
    (hds : ∀ c ∈ ds, isDigit c = true) (he : isDigit e = false)
    (hconv : Converts e (ds.foldl nextPaddingWord 0).toInt.toNat args args' s)
    (hroom : out.length + (pend ++ s).length ≤ dest.length)
    (hi : i ∈ (sprintfLoopReads fmt fuel (pre ++ pend ++ ['%'.toUInt8] ++ ds ++ [e]).length
      (pre ++ pend ++ ['%'.toUInt8] ++ ds ++ [e]).length args'
      (wrote dest (out ++ (pend ++ s)))).reads) :
    i ∈ (sprintfLoopReads fmt (fuel + 1) (pre ++ pend).length pre.length args
      (wrote dest out)).reads := by
  obtain ⟨f, hf, hdirective⟩ := hconv
  have hchar : fmt[(pre ++ pend).length]? = some '%'.toUInt8 := by
    rw [hfmt]
    simp
  have hlast : fmt[(pre ++ pend ++ ['%'.toUInt8] ++ ds).length]? = some e := by
    rw [hfmt]
    simp
  have hlit := appends_copyLiteral pre pend (['%'.toUInt8] ++ ds ++ e :: rest)
  have hsplit : pre ++ pend ++ (['%'.toUInt8] ++ ds ++ e :: rest) = fmt := by
    rw [hfmt]
    simp
  rw [hsplit] at hlit
  rw [List.length_append] at hroom
  -- the pending text and what the directive makes of its argument are written
  have hcopied := hlit dest out (by omega)
  rw [if_pos (by omega)] at hcopied
  have hconverted := hf dest (out ++ pend) (by rw [List.length_append]; omega)
  rw [if_pos (by rw [List.length_append]; omega), List.append_assoc] at hconverted
  -- the cursor goes over the digits to the conversion character
  have hwidth := readPaddingReads_spec (pre ++ pend ++ ['%'.toUInt8]) ds rest 0 (fmt.length + 1)
    hds he (by
      rw [hfmt]
      simp only [List.length_append]
      omega)
  rw [← hfmt] at hwidth
  have hpercent : (pre ++ pend ++ ['%'.toUInt8]).length = (pre ++ pend).length + 1 :=
    List.length_append
  have hend : (pre ++ pend ++ ['%'.toUInt8] ++ ds ++ [e]).length =
      (pre ++ pend ++ ['%'.toUInt8] ++ ds).length + 1 := List.length_append
  have hpending : (pre ++ pend).length - pre.length = pend.length := by
    rw [List.length_append, Nat.add_sub_cancel_left]
  unfold sprintfLoopReads
  apply mem_reads_bind hchar
  rw [if_neg (by decide), if_pos rfl, hpending, ← hpercent]
  apply mem_reads_bind ((copyLiteralReads_result _ _ _ _).trans hcopied)
  apply mem_reads_bind hwidth
  apply mem_reads_bind hlast
  apply mem_reads_bind (a := (args', wrote dest (out ++ (pend ++ s)))) (by
    rw [result_lift, hdirective, hconverted]
    rfl)
  rw [← hend]
  exact hi

/-- **The loop on a format that ends within a directive**: with these arguments and this much room
    it comes to the end, and goes on. -/
theorem sprintfLoopReads_beyond {junk : List UInt8} (pre pend rest : List UInt8)
    (hfmt : fmt = pre ++ pend ++ rest ++ 0 :: junk) (hrest : ∀ c ∈ rest, c ≠ 0)
    (hend : endsInDirective rest = true) :
    ∃ (args : List Arg) (room : ℕ), ∀ (dest out : List UInt8) (fuel : ℕ), rest.length < fuel →
      out.length + room ≤ dest.length →
        (pre ++ pend ++ rest).length + 1 ∈ (sprintfLoopReads fmt fuel (pre ++ pend).length
          pre.length args (wrote dest out)).reads := by
  -- the rest gets shorter by a character or by a directive
  induction hlen : rest.length using Nat.strong_induction_on generalizing pre pend rest with
  | _ n ih =>
    subst hlen
    rcases endsInDirective_cases rest with
      rfl | ⟨b, rest, rfl, hb, hscan⟩ | ⟨ds, rfl, hds, -⟩ | ⟨ds, e, rest, rfl, hds, he, hscan⟩
    · exact absurd hend (by decide)
    · -- a literal character becomes pending
      have hsplit : pre ++ pend ++ b :: rest = pre ++ (pend ++ [b]) ++ rest := by simp
      obtain ⟨args, room, hroom⟩ := ih rest.length (Nat.lt_succ_self _) pre (pend ++ [b]) rest
        (by rw [hfmt, hsplit]) (fun x hx => hrest x (List.mem_cons_of_mem b hx))
        (hscan.symm.trans hend) rfl
      refine ⟨args, room, ?_⟩
      intro dest out fuel hfuel hout
      obtain ⟨fuel, rfl⟩ := Nat.exists_eq_succ_of_ne_zero (by omega : fuel ≠ 0)
      have hnext := hroom dest out fuel (Nat.lt_of_succ_lt_succ hfuel) hout
      have hchar : fmt[(pre ++ pend).length]? = some b := by
        rw [hfmt]
        simp
      have hindex : (pre ++ (pend ++ [b])).length = (pre ++ pend).length + 1 := by
        rw [← List.append_assoc, List.length_append, List.length_singleton]
      rw [← hsplit, hindex] at hnext
      exact mem_sprintfLoopReads_lit hchar (hrest b List.mem_cons_self) hb hnext
    · -- the terminator is taken for the conversion character
      have hconv := converts_bare (by decide : (0 : UInt8) ∉ conversions)
        (ds.foldl nextPaddingWord 0).toInt.toNat []
      have hwidth : fmt = pre ++ pend ++ ['%'.toUInt8] ++ ds ++ 0 :: junk := by
        rw [hfmt]
        simp
      have hsplit : pre ++ pend ++ '%'.toUInt8 :: ds = pre ++ pend ++ ['%'.toUInt8] ++ ds := by
        simp
      have hnext : (pre ++ pend ++ ['%'.toUInt8] ++ ds ++ [0]).length =
          (pre ++ pend ++ ['%'.toUInt8] ++ ds).length + 1 := List.length_append
      refine ⟨[], (pend ++ [0]).length, ?_⟩
      intro dest out fuel hfuel hout
      rw [List.length_cons] at hfuel
      obtain ⟨fuel, rfl⟩ : ∃ k, fuel = k + 1 + 1 := ⟨fuel - 2, by omega⟩
      apply mem_sprintfLoopReads_dir hwidth hds rfl hconv hout
      rw [hsplit, ← hnext]
      exact mem_sprintfLoopReads _ _ _ _ _ _
    · -- a whole directive, with an argument that it takes
      obtain ⟨a, t, hconv⟩ := exists_converts e (ds.foldl nextPaddingWord 0).toInt.toNat
      have hwidth : fmt = pre ++ pend ++ ['%'.toUInt8] ++ ds ++ e :: (rest ++ 0 :: junk) := by
        rw [hfmt]
        simp
      have hsplit : pre ++ pend ++ '%'.toUInt8 :: (ds ++ e :: rest) =
          pre ++ pend ++ ['%'.toUInt8] ++ ds ++ [e] ++ [] ++ rest := by simp
      have hshort : rest.length < ('%'.toUInt8 :: (ds ++ e :: rest)).length := by
        rw [List.length_cons, List.length_append, List.length_cons]
        omega
      obtain ⟨args, room, hroom⟩ := ih rest.length hshort
        (pre ++ pend ++ ['%'.toUInt8] ++ ds ++ [e]) [] rest (by rw [hfmt, hsplit])
        (fun x hx => hrest x (List.mem_cons_of_mem _
          (List.mem_append_right ds (List.mem_cons_of_mem e hx))))
        (hscan.symm.trans hend) rfl
      refine ⟨a ++ args, (pend ++ t).length + room, ?_⟩
      intro dest out fuel hfuel hout
      obtain ⟨fuel, rfl⟩ := Nat.exists_eq_succ_of_ne_zero (by omega : fuel ≠ 0)
      have hlen : (out ++ (pend ++ t)).length = out.length + (pend ++ t).length :=
        List.length_append
      have hnext := hroom dest (out ++ (pend ++ t)) fuel (by omega) (by omega)
      rw [← hsplit, List.append_nil] at hnext
      exact mem_sprintfLoopReads_dir hwidth hds he (hconv args) (by omega) hnext

/-- **A format that ends within a directive** is read behind its terminator, when its directives
    have their arguments and the destination has room for them. -/
theorem sprintfReads_beyond (junk : List UInt8) (hs : ∀ c ∈ s, c ≠ 0)
    (hend : endsInDirective s = true) :
    ∃ (dest : List UInt8) (args : List Arg),
      s.length + 1 ∈ (sprintfReads dest (s ++ 0 :: junk) args).reads := by
  obtain ⟨args, room, hloop⟩ := sprintfLoopReads_beyond [] [] s rfl hs hend
  refine ⟨List.replicate room 0, args, ?_⟩
  unfold sprintfReads
  apply mem_bind_reads
  exact hloop _ [] _ (by rw [List.length_append]; omega) (by rw [List.length_replicate]; exact (Nat.zero_add _).le)

/-- **What `sprintf` reads of its format** is within it, terminator included, for every destination
    and all arguments, if and only if the format does not end within a directive. -/
theorem sprintf_readsWithin (junk : List UInt8) (hs : ∀ c ∈ s, c ≠ 0) :
    (∀ (dest : List UInt8) (args : List Arg),
      ∀ i ∈ (sprintfReads dest (s ++ 0 :: junk) args).reads, i ≤ s.length) ↔
        endsInDirective s = false := by
  constructor
  · intro hwithin
    by_contra hend
    obtain ⟨dest, args, hbeyond⟩ := sprintfReads_beyond junk hs (eq_true_of_ne_false hend)
    have hle := hwithin dest args _ hbeyond
    omega
  · intro hend dest args
    exact sprintfReads_within dest junk args hs hend

/-- `sprintf(dest, "%03d%%", ..)`. -/
theorem sprintf_readsWithin_percent :
    (∀ (dest : List UInt8) (args : List Arg),
      ∀ i ∈ (sprintfReads dest (ascii "%03d%%" ++ 0 :: []) args).reads,
        i ≤ (ascii "%03d%%").length) ↔
      endsInDirective (ascii "%03d%%") = false := by
  have hs : ∀ c ∈ ascii "%03d%%", c ≠ 0 := ne_zero_of_all (by decide)
  exact sprintf_readsWithin [] hs

/-- `sprintf(dest, "100%")` reads the character behind the terminator. -/
theorem sprintf_readsWithin_fails :
    ¬ ∀ i ∈ (sprintfReads (List.replicate 8 0) (ascii "100%" ++ [0, 0]) []).reads,
      i ≤ (ascii "100%").length := by
  have hreads : (sprintfReads (List.replicate 8 0) (ascii "100%" ++ [0, 0]) []).reads.contains 5 =
      true := by decide
  intro hwithin
  have hle := hwithin 5 (List.contains_iff_mem.mp hreads)
  exact absurd hle (by decide)

end Rotary

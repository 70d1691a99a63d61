import Rotary.Core.String

namespace Rotary

open Lib

/-!
# Formatted output (`sprintf` of `kernel/core/string.c`)

`sprintf` walks over the format with two cursors: `index` looks at the next character, and
`processed` trails it at the first character of literal text that has not been copied yet.  The
text is copied when a directive or the end of the format is reached.

* `Piece` — what a format consists of, and `Renders` — the text that it stands for with given
  arguments;
* `Appends` — what a loop of the code appends to the destination, with the room that it takes; it
  composes (`Appends.bind`);
* `Shows.converts` / `converts_bare` — one directive appends its padded text;
* `sprintfLoop_spec` — after any number of pieces, what has been written and what is pending make
  up the text;
* `sprintf_renders` — the destination holds the text and its terminator.

The destination is an array of its own: it overlaps neither the format nor an argument.
-/

/-! ### The code -/

/-- An argument of the variable list: a pointer to a string, or a word. -/
inductive Arg
  | str (s : List UInt8)
  | word (w : BitVec 32)

/-- `dest_buf` and `dest_index`. -/
structure Dest where
  buf : List UInt8
  index : ℕ

/-- `dest_buf[dest_index++] = c`. -/
def Dest.emit (d : Dest) (c : UInt8) : Option Dest :=
  (put d.buf d.index c).map fun buf => ⟨buf, d.index + 1⟩

/-- `fill_buffer`, with the count that is left. -/
def fillBuffer (c : UInt8) : ℕ → Dest → Option Dest
  | 0, d => some d
  | count + 1, d => do
    let d ← d.emit c
    fillBuffer c count d

/-- `c >= '0' && c <= '9'`. -/
def isDigit (c : UInt8) : Bool := '0'.toUInt8 ≤ c && c ≤ '9'.toUInt8

/-- The loop that copies `n` characters of literal text, `format_str[processed]` first. -/
def copyLiteral (fmt : List UInt8) : ℕ → ℕ → Dest → Option Dest
  | 0, _, d => some d
  | n + 1, processed, d => do
    let c ← fmt[processed]?
    let d ← d.emit c
    copyLiteral fmt n (processed + 1) d

/-- `padding * 10 + (c - '0')`. -/
def nextPadding (padding : ℕ) (c : UInt8) : ℕ := padding * 10 + (c.toNat - '0'.toNat)

/-- The loop that reads the padding, an `int` that must not overflow.  It ends within the
    format. -/
def readPadding (fmt : List UInt8) : ℕ → ℕ → ℕ → Option (ℕ × ℕ)
  | 0, _, _ => none
  | fuel + 1, index, padding => do
    let c ← fmt[index]?
    if isDigit c then
      if nextPadding padding c < 2 ^ 31 then
        readPadding fmt fuel (index + 1) (nextPadding padding c)
      else none
    else some (index, padding)

/-- The loop that copies a string up to its terminator. -/
def copyString : List UInt8 → Dest → Option Dest
  | [], _ => none
  | c :: s, d =>
    if c = 0 then some d
    else do
      let d ← d.emit c
      copyString s d

/-- `if (padding > length) fill_buffer(.., '0', padding - length);`. -/
def pad (padding length : ℕ) (d : Dest) : Option Dest :=
  if padding > length then fillBuffer '0'.toUInt8 (padding - length) d else some d

/-- What the directives do with a string. -/
def putText (padding : ℕ) (s : List UInt8) (d : Dest) : Option Dest := do
  let length ← strlen s
  let d ← pad padding length d
  copyString s d

/-- `va_arg(list, char*)`. -/
def nextStr : List Arg → Option (List UInt8 × List Arg)
  | .str s :: args => some (s, args)
  | _ => none

/-- `va_arg` of a word. -/
def nextWord : List Arg → Option (BitVec 32 × List Arg)
  | .word w :: args => some (w, args)
  | _ => none

/-- `num`, cleared. -/
def numBuf : List UInt8 := List.replicate 32 0

/-- The `switch` over the conversion character. -/
def directive (c : UInt8) (padding : ℕ) (args : List Arg) (d : Dest) :
    Option (List Arg × Dest) :=
  if c = 's'.toUInt8 then do
    let (s, args) ← nextStr args
    let d ← putText padding s d
    return (args, d)
  else if c = 'd'.toUInt8 then do
    let (w, args) ← nextWord args
    let num ← intToStr w.toInt numBuf
    let d ← putText padding num d
    return (args, d)
  else if c = 'u'.toUInt8 then do
    let (w, args) ← nextWord args
    let num ← uintToStr w.toNat numBuf
    let d ← putText padding num d
    return (args, d)
  else if c = 'x'.toUInt8 then do
    let (w, args) ← nextWord args
    let num ← intToHexStr w.toNat numBuf
    let d ← putText padding num d
    return (args, d)
  else if c = 'c'.toUInt8 then do
    let d ← pad padding 1 d
    let (w, args) ← nextWord args
    let d ← d.emit (UInt8.ofNat w.toNat)
    return (args, d)
  else do
    let d ← d.emit c
    return (args, d)

/-- The main loop of `sprintf`: the two cursors at the terminator of the format, and what has been
    written by then. -/
def sprintfLoop (fmt : List UInt8) :
    ℕ → ℕ → ℕ → List Arg → Dest → Option (ℕ × ℕ × Dest)
  | 0, _, _, _, _ => none
  | fuel + 1, index, processed, args, d => do
    let c ← fmt[index]?
    if c = 0 then some (index, processed, d)
    else if c = '%'.toUInt8 then do
      let d ← copyLiteral fmt (index - processed) processed d
      let (index, padding) ← readPadding fmt fmt.length (index + 1) 0
      let c ← fmt[index]?
      let (args, d) ← directive c padding args d
      sprintfLoop fmt fuel (index + 1) (index + 1) args d
    else sprintfLoop fmt fuel (index + 1) processed args d

/-- `sprintf`: the value that is returned, and the destination. -/
def sprintf (dest fmt : List UInt8) (args : List Arg) : Option (ℤ × List UInt8) := do
  let (index, processed, d) ← sprintfLoop fmt fmt.length 0 0 args ⟨dest, 0⟩
  let d ← copyLiteral fmt (index - processed) processed d
  let dest ← put d.buf d.index 0
  return ((BitVec.ofNat 32 d.index).toInt, dest)

/-! ### Formats and the texts they stand for -/

/-- A directive: `%`, the digits of the width, and a conversion character. -/
structure Directive where
  width : List UInt8
  conv : UInt8
  width_digits : ∀ c ∈ width, isDigit c = true
  width_fits : width.foldl nextPadding 0 < 2 ^ 31
  conv_ne_zero : conv ≠ 0
  conv_not_digit : isDigit conv = false

/-- A piece of a format: a literal character or a directive. -/
inductive Piece
  | lit (c : UInt8) (hnull : c ≠ 0) (hpercent : c ≠ '%'.toUInt8)
  | dir (d : Directive)

/-- The characters of a directive. -/
def Directive.source (d : Directive) : List UInt8 := '%'.toUInt8 :: (d.width ++ [d.conv])

/-- The characters of a piece. -/
def Piece.source : Piece → List UInt8
  | .lit c _ _ => [c]
  | .dir d => d.source

/-- The text of an argument under a conversion, before it is padded. -/
inductive Shows : UInt8 → Arg → List UInt8 → Prop
  | str (s t : List UInt8) (hs : ∀ c ∈ s, c ≠ 0) (hlen : s.length ≤ 512) :
    Shows 's'.toUInt8 (.str (s ++ 0 :: t)) s
  | int (w : BitVec 32) (hmin : w.toInt ≠ -2 ^ 31) :
    Shows 'd'.toUInt8 (.word w) (signed w.toInt)
  | uint (w : BitVec 32) : Shows 'u'.toUInt8 (.word w) (numeral 10 w.toNat)
  | hex (w : BitVec 32) : Shows 'x'.toUInt8 (.word w) (numeral 16 w.toNat)
  | char (w : BitVec 32) : Shows 'c'.toUInt8 (.word w) [UInt8.ofNat w.toNat]

/-- The conversions that take an argument. -/
def conversions : List UInt8 := "sduxc".toList.map Char.toUInt8

/-- The text of a format with its arguments. -/
inductive Renders : List Piece → List Arg → List UInt8 → Prop
  | done (args : List Arg) : Renders [] args []
  | lit {pieces : List Piece} {args : List Arg} {text : List UInt8} (c : UInt8) (hnull : c ≠ 0)
    (hpercent : c ≠ '%'.toUInt8) (rest : Renders pieces args text) :
    Renders (.lit c hnull hpercent :: pieces) args (c :: text)
  | shown {pieces : List Piece} {args : List Arg} {text : List UInt8} (d : Directive) (arg : Arg)
    (s : List UInt8) (hs : Shows d.conv arg s) (rest : Renders pieces args text) :
    Renders (.dir d :: pieces) (arg :: args)
      (s.leftpad (d.width.foldl nextPadding 0) '0'.toUInt8 ++ text)
  | bare {pieces : List Piece} {args : List Arg} {text : List UInt8} (d : Directive)
    (hd : d.conv ∉ conversions) (rest : Renders pieces args text) :
    Renders (.dir d :: pieces) args (d.conv :: text)

/-- `dest` after the text `out` has been written to it. -/
def wrote (dest out : List UInt8) : Dest := ⟨filled dest out, out.length⟩

variable {dest out s t fmt pre pend rest text : List UInt8} {c : UInt8} {args args' : List Arg}
  {padding n : ℕ} {f g : Dest → Option Dest}

/-! ### What the loops append -/

/-- `f` appends `s` to what has been written.  If there is no room for all of it, `f` writes outside
    of the destination. -/
def Appends (f : Dest → Option Dest) (s : List UInt8) : Prop :=
  ∀ dest out : List UInt8, out.length ≤ dest.length →
    f (wrote dest out) =
      if out.length + s.length ≤ dest.length then some (wrote dest (out ++ s)) else none

theorem Appends.nil : Appends some [] := by
  intro dest out hout
  rw [List.length_nil, Nat.add_zero, if_pos hout, List.append_nil]

theorem Appends.emit (c : UInt8) : Appends (fun d => d.emit c) [c] := by
  intro dest out hout
  show ((put (filled dest out) out.length c).map fun buf => (⟨buf, out.length + 1⟩ : Dest)) = _
  rw [List.length_singleton]
  by_cases hroom : out.length < dest.length
  · rw [put_filled dest out c hroom, if_pos (Nat.succ_le_of_lt hroom), wrote, List.length_append, List.length_singleton]
    rfl
  · rw [put_full dest out c (by omega), if_neg (by omega)]
    rfl

/-- **One after the other.** -/
theorem Appends.bind (hf : Appends f s) (hg : Appends g t) :
    Appends (fun d => (f d).bind g) (s ++ t) := by
  intro dest out hout
  show (f (wrote dest out)).bind g = _
  rw [hf dest out hout, List.length_append]
  by_cases hroom : out.length + s.length ≤ dest.length
  · rw [if_pos hroom, Option.bind_some, hg dest (out ++ s) (by rw [List.length_append]; exact hroom),
      List.length_append, Nat.add_assoc, List.append_assoc]
  · rw [if_neg hroom, if_neg (by omega)]
    rfl

theorem appends_fillBuffer (c : UInt8) (n : ℕ) :
    Appends (fillBuffer c n) (List.replicate n c) := by
  induction n with
  | zero => exact Appends.nil
  | succ n ih =>
    show Appends (fun d => (d.emit c).bind (fillBuffer c n)) ([c] ++ List.replicate n c)
    exact (Appends.emit c).bind ih

theorem appends_copyString (t : List UInt8) (hs : ∀ c ∈ s, c ≠ 0) :
    Appends (copyString (s ++ 0 :: t)) s := by
  induction s with
  | nil => exact Appends.nil
  | cons c s ih =>
    have hstep : copyString (c :: s ++ 0 :: t) =
        fun d => (d.emit c).bind (copyString (s ++ 0 :: t)) := by
      funext d
      rw [List.cons_append, copyString, if_neg (hs c List.mem_cons_self)]
      rfl
    rw [hstep]
    exact (Appends.emit c).bind (ih fun d hd => hs d (List.mem_cons_of_mem c hd))

/-- The trailing cursor passes over the pending text. -/
theorem appends_copyLiteral (pre pend rest : List UInt8) :
    Appends (copyLiteral (pre ++ pend ++ rest) pend.length pre.length) pend := by
  induction pend generalizing pre with
  | nil => exact Appends.nil
  | cons c pend ih =>
    have hchar : (pre ++ c :: pend ++ rest)[pre.length]? = some c := by simp
    have hstep : copyLiteral (pre ++ c :: pend ++ rest) (c :: pend).length pre.length =
        fun d => (d.emit c).bind
          (copyLiteral (pre ++ c :: pend ++ rest) pend.length (pre.length + 1)) := by
      funext d
      rw [List.length_cons, copyLiteral, hchar]
      rfl
    have htail := ih (pre ++ [c])
    have hfmt : pre ++ [c] ++ pend ++ rest = pre ++ c :: pend ++ rest := by simp
    rw [hfmt, List.length_append, List.length_singleton] at htail
    rw [hstep]
    exact (Appends.emit c).bind htail

theorem appends_pad (padding n : ℕ) :
    Appends (pad padding n) (List.replicate (padding - n) '0'.toUInt8) := by
  by_cases hpad : padding > n
  · have hstep : pad padding n = fillBuffer '0'.toUInt8 (padding - n) := by
      funext d
      rw [pad, if_pos hpad]
    rw [hstep]
    exact appends_fillBuffer _ _
  · have hstep : pad padding n = some := by
      funext d
      rw [pad, if_neg hpad]
    rw [hstep, Nat.sub_eq_zero_of_le (by omega)]
    exact Appends.nil

/-- **A padded string.**  `strlen` takes a longer one for 512 characters long, but all of it is
    copied. -/
theorem appends_putText (padding : ℕ) (t : List UInt8) (hs : ∀ c ∈ s, c ≠ 0) :
    Appends (putText padding (s ++ 0 :: t))
      (List.replicate (padding - min s.length 512) '0'.toUInt8 ++ s) := by
  have hlen : strlen (s ++ 0 :: t) = some (min s.length 512) := strlenFrom_spec hs 512
  have hstep : putText padding (s ++ 0 :: t) =
      fun d => (pad padding (min s.length 512) d).bind (copyString (s ++ 0 :: t)) := by
    funext d
    rw [putText, hlen]
    rfl
  rw [hstep]
  exact (appends_pad _ _).bind (appends_copyString t hs)

/-! ### One directive -/

theorem signed_ne_zero {num : ℤ} (hc : c ∈ signed num) : c ≠ 0 := by
  unfold signed at hc
  split at hc
  · rcases List.mem_cons.mp hc with rfl | hc
    · decide
    · exact numeral_ne_zero (by decide) (by decide) hc
  · exact numeral_ne_zero (by decide) (by decide) hc

theorem signed_length_le (w : BitVec 32) : (signed w.toInt).length ≤ 11 := by
  have habs : w.toInt.natAbs < 10 ^ 10 := by
    have hlow := BitVec.le_two_mul_toInt (x := w)
    have hhigh := BitVec.two_mul_toInt_lt (x := w)
    omega
  have hlen := numeral_length_le (b := 10) (by decide) (by decide) habs
  unfold signed
  split
  · rw [List.length_cons]
    omega
  · omega

theorem numeral_word_length_le {b : ℕ} (hb : 10 ≤ b) (w : BitVec 32) :
    (numeral b w.toNat).length ≤ 10 := by
  have hpow : 10 ^ 10 ≤ b ^ 10 := Nat.pow_le_pow_left hb 10
  exact numeral_length_le (by omega) (by decide) (by omega)

/-- The buffer `num` is read as the string that has been written to it. -/
theorem appends_numBuf (padding : ℕ) (hs : ∀ c ∈ s, c ≠ 0) (hlen : s.length ≤ 11) :
    Appends (putText padding (filled numBuf (s ++ [0]))) (s.leftpad padding '0'.toUInt8) := by
  have hpad := appends_putText padding (numBuf.drop (s.length + 1)) hs
  rw [Nat.min_eq_left (by omega)] at hpad
  rw [filled_terminated]
  exact hpad

/-- The directive takes the arguments down to `args'` and appends `s`. -/
def Converts (c : UInt8) (padding : ℕ) (args args' : List Arg) (s : List UInt8) : Prop :=
  ∃ f, Appends f s ∧ ∀ d, directive c padding args d = (f d).map fun d => (args', d)

theorem converts_str (padding : ℕ) (t : List UInt8) (args : List Arg) (hs : ∀ c ∈ s, c ≠ 0) :
    Converts 's'.toUInt8 padding (.str (s ++ 0 :: t) :: args) args
      (List.replicate (padding - min s.length 512) '0'.toUInt8 ++ s) := by
  refine ⟨_, appends_putText padding t hs, ?_⟩
  intro d
  unfold directive
  rw [if_pos rfl, nextStr, Option.map_eq_bind]
  rfl

/-- **A directive that takes an argument** appends its padded text. -/
theorem Shows.converts {arg : Arg} (hs : Shows c arg s) (padding : ℕ) (args : List Arg) :
    Converts c padding (arg :: args) args (s.leftpad padding '0'.toUInt8) := by
  have hbuf : numBuf.length = 32 := rfl
  cases hs with
  | str s t hs hlen =>
    have hconv := converts_str padding t args hs
    rw [Nat.min_eq_left hlen] at hconv
    exact hconv
  | int w hmin =>
    have hlen := signed_length_le w
    have hnum := intToStr_spec (a := numBuf) hmin (by omega)
    refine ⟨_, appends_numBuf padding (fun _ hc => signed_ne_zero hc) hlen, ?_⟩
    intro d
    unfold directive
    rw [if_neg (by decide), if_pos rfl, nextWord, Option.map_eq_bind]
    simp only [Option.bind_eq_bind, Option.bind_some, hnum]
    rfl
  | uint w =>
    have hlen := numeral_word_length_le (Nat.le_refl 10) w
    have hnum := uintToStr_spec (a := numBuf) (hlen.trans_lt (by decide))
    refine ⟨_, appends_numBuf padding
      (fun _ hc => numeral_ne_zero (by decide) (by decide) hc) (hlen.trans (by decide)), ?_⟩
    intro d
    unfold directive
    rw [if_neg (by decide), if_neg (by decide), if_pos rfl, nextWord, Option.map_eq_bind]
    simp only [Option.bind_eq_bind, Option.bind_some, hnum]
    rfl
  | hex w =>
    have hlen := numeral_word_length_le (b := 16) (by decide) w
    have hnum := intToHexStr_spec (a := numBuf) w.isLt (by omega)
    refine ⟨_, appends_numBuf padding
      (fun _ hc => numeral_ne_zero (by decide) (by decide) hc) (hlen.trans (by decide)), ?_⟩
    intro d
    unfold directive
    rw [if_neg (by decide), if_neg (by decide), if_neg (by decide), if_pos rfl, nextWord,
      Option.map_eq_bind]
    simp only [Option.bind_eq_bind, Option.bind_some, hnum]
    rfl
  | char w =>
    -- the zeros are counted without the text, which is one character
    refine ⟨_, (appends_pad padding 1).bind (Appends.emit (UInt8.ofNat w.toNat)), ?_⟩
    intro d
    unfold directive
    rw [if_neg (by decide), if_neg (by decide), if_neg (by decide), if_neg (by decide), if_pos rfl,
      Option.map_eq_bind, Option.bind_assoc]
    rfl

/-- **Any other directive** appends its conversion character and leaves the arguments alone. -/
theorem converts_bare (hc : c ∉ conversions) (padding : ℕ) (args : List Arg) :
    Converts c padding args args [c] := by
  have hne : ∀ d ∈ conversions, c ≠ d := fun d hd hcd => hc (hcd ▸ hd)
  refine ⟨_, Appends.emit c, ?_⟩
  intro d
  unfold directive
  rw [if_neg (hne _ (by decide)), if_neg (hne _ (by decide)), if_neg (hne _ (by decide)),
    if_neg (hne _ (by decide)), if_neg (hne _ (by decide)), Option.map_eq_bind]
  rfl

/-- What the pieces append, directive by directive. -/
inductive Emits : List Piece → List Arg → List UInt8 → Prop
  | done (args : List Arg) : Emits [] args []
  | lit {pieces : List Piece} {args : List Arg} {text : List UInt8} (c : UInt8) (hnull : c ≠ 0)
    (hpercent : c ≠ '%'.toUInt8) (rest : Emits pieces args text) :
    Emits (.lit c hnull hpercent :: pieces) args (c :: text)
  | dir {pieces : List Piece} {args args' : List Arg} {text : List UInt8} (d : Directive)
    (s : List UInt8) (hd : Converts d.conv (d.width.foldl nextPadding 0) args args' s)
    (rest : Emits pieces args' text) : Emits (.dir d :: pieces) args (s ++ text)

/-- The text that a format stands for is what it appends. -/
theorem Renders.emits {pieces : List Piece} (hr : Renders pieces args text) :
    Emits pieces args text := by
  induction hr with
  | done args => exact Emits.done args
  | lit c hnull hpercent _ ih => exact Emits.lit c hnull hpercent ih
  | shown d arg s hs _ ih => exact Emits.dir d _ (hs.converts _ _) ih
  | bare d hd _ ih => exact Emits.dir d _ (converts_bare hd _ _) ih

/-! ### The two cursors -/

theorem le_foldl_nextPadding (ds : List UInt8) (padding : ℕ) :
    padding ≤ ds.foldl nextPadding padding := by
  induction ds generalizing padding with
  | nil => exact Nat.le_refl _
  | cons c ds ih =>
    have hstep : padding ≤ nextPadding padding c := by
      unfold nextPadding
      omega
    exact hstep.trans (ih _)

/-- The digits of the width are read up to the conversion character. -/
theorem readPadding_spec (pre ds rest : List UInt8) (c : UInt8) (padding fuel : ℕ)
    (hds : ∀ d ∈ ds, isDigit d = true) (hc : isDigit c = false)
    (hfits : ds.foldl nextPadding padding < 2 ^ 31) (hfuel : ds.length < fuel) :
    readPadding (pre ++ ds ++ c :: rest) fuel pre.length padding =
      some (pre.length + ds.length, ds.foldl nextPadding padding) := by
  induction ds generalizing pre padding fuel with
  | nil =>
    obtain ⟨fuel, rfl⟩ := Nat.exists_eq_succ_of_ne_zero (Nat.ne_of_gt hfuel)
    have hchar : (pre ++ [] ++ c :: rest)[pre.length]? = some c := by simp
    simp only [readPadding, hchar, hc, Option.bind_eq_bind, Option.bind_some, Bool.false_eq_true,
      if_false, List.length_nil, Nat.add_zero, List.foldl_nil]
  | cons d ds ih =>
    obtain ⟨fuel, rfl⟩ := Nat.exists_eq_succ_of_ne_zero (by omega : fuel ≠ 0)
    have hchar : (pre ++ d :: ds ++ c :: rest)[pre.length]? = some d := by simp
    have hdigit : isDigit d = true := hds d List.mem_cons_self
    have hnext : nextPadding padding d < 2 ^ 31 :=
      (le_foldl_nextPadding ds _).trans_lt hfits
    have htail := ih (pre ++ [d]) _ fuel (fun e he => hds e (List.mem_cons_of_mem d he)) hfits
      (Nat.lt_of_succ_lt_succ hfuel)
    have hfmt : pre ++ [d] ++ ds ++ c :: rest = pre ++ d :: ds ++ c :: rest := by simp
    rw [hfmt, List.length_append, List.length_singleton] at htail
    simp only [readPadding, hchar, hdigit, Option.bind_eq_bind, Option.bind_some, if_true, hnext,
      htail, List.length_cons, List.foldl_cons]
    rw [Nat.add_assoc, Nat.add_comm 1]

/-- A literal character becomes pending. -/
theorem sprintfLoop_lit {fuel index processed : ℕ} {d : Dest} (hchar : fmt[index]? = some c)
    (hnull : c ≠ 0) (hpercent : c ≠ '%'.toUInt8) :
    sprintfLoop fmt (fuel + 1) index processed args d =
      sprintfLoop fmt fuel (index + 1) processed args d := by
  rw [sprintfLoop, hchar, Option.bind_eq_bind, Option.bind_some, if_neg hnull, if_neg hpercent]

/-- A directive copies what is pending, and the `switch` does the rest. -/
theorem sprintfLoop_dir {fuel : ℕ} (d : Directive) (dst : Dest)
    (hfmt : fmt = pre ++ pend ++ (d.source ++ rest)) :
    sprintfLoop fmt (fuel + 1) (pre.length + pend.length) pre.length args dst =
      (copyLiteral fmt pend.length pre.length dst).bind fun dst =>
        (directive d.conv (d.width.foldl nextPadding 0) args dst).bind fun r =>
          sprintfLoop fmt fuel (pre ++ pend ++ d.source).length
            (pre ++ pend ++ d.source).length r.1 r.2 := by
  have hpercent : fmt[pre.length + pend.length]? = some '%'.toUInt8 := by
    rw [hfmt, ← List.length_append]
    simp [Directive.source]
  -- the cursor passes over the digits to the conversion character
  have hread := readPadding_spec (pre ++ pend ++ ['%'.toUInt8]) d.width rest d.conv 0 fmt.length
    d.width_digits d.conv_not_digit d.width_fits (by rw [hfmt]; simp [Directive.source]; omega)
  have hsame : pre ++ pend ++ ['%'.toUInt8] ++ d.width ++ d.conv :: rest = fmt := by
    rw [hfmt]
    simp [Directive.source]
  have hconv : fmt[(pre ++ pend ++ ['%'.toUInt8]).length + d.width.length]? = some d.conv := by
    rw [← hsame, ← List.length_append]
    simp
  have hend : (pre ++ pend ++ d.source).length =
      (pre ++ pend ++ ['%'.toUInt8]).length + d.width.length + 1 := by
    simp [Directive.source]
    omega
  have hnext : pre.length + pend.length + 1 = (pre ++ pend ++ ['%'.toUInt8]).length := by
    rw [List.length_append, List.length_append, List.length_singleton]
  rw [hsame] at hread
  rw [sprintfLoop, hpercent, Option.bind_eq_bind, Option.bind_some, if_neg (by decide), if_pos rfl,
    Nat.add_sub_cancel_left, hnext, hend]
  simp only [Option.bind_eq_bind, Option.bind_some, hread, hconv]

/-- A directive that appends `s`; nothing is pending after it. -/
theorem sprintfLoop_converts {fuel : ℕ} (d : Directive)
    (hd : Converts d.conv (d.width.foldl nextPadding 0) args args' s)
    (hfmt : fmt = pre ++ pend ++ (d.source ++ rest)) (hout : out.length ≤ dest.length) :
    sprintfLoop fmt (fuel + 1) (pre.length + pend.length) pre.length args (wrote dest out) =
      if out.length + (pend ++ s).length ≤ dest.length then
        sprintfLoop fmt fuel (pre ++ pend ++ d.source).length (pre ++ pend ++ d.source).length
          args' (wrote dest (out ++ (pend ++ s)))
      else none := by
  obtain ⟨f, hf, hdirective⟩ := hd
  have hcopy := appends_copyLiteral pre pend (d.source ++ rest)
  rw [← hfmt] at hcopy
  have hboth : (copyLiteral fmt pend.length pre.length (wrote dest out)).bind f = _ :=
    hcopy.bind hf dest out hout
  rw [sprintfLoop_dir d _ hfmt]
  simp only [hdirective, Option.bind_map]
  rw [← Option.bind_assoc, hboth]
  split
  · rfl
  · rfl

theorem source_dir (d : Directive) (pieces : List Piece) (junk : List UInt8) :
    (Piece.dir d :: pieces).flatMap Piece.source ++ junk =
      d.source ++ (pieces.flatMap Piece.source ++ junk) := by
  rw [List.flatMap_cons, List.append_assoc]
  rfl

theorem length_le_source (pieces : List Piece) :
    pieces.length ≤ (pieces.flatMap Piece.source).length := by
  induction pieces with
  | nil => exact Nat.le_refl _
  | cons p pieces ih =>
    have hpos : 0 < p.source.length := by
      cases p with
      | lit c hnull hpercent => exact Nat.one_pos
      | dir d => exact Nat.succ_pos _
    rw [List.flatMap_cons, List.length_append, List.length_cons]
    omega

/-! ### The whole text -/

/-- What follows the main loop: the rest of the literal text, and the terminator. -/
def finish (fmt : List UInt8) (stop : ℕ × ℕ × Dest) : Option (ℤ × List UInt8) := do
  let d ← copyLiteral fmt (stop.1 - stop.2.1) stop.2.1 stop.2.2
  let dest ← put d.buf d.index 0
  return ((BitVec.ofNat 32 d.index).toInt, dest)

theorem sprintf_eq (dest fmt : List UInt8) (args : List Arg) :
    sprintf dest fmt args =
      (sprintfLoop fmt fmt.length 0 0 args ⟨dest, 0⟩).bind (finish fmt) := rfl

/-- The text in the destination, if it has room for it and its terminator. -/
def textIn (dest text : List UInt8) : Option (ℤ × List UInt8) :=
  if text.length < dest.length then
    some ((BitVec.ofNat 32 text.length).toInt, text ++ 0 :: dest.drop (text.length + 1))
  else none

theorem textIn_of_le (h : dest.length ≤ text.length) : textIn dest text = none := by
  unfold textIn
  rw [if_neg (by omega)]

theorem finish_wrote (junk : List UInt8) (hfmt : fmt = pre ++ pend ++ 0 :: junk)
    (hout : out.length ≤ dest.length) :
    finish fmt (pre.length + pend.length, pre.length, wrote dest out) =
      textIn dest (out ++ pend) := by
  have hcopy := appends_copyLiteral pre pend (0 :: junk) dest out hout
  rw [← hfmt] at hcopy
  unfold finish textIn
  rw [Nat.add_sub_cancel_left, hcopy, List.length_append]
  by_cases hroom : out.length + pend.length ≤ dest.length
  · rw [if_pos hroom, Option.bind_eq_bind, Option.bind_some, ← List.length_append, wrote]
    by_cases hlast : (out ++ pend).length < dest.length
    · rw [if_pos hlast, put_filled dest _ 0 hlast, filled_terminated]
      rfl
    · have hfull : (out ++ pend).length = dest.length := by
        rw [List.length_append] at hlast ⊢
        omega
      rw [if_neg hlast, put_full dest _ 0 hfull]
      rfl
  · rw [if_neg hroom, if_neg (by omega)]
    rfl

/-- **The loop over the pieces.**  What is written, what is pending and the text of the remaining
    pieces make up the text at every turn. -/
theorem sprintfLoop_spec {pieces : List Piece} {junk : List UInt8} (he : Emits pieces args text)
    (pre pend out : List UInt8) (fuel : ℕ)
    (hfmt : fmt = pre ++ pend ++ (pieces.flatMap Piece.source ++ 0 :: junk))
    (hout : out.length ≤ dest.length) (hfuel : pieces.length < fuel) :
    (sprintfLoop fmt fuel (pre.length + pend.length) pre.length args (wrote dest out)).bind
      (finish fmt) = textIn dest (out ++ pend ++ text) := by
  -- every turn of the loop takes one piece off
  induction he generalizing pre pend out fuel with
  | done args =>
    obtain ⟨fuel, rfl⟩ := Nat.exists_eq_succ_of_ne_zero (Nat.ne_of_gt hfuel)
    have hnull : fmt[pre.length + pend.length]? = some 0 := by
      rw [hfmt, ← List.length_append]
      simp
    -- the last literal text is still pending
    rw [sprintfLoop, hnull, Option.bind_eq_bind, Option.bind_some, if_pos rfl, Option.bind_some,
      finish_wrote junk hfmt hout, List.append_nil]
  | @lit pieces args text c hnull hpercent _ ih =>
    obtain ⟨fuel, rfl⟩ := Nat.exists_eq_succ_of_ne_zero (by omega : fuel ≠ 0)
    have hchar : fmt[pre.length + pend.length]? = some c := by
      rw [hfmt, ← List.length_append]
      simp [Piece.source]
    have htext : out ++ pend ++ c :: text = out ++ (pend ++ [c]) ++ text := by simp
    have hnext := ih pre (pend ++ [c]) out fuel (by rw [hfmt]; simp [Piece.source]) hout
      (Nat.lt_of_succ_lt_succ hfuel)
    have hindex : pre.length + (pend ++ [c]).length = pre.length + pend.length + 1 := by
      rw [List.length_append, List.length_singleton, Nat.add_assoc]
    rw [sprintfLoop_lit hchar hnull hpercent, htext, ← hindex]
    exact hnext
  | @dir pieces args args' text d s hd _ ih =>
    obtain ⟨fuel, rfl⟩ := Nat.exists_eq_succ_of_ne_zero (by omega : fuel ≠ 0)
    have htext : out ++ pend ++ (s ++ text) = out ++ (pend ++ s) ++ [] ++ text := by simp
    rw [source_dir] at hfmt
    rw [sprintfLoop_converts d hd hfmt hout]
    by_cases hroom : out.length + (pend ++ s).length ≤ dest.length
    · have hnext := ih (pre ++ pend ++ d.source) [] (out ++ (pend ++ s)) fuel (by rw [hfmt]; simp)
        (by rw [List.length_append]; exact hroom) (Nat.lt_of_succ_lt_succ hfuel)
      rw [if_pos hroom, htext]
      exact hnext
    · rw [if_neg hroom, Option.bind_none, textIn_of_le]
      rw [htext]
      simp only [List.length_append, List.length_nil] at hroom ⊢
      omega

/-- **The text of the pieces is written if there is room for it**, and its length converted to an
    `int`. -/
theorem sprintf_of_emits (dest junk : List UInt8) {pieces : List Piece}
    (he : Emits pieces args text) :
    sprintf dest (pieces.flatMap Piece.source ++ 0 :: junk) args = textIn dest text := by
  have hfuel : pieces.length < (pieces.flatMap Piece.source ++ 0 :: junk).length := by
    have hlen := length_le_source pieces
    rw [List.length_append, List.length_cons]
    omega
  rw [sprintf_eq]
  exact sprintfLoop_spec he [] [] [] _ rfl (Nat.zero_le _) hfuel

theorem toInt_ofNat_of_lt (hn : n < 2 ^ 31) : (BitVec.ofNat 32 n).toInt = n := by
  rw [BitVec.toInt_eq_toNat_cond, BitVec.toNat_ofNat, Nat.mod_eq_of_lt (by omega),
    if_pos (by omega)]

/-- **`sprintf` renders its format**: the destination holds the text and its terminator, the rest
    of it is as before, and the length of the text is returned when it is an `int`. -/
theorem sprintf_renders (dest junk : List UInt8) {pieces : List Piece} {args : List Arg}
    {text : List UInt8} (hr : Renders pieces args text)
    (hroom : text.length < dest.length) :
    ∃ ret : ℤ, sprintf dest (pieces.flatMap Piece.source ++ 0 :: junk) args =
        some (ret, text ++ 0 :: dest.drop (text.length + 1)) ∧
      (text.length < 2 ^ 31 → ret = text.length) := by
  have hsprintf := sprintf_of_emits dest junk hr.emits
  unfold textIn at hsprintf
  rw [if_pos hroom] at hsprintf
  exact ⟨_, hsprintf, fun hfit => toInt_ofNat_of_lt hfit⟩

/-- The bytes of an ASCII literal. -/
def ascii (s : String) : List UInt8 := s.toList.map Char.toUInt8

/-- A literal has no null character in it. -/
theorem ne_zero_of_all (h : s.all (fun c => decide (c ≠ 0)) = true) : ∀ c ∈ s, c ≠ 0 :=
  fun c hc => of_decide_eq_true (List.all_eq_true.mp h c hc)

/-- `sprintf(buffer, "%s:%5d%%", "Number", -42)`. -/
theorem sprintf_renders_number :
    ∃ ret : ℤ, sprintf (List.replicate 20 7) (ascii "%s:%5d%%" ++ [0])
          [.str (ascii "Number" ++ [0]), .word (-42)] =
        some (ret, ascii "Number:00-42%" ++ 0 :: List.replicate 6 7) ∧
      ((ascii "Number:00-42%").length < 2 ^ 31 → ret = (ascii "Number:00-42%").length) := by
  have hname : ∀ c ∈ ascii "Number", c ≠ 0 := ne_zero_of_all (by decide)
  have hstr : Shows 's'.toUInt8 (.str (ascii "Number" ++ [0])) (ascii "Number") :=
    Shows.str _ [] hname (by decide)
  have hint : Shows 'd'.toUInt8 (.word (-42)) (signed (-42)) := Shows.int (-42) (by decide)
  have hnone : ∀ c ∈ ([] : List UInt8), isDigit c = true := List.forall_mem_nil _
  have hfive : ∀ c ∈ ['5'.toUInt8], isDigit c = true := List.forall_mem_singleton.mpr rfl
  have hpercent : '%'.toUInt8 ∉ conversions := by decide
  have hr := Renders.shown ⟨[], 's'.toUInt8, hnone, by decide, by decide, by decide⟩ _ _ hstr
    (Renders.lit ':'.toUInt8 (by decide) (by decide)
      (Renders.shown ⟨['5'.toUInt8], 'd'.toUInt8, hfive, by decide, by decide, by decide⟩ _ _ hint
        (Renders.bare ⟨[], '%'.toUInt8, hnone, by decide, by decide, by decide⟩ hpercent
          (Renders.done []))))
  have hroom : (ascii "Number:00-42%").length < (List.replicate 20 (7 : UInt8)).length := by decide
  exact sprintf_renders (List.replicate 20 7) [] hr hroom

end Rotary

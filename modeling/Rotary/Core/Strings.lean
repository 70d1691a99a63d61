import Rotary.Core.String

namespace Rotary

open Lib

/-!
# Copying and comparing (`strncpy`, `strcat` and `strcmp` of `kernel/core/string.c`)

The strings are char arrays; an access outside of one yields `none`.

* `strcat_spec` — a string is appended to the one that the array holds;
* `strncpy_spec` — a string and its terminator are copied;
* `strcmp_spec` — the result is zero for equal strings and for no others.
-/

/-! ### The code -/

/-- The loop of `strcat` and its terminator, from `str1[i]` on. -/
def strcatFrom : List UInt8 → ℕ → List UInt8 → Option (List UInt8)
  | [], _, _ => none
  | c :: str2, i, str1 =>
    if c ≠ 0 then do
      let str1 ← put str1 i c
      strcatFrom str2 (i + 1) str1
    else put str1 i 0

/-- `strcat`. -/
def strcat (str1 str2 : List UInt8) : Option (List UInt8) := do
  let str1Len ← strlen str1
  strcatFrom str2 str1Len str1

/-- The second loop of `strncpy`, which clears `n` characters from `dest[i]` on. -/
def clearFrom : ℕ → ℕ → List UInt8 → Option (List UInt8)
  | 0, _, dest => some dest
  | n + 1, i, dest => do
    let dest ← put dest i 0
    clearFrom n (i + 1) dest

/-- The loops of `strncpy`, for `n` more characters from `dest[i]` on. -/
def strncpyFrom : ℕ → List UInt8 → ℕ → List UInt8 → Option (List UInt8)
  | 0, _, _, dest => some dest
  | _ + 1, [], _, _ => none
  | n + 1, c :: src, i, dest =>
    if c ≠ 0 then do
      let dest ← put dest i c
      strncpyFrom n src (i + 1) dest
    else clearFrom (n + 1) i dest

/-- `strncpy`. -/
def strncpy (dest src : List UInt8) (n : ℕ) : Option (List UInt8) := strncpyFrom n src 0 dest

/-- `strcmp`. -/
def strcmp : List UInt8 → List UInt8 → Option ℤ
  | c1 :: s1, c2 :: s2 =>
    if c1 ≠ 0 ∧ c1 = c2 then strcmp s1 s2 else some (c1.toNat - c2.toNat)
  | _, _ => none

variable {a out s t s' t' : List UInt8}

/-! ### What they do -/

/-- `strcat` tests for the terminator before it copies, `strcpy` afterwards. -/
theorem strcatFrom_eq (str2 : List UInt8) (i : ℕ) (str1 : List UInt8) :
    strcatFrom str2 i str1 = strcpyFrom str2 i str1 := by
  induction str2 generalizing i str1 with
  | nil => rfl
  | cons c str2 ih =>
    unfold strcatFrom strcpyFrom
    by_cases hc : c = 0
    · subst hc
      rw [if_neg (not_not.mpr rfl)]
      cases put str1 i 0 with
      | none => rfl
      | some dest => rfl
    · simp only [ih, ne_eq, hc, not_false_eq_true, if_true, if_false]

/-- **`strcat`** appends a string to another. -/
theorem strcat_spec (rest t' : List UInt8) (hs : ∀ c ∈ s, c ≠ 0) (hlen : s.length ≤ maxStringLen)
    (hs' : ∀ c ∈ s', c ≠ 0) (hroom : s'.length ≤ rest.length) :
    strcat (s ++ 0 :: rest) (s' ++ 0 :: t') = some (s ++ s' ++ 0 :: rest.drop s'.length) := by
  have hsame : filled (s ++ 0 :: rest) s = s ++ 0 :: rest := by
    unfold filled
    rw [List.drop_left]
  have hcopy := strcpyFrom_spec (a := s ++ 0 :: rest) (t := t') s hs'
    (by rw [List.length_append, List.length_cons]; omega)
  rw [hsame, filled_terminated] at hcopy
  have hdrop : (s ++ 0 :: rest).drop ((s ++ s').length + 1) = rest.drop s'.length := by
    rw [List.length_append, Nat.add_assoc, List.drop_append, List.drop_eq_nil_of_le (by omega)]
    simp
  unfold strcat
  rw [strlen_spec hs hlen, Option.bind_eq_bind, Option.bind_some, strcatFrom_eq, hcopy, hdrop]

/-- **`strncpy`** of a string and its terminator. -/
theorem strncpyFrom_spec (out : List UInt8) (hs : ∀ c ∈ s, c ≠ 0)
    (hroom : out.length + s.length < a.length) :
    strncpyFrom (s.length + 1) (s ++ 0 :: t) out.length (filled a out) =
      some (filled a (out ++ s ++ [0])) := by
  induction s generalizing out with
  | nil =>
    have hput := put_filled a out 0 (by simpa using hroom)
    simp [strncpyFrom, clearFrom, hput]
  | cons c s ih =>
    rw [List.length_cons] at hroom
    have hc : c ≠ 0 := hs c List.mem_cons_self
    have hput := put_filled a out c (by omega)
    have htail := ih (out ++ [c]) (fun d hd => hs d (List.mem_cons_of_mem c hd))
      (by rw [List.length_append, List.length_singleton]; omega)
    have hassoc : out ++ [c] ++ s = out ++ c :: s := by rw [List.append_assoc, List.singleton_append]
    rw [List.length_append, List.length_singleton, hassoc] at htail
    rw [List.cons_append, List.length_cons, strncpyFrom, if_pos hc, hput, Option.bind_eq_bind,
      Option.bind_some, htail]

theorem strncpy_spec (hs : ∀ c ∈ s, c ≠ 0) (hroom : s.length < a.length) :
    strncpy a (s ++ 0 :: t) (s.length + 1) = some (s ++ 0 :: a.drop (s.length + 1)) := by
  have hcopy := strncpyFrom_spec (t := t) [] hs (by simpa using hroom)
  rw [List.nil_append, filled_terminated] at hcopy
  exact hcopy

/-- **`strcmp`** finds out whether two strings are equal. -/
theorem strcmp_spec (t t' : List UInt8) (hs : ∀ c ∈ s, c ≠ 0) (hs' : ∀ c ∈ s', c ≠ 0) :
    ∃ r, strcmp (s ++ 0 :: t) (s' ++ 0 :: t') = some r ∧ (r = 0 ↔ s = s') := by
  induction s generalizing s' with
  | nil =>
    cases s' with
    | nil => exact ⟨0, by simp [strcmp], by simp⟩
    | cons c' s' =>
      have hc' : c' ≠ 0 := hs' c' List.mem_cons_self
      have hval : c'.toNat ≠ 0 := fun h => hc' (UInt8.toNat_inj.mp h)
      refine ⟨0 - c'.toNat, by simp [strcmp], ?_⟩
      constructor
      · intro h
        omega
      · intro h
        exact absurd h (List.cons_ne_nil c' s').symm
  | cons c s ih =>
    have hc : c ≠ 0 := hs c List.mem_cons_self
    cases s' with
    | nil =>
      have hval : c.toNat ≠ 0 := fun h => hc (UInt8.toNat_inj.mp h)
      refine ⟨c.toNat, by simp [strcmp, hc], ?_⟩
      constructor
      · intro h
        omega
      · intro h
        exact absurd h (List.cons_ne_nil c s)
    | cons c' s' =>
      by_cases heq : c = c'
      · -- the strings are compared further on
        subst heq
        obtain ⟨r, hr, hiff⟩ := ih (fun d hd => hs d (List.mem_cons_of_mem c hd))
          (fun d hd => hs' d (List.mem_cons_of_mem c hd))
        refine ⟨r, ?_, ?_⟩
        · rw [List.cons_append, List.cons_append, strcmp, if_pos ⟨hc, rfl⟩, hr]
        · rw [hiff, List.cons_inj_right]
      · have hval : c.toNat ≠ c'.toNat := fun h => heq (UInt8.toNat_inj.mp h)
        refine ⟨c.toNat - c'.toNat, ?_, ?_⟩
        · rw [List.cons_append, List.cons_append, strcmp, if_neg fun h => heq h.2]
        · constructor
          · intro h
            omega
          · intro h
            exact absurd (List.cons.inj h).1 heq

/-! ### Terminated strings -/

/-- A string without its terminator. -/
@[ext] structure CStr where
  chars : List UInt8
  ne_zero : ∀ c ∈ chars, c ≠ 0
  deriving DecidableEq

/-- The array that a pointer to the string points at. -/
def CStr.bytes (s : CStr) : List UInt8 := s.chars ++ [0]

theorem CStr.strcmp_eq_zero (s t : CStr) :
    ∃ r, strcmp s.bytes t.bytes = some r ∧ (r = 0 ↔ s = t) := by
  obtain ⟨r, hr, hiff⟩ := strcmp_spec [] [] s.ne_zero t.ne_zero
  exact ⟨r, hr, hiff.trans CStr.ext_iff.symm⟩

end Rotary

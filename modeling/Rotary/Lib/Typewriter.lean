import Mathlib.Data.List.ReduceOption

namespace Rotary.Lib

/-!
# A typewriter

Rows of at most `w` characters that are filled from the left.  A key is a character, or the return
(`none`); a row that is full is only left when one more character is typed.

* `Sheet` — the rows that are finished, the newest one first, and the one that is being typed;
* `Sheet.key` / `Sheet.type` — one key, and a sequence of keys;
* `rowsOf` — what a sequence of keys is to look like: its lines, each cut into pieces of `w`;
* `type_empty` — the typewriter writes just that.
-/

variable {α : Type} {w : ℕ} {a : α} {l cur : List α} {keys : List (Option α)}

/-- The finished rows, the newest one first, and the row that is being typed. -/
structure Sheet (α : Type) where
  above : List (List α)
  cur : List α
  deriving DecidableEq

namespace Sheet

/-- Return. -/
def newRow (s : Sheet α) : Sheet α := ⟨s.cur :: s.above, []⟩

/-- One key. -/
def key (w : ℕ) (s : Sheet α) : Option α → Sheet α
  | none => s.newRow
  | some a => if s.cur.length = w then ⟨s.cur :: s.above, [a]⟩ else ⟨s.above, s.cur ++ [a]⟩

/-- A sequence of keys. -/
def type (w : ℕ) (s : Sheet α) (keys : List (Option α)) : Sheet α := keys.foldl (key w) s

/-- All rows, the first one first. -/
def rows (s : Sheet α) : List (List α) := s.above.reverse ++ [s.cur]

end Sheet

/-- A line cut into pieces of `w`; an empty line is one empty piece. -/
def pieces (w : ℕ) (l : List α) : List (List α) :=
  if _h : 0 < w ∧ w < l.length then l.take w :: pieces w (l.drop w) else [l]
termination_by l.length
decreasing_by simp only [List.length_drop]; omega

/-- The rows that the keys are to give. -/
def rowsOf (w : ℕ) (keys : List (Option α)) : List (List α) :=
  ((keys.splitOnP Option.isNone).map List.reduceOption).flatMap (pieces w)

/-! ### Lines and pieces -/

theorem pieces_of_le (h : l.length ≤ w) : pieces w l = [l] := by
  rw [pieces, dif_neg (by omega)]

theorem pieces_append (hw : 0 < w) (hcur : cur.length = w) (hl : l ≠ []) :
    pieces w (cur ++ l) = cur :: pieces w l := by
  have hpos : 0 < l.length := List.length_pos_iff.mpr hl
  rw [pieces, dif_pos (by rw [List.length_append]; omega), List.take_left' hcur,
    List.drop_left' hcur]

theorem splitOnP_some (l : List α) (keys : List (Option α)) :
    (l.map some ++ keys).splitOnP Option.isNone =
      (keys.splitOnP Option.isNone).modifyHead (l.map some ++ ·) := by
  induction l with
  | nil =>
    obtain ⟨line, lines, hlines⟩ :=
      List.exists_cons_of_ne_nil (List.splitOnP_ne_nil Option.isNone keys)
    rw [List.map_nil, List.nil_append, hlines]
    rfl
  | cons a l ih =>
    obtain ⟨line, lines, hlines⟩ :=
      List.exists_cons_of_ne_nil (List.splitOnP_ne_nil Option.isNone keys)
    rw [List.map_cons, List.cons_append, List.splitOnP_cons_eq_if_modifyHead, ih, hlines]
    rfl

theorem reduceOption_map_some (l : List α) : (l.map some).reduceOption = l := by
  induction l with
  | nil => rfl
  | cons a l ih => rw [List.map_cons, List.reduceOption_cons_of_some, ih]

/-- Keys that begin with a whole line. -/
theorem rowsOf_line (l : List α) (keys : List (Option α)) :
    rowsOf w (l.map some ++ none :: keys) = pieces w l ++ rowsOf w keys := by
  unfold rowsOf
  rw [List.splitOnP_append_cons_of_forall_mem (by simp) none rfl, List.map_cons,
    List.flatMap_cons, reduceOption_map_some]

/-- Keys that end in a line. -/
theorem rowsOf_map_some (l : List α) : rowsOf w (l.map some) = pieces w l := by
  unfold rowsOf
  rw [List.splitOnP_eq_singleton (by simp), List.map_singleton, List.flatMap_singleton,
    reduceOption_map_some]

/-- Keys whose first line overflows its first row. -/
theorem rowsOf_full (hw : 0 < w) (hcur : cur.length = w) (a : α) (keys : List (Option α)) :
    rowsOf w (cur.map some ++ some a :: keys) = cur :: rowsOf w (some a :: keys) := by
  obtain ⟨line, lines, hlines⟩ :=
    List.exists_cons_of_ne_nil (List.splitOnP_ne_nil Option.isNone keys)
  have hhead : (some a :: keys).splitOnP Option.isNone = (some a :: line) :: lines := by
    rw [List.splitOnP_cons_eq_if_modifyHead, hlines]
    rfl
  unfold rowsOf
  rw [splitOnP_some, hhead, List.modifyHead_cons, List.map_cons, List.map_cons,
    List.flatMap_cons, List.flatMap_cons, List.reduceOption_append, reduceOption_map_some,
    List.reduceOption_cons_of_some, pieces_append hw hcur (List.cons_ne_nil _ _)]
  rfl

/-! ### Typing -/

namespace Sheet

variable {s : Sheet α}

@[simp] theorem type_nil (s : Sheet α) : s.type w [] = s := rfl

@[simp] theorem type_cons (s : Sheet α) (k : Option α) (keys : List (Option α)) :
    s.type w (k :: keys) = (s.key w k).type w keys := rfl

theorem type_append (s : Sheet α) (keys more : List (Option α)) :
    s.type w (keys ++ more) = (s.type w keys).type w more := List.foldl_append

/-- What has been finished before stays above. -/
theorem type_above (above more : List (List α)) (cur : List α) (keys : List (Option α)) :
    (Sheet.mk (above ++ more) cur).type w keys =
      ⟨((Sheet.mk above cur).type w keys).above ++ more,
        ((Sheet.mk above cur).type w keys).cur⟩ := by
  induction keys generalizing above cur with
  | nil => rfl
  | cons k keys ih =>
    cases k with
    | none => exact ih (cur :: above) []
    | some a =>
      simp only [type_cons, key]
      split
      · exact ih (cur :: above) [a]
      · exact ih above (cur ++ [a])

theorem rows_cons (above : List (List α)) (row cur : List α) (keys : List (Option α)) :
    ((Sheet.mk (above ++ [row]) cur).type w keys).rows =
      row :: ((Sheet.mk above cur).type w keys).rows := by
  rw [type_above]
  unfold rows
  rw [List.reverse_append, List.reverse_singleton, List.singleton_append, List.cons_append]

/-- Typing goes on in the row that has been begun. -/
theorem rows_type (hw : 0 < w) (hcur : cur.length ≤ w) (keys : List (Option α)) :
    ((Sheet.mk [] cur).type w keys).rows = rowsOf w (cur.map some ++ keys) := by
  induction keys generalizing cur with
  | nil =>
    rw [List.append_nil, rowsOf_map_some, pieces_of_le hcur]
    rfl
  | cons k keys ih =>
    cases k with
    | none =>
      have hrest := @ih [] (Nat.zero_le w)
      have hfirst := rows_cons (w := w) [] cur [] keys
      rw [rowsOf_line, pieces_of_le hcur, List.singleton_append, ← List.nil_append keys,
        ← List.map_nil (f := some), ← hrest, ← hfirst]
      rfl
    | some a =>
      by_cases hfull : cur.length = w
      · have hrest := @ih [a] hw
        have hfirst := rows_cons (w := w) [] cur [a] keys
        rw [rowsOf_full hw hfull, type_cons, key, if_pos hfull]
        exact hfirst.trans (congrArg (cur :: ·) hrest)
      · have hroom : (cur ++ [a]).length ≤ w := by
          rw [List.length_append, List.length_singleton]
          omega
        have hrest := ih hroom
        rw [List.map_append, List.append_assoc] at hrest
        rw [type_cons, key, if_neg hfull]
        exact hrest

end Sheet

/-- **The typewriter writes the lines of the keys**, each cut into rows of `w` characters. -/
theorem type_empty (hw : 0 < w) (keys : List (Option α)) :
    ((Sheet.mk [] []).type w keys).rows = rowsOf w keys := by
  have hempty : ([] : List α).length ≤ w := Nat.zero_le w
  exact Sheet.rows_type hw hempty keys

end Rotary.Lib

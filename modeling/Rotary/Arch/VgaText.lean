import Mathlib.Data.List.GetD
import Rotary.Arch.Vga
import Rotary.Core.Strings
import Rotary.Lib.Typewriter

namespace Rotary

open Lib

/-!
# Text on the screen

`vga_write` prints at the cursor, which stays in its row: a line break, and a character behind a
full row, move everything from `TOP_LINE` on up by one row.  So the rows above the cursor are what
has been printed before.

* `keysOf` — a text as a sequence of keys: coloured cells and returns;
* `OnScreen` — the screen shows a sheet of the typewriter, as far as it has rows for it;
* `vgaPrintCharAtCursor_onScreen` — a character is one key;
* `vgaWrites_rows` — whatever is printed on a cleared screen, its lines are on it, cut into rows of
  80 cells, the last one in the row of the cursor.
-/

/-! ### Texts as keys -/

/-- The colour behind a character. -/
def colourAfter (colour tchar : UInt8) : UInt8 :=
  if tchar = formFeed then vgaColourGreen
  else if tchar = carriageReturn then vgaColourRed
  else if tchar = verticalTab then vgaColourWhite
  else colour

/-- The keys of a character: a return, a coloured cell, or none for a change of the colour. -/
def keyOf (colour tchar : UInt8) : List (Option Cell) :=
  if tchar = newLine then [none]
  else if tchar = formFeed ∨ tchar = carriageReturn ∨ tchar = verticalTab then []
  else [some ⟨tchar, attrib colour vgaColourBlack⟩]

/-- The keys of a text that is begun in a colour. -/
def keysOf : UInt8 → List UInt8 → List (Option Cell)
  | _, [] => []
  | colour, c :: text => keyOf colour c ++ keysOf (colourAfter colour c) text

/-! ### What the screen shows -/

/-- Row `y` shows the cells and is blank behind them. -/
def ShowsRow (m : ByteMem) (y : ℕ) (row : List Cell) : Prop :=
  ∀ x < vgaWidth, cellAt m y x = row.getD x blank

/-- The screen shows the sheet, with the cursor behind the row that is being typed. -/
structure OnScreen (s : Vga) (sheet : Sheet Cell) : Prop where
  cursorX : s.cursorX = sheet.cur.length
  cur_le : sheet.cur.length ≤ vgaWidth
  top_le : topLine ≤ s.cursorY + 1
  lt_height : s.cursorY < vgaHeight
  cur : ShowsRow s.mem s.cursorY sheet.cur
  above : ∀ k row, sheet.above[k]? = some row → topLine + k ≤ s.cursorY →
    ShowsRow s.mem (s.cursorY - (k + 1)) row
  below : ∀ y, s.cursorY < y → y < vgaHeight → ShowsRow s.mem y []

/-- The rows in front of those that scroll, and the memory outside of the screen, are the same. -/
structure SameFrame (m m' : ByteMem) : Prop where
  elsewhere : SameElsewhere m m'
  rows : ∀ y, y + 1 < topLine → ∀ x < vgaWidth, cellAt m' y x = cellAt m y x

variable {s : Vga} {sheet : Sheet Cell} {m m' : ByteMem} {colour c : UInt8} {y : ℕ}
  {row : List Cell} {text : List UInt8}

theorem SameFrame.refl (m : ByteMem) : SameFrame m m := ⟨.refl m, fun _ _ _ _ => rfl⟩

theorem SameFrame.trans {m₁ : ByteMem} (h : SameFrame m m₁) (h' : SameFrame m₁ m') :
    SameFrame m m' :=
  ⟨h.elsewhere.trans h'.elsewhere, fun y hy x hx => (h'.rows y hy x hx).trans (h.rows y hy x hx)⟩

/-! ### One character -/

theorem vgaScrollUp_one (s : Vga) (top : ℕ) :
    vgaScrollUp s 1 top = { s with mem := scrollOnce top s.mem } := rfl

/-- Scrolling moves a row up. -/
theorem ShowsRow.scroll (h : ShowsRow m (y + 1) row) (hy : topLine ≤ y + 1)
    (hy' : y + 1 < vgaHeight) : ShowsRow (scrollOnce topLine m) y row := by
  intro x hx
  rw [cellAt_scrollOnce m (by decide) (by decide) hx, if_pos ⟨hy, hy'⟩]
  exact h x hx

theorem showsRow_last (m : ByteMem) : ShowsRow (scrollOnce topLine m) (vgaHeight - 1) [] := by
  intro x hx
  rw [cellAt_scrollOnce m (by decide) (by decide) hx, if_neg (by decide), if_pos (by decide)]
  rfl

theorem sameFrame_scroll (m : ByteMem) : SameFrame m (scrollOnce topLine m) where
  elsewhere := sameElsewhere_scrollOnce m (by decide)
  rows y hy x hx := by
    have hlast : y + 1 ≠ vgaHeight := by
      unfold topLine at hy
      unfold vgaHeight
      omega
    rw [cellAt_scrollOnce m (by decide) (by decide) hx, if_neg (fun h => by omega), if_neg hlast]

/-- **Return**: the row that has been typed is the first one above the cursor. -/
theorem OnScreen.newRow (h : OnScreen s sheet) :
    OnScreen (vgaScrollUp { s with cursorX := 0 } 1 topLine) sheet.newRow := by
  have htop := h.top_le
  have hlt := h.lt_height
  have hblank : ∀ y, s.cursorY ≤ y → y < vgaHeight →
      ShowsRow (scrollOnce topLine s.mem) y [] := by
    intro y hy hy'
    rcases Nat.lt_or_ge (y + 1) vgaHeight with hin | hlast
    · exact (h.below (y + 1) (by omega) hin).scroll (by omega) hin
    · obtain rfl : y = vgaHeight - 1 := by omega
      exact showsRow_last s.mem
  rw [vgaScrollUp_one]
  refine ⟨rfl, Nat.zero_le _, htop, hlt, hblank _ le_rfl hlt, ?_, ?_⟩
  · intro k row hrow hk
    show ShowsRow (scrollOnce topLine s.mem) (s.cursorY - (k + 1)) row
    have hk : topLine + k ≤ s.cursorY := hk
    have hpos : 0 < topLine := by decide
    cases k with
    | zero =>
      obtain rfl : sheet.cur = row := Option.some.inj hrow
      have hup : s.cursorY - (0 + 1) + 1 = s.cursorY := by omega
      have hcur := h.cur
      rw [← hup] at hcur
      exact hcur.scroll (by omega) (by omega)
    | succ k =>
      -- the rows that were above already
      have habove := h.above k row hrow (by omega)
      have hup : s.cursorY - (k + 1) = s.cursorY - (k + 1 + 1) + 1 := by omega
      rw [hup] at habove
      exact habove.scroll (by omega) (by omega)
  · intro y hy hy'
    exact hblank y (Nat.le_of_lt hy) hy'

/-- One cell of another row. -/
theorem ShowsRow.setOther (h : ShowsRow m y row) {x y₀ : ℕ} (hne : y ≠ y₀) (hx : x < vgaWidth)
    (hy₀ : y₀ < vgaHeight) (c fg bg : UInt8) : ShowsRow (vgaSetCharacter m c fg bg x y₀) y row := by
  intro x' hx'
  rw [cellAt_vgaSetCharacter m _ _ _ hx hy₀ hx', if_neg fun hand => hne hand.1]
  exact h x' hx'

/-- Only the row of the cursor is written. -/
theorem OnScreen.retype {s' : Vga} {cur : List Cell} (h : OnScreen s sheet)
    (hx : s'.cursorX = cur.length) (hle : cur.length ≤ vgaWidth) (hy : s'.cursorY = s.cursorY)
    (hcur : ShowsRow s'.mem s.cursorY cur)
    (hother : ∀ y row, y ≠ s.cursorY → ShowsRow s.mem y row → ShowsRow s'.mem y row) :
    OnScreen s' ⟨sheet.above, cur⟩ := by
  have hpos : 0 < topLine := by decide
  refine ⟨hx, hle, hy ▸ h.top_le, hy ▸ h.lt_height, hy ▸ hcur, ?_, ?_⟩
  · intro k row hrow hk
    rw [hy] at hk ⊢
    exact hother _ row (by omega) (h.above k row hrow hk)
  · intro y hbelow hlt
    rw [hy] at hbelow
    exact hother y [] (Nat.ne_of_gt hbelow) (h.below y hbelow hlt)

/-- The character at the cursor of a row with room. -/
theorem OnScreen.putCell (h : OnScreen s sheet) (hroom : sheet.cur.length < vgaWidth)
    (colour tchar : UInt8) :
    OnScreen { s with
      mem := vgaSetCharacter s.mem tchar colour vgaColourBlack s.cursorX s.cursorY
      cursorX := inc32 s.cursorX }
      ⟨sheet.above, sheet.cur ++ [⟨tchar, attrib colour vgaColourBlack⟩]⟩ := by
  have hx : s.cursorX < vgaWidth := h.cursorX ▸ hroom
  have hx32 : vgaWidth < 2 ^ 32 := by decide
  have hlen : (sheet.cur ++ [Cell.mk tchar (attrib colour vgaColourBlack)]).length =
      sheet.cur.length + 1 := by rw [List.length_append, List.length_singleton]
  refine h.retype ?_ (hlen ▸ hroom) rfl ?_ ?_
  · show inc32 s.cursorX = _
    rw [inc32_of_lt (by omega), h.cursorX, hlen]
  · intro x hx'
    show cellAt (vgaSetCharacter s.mem tchar colour vgaColourBlack s.cursorX s.cursorY) s.cursorY x
      = _
    rw [cellAt_vgaSetCharacter _ _ _ _ hx h.lt_height hx', h.cur x hx', h.cursorX]
    rcases Nat.lt_trichotomy x sheet.cur.length with hlt | rfl | hgt
    · rw [if_neg (by omega), List.getD_append _ _ _ _ hlt]
    · rw [if_pos ⟨rfl, rfl⟩, List.getD_append_right _ _ _ _ le_rfl, Nat.sub_self]
      rfl
    · rw [if_neg (by omega), List.getD_eq_default _ _ hgt.le,
        List.getD_eq_default _ _ (hlen ▸ hgt)]
  · exact fun y row hne hrow => hrow.setOther hne hx h.lt_height _ _ _

/-- `vga_delete_char_at_cursor` takes back the character in front of the cursor. -/
theorem OnScreen.delete {above : List (List Cell)} {cur : List Cell} {cell : Cell}
    (h : OnScreen s ⟨above, cur ++ [cell]⟩) :
    OnScreen (vgaDeleteCharAtCursor s) ⟨above, cur⟩ := by
  have hlen : (cur ++ [cell]).length = cur.length + 1 := by
    rw [List.length_append, List.length_singleton]
  have hx : s.cursorX = cur.length + 1 := h.cursorX.trans hlen
  have hle := h.cur_le
  have hlt : cur.length < vgaWidth := by
    rw [hlen] at hle
    exact hle
  unfold vgaDeleteCharAtCursor
  rw [if_neg (by omega), hx, Nat.add_sub_cancel]
  refine h.retype rfl hlt.le rfl ?_ fun y row hne hrow => hrow.setOther hne hlt h.lt_height _ _ _
  intro x hx'
  show cellAt (vgaSetCharacter s.mem ' '.toUInt8 vgaColourBlack vgaColourBlack cur.length
    s.cursorY) s.cursorY x = _
  rw [cellAt_vgaSetCharacter _ _ _ _ hlt h.lt_height hx', h.cur x hx']
  rcases Nat.lt_trichotomy x cur.length with hbefore | rfl | hbehind
  · rw [if_neg (by omega), List.getD_append _ _ _ _ hbefore]
  · rw [if_pos ⟨rfl, rfl⟩, List.getD_eq_default _ _ le_rfl]
    rfl
  · rw [if_neg (by omega), List.getD_eq_default _ _ hbehind.le,
      List.getD_eq_default _ _ (hlen ▸ hbehind)]

theorem sameFrame_put (m : ByteMem) (colour tchar : UInt8) {x y : ℕ} (hx : x < vgaWidth)
    (hy : topLine ≤ y + 1) (hy' : y < vgaHeight) :
    SameFrame m (vgaSetCharacter m tchar colour vgaColourBlack x y) where
  elsewhere := sameElsewhere_vgaSetCharacter m _ _ _ hx hy'
  rows y₀ hy₀ x₀ hx₀ := by
    rw [cellAt_vgaSetCharacter m _ _ _ hx hy' hx₀, if_neg (fun h => by omega)]

/-- **One character is one key** of the typewriter. -/
theorem vgaPrintCharAtCursor_onScreen (h : OnScreen s sheet) (tchar : UInt8) :
    OnScreen (vgaPrintCharAtCursor s tchar)
      (sheet.type vgaWidth (keyOf s.currentFgColour tchar)) := by
  unfold vgaPrintCharAtCursor keyOf
  by_cases hnew : tchar = newLine
  · rw [if_pos hnew, if_pos hnew]
    exact h.newRow
  · rw [if_neg hnew, if_neg hnew]
    -- a change of the colour moves nothing
    have hsame : ∀ colour, OnScreen { s with currentFgColour := colour } sheet := fun colour =>
      ⟨h.cursorX, h.cur_le, h.top_le, h.lt_height, h.cur, h.above, h.below⟩
    by_cases hfeed : tchar = formFeed
    · rw [if_pos hfeed, if_pos (.inl hfeed)]
      exact hsame vgaColourGreen
    rw [if_neg hfeed]
    by_cases hreturn : tchar = carriageReturn
    · rw [if_pos hreturn, if_pos (.inr (.inl hreturn))]
      exact hsame vgaColourRed
    rw [if_neg hreturn]
    by_cases htab : tchar = verticalTab
    · rw [if_pos htab, if_pos (.inr (.inr htab))]
      exact hsame vgaColourWhite
    have hplain : ¬ (tchar = formFeed ∨ tchar = carriageReturn ∨ tchar = verticalTab) :=
      fun hor => hor.elim hfeed fun hor => hor.elim hreturn htab
    rw [if_neg htab, if_neg hplain, Sheet.type_cons, Sheet.type_nil,
      Sheet.key]
    by_cases hfull : sheet.cur.length = vgaWidth
    · have hx : s.cursorX = vgaWidth := h.cursorX.trans hfull
      have hnext := h.newRow
      rw [if_pos hx, if_pos hfull]
      exact hnext.putCell (show ([] : List Cell).length < vgaWidth by decide) s.currentFgColour
        tchar
    · have hx : s.cursorX ≠ vgaWidth := fun heq => hfull (h.cursorX.symm.trans heq)
      have hle := h.cur_le
      rw [if_neg hx, if_neg hfull]
      exact h.putCell (by omega) s.currentFgColour tchar

theorem vgaPrintCharAtCursor_frame (h : OnScreen s sheet) (tchar : UInt8) :
    SameFrame s.mem (vgaPrintCharAtCursor s tchar).mem := by
  have hx := h.cursorX
  have hle := h.cur_le
  unfold vgaPrintCharAtCursor
  split
  · exact sameFrame_scroll s.mem
  split
  · exact .refl _
  split
  · exact .refl _
  split
  · exact .refl _
  by_cases hfull : s.cursorX = vgaWidth
  · rw [if_pos hfull]
    exact (sameFrame_scroll s.mem).trans
      (sameFrame_put _ _ _ (show 0 < vgaWidth by decide) h.top_le h.lt_height)
  · rw [if_neg hfull]
    exact sameFrame_put _ _ _ (by omega) h.top_le h.lt_height

@[simp] theorem vgaPrintCharAtCursor_cursorY (s : Vga) (tchar : UInt8) :
    (vgaPrintCharAtCursor s tchar).cursorY = s.cursorY := by
  unfold vgaPrintCharAtCursor
  split
  · rfl
  split
  · rfl
  split
  · rfl
  split
  · rfl
  by_cases hfull : s.cursorX = vgaWidth
  · rw [if_pos hfull]
    rfl
  · rw [if_neg hfull]

@[simp] theorem vgaPrintCharAtCursor_colour (s : Vga) (tchar : UInt8) :
    (vgaPrintCharAtCursor s tchar).currentFgColour = colourAfter s.currentFgColour tchar := by
  unfold vgaPrintCharAtCursor colourAfter
  by_cases hnew : tchar = newLine
  · subst hnew
    rfl
  · rw [if_neg hnew]
    split
    · rfl
    split
    · rfl
    split
    · rfl
    by_cases hfull : s.cursorX = vgaWidth
    · rw [if_pos hfull]
      rfl
    · rw [if_neg hfull]

/-! ### Whole texts -/

theorem keysOf_append (colour : UInt8) (text more : List UInt8) :
    keysOf colour (text ++ more) =
      keysOf colour text ++ keysOf (text.foldl colourAfter colour) more := by
  induction text generalizing colour with
  | nil => rfl
  | cons c text ih =>
    show keyOf colour c ++ keysOf (colourAfter colour c) (text ++ more) = _
    rw [ih]
    simp only [keysOf, List.append_assoc, List.foldl_cons]

/-- What printing a text makes of the screen. -/
structure Prints (s : Vga) (sheet : Sheet Cell) (text : List UInt8) (s' : Vga) : Prop where
  onScreen : OnScreen s' (sheet.type vgaWidth (keysOf s.currentFgColour text))
  colour : s'.currentFgColour = text.foldl colourAfter s.currentFgColour
  cursorY : s'.cursorY = s.cursorY
  frame : SameFrame s.mem s'.mem

theorem Prints.append {s₁ s₂ : Vga} {more : List UInt8} (h : Prints s sheet text s₁)
    (h' : Prints s₁ (sheet.type vgaWidth (keysOf s.currentFgColour text)) more s₂) :
    Prints s sheet (text ++ more) s₂ where
  onScreen := by
    rw [keysOf_append, Sheet.type_append, ← h.colour]
    exact h'.onScreen
  colour := by rw [h'.colour, h.colour, List.foldl_append]
  cursorY := h'.cursorY.trans h.cursorY
  frame := h.frame.trans h'.frame

theorem prints_chars (h : OnScreen s sheet) (text : List UInt8) :
    Prints s sheet text (text.foldl vgaPrintCharAtCursor s) := by
  induction text generalizing s sheet with
  | nil => exact ⟨h, rfl, rfl, .refl _⟩
  | cons c text ih =>
    have hone : Prints s sheet [c] (vgaPrintCharAtCursor s c) := by
      refine ⟨?_, vgaPrintCharAtCursor_colour s c, vgaPrintCharAtCursor_cursorY s c,
        vgaPrintCharAtCursor_frame h c⟩
      rw [keysOf, keysOf, List.append_nil]
      exact vgaPrintCharAtCursor_onScreen h c
    exact hone.append (ih hone.onScreen)

/-- `vga_write` prints the string, or as much of it as `strlen` counts. -/
theorem vgaWrite_eq (s : Vga) (string : CStr) :
    vgaWrite s string.bytes =
      some ((string.chars.take maxStringLen).foldl vgaPrintCharAtCursor s) := by
  have hlen : strlen string.bytes = some (min string.chars.length maxStringLen) :=
    strlenFrom_spec string.ne_zero maxStringLen
  have hchars : string.bytes.take (min string.chars.length maxStringLen) =
      string.chars.take maxStringLen := by
    unfold CStr.bytes
    rw [List.take_append_of_le_length (Nat.min_le_left _ _), List.take_eq_take_iff]
    omega
  unfold vgaWrite
  rw [hlen, ← hchars]
  rfl

theorem vgaWrite_prints (h : OnScreen s sheet) (string : CStr) :
    ∃ s', vgaWrite s string.bytes = some s' ∧
      Prints s sheet (string.chars.take maxStringLen) s' :=
  ⟨_, vgaWrite_eq s string, prints_chars h _⟩

/-- Strings printed one after the other. -/
def vgaWrites (s : Vga) (strings : List CStr) : Option Vga :=
  strings.foldlM (fun s string => vgaWrite s string.bytes) s

theorem vgaWrites_prints (h : OnScreen s sheet) (strings : List CStr) :
    ∃ s', vgaWrites s strings = some s' ∧
      Prints s sheet (strings.flatMap fun string => string.chars.take maxStringLen) s' := by
  induction strings generalizing s sheet with
  | nil => exact ⟨s, rfl, prints_chars h []⟩
  | cons string strings ih =>
    obtain ⟨s₁, hrun, hprints⟩ := vgaWrite_prints h string
    obtain ⟨s₂, hruns, hrest⟩ := ih hprints.onScreen
    refine ⟨s₂, ?_, hprints.append hrest⟩
    unfold vgaWrites
    rw [List.foldlM_cons, hrun]
    exact hruns

/-! ### The rows of the screen -/

/-- What `vga_write` prints of the strings. -/
def printed (strings : List CStr) : List UInt8 :=
  strings.flatMap fun string => string.chars.take maxStringLen

/-- A cleared screen with the cursor at the left. -/
theorem onScreen_cleared (s : Vga) (hy : topLine ≤ y + 1) (hy' : y < vgaHeight) :
    OnScreen (vgaSetCursor (vgaClearScreen s vgaColourBlack) 0 y) ⟨[], []⟩ := by
  have hblank : ∀ y < vgaHeight, ShowsRow (vgaClearScreen s vgaColourBlack).mem y [] :=
    fun y hy x hx => cellAt_vgaClearScreen s vgaColourBlack hy hx
  refine ⟨rfl, Nat.zero_le _, hy, hy', hblank y hy', ?_, fun y₀ _ hlt => hblank y₀ hlt⟩
  intro k row hrow
  exact absurd hrow.symm (Option.some_ne_none row)

/-- The rows of the sheet, counted from the last one upwards. -/
theorem OnScreen.rows (h : OnScreen s sheet) {k : ℕ} (hrow : sheet.rows.reverse[k]? = some row)
    (hk : topLine + k ≤ s.cursorY + 1) : ShowsRow s.mem (s.cursorY - k) row := by
  unfold Sheet.rows at hrow
  rw [List.reverse_append, List.reverse_reverse, List.reverse_singleton,
    List.singleton_append] at hrow
  cases k with
  | zero =>
    obtain rfl : sheet.cur = row := Option.some.inj hrow
    exact h.cur
  | succ k => exact h.above k row hrow (by omega)

/-- **What is printed is on the screen.**  On a cleared screen, whatever strings are printed, their
rows stand above each other up to the last one in the row of the cursor, as far as the screen has
rows that scroll.  What is below stays blank, and no other memory is written. -/
theorem vgaWrites_rows (s : Vga) (strings : List CStr) (hy : topLine ≤ y + 1)
    (hy' : y < vgaHeight) :
    ∃ s', vgaWrites (vgaSetCursor (vgaClearScreen s vgaColourBlack) 0 y) strings = some s' ∧
      (∀ k row, (rowsOf vgaWidth (keysOf s.currentFgColour (printed strings))).reverse[k]? =
        some row → topLine + k ≤ y + 1 → ShowsRow s'.mem (y - k) row) ∧
      (∀ y₀, y < y₀ → y₀ < vgaHeight → ShowsRow s'.mem y₀ []) ∧
      SameElsewhere s.mem s'.mem := by
  obtain ⟨s', hrun, hprints⟩ := vgaWrites_prints (onScreen_cleared s hy hy') strings
  have hcursor : s'.cursorY = y := hprints.cursorY
  have hsheet := hprints.onScreen
  have hrows : (Sheet.type vgaWidth ⟨[], []⟩ (keysOf s.currentFgColour (printed strings))).rows =
      rowsOf vgaWidth (keysOf s.currentFgColour (printed strings)) := type_empty (by decide) _
  refine ⟨s', hrun, ?_, ?_, (sameElsewhere_vgaClearScreen s _).trans hprints.frame.elsewhere⟩
  · intro k row hrow hk
    rw [← hrows] at hrow
    rw [← hcursor] at hk ⊢
    exact hsheet.rows hrow hk
  · intro y₀ hbelow hlt
    exact hsheet.below y₀ (hcursor ▸ hbelow) hlt

/-- Two lines, on the screen of the boot. -/
theorem vgaWrites_rows_boot :
    ∃ s', vgaWrites (vgaSetCursor (vgaClearScreen (Vga.initial fun _ => 0) vgaColourBlack) 0 23)
          [⟨['a'.toUInt8, newLine], by decide +kernel⟩, ⟨['b'.toUInt8], by decide +kernel⟩] =
        some s' ∧
      ShowsRow s'.mem 22 [⟨'a'.toUInt8, 7⟩] ∧ ShowsRow s'.mem 23 [⟨'b'.toUInt8, 7⟩] ∧
      ShowsRow s'.mem 24 [] := by
  obtain ⟨s', hrun, hrows, hbelow, -⟩ := vgaWrites_rows (Vga.initial fun _ => 0)
    [⟨['a'.toUInt8, newLine], by decide +kernel⟩, ⟨['b'.toUInt8], by decide +kernel⟩] (y := 23)
    (by decide) (by decide)
  have hlines : rowsOf vgaWidth (keysOf vgaColourWhite ['a'.toUInt8, newLine, 'b'.toUInt8]) =
      [[⟨'a'.toUInt8, 7⟩], [⟨'b'.toUInt8, 7⟩]] := by
    have hsplit := rowsOf_line (w := vgaWidth) [Cell.mk 'a'.toUInt8 7] [some ⟨'b'.toUInt8, 7⟩]
    have hlast := rowsOf_map_some (w := vgaWidth) [Cell.mk 'b'.toUInt8 7]
    rw [pieces_of_le (by decide)] at hsplit hlast
    exact hsplit.trans (congrArg _ hlast)
  have hboth : ∀ k row, ([[⟨'b'.toUInt8, 7⟩], [⟨'a'.toUInt8, 7⟩]] : List (List Cell))[k]? =
      some row → topLine + k ≤ 24 → ShowsRow s'.mem (23 - k) row := by
    intro k row hrow hk
    refine hrows k row ?_ hk
    show (rowsOf vgaWidth
      (keysOf vgaColourWhite ['a'.toUInt8, newLine, 'b'.toUInt8])).reverse[k]? = _
    rw [hlines]
    exact hrow
  exact ⟨s', hrun, hboth 1 _ rfl (by decide), hboth 0 _ rfl (by decide),
    hbelow 24 (by decide) (by decide)⟩

end Rotary

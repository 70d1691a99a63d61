import Mathlib.Algebra.Order.Group.Nat
import Rotary.Core.Machine
import Rotary.Core.String

namespace Rotary

open Lib

/-!
# The text screen (`arch/x86/kernel/vga.c`)

The screen is 25 rows of 80 cells, two bytes each, at `VGA_BUFFER`: the character, and the colours
of the background and of the character in one byte.

* `Cell`, `cellAt` — a cell, and the one at a row and a column;
* `cellAt_vgaSetCharacter` — `vga_set_character` writes one cell;
* `cellAt_scrollOnce` — `vga_scroll_up` by one line: the rows below the top one move up, as they
  are, and the last one is blank;
* `SameElsewhere` — nothing outside of the screen is written.

`Vga` holds what the functions read and write: the memory, the colour and the cursor, and what has
gone to the ports of the controller.
-/

/-! ### The code -/

/-- `TOP_LINE`, `VGA_BUFFER`, `VGA_WIDTH`, `VGA_HEIGHT`. -/
def topLine : ℕ := 3
def vgaBuffer : ℕ := 0xC00B8000
def vgaWidth : ℕ := 80
def vgaHeight : ℕ := 25

/-- `VGA_COLOUR_BLACK`, `VGA_COLOUR_GREEN`, `VGA_COLOUR_RED`, `VGA_COLOUR_WHITE`. -/
def vgaColourBlack : UInt8 := 0
def vgaColourGreen : UInt8 := 2
def vgaColourRed : UInt8 := 4
def vgaColourWhite : UInt8 := 7

/-- `'\n'`, `'\v'`, `'\f'`, `'\r'`. -/
def newLine : UInt8 := 0x0A
def verticalTab : UInt8 := 0x0B
def formFeed : UInt8 := 0x0C
def carriageReturn : UInt8 := 0x0D

/-- The memory, `current_fg_colour`, the cursor of `vga_state`, and the bytes that have been
    written to ports, the last one first. -/
structure Vga where
  mem : ByteMem
  currentFgColour : UInt8
  cursorX : ℕ
  cursorY : ℕ
  ports : List (ℕ × UInt8)

/-- The initial values of the variables. -/
def Vga.initial (m : ByteMem) : Vga := ⟨m, vgaColourWhite, 0, 3, []⟩

/-- Store the low 16 bits of `v` at `a`. -/
def storeHalf (m : ByteMem) (a v : ℕ) : ByteMem :=
  Function.update (Function.update m a (UInt8.ofNat v)) (a + 1) (UInt8.ofNat (v / 256))

/-- `vga_set_character`. -/
def vgaSetCharacter (m : ByteMem) (character fgColour bgColour : UInt8) (x y : ℕ) : ByteMem :=
  let attrib := bgColour.toNat <<< 4 ||| (fgColour.toNat &&& 0x0F)
  storeHalf m (u32 (vgaBuffer + 2 * u32 (y * 80 + x))) (character.toNat ||| attrib <<< 8)

/-- `vga_clear_line`. -/
def vgaClearLine (m : ByteMem) (line : ℕ) : ByteMem :=
  (List.range 80).foldl
    (fun m i => vgaSetCharacter m ' '.toUInt8 vgaColourBlack vgaColourBlack i line) m

/-- The body of the innermost loop of `vga_scroll_up`; `colour` is a signed character. -/
def scrollCell (line : ℕ) (m : ByteMem) (x : ℕ) : ByteMem :=
  let addr := u32 (vgaBuffer + (line * 160 + x * 2))
  let character := m addr
  let colour := m (addr + 1)
  let bgColour := UInt8.ofBitVec (colour.toBitVec.sshiftRight 4)
  let fgColour := colour &&& 0x0F
  vgaSetCharacter m character fgColour bgColour x (dec32 line)

/-- One turn of the loop over the lines. -/
def scrollLine (m : ByteMem) (line : ℕ) : ByteMem :=
  vgaClearLine ((List.range vgaWidth).foldl (scrollCell line) m) line

/-- One turn of the outer loop: the lines from `top_line` on. -/
def scrollOnce (top : ℕ) (m : ByteMem) : ByteMem :=
  (List.range' top (vgaHeight - top)).foldl scrollLine m

/-- `vga_scroll_up`. -/
def vgaScrollUp (s : Vga) (lineCount top : ℕ) : Vga :=
  { s with mem := (scrollOnce top)^[lineCount] s.mem }

/-- `vga_set_cursor`. -/
def vgaSetCursor (s : Vga) (x y : ℕ) : Vga :=
  let position := (y * vgaWidth + x) % 2 ^ 16
  { s with
    cursorX := x
    cursorY := y
    ports := (0x3D5, UInt8.ofNat (position / 2 ^ 8)) :: (0x3D4, 0x0E) ::
      (0x3D5, UInt8.ofNat position) :: (0x3D4, 0x0F) :: s.ports }

/-- `vga_print_char_at_cursor`. -/
def vgaPrintCharAtCursor (s : Vga) (tchar : UInt8) : Vga :=
  if tchar = newLine then vgaScrollUp { s with cursorX := 0 } 1 topLine
  else if tchar = formFeed then { s with currentFgColour := vgaColourGreen }
  else if tchar = carriageReturn then { s with currentFgColour := vgaColourRed }
  else if tchar = verticalTab then { s with currentFgColour := vgaColourWhite }
  else
    let s := if s.cursorX = vgaWidth then vgaScrollUp { s with cursorX := 0 } 1 topLine else s
    { s with
      mem := vgaSetCharacter s.mem tchar s.currentFgColour vgaColourBlack s.cursorX s.cursorY
      cursorX := inc32 s.cursorX }

/-- `vga_write`. -/
def vgaWrite (s : Vga) (string : List UInt8) : Option Vga := do
  let length ← strlen string
  return (string.take length).foldl vgaPrintCharAtCursor s

/-- `vga_delete_char_at_cursor`. -/
def vgaDeleteCharAtCursor (s : Vga) : Vga :=
  if s.cursorX = 0 then s
  else
    { s with
      mem := vgaSetCharacter s.mem ' '.toUInt8 vgaColourBlack vgaColourBlack (s.cursorX - 1)
        s.cursorY
      cursorX := s.cursorX - 1 }

/-- `vga_clear_screen`. -/
def vgaClearScreen (s : Vga) (colour : UInt8) : Vga :=
  { s with
    mem := (List.range 80).foldl (fun m x => (List.range 25).foldl
      (fun m y => vgaSetCharacter m ' '.toUInt8 vgaColourBlack colour x y) m) s.mem }

/-- `vga_overwrite_line`. -/
def vgaOverwriteLine (s : Vga) (string : List UInt8) (fgColour bgColour : UInt8) (y : ℕ) :
    Option Vga := do
  let m := vgaClearLine s.mem y
  let length ← strlen string
  return { s with
    mem := (List.range length).foldl
      (fun m i => vgaSetCharacter m (string.getD i 0) fgColour bgColour i y) m }

/-! ### Cells -/

/-- A character and its colours. -/
structure Cell where
  character : UInt8
  attrib : UInt8
  deriving DecidableEq, Repr

/-- The colours in one byte. -/
def attrib (fgColour bgColour : UInt8) : UInt8 := bgColour <<< 4 ||| (fgColour &&& 0x0F)

/-- A cleared cell. -/
def blank : Cell := ⟨' '.toUInt8, attrib vgaColourBlack vgaColourBlack⟩

/-- Where a cell is. -/
def cellAddr (y x : ℕ) : ℕ := vgaBuffer + 2 * (y * 80 + x)

/-- The cell in row `y` and column `x`. -/
def cellAt (m : ByteMem) (y x : ℕ) : Cell := ⟨m (cellAddr y x), m (cellAddr y x + 1)⟩

/-- The two memories agree outside of the screen. -/
def SameElsewhere (m m' : ByteMem) : Prop :=
  ∀ a, a < vgaBuffer ∨ vgaBuffer + 2 * (vgaHeight * vgaWidth) ≤ a → m' a = m a

variable {m m' m₁ m₂ : ByteMem} {c fg bg : UInt8} {x y line k n : ℕ}

theorem SameElsewhere.refl (m : ByteMem) : SameElsewhere m m := fun _ _ => rfl

theorem SameElsewhere.trans (h : SameElsewhere m m₁) (h' : SameElsewhere m₁ m₂) :
    SameElsewhere m m₂ := fun a ha => (h' a ha).trans (h a ha)

theorem SameElsewhere.foldl {ι : Type} {f : ByteMem → ι → ByteMem} {is : List ι}
    (h : ∀ m, ∀ i ∈ is, SameElsewhere m (f m i)) (m : ByteMem) :
    SameElsewhere m (is.foldl f m) := by
  induction is generalizing m with
  | nil => exact .refl m
  | cons i is ih =>
    rw [List.foldl_cons]
    exact (h m i List.mem_cons_self).trans
      (ih (fun m j hj => h m j (List.mem_cons_of_mem i hj)) (f m i))

/-! ### One cell -/

/-- The byte of the colours, as it is put together. -/
theorem attrib_byte (c fg bg : UInt8) :
    UInt8.ofNat ((c.toNat ||| (bg.toNat <<< 4 ||| (fg.toNat &&& 0x0F)) <<< 8) / 256) =
      attrib fg bg := by
  have hc : c.toNat >>> 8 = 0 := by
    rw [Nat.shiftRight_eq_div_pow]
    exact Nat.div_eq_of_lt c.toNat_lt
  have hdiv : (c.toNat ||| (bg.toNat <<< 4 ||| (fg.toNat &&& 0x0F)) <<< 8) / 256 =
      bg.toNat <<< 4 ||| (fg.toNat &&& 0x0F) := by
    have hshift := Nat.shiftRight_or_distrib (i := 8) (a := c.toNat)
      (b := (bg.toNat <<< 4 ||| (fg.toNat &&& 0x0F)) <<< 8)
    rw [hc, Nat.zero_or, Nat.shiftLeft_shiftRight] at hshift
    exact (Nat.shiftRight_eq_div_pow _ 8).symm.trans hshift
  rw [hdiv]
  apply UInt8.toNat_inj.mp
  unfold attrib
  rw [UInt8.toNat_ofNat', UInt8.toNat_or, UInt8.toNat_and, UInt8.toNat_shiftLeft,
    Nat.or_mod_two_pow]
  have hlow : (fg.toNat &&& 15) % 2 ^ 8 = fg.toNat &&& 15 :=
    Nat.mod_eq_of_lt (Nat.lt_of_le_of_lt Nat.and_le_right (by decide))
  rw [hlow]
  rfl

/-- The byte of the character. -/
theorem character_byte (c : UInt8) (v : ℕ) : UInt8.ofNat (c.toNat ||| v <<< 8) = c := by
  apply UInt8.toNat_inj.mp
  rw [UInt8.toNat_ofNat', Nat.or_mod_two_pow, Nat.shiftLeft_eq, Nat.mul_mod_left, Nat.or_zero,
    Nat.mod_eq_of_lt c.toNat_lt]

theorem vgaSetCharacter_eq (m : ByteMem) (c fg bg : UInt8) (hx : x < vgaWidth)
    (hy : y < vgaHeight) :
    vgaSetCharacter m c fg bg x y =
      Function.update (Function.update m (cellAddr y x) c) (cellAddr y x + 1)
        (attrib fg bg) := by
  have hin : y * 80 + x < 2000 := by
    unfold vgaWidth at hx
    unfold vgaHeight at hy
    omega
  have haddr : u32 (vgaBuffer + 2 * u32 (y * 80 + x)) = cellAddr y x := by
    rw [u32_of_lt (n := y * 80 + x) (by omega)]
    unfold cellAddr
    exact u32_of_lt (by unfold vgaBuffer; omega)
  simp only [vgaSetCharacter, storeHalf, haddr, attrib_byte, character_byte]

/-- **`vga_set_character`** writes its cell and no other one. -/
theorem cellAt_vgaSetCharacter (m : ByteMem) (c fg bg : UInt8) (hx : x < vgaWidth)
    (hy : y < vgaHeight) {y' x' : ℕ} (hx' : x' < vgaWidth) :
    cellAt (vgaSetCharacter m c fg bg x y) y' x' =
      if y' = y ∧ x' = x then ⟨c, attrib fg bg⟩ else cellAt m y' x' := by
  unfold vgaWidth at hx hx'
  rw [vgaSetCharacter_eq m c fg bg hx hy]
  by_cases hsame : y' = y ∧ x' = x
  · obtain ⟨rfl, rfl⟩ := hsame
    rw [if_pos ⟨rfl, rfl⟩]
    simp [cellAt]
  · -- two cells share no byte
    have hne : y' * 80 + x' ≠ y * 80 + x := by
      intro heq
      exact hsame ⟨by omega, by omega⟩
    rw [if_neg hsame]
    unfold cellAt cellAddr
    rw [Function.update_of_ne (by omega), Function.update_of_ne (by omega),
      Function.update_of_ne (by omega), Function.update_of_ne (by omega)]

theorem sameElsewhere_vgaSetCharacter (m : ByteMem) (c fg bg : UInt8) (hx : x < vgaWidth)
    (hy : y < vgaHeight) : SameElsewhere m (vgaSetCharacter m c fg bg x y) := by
  intro a ha
  unfold vgaWidth at hx ha
  unfold vgaHeight at hy ha
  rw [vgaSetCharacter_eq m c fg bg hx hy]
  unfold cellAddr
  rw [Function.update_of_ne (by omega), Function.update_of_ne (by omega)]

/-! ### One row -/

/-- A loop whose turns write the same into a cell, or leave it. -/
theorem cellAt_foldl {ι : Type} {f : ByteMem → ι → ByteMem} {p : ι → Prop} [DecidablePred p]
    {is : List ι} {cell : Cell}
    (h : ∀ m, ∀ i ∈ is, cellAt (f m i) y x = if p i then cell else cellAt m y x) (m : ByteMem) :
    cellAt (is.foldl f m) y x = if ∃ i ∈ is, p i then cell else cellAt m y x := by
  induction is generalizing m with
  | nil => simp
  | cons i is ih =>
    have hrest := ih (fun m j hj => h m j (List.mem_cons_of_mem i hj)) (f m i)
    rw [List.foldl_cons, hrest, h m i List.mem_cons_self]
    by_cases hlater : ∃ j ∈ is, p j
    · obtain ⟨j, hj, hp⟩ := hlater
      rw [if_pos ⟨j, hj, hp⟩, if_pos ⟨j, List.mem_cons_of_mem i hj, hp⟩]
    · rw [if_neg hlater]
      simp only [List.mem_cons, exists_eq_or_imp, hlater, or_false]

/-- A loop that writes the first `n` cells of a row. -/
theorem cellAt_fill (m : ByteMem) (c : ℕ → UInt8) (fg bg : UInt8) (hy : y < vgaHeight)
    (hn : n ≤ vgaWidth) {y' x' : ℕ} (hx' : x' < vgaWidth) :
    cellAt ((List.range n).foldl (fun m i => vgaSetCharacter m (c i) fg bg i y) m) y' x' =
      if y' = y ∧ x' < n then ⟨c x', attrib fg bg⟩ else cellAt m y' x' := by
  have hturn : ∀ m, ∀ i ∈ List.range n, cellAt (vgaSetCharacter m (c i) fg bg i y) y' x' =
      if y' = y ∧ x' = i then ⟨c x', attrib fg bg⟩ else cellAt m y' x' := by
    intro m i hi
    rw [cellAt_vgaSetCharacter m _ _ _ (Nat.lt_of_lt_of_le (List.mem_range.mp hi) hn) hy hx']
    by_cases hsame : y' = y ∧ x' = i
    · rw [if_pos hsame, if_pos hsame, hsame.2]
    · rw [if_neg hsame, if_neg hsame]
  rw [cellAt_foldl hturn]
  simp only [List.mem_range, existsAndEq, and_comm, true_and]

theorem sameElsewhere_fill (m : ByteMem) (c : ℕ → UInt8) (fg bg : UInt8) (hy : y < vgaHeight)
    (hn : n ≤ vgaWidth) :
    SameElsewhere m ((List.range n).foldl (fun m i => vgaSetCharacter m (c i) fg bg i y) m) :=
  .foldl (fun m _ hi => sameElsewhere_vgaSetCharacter m _ _ _
    (Nat.lt_of_lt_of_le (List.mem_range.mp hi) hn) hy) m

/-- **`vga_clear_line`**. -/
theorem cellAt_vgaClearLine (m : ByteMem) (hy : y < vgaHeight) {y' x' : ℕ} (hx' : x' < vgaWidth) :
    cellAt (vgaClearLine m y) y' x' = if y' = y then blank else cellAt m y' x' := by
  unfold vgaClearLine
  refine (cellAt_fill m (fun _ => ' '.toUInt8) _ _ hy (Nat.le_refl vgaWidth) hx').trans ?_
  simp only [hx', and_true]
  rfl

theorem sameElsewhere_vgaClearLine (m : ByteMem) (hy : y < vgaHeight) :
    SameElsewhere m (vgaClearLine m y) :=
  sameElsewhere_fill m (fun _ => ' '.toUInt8) _ _ hy (Nat.le_refl vgaWidth)

/-- **`vga_clear_screen`** writes every cell. -/
theorem cellAt_vgaClearScreen (s : Vga) (colour : UInt8) (hy : y < vgaHeight) (hx : x < vgaWidth) :
    cellAt (vgaClearScreen s colour).mem y x = ⟨' '.toUInt8, attrib vgaColourBlack colour⟩ := by
  have hcell : ∀ m, ∀ i ∈ List.range vgaWidth, ∀ j ∈ List.range vgaHeight,
      cellAt (vgaSetCharacter m ' '.toUInt8 vgaColourBlack colour i j) y x =
        if y = j ∧ x = i then ⟨' '.toUInt8, attrib vgaColourBlack colour⟩ else cellAt m y x :=
    fun m i hi j hj =>
      cellAt_vgaSetCharacter m _ _ _ (List.mem_range.mp hi) (List.mem_range.mp hj) hx
  have hcolumn := fun m (i : ℕ) (hi : i ∈ List.range vgaWidth) =>
    cellAt_foldl (fun m j hj => hcell m i hi j hj) m
  refine (cellAt_foldl hcolumn s.mem).trans (if_pos ?_)
  exact ⟨x, List.mem_range.mpr hx, y, List.mem_range.mpr hy, rfl, rfl⟩

theorem sameElsewhere_vgaClearScreen (s : Vga) (colour : UInt8) :
    SameElsewhere s.mem (vgaClearScreen s colour).mem :=
  .foldl (fun m _ hi => .foldl (fun m _ hj => sameElsewhere_vgaSetCharacter m _ _ _
    (List.mem_range.mp hi) (List.mem_range.mp hj)) m) s.mem

/-! ### Scrolling -/

/-- Taking the colours apart, with a sign, and putting them together again. -/
theorem attrib_parts (colour : UInt8) :
    attrib (colour &&& 0x0F) (UInt8.ofBitVec (colour.toBitVec.sshiftRight 4)) = colour := by
  have hparts : ∀ b : BitVec 8, b.sshiftRight 4 <<< 4 ||| (b &&& 15 &&& 15) = b := by decide
  exact UInt8.toBitVec_inj.mp (hparts colour.toBitVec)

/-- A cell is copied to the line above, with its colours. -/
theorem cellAt_scrollCell (m : ByteMem) (hx : x < vgaWidth) (hline : line + 1 < vgaHeight)
    {y' x' : ℕ} (hx' : x' < vgaWidth) :
    cellAt (scrollCell (line + 1) m x) y' x' =
      if y' = line ∧ x' = x then cellAt m (line + 1) x else cellAt m y' x' := by
  have hin : (line + 1) * 160 + x * 2 < 4000 := by
    unfold vgaWidth at hx
    unfold vgaHeight at hline
    omega
  have haddr : u32 (vgaBuffer + ((line + 1) * 160 + x * 2)) = cellAddr (line + 1) x := by
    rw [u32_of_lt (by unfold vgaBuffer; omega)]
    unfold cellAddr
    omega
  have habove : dec32 (line + 1) = line := by
    rw [dec32_of_pos (by omega) (by omega), Nat.add_sub_cancel]
  unfold scrollCell
  simp only [haddr, habove]
  rw [cellAt_vgaSetCharacter m _ _ _ hx (by omega) hx', attrib_parts]
  rfl

theorem sameElsewhere_scrollCell (m : ByteMem) (hx : x < vgaWidth) (hline : line + 1 < vgaHeight) :
    SameElsewhere m (scrollCell (line + 1) m x) := by
  have habove : dec32 (line + 1) = line := by
    unfold vgaHeight at hline
    rw [dec32_of_pos (by omega) (by omega), Nat.add_sub_cancel]
  unfold scrollCell
  simp only [habove]
  exact sameElsewhere_vgaSetCharacter m _ _ _ hx (by omega)

/-- The first `n` cells of a line are copied to the line above. -/
theorem cellAt_scrollCells (m : ByteMem) (hline : line + 1 < vgaHeight) (hn : n ≤ vgaWidth)
    {y' x' : ℕ} (hx' : x' < vgaWidth) :
    cellAt ((List.range n).foldl (scrollCell (line + 1)) m) y' x' =
      if y' = line ∧ x' < n then cellAt m (line + 1) x' else cellAt m y' x' := by
  induction n generalizing y' x' with
  | zero => simp
  | succ n ih =>
    have hn' : n < vgaWidth := hn
    rw [List.range_succ, List.foldl_append, List.foldl_cons, List.foldl_nil,
      cellAt_scrollCell _ hn' hline hx', ih (by omega) hx', ih (by omega) hn']
    -- the line itself has not been written
    rw [if_neg (by omega : ¬ (line + 1 = line ∧ n < n))]
    by_cases hlast : y' = line ∧ x' = n
    · obtain ⟨rfl, rfl⟩ := hlast
      simp
    · rw [if_neg hlast]
      by_cases hin : y' = line ∧ x' < n
      · rw [if_pos hin, if_pos ⟨hin.1, by omega⟩]
      · rw [if_neg hin, if_neg (by omega)]

theorem cellAt_scrollLine (m : ByteMem) (hline : line + 1 < vgaHeight) {y' x' : ℕ}
    (hx' : x' < vgaWidth) :
    cellAt (scrollLine m (line + 1)) y' x' =
      if y' = line then cellAt m (line + 1) x'
      else if y' = line + 1 then blank else cellAt m y' x' := by
  unfold scrollLine
  rw [cellAt_vgaClearLine _ hline hx', cellAt_scrollCells m hline (Nat.le_refl _) hx']
  by_cases habove : y' = line
  · rw [if_neg (by omega), if_pos ⟨habove, hx'⟩, if_pos habove]
  · rw [if_neg (c := y' = line ∧ x' < vgaWidth) (fun h => habove h.1), if_neg habove]

theorem sameElsewhere_scrollLine (m : ByteMem) (hline : line + 1 < vgaHeight) :
    SameElsewhere m (scrollLine m (line + 1)) := by
  have hcells : SameElsewhere m ((List.range vgaWidth).foldl (scrollCell (line + 1)) m) :=
    .foldl (fun m x hx => sameElsewhere_scrollCell m (List.mem_range.mp hx) hline) m
  exact hcells.trans (sameElsewhere_vgaClearLine _ hline)

/-- The lines `top + 1, …, top + n` have moved up. -/
theorem cellAt_scrollLines (m : ByteMem) (top : ℕ) (hn : top + n < vgaHeight) {y' x' : ℕ}
    (hx' : x' < vgaWidth) :
    cellAt ((List.range' (top + 1) n).foldl scrollLine m) y' x' =
      if top ≤ y' ∧ y' < top + n then cellAt m (y' + 1) x'
      else if y' = top + n ∧ 0 < n then blank else cellAt m y' x' := by
  induction n generalizing y' x' with
  | zero =>
    rw [if_neg (by omega), if_neg (by omega)]
    rfl
  | succ n ih =>
    rw [List.range'_concat, List.foldl_append, List.foldl_cons, List.foldl_nil, Nat.one_mul,
      Nat.add_right_comm, cellAt_scrollLine _ (by omega) hx', ih (by omega) hx', ih (by omega) hx']
    by_cases hlast : y' = top + n
    · -- the line that has just been copied was still as it had been
      rw [if_pos hlast, if_neg (by omega), if_neg (by omega), if_pos (by omega), hlast]
    · rw [if_neg hlast]
      by_cases hcleared : y' = top + n + 1
      · rw [if_pos hcleared, if_neg (by omega), if_pos (by omega)]
      · rw [if_neg hcleared]
        by_cases hin : top ≤ y' ∧ y' < top + n
        · rw [if_pos hin, if_pos (by omega)]
        · rw [if_neg hin, if_neg (by omega), if_neg (by omega), if_neg (by omega)]

/-- **`vga_scroll_up`** by one line: every row from `top_line` on moves up as it is, and the last
row becomes blank. -/
theorem cellAt_scrollOnce (m : ByteMem) {top : ℕ} (htop : 0 < top) (htop' : top < vgaHeight)
    {y' x' : ℕ} (hx' : x' < vgaWidth) :
    cellAt (scrollOnce top m) y' x' =
      if top ≤ y' + 1 ∧ y' + 1 < vgaHeight then cellAt m (y' + 1) x'
      else if y' + 1 = vgaHeight then blank else cellAt m y' x' := by
  obtain ⟨t, rfl⟩ : ∃ t, top = t + 1 := ⟨top - 1, by omega⟩
  unfold scrollOnce
  obtain ⟨n, hn⟩ : ∃ n, vgaHeight = t + 1 + n := ⟨_, (Nat.add_sub_of_le htop'.le).symm⟩
  rw [hn, Nat.add_sub_cancel_left, cellAt_scrollLines m t (by omega) hx']
  by_cases hin : t ≤ y' ∧ y' < t + n
  · rw [if_pos hin, if_pos (by omega)]
  · rw [if_neg hin]
    by_cases hlast : y' + 1 = t + 1 + n
    · rw [if_pos (by omega), if_neg (by omega), if_pos hlast]
    · rw [if_neg (by omega), if_neg (by omega), if_neg hlast]

theorem sameElsewhere_scrollOnce (m : ByteMem) {top : ℕ} (htop : 0 < top) :
    SameElsewhere m (scrollOnce top m) := by
  refine .foldl (fun m line hline => ?_) m
  obtain ⟨hge, hlt⟩ := List.mem_range'_1.mp hline
  obtain ⟨t, rfl⟩ : ∃ t, line = t + 1 := ⟨line - 1, by omega⟩
  exact sameElsewhere_scrollLine m (by omega)

end Rotary

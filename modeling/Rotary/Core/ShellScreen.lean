import Rotary.Arch.VgaText
import Rotary.Core.Logging
import Rotary.Core.Shell
import Rotary.Drivers.Keyboard

namespace Rotary

open Lib

/-!
# The shell on the screen (`kernel/core/shell.c`)

The shell keeps its prompt and the line that is being typed in the last row of the screen.  Each key
changes the line in `input_buffer` and the row at the cursor, without comparing the two.  Enter
scrolls, runs the command, which prints behind the cursor in the last row, and writes the prompt
over that row.

* `ShellShows` — the last row shows the prompt and the line in the buffer;
* `shellKey_shows` — a key keeps that while the line fits in the row;
* `shell_onScreen` — for the scan codes of a session, exactly then;
* `shell_transcript` — what stands above the prompt after commands that the shell does not know:
  the lines that were entered, and of each answer all rows but the last one.

What the commands do apart from `clear` is a parameter.
-/

/-! ### The code -/

/-- What `shell_process_command` does for a command that it knows. -/
inductive ShellAction
  | kt
  | fstype
  | ktestRunModule (moduleName : String)
  | ktestRunAll
  | kmallocPrintDebug
  | ut
  | clear
  | build
  | taskPrint
  | buddyPrintDebug
  | mem
  deriving DecidableEq, Repr

/-- The commands in the order in which they are compared; `true` where the branch returns. -/
def shellCommands : List (String × ShellAction × Bool) :=
  [("kt", .kt, true), ("fstype", .fstype, false), ("vm-test", .ktestRunModule "vm", false),
    ("string-test", .ktestRunModule "string", false),
    ("slab-test", .ktestRunModule "awodawd", false),
    ("palloc-test", .ktestRunModule "palloc", false), ("run-tests", .ktestRunAll, false),
    ("dump-kmalloc", .kmallocPrintDebug, false), ("ut", .ut, true), ("clear", .clear, true),
    ("cls", .clear, true), ("build", .build, true), ("tasks", .taskPrint, true),
    ("slab", .kmallocPrintDebug, false), ("buddy", .buddyPrintDebug, false), ("mem", .mem, false)]

/-- One action; `effect` is what the subsystems do to the screen. -/
def ShellAction.perform (effect : ShellAction → Vga → Option Vga) (action : ShellAction)
    (s : Vga) : Option Vga :=
  if action = .clear then
    some { s with mem := (List.range' 4 (vgaHeight - 4)).foldl vgaClearLine s.mem }
  else effect action s

/-- `shell_process_command`, from some of its comparisons on. -/
def shellProcessFrom (effect : ShellAction → Vga → Option Vga) (command : List UInt8) :
    List (String × ShellAction × Bool) → Vga → Option Vga
  | [], s => do
    let tmp ← vgaPrintf (ascii "Unknown command: %s" ++ [0]) [.str command]
    vgaWrite s (tmp ++ [0])
  | (name, action, returns) :: commands, s => do
    let r ← strcmp command (ascii name ++ [0])
    if r = 0 then
      let s ← action.perform effect s
      if returns then return s
      shellProcessFrom effect command commands s
    else shellProcessFrom effect command commands s

/-- `shell_process_command`. -/
def shellProcessCommand (effect : ShellAction → Vga → Option Vga) (command : List UInt8) (s : Vga) :
    Option Vga :=
  shellProcessFrom effect command shellCommands s

/-- `shell_print_prompt`. -/
def shellPrintPrompt (s : Vga) : Option Vga := do
  let s ← vgaOverwriteLine s (ascii "shell> " ++ [0]) vgaColourWhite vgaColourBlack 24
  return vgaSetCursor s 7 24

/-- `input_buffer` and the screen. -/
structure Shell where
  inputBuffer : List UInt8
  vga : Vga

/-- `shell_init`, apart from the registration of the handler. -/
def shellInit (s : Vga) : Option Shell := do
  let vga ← shellPrintPrompt (vgaScrollUp s 1 topLine)
  return ⟨List.replicate 256 0, vga⟩

/-- `shell_keyboard_handler`. -/
def shellKey (effect : ShellAction → Vga → Option Vga) (key : UInt8) (s : Shell) :
    Option Shell :=
  if key = keyEnter then do
    let vga := { vgaScrollUp s.vga 1 topLine with cursorX := 0 }
    let vga ← shellProcessCommand effect s.inputBuffer vga
    let inputBuffer ← shellClearInputBuffer s.inputBuffer
    let vga ← shellPrintPrompt vga
    return ⟨inputBuffer, vga⟩
  else if key = keyBackspace then do
    let inputBuffer ← shellDeleteFromInputBuffer s.inputBuffer
    return ⟨inputBuffer, vgaDeleteCharAtCursor s.vga⟩
  else if key ≠ 0 then do
    let inputBuffer ← strcat s.inputBuffer [key, 0]
    return ⟨inputBuffer, vgaPrintCharAtCursor s.vga key⟩
  else some s

/-- A session: the shell registers its handler behind those that are there, and scan codes come
    in. -/
def shellSession (effect : ShellAction → Vga → Option Vga) (handlerAddr : ℕ) (s : Vga)
    (scanCodes : List UInt8) : Option Shell := do
  let handlers := keyboardRegisterHandler handlerAddr (List.replicate maxInterruptHandlers 0)
  let shell ← shellInit s
  keyboardRun (fun _ => shellKey effect) handlers shell (scanCodes.map .input)

/-! ### The last row -/

/-- A character in a colour. -/
def glyph (colour c : UInt8) : Cell := ⟨c, attrib colour vgaColourBlack⟩

/-- The cells of the prompt. -/
def promptRow : List Cell := (ascii "shell> ").map (glyph vgaColourWhite)

/-- A character that `vga_print_char_at_cursor` does not take for a command. -/
def Visible (c : UInt8) : Prop :=
  c ≠ newLine ∧ c ≠ formFeed ∧ c ≠ carriageReturn ∧ c ≠ verticalTab

/-- The buffer holds the line, and the last row of the screen shows it behind the prompt. -/
structure ShellShows (s : Shell) (above : List (List Cell)) (line : List UInt8) : Prop where
  holds : HoldsLine s.inputBuffer line
  onScreen : OnScreen s.vga ⟨above, promptRow ++ line.map (glyph s.vga.currentFgColour)⟩
  cursorY : s.vga.cursorY = 24

/-- There is a character to delete, or room in the row for one more. -/
def FitsRow (line : List UInt8) (key : UInt8) : Prop :=
  (key = keyBackspace → line ≠ []) ∧
    (key ≠ keyEnter → key ≠ keyBackspace → key ≠ 0 → line.length < 73)

variable {effect : ShellAction → Vga → Option Vga} {s : Shell} {v : Vga} {sheet : Sheet Cell}
  {above : List (List Cell)} {cur : List Cell} {line : List UInt8} {key colour : UInt8}

theorem FitsRow.fits (h : FitsRow line key) : StepFits line key :=
  ⟨h.1, fun henter hback hkey => Nat.lt_trans (h.2 henter hback hkey) (by decide)⟩

theorem ShellShows.length_le (h : ShellShows s above line) : line.length ≤ 73 := by
  have hle := h.onScreen.cur_le
  have hprompt : promptRow.length = 7 := rfl
  simp only [List.length_append, List.length_map] at hle
  unfold vgaWidth at hle
  omega

/-- No rows are shown above. -/
theorem showsRows_nil (m : ByteMem) : ∀ k row, ([] : List (List Cell))[k]? = some row →
    topLine + k ≤ 24 → ShowsRow m (24 - (k + 1)) row :=
  fun _ row hrow => absurd hrow.symm (Option.some_ne_none row)

/-- The prompt takes the place of whatever is in the last row. -/
theorem shellPrintPrompt_onScreen
    (habove : ∀ k row, above[k]? = some row → topLine + k ≤ 24 →
      ShowsRow v.mem (24 - (k + 1)) row) :
    ∃ v', shellPrintPrompt v = some v' ∧ OnScreen v' ⟨above, promptRow⟩ ∧ v'.cursorY = 24 ∧
      v'.currentFgColour = v.currentFgColour := by
  have hlen : strlen (ascii "shell> " ++ [0]) = some 7 := rfl
  have hrun : ∃ v', shellPrintPrompt v = some v' ∧ v'.cursorX = 7 ∧ v'.cursorY = 24 ∧
      v'.currentFgColour = v.currentFgColour ∧
      v'.mem = (List.range 7).foldl (fun m i => vgaSetCharacter m
        ((ascii "shell> " ++ [0]).getD i 0) vgaColourWhite vgaColourBlack i 24)
        (vgaClearLine v.mem 24) := by
    unfold shellPrintPrompt vgaOverwriteLine
    simp only [Option.bind_eq_bind, hlen, Option.bind_some]
    exact ⟨_, rfl, rfl, rfl, rfl, rfl⟩
  obtain ⟨v', hrun, hx, hy, hcolour, hmem⟩ := hrun
  have hcell : ∀ y x, x < vgaWidth → cellAt v'.mem y x =
      if y = 24 ∧ x < 7 then glyph vgaColourWhite ((ascii "shell> " ++ [0]).getD x 0)
      else if y = 24 then blank else cellAt v.mem y x := by
    intro y x hlt
    rw [hmem, cellAt_fill _ _ _ _ (by decide) (by decide) hlt,
      cellAt_vgaClearLine _ (by decide) hlt]
    rfl
  have hwidth : promptRow.length ≤ vgaWidth := by decide
  refine ⟨v', hrun, ⟨hx, hwidth, ?_, ?_, ?_, ?_, ?_⟩, hy, hcolour⟩
  · rw [hy]
    decide
  · rw [hy]
    decide
  · intro x hlt
    rw [hy, hcell 24 x hlt]
    by_cases hin : x < 7
    · rw [if_pos ⟨rfl, hin⟩]
      interval_cases x <;> rfl
    · have hend : promptRow.length ≤ x := Nat.le_of_not_lt hin
      rw [if_neg fun hand => hin hand.2, if_pos rfl, List.getD_eq_default _ _ hend]
  · intro k row hrow hk x hlt
    rw [hy] at hk ⊢
    have hne : 24 - (k + 1) ≠ 24 := by omega
    rw [hcell _ x hlt, if_neg fun hand => hne hand.1, if_neg hne]
    exact habove k row hrow hk x hlt
  · intro y hbelow hlt
    rw [hy] at hbelow
    unfold vgaHeight at hlt
    omega

theorem keyOf_visible (h : Visible key) : keyOf colour key = [some (glyph colour key)] := by
  unfold keyOf
  rw [if_neg h.1, if_neg fun hor => hor.elim h.2.1 fun hor => hor.elim h.2.2.1 h.2.2.2]
  rfl

theorem colourAfter_visible (h : Visible key) : colourAfter colour key = colour := by
  unfold colourAfter
  rw [if_neg h.2.1, if_neg h.2.2.1, if_neg h.2.2.2]

/-! ### Commands -/

theorem vgaPrintf_unknown (hline : ∀ c ∈ line, c ≠ 0) (hlen : line.length ≤ 255)
    (rest : List UInt8) :
    vgaPrintf (ascii "Unknown command: %s" ++ [0]) [.str (line ++ 0 :: rest)] =
      some (ascii "Unknown command: " ++ line) := by
  have hformat : sprintf charBuffer
      (ascii "Unknown command: " ++ (ascii "%s" ++ []) ++ [0]) [.str (line ++ 0 :: rest)] =
        textIn charBuffer (ascii "Unknown command: " ++ (line ++ [])) :=
    sprintf_between charBuffer rest (by decide +kernel) (by decide +kernel) hline
  have hroom : (ascii "Unknown command: " ++ (line ++ [])).length < charBuffer.length := by
    have hfirst : (ascii "Unknown command: ").length = 17 := rfl
    rw [charBuffer_length, List.append_nil, List.length_append, hfirst]
    omega
  have hnull : ∀ c ∈ ascii "Unknown command: " ++ line, c ≠ 0 := by
    intro c hc
    rcases List.mem_append.mp hc with hc | hc
    · exact ne_zero_of_all (by decide) c hc
    · exact hline c hc
  have hfmt : ascii "Unknown command: " ++ (ascii "%s" ++ []) ++ [0] =
      ascii "Unknown command: %s" ++ [0] := rfl
  rw [hfmt, textIn, if_pos hroom, List.append_nil] at hformat
  unfold vgaPrintf
  rw [hformat, Option.bind_eq_bind, Option.bind_some]
  exact congrArg some (cString_terminated hnull)

/-- The answer to a command that is not known. -/
def answer (line : List UInt8) : List UInt8 := ascii "Unknown command: " ++ line

/-- No command has this name. -/
def Unknown (line : List UInt8) : Prop := ∀ entry ∈ shellCommands, line ≠ ascii entry.1

/-- The names of the commands are strings. -/
theorem shellCommands_ne_zero : ∀ entry ∈ shellCommands, ∀ c ∈ ascii entry.1, c ≠ 0 := by
  decide +kernel

theorem vgaWrite_answer (v : Vga) (hline : ∀ c ∈ line, c ≠ 0) (hlen : line.length ≤ 255) :
    vgaWrite v (answer line ++ [0]) = some ((answer line).foldl vgaPrintCharAtCursor v) := by
  have hnull : ∀ c ∈ answer line, c ≠ 0 := by
    intro c hc
    rcases List.mem_append.mp hc with hc | hc
    · exact ne_zero_of_all (by decide) c hc
    · exact hline c hc
  have hfits : (answer line).length ≤ maxStringLen := by
    have hfirst : (ascii "Unknown command: ").length = 17 := rfl
    unfold answer maxStringLen
    rw [List.length_append, hfirst]
    omega
  have hwrite := vgaWrite_eq v ⟨answer line, hnull⟩
  rw [List.take_of_length_le hfits] at hwrite
  exact hwrite

/-- The comparisons end with the answer, or with what a branch that returns leaves. -/
theorem shellProcessFrom_returns (heffect : ∀ action v, ∃ v', effect action v = some v')
    {buffer : List UInt8} (h : HoldsLine buffer line)
    {commands : List (String × ShellAction × Bool)}
    (hnames : ∀ entry ∈ commands, ∀ c ∈ ascii entry.1, c ≠ 0) (v : Vga) :
    ∃ v', shellProcessFrom effect buffer commands v = some v' := by
  obtain ⟨rest, hbuffer⟩ := h.terminated
  induction commands generalizing v with
  | nil =>
    unfold shellProcessFrom
    rw [hbuffer, vgaPrintf_unknown h.line_ne_zero h.line_le, Option.bind_eq_bind, Option.bind_some]
    exact ⟨_, vgaWrite_answer v h.line_ne_zero h.line_le⟩
  | cons entry commands ih =>
    obtain ⟨name, action, returns⟩ := entry
    have hnext := ih fun entry hmem => hnames entry (List.mem_cons_of_mem _ hmem)
    obtain ⟨r, hr, -⟩ := strcmp_spec rest [] h.line_ne_zero (hnames _ List.mem_cons_self)
    rw [← hbuffer] at hr
    have hperform : ∃ v', action.perform effect v = some v' := by
      unfold ShellAction.perform
      split
      · exact ⟨_, rfl⟩
      · exact heffect action v
    obtain ⟨v₁, hv₁⟩ := hperform
    unfold shellProcessFrom
    rw [hr, Option.bind_eq_bind, Option.bind_some]
    by_cases hzero : r = 0
    · rw [if_pos hzero, hv₁, Option.bind_eq_bind, Option.bind_some]
      cases returns with
      | true => exact ⟨v₁, rfl⟩
      | false => exact hnext v₁
    · rw [if_neg hzero]
      exact hnext v

/-- A line without a command gets the answer, and nothing else happens. -/
theorem shellProcessFrom_unknown (effect : ShellAction → Vga → Option Vga) {buffer : List UInt8}
    (h : HoldsLine buffer line) {commands : List (String × ShellAction × Bool)}
    (hnames : ∀ entry ∈ commands, ∀ c ∈ ascii entry.1, c ≠ 0)
    (hunknown : ∀ entry ∈ commands, line ≠ ascii entry.1) (v : Vga) :
    shellProcessFrom effect buffer commands v =
      some ((answer line).foldl vgaPrintCharAtCursor v) := by
  obtain ⟨rest, hbuffer⟩ := h.terminated
  induction commands with
  | nil =>
    unfold shellProcessFrom
    rw [hbuffer, vgaPrintf_unknown h.line_ne_zero h.line_le, Option.bind_eq_bind, Option.bind_some]
    exact vgaWrite_answer v h.line_ne_zero h.line_le
  | cons entry commands ih =>
    obtain ⟨name, action, returns⟩ := entry
    obtain ⟨r, hr, hiff⟩ := strcmp_spec rest [] h.line_ne_zero (hnames _ List.mem_cons_self)
    have hne : r ≠ 0 := fun hzero => hunknown _ List.mem_cons_self (hiff.mp hzero)
    rw [← hbuffer] at hr
    unfold shellProcessFrom
    rw [hr, Option.bind_eq_bind, Option.bind_some, if_neg hne]
    exact ih (fun entry hmem => hnames entry (List.mem_cons_of_mem _ hmem))
      fun entry hmem => hunknown entry (List.mem_cons_of_mem _ hmem)

/-! ### One key -/

/-- Enter, with the rows that the command leaves above the last one. -/
theorem ShellShows.enter {v' : Vga} (h : ShellShows s above line)
    (hcommand : shellProcessCommand effect s.inputBuffer
      { vgaScrollUp s.vga 1 topLine with cursorX := 0 } = some v')
    {rows : List (List Cell)}
    (hrows : ∀ k row, rows[k]? = some row → topLine + k ≤ 24 → ShowsRow v'.mem (24 - (k + 1)) row) :
    ∃ s', shellKey effect keyEnter s = some s' ∧ ShellShows s' rows [] ∧
      s'.vga.currentFgColour = v'.currentFgColour := by
  obtain ⟨v'', hprompt, honScreen, hy, hcolour⟩ := shellPrintPrompt_onScreen hrows
  refine ⟨⟨List.replicate 256 0, v''⟩, ?_, ⟨holdsLine_empty, ?_, hy⟩, hcolour⟩
  · unfold shellKey
    simp only [if_true, hcommand, h.holds.clear, hprompt, Option.bind_eq_bind, Option.bind_some]
    rfl
  · rw [List.map_nil, List.append_nil]
    exact honScreen

/-- Enter, whatever the command prints: the prompt is written over it. -/
theorem shellKey_enter (heffect : ∀ action v, ∃ v', effect action v = some v')
    (h : ShellShows s above line) :
    ∃ s', shellKey effect keyEnter s = some s' ∧ ShellShows s' [] [] := by
  obtain ⟨v', hcommand⟩ := shellProcessFrom_returns heffect h.holds shellCommands_ne_zero
    { vgaScrollUp s.vga 1 topLine with cursorX := 0 }
  obtain ⟨s', hrun, hshows, -⟩ := h.enter hcommand (showsRows_nil v'.mem)
  exact ⟨s', hrun, hshows⟩

/-- `vga_delete_char_at_cursor` stays in the row and keeps the colour. -/
theorem vgaDeleteCharAtCursor_keeps (v : Vga) :
    (vgaDeleteCharAtCursor v).cursorY = v.cursorY ∧
      (vgaDeleteCharAtCursor v).currentFgColour = v.currentFgColour := by
  unfold vgaDeleteCharAtCursor
  split
  · exact ⟨rfl, rfl⟩
  · exact ⟨rfl, rfl⟩

/-- Backspace takes the last character from the line and from the row. -/
theorem shellKey_backspace (effect : ShellAction → Vga → Option Vga) (h : ShellShows s above line)
    (hfits : FitsRow line keyBackspace) :
    ∃ s', shellKey effect keyBackspace s = some s' ∧
      ShellShows s' above (afterKey line keyBackspace) ∧
      s'.vga.currentFgColour = s.vga.currentFgColour := by
  have henter : keyBackspace ≠ keyEnter := by decide
  obtain ⟨buffer, hrun, hholds⟩ := shellKeyboardHandler_fits h.holds hfits.fits
  unfold shellKeyboardHandler at hrun
  rw [if_neg henter, if_pos rfl] at hrun
  obtain ⟨hy, hcolour⟩ := vgaDeleteCharAtCursor_keeps s.vga
  have hline : afterKey line keyBackspace = line.dropLast := by
    unfold afterKey
    rw [if_neg henter, if_pos rfl]
  -- the last character is behind the prompt, so it is in the row
  obtain ⟨init, c, hinit⟩ := (List.eq_nil_or_concat line).resolve_left (hfits.1 rfl)
  rw [List.concat_eq_append] at hinit
  have honScreen := h.onScreen
  rw [hinit, List.map_append, List.map_singleton, ← List.append_assoc] at honScreen
  refine ⟨⟨buffer, vgaDeleteCharAtCursor s.vga⟩, ?_, ⟨hholds, ?_, hy.trans h.cursorY⟩, hcolour⟩
  · unfold shellKey
    rw [if_neg henter, if_pos rfl, hrun]
    rfl
  · rw [hline, hinit, List.dropLast_concat]
    show OnScreen _ ⟨above, promptRow ++ init.map (glyph _)⟩
    rw [hcolour]
    exact honScreen.delete

/-- A character is added to the line and printed at the end of the row. -/
theorem shellKey_char (effect : ShellAction → Vga → Option Vga) (h : ShellShows s above line)
    (henter : key ≠ keyEnter) (hback : key ≠ keyBackspace) (hkey : key ≠ 0)
    (hvisible : Visible key) (hfits : FitsRow line key) :
    ∃ s', shellKey effect key s = some s' ∧ ShellShows s' above (afterKey line key) ∧
      s'.vga.currentFgColour = s.vga.currentFgColour := by
  obtain ⟨buffer, hrun, hholds⟩ := shellKeyboardHandler_fits h.holds hfits.fits
  unfold shellKeyboardHandler at hrun
  rw [if_neg henter, if_neg hback, if_pos hkey] at hrun
  have hroom := hfits.2 henter hback hkey
  have hline : afterKey line key = line ++ [key] := by
    unfold afterKey
    rw [if_neg henter, if_neg hback, if_pos ⟨hkey, Nat.lt_trans hroom (by decide)⟩]
  have hcolour : (vgaPrintCharAtCursor s.vga key).currentFgColour = s.vga.currentFgColour := by
    rw [vgaPrintCharAtCursor_colour, colourAfter_visible hvisible]
  -- the row is not left
  have hnotFull : (promptRow ++ line.map (glyph s.vga.currentFgColour)).length ≠ vgaWidth := by
    have hprompt : promptRow.length = 7 := rfl
    rw [List.length_append, List.length_map, hprompt]
    unfold vgaWidth
    omega
  have hprint := vgaPrintCharAtCursor_onScreen h.onScreen key
  rw [keyOf_visible hvisible, Sheet.type_cons, Sheet.type_nil, Sheet.key, if_neg hnotFull,
    List.append_assoc] at hprint
  refine ⟨⟨buffer, vgaPrintCharAtCursor s.vga key⟩, ?_, ⟨hholds, ?_, ?_⟩, hcolour⟩
  · unfold shellKey
    rw [if_neg henter, if_neg hback, if_pos hkey, hrun]
    rfl
  · rw [hline, List.map_append, List.map_singleton]
    show OnScreen _ ⟨above, promptRow ++ (line.map (glyph _) ++ [glyph _ key])⟩
    rw [hcolour]
    exact hprint
  · exact (vgaPrintCharAtCursor_cursorY s.vga key).trans h.cursorY

/-- Any key but Enter. -/
theorem shellKey_edit (h : ShellShows s above line) (henter : key ≠ keyEnter)
    (hvisible : Visible key) (hfits : FitsRow line key) :
    ∃ s', shellKey effect key s = some s' ∧ ShellShows s' above (afterKey line key) ∧
      s'.vga.currentFgColour = s.vga.currentFgColour := by
  by_cases hback : key = keyBackspace
  · subst hback
    exact shellKey_backspace effect h hfits
  · by_cases hkey : key = 0
    · -- a scan code that is no character
      have hline : afterKey line key = line := by
        unfold afterKey
        rw [if_neg henter, if_neg hback, if_neg fun hand => hand.1 hkey]
      unfold shellKey
      rw [if_neg henter, if_neg hback, if_neg (not_not.mpr hkey), hline]
      exact ⟨s, rfl, h, rfl⟩
    · exact shellKey_char effect h henter hback hkey hvisible hfits

/-- **A key that fits** leaves the row with the line that has been typed. -/
theorem shellKey_shows (heffect : ∀ action v, ∃ v', effect action v = some v')
    (h : ShellShows s [] line) (hvisible : Visible key) (hfits : FitsRow line key) :
    ∃ s', shellKey effect key s = some s' ∧ ShellShows s' [] (afterKey line key) := by
  by_cases henter : key = keyEnter
  · have hline : afterKey line key = [] := if_pos henter
    rw [hline, henter]
    exact shellKey_enter heffect h
  · obtain ⟨s', hrun, hshows, -⟩ := shellKey_edit h henter hvisible hfits
    exact ⟨s', hrun, hshows⟩

/-- **A key that does not fit** goes outside of the buffer, or the row does not show the line. -/
theorem shellKey_not_shows {s' : Shell} {rows : List (List Cell)} (h : ShellShows s above line)
    (hfits : ¬ FitsRow line key) (hrun : shellKey effect key s = some s') :
    ¬ ShellShows s' rows (afterKey line key) := by
  intro hshows
  rcases not_and_or.mp hfits with hback | hfull
  · -- Backspace on an empty line
    obtain ⟨rfl, hempty⟩ := Classical.not_imp.mp hback
    have houtside := shellKeyboardHandler_outside h.holds fun hstep => hempty (hstep.1 rfl)
    have hdelete : shellDeleteFromInputBuffer s.inputBuffer = none := houtside
    unfold shellKey at hrun
    rw [if_neg (by decide), if_pos rfl, hdelete] at hrun
    exact Option.some_ne_none s' hrun.symm
  · -- the line is longer than the row
    obtain ⟨henter, hfull⟩ := Classical.not_imp.mp hfull
    obtain ⟨hback, hfull⟩ := Classical.not_imp.mp hfull
    obtain ⟨hkey, hfull⟩ := Classical.not_imp.mp hfull
    have hle := h.length_le
    have hlong : afterKey line key = line ++ [key] := by
      unfold afterKey
      rw [if_neg henter, if_neg hback, if_pos ⟨hkey, by omega⟩]
    have hle' := hshows.length_le
    rw [hlong, List.length_append, List.length_singleton] at hle'
    omega

/-! ### Sessions -/

/-- No scan code is translated to a character that is taken for a command. -/
theorem visible_scanCode (code : UInt8) : Visible (keyboardTranslateScanCode code) := by
  have htable : ∀ c ∈ scanCodeTable,
      c ≠ newLine ∧ c ≠ formFeed ∧ c ≠ carriageReturn ∧ c ≠ verticalTab := by decide +kernel
  unfold keyboardTranslateScanCode
  by_cases hin : code.toNat < scanCodeTable.length
  · rw [List.getD_eq_getElem _ _ hin]
    exact htable _ (List.getElem_mem hin)
  · rw [List.getD_eq_default _ _ (Nat.le_of_not_lt hin)]
    exact ⟨by decide, by decide, by decide, by decide⟩

/-- The keys of some scan codes. -/
def keysIn (scanCodes : List UInt8) : List UInt8 := scanCodes.map keyboardTranslateScanCode

variable {handlerAddr : ℕ} {scanCodes : List UInt8}

theorem keyboardSpec_input (kh : ℕ → UInt8 → Shell → Option Shell) (a : ℕ) (s : Shell)
    (scanCodes : List UInt8) :
    keyboardSpec kh [a] s (scanCodes.map .input) =
      (keysIn scanCodes).foldlM (fun s key => kh a key s) s := by
  induction scanCodes generalizing s with
  | nil => rfl
  | cons code scanCodes ih =>
    have hone : [a].foldlM (fun s h => kh h (keyboardTranslateScanCode code) s) s =
        kh a (keyboardTranslateScanCode code) s := bind_pure _
    rw [List.map_cons, keyboardSpec, hone, keysIn, List.map_cons, List.foldlM_cons]
    exact congrArg _ (funext fun s' => ih s')

/-- The handler of the shell gets every key. -/
theorem shellSession_eq (haddr : handlerAddr ≠ 0) (v : Vga) (scanCodes : List UInt8) :
    shellSession effect handlerAddr v scanCodes =
      (shellInit v).bind fun s =>
        (keysIn scanCodes).foldlM (fun s key => shellKey effect key s) s := by
  have hheld := holdsHandlers_nil.register handlerAddr
  have hone : enroll [] handlerAddr = [handlerAddr] := if_pos ⟨haddr, by decide⟩
  rw [hone] at hheld
  have hrun : ∀ s, keyboardRun (fun _ => shellKey effect)
      (keyboardRegisterHandler handlerAddr (List.replicate maxInterruptHandlers 0)) s
      (scanCodes.map .input) =
        (keysIn scanCodes).foldlM (fun s key => shellKey effect key s) s := fun s => by
    rw [hheld.run, keyboardSpec_input]
  unfold shellSession
  simp only [hrun]
  rfl

theorem shellSession_concat (haddr : handlerAddr ≠ 0) (v : Vga) (pre : List UInt8) (code : UInt8) :
    shellSession effect handlerAddr v (pre ++ [code]) =
      (shellSession effect handlerAddr v pre).bind
        (shellKey effect (keyboardTranslateScanCode code)) := by
  rw [shellSession_eq haddr, shellSession_eq haddr, Option.bind_assoc]
  refine congrArg _ (funext fun s => ?_)
  unfold keysIn
  rw [List.map_append, List.foldlM_append, List.map_singleton]
  simp only [List.foldlM_cons, List.foldlM_nil, bind_pure, Option.bind_eq_bind]

/-- The shell begins with an empty line, on whatever screen. -/
theorem shellInit_shows (v : Vga) :
    ∃ s, shellInit v = some s ∧ ShellShows s [] [] ∧
      s.vga.currentFgColour = v.currentFgColour := by
  obtain ⟨v', hprompt, honScreen, hy, hcolour⟩ :=
    shellPrintPrompt_onScreen (showsRows_nil (vgaScrollUp v 1 topLine).mem)
  refine ⟨⟨List.replicate 256 0, v'⟩, ?_, ⟨holdsLine_empty, ?_, hy⟩, hcolour⟩
  · unfold shellInit
    rw [hprompt]
    rfl
  · rw [List.map_nil, List.append_nil]
    exact honScreen

theorem keysIn_concat (pre : List UInt8) (code : UInt8) :
    typed (keysIn (pre ++ [code])) =
      afterKey (typed (keysIn pre)) (keyboardTranslateScanCode code) := by
  unfold keysIn
  rw [List.map_append, List.map_singleton, typed_concat]

/-- After every scan code the last row shows the prompt and the line that has been typed, and so
    does the buffer hold it. -/
def StaysOnScreen (effect : ShellAction → Vga → Option Vga) (handlerAddr : ℕ) (v : Vga)
    (scanCodes : List UInt8) : Prop :=
  ∀ pre, pre <+: scanCodes → ∃ s, shellSession effect handlerAddr v pre = some s ∧
    ShellShows s [] (typed (keysIn pre))

/-- **The last row shows the line that is typed** after every scan code of a session, on whatever
screen it began and whatever the commands print, exactly as long as Backspace is only pressed on a
line with characters and other keys on one of fewer than 73. -/
theorem shell_onScreen (heffect : ∀ action v, ∃ v', effect action v = some v')
    (haddr : handlerAddr ≠ 0) (v : Vga) (scanCodes : List UInt8) :
    StaysOnScreen effect handlerAddr v scanCodes ↔
      ∀ pre code, pre ++ [code] <+: scanCodes →
        FitsRow (typed (keysIn pre)) (keyboardTranslateScanCode code) := by
  constructor
  · intro h pre code hprefix
    by_contra hnot
    obtain ⟨s, hrun, hshows⟩ := h pre ((List.prefix_append pre [code]).trans hprefix)
    obtain ⟨s', hnext, hshows'⟩ := h (pre ++ [code]) hprefix
    rw [shellSession_concat haddr, hrun, Option.bind_some] at hnext
    rw [keysIn_concat] at hshows'
    exact shellKey_not_shows hshows hnot hnext hshows'
  · intro h pre
    induction pre using List.reverseRecOn with
    | nil =>
      intro _
      obtain ⟨s, hinit, hshows, -⟩ := shellInit_shows v
      refine ⟨s, ?_, hshows⟩
      rw [shellSession_eq haddr, hinit]
      rfl
    | append_singleton pre code ih =>
      intro hprefix
      obtain ⟨s, hrun, hshows⟩ := ih ((List.prefix_append pre [code]).trans hprefix)
      obtain ⟨s', hstep, hnext⟩ := shellKey_shows heffect hshows (visible_scanCode code)
        (h pre code hprefix)
      refine ⟨s', ?_, ?_⟩
      · rw [shellSession_concat haddr, hrun, Option.bind_some, hstep]
      · rw [keysIn_concat]
        exact hnext

theorem forall_concat_prefix_nil {P : List UInt8 → UInt8 → Prop} :
    ∀ pre code, pre ++ [code] <+: [] → P pre code := by
  intro pre code h
  simp at h

theorem forall_concat_prefix_cons {P : List UInt8 → UInt8 → Prop} {d : UInt8} {ds : List UInt8}
    (hd : P [] d) (hds : ∀ pre code, pre ++ [code] <+: ds → P (d :: pre) code) :
    ∀ pre code, pre ++ [code] <+: d :: ds → P pre code := by
  intro pre code h
  cases pre with
  | nil =>
    obtain ⟨rfl, -⟩ := List.cons_prefix_cons.mp h
    exact hd
  | cons c pre =>
    obtain ⟨rfl, htail⟩ := List.cons_prefix_cons.mp h
    exact hds pre code htail

/-- The key `a`. -/
theorem shell_onScreen_key :
    StaysOnScreen (fun _ => some) 1 (Vga.initial fun _ => 0) [0x1E] :=
  (shell_onScreen (fun _ v => ⟨v, rfl⟩) (by decide) _ _).mpr
    (forall_concat_prefix_cons ⟨by decide, by decide⟩ forall_concat_prefix_nil)

/-! ### The transcript -/

/-- The rows above the prompt, the newest one first, after a line whose command is not known: the
    line, and the rows of the answer but the last one. -/
def entered (colour : UInt8) (line : List UInt8) (rows : List (List Cell)) : List (List Cell) :=
  (pieces vgaWidth ((answer line).map (glyph colour))).dropLast.reverse ++
    (promptRow ++ line.map (glyph colour)) :: rows

/-- The rows above the prompt and the line, after one more key. -/
def transcriptStep (colour : UInt8) (t : List (List Cell) × List UInt8) (key : UInt8) :
    List (List Cell) × List UInt8 :=
  (if key = keyEnter then entered colour t.2 t.1 else t.1, afterKey t.2 key)

/-- The rows above the prompt after a sequence of keys. -/
def transcript (colour : UInt8) (keys : List UInt8) : List (List Cell) :=
  (keys.foldl (transcriptStep colour) ([], [])).1

theorem transcript_line (colour : UInt8) (keys : List UInt8) :
    (keys.foldl (transcriptStep colour) ([], [])).2 = typed keys := by
  induction keys using List.reverseRecOn with
  | nil => rfl
  | append_singleton keys key ih =>
    rw [List.foldl_append, typed_concat, ← ih]
    rfl

theorem transcript_concat (colour : UInt8) (keys : List UInt8) (key : UInt8) :
    transcript colour (keys ++ [key]) =
      if key = keyEnter then entered colour (typed keys) (transcript colour keys)
      else transcript colour keys := by
  unfold transcript
  rw [List.foldl_append, ← transcript_line colour keys]
  rfl

/-- A text of visible characters is typed in one colour. -/
theorem keysOf_visible {text : List UInt8} (h : ∀ c ∈ text, Visible c) (colour : UInt8) :
    keysOf colour text = (text.map (glyph colour)).map some ∧
      text.foldl colourAfter colour = colour := by
  induction text with
  | nil => exact ⟨rfl, rfl⟩
  | cons c text ih =>
    have hc := h c List.mem_cons_self
    obtain ⟨hkeys, hcolour⟩ := ih fun d hd => h d (List.mem_cons_of_mem c hd)
    constructor
    · rw [keysOf, keyOf_visible hc, colourAfter_visible hc, hkeys]
      rfl
    · rw [List.foldl_cons, colourAfter_visible hc, hcolour]

/-- The rows above, after cells have been typed into a new row. -/
theorem type_line_above (cells : List Cell) (above : List (List Cell)) :
    (Sheet.type vgaWidth ⟨above, []⟩ (cells.map some)).above =
      (pieces vgaWidth cells).dropLast.reverse ++ above := by
  have hempty : ([] : List Cell).length ≤ vgaWidth := Nat.zero_le _
  have hrows := Sheet.rows_type (by decide) hempty (cells.map some)
  rw [List.map_nil, List.nil_append, rowsOf_map_some] at hrows
  have hfinished := congrArg List.dropLast hrows
  unfold Sheet.rows at hfinished
  rw [List.dropLast_concat] at hfinished
  have habove := Sheet.type_above (w := vgaWidth) [] above [] (cells.map some)
  rw [List.nil_append] at habove
  rw [habove, ← hfinished, List.reverse_reverse]

/-- **Enter with an unknown command**: the answer is printed and its last row is gone again. -/
theorem shellKey_unknown (effect : ShellAction → Vga → Option Vga) (h : ShellShows s above line)
    (hvisible : ∀ c ∈ line, Visible c)
    (hunknown : Unknown line) :
    ∃ s', shellKey effect keyEnter s = some s' ∧
      ShellShows s' (entered s.vga.currentFgColour line above) [] ∧
      s'.vga.currentFgColour = s.vga.currentFgColour := by
  have hanswer : ∀ c ∈ answer line, Visible c := by
    have hfirst : ∀ c ∈ ascii "Unknown command: ",
        c ≠ newLine ∧ c ≠ formFeed ∧ c ≠ carriageReturn ∧ c ≠ verticalTab := by decide +kernel
    intro c hc
    rcases List.mem_append.mp hc with hc | hc
    · exact hfirst c hc
    · exact hvisible c hc
  have hnew := h.onScreen.newRow
  have hprints := prints_chars hnew (answer line)
  have hy := hprints.cursorY.trans h.cursorY
  have honScreen := hprints.onScreen
  have hcolour := hprints.colour
  obtain ⟨hkeys, hsame⟩ := keysOf_visible hanswer s.vga.currentFgColour
  have hcommand := shellProcessFrom_unknown effect h.holds shellCommands_ne_zero
    hunknown { vgaScrollUp s.vga 1 topLine with cursorX := 0 }
  obtain ⟨s', hrun, hshows, hafter⟩ := h.enter hcommand fun k row hrow hk => by
    have hrows := honScreen.above k row
    rw [hy] at hrows
    refine hrows ?_ hk
    show ((Sheet.newRow _).type vgaWidth (keysOf s.vga.currentFgColour (answer line))).above[k]? = _
    rw [hkeys]
    exact (congrArg (·[k]?) (type_line_above _ _)).trans hrow
  refine ⟨s', hrun, hshows, hafter.trans (hcolour.trans hsame)⟩

/-- The characters of a line that has been typed are visible. -/
theorem visible_typed {keys : List UInt8} (h : ∀ key ∈ keys, Visible key) :
    ∀ c ∈ typed keys, Visible c := by
  induction keys using List.reverseRecOn with
  | nil => exact List.forall_mem_nil _
  | append_singleton keys key ih =>
    have hline := ih fun k hk => h k (List.mem_append_left _ hk)
    have hkey := h key (by simp)
    rw [typed_concat]
    unfold afterKey
    split
    · exact List.forall_mem_nil _
    split
    · exact fun c hc => hline c (List.mem_of_mem_dropLast hc)
    split
    · intro c hc
      rcases List.mem_append.mp hc with hc | hc
      · exact hline c hc
      · rw [List.mem_singleton.mp hc]
        exact hkey
    · exact hline

/-- One more scan code of a session: Enter adds the line and its answer to the transcript. -/
theorem shellKey_transcript (effect : ShellAction → Vga → Option Vga) (colour : UInt8)
    (pre : List UInt8) (code : UInt8)
    (h : ShellShows s (transcript colour (keysIn pre)) (typed (keysIn pre)))
    (hcolour : s.vga.currentFgColour = colour)
    (hfits : FitsRow (typed (keysIn pre)) (keyboardTranslateScanCode code))
    (hunknown : keyboardTranslateScanCode code = keyEnter → Unknown (typed (keysIn pre))) :
    ∃ s', shellKey effect (keyboardTranslateScanCode code) s = some s' ∧
      ShellShows s' (transcript colour (keysIn (pre ++ [code])))
        (typed (keysIn (pre ++ [code]))) ∧
      s'.vga.currentFgColour = s.vga.currentFgColour := by
  have hkeys : keysIn (pre ++ [code]) = keysIn pre ++ [keyboardTranslateScanCode code] := by
    unfold keysIn
    rw [List.map_append, List.map_singleton]
  rw [hkeys, transcript_concat, typed_concat]
  by_cases henter : keyboardTranslateScanCode code = keyEnter
  · have hline : afterKey (typed (keysIn pre)) (keyboardTranslateScanCode code) = [] :=
      if_pos henter
    have hvisible : ∀ key ∈ keysIn pre, Visible key := by
      intro key hkey
      obtain ⟨c, -, rfl⟩ := List.mem_map.mp hkey
      exact visible_scanCode c
    have hnext := shellKey_unknown effect h (visible_typed hvisible) (hunknown henter)
    rw [if_pos henter, hline, henter, ← hcolour]
    rw [← hcolour] at hnext
    exact hnext
  · rw [if_neg henter]
    exact shellKey_edit h henter (visible_scanCode code) hfits

/-- **The transcript of a session.**  While no command is known and every line fits in its row, the
rows above the prompt are the lines that have been entered, the newest one last, each with the rows
of its answer except for the last one: an answer of one row is never to be seen. -/
theorem shell_transcript (effect : ShellAction → Vga → Option Vga) (haddr : handlerAddr ≠ 0)
    (v : Vga) (scanCodes : List UInt8)
    (hfits : ∀ pre code, pre ++ [code] <+: scanCodes →
      FitsRow (typed (keysIn pre)) (keyboardTranslateScanCode code))
    (hunknown : ∀ pre code, pre ++ [code] <+: scanCodes →
      keyboardTranslateScanCode code = keyEnter → Unknown (typed (keysIn pre))) :
    ∃ s, shellSession effect handlerAddr v scanCodes = some s ∧
      ShellShows s (transcript v.currentFgColour (keysIn scanCodes)) (typed (keysIn scanCodes)) ∧
      s.vga.currentFgColour = v.currentFgColour := by
  induction scanCodes using List.reverseRecOn with
  | nil =>
    obtain ⟨s, hinit, hshows, hcolour⟩ := shellInit_shows v
    refine ⟨s, ?_, hshows, hcolour⟩
    rw [shellSession_eq haddr, hinit]
    rfl
  | append_singleton pre code ih =>
    have hlonger : ∀ {p : List UInt8}, p <+: pre → p <+: pre ++ [code] := fun hp =>
      hp.trans (List.prefix_append pre [code])
    obtain ⟨s, hrun, hshows, hcolour⟩ := ih (fun p c hp => hfits p c (hlonger hp))
      fun p c hp => hunknown p c (hlonger hp)
    have hlast : pre ++ [code] <+: pre ++ [code] := List.prefix_refl _
    obtain ⟨s', hnext, hshows', hsame⟩ := shellKey_transcript effect v.currentFgColour pre code
      hshows hcolour (hfits pre code hlast) (hunknown pre code hlast)
    refine ⟨s', ?_, hshows', hsame.trans hcolour⟩
    rw [shellSession_concat haddr, hrun, Option.bind_some, hnext]

/-- The key `a` and Enter: nothing but the line is left. -/
theorem shell_transcript_line :
    ∃ s, shellSession (fun _ => some) 1 (Vga.initial fun _ => 0) [0x1E, 0x1C] = some s ∧
      ShellShows s [promptRow ++ [glyph vgaColourWhite 'a'.toUInt8]] [] := by
  obtain ⟨s, hrun, hshows, -⟩ := shell_transcript (fun _ => some)
    (show 1 ≠ 0 by decide) (Vga.initial fun _ => 0) [0x1E, 0x1C]
    (forall_concat_prefix_cons ⟨by decide, by decide⟩
      (forall_concat_prefix_cons ⟨by decide, by decide⟩ forall_concat_prefix_nil))
    (forall_concat_prefix_cons (fun henter => absurd henter (by decide))
      (forall_concat_prefix_cons (fun _ => show ∀ entry ∈ shellCommands,
        ['a'.toUInt8] ≠ ascii entry.1 by decide) forall_concat_prefix_nil))
  refine ⟨s, hrun, ?_⟩
  have hrows : transcript vgaColourWhite (keysIn [0x1E, 0x1C]) =
      [promptRow ++ [glyph vgaColourWhite 'a'.toUInt8]] := by
    show entered vgaColourWhite ['a'.toUInt8] [] = _
    unfold entered
    rw [pieces_of_le (by decide)]
    rfl
  rw [← hrows]
  exact hshows

end Rotary

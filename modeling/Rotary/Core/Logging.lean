import Rotary.Core.SprintfText
import Rotary.Core.Strings

namespace Rotary

/-!
# Kernel logging (`kernel/core/logging.c` and the macros of `logging.h` and `vga.h`)

A message is formatted into a buffer of 512 characters by `printk` or `klog`, together with its tag
into another one by `_printk`, and once more by `vga_printf`, which takes the finished message for a
format.  `sprintf` knows no bound.  So the tag and the message must fit into one buffer, whatever
the level, and a message for the screen must have no `%`.

* `serialLine` — the line for the serial port;
* `printkMessage_eq` — what `_printk` does with any message that fits into its buffer;
* `printk_asWritten` — when a message comes out as it was written.

A result of a log call is what it hands over to `vga_write` and `serial_write_line`; there is none
if it writes outside of a buffer or formats without a defined outcome.  `serial_write_line` drops
its line while the port has not been initialised.
-/

/-! ### The code -/

/-- `LOG_DEBUG`. -/
def logDebug : UInt8 := 1

/-- `LOG_INFO`. -/
def logInfo : UInt8 := 2

/-- The strings that `vga_write` and `serial_write_line` are called with, if they are. -/
structure Logged where
  screen : Option (List UInt8)
  serial : Option (List UInt8)

/-- A cleared `char[512]`. -/
def charBuffer : List UInt8 := List.replicate 512 0

/-- `vga_printf`. -/
def vgaPrintf (fmt : List UInt8) (args : List Arg) : Option (List UInt8) := do
  let (_, tmp) ← sprintf charBuffer fmt args
  return cString tmp

/-- `_printk`. -/
def printkMessage (level : UInt8) (tag message : List UInt8) : Option Logged := do
  let (_, finalMessage) ←
    sprintf charBuffer (ascii "[%s] %s" ++ [0]) [.str tag, .str message]
  let length ← strlen message
  let vgaMessage ← strncpy charBuffer message (length + 1)
  let screen ← if level ≥ logInfo then (vgaPrintf vgaMessage []).map some else some none
  let serial := if level ≤ logDebug then some (cString finalMessage) else none
  return ⟨screen, serial⟩

/-- `printk`, in the source file `file`. -/
def printk (level : UInt8) (file fmt : List UInt8) (args : List Arg) : Option Logged := do
  let (_, tmp) ← sprintf charBuffer fmt args
  printkMessage level file tmp

/-- `klog`. -/
def klog (file fmt : List UInt8) (args : List Arg) : Option Logged := printk logDebug file fmt args

variable {tag message text s : List UInt8} {level : UInt8}

theorem charBuffer_length : charBuffer.length = 512 := List.length_replicate

/-! ### Formats with `%s` -/

/-- `%s`. -/
def strDirective : Directive where
  width := []
  conv := 's'.toUInt8
  width_digits := List.forall_mem_nil _
  width_fits := by decide
  conv_ne_zero := by decide
  conv_not_digit := by decide

/-- A string of any length is put as it is. -/
theorem emits_str {pieces : List Piece} {args : List Arg} (t : List UInt8)
    (hs : ∀ c ∈ s, c ≠ 0) (rest : Emits pieces args text) :
    Emits (.dir strDirective :: pieces) (.str (s ++ 0 :: t) :: args) (s ++ text) := by
  have hconv := converts_str 0 t args hs
  rw [Nat.zero_sub, List.replicate_zero, List.nil_append] at hconv
  exact Emits.dir strDirective s hconv rest

/-- A string between two literal texts. -/
theorem sprintf_between {before behind : List UInt8} (dest t : List UInt8)
    (hbefore : (∀ c ∈ before, c ≠ 0) ∧ '%'.toUInt8 ∉ before)
    (hbehind : (∀ c ∈ behind, c ≠ 0) ∧ '%'.toUInt8 ∉ behind) (hs : ∀ c ∈ s, c ≠ 0) :
    sprintf dest (before ++ (ascii "%s" ++ behind) ++ [0]) [.str (s ++ 0 :: t)] =
      textIn dest (before ++ (s ++ behind)) := by
  obtain ⟨last, hlast, hend⟩ := emits_literal hbehind.1 hbehind.2 (Emits.done [])
  obtain ⟨all, hall, he⟩ := emits_literal hbefore.1 hbefore.2 (emits_str t hs hend)
  have hsource : all.flatMap Piece.source = before ++ (ascii "%s" ++ behind) := by
    rw [hall, List.flatMap_cons, hlast, List.flatMap_nil, List.append_nil]
    rfl
  have hsprintf := sprintf_of_emits dest [] he
  rw [hsource, List.append_nil] at hsprintf
  exact hsprintf

/-- `[tag] message`. -/
def serialLine (tag message : List UInt8) : List UInt8 :=
  '['.toUInt8 :: (tag ++ ']'.toUInt8 :: ' '.toUInt8 :: message)

theorem serialLine_length (tag message : List UInt8) :
    (serialLine tag message).length = tag.length + message.length + 3 := by
  unfold serialLine
  simp only [List.length_cons, List.length_append]
  omega

theorem serialLine_ne_zero (htag : ∀ c ∈ tag, c ≠ 0) (hmessage : ∀ c ∈ message, c ≠ 0) :
    ∀ c ∈ serialLine tag message, c ≠ 0 := by
  intro c hc
  unfold serialLine at hc
  rcases List.mem_cons.mp hc with rfl | hc
  · decide
  · rcases List.mem_append.mp hc with hc | hc
    · exact htag c hc
    · rcases List.mem_cons.mp hc with rfl | hc
      · decide
      · rcases List.mem_cons.mp hc with rfl | hc
        · decide
        · exact hmessage c hc

/-- The line for the serial port. -/
theorem sprintf_serialLine (dest t t' : List UInt8) (htag : ∀ c ∈ tag, c ≠ 0)
    (hmessage : ∀ c ∈ message, c ≠ 0) :
    sprintf dest (ascii "[%s] %s" ++ [0]) [.str (tag ++ 0 :: t), .str (message ++ 0 :: t')] =
      textIn dest (serialLine tag message) := by
  have hend := emits_str t' hmessage (Emits.done [])
  rw [List.append_nil] at hend
  have hemits := Emits.lit '['.toUInt8 (by decide) (by decide)
    (emits_str t htag (Emits.lit ']'.toUInt8 (by decide) (by decide)
      (Emits.lit ' '.toUInt8 (by decide) (by decide) hend)))
  exact sprintf_of_emits dest [] hemits

/-! ### One message -/

/-- **What `_printk` does** with a message that fits into its buffer. -/
theorem printkMessage_eq (level : UInt8) (t t' : List UInt8) (htag : ∀ c ∈ tag, c ≠ 0)
    (hmessage : ∀ c ∈ message, c ≠ 0) (hlen : message.length ≤ 511) :
    printkMessage level (tag ++ 0 :: t) (message ++ 0 :: t') =
      if (serialLine tag message).length < 512 then
        (if level ≥ logInfo then
          (vgaPrintf (message ++ 0 :: List.replicate (511 - message.length) 0) []).map some
        else some none).map fun screen =>
          ⟨screen, if level ≤ logDebug then some (serialLine tag message) else none⟩
      else none := by
  have hsize := charBuffer_length
  have hstrlen := strlen_spec (t := t') hmessage (by unfold maxStringLen; omega)
  have hcopy := strncpy_spec (a := charBuffer) (t := t') hmessage (by omega)
  have hrest : charBuffer.drop (message.length + 1) = List.replicate (511 - message.length) 0 := by
    unfold charBuffer
    rw [List.drop_replicate, Nat.add_comm, ← Nat.sub_sub]
  rw [hrest] at hcopy
  unfold printkMessage
  rw [sprintf_serialLine charBuffer t t' htag hmessage]
  unfold textIn
  rw [hsize]
  by_cases hfits : (serialLine tag message).length < 512
  · have hline := cString_terminated (t := charBuffer.drop ((serialLine tag message).length + 1))
      (serialLine_ne_zero htag hmessage)
    rw [if_pos hfits, if_pos hfits, Option.map_eq_bind]
    simp only [Option.bind_eq_bind, Option.bind_some, hstrlen, hcopy, hline]
    by_cases hlevel : level ≥ logInfo
    · rw [if_pos hlevel, if_pos hlevel]
      rfl
    · rw [if_neg hlevel, if_neg hlevel]
      rfl
  · rw [if_neg hfits, if_neg hfits]
    rfl

/-- **`klog`** of a text: the line goes to the serial port if all of it fits into one buffer. -/
theorem klog_eq {file fmt : List UInt8} {args : List Arg} (t : List UInt8)
    (hfile : ∀ c ∈ file, c ≠ 0) (htext : ∀ c ∈ text, c ≠ 0)
    (hfmt : sprintf charBuffer fmt args = textIn charBuffer text) :
    klog (file ++ 0 :: t) fmt args =
      if file.length + text.length + 3 ≤ 511 then some ⟨none, some (serialLine file text)⟩
      else none := by
  have hline := serialLine_length file text
  unfold klog printk
  rw [hfmt]
  unfold textIn
  rw [charBuffer_length]
  by_cases hfits : text.length < 512
  · rw [if_pos hfits, Option.bind_eq_bind, Option.bind_some]
    show printkMessage logDebug (file ++ 0 :: t) (text ++ 0 :: _) = _
    rw [printkMessage_eq logDebug t _ hfile htext (by omega)]
    by_cases hall : (serialLine file text).length < 512
    · have hsum : file.length + text.length + 3 ≤ 511 := by omega
      have hdebug : ¬ logDebug ≥ logInfo := by decide
      rw [if_pos hall, if_neg hdebug, if_pos hsum]
      rfl
    · rw [if_neg hall, if_neg (by omega)]
  · rw [if_neg hfits, if_neg (by omega)]
    rfl

/-- The tag and the message come out as they were written: the line at the serial port if the level
    is at most `LOG_DEBUG`, the message on the screen if it is at least `LOG_INFO`. -/
def LogsAsWritten (level : UInt8) (tag message : List UInt8) : Prop :=
  ∀ t t' : List UInt8, printkMessage level (tag ++ 0 :: t) (message ++ 0 :: t') =
    some ⟨if level ≥ logInfo then some message else none,
      if level ≤ logDebug then some (serialLine tag message) else none⟩

/-- A message for the screen has no `%`. -/
theorem vgaPrintf_eq_self (hmessage : ∀ c ∈ message, c ≠ 0) (hlen : message.length ≤ 511) :
    vgaPrintf (message ++ 0 :: List.replicate (511 - message.length) 0) [] = some message ↔
      '%'.toUInt8 ∉ message := by
  have hsize := charBuffer_length
  unfold vgaPrintf
  constructor
  · intro h hpercent
    obtain ⟨r, hrun, hstring⟩ := Option.bind_eq_some_iff.mp h
    exact sprintf_not_verbatim _ hmessage hpercent hrun (Option.some.inj hstring)
  · intro hpercent
    have hline := cString_terminated (t := charBuffer.drop (message.length + 1)) hmessage
    rw [sprintf_verbatim _ _ _ hmessage hpercent, textIn, if_pos (by omega)]
    simp only [Option.bind_eq_bind, Option.bind_some, hline]
    rfl

theorem LogsAsWritten.fits (h : LogsAsWritten level tag message) (htag : ∀ c ∈ tag, c ≠ 0)
    (hmessage : ∀ c ∈ message, c ≠ 0) (hlen : message.length ≤ 511) :
    tag.length + message.length + 3 ≤ 511 ∧ (level ≥ logInfo → '%'.toUInt8 ∉ message) := by
  have hline := serialLine_length tag message
  have hrun := h [] []
  rw [printkMessage_eq level [] [] htag hmessage hlen] at hrun
  by_cases hfits : (serialLine tag message).length < 512
  · refine ⟨by omega, fun hlevel => (vgaPrintf_eq_self hmessage hlen).mp ?_⟩
    rw [if_pos hfits, if_pos hlevel, if_pos hlevel, Option.map_map] at hrun
    obtain ⟨shown, hshown, hlogged⟩ := Option.map_eq_some_iff.mp hrun
    have hsame : some shown = some message := congrArg Logged.screen hlogged
    rw [hshown, hsame]
  · rw [if_neg hfits] at hrun
    exact absurd hrun.symm (Option.some_ne_none _)

/-- **Log lines come out as written** exactly if the tag and the message fit into one buffer, and
the message has no `%` when it goes to the screen. -/
theorem printk_asWritten (level : UInt8) (tag message : List UInt8) (htag : ∀ c ∈ tag, c ≠ 0)
    (hmessage : ∀ c ∈ message, c ≠ 0) (hlen : message.length ≤ 511) :
    LogsAsWritten level tag message ↔
      tag.length + message.length + 3 ≤ 511 ∧ (level ≥ logInfo → '%'.toUInt8 ∉ message) := by
  constructor
  · exact fun h => h.fits htag hmessage hlen
  · rintro ⟨hfits, hpercent⟩ t t'
    have hline := serialLine_length tag message
    rw [printkMessage_eq level t t' htag hmessage hlen, if_pos (by omega)]
    by_cases hlevel : level ≥ logInfo
    · have hscreen := (vgaPrintf_eq_self hmessage hlen).mpr (hpercent hlevel)
      rw [if_pos hlevel, if_pos hlevel, hscreen]
      rfl
    · rw [if_neg hlevel, if_neg hlevel]
      rfl

/-- A line of one character without a tag. -/
theorem printk_asWritten_char :
    LogsAsWritten logInfo [] ['a'.toUInt8] ↔
      ([] : List UInt8).length + ['a'.toUInt8].length + 3 ≤ 511 ∧
        (logInfo ≥ logInfo → '%'.toUInt8 ∉ ['a'.toUInt8]) :=
  printk_asWritten logInfo [] ['a'.toUInt8] (List.forall_mem_nil _)
    (List.forall_mem_singleton.mpr (by decide)) (by decide)

/-- A percent sign is lost on its way to the screen. -/
theorem printk_loses_percent :
    ¬ ∀ (level : UInt8) (tag message : List UInt8), (∀ c ∈ tag, c ≠ 0) →
      (∀ c ∈ message, c ≠ 0) → message.length ≤ 511 → LogsAsWritten level tag message := by
  intro h
  have hnull : ∀ c ∈ ['%'.toUInt8], c ≠ 0 := List.forall_mem_singleton.mpr (by decide)
  have hlogs := h logInfo [] ['%'.toUInt8] (List.forall_mem_nil _) hnull (by decide)
  obtain ⟨-, hpercent⟩ := hlogs.fits (List.forall_mem_nil _) hnull (by decide)
  exact hpercent (by decide) (List.mem_singleton.mpr rfl)

end Rotary

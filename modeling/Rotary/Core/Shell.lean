import Rotary.Core.Strings

namespace Rotary

/-!
# The line editor of the shell (`kernel/core/shell.c`)

`shell_keyboard_handler` keeps the line that is being typed in `input_buffer`, as a string and
nothing else: every key measures it again with `strlen`.  Neither end of the array is looked after.
Backspace on an empty line clears the character in front of the array, and the 256th character of a
line is put where the terminator belongs and the terminator behind the array.

* `typed` — the line that the keys spell;
* `StepFits` — the condition on a key and the line before it;
* `shellKeyboardHandler_fits` / `shellKeyboardHandler_outside` — one key, as it meets the condition
  or not;
* `lineEditor_inBounds` — the buffer holds the line after every key exactly when all keys meet it.

The command that Enter submits only reads the buffer.  What the handler puts on the screen is left
out.
-/

/-! ### The code -/

/-- `KEY_ENTER`. -/
def keyEnter : UInt8 := 0x1C

/-- `KEY_BACKSPACE`. -/
def keyBackspace : UInt8 := 0x0E

/-- `shell_delete_from_input_buffer`; for an empty string the last index wraps around. -/
def shellDeleteFromInputBuffer (inputBuffer : List UInt8) : Option (List UInt8) := do
  let length ← strlen inputBuffer
  let inputBuffer ← put inputBuffer length 0
  let length ← strlen inputBuffer
  if length = 0 then none else put inputBuffer (length - 1) 0

/-- `shell_clear_input_buffer`. -/
def shellClearInputBuffer (inputBuffer : List UInt8) : Option (List UInt8) :=
  clearFrom 256 0 inputBuffer

/-- `shell_keyboard_handler`; the key with a null character behind it is the string that is
    appended. -/
def shellKeyboardHandler (inputBuffer : List UInt8) (key : UInt8) : Option (List UInt8) :=
  if key = keyEnter then shellClearInputBuffer inputBuffer
  else if key = keyBackspace then shellDeleteFromInputBuffer inputBuffer
  else if key ≠ 0 then strcat inputBuffer [key, 0]
  else some inputBuffer

/-- The buffer after a sequence of keys. -/
def shellKeys (keys : List UInt8) : Option (List UInt8) :=
  keys.foldlM shellKeyboardHandler (List.replicate 256 0)

/-! ### The line that is typed -/

/-- The line after one more key: Enter begins another line, Backspace takes the last character off
    if there is one, and any other key is added while it fits. -/
def afterKey (line : List UInt8) (key : UInt8) : List UInt8 :=
  if key = keyEnter then []
  else if key = keyBackspace then line.dropLast
  else if key ≠ 0 ∧ line.length < 255 then line ++ [key]
  else line

/-- The line that a sequence of keys spells. -/
def typed (keys : List UInt8) : List UInt8 := keys.foldl afterKey []

/-- The buffer holds the line as a string. -/
structure HoldsLine (inputBuffer line : List UInt8) : Prop where
  size : inputBuffer.length = 256
  line_le : line.length ≤ 255
  line_ne_zero : ∀ c ∈ line, c ≠ 0
  terminated : ∃ rest, inputBuffer = line ++ 0 :: rest

/-- There is a character to delete, or room for one more. -/
def StepFits (line : List UInt8) (key : UInt8) : Prop :=
  (key = keyBackspace → line ≠ []) ∧
    (key ≠ keyEnter → key ≠ keyBackspace → key ≠ 0 → line.length < 255)

variable {inputBuffer line keys : List UInt8} {key : UInt8}

/-! ### One key -/

theorem clearFrom_spec {a : List UInt8} (n : ℕ) (out : List UInt8)
    (hroom : out.length + n ≤ a.length) :
    clearFrom n out.length (filled a out) = some (filled a (out ++ List.replicate n 0)) := by
  induction n generalizing out with
  | zero => rw [clearFrom, List.replicate_zero, List.append_nil]
  | succ n ih =>
    have htail := ih (out ++ [0]) (by rw [List.length_append, List.length_singleton]; omega)
    rw [List.length_append, List.length_singleton, List.append_assoc, List.singleton_append,
      ← List.replicate_succ] at htail
    rw [clearFrom, put_filled a out 0 (by omega), Option.bind_eq_bind, Option.bind_some, htail]

theorem HoldsLine.strlen_eq (h : HoldsLine inputBuffer line) :
    strlen inputBuffer = some line.length := by
  obtain ⟨rest, rfl⟩ := h.terminated
  have hle := h.line_le
  exact strlen_spec h.line_ne_zero (by unfold maxStringLen; omega)

/-- The buffer that the keys begin with. -/
theorem holdsLine_empty : HoldsLine (List.replicate 256 0) [] := by
  have hcons : List.replicate 256 (0 : UInt8) = 0 :: List.replicate 255 0 := List.replicate_succ
  exact ⟨List.length_replicate, Nat.zero_le _, List.forall_mem_nil _, _, hcons⟩

/-- Enter leaves an empty line. -/
theorem HoldsLine.clear (h : HoldsLine inputBuffer line) :
    shellClearInputBuffer inputBuffer = some (List.replicate 256 0) := by
  have hclear := clearFrom_spec (a := inputBuffer) 256 [] (by rw [h.size]; exact Nat.le_refl _)
  have hall : filled inputBuffer (List.replicate 256 0) = List.replicate 256 0 := by
    unfold filled
    rw [List.length_replicate, List.drop_eq_nil_of_le (Nat.le_of_eq h.size), List.append_nil]
  rw [List.nil_append, hall] at hclear
  exact hclear

/-- Backspace takes the last character off. -/
theorem HoldsLine.delete (h : HoldsLine inputBuffer line) (hne : line ≠ []) :
    ∃ buffer, shellDeleteFromInputBuffer inputBuffer = some buffer ∧
      HoldsLine buffer line.dropLast := by
  have hlen := h.strlen_eq
  have hpos := List.length_pos_iff.mpr hne
  obtain ⟨rest, hbuffer⟩ := h.terminated
  have hfirst : put inputBuffer line.length 0 = some inputBuffer := by
    rw [hbuffer]
    exact put_append line rest 0 0
  -- the terminator moves forward by one
  obtain ⟨init, c, hline⟩ := (List.eq_nil_or_concat line).resolve_left hne
  rw [List.concat_eq_append] at hline
  have hsecond : put inputBuffer (line.length - 1) 0 = some (init ++ 0 :: 0 :: rest) := by
    have hput := put_append init (0 :: rest) c 0
    have hsplit : inputBuffer = init ++ c :: 0 :: rest := by
      rw [hbuffer, hline, List.append_assoc, List.singleton_append]
    have hindex : line.length - 1 = init.length := by
      rw [hline, List.length_append, List.length_singleton, Nat.add_sub_cancel]
    rw [hsplit, hindex, hput]
  have hdrop : line.dropLast = init := by rw [hline, List.dropLast_concat]
  refine ⟨init ++ 0 :: 0 :: rest, ?_, ?_, ?_, ?_, ?_⟩
  · unfold shellDeleteFromInputBuffer
    simp only [Option.bind_eq_bind, hlen, Option.bind_some, hfirst]
    rw [if_neg (by omega), hsecond]
  · have hsize := h.size
    rw [hbuffer, hline] at hsize
    simpa using hsize
  · have hle := h.line_le
    rw [List.length_dropLast]
    omega
  · intro d hd
    exact h.line_ne_zero d (List.mem_of_mem_dropLast hd)
  · rw [hdrop]
    exact ⟨0 :: rest, rfl⟩

/-- A key that fits is added. -/
theorem HoldsLine.insert (h : HoldsLine inputBuffer line) (hkey : key ≠ 0)
    (hfits : line.length < 255) :
    ∃ buffer, strcat inputBuffer [key, 0] = some buffer ∧ HoldsLine buffer (line ++ [key]) := by
  obtain ⟨rest, rfl⟩ := h.terminated
  have hsize := h.size
  rw [List.length_append, List.length_cons] at hsize
  have hnull : ∀ c ∈ [key], c ≠ 0 := List.forall_mem_singleton.mpr hkey
  have hcat := strcat_spec rest [] h.line_ne_zero (by unfold maxStringLen; omega) hnull
    (by rw [List.length_singleton]; omega)
  refine ⟨_, hcat, ?_, ?_, ?_, ⟨_, rfl⟩⟩
  · simp only [List.length_append, List.length_cons, List.length_drop, List.length_nil]
    omega
  · rw [List.length_append, List.length_singleton]
    exact hfits
  · intro c hc
    rcases List.mem_append.mp hc with hc | hc
    · exact h.line_ne_zero c hc
    · rw [List.mem_singleton.mp hc]
      exact hkey

/-- **A key that meets the condition.** -/
theorem shellKeyboardHandler_fits (h : HoldsLine inputBuffer line) (hfits : StepFits line key) :
    ∃ buffer, shellKeyboardHandler inputBuffer key = some buffer ∧
      HoldsLine buffer (afterKey line key) := by
  unfold shellKeyboardHandler afterKey
  by_cases henter : key = keyEnter
  · rw [if_pos henter, if_pos henter]
    exact ⟨_, h.clear, holdsLine_empty⟩
  · rw [if_neg henter, if_neg henter]
    by_cases hback : key = keyBackspace
    · rw [if_pos hback, if_pos hback]
      exact h.delete (hfits.1 hback)
    · rw [if_neg hback, if_neg hback]
      by_cases hkey : key = 0
      · rw [if_neg (not_not.mpr hkey), if_neg fun hand => hand.1 hkey]
        exact ⟨inputBuffer, rfl, h⟩
      · have hroom := hfits.2 henter hback hkey
        rw [if_pos hkey, if_pos ⟨hkey, hroom⟩]
        exact h.insert hkey hroom

/-- **A key that does not** makes the handler write outside of the buffer. -/
theorem shellKeyboardHandler_outside (h : HoldsLine inputBuffer line)
    (hfits : ¬ StepFits line key) : shellKeyboardHandler inputBuffer key = none := by
  have hlen := h.strlen_eq
  have hsize := h.size
  obtain ⟨rest, hbuffer⟩ := h.terminated
  unfold shellKeyboardHandler
  rcases not_and_or.mp hfits with hback | hfull
  · -- the character in front of an empty line
    obtain ⟨rfl, hempty⟩ := Classical.not_imp.mp hback
    have hnil : line = [] := not_not.mp hempty
    rw [hnil] at hlen hbuffer
    have hput : put inputBuffer 0 0 = some inputBuffer := by
      rw [hbuffer]
      exact put_append [] rest 0 0
    rw [if_neg (by decide), if_pos rfl]
    unfold shellDeleteFromInputBuffer
    simp only [List.length_nil] at hlen
    simp only [Option.bind_eq_bind, hlen, Option.bind_some, hput, if_true]
  · -- the terminator behind a full line
    obtain ⟨henter, hback⟩ := Classical.not_imp.mp hfull
    obtain ⟨hback, hkey⟩ := Classical.not_imp.mp hback
    obtain ⟨hkey, hroom⟩ := Classical.not_imp.mp hkey
    have hle := h.line_le
    have hlast : rest = [] := by
      rw [hbuffer, List.length_append, List.length_cons] at hsize
      exact List.length_eq_zero_iff.mp (by omega)
    have hput : put inputBuffer line.length key = some (line ++ [key]) := by
      rw [hbuffer, hlast]
      exact put_append line [] 0 key
    have hnull : put (line ++ [key]) (line.length + 1) 0 = none := by
      unfold put
      rw [if_neg (by simp)]
    rw [if_neg henter, if_neg hback, if_pos hkey]
    unfold strcat
    rw [hlen, Option.bind_eq_bind, Option.bind_some, strcatFrom, if_pos hkey, hput,
      Option.bind_eq_bind, Option.bind_some, strcatFrom, if_neg (not_not.mpr rfl), hnull]

/-! ### Runs -/

theorem shellKeys_concat (pre : List UInt8) (key : UInt8) :
    shellKeys (pre ++ [key]) =
      (shellKeys pre).bind fun buffer => shellKeyboardHandler buffer key := by
  unfold shellKeys
  rw [List.foldlM_append]
  simp only [List.foldlM_cons, List.foldlM_nil, Option.bind_eq_bind, bind_pure]

theorem typed_concat (pre : List UInt8) (key : UInt8) :
    typed (pre ++ [key]) = afterKey (typed pre) key := by
  unfold typed
  rw [List.foldl_append]
  rfl

/-- After every key the buffer holds the line that has been typed, and no key has written outside
    of it. -/
def InBounds (keys : List UInt8) : Prop :=
  ∀ pre, pre <+: keys → ∃ buffer, shellKeys pre = some buffer ∧ HoldsLine buffer (typed pre)

/-- Every key meets the condition. -/
def Fits (keys : List UInt8) : Prop :=
  ∀ pre key, pre ++ [key] <+: keys → StepFits (typed pre) key

theorem Fits.inBounds (h : Fits keys) : InBounds keys := by
  intro pre
  induction pre using List.reverseRecOn with
  | nil => exact fun _ => ⟨_, rfl, holdsLine_empty⟩
  | append_singleton pre key ih =>
    intro hprefix
    obtain ⟨buffer, hrun, hholds⟩ := ih ((List.prefix_append pre [key]).trans hprefix)
    obtain ⟨next, hstep, hnext⟩ := shellKeyboardHandler_fits hholds (h pre key hprefix)
    refine ⟨next, ?_, ?_⟩
    · rw [shellKeys_concat, hrun, Option.bind_some, hstep]
    · rw [typed_concat]
      exact hnext

theorem InBounds.fits (h : InBounds keys) : Fits keys := by
  intro pre key hprefix
  by_contra hnot
  obtain ⟨buffer, hrun, hholds⟩ := h pre ((List.prefix_append pre [key]).trans hprefix)
  obtain ⟨next, hnext, -⟩ := h (pre ++ [key]) hprefix
  have hnone := shellKeyboardHandler_outside hholds hnot
  rw [shellKeys_concat, hrun, Option.bind_some, hnone] at hnext
  exact Option.some_ne_none next hnext.symm

/-- **The line editor stays in bounds** and shows what has been typed exactly as long as Backspace
is only pressed on a line with characters, and other keys only on a line with room. -/
theorem lineEditor_inBounds (keys : List UInt8) : InBounds keys ↔ Fits keys :=
  ⟨InBounds.fits, Fits.inBounds⟩

/-- Backspace as the first key. -/
theorem lineEditor_leaves_bounds : ¬ ∀ keys : List UInt8, InBounds keys := by
  intro h
  have hfits := (h [keyBackspace]).fits [] keyBackspace (List.prefix_refl _)
  exact hfits.1 rfl rfl

end Rotary

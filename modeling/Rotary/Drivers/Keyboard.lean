import Mathlib.Data.List.Basic
import Rotary.Core.Machine

namespace Rotary

/-!
# The keyboard (`kernel/drivers/input/keyboard/keyboard.c`)

A scan code is translated and passed to every handler that has been registered.  Handlers are kept
in an array of 256 pointers, a registration takes the first one that is null, and once there is
none left a registration does nothing and reports success all the same.

* `scanCodeTable` — the translation;
* `HoldsHandlers` — the handlers in the array, in the order of their registration;
* `keyboardRun_eq` — registrations and scan codes in any order: each scan code reaches the handlers
  registered so far, one after the other.

What a handler does to the rest of the kernel is a parameter.
-/

/-! ### The code -/

/-- `MAX_INTERRUPT_HANDLERS`. -/
def maxInterruptHandlers : ℕ := 256

/-- The cases of `keyboard_translate_scan_code` from `0x00` to `0x3C`, eight in a line. -/
def scanCodeTable : List UInt8 :=
  [0x00, 0x00, 0x02, '2'.toUInt8, '3'.toUInt8, '4'.toUInt8, '5'.toUInt8, '6'.toUInt8,
    '7'.toUInt8, '8'.toUInt8, '9'.toUInt8, '0'.toUInt8, '-'.toUInt8, '='.toUInt8, 0x0E, 0x0F,
    'q'.toUInt8, 'w'.toUInt8, 'e'.toUInt8, 'r'.toUInt8, 't'.toUInt8, 'y'.toUInt8, 'u'.toUInt8,
    'i'.toUInt8,
    'o'.toUInt8, 'p'.toUInt8, '['.toUInt8, ']'.toUInt8, 0x1C, 0x1D, 'a'.toUInt8, 's'.toUInt8,
    'd'.toUInt8, 'f'.toUInt8, 'g'.toUInt8, 'h'.toUInt8, 'j'.toUInt8, 'k'.toUInt8, 'l'.toUInt8,
    ';'.toUInt8,
    0x27, 0x60, 0x2A, 0x5C, 'z'.toUInt8, 'x'.toUInt8, 'c'.toUInt8, 'v'.toUInt8,
    'b'.toUInt8, 'n'.toUInt8, 'm'.toUInt8, ','.toUInt8, '.'.toUInt8, '/'.toUInt8, 0x36,
    '*'.toUInt8,
    0x38, ' '.toUInt8, 0x3A, 0x3B, 0x3C]

/-- `keyboard_translate_scan_code`. -/
def keyboardTranslateScanCode (scanCode : UInt8) : UInt8 := scanCodeTable.getD scanCode.toNat 0x00

/-- `keyboard_register_handler`: the first null pointer of the array is replaced. -/
def keyboardRegisterHandler (handlerAddr : ℕ) : List ℕ → List ℕ
  | [] => []
  | h :: handlers =>
    if h = 0 then handlerAddr :: handlers else h :: keyboardRegisterHandler handlerAddr handlers

variable {σ : Type}

/-- `keyboard_handle_input`; `kh` is what a call of a handler with a key does. -/
def keyboardHandleInput (kh : ℕ → UInt8 → σ → Option σ) (handlers : List ℕ) (keypress : UInt8)
    (s : σ) : Option σ :=
  let key := keyboardTranslateScanCode keypress
  handlers.foldlM (fun s h => if h ≠ 0 then kh h key s else some s) s

/-- A registration, or a scan code. -/
inductive KeyboardEvent
  | register (handlerAddr : ℕ)
  | input (keypress : UInt8)
  deriving DecidableEq, Repr

/-- Registrations and scan codes one after the other. -/
def keyboardRun (kh : ℕ → UInt8 → σ → Option σ) : List ℕ → σ → List KeyboardEvent → Option σ
  | _, s, [] => some s
  | handlers, s, .register a :: events =>
    keyboardRun kh (keyboardRegisterHandler a handlers) s events
  | handlers, s, .input keypress :: events =>
    (keyboardHandleInput kh handlers keypress s).bind fun s => keyboardRun kh handlers s events

/-! ### What it is for -/

/-- The handlers after one more registration: a null pointer is none, and there is room for 256. -/
def enroll (registered : List ℕ) (handlerAddr : ℕ) : List ℕ :=
  if handlerAddr ≠ 0 ∧ registered.length < maxInterruptHandlers then registered ++ [handlerAddr]
  else registered

/-- Every scan code goes to all handlers registered so far. -/
def keyboardSpec (kh : ℕ → UInt8 → σ → Option σ) : List ℕ → σ → List KeyboardEvent → Option σ
  | _, s, [] => some s
  | registered, s, .register a :: events => keyboardSpec kh (enroll registered a) s events
  | registered, s, .input keypress :: events =>
    (registered.foldlM (fun s h => kh h (keyboardTranslateScanCode keypress) s) s).bind fun s =>
      keyboardSpec kh registered s events

/-- The array holds the handlers, and null pointers behind them. -/
structure HoldsHandlers (handlers registered : List ℕ) : Prop where
  array : handlers = registered ++ List.replicate (maxInterruptHandlers - registered.length) 0
  ne_zero : ∀ h ∈ registered, h ≠ 0
  length_le : registered.length ≤ maxInterruptHandlers

variable {handlers registered : List ℕ} {kh : ℕ → UInt8 → σ → Option σ}

theorem holdsHandlers_nil : HoldsHandlers (List.replicate maxInterruptHandlers 0) [] :=
  ⟨rfl, List.forall_mem_nil _, Nat.zero_le _⟩

/-- A registration goes behind the handlers, into the first null pointer. -/
theorem keyboardRegisterHandler_append (a : ℕ) (hne : ∀ h ∈ registered, h ≠ 0) (free : List ℕ) :
    keyboardRegisterHandler a (registered ++ free) =
      registered ++ keyboardRegisterHandler a free := by
  induction registered with
  | nil => rfl
  | cons h registered ih =>
    have hh : h ≠ 0 := hne h List.mem_cons_self
    rw [List.cons_append, keyboardRegisterHandler, if_neg hh,
      ih fun x hx => hne x (List.mem_cons_of_mem h hx), List.cons_append]

theorem HoldsHandlers.register (h : HoldsHandlers handlers registered) (a : ℕ) :
    HoldsHandlers (keyboardRegisterHandler a handlers) (enroll registered a) := by
  have hle := h.length_le
  have hcall := keyboardRegisterHandler_append a h.ne_zero
    (List.replicate (maxInterruptHandlers - registered.length) 0)
  rw [← h.array] at hcall
  by_cases hroom : registered.length < maxInterruptHandlers
  · have hfree : maxInterruptHandlers - registered.length =
        maxInterruptHandlers - (registered.length + 1) + 1 := by omega
    rw [hfree, List.replicate_succ, keyboardRegisterHandler, if_pos rfl] at hcall
    by_cases ha : a = 0
    · -- a null pointer is put where one was
      have hsame : enroll registered a = registered := if_neg fun hand => hand.1 ha
      rw [hsame, hcall, ha, ← List.replicate_succ, ← hfree]
      exact ⟨rfl, h.ne_zero, hle⟩
    · have hnew : enroll registered a = registered ++ [a] := if_pos ⟨ha, hroom⟩
      rw [hnew, hcall]
      refine ⟨?_, ?_, ?_⟩
      · rw [List.append_assoc, List.singleton_append, List.length_append, List.length_singleton]
      · intro x hx
        rcases List.mem_append.mp hx with hx | hx
        · exact h.ne_zero x hx
        · rw [List.mem_singleton.mp hx]
          exact ha
      · rw [List.length_append, List.length_singleton]
        exact hroom
  · -- all pointers are taken
    have hsame : enroll registered a = registered := if_neg fun hand => hroom hand.2
    have hnone : maxInterruptHandlers - registered.length = 0 := by omega
    rw [hnone, List.replicate_zero, keyboardRegisterHandler, List.append_nil] at hcall
    rw [hsame, hcall]
    refine ⟨?_, h.ne_zero, hle⟩
    rw [hnone, List.replicate_zero, List.append_nil]

/-- Null pointers are passed over. -/
theorem foldlM_replicate_zero (key : UInt8) (n : ℕ) (s : σ) :
    (List.replicate n 0).foldlM (fun s h => if h ≠ 0 then kh h key s else some s) s = some s := by
  induction n with
  | zero => rfl
  | succ n ih =>
    rw [List.replicate_succ, List.foldlM_cons, if_neg (not_not.mpr rfl)]
    exact ih

theorem foldlM_registered (key : UInt8) (hne : ∀ h ∈ registered, h ≠ 0) (s : σ) :
    registered.foldlM (fun s h => if h ≠ 0 then kh h key s else some s) s =
      registered.foldlM (fun s h => kh h key s) s := by
  induction registered generalizing s with
  | nil => rfl
  | cons h registered ih =>
    rw [List.foldlM_cons, List.foldlM_cons, if_pos (hne h List.mem_cons_self)]
    exact congrArg _ (funext fun s' => ih (fun x hx => hne x (List.mem_cons_of_mem h hx)) s')

/-- **A scan code** goes to the handlers that the array holds. -/
theorem HoldsHandlers.handleInput (h : HoldsHandlers handlers registered) (keypress : UInt8)
    (s : σ) :
    keyboardHandleInput kh handlers keypress s =
      registered.foldlM (fun s h => kh h (keyboardTranslateScanCode keypress) s) s := by
  unfold keyboardHandleInput
  rw [h.array, List.foldlM_append, foldlM_registered _ h.ne_zero]
  simp only [foldlM_replicate_zero]
  exact bind_pure _

theorem HoldsHandlers.run (h : HoldsHandlers handlers registered) (events : List KeyboardEvent)
    (s : σ) :
    keyboardRun kh handlers s events = keyboardSpec kh registered s events := by
  induction events generalizing handlers registered s with
  | nil => rfl
  | cons event events ih =>
    cases event with
    | register a => exact ih (h.register a) s
    | input keypress =>
      rw [keyboardRun, keyboardSpec, h.handleInput]
      exact congrArg _ (funext fun s' => ih h s')

end Rotary

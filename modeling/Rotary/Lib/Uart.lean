import Mathlib.Logic.Function.Iterate
import Mathlib.Logic.Function.Basic
import Mathlib.Order.Basic
import Mathlib.Data.Nat.Init

namespace Rotary.Lib

/-!
# Serial ports of the 16550 family

A port sends the bytes that are written to its register 0, one after the other, at a rate of its
own.  What is written while it has no room for another byte is lost.  In loopback mode the bytes do
not go out on the line, but come back as if they had been received.  A bit of the line control
register gives registers 0 and 1 to the divisor of the rate.

* `Uart` — the registers and what has gone out; `Uart.read` and `Uart.write`;
* `Uart.sent` — what is on the line or on its way there;
* `SerialIo` — several ports, which go on by themselves between two accesses;
* `SerialIo.drains` — a port that goes on sends all that it holds.

Left out are the interrupts, the modem lines and what the line itself receives: registers that only
concern these are read as zero.
-/

/-- A serial port.  `waiting` are the bytes that are still to be sent, `depth` how many there may
    be; `line` is all that has gone out. -/
structure Uart where
  depth : ℕ
  waiting : List UInt8
  line : List UInt8
  received : UInt8
  ready : Bool
  ier : UInt8
  fcr : UInt8
  lcr : UInt8
  mcr : UInt8
  scratch : UInt8
  divisorLow : UInt8
  divisorHigh : UInt8

namespace Uart

variable {u : Uart} {reg n : ℕ} {value byte : UInt8}

/-- Registers 0 and 1 are the divisor. -/
def dlab (u : Uart) : Bool := decide (u.lcr &&& 0x80 ≠ 0)

def loopback (u : Uart) : Bool := decide (u.mcr &&& 0x10 ≠ 0)

/-- One byte is sent. -/
def shift (u : Uart) : Uart :=
  match u.waiting with
  | [] => u
  | byte :: rest =>
    if u.loopback then { u with waiting := rest, received := byte, ready := true }
    else { u with waiting := rest, line := u.line ++ [byte] }

/-- A byte for the transmitter. -/
def transmit (u : Uart) (byte : UInt8) : Uart :=
  if u.waiting.length < u.depth then { u with waiting := u.waiting ++ [byte] } else u

/-- Bits 1 and 2 of the FIFO control register clear the receiver and the transmitter. -/
def fifoControl (u : Uart) (value : UInt8) : Uart :=
  { u with
    fcr := value
    ready := if value &&& 0x02 ≠ 0 then false else u.ready
    waiting := if value &&& 0x04 ≠ 0 then [] else u.waiting }

/-- A write to a register; the status registers 5 and 6 are read-only. -/
def write (u : Uart) (reg : ℕ) (value : UInt8) : Uart :=
  match reg with
  | 0 => if u.dlab then { u with divisorLow := value } else u.transmit value
  | 1 => if u.dlab then { u with divisorHigh := value } else { u with ier := value }
  | 2 => u.fifoControl value
  | 3 => { u with lcr := value }
  | 4 => { u with mcr := value }
  | 7 => { u with scratch := value }
  | _ => u

/-- The line status register: bit 0 for a byte that has been received, bits 5 and 6 for a
    transmitter that has nothing to send. -/
def lineStatus (u : Uart) : UInt8 :=
  (if u.ready then 0x01 else 0) ||| (if u.waiting = [] then 0x60 else 0)

/-- A read from a register. -/
def read (u : Uart) (reg : ℕ) : UInt8 × Uart :=
  match reg with
  | 0 => if u.dlab then (u.divisorLow, u) else (u.received, { u with ready := false })
  | 1 => (if u.dlab then u.divisorHigh else u.ier, u)
  | 3 => (u.lcr, u)
  | 4 => (u.mcr, u)
  | 5 => (u.lineStatus, u)
  | 7 => (u.scratch, u)
  | _ => (0, u)

/-- All but the bytes on their way. -/
def settings (u : Uart) : Uart :=
  { u with waiting := [], line := [], received := 0, ready := false }

/-- What is on the line or will be there. -/
def sent (u : Uart) : List UInt8 := if u.loopback then u.line else u.line ++ u.waiting

theorem settings_loopback {u' : Uart} (h : u'.settings = u.settings) :
    u'.loopback = u.loopback := by
  show u'.settings.loopback = u.settings.loopback
  rw [h]

theorem shift_settings (u : Uart) : u.shift.settings = u.settings := by
  unfold shift
  split
  · rfl
  · split <;> rfl

theorem shift_waiting (u : Uart) : u.shift.waiting = u.waiting.drop 1 := by
  unfold shift
  cases h : u.waiting with
  | nil => simp [h]
  | cons byte rest =>
    by_cases hl : u.loopback = true
    · simp [hl]
    · simp [hl]

theorem shift_sent (u : Uart) : u.shift.sent = u.sent := by
  have hloop : u.shift.loopback = u.loopback := settings_loopback u.shift_settings
  unfold sent
  rw [hloop]
  unfold shift
  cases h : u.waiting with
  | nil => simp [h]
  | cons byte rest =>
    by_cases hl : u.loopback = true
    · simp [hl]
    · simp [hl]

theorem iterate_settings (u : Uart) (n : ℕ) : (shift^[n] u).settings = u.settings := by
  induction n with
  | zero => rfl
  | succ n ih => rw [Function.iterate_succ_apply', shift_settings, ih]

theorem iterate_waiting (u : Uart) (n : ℕ) : (shift^[n] u).waiting = u.waiting.drop n := by
  induction n with
  | zero => rfl
  | succ n ih => rw [Function.iterate_succ_apply', shift_waiting, ih, List.drop_drop]

/-- Nothing is sent by a port that holds nothing. -/
theorem iterate_idle (hempty : u.waiting = []) (n : ℕ) : shift^[n] u = u := by
  have hshift : u.shift = u := by
    unfold shift
    rw [hempty]
  exact Function.iterate_fixed hshift n

/-- A port that is not in loopback mode only sends. -/
theorem iterate_eq (hloop : u.loopback = false) (n : ℕ) :
    ∃ waiting line, shift^[n] u = { u with waiting := waiting, line := line } := by
  induction n with
  | zero => exact ⟨u.waiting, u.line, rfl⟩
  | succ n ih =>
    obtain ⟨waiting, line, hn⟩ := ih
    have hloop' : ({ u with waiting := waiting, line := line } : Uart).loopback = false := hloop
    rw [Function.iterate_succ_apply', hn]
    unfold shift
    rw [hloop']
    split
    · exact ⟨_, _, rfl⟩
    · exact ⟨_, _, rfl⟩

/-- The first byte that a port in loopback mode sends is received. -/
theorem iterate_loopback (hloop : u.loopback = true) (hone : u.waiting = [byte]) (hn : 0 < n) :
    shift^[n] u = { u with waiting := [], received := byte, ready := true } := by
  obtain ⟨m, rfl⟩ : ∃ m, n = m + 1 := ⟨n - 1, by omega⟩
  have hfirst : u.shift = { u with waiting := [], received := byte, ready := true } := by
    unfold shift
    rw [hone, hloop]
    rfl
  rw [Function.iterate_succ_apply, hfirst]
  exact iterate_idle rfl m

theorem iterate_sent (u : Uart) (n : ℕ) : (shift^[n] u).sent = u.sent := by
  induction n with
  | zero => rfl
  | succ n ih => rw [Function.iterate_succ_apply', shift_sent, ih]

/-- In loopback mode nothing goes out. -/
theorem sent_loopback (hloop : u.loopback = true) : u.sent = u.line := if_pos hloop

theorem sent_idle (hempty : u.waiting = []) : u.sent = u.line := by
  unfold sent
  rw [hempty, List.append_nil, ite_self]

theorem lineStatus_thre (u : Uart) : u.lineStatus &&& 0x20 = 0x20 ↔ u.waiting = [] := by
  unfold lineStatus
  by_cases hempty : u.waiting = []
  · rw [if_pos hempty]
    cases u.ready
    · exact iff_of_true rfl hempty
    · exact iff_of_true rfl hempty
  · rw [if_neg hempty]
    cases u.ready
    · exact iff_of_false (by decide) hempty
    · exact iff_of_false (by decide) hempty

theorem read_received (hdlab : u.dlab = false) :
    u.read 0 = (u.received, { u with ready := false }) :=
  if_neg (Bool.not_eq_true _ ▸ hdlab)

/-- A byte for a port that holds none. -/
theorem write_data (hdlab : u.dlab = false) (hdepth : 0 < u.depth) (hempty : u.waiting = [])
    (byte : UInt8) : u.write 0 byte = { u with waiting := [byte] } := by
  simp [write, transmit, hdlab, hdepth, hempty]

/-- `text` has been handed over to the port. -/
structure Carries (u : Uart) (text : List UInt8) (u' : Uart) : Prop where
  settings : u'.settings = u.settings
  sent : u'.sent = if u.loopback then u.sent else u.sent ++ text

theorem Carries.nil {u' : Uart} (hsettings : u'.settings = u.settings) (hsent : u'.sent = u.sent) :
    Carries u [] u' :=
  ⟨hsettings, by rw [List.append_nil, ite_self, hsent]⟩

theorem Carries.trans {u' u'' : Uart} {text text' : List UInt8} (h : Carries u text u')
    (h' : Carries u' text' u'') : Carries u (text ++ text') u'' := by
  refine ⟨h'.settings.trans h.settings, ?_⟩
  rw [h'.sent, h.sent, settings_loopback h.settings]
  split
  · rfl
  · rw [List.append_assoc]

/-- **A byte written to a port that holds none** goes to the line behind what has been sent. -/
theorem write_sent (hdlab : u.dlab = false) (hdepth : 0 < u.depth) (hempty : u.waiting = [])
    (byte : UInt8) : Carries u [byte] (u.write 0 byte) := by
  rw [write_data hdlab hdepth hempty]
  refine ⟨rfl, ?_⟩
  by_cases hl : u.loopback = true
  · have hl' : ({ u with waiting := [byte] } : Uart).loopback = true := hl
    rw [if_pos hl, sent_loopback hl, sent_loopback hl']
  · have hl' : ¬ ({ u with waiting := [byte] } : Uart).loopback = true := hl
    rw [if_neg hl, sent_idle hempty]
    exact if_neg hl'

end Uart

/-! ### Ports -/

/-- Ports at every multiple of eight, and the number of accesses so far. -/
structure SerialIo where
  uarts : ℕ → Uart
  time : ℕ

namespace SerialIo

/-- How many bytes each port sends before an access. -/
abbrev Timing := ℕ → ℕ → ℕ

variable {timing : Timing} {s : SerialIo} {k : ℕ}

/-- The ports go on up to the next access. -/
def elapse (timing : Timing) (s : SerialIo) : SerialIo where
  uarts k := Uart.shift^[timing s.time k] (s.uarts k)
  time := s.time + 1

/-- `out` to an address. -/
def portOut (timing : Timing) (addr : ℕ) (value : UInt8) (s : SerialIo) : SerialIo :=
  let s := s.elapse timing
  { s with
    uarts := Function.update s.uarts (addr / 8) ((s.uarts (addr / 8)).write (addr % 8) value) }

/-- `in` from an address. -/
def portIn (timing : Timing) (addr : ℕ) (s : SerialIo) : UInt8 × SerialIo :=
  let s := s.elapse timing
  let (value, u) := (s.uarts (addr / 8)).read (addr % 8)
  (value, { s with uarts := Function.update s.uarts (addr / 8) u })

/-- What a write does to the port at its address. -/
theorem portOut_uart {base reg : ℕ} (hbase : 8 ∣ base) (hreg : reg < 8) (value : UInt8) :
    (s.portOut timing (base + reg) value).uarts (base / 8) =
      (Uart.shift^[timing s.time (base / 8)] (s.uarts (base / 8))).write reg value := by
  have hunit : (base + reg) / 8 = base / 8 := by omega
  have hoffset : (base + reg) % 8 = reg := by omega
  unfold portOut
  rw [hunit, hoffset]
  exact Function.update_self _ _ _

theorem portOut_other {addr : ℕ} (hk : addr / 8 ≠ k) (value : UInt8) :
    (s.portOut timing addr value).uarts k = Uart.shift^[timing s.time k] (s.uarts k) :=
  Function.update_of_ne hk.symm _ _

/-- What is read from the port at an address, and what the read does to it. -/
theorem portIn_uart {base reg : ℕ} (hbase : 8 ∣ base) (hreg : reg < 8) :
    (s.portIn timing (base + reg)).1 =
        ((Uart.shift^[timing s.time (base / 8)] (s.uarts (base / 8))).read reg).1 ∧
      (s.portIn timing (base + reg)).2.uarts (base / 8) =
        ((Uart.shift^[timing s.time (base / 8)] (s.uarts (base / 8))).read reg).2 := by
  have hunit : (base + reg) / 8 = base / 8 := by omega
  have hoffset : (base + reg) % 8 = reg := by omega
  unfold portIn
  rw [hunit, hoffset]
  exact ⟨rfl, Function.update_self _ _ _⟩

theorem portIn_other {addr : ℕ} (hk : addr / 8 ≠ k) :
    (s.portIn timing addr).2.uarts k = Uart.shift^[timing s.time k] (s.uarts k) :=
  Function.update_of_ne hk.symm _ _

/-- A look at the line status changes nothing. -/
theorem portIn_status {base : ℕ} (hbase : 8 ∣ base) :
    s.portIn timing (base + 5) =
      (((s.elapse timing).uarts (base / 8)).lineStatus, s.elapse timing) := by
  have hunit : (base + 5) / 8 = base / 8 := by omega
  have hoffset : (base + 5) % 8 = 5 := by omega
  unfold portIn
  rw [hunit, hoffset]
  show (_, ({ s.elapse timing with uarts := Function.update _ _ _ } : SerialIo)) = _
  rw [Function.update_eq_self]

/-- The port never stops. -/
def GoesOn (timing : Timing) (k : ℕ) : Prop := ∀ t, ∃ t', t ≤ t' ∧ 0 < timing t' k

theorem iterate_time (timing : Timing) (s : SerialIo) (n : ℕ) :
    ((elapse timing)^[n] s).time = s.time + n := by
  induction n with
  | zero => rfl
  | succ n ih =>
    rw [Function.iterate_succ_apply']
    show ((elapse timing)^[n] s).time + 1 = _
    rw [ih, Nat.add_assoc]

theorem iterate_settings (timing : Timing) (s : SerialIo) (k n : ℕ) :
    (((elapse timing)^[n] s).uarts k).settings = (s.uarts k).settings := by
  induction n with
  | zero => rfl
  | succ n ih =>
    rw [Function.iterate_succ_apply', ← ih]
    exact Uart.iterate_settings _ _

theorem iterate_sent (timing : Timing) (s : SerialIo) (k n : ℕ) :
    (((elapse timing)^[n] s).uarts k).sent = (s.uarts k).sent := by
  induction n with
  | zero => rfl
  | succ n ih =>
    rw [Function.iterate_succ_apply', ← ih]
    exact Uart.iterate_sent _ _

theorem iterate_waiting_le (timing : Timing) (s : SerialIo) (k n : ℕ) :
    (((elapse timing)^[n] s).uarts k).waiting.length ≤ (s.uarts k).waiting.length := by
  induction n with
  | zero => exact Nat.le_refl _
  | succ n ih =>
    rw [Function.iterate_succ_apply']
    refine Nat.le_trans ?_ ih
    show (Uart.shift^[_] _).waiting.length ≤ _
    rw [Uart.iterate_waiting, List.length_drop]
    exact Nat.sub_le _ _

/-- What is drained stays so while nothing is written. -/
theorem stays_idle {n m : ℕ} (hn : (((elapse timing)^[n] s).uarts k).waiting = []) (hm : n ≤ m) :
    (((elapse timing)^[m] s).uarts k).waiting = [] := by
  obtain ⟨d, rfl⟩ := Nat.exists_eq_add_of_le hm
  have hle := iterate_waiting_le timing ((elapse timing)^[n] s) k d
  rw [hn, ← Function.iterate_add_apply, Nat.add_comm] at hle
  exact List.length_eq_zero_iff.mp (Nat.le_zero.mp hle)

/-- **A port that goes on** sends all that it holds. -/
theorem drains (hgoes : GoesOn timing k) (s : SerialIo) :
    ∃ n, 0 < n ∧ (((elapse timing)^[n] s).uarts k).waiting = [] := by
  induction h : (s.uarts k).waiting.length using Nat.strong_induction_on generalizing s with
  | _ m ih =>
    obtain ⟨t, ht, hpos⟩ := hgoes s.time
    -- just behind the access at `t` one byte less is waiting
    obtain ⟨d, rfl⟩ := Nat.exists_eq_add_of_le ht
    have hless := iterate_waiting_le timing s k d
    have hnext : (((elapse timing)^[d + 1] s).uarts k).waiting.length =
        (((elapse timing)^[d] s).uarts k).waiting.length - timing (s.time + d) k := by
      rw [Function.iterate_succ_apply']
      show (Uart.shift^[timing _ k] _).waiting.length = _
      rw [Uart.iterate_waiting, List.length_drop, iterate_time]
    by_cases hm : m = 0
    · refine ⟨d + 1, Nat.succ_pos d, List.length_eq_zero_iff.mp ?_⟩
      omega
    · obtain ⟨n, -, hn⟩ := ih _ (by omega) ((elapse timing)^[d + 1] s) rfl
      refine ⟨n + (d + 1), by omega, ?_⟩
      rw [Function.iterate_add_apply]
      exact hn

end SerialIo

end Rotary.Lib

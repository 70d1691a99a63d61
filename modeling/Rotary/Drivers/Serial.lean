import Rotary.Core.Logging
import Rotary.Lib.Uart

namespace Rotary

open Lib

/-!
# The serial ports (`kernel/drivers/tty/serial.c` and `arch/x86/kernel/serial.c`)

`serial_init` sets up COM1 and COM2 and has each of them send a byte to itself.  A port that has not
given the byte back by the time of the next access stays in loopback mode, and as the failure is
reported by a positive number it counts for a success: what is written to the port from then on is
lost, and no caller is told.

* `x86SerialInitPort`, `serialInit`, `serialWriteLine` — the code;
* `serialInit_eq` — the initialisation never fails;
* `serialWriteLine_eq` — a line that is written to a port that goes on;
* `serialBoot_arrives` — all that is logged after the initialisation arrives, or nothing does.

The line status is read again and again until the port has nothing to send; the number of times is
bounded by a parameter, which only has to be large enough.
-/

/-! ### The code -/

/-- `IO_PORT_SERIAL_COM1`. -/
def ioPortSerialCom1 : ℕ := 0x3F8

/-- `IO_PORT_SERIAL_COM2`. -/
def ioPortSerialCom2 : ℕ := 0x2F8

/-- `E_SUCCESS`. -/
def eSuccess : ℤ := 0

/-- `E_ERROR`. -/
def eError : ℤ := -1

/-- `SUCCESS`. -/
def success (value : ℤ) : Bool := decide (value ≥ 0)

/-- What is known of the serial ports: `serial_initialised` and `serial_debug_port`. -/
structure SerialState where
  io : SerialIo
  serialInitialised : UInt8
  serialDebugPort : ℕ

variable (timing : SerialIo.Timing)

/-- What `x86_serial_init_port` does up to its test. -/
def x86SerialSetUp (port : ℕ) (io : SerialIo) : SerialIo :=
  -- `UART_IER`: no interrupts
  let io := io.portOut timing (port + 1) 0x00
  -- `UART_LCR_DLAB`
  let io := io.portOut timing (port + 3) 0x80
  let io := io.portOut timing (port + 0) 0x03
  let io := io.portOut timing (port + 1) 0x00
  -- `UART_LCR`: words of eight bits, one stop bit, no parity, no break
  let io := io.portOut timing (port + 3) (0x03 ||| 0x00 ||| 0x00 ||| 0x00)
  -- `UART_FCR`: both buffers are enabled and cleared
  let io := io.portOut timing (port + 2) (0x01 ||| 0x00 ||| 0x02 ||| 0x04 ||| 0xC0)
  let io := io.portOut timing (port + 4) (0x01 ||| 0x02 ||| 0x08)
  -- `UART_MCR_LOOPBACK_MODE`
  let io := io.portOut timing (port + 4) (0x02 ||| 0x04 ||| 0x08 ||| 0x10)
  io.portOut timing (port + 0) 0xAE

/-- `x86_serial_init_port`. -/
def x86SerialInitPort (port : ℕ) (io : SerialIo) : ℤ × SerialIo :=
  let test := (x86SerialSetUp timing port io).portIn timing port
  if test.1 ≠ 0xAE then (1, test.2)
  else (eSuccess, test.2.portOut timing (port + 4) (0x01 ||| 0x02 ||| 0x04 ||| 0x08))

/-- `serial_set_debug_port`. -/
def serialSetDebugPort (portId : ℕ) (s : SerialState) : SerialState :=
  { s with serialDebugPort := portId }

/-- `serial_get_debug_port`. -/
def serialGetDebugPort (s : SerialState) : ℕ := s.serialDebugPort

/-- `arch_serial_init`. -/
def archSerialInit (s : SerialState) : ℤ × SerialState :=
  let s := serialSetDebugPort ioPortSerialCom2 s
  let com1 := x86SerialInitPort timing ioPortSerialCom1 s.io
  if !success com1.1 then (eError, { s with io := com1.2 })
  else
    let com2 := x86SerialInitPort timing ioPortSerialCom2 com1.2
    if !success com2.1 then (eError, { s with io := com2.2 })
    else (eSuccess, { s with io := com2.2 })

/-- `serial_init`. -/
def serialInit (s : SerialState) : ℤ × SerialState :=
  let arch := archSerialInit timing s
  if !success arch.1 then (eError, arch.2)
  else (eSuccess, { arch.2 with serialInitialised := 1 })

/-- `x86_serial_is_transmit_empty`. -/
def x86SerialIsTransmitEmpty (port : ℕ) (io : SerialIo) : ℤ × SerialIo :=
  let status := io.portIn timing (port + 5)
  (if status.1 &&& 0x20 = 0x20 then 1 else 0, status.2)

/-- `while(x86_serial_is_transmit_empty(port) == false);`. -/
def awaitTransmitEmpty (port : ℕ) : ℕ → SerialIo → Option SerialIo
  | 0, _ => none
  | fuel + 1, io =>
    let thre := x86SerialIsTransmitEmpty timing port io
    if thre.1 = 0 then awaitTransmitEmpty port fuel thre.2 else some thre.2

/-- `arch_serial_write_line`; there is no outcome for a string without a terminator. -/
def archSerialWriteLine (fuel port : ℕ) : List UInt8 → SerialIo → Option (ℤ × SerialIo)
  | [], _ => none
  | c :: line, io =>
    if c = 0 then some (eSuccess, io)
    else (awaitTransmitEmpty timing port fuel io).bind fun io =>
      archSerialWriteLine fuel port line (io.portOut timing port c)

/-- `serial_write_line`. -/
def serialWriteLine (fuel port : ℕ) (line : List UInt8) (s : SerialState) :
    Option (ℤ × SerialState) :=
  if s.serialInitialised = 0 then some (eError, s)
  else (archSerialWriteLine timing fuel port line s.io).map fun written =>
    (if !success written.1 then eError else eSuccess, { s with io := written.2 })

variable {timing : SerialIo.Timing} {port k : ℕ} {io : SerialIo} {s : SerialState} {u : Uart}

/-! ### The initialisation -/

/-- The test of a port never counts for a failure. -/
theorem x86SerialInitPort_success (timing : SerialIo.Timing) (port : ℕ) (io : SerialIo) :
    success (x86SerialInitPort timing port io).1 = true := by
  unfold x86SerialInitPort
  dsimp only
  split
  · rfl
  · rfl

/-- **`serial_init` never fails**, whatever the ports do. -/
theorem serialInit_eq (timing : SerialIo.Timing) (s : SerialState) :
    serialInit timing s = (eSuccess,
      { io := (x86SerialInitPort timing ioPortSerialCom2
          (x86SerialInitPort timing ioPortSerialCom1 s.io).2).2
        serialInitialised := 1
        serialDebugPort := ioPortSerialCom2 }) := by
  have harch : archSerialInit timing s = (eSuccess,
      { s with
        io := (x86SerialInitPort timing ioPortSerialCom2
          (x86SerialInitPort timing ioPortSerialCom1 s.io).2).2
        serialDebugPort := ioPortSerialCom2 }) := by
    unfold archSerialInit
    simp only [x86SerialInitPort_success]
    rfl
  unfold serialInit
  rw [harch]
  rfl

/-- A port that nobody has put into loopback mode, with room for a byte and none like that of the
    test in its receiver. -/
structure Untested (u : Uart) : Prop where
  depth_pos : 0 < u.depth
  loopback : u.loopback = false
  received : u.received ≠ 0xAE

/-- A port on its test: the byte is on its way to itself. -/
structure UnderTest (u : Uart) : Prop where
  depth_pos : 0 < u.depth
  lcr : u.lcr = 0x03
  mcr : u.mcr = 0x1E
  divisor : u.divisorLow = 0x03 ∧ u.divisorHigh = 0x00
  waiting : u.waiting = [0xAE]
  received : u.received ≠ 0xAE

theorem Untested.iterate (h : Untested u) (n : ℕ) : Untested (Uart.shift^[n] u) := by
  obtain ⟨waiting, line, hu⟩ := Uart.iterate_eq h.loopback n
  rw [hu]
  exact ⟨h.depth_pos, h.loopback, h.received⟩

theorem Untested.write_ier (h : Untested u) (value : UInt8) : Untested (u.write 1 value) := by
  show Untested (if _ then _ else _)
  split
  · exact ⟨h.depth_pos, h.loopback, h.received⟩
  · exact ⟨h.depth_pos, h.loopback, h.received⟩

/-- A port that is being set up: its line control register and the divisor of its rate. -/
structure SettingUp (u : Uart) (lcr low high : UInt8) : Prop where
  untested : Untested u
  lcr : u.lcr = lcr
  low : u.divisorLow = low
  high : u.divisorHigh = high

section SettingUp

variable {lcr low high : UInt8}

theorem SettingUp.iterate (h : SettingUp u lcr low high) (n : ℕ) :
    SettingUp (Uart.shift^[n] u) lcr low high := by
  have huntested := h.untested.iterate n
  obtain ⟨waiting, line, hu⟩ := Uart.iterate_eq h.untested.loopback n
  rw [hu] at huntested ⊢
  exact ⟨huntested, h.lcr, h.low, h.high⟩

theorem SettingUp.dlab (h : SettingUp u 0x80 low high) : u.dlab = true := by
  unfold Uart.dlab
  rw [h.lcr]
  rfl

theorem SettingUp.write_lcr (h : SettingUp u lcr low high) (value : UInt8) :
    SettingUp (u.write 3 value) value low high :=
  ⟨⟨h.untested.depth_pos, h.untested.loopback, h.untested.received⟩, rfl, h.low, h.high⟩

theorem SettingUp.write_low (h : SettingUp u 0x80 low high) (value : UInt8) :
    SettingUp (u.write 0 value) 0x80 value high := by
  have hwrite : u.write 0 value = { u with divisorLow := value } := if_pos h.dlab
  rw [hwrite]
  exact ⟨⟨h.untested.depth_pos, h.untested.loopback, h.untested.received⟩, h.lcr, rfl, h.high⟩

theorem SettingUp.write_high (h : SettingUp u 0x80 low high) (value : UInt8) :
    SettingUp (u.write 1 value) 0x80 low value := by
  have hwrite : u.write 1 value = { u with divisorHigh := value } := if_pos h.dlab
  rw [hwrite]
  exact ⟨⟨h.untested.depth_pos, h.untested.loopback, h.untested.received⟩, h.lcr, h.low, rfl⟩

/-- The buffers are cleared. -/
theorem SettingUp.write_fcr (h : SettingUp u lcr low high) {value : UInt8}
    (hvalue : value &&& 0x04 ≠ 0) :
    SettingUp (u.write 2 value) lcr low high ∧ (u.write 2 value).waiting = [] :=
  ⟨⟨⟨h.untested.depth_pos, h.untested.loopback, h.untested.received⟩, h.lcr, h.low, h.high⟩,
    if_pos hvalue⟩

theorem SettingUp.write_mcr (h : SettingUp u lcr low high) {value : UInt8}
    (hvalue : value &&& 0x10 = 0) : SettingUp (u.write 4 value) lcr low high := by
  have hloop : (u.write 4 value).loopback = false := by
    show decide (value &&& 0x10 ≠ 0) = false
    rw [hvalue]
    rfl
  exact ⟨⟨h.untested.depth_pos, hloop, h.untested.received⟩, h.lcr, h.low, h.high⟩

end SettingUp

/-- The writes to a port up to its test. -/
theorem x86SerialSetUp_underTest (hport : 8 ∣ port) (h : Untested (io.uarts (port / 8))) :
    UnderTest ((x86SerialSetUp timing port io).uarts (port / 8)) := by
  unfold x86SerialSetUp
  extract_lets io₁ io₂ io₃ io₄ io₅ io₆ io₇ io₈
  have h₁ : Untested (io₁.uarts (port / 8)) := by
    rw [SerialIo.portOut_uart hport (by decide)]
    exact (h.iterate _).write_ier _
  obtain ⟨low, high, h₂⟩ : ∃ low high, SettingUp (io₂.uarts (port / 8)) 0x80 low high := by
    rw [SerialIo.portOut_uart hport (by decide)]
    exact ⟨_, _, SettingUp.write_lcr ⟨h₁.iterate _, rfl, rfl, rfl⟩ _⟩
  have h₃ : SettingUp (io₃.uarts (port / 8)) 0x80 0x03 high := by
    rw [SerialIo.portOut_uart hport (by decide)]
    exact (h₂.iterate _).write_low _
  have h₄ : SettingUp (io₄.uarts (port / 8)) 0x80 0x03 0x00 := by
    rw [SerialIo.portOut_uart hport (by decide)]
    exact (h₃.iterate _).write_high _
  have h₅ : SettingUp (io₅.uarts (port / 8)) 0x03 0x03 0x00 := by
    rw [SerialIo.portOut_uart hport (by decide)]
    exact (h₄.iterate _).write_lcr _
  -- from here on nothing is waiting, up to the byte of the test
  have h₆ : SettingUp (io₆.uarts (port / 8)) 0x03 0x03 0x00 ∧
      (io₆.uarts (port / 8)).waiting = [] := by
    rw [SerialIo.portOut_uart hport (by decide)]
    exact (h₅.iterate _).write_fcr (by decide)
  have h₇ : SettingUp (io₇.uarts (port / 8)) 0x03 0x03 0x00 ∧
      (io₇.uarts (port / 8)).waiting = [] := by
    rw [SerialIo.portOut_uart hport (by decide), Uart.iterate_idle h₆.2]
    exact ⟨h₆.1.write_mcr (by decide), h₆.2⟩
  have h₈ : io₈.uarts (port / 8) = { io₇.uarts (port / 8) with mcr := 0x1E } := by
    rw [SerialIo.portOut_uart hport (by decide), Uart.iterate_idle h₇.2]
    rfl
  obtain ⟨⟨⟨hdepth, -, hreceived⟩, hlcr, hlow, hhigh⟩, hwaiting⟩ := h₇
  have hidle : (io₈.uarts (port / 8)).waiting = [] := by
    rw [h₈]
    exact hwaiting
  rw [SerialIo.portOut_uart hport (by decide), Uart.iterate_idle hidle, h₈]
  generalize io₇.uarts (port / 8) = v at hdepth hreceived hlcr hlow hhigh hwaiting
  have hdlab : ({ v with mcr := 0x1E } : Uart).dlab = false := by
    unfold Uart.dlab
    rw [hlcr]
    rfl
  rw [Uart.write_data hdlab hdepth hwaiting]
  exact ⟨hdepth, hlcr, rfl, ⟨hlow, hhigh⟩, rfl, hreceived⟩

/-- A port that is ready for use: it has room, and its register 0 is the transmitter. -/
structure PortInUse (u : Uart) : Prop where
  depth_pos : 0 < u.depth
  lcr : u.lcr = 0x03
  divisor : u.divisorLow = 0x03 ∧ u.divisorHigh = 0x00

theorem PortInUse.dlab (h : PortInUse u) : u.dlab = false := by
  unfold Uart.dlab
  rw [h.lcr]
  rfl

/-- The port passes its test if it has sent the byte by the time of the next access; otherwise it
    stays in loopback mode. -/
theorem x86SerialInitPort_own (timing : SerialIo.Timing) (hport : 8 ∣ port)
    (h : Untested (io.uarts (port / 8))) :
    PortInUse ((x86SerialInitPort timing port io).2.uarts (port / 8)) ∧
      ((x86SerialInitPort timing port io).2.uarts (port / 8)).sent =
        ((x86SerialInitPort timing port io).2.uarts (port / 8)).line ∧
      ((x86SerialInitPort timing port io).2.uarts (port / 8)).loopback =
        decide (timing (io.time + 9) (port / 8) = 0) := by
  have htest : UnderTest ((x86SerialSetUp timing port io).uarts (port / 8)) :=
    x86SerialSetUp_underTest hport h
  have htime : (x86SerialSetUp timing port io).time = io.time + 9 := rfl
  unfold x86SerialInitPort
  generalize x86SerialSetUp timing port io = io₉ at htest htime
  extract_lets test
  obtain ⟨hvalue, hafter⟩ :
      test.1 = ((Uart.shift^[timing io₉.time (port / 8)] (io₉.uarts (port / 8))).read 0).1 ∧
      test.2.uarts (port / 8) =
        ((Uart.shift^[timing io₉.time (port / 8)] (io₉.uarts (port / 8))).read 0).2 :=
    SerialIo.portIn_uart hport (show 0 < 8 by decide)
  rw [htime] at hvalue hafter
  obtain ⟨hdepth, hlcr, hmcr, hdivisor, hwaiting, hreceived⟩ := htest
  generalize io₉.uarts (port / 8) = v at hvalue hafter hdepth hlcr hmcr hdivisor hwaiting hreceived
  have hdlab : v.dlab = false := by
    unfold Uart.dlab
    rw [hlcr]
    rfl
  have hloop : v.loopback = true := by
    unfold Uart.loopback
    rw [hmcr]
    rfl
  by_cases hn : timing (io.time + 9) (port / 8) = 0
  · rw [hn, Function.iterate_zero, id, Uart.read_received hdlab] at hvalue hafter
    rw [if_pos (by rw [hvalue]; exact hreceived), hafter]
    exact ⟨⟨hdepth, hlcr, hdivisor⟩, Uart.sent_loopback hloop, hloop.trans (decide_eq_true hn).symm⟩
  · have hdlab' : ({ v with waiting := [], received := 0xAE, ready := true } : Uart).dlab = false :=
      hdlab
    rw [Uart.iterate_loopback hloop hwaiting (Nat.pos_of_ne_zero hn), Uart.read_received hdlab']
      at hvalue hafter
    rw [if_neg (by rw [hvalue]; exact not_not_intro rfl),
      SerialIo.portOut_uart hport (by decide), hafter, Uart.iterate_idle rfl]
    refine ⟨⟨hdepth, hlcr, hdivisor⟩, Uart.sent_idle rfl, ?_⟩
    rw [decide_eq_false hn]
    show decide ((0x01 ||| 0x02 ||| 0x04 ||| 0x08 : UInt8) &&& 0x10 ≠ 0) = false
    decide

/-- While another port is set up a port only sends. -/
theorem x86SerialInitPort_other (hport : 8 ∣ port) (hk : port / 8 ≠ k)
    (h : Untested (io.uarts k)) : Untested ((x86SerialInitPort timing port io).2.uarts k) := by
  have hout : ∀ (io : SerialIo) (reg : ℕ) (value : UInt8), reg < 8 → Untested (io.uarts k) →
      Untested ((io.portOut timing (port + reg) value).uarts k) := by
    intro io reg value hreg hio
    rw [SerialIo.portOut_other (by omega)]
    exact hio.iterate _
  have hsetUp : Untested ((x86SerialSetUp timing port io).uarts k) :=
    hout _ 0 _ (by decide) <| hout _ 4 _ (by decide) <| hout _ 4 _ (by decide) <|
      hout _ 2 _ (by decide) <| hout _ 3 _ (by decide) <| hout _ 1 _ (by decide) <|
      hout _ 0 _ (by decide) <| hout _ 3 _ (by decide) <| hout _ 1 _ (by decide) h
  have htest : Untested (((x86SerialSetUp timing port io).portIn timing port).2.uarts k) := by
    rw [SerialIo.portIn_other hk]
    exact hsetUp.iterate _
  unfold x86SerialInitPort
  dsimp only
  split
  · exact htest
  · exact hout _ 4 _ (by decide) htest

/-! ### Lines -/

theorem PortInUse.of_settings {u' : Uart} (h : PortInUse u) (hsame : u'.settings = u.settings) :
    PortInUse u' where
  depth_pos := by
    show 0 < u'.settings.depth
    rw [hsame]
    exact h.depth_pos
  lcr := by
    show u'.settings.lcr = 0x03
    rw [hsame]
    exact h.lcr
  divisor := by
    show u'.settings.divisorLow = 0x03 ∧ u'.settings.divisorHigh = 0x00
    rw [hsame]
    exact h.divisor

theorem x86SerialIsTransmitEmpty_eq (hport : 8 ∣ port) (io : SerialIo) :
    x86SerialIsTransmitEmpty timing port io =
      (if ((io.elapse timing).uarts (port / 8)).waiting = [] then 1 else 0, io.elapse timing) := by
  unfold x86SerialIsTransmitEmpty
  rw [SerialIo.portIn_status hport]
  simp only [Uart.lineStatus_thre]

/-- The loop ends at the first access that finds nothing waiting. -/
theorem awaitTransmitEmpty_eq (hport : 8 ∣ port) {n : ℕ} (hpos : 0 < n) (io : SerialIo)
    (hn : (((SerialIo.elapse timing)^[n] io).uarts (port / 8)).waiting = []) :
    ∃ m, (((SerialIo.elapse timing)^[m] io).uarts (port / 8)).waiting = [] ∧
      ∀ fuel ≥ n, awaitTransmitEmpty timing port fuel io =
        some ((SerialIo.elapse timing)^[m] io) := by
  induction n generalizing io with
  | zero => exact absurd hpos (Nat.lt_irrefl 0)
  | succ n ih =>
    by_cases hempty : ((io.elapse timing).uarts (port / 8)).waiting = []
    · refine ⟨1, hempty, fun fuel hfuel => ?_⟩
      obtain ⟨rest, rfl⟩ : ∃ rest, fuel = rest + 1 := ⟨fuel - 1, by omega⟩
      unfold awaitTransmitEmpty
      rw [x86SerialIsTransmitEmpty_eq hport, if_pos hempty]
      rfl
    · rw [Function.iterate_succ_apply] at hn
      have hmore : 0 < n := by
        rcases Nat.eq_zero_or_pos n with rfl | hmore
        · exact absurd hn hempty
        · exact hmore
      obtain ⟨m, hm, hrun⟩ := ih hmore (io.elapse timing) hn
      refine ⟨m + 1, hm, fun fuel hfuel => ?_⟩
      obtain ⟨rest, rfl⟩ : ∃ rest, fuel = rest + 1 := ⟨fuel - 1, by omega⟩
      unfold awaitTransmitEmpty
      rw [x86SerialIsTransmitEmpty_eq hport, if_neg hempty]
      exact hrun rest (by omega)

/-- **`arch_serial_write_line`** hands over the whole line to a port that goes on. -/
theorem archSerialWriteLine_eq {text : List UInt8} (hport : 8 ∣ port)
    (hgoes : SerialIo.GoesOn timing (port / 8)) (htext : ∀ c ∈ text, c ≠ 0) (io : SerialIo)
    (huse : PortInUse (io.uarts (port / 8))) :
    ∃ fuel₀ io', (io.uarts (port / 8)).Carries text (io'.uarts (port / 8)) ∧
      ∀ fuel ≥ fuel₀,
        archSerialWriteLine timing fuel port (text ++ [0]) io = some (eSuccess, io') := by
  induction text generalizing io with
  | nil => exact ⟨0, io, Uart.Carries.nil rfl rfl, fun _ _ => rfl⟩
  | cons c text ih =>
    obtain ⟨hc, htext⟩ := List.forall_mem_cons.mp htext
    obtain ⟨n, hpos, hn⟩ := SerialIo.drains hgoes io
    obtain ⟨m, hidle, hawait⟩ := awaitTransmitEmpty_eq hport hpos io hn
    have hready : (io.uarts (port / 8)).Carries []
        (((SerialIo.elapse timing)^[m] io).uarts (port / 8)) :=
      Uart.Carries.nil (SerialIo.iterate_settings _ _ _ _) (SerialIo.iterate_sent _ _ _ _)
    generalize (SerialIo.elapse timing)^[m] io = io₁ at hidle hawait hready
    have huse₁ := huse.of_settings hready.settings
    have hput : (io₁.uarts (port / 8)).Carries [c]
        ((io₁.portOut timing (port + 0) c).uarts (port / 8)) := by
      rw [SerialIo.portOut_uart hport (show 0 < 8 by decide), Uart.iterate_idle hidle]
      exact Uart.write_sent huse₁.dlab huse₁.depth_pos hidle c
    obtain ⟨fuel₀, io', hcarries, hrun⟩ :=
      ih htext (io₁.portOut timing port c) (huse₁.of_settings hput.settings)
    refine ⟨max n fuel₀, io', (hready.trans hput).trans hcarries, fun fuel hfuel => ?_⟩
    show (if c = 0 then _ else _) = _
    rw [if_neg hc, hawait fuel (Nat.le_trans (Nat.le_max_left _ _) hfuel)]
    exact hrun fuel (Nat.le_trans (Nat.le_max_right _ _) hfuel)

/-- **`serial_write_line`** to a port that has been initialised. -/
theorem serialWriteLine_eq {text : List UInt8} (hport : 8 ∣ port)
    (hgoes : SerialIo.GoesOn timing (port / 8)) (htext : ∀ c ∈ text, c ≠ 0)
    (hon : s.serialInitialised ≠ 0) (huse : PortInUse (s.io.uarts (port / 8))) :
    ∃ fuel₀ io', (s.io.uarts (port / 8)).Carries text (io'.uarts (port / 8)) ∧
      ∀ fuel ≥ fuel₀, serialWriteLine timing fuel port (text ++ [0]) s =
        some (eSuccess, { s with io := io' }) := by
  obtain ⟨fuel₀, io', hcarries, hrun⟩ := archSerialWriteLine_eq hport hgoes htext s.io huse
  refine ⟨fuel₀, io', hcarries, fun fuel hfuel => ?_⟩
  unfold serialWriteLine
  rw [if_neg hon, hrun fuel hfuel]
  rfl

/-! ### The log -/

/-- A call of `klog` in the source file `file` whose line fits into its buffers. -/
structure KlogCall where
  file : List UInt8
  fmt : List UInt8
  args : List Arg
  text : List UInt8
  file_ne_zero : ∀ c ∈ file, c ≠ 0
  text_ne_zero : ∀ c ∈ text, c ≠ 0
  formats : sprintf charBuffer fmt args = textIn charBuffer text
  fits : file.length + text.length + 3 ≤ 511

/-- What the kernel writes to the debug port: log messages, and the line of `arch_init`. -/
inductive SerialWrite
  | klog (call : KlogCall)
  | line (text : List UInt8) (text_ne_zero : ∀ c ∈ text, c ≠ 0)

/-- The line as it is meant to arrive. -/
def SerialWrite.text : SerialWrite → List UInt8
  | .klog call => serialLine call.file call.text
  | .line text _ => text

/-- `serial_write_line(serial_get_debug_port(), …)`, for a message as `_printk` calls it. -/
def serialPut (timing : SerialIo.Timing) (fuel : ℕ) (s : SerialState) :
    SerialWrite → Option SerialState
  | .klog call => do
    let logged ← klog (call.file ++ [0]) call.fmt call.args
    match logged.serial with
    | none => some s
    | some line =>
      (serialWriteLine timing fuel (serialGetDebugPort s) (line ++ [0]) s).map Prod.snd
  | .line text _ =>
    (serialWriteLine timing fuel (serialGetDebugPort s) (text ++ [0]) s).map Prod.snd

def serialPuts (timing : SerialIo.Timing) (fuel : ℕ) (s : SerialState) (writes : List SerialWrite) :
    Option SerialState :=
  writes.foldlM (serialPut timing fuel) s

/-- `serial_init`, with some writes before it and some behind it. -/
def serialBoot (timing : SerialIo.Timing) (fuel : ℕ) (early late : List SerialWrite)
    (s : SerialState) : Option SerialState := do
  let s ← serialPuts timing fuel s early
  serialPuts timing fuel (serialInit timing s).2 late

theorem SerialWrite.text_ne_zero : ∀ w : SerialWrite, ∀ c ∈ w.text, c ≠ 0
  | .klog call => serialLine_ne_zero call.file_ne_zero call.text_ne_zero
  | .line _ h => h

theorem serialPut_eq (timing : SerialIo.Timing) (fuel : ℕ) (s : SerialState) (w : SerialWrite) :
    serialPut timing fuel s w =
      (serialWriteLine timing fuel s.serialDebugPort (w.text ++ [0]) s).map Prod.snd := by
  cases w with
  | klog call =>
    show (klog (call.file ++ [0]) call.fmt call.args).bind _ = _
    rw [klog_eq [] call.file_ne_zero call.text_ne_zero call.formats, if_pos call.fits]
    rfl
  | line text h => rfl

/-- Before the initialisation every line is dropped. -/
theorem serialPuts_off (hoff : s.serialInitialised = 0) (fuel : ℕ) (writes : List SerialWrite) :
    serialPuts timing fuel s writes = some s := by
  induction writes with
  | nil => rfl
  | cons w writes ih =>
    unfold serialPuts at ih ⊢
    rw [List.foldlM_cons, serialPut_eq]
    unfold serialWriteLine
    rw [if_pos hoff]
    exact ih

/-- After it every line is handed over to the debug port. -/
theorem serialPuts_eq (s : SerialState) (hport : 8 ∣ s.serialDebugPort)
    (hgoes : SerialIo.GoesOn timing (s.serialDebugPort / 8)) (hon : s.serialInitialised ≠ 0)
    (huse : PortInUse (s.io.uarts (s.serialDebugPort / 8))) (writes : List SerialWrite) :
    ∃ fuel₀ io', (s.io.uarts (s.serialDebugPort / 8)).Carries (writes.flatMap SerialWrite.text)
        (io'.uarts (s.serialDebugPort / 8)) ∧
      ∀ fuel ≥ fuel₀, serialPuts timing fuel s writes = some { s with io := io' } := by
  induction writes generalizing s with
  | nil => exact ⟨0, s.io, Uart.Carries.nil rfl rfl, fun _ _ => rfl⟩
  | cons w writes ih =>
    obtain ⟨fuel₁, io₁, hfirst, hrun₁⟩ := serialWriteLine_eq hport hgoes w.text_ne_zero hon huse
    obtain ⟨fuel₂, io₂, hrest, hrun₂⟩ :=
      ih { s with io := io₁ } hport hgoes hon (huse.of_settings hfirst.settings)
    refine ⟨max fuel₁ fuel₂, io₂, hfirst.trans hrest, fun fuel hfuel => ?_⟩
    unfold serialPuts at hrun₂ ⊢
    rw [List.foldlM_cons, serialPut_eq, hrun₁ fuel (Nat.le_trans (Nat.le_max_left _ _) hfuel)]
    exact hrun₂ fuel (Nat.le_trans (Nat.le_max_right _ _) hfuel)

/-- **What is logged arrives.**  `serial_init` succeeds whatever the ports do, and every write ends
on a port that goes on.  If COM2 has sent the byte of its test by the time of the access that reads
it back, then all that has been written since `serial_init` gets onto the line, in its order and
with nothing else in between; otherwise nothing ever does, and no call reports it. -/
theorem serialBoot_arrives (timing : SerialIo.Timing) (s : SerialState)
    (hgoes : SerialIo.GoesOn timing (ioPortSerialCom2 / 8))
    (hport : Untested (s.io.uarts (ioPortSerialCom2 / 8))) (hoff : s.serialInitialised = 0)
    (early late : List SerialWrite) :
    (serialInit timing s).1 = eSuccess ∧
      PortInUse ((serialInit timing s).2.io.uarts (ioPortSerialCom2 / 8)) ∧
      ∃ fuel₀ s', (∀ fuel ≥ fuel₀, serialBoot timing fuel early late s = some s') ∧
        ∃ n, ∀ m ≥ n, (((SerialIo.elapse timing)^[m] s'.io).uarts (ioPortSerialCom2 / 8)).line =
          ((serialInit timing s).2.io.uarts (ioPortSerialCom2 / 8)).line ++
            if timing ((x86SerialInitPort timing ioPortSerialCom1 s.io).2.time + 9)
                (ioPortSerialCom2 / 8) = 0 then []
            else late.flatMap SerialWrite.text := by
  have hinit := serialInit_eq timing s
  have hcom1 : Untested ((x86SerialInitPort timing ioPortSerialCom1 s.io).2.uarts
      (ioPortSerialCom2 / 8)) := x86SerialInitPort_other (by decide) (by decide) hport
  obtain ⟨huse, hsent, hloop⟩ := x86SerialInitPort_own timing (by decide) hcom1
  generalize (x86SerialInitPort timing ioPortSerialCom1 s.io).2 = io₁ at hinit huse hsent hloop
  generalize (x86SerialInitPort timing ioPortSerialCom2 io₁).2 = io₂ at hinit huse hsent hloop
  obtain ⟨fuel₀, io', hcarries, hrun⟩ := serialPuts_eq ⟨io₂, 1, ioPortSerialCom2⟩
    (show 8 ∣ ioPortSerialCom2 by decide) hgoes (show (1 : UInt8) ≠ 0 by decide) huse late
  obtain ⟨n, -, hdrained⟩ := SerialIo.drains hgoes io'
  rw [hinit]
  refine ⟨rfl, huse, fuel₀, ⟨io', 1, ioPortSerialCom2⟩, fun fuel hfuel => ?_, n, fun m hm => ?_⟩
  · unfold serialBoot
    rw [serialPuts_off hoff]
    show serialPuts timing fuel (serialInit timing s).2 late = _
    rw [hinit]
    exact hrun fuel hfuel
  · have hidle := SerialIo.stays_idle hdrained hm
    rw [← Uart.sent_idle hidle, SerialIo.iterate_sent, hcarries.sent, hsent, hloop]
    by_cases htest : timing (io₁.time + 9) (ioPortSerialCom2 / 8) = 0
    · rw [decide_eq_true htest, if_pos htest, List.append_nil]
      rfl
    · rw [decide_eq_false htest, if_neg htest]
      rfl

/-- A port with a buffer of sixteen bytes, as it is after a reset. -/
def resetUart : Uart := ⟨16, [], [], 0, false, 0, 0, 0, 0, 0, 0, 0⟩

/-- A message without arguments. -/
def readyCall : KlogCall where
  file := ascii "init.c"
  fmt := ascii "Ready\n" ++ [0]
  args := []
  text := ascii "Ready\n"
  file_ne_zero := ne_zero_of_all (by decide +kernel)
  text_ne_zero := ne_zero_of_all (by decide +kernel)
  formats := sprintf_verbatim _ _ _ (ne_zero_of_all (by decide +kernel)) (by decide +kernel)
  fits := by decide +kernel

/-- One message before the initialisation and one behind it, on ports that send a byte between any
    two accesses. -/
theorem serialBoot_arrives_ready :
    (serialInit (fun _ _ => 1) ⟨⟨fun _ => resetUart, 0⟩, 0, 0⟩).1 = eSuccess ∧
      PortInUse ((serialInit (fun _ _ => 1) ⟨⟨fun _ => resetUart, 0⟩, 0, 0⟩).2.io.uarts
        (ioPortSerialCom2 / 8)) ∧
      ∃ fuel₀ s', (∀ fuel ≥ fuel₀, serialBoot (fun _ _ => 1) fuel [.klog readyCall]
          [.klog readyCall] ⟨⟨fun _ => resetUart, 0⟩, 0, 0⟩ = some s') ∧
        ∃ n, ∀ m ≥ n,
          (((SerialIo.elapse fun _ _ => 1)^[m] s'.io).uarts (ioPortSerialCom2 / 8)).line =
            ((serialInit (fun _ _ => 1) ⟨⟨fun _ => resetUart, 0⟩, 0, 0⟩).2.io.uarts
              (ioPortSerialCom2 / 8)).line ++
              if 1 = 0 then [] else [SerialWrite.klog readyCall].flatMap SerialWrite.text :=
  serialBoot_arrives (fun _ _ => 1) ⟨⟨fun _ => resetUart, 0⟩, 0, 0⟩
    (fun t => ⟨t, Nat.le_refl t, Nat.one_pos⟩) ⟨by decide, rfl, by decide⟩ rfl
    [.klog readyCall] [.klog readyCall]

end Rotary

import Mathlib.Logic.Relation
import Rotary.Lib.Pic8259
import Rotary.Arch.Descriptors

namespace Rotary

open Lib

/-!
# Interrupts (`arch/x86/kernel/interrupts.c`, `pic8259.c` and `timer.c`)

`pic_init` moves the lines of the controllers to the vectors from 32.  An interrupt goes through its
gate to `isr_handler`, with the interrupt flag off.  `isr_handler` calls the handler that has been
registered for the vector and tells the controllers that the interrupt has ended.  For the timer it
tells them before as well: `timer_tick` calls the scheduler, which may go on with another task, and
this one only comes back to the rest of `isr_handler` when it is its turn again.

* `isrHandler` — what `isr_handler` does;
* `InterruptSystem`, `InterruptStep` — tasks, the controllers, and devices that raise their lines or
  lower them again at any time;
* `InterruptSystem.Inv`, `interruptRun_inv` — what holds in every run;
* `interruptRun_delivers` — no line is ever left blocked.

The end of an interrupt is sent to the second controller for every vector from 8, so for every line;
for an exception the controllers are told that an interrupt has ended, though none has.
-/

/-! ### The code -/

/-- `INT_PIT`. -/
def intPit : ℕ := 32

/-- `INT_KEYBOARD`. -/
def intKeyboard : ℕ := 33

/-- `INT_PAGE_FAULT`. -/
def intPageFault : ℕ := 14

/-- `PIC_MASTER_OFFSET`. -/
def picMasterOffset : UInt8 := 32

/-- `PIC_SLAVE_OFFSET`. -/
def picSlaveOffset : UInt8 := 40

/-- `io_port_out` to one of the ports of the controllers. -/
def picOut (addr : ℕ) (value : UInt8) (p : Pics) : Pics :=
  if addr = 0x20 then { p with master := p.master.command value }
  else if addr = 0x21 then { p with master := p.master.data value }
  else if addr = 0xA0 then { p with slave := p.slave.command value }
  else if addr = 0xA1 then { p with slave := p.slave.data value }
  else p

/-- `pic_send_eoi`. -/
def picSendEoi (irq : ℕ) (p : Pics) : Pics :=
  let p := if irq ≥ 8 then picOut 0xA0 0x20 p else p
  picOut 0x20 0x20 p

/-- `pic_init`. -/
def picInit (masterOffset slaveOffset : UInt8) (p : Pics) : Pics :=
  let p := picOut 0x20 (0x10 ||| 0x01) p
  let p := picOut 0xA0 (0x10 ||| 0x01) p
  let p := picOut 0x21 masterOffset p
  let p := picOut 0xA1 slaveOffset p
  let p := picOut 0x21 0x04 p
  let p := picOut 0xA1 0x02 p
  let p := picOut 0x21 0x01 p
  let p := picOut 0xA1 0x01 p
  let p := picOut 0x21 0x00 p
  picOut 0xA1 0x00 p

/-- `register_interrupt_handler`. -/
def registerInterruptHandler (intNum handlerAddr : ℕ) (handlers : ℕ → ℕ) : ℕ → ℕ :=
  Function.update handlers intNum handlerAddr

/-- `interrupt_handlers` after `timer_init` and `arch_keyboard_init`. -/
def bootHandlers (timerTick keyboardIsr : ℕ) : ℕ → ℕ :=
  registerInterruptHandler intKeyboard keyboardIsr
    (registerInterruptHandler intPit timerTick fun _ => 0)

/-- What the handlers of the vectors do. -/
inductive IsrAction
  | sendEoi (irq : ℕ)
  | call (handlerAddr : ℕ)
  /-- `paging_handle_page_fault`. -/
  | pageFault
  /-- The messages about an exception, and `debug_break`. -/
  | report (intNum : ℕ)
  /-- `syscall_handler`. -/
  | syscall
  deriving DecidableEq

variable (handlers : ℕ → ℕ)

/-- `isr_handler`. -/
def isrHandler (intNum : ℕ) : List IsrAction :=
  (if intNum = intPit then [.sendEoi intNum] else []) ++
    (if handlers intNum ≠ 0 then [.call (handlers intNum)] else []) ++
    if intNum < 32 then
      if intNum = intPageFault then [.pageFault, .sendEoi intNum]
      else [.report intNum, .sendEoi intNum]
    else [.sendEoi intNum]

/-- What the stub of a vector calls. -/
def isrCode (intNum : ℕ) : List IsrAction :=
  if intNum = intSyscall then [.syscall] else isrHandler handlers intNum

/-! ### The system -/

/-- An interrupt that has not returned: how far its code is, whether it is inside a function that
    it has called, and the interrupt flag to come back to. -/
structure IsrFrame where
  vector : ℕ
  pc : ℕ
  inside : Bool
  flag : Bool

/-- The interrupts of every task that have not returned, the innermost one first.  `entered` are
    the vectors of all interrupts so far, `called` the calls of handlers. -/
structure InterruptSystem where
  pics : Pics
  flag : Bool
  cur : ℕ
  frames : ℕ → List IsrFrame
  entered : List ℕ
  called : List (ℕ × ℕ)

/-- What `arch_task_create` leaves on the stack: the registers for the end of a handler, all zero
    but for the flags and the code. -/
def freshFrame : IsrFrame := ⟨0, (isrCode handlers 0).length, false, true⟩

namespace InterruptSystem

/-- The interrupts of the current task. -/
def stack (y : InterruptSystem) : List IsrFrame := y.frames y.cur

def setStack (y : InterruptSystem) (l : List IsrFrame) : InterruptSystem :=
  { y with frames := Function.update y.frames y.cur l }

/-- Through the gate of a vector. -/
def enter (y : InterruptSystem) (vector : ℕ) (pics : Pics) : InterruptSystem :=
  { y.setStack (⟨vector, 0, false, y.flag⟩ :: y.stack) with
    pics := pics
    flag := false
    entered := y.entered ++ [vector] }

/-- The innermost interrupt goes on. -/
def exec (y : InterruptSystem) : InterruptSystem :=
  match y.stack with
  | [] => y
  | f :: l =>
    if f.inside then y.setStack ({ f with pc := f.pc + 1, inside := false } :: l)
    else
      match (isrCode handlers f.vector)[f.pc]? with
      | none => { y.setStack l with flag := f.flag }
      | some (.sendEoi irq) =>
        { y.setStack ({ f with pc := f.pc + 1 } :: l) with pics := picSendEoi irq y.pics }
      | some (.call handlerAddr) =>
        { y.setStack ({ f with inside := true } :: l) with
          called := y.called ++ [(f.vector, handlerAddr)] }
      | some _ => y.setStack ({ f with inside := true } :: l)

/-- The innermost interrupt is inside a function that it has called, or there is none. -/
def InCode (y : InterruptSystem) : Prop := ∀ f ∈ y.stack.head?, f.inside = true

/-- The current task is in `timer_tick`. -/
def Ticking (timerTick : ℕ) (y : InterruptSystem) : Prop :=
  ∃ f ∈ y.stack.head?, f.inside = true ∧
    (isrCode handlers f.vector)[f.pc]? = some (.call timerTick)

end InterruptSystem

open InterruptSystem

/-- A step: of a device, of the processor on an interrupt, or of the kernel. -/
inductive InterruptStep (timerTick : ℕ) : InterruptSystem → InterruptSystem → Prop
  | raise (y : InterruptSystem) (line : ℕ) :
    InterruptStep timerTick y { y with pics := y.pics.onLine line Pic.raise }
  | lower (y : InterruptSystem) (line : ℕ) :
    InterruptStep timerTick y { y with pics := y.pics.onLine line Pic.lower }
  /-- The processor looks for an interrupt; there may be none any more. -/
  | accept (y : InterruptSystem) (late : Bool) (hflag : y.flag = true) :
    InterruptStep timerTick y
      (y.enter (y.pics.acknowledge late).1 (y.pics.acknowledge late).2)
  | fault (y : InterruptSystem) (vector : ℕ) (hvector : vector < 32) (hcode : y.InCode) :
    InterruptStep timerTick y (y.enter vector y.pics)
  | syscall (y : InterruptSystem) (huser : y.stack = []) :
    InterruptStep timerTick y (y.enter intSyscall y.pics)
  | exec (y : InterruptSystem) : InterruptStep timerTick y (y.exec handlers)
  /-- `task_schedule` goes on with another task. -/
  | switch (y : InterruptSystem) (next : ℕ) (htick : y.Ticking handlers timerTick) :
    InterruptStep timerTick y { y with cur := next }
  | create (y : InterruptSystem) (a : ℕ) (ha : a ≠ y.cur) :
    InterruptStep timerTick y
      { y with frames := Function.update y.frames a [freshFrame handlers] }

variable {handlers : ℕ → ℕ} {timerTick : ℕ} {y y' : InterruptSystem} {f : IsrFrame} {p : Pics}

/-! ### The controllers -/

/-- The controllers as `pic_init` sets them up. -/
def readyPics : Pics where
  master := ⟨fun _ => false, fun _ => false, 0, 32, 0x04, false, false, true, none⟩
  slave := ⟨fun _ => false, fun _ => false, 0, 40, 0x02, false, false, true, none⟩

theorem picInit_eq (p : Pics) : picInit picMasterOffset picSlaveOffset p = readyPics := rfl

/-- The end of an interrupt on a line. -/
theorem picSendEoi_line {irq : ℕ} (hirq : 8 ≤ irq) (p : Pics) :
    picSendEoi irq p = ⟨p.master.command 0x20, p.slave.command 0x20⟩ := by
  unfold picSendEoi
  rw [if_pos hirq]
  rfl

/-- The end of one of the first exceptions. -/
theorem picSendEoi_first {irq : ℕ} (hirq : ¬8 ≤ irq) (p : Pics) :
    picSendEoi irq p = ⟨p.master.command 0x20, p.slave⟩ := by
  unfold picSendEoi
  rw [if_neg hirq]
  rfl

theorem picSendEoi_settings (irq : ℕ) (p : Pics) : (picSendEoi irq p).settings = p.settings := by
  by_cases hirq : 8 ≤ irq
  · rw [picSendEoi_line hirq]
    exact congrArg₂ Pics.mk (Pic.eoi_settings _) (Pic.eoi_settings _)
  · rw [picSendEoi_first hirq]
    exact congrArg (Pics.mk · p.slave.settings) (Pic.eoi_settings _)

theorem picSendEoi_requested (irq : ℕ) (p : Pics) :
    (picSendEoi irq p).requested = p.requested := by
  have hsame : ∀ q : Pic, (q.command 0x20).requests = q.requests := by
    intro q
    have himr : (q.command 0x20).imr = q.imr := by
      show (q.command 0x20).settings.imr = q.settings.imr
      rw [q.eoi_settings]
    unfold Pic.requests
    rw [q.eoi_irr, himr]
  unfold Pics.requested
  by_cases hirq : 8 ≤ irq
  · rw [picSendEoi_line hirq]
    simp only [hsame]
  · rw [picSendEoi_first hirq]
    simp only [hsame]

theorem picSendEoi_idle (h : p.Idle) (irq : ℕ) : (picSendEoi irq p).Idle := by
  by_cases hirq : 8 ≤ irq
  · rw [picSendEoi_line hirq]
    exact ⟨h.1.eoi, h.2.eoi⟩
  · rw [picSendEoi_first hirq]
    exact ⟨h.1.eoi, h.2⟩

theorem picSendEoi_ends {irq : ℕ} (h : p.Single) (hirq : 8 ≤ irq) : (picSendEoi irq p).Idle := by
  rw [picSendEoi_line hirq]
  exact ⟨h.1.eoi, h.2.eoi⟩

theorem picSendEoi_single (h : p.Single) (irq : ℕ) : (picSendEoi irq p).Single := by
  by_cases hirq : 8 ≤ irq
  · exact (picSendEoi_ends h hirq).single
  · rw [picSendEoi_first hirq]
    exact ⟨h.1.eoi.single, h.2⟩

/-- An interrupt has a vector of its own, between the exceptions and the calls. -/
theorem acknowledge_range (h : p.settings = readyPics) (late : Bool) :
    32 ≤ (p.acknowledge late).1 ∧ (p.acknowledge late).1 < 48 := by
  have hmaster : p.master.offset = 32 := congrArg (fun q => q.master.offset) h
  have hslave : p.slave.offset = 40 := congrArg (fun q => q.slave.offset) h
  rcases p.acknowledge_vector late with ⟨n, hn, hvector⟩ | ⟨n, hn, hvector⟩
  · rw [hvector, hmaster]
    omega
  · rw [hvector, hslave]
    omega

/-- What the processor takes while nothing is in service. -/
theorem acknowledge_ready (h : p.settings = readyPics) (hidle : p.Idle) :
    (p.acknowledge false).1 = (Pics.lines.find? p.requested).elim 39 (32 + ·) := by
  have hmaster : p.master.settings = readyPics.master := congrArg Pics.master h
  have hslave : p.slave.settings = readyPics.slave := congrArg Pics.slave h
  have hoffset : p.master.offset = 32 := congrArg Pic.offset hmaster
  have hoffset' : p.slave.offset = 40 := congrArg Pic.offset hslave
  have hcascade : p.master.cascade = 0x04 := congrArg Pic.cascade hmaster
  have hcascade' : p.slave.cascade = 0x02 := congrArg Pic.cascade hslave
  have himr : p.master.imr = 0 := congrArg Pic.imr hmaster
  have hc : p.Cascaded := by
    unfold Pics.Cascaded
    rw [hcascade, hcascade']
    decide
  rw [Pics.acknowledge_idle hidle hc (by rw [himr]; decide), hoffset]
  congr 1
  funext line
  unfold Pics.vector
  rw [hoffset, hoffset']
  split
  · rfl
  · omega

/-! ### The code of a vector -/

/-- The handler that is called. -/
def IsrAction.callee : IsrAction → Option ℕ
  | .call handlerAddr => some handlerAddr
  | _ => none

variable (handlers) in
/-- The calls of handlers from the action `i` on, with their vector. -/
def callsFrom (vector i : ℕ) : List (ℕ × ℕ) :=
  (((isrCode handlers vector).drop i).filterMap IsrAction.callee).map (vector, ·)

variable (handlers) in
/-- The calls that an interrupt has still to make. -/
def IsrFrame.pending (f : IsrFrame) : List (ℕ × ℕ) :=
  callsFrom handlers f.vector (if f.inside then f.pc + 1 else f.pc)

theorem callsFrom_cons {vector i : ℕ} {act : IsrAction}
    (h : (isrCode handlers vector)[i]? = some act) :
    callsFrom handlers vector i =
      (act.callee.toList.map (vector, ·)) ++ callsFrom handlers vector (i + 1) := by
  obtain ⟨hi, hact⟩ := List.getElem?_eq_some_iff.mp h
  unfold callsFrom
  rw [List.drop_eq_getElem_cons hi, hact, List.filterMap_cons]
  cases act.callee with
  | none => rfl
  | some handlerAddr => rfl

theorem callsFrom_end {vector i : ℕ} (h : (isrCode handlers vector)[i]? = none) :
    callsFrom handlers vector i = [] := by
  unfold callsFrom
  rw [List.drop_eq_nil_of_le (List.getElem?_eq_none_iff.mp h)]
  rfl

/-- The parts of the code: what is sent at once, the handler, and the rest. -/
theorem isrCode_parts (handlers : ℕ → ℕ) (vector : ℕ) :
    ∃ A B C, isrCode handlers vector = A ++ B ++ C ∧
      (A = [] ∨ A = [.sendEoi vector]) ∧ (B = [] ∨ B = [.call (handlers vector)]) ∧
      ∀ act ∈ C, act.callee = none ∧ ∀ irq, act = .sendEoi irq → irq = vector := by
  have hsend : ∀ act ∈ [IsrAction.sendEoi vector],
      act.callee = none ∧ ∀ irq, act = .sendEoi irq → irq = vector :=
    List.forall_mem_singleton.mpr ⟨rfl, fun irq h => (IsrAction.sendEoi.inj h).symm⟩
  unfold isrCode
  split
  · exact ⟨[], [], _, rfl, .inl rfl, .inl rfl,
      List.forall_mem_singleton.mpr ⟨rfl, fun irq h => nomatch h⟩⟩
  · refine ⟨_, _, _, rfl, ?_, ?_, ?_⟩
    · split
      · exact .inr rfl
      · exact .inl rfl
    · split
      · exact .inr rfl
      · exact .inl rfl
    · split
      · split
        · exact List.forall_mem_cons.mpr ⟨⟨rfl, fun irq h => nomatch h⟩, hsend⟩
        · exact List.forall_mem_cons.mpr ⟨⟨rfl, fun irq h => nomatch h⟩, hsend⟩
      · exact hsend

/-- There are no more calls behind a function that is called. -/
theorem callsFrom_behind {vector i : ℕ} {act : IsrAction}
    (h : (isrCode handlers vector)[i]? = some act) (hact : ∀ irq, act ≠ .sendEoi irq) :
    callsFrom handlers vector (i + 1) = [] := by
  obtain ⟨A, B, C, hcode, hA, hB, hC⟩ := isrCode_parts handlers vector
  rw [hcode] at h
  have hpast : (A ++ B).length ≤ i + 1 := by
    rw [List.length_append]
    have hB' : B.length ≤ 1 := by
      rcases hB with rfl | rfl
      · exact Nat.zero_le 1
      · exact Nat.le_refl 1
    rcases hA with rfl | rfl
    · rw [List.length_nil]
      omega
    · cases i with
      | zero => exact absurd (Option.some.inj h).symm (hact vector)
      | succ i =>
        rw [List.length_singleton]
        omega
  unfold callsFrom
  rw [hcode, List.drop_append, List.drop_eq_nil_of_le hpast, List.nil_append,
    List.filterMap_eq_nil_iff.mpr fun act hmem => (hC act (List.mem_of_mem_drop hmem)).1]
  rfl

/-- Only the end of the interrupt itself is sent. -/
theorem isrCode_eoi {vector i irq : ℕ} (h : (isrCode handlers vector)[i]? = some (.sendEoi irq)) :
    irq = vector := by
  obtain ⟨A, B, C, hcode, hA, hB, hC⟩ := isrCode_parts handlers vector
  have hmem := List.mem_of_getElem? h
  rw [hcode] at hmem
  rcases List.mem_append.mp hmem with hmem | hmem
  · rcases List.mem_append.mp hmem with hmem | hmem
    · rcases hA with rfl | rfl
      · exact absurd hmem List.not_mem_nil
      · exact IsrAction.sendEoi.inj (List.mem_singleton.mp hmem)
    · rcases hB with rfl | rfl
      · exact absurd hmem List.not_mem_nil
      · exact nomatch List.mem_singleton.mp hmem
  · exact (hC _ hmem).2 irq rfl

/-- The end of an interrupt is sent at the end. -/
theorem isrCode_line (handlers : ℕ → ℕ) {vector : ℕ} (hvector : 32 ≤ vector) (hcall : vector < 48) :
    ∃ i : ℕ, (isrCode handlers vector)[i]? = some (.sendEoi vector) := by
  have hmem : IsrAction.sendEoi vector ∈ isrCode handlers vector := by
    unfold isrCode
    rw [if_neg (by unfold intSyscall; omega)]
    unfold isrHandler
    rw [if_neg (show ¬vector < 32 by omega)]
    exact List.mem_append_right _ (List.mem_singleton.mpr rfl)
  exact List.mem_iff_getElem?.mp hmem

/-- The handlers of the kernel: `timer_tick` is only that of the timer. -/
structure TimerHandler (handlers : ℕ → ℕ) (timerTick : ℕ) : Prop where
  registered : handlers intPit = timerTick
  ne_zero : timerTick ≠ 0
  only : ∀ vector, handlers vector = timerTick → vector = intPit

theorem bootHandlers_timer {timerTick keyboardIsr : ℕ} (hzero : timerTick ≠ 0)
    (hne : keyboardIsr ≠ timerTick) :
    TimerHandler (bootHandlers timerTick keyboardIsr) timerTick where
  registered := by
    unfold bootHandlers registerInterruptHandler
    rw [Function.update_of_ne (by decide), Function.update_self]
  ne_zero := hzero
  only := by
    intro vector h
    unfold bootHandlers registerInterruptHandler at h
    by_cases hkeyboard : vector = intKeyboard
    · rw [hkeyboard, Function.update_self] at h
      exact absurd h hne
    · rw [Function.update_of_ne hkeyboard] at h
      by_contra htimer
      rw [Function.update_of_ne htimer] at h
      exact hzero h.symm

theorem TimerHandler.code (h : TimerHandler handlers timerTick) :
    isrCode handlers intPit = [.sendEoi intPit, .call timerTick, .sendEoi intPit] := by
  have hne : handlers intPit ≠ 0 := h.registered ▸ h.ne_zero
  unfold isrCode isrHandler
  rw [if_neg (by decide), if_pos rfl, if_pos hne, if_neg (by decide), h.registered]
  rfl

/-- `timer_tick` is called for the timer, when the end of the interrupt has been sent once. -/
theorem TimerHandler.ticking (h : TimerHandler handlers timerTick) {vector i : ℕ}
    (hcall : (isrCode handlers vector)[i]? = some (.call timerTick)) :
    vector = intPit ∧ i = 1 := by
  have hvector : vector = intPit := by
    obtain ⟨A, B, C, hcode, hA, hB, hC⟩ := isrCode_parts handlers vector
    have hmem := List.mem_of_getElem? hcall
    rw [hcode] at hmem
    rcases List.mem_append.mp hmem with hmem | hmem
    · rcases List.mem_append.mp hmem with hmem | hmem
      · rcases hA with rfl | rfl
        · exact absurd hmem List.not_mem_nil
        · exact nomatch List.mem_singleton.mp hmem
      · rcases hB with rfl | rfl
        · exact absurd hmem List.not_mem_nil
        · exact h.only vector (IsrAction.call.inj (List.mem_singleton.mp hmem)).symm
    · exact absurd (hC _ hmem).1 (Option.some_ne_none _)
  subst hvector
  rw [h.code] at hcall
  refine ⟨rfl, ?_⟩
  match i, hcall with
  | 0, hcall => exact nomatch Option.some.inj hcall
  | 1, _ => rfl
  | 2, hcall => exact nomatch Option.some.inj hcall
  | i + 3, hcall => exact nomatch hcall

/-! ### What holds in every run -/

/-- Only the outermost interrupt came while interrupts were on. -/
def Nested : List IsrFrame → Prop
  | [] => True
  | f :: l => f.flag = l.isEmpty ∧ Nested l

variable (handlers) in
/-- An interrupt that is inside a function is at an action that calls one. -/
def IsrFrame.Placed (f : IsrFrame) : Prop :=
  f.inside = true → ∃ act, (isrCode handlers f.vector)[f.pc]? = some act ∧
    ∀ irq, act ≠ .sendEoi irq

variable (handlers) in
/-- The interrupt of a line for which no end has been sent. -/
structure IsrFrame.Unended (f : IsrFrame) : Prop where
  line : 32 ≤ f.vector ∧ f.vector < 48
  none_sent : ∀ i < f.pc, ∀ irq, (isrCode handlers f.vector)[i]? ≠ some (.sendEoi irq)

/-- A task that does not run has not begun, or is in `timer_tick`. -/
def Suspended (handlers : ℕ → ℕ) (l : List IsrFrame) : Prop :=
  l = [freshFrame handlers] ∨ l = [⟨intPit, 1, true, true⟩]

namespace InterruptSystem

variable (handlers) in
/-- What holds in every run.  The interrupt in service, if there is one, is the outermost one of
    the current task, which has not sent its end yet. -/
structure Inv (y : InterruptSystem) : Prop where
  settings : y.pics.settings = readyPics
  flag : y.flag = y.stack.isEmpty
  nested : Nested y.stack
  placed : ∀ f ∈ y.stack, f.Placed handlers
  timer : ∀ f ∈ y.stack, f.vector = intPit → f.flag = true
  settled : ∀ f ∈ y.stack.tail, f.pending handlers = []
  suspended : ∀ a ≠ y.cur, Suspended handlers (y.frames a)
  single : y.pics.Single
  served : y.pics.Idle ∨ ∃ f ∈ y.stack.getLast?, f.Unended handlers
  log : y.called ++ (y.stack.head?.toList.flatMap fun f => f.pending handlers) =
    y.entered.flatMap fun vector => callsFrom handlers vector 0

@[simp] theorem stack_setStack (y : InterruptSystem) (l : List IsrFrame) :
    (y.setStack l).stack = l := Function.update_self _ _ _

theorem setStack_suspended (h : ∀ a ≠ y.cur, Suspended handlers (y.frames a)) (l : List IsrFrame) :
    ∀ a ≠ y.cur, Suspended handlers ((y.setStack l).frames a) := by
  intro a ha
  show Suspended handlers (Function.update y.frames y.cur l a)
  rw [Function.update_of_ne ha]
  exact h a ha

/-- Inside a function all calls have been made. -/
theorem pending_inside (hplaced : f.Placed handlers) (hinside : f.inside = true) :
    f.pending handlers = [] := by
  obtain ⟨act, hact, hsend⟩ := hplaced hinside
  unfold IsrFrame.pending
  rw [if_pos hinside]
  exact callsFrom_behind hact hsend

/-- Interrupts are on while the current task is in none. -/
theorem Inv.idle_of_flag (h : y.Inv handlers) (hflag : y.flag = true) :
    y.stack = [] ∧ y.pics.Idle := by
  have hempty : y.stack = [] := List.isEmpty_iff.mp (h.flag ▸ hflag)
  refine ⟨hempty, ?_⟩
  rcases h.served with hidle | ⟨f, hf, -⟩
  · exact hidle
  · rw [hempty] at hf
    exact nomatch hf

/-- A change of a line. -/
theorem Inv.onLine (h : y.Inv handlers) (g : Pic → ℕ → Pic) (hisr : ∀ q n, (g q n).isr = q.isr)
    (hsettings : ∀ q n, (g q n).settings = q.settings) (line : ℕ) :
    Inv handlers { y with pics := y.pics.onLine line g } := by
  obtain ⟨hmaster, hslave, hsame⟩ := Pics.onLine_keeps hisr hsettings y.pics line
  have hidle : (y.pics.onLine line g).Idle ↔ y.pics.Idle :=
    and_congr (Pic.idle_congr hmaster) (Pic.idle_congr hslave)
  have hsingle : (y.pics.onLine line g).Single ↔ y.pics.Single :=
    and_congr (Pic.single_congr hmaster) (Pic.single_congr hslave)
  exact
    { settings := hsame.trans h.settings
      flag := h.flag
      nested := h.nested
      placed := h.placed
      timer := h.timer
      settled := h.settled
      suspended := h.suspended
      single := hsingle.mpr h.single
      served := h.served.imp_left hidle.mpr
      log := h.log }

theorem stack_enter (y : InterruptSystem) (vector : ℕ) (pics : Pics) :
    (y.enter vector pics).stack = ⟨vector, 0, false, y.flag⟩ :: y.stack :=
  Function.update_self _ _ _

/-- Inside a function nothing is left to be called. -/
theorem Inv.settled_inCode (h : y.Inv handlers) (hcode : y.InCode) :
    ∀ f ∈ y.stack, f.pending handlers = [] := by
  intro f hf
  cases hstack : y.stack with
  | nil =>
    rw [hstack] at hf
    exact nomatch hf
  | cons g l =>
    have hinside : g.inside = true := hcode g (by rw [hstack]; rfl)
    have hplaced := h.placed
    have hsettled := h.settled
    rw [hstack] at hf hplaced hsettled
    rcases List.mem_cons.mp hf with rfl | hf
    · exact pending_inside (hplaced f List.mem_cons_self) hinside
    · exact hsettled f hf

/-- Through the gate of a vector: an interrupt while they are on, or another one inside of a
    function. -/
theorem Inv.enter (h : y.Inv handlers) {vector : ℕ} {pics : Pics}
    (hsettings : pics.settings = readyPics) (hsingle : pics.Single) (hcode : y.InCode)
    (htimer : vector = intPit → y.flag = true)
    (hserved : pics = y.pics ∨ y.stack = [] ∧ 32 ≤ vector ∧ vector < 48) :
    (y.enter vector pics).Inv handlers where
  settings := hsettings
  flag := by
    rw [stack_enter]
    rfl
  nested := by
    rw [stack_enter]
    exact ⟨h.flag, h.nested⟩
  placed := by
    rw [stack_enter]
    exact List.forall_mem_cons.mpr ⟨fun hinside => absurd hinside Bool.false_ne_true, h.placed⟩
  timer := by
    rw [stack_enter]
    exact List.forall_mem_cons.mpr ⟨htimer, h.timer⟩
  settled := by
    rw [stack_enter]
    exact h.settled_inCode hcode
  suspended := setStack_suspended h.suspended _
  single := hsingle
  served := by
    rw [stack_enter]
    rcases hserved with hsame | ⟨hempty, hline⟩
    · rcases h.served with hidle | ⟨f, hf, hunended⟩
      · exact .inl (show pics.Idle from hsame ▸ hidle)
      · refine .inr ⟨f, ?_, hunended⟩
        cases hstack : y.stack with
        | nil =>
          rw [hstack] at hf
          exact nomatch hf
        | cons g l =>
          rw [hstack] at hf
          exact hf
    · rw [hempty]
      exact .inr ⟨_, rfl, hline, fun i hi => absurd hi (Nat.not_lt_zero i)⟩
  log := by
    have hlog := h.log
    have hnone : (y.stack.head?.toList.flatMap fun f => f.pending handlers) = [] := by
      refine List.flatMap_eq_nil_iff.mpr fun f hf => h.settled_inCode hcode f ?_
      exact List.mem_of_mem_head? (Option.mem_toList.mp hf)
    rw [hnone, List.append_nil] at hlog
    rw [stack_enter]
    show y.called ++ (callsFrom handlers vector 0 ++ []) = (y.entered ++ [vector]).flatMap _
    rw [List.append_nil, hlog, List.flatMap_append, List.flatMap_singleton]

/-- The innermost interrupt goes on to `g`. -/
theorem Inv.goOn (h : y.Inv handlers) {l : List IsrFrame} (hstack : y.stack = f :: l)
    (g : IsrFrame) (pics : Pics) (called : List (ℕ × ℕ))
    (hsame : g.vector = f.vector ∧ g.flag = f.flag) (hsettings : pics.settings = readyPics)
    (hsingle : pics.Single)
    (hplaced : g.Placed handlers) (hidle : y.pics.Idle → pics.Idle)
    (hunended : l = [] → f.Unended handlers → pics.Idle ∨ g.Unended handlers)
    (hlog : called ++ g.pending handlers = y.called ++ f.pending handlers) :
    Inv handlers { y.setStack (g :: l) with pics := pics, called := called } := by
  have hstack' : ({ y.setStack (g :: l) with pics := pics, called := called } :
      InterruptSystem).stack = g :: l := stack_setStack y (g :: l)
  have hnested := h.nested
  have hplaceds := h.placed
  have htimer := h.timer
  have hsettled := h.settled
  have hserved := h.served
  have hlogs := h.log
  rw [hstack] at hnested hplaceds htimer hsettled hserved hlogs
  refine
    { settings := hsettings
      flag := ?_
      nested := ?_
      placed := ?_
      timer := ?_
      settled := ?_
      suspended := setStack_suspended h.suspended _
      single := hsingle
      served := ?_
      log := ?_ }
  · rw [hstack']
    show y.flag = false
    rw [h.flag, hstack]
    rfl
  · rw [hstack']
    exact ⟨hsame.2.trans hnested.1, hnested.2⟩
  · rw [hstack']
    exact List.forall_mem_cons.mpr ⟨hplaced, (List.forall_mem_cons.mp hplaceds).2⟩
  · rw [hstack']
    obtain ⟨hfirst, hrest⟩ := List.forall_mem_cons.mp htimer
    refine List.forall_mem_cons.mpr ⟨fun hpit => ?_, hrest⟩
    rw [hsame.2]
    exact hfirst (hsame.1 ▸ hpit)
  · rw [hstack']
    exact hsettled
  · rw [hstack']
    rcases hserved with hi | ⟨e, he, hwait⟩
    · exact .inl (hidle hi)
    · -- the outermost interrupt is the only one whose end may be missing
      cases l with
      | nil =>
        obtain rfl : f = e := Option.some.inj he
        rcases hunended rfl hwait with hi | hgo
        · exact .inl hi
        · exact .inr ⟨g, rfl, hgo⟩
      | cons e' l => exact .inr ⟨e, he, hwait⟩
  · rw [hstack']
    show called ++ (g.pending handlers ++ []) =
      y.entered.flatMap fun vector => callsFrom handlers vector 0
    rw [List.append_nil, hlog, ← hlogs]
    show _ = y.called ++ (f.pending handlers ++ [])
    rw [List.append_nil]

/-- The innermost interrupt returns. -/
theorem Inv.leave (h : y.Inv handlers) {l : List IsrFrame} (hstack : y.stack = f :: l)
    (hend : (isrCode handlers f.vector)[f.pc]? = none) (hout : f.inside = false) :
    Inv handlers { y.setStack l with flag := f.flag } := by
  have hstack' : ({ y.setStack l with flag := f.flag } : InterruptSystem).stack = l :=
    stack_setStack y l
  have hnested := h.nested
  have hplaceds := h.placed
  have htimer := h.timer
  have hsettled := h.settled
  have hserved := h.served
  have hlogs := h.log
  rw [hstack] at hnested hplaceds htimer hsettled hserved hlogs
  refine
    { settings := h.settings
      flag := ?_
      nested := ?_
      placed := ?_
      timer := ?_
      settled := ?_
      suspended := setStack_suspended h.suspended _
      single := h.single
      served := ?_
      log := ?_ }
  · rw [hstack']
    exact hnested.1
  · rw [hstack']
    exact hnested.2
  · rw [hstack']
    exact (List.forall_mem_cons.mp hplaceds).2
  · rw [hstack']
    exact (List.forall_mem_cons.mp htimer).2
  · rw [hstack']
    exact fun e he => hsettled e (List.mem_of_mem_tail he)
  · rw [hstack']
    rcases hserved with hi | ⟨e, he, hwait⟩
    · exact .inl hi
    · cases l with
      | nil =>
        -- it has sent its end, as that is the last thing it does
        obtain rfl : f = e := Option.some.inj he
        obtain ⟨i, hi⟩ := isrCode_line handlers hwait.line.1 hwait.line.2
        have hlt := (List.getElem?_eq_some_iff.mp hi).1
        have hle := List.getElem?_eq_none_iff.mp hend
        exact absurd hi (hwait.none_sent i (by omega) _)
      | cons e' l => exact .inr ⟨e, he, hwait⟩
  · rw [hstack']
    have hnone : f.pending handlers = [] := by
      unfold IsrFrame.pending
      rw [hout, if_neg Bool.false_ne_true]
      exact callsFrom_end hend
    have hrest : (l.head?.toList.flatMap fun e => e.pending handlers) = [] :=
      List.flatMap_eq_nil_iff.mpr fun e he =>
        hsettled e (List.mem_of_mem_head? (Option.mem_toList.mp he))
    rw [hrest]
    show y.called ++ [] = y.entered.flatMap fun vector => callsFrom handlers vector 0
    rw [← hlogs]
    show y.called ++ [] = y.called ++ (f.pending handlers ++ [])
    rw [hnone]
    rfl

/-- **The innermost interrupt goes on.** -/
theorem Inv.exec (h : y.Inv handlers) : (y.exec handlers).Inv handlers := by
  unfold InterruptSystem.exec
  cases hstack : y.stack with
  | nil => exact h
  | cons f l =>
    dsimp only
    have hplaced : f.Placed handlers := h.placed f (by rw [hstack]; exact List.mem_cons_self)
    cases hinside : f.inside with
    | true =>
      -- the function returns
      rw [if_pos rfl]
      obtain ⟨act, hact, hsend⟩ := hplaced hinside
      refine h.goOn hstack { f with pc := f.pc + 1, inside := false } y.pics y.called ⟨rfl, rfl⟩
        h.settings h.single (fun hin => absurd hin Bool.false_ne_true) id
        (fun _ hwait => .inr ⟨hwait.line, ?_⟩) ?_
      · intro i hi irq
        rcases Nat.lt_succ_iff_lt_or_eq.mp hi with hi | rfl
        · exact hwait.none_sent i hi irq
        · rw [hact]
          exact fun heq => hsend irq (Option.some.inj heq)
      · unfold IsrFrame.pending
        rw [hinside]
        rfl
    | false =>
      rw [if_neg Bool.false_ne_true]
      have hpending : f.pending handlers = callsFrom handlers f.vector f.pc := by
        unfold IsrFrame.pending
        rw [hinside]
        rfl
      -- a function is entered
      have hcall : ∀ (act : IsrAction) (called : List (ℕ × ℕ)),
          (isrCode handlers f.vector)[f.pc]? = some act → (∀ irq, act ≠ .sendEoi irq) →
          called = y.called ++ act.callee.toList.map (f.vector, ·) →
          Inv handlers { y.setStack ({ f with inside := true } :: l) with called := called } := by
        intro act called hact hsend hcalled
        refine h.goOn hstack { f with inside := true } y.pics called ⟨rfl, rfl⟩ h.settings h.single
          (fun _ => ⟨act, hact, hsend⟩) id (fun _ hwait => .inr ⟨hwait.line, hwait.none_sent⟩) ?_
        rw [hpending, callsFrom_cons hact, hcalled, List.append_assoc]
        rfl
      cases hact : (isrCode handlers f.vector)[f.pc]? with
      | none => exact h.leave hstack hact hinside
      | some act =>
        cases act with
        | sendEoi irq =>
          have hirq : irq = f.vector := isrCode_eoi hact
          refine h.goOn hstack { f with pc := f.pc + 1, inside := false } (picSendEoi irq y.pics)
            y.called ⟨rfl, rfl⟩ ((picSendEoi_settings irq y.pics).trans h.settings)
            (picSendEoi_single h.single irq) (fun hin => absurd hin Bool.false_ne_true)
            (picSendEoi_idle · irq) (fun _ hwait => .inl (picSendEoi_ends h.single ?_)) ?_
          · have hline := hwait.line.1
            omega
          · rw [hpending, callsFrom_cons hact]
            rfl
        | call handlerAddr => exact hcall _ _ hact (fun irq heq => nomatch heq) rfl
        | pageFault =>
          exact hcall _ _ hact (fun irq heq => nomatch heq) (List.append_nil _).symm
        | report intNum =>
          exact hcall _ _ hact (fun irq heq => nomatch heq) (List.append_nil _).symm
        | syscall =>
          exact hcall _ _ hact (fun irq heq => nomatch heq) (List.append_nil _).symm

/-- A task that does not run is in one interrupt, which has nothing left to call. -/
theorem suspended_stack (hhandlers : TimerHandler handlers timerTick) {l : List IsrFrame}
    (h : Suspended handlers l) :
    ∃ f, l = [f] ∧ f.flag = true ∧ f.Placed handlers ∧ f.pending handlers = [] := by
  rcases h with rfl | rfl
  · refine ⟨_, rfl, rfl, fun hin => absurd hin Bool.false_ne_true, callsFrom_end ?_⟩
    exact List.getElem?_eq_none_iff.mpr (Nat.le_refl _)
  · have hplaced : (⟨intPit, 1, true, true⟩ : IsrFrame).Placed handlers := by
      intro _
      refine ⟨.call timerTick, ?_, fun irq heq => nomatch heq⟩
      rw [hhandlers.code]
      rfl
    exact ⟨_, rfl, rfl, hplaced, pending_inside hplaced rfl⟩

/-- In `timer_tick` no interrupt is in service, and the timer's is the only one of the task. -/
theorem Inv.ticking (h : y.Inv handlers) (hhandlers : TimerHandler handlers timerTick)
    (htick : y.Ticking handlers timerTick) :
    y.stack = [⟨intPit, 1, true, true⟩] ∧ y.pics.Idle := by
  obtain ⟨f, hf, hinside, hcall⟩ := htick
  obtain ⟨hvector, hpc⟩ := hhandlers.ticking hcall
  have hnested := h.nested
  have htimer := h.timer
  have hserved := h.served
  cases hstack : y.stack with
  | nil =>
    rw [hstack] at hf
    exact nomatch hf
  | cons g l =>
    rw [hstack] at hf hnested htimer hserved
    obtain rfl : g = f := Option.some.inj hf
    have hflag : g.flag = true := htimer g List.mem_cons_self hvector
    have hl : l = [] := List.isEmpty_iff.mp (hnested.1 ▸ hflag)
    subst hl
    obtain ⟨vector, pc, inside, flag⟩ := g
    obtain rfl : vector = intPit := hvector
    obtain rfl : pc = 1 := hpc
    obtain rfl : inside = true := hinside
    obtain rfl : flag = true := hflag
    refine ⟨rfl, ?_⟩
    rcases hserved with hidle | ⟨e, he, hwait⟩
    · exact hidle
    · -- the end of the timer's interrupt is sent before the call
      obtain rfl : (⟨intPit, 1, true, true⟩ : IsrFrame) = e := Option.some.inj he
      refine absurd ?_ (hwait.none_sent 0 Nat.one_pos intPit)
      rw [hhandlers.code]
      rfl

/-- The scheduler goes on with another task. -/
theorem Inv.switch (h : y.Inv handlers) (hhandlers : TimerHandler handlers timerTick)
    (htick : y.Ticking handlers timerTick) (next : ℕ) : Inv handlers { y with cur := next } := by
  obtain ⟨hstack, hidle⟩ := h.ticking hhandlers htick
  by_cases hnext : next = y.cur
  · rw [hnext]
    exact h
  · obtain ⟨f, hf, hflag, hplaced, hpending⟩ := suspended_stack hhandlers (h.suspended next hnext)
    have hstack' : ({ y with cur := next } : InterruptSystem).stack = [f] := hf
    have hout : y.flag = false := by
      rw [h.flag, hstack]
      rfl
    have hlog := h.log
    have hcur : (⟨intPit, 1, true, true⟩ : IsrFrame).Placed handlers :=
      h.placed _ (by rw [hstack]; exact List.mem_singleton.mpr rfl)
    refine
      { settings := h.settings
        flag := ?_
        nested := ?_
        placed := ?_
        timer := ?_
        settled := ?_
        suspended := ?_
        single := h.single
        served := .inl hidle
        log := ?_ }
    · rw [hstack']
      exact hout
    · rw [hstack']
      exact ⟨hflag, trivial⟩
    · rw [hstack']
      exact List.forall_mem_singleton.mpr hplaced
    · rw [hstack']
      exact List.forall_mem_singleton.mpr fun _ => hflag
    · rw [hstack']
      exact List.forall_mem_nil _
    · -- the task that is left stays inside `timer_tick`
      intro a ha
      by_cases hcura : a = y.cur
      · subst hcura
        exact .inr hstack
      · exact h.suspended a hcura
    · rw [hstack']
      rw [hstack] at hlog
      show y.called ++ (f.pending handlers ++ []) =
        y.entered.flatMap fun vector => callsFrom handlers vector 0
      rw [hpending, ← hlog]
      show _ = y.called ++ (IsrFrame.pending handlers _ ++ [])
      rw [pending_inside hcur rfl]

theorem Inv.create (h : y.Inv handlers) {a : ℕ} (ha : a ≠ y.cur) :
    Inv handlers { y with frames := Function.update y.frames a [freshFrame handlers] } := by
  have hstack : ({ y with frames := Function.update y.frames a [freshFrame handlers] } :
      InterruptSystem).stack = y.stack := Function.update_of_ne ha.symm _ _
  refine
    { settings := h.settings
      flag := ?_
      nested := ?_
      placed := ?_
      timer := ?_
      settled := ?_
      suspended := ?_
      single := h.single
      served := ?_
      log := ?_ }
  · rw [hstack]
    exact h.flag
  · rw [hstack]
    exact h.nested
  · rw [hstack]
    exact h.placed
  · rw [hstack]
    exact h.timer
  · rw [hstack]
    exact h.settled
  · intro b hb
    show Suspended handlers (Function.update y.frames a [freshFrame handlers] b)
    by_cases hba : b = a
    · rw [hba, Function.update_self]
      exact .inl rfl
    · rw [Function.update_of_ne hba]
      exact h.suspended b hb
  · rw [hstack]
    exact h.served
  · rw [hstack]
    exact h.log

variable (handlers) in
/-- The end of the boot: the controllers have been set up and interrupts are on. -/
structure Boot (y : InterruptSystem) : Prop where
  pics : ∃ p, y.pics = picInit picMasterOffset picSlaveOffset p
  flag : y.flag = true
  stack : y.stack = []
  others : ∀ a ≠ y.cur, y.frames a = [freshFrame handlers]
  none_yet : y.entered = [] ∧ y.called = []

theorem Boot.inv (h : y.Boot handlers) : y.Inv handlers := by
  obtain ⟨p, hpics⟩ := h.pics
  rw [picInit_eq] at hpics
  have hidle : y.pics.Idle := by
    rw [hpics]
    exact ⟨fun _ => rfl, fun _ => rfl⟩
  refine
    { settings := ?_
      flag := ?_
      nested := ?_
      placed := ?_
      timer := ?_
      settled := ?_
      suspended := fun a ha => .inl (h.others a ha)
      single := hidle.single
      served := .inl hidle
      log := ?_ }
  · rw [hpics]
    rfl
  · rw [h.stack, h.flag]
    rfl
  · rw [h.stack]
    trivial
  · rw [h.stack]
    exact List.forall_mem_nil _
  · rw [h.stack]
    exact List.forall_mem_nil _
  · rw [h.stack]
    exact List.forall_mem_nil _
  · rw [h.stack, h.none_yet.1, h.none_yet.2]
    rfl

end InterruptSystem

/-- **Every step** keeps what holds in every run. -/
theorem InterruptStep.inv (hhandlers : TimerHandler handlers timerTick) (h : y.Inv handlers)
    (hstep : InterruptStep handlers timerTick y y') : y'.Inv handlers := by
  cases hstep with
  | raise line => exact h.onLine Pic.raise (fun _ _ => rfl) (fun _ _ => rfl) line
  | lower line => exact h.onLine Pic.lower (fun _ _ => rfl) (fun _ _ => rfl) line
  | accept late hflag =>
    obtain ⟨hempty, hidle⟩ := h.idle_of_flag hflag
    have hcode : y.InCode := by
      intro f hf
      rw [hempty] at hf
      exact nomatch hf
    exact h.enter ((y.pics.acknowledge_settings late).trans h.settings) (hidle.acknowledge late)
      hcode (fun _ => hflag) (.inr ⟨hempty, acknowledge_range h.settings late⟩)
  | fault vector hvector hcode =>
    exact h.enter h.settings h.single hcode
      (fun hpit => absurd (hpit ▸ hvector) (by decide)) (.inl rfl)
  | syscall huser =>
    have hcode : y.InCode := by
      intro f hf
      rw [huser] at hf
      exact nomatch hf
    exact h.enter h.settings h.single hcode (fun hpit => absurd hpit (by decide)) (.inl rfl)
  | exec => exact h.exec
  | switch next htick => exact h.switch hhandlers htick next
  | create a ha => exact h.create ha

theorem interruptRun_inv (hhandlers : TimerHandler handlers timerTick) {y₀ : InterruptSystem}
    (hboot : y₀.Boot handlers)
    (hrun : Relation.ReflTransGen (InterruptStep handlers timerTick) y₀ y) : y.Inv handlers := by
  induction hrun with
  | refl => exact hboot.inv
  | tail _ hstep ih => exact hstep.inv hhandlers ih

/-! ### The way back -/

/-- What is called for a vector: the handler that has been registered. -/
theorem callsFrom_zero (handlers : ℕ → ℕ) (vector : ℕ) :
    callsFrom handlers vector 0 =
      if vector ≠ intSyscall ∧ handlers vector ≠ 0 then [(vector, handlers vector)] else [] := by
  unfold callsFrom
  rw [List.drop_zero]
  unfold isrCode
  by_cases hcall : vector = intSyscall
  · rw [if_pos hcall, if_neg fun h => h.1 hcall]
    rfl
  · rw [if_neg hcall]
    unfold isrHandler
    have hsent : (if vector = intPit then [IsrAction.sendEoi vector] else []).filterMap
        IsrAction.callee = [] := by
      split
      · rfl
      · rfl
    have hrest : (if vector < 32 then
          if vector = intPageFault then [IsrAction.pageFault, IsrAction.sendEoi vector]
          else [IsrAction.report vector, IsrAction.sendEoi vector]
        else [IsrAction.sendEoi vector]).filterMap IsrAction.callee = [] := by
      split
      · split
        · rfl
        · rfl
      · rfl
    rw [List.filterMap_append, List.filterMap_append, hsent, hrest, List.nil_append,
      List.append_nil]
    by_cases hnull : handlers vector = 0
    · rw [if_neg (not_not_intro hnull), if_neg fun h => h.2 hnull]
      rfl
    · rw [if_pos hnull, if_pos ⟨hcall, hnull⟩]
      rfl

variable (handlers) in
/-- The steps up to the end of an interrupt. -/
def IsrFrame.cost (f : IsrFrame) : ℕ :=
  2 * ((isrCode handlers f.vector).length - f.pc) + if f.inside then 1 else 2

namespace InterruptSystem

variable (handlers) in
def cost (y : InterruptSystem) : ℕ := (y.stack.map (IsrFrame.cost handlers)).sum

/-- What a step of an interrupt leaves: it is over, or nearer to its end. -/
theorem Inv.exec_step (h : y.Inv handlers) {l : List IsrFrame} (hstack : y.stack = f :: l) :
    ((y.exec handlers).entered = y.entered ∧
      (y.exec handlers).pics.requested = y.pics.requested) ∧
      ((y.exec handlers).stack = l ∨
        ∃ g, (y.exec handlers).stack = g :: l ∧ g.cost handlers < f.cost handlers) := by
  have hplaced : f.Placed handlers := h.placed f (by rw [hstack]; exact List.mem_cons_self)
  have hnext : ({ f with pc := f.pc + 1, inside := false } : IsrFrame).cost handlers =
      2 * ((isrCode handlers f.vector).length - (f.pc + 1)) + 2 := rfl
  have hinto : ({ f with inside := true } : IsrFrame).cost handlers =
      2 * ((isrCode handlers f.vector).length - f.pc) + 1 := rfl
  have hstacks : ∀ g : IsrFrame, (y.setStack (g :: l)).stack = g :: l :=
    fun g => stack_setStack y (g :: l)
  unfold InterruptSystem.exec
  rw [hstack]
  dsimp only
  cases hinside : f.inside with
  | true =>
    obtain ⟨act, hact, -⟩ := hplaced hinside
    have hlt := (List.getElem?_eq_some_iff.mp hact).1
    have hcost : f.cost handlers = 2 * ((isrCode handlers f.vector).length - f.pc) + 1 := by
      unfold IsrFrame.cost
      rw [if_pos hinside]
    rw [if_pos rfl]
    refine ⟨⟨rfl, rfl⟩, .inr ⟨{ f with pc := f.pc + 1, inside := false }, hstacks _, ?_⟩⟩
    omega
  | false =>
    have hcost : f.cost handlers = 2 * ((isrCode handlers f.vector).length - f.pc) + 2 := by
      unfold IsrFrame.cost
      rw [hinside]
      rfl
    rw [if_neg Bool.false_ne_true]
    cases hact : (isrCode handlers f.vector)[f.pc]? with
    | none => exact ⟨⟨rfl, rfl⟩, .inl (stack_setStack y l)⟩
    | some act =>
      have hlt := (List.getElem?_eq_some_iff.mp hact).1
      have hless : ({ f with inside := true } : IsrFrame).cost handlers < f.cost handlers := by
        omega
      cases act with
      | sendEoi irq =>
        refine ⟨⟨rfl, picSendEoi_requested irq y.pics⟩,
          .inr ⟨{ f with pc := f.pc + 1, inside := false }, ?_, ?_⟩⟩
        · exact hstacks { f with pc := f.pc + 1, inside := false }
        · omega
      | call handlerAddr =>
        exact ⟨⟨rfl, rfl⟩, .inr ⟨_, hstacks { f with inside := true }, hless⟩⟩
      | pageFault => exact ⟨⟨rfl, rfl⟩, .inr ⟨{ f with inside := true }, hstacks _, hless⟩⟩
      | report intNum => exact ⟨⟨rfl, rfl⟩, .inr ⟨{ f with inside := true }, hstacks _, hless⟩⟩
      | syscall => exact ⟨⟨rfl, rfl⟩, .inr ⟨{ f with inside := true }, hstacks _, hless⟩⟩

theorem Inv.exec_cost (h : y.Inv handlers) (hstack : y.stack ≠ []) :
    (y.exec handlers).cost handlers < y.cost handlers := by
  obtain ⟨f, l, hfl⟩ := List.exists_cons_of_ne_nil hstack
  have hpos : 0 < f.cost handlers := by
    unfold IsrFrame.cost
    split <;> omega
  unfold cost
  rw [hfl, List.map_cons, List.sum_cons]
  rcases (h.exec_step hfl).2 with hl | ⟨g, hg, hless⟩
  · rw [hl]
    omega
  · rw [hg, List.map_cons, List.sum_cons]
    omega

/-- **The interrupts of the current task return**, if it is left to itself. -/
theorem Inv.returns (h : y.Inv handlers) :
    ∃ n, ((InterruptSystem.exec handlers)^[n] y).Inv handlers ∧
      ((InterruptSystem.exec handlers)^[n] y).stack = [] ∧
      ((InterruptSystem.exec handlers)^[n] y).entered = y.entered ∧
      ((InterruptSystem.exec handlers)^[n] y).pics.requested = y.pics.requested := by
  induction hcost : y.cost handlers using Nat.strong_induction_on generalizing y with
  | _ m ih =>
    by_cases hstack : y.stack = []
    · exact ⟨0, h, hstack, rfl, rfl⟩
    · obtain ⟨f, l, hfl⟩ := List.exists_cons_of_ne_nil hstack
      obtain ⟨⟨hentered, hrequested⟩, -⟩ := h.exec_step hfl
      obtain ⟨n, hinv, hempty, hentered', hrequested'⟩ :=
        ih _ (hcost ▸ h.exec_cost hstack) h.exec rfl
      exact ⟨n + 1, hinv, hempty, hentered'.trans hentered, hrequested'.trans hrequested⟩

end InterruptSystem

/-- Handlers are called for the timer and the keyboard. -/
theorem bootHandlers_calls {timerTick keyboardIsr : ℕ} (htimer : timerTick ≠ 0)
    (hkeyboard : keyboardIsr ≠ 0) (vectors : List ℕ) :
    (vectors.flatMap fun vector => callsFrom (bootHandlers timerTick keyboardIsr) vector 0) =
      (vectors.filter fun vector => vector = intPit ∨ vector = intKeyboard).map
        (fun vector => (vector, bootHandlers timerTick keyboardIsr vector)) := by
  have hone : ∀ vector, vector ≠ intSyscall ∧ bootHandlers timerTick keyboardIsr vector ≠ 0 ↔
      vector = intPit ∨ vector = intKeyboard := by
    intro vector
    unfold bootHandlers registerInterruptHandler
    by_cases hk : vector = intKeyboard
    · rw [hk, Function.update_self]
      exact iff_of_true ⟨by decide, hkeyboard⟩ (.inr rfl)
    · by_cases hp : vector = intPit
      · rw [Function.update_of_ne hk, hp, Function.update_self]
        exact iff_of_true ⟨by decide, htimer⟩ (.inl rfl)
      · rw [Function.update_of_ne hk, Function.update_of_ne hp]
        exact iff_of_false (fun h => h.2 rfl) fun h => h.elim hp hk
  induction vectors with
  | nil => rfl
  | cons vector vectors ih =>
    rw [List.flatMap_cons, ih, callsFrom_zero]
    by_cases hcall : vector = intPit ∨ vector = intKeyboard
    · rw [if_pos ((hone vector).mpr hcall), List.filter_cons, if_pos (decide_eq_true hcall)]
      rfl
    · rw [if_neg (mt (hone vector).mp hcall), List.filter_cons,
        if_neg (mt of_decide_eq_true hcall)]
      rfl

/-- **No line is left blocked.**  In every run, whatever devices do to their lines and whenever the
scheduler goes on with another task, nothing is in service while interrupts are on.  When the
current task has left its interrupts, each one of the timer or of the keyboard so far has had its
handler called, once and in this order, and the processor takes the request with the highest
priority of all that have been waiting: line `n` by the vector `32 + n`. -/
theorem interruptRun_delivers {timerTick keyboardIsr : ℕ} (htimer : timerTick ≠ 0)
    (hkeyboard : keyboardIsr ≠ 0) (hne : keyboardIsr ≠ timerTick) {y₀ y : InterruptSystem}
    (hboot : y₀.Boot (bootHandlers timerTick keyboardIsr))
    (hrun : Relation.ReflTransGen
      (InterruptStep (bootHandlers timerTick keyboardIsr) timerTick) y₀ y) :
    (y.flag = true → y.stack = [] ∧ y.pics.Idle) ∧
      ∃ n, let z := (exec (bootHandlers timerTick keyboardIsr))^[n] y
        z.flag = true ∧
        z.called = (y.entered.filter fun vector => vector = intPit ∨ vector = intKeyboard).map
          (fun vector => (vector, bootHandlers timerTick keyboardIsr vector)) ∧
        (z.pics.acknowledge false).1 = (Pics.lines.find? y.pics.requested).elim 39 (32 + ·) := by
  have hinv := interruptRun_inv (bootHandlers_timer htimer hne) hboot hrun
  refine ⟨hinv.idle_of_flag, ?_⟩
  obtain ⟨n, hz, hempty, hentered, hrequested⟩ := hinv.returns
  refine ⟨n, ?_⟩
  dsimp only
  have hflag : ((exec (bootHandlers timerTick keyboardIsr))^[n] y).flag = true := by
    rw [hz.flag, hempty]
    rfl
  obtain ⟨-, hidle⟩ := hz.idle_of_flag hflag
  have hlog := hz.log
  rw [hempty, hentered] at hlog
  refine ⟨hflag, ?_, ?_⟩
  · rw [← bootHandlers_calls htimer hkeyboard, ← hlog]
    exact (List.append_nil _).symm
  · rw [acknowledge_ready hz.settings hidle, hrequested]

/-- One task, behind the boot. -/
def bootedSystem : InterruptSystem where
  pics := readyPics
  flag := true
  cur := 0
  frames a := if a = 0 then [] else [freshFrame (bootHandlers 0x1000 0x2000)]
  entered := []
  called := []

/-- A key is pressed and the timer ticks. -/
theorem interruptRun_delivers_key :
    let y : InterruptSystem := { bootedSystem with
      pics := (readyPics.onLine 1 Pic.raise).onLine 0 Pic.raise }
    (y.flag = true → y.stack = [] ∧ y.pics.Idle) ∧
      ∃ n, let z := (exec (bootHandlers 0x1000 0x2000))^[n] y
        z.flag = true ∧
        z.called = (y.entered.filter fun vector => vector = intPit ∨ vector = intKeyboard).map
          (fun vector => (vector, bootHandlers 0x1000 0x2000 vector)) ∧
        (z.pics.acknowledge false).1 = (Pics.lines.find? y.pics.requested).elim 39 (32 + ·) :=
  interruptRun_delivers (by decide) (by decide) (by decide)
    { pics := ⟨readyPics, rfl⟩
      flag := rfl
      stack := rfl
      others := fun a ha => if_neg ha
      none_yet := ⟨rfl, rfl⟩ }
    (.tail (.tail .refl (.raise bootedSystem 1)) (.raise _ 0))

end Rotary

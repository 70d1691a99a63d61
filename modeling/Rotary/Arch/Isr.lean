import Rotary.Arch.ContextSwitch
import Rotary.Arch.Descriptors
import Rotary.Lib.X86Interrupt

namespace Rotary

open Lib

/-!
# The way into the kernel and back (`isr.asm`)

An interrupt enters through the stub of its vector, which pushes what the processor has not, and
`isr_dispatch` hands the C handler a pointer to a `struct isr_registers` that begins at the last
word pushed.

* `isrEnter` — the interrupt, the stub and `isr_dispatch` up to the call;
* `isrEnter_frame` — what the handler finds in the struct, for every vector and both rings;
* `isrLeave_restores` — whatever the handler does, the interrupted code goes on as it was.

Control is followed through the entry code and behind the call of the handler; in between it is any
change of the processor that leaves the frame alone.
-/

/-! ### The routines -/

/-- What the stub of a vector pushes: an error code if the processor has none for it, and the
    vector. -/
def isrStubPushes (n : ℕ) : List ℕ :=
  if n ∈ [8, 10, 11, 12, 13, 14, 17, 21] then [n] else if n < 32 then [0, n] else [n - 32, n]

/-- `isr0` to `isr47`. -/
def isrStub (n : ℕ) : List EntryInstr := (isrStubPushes n).map .pushByte

/-- `isr_dispatch` up to the call. -/
def isrDispatch : List EntryInstr :=
  [ .cli,
    .pushad,
    .pushSeg .ds,
    .instr (.push .esp) ]

/-- `isr_dispatch` behind the call. -/
def isrReturn : List Instr := .add .esp 4 :: isrExit

/-- `struct isr_registers`. -/
structure IsrRegisters where
  ds : ℕ
  edi : ℕ
  esi : ℕ
  ebp : ℕ
  esp : ℕ
  ebx : ℕ
  edx : ℕ
  ecx : ℕ
  eax : ℕ
  intNum : ℕ
  errorCode : ℕ
  eip : ℕ
  cs : ℕ
  eflags : ℕ
  userEsp : ℕ
  userSs : ℕ
  deriving DecidableEq, Repr

namespace IsrRegisters

/-- The words of the struct, without those that only an interrupt of a user leaves. -/
def words (r : IsrRegisters) : List ℕ :=
  [r.ds, r.edi, r.esi, r.ebp, r.esp, r.ebx, r.edx, r.ecx, r.eax, r.intNum, r.errorCode,
    r.eip, r.cs, r.eflags]

/-- The word for a register. -/
def reg (r : IsrRegisters) : Reg → ℕ
  | .eax => r.eax
  | .ecx => r.ecx
  | .edx => r.edx
  | .ebx => r.ebx
  | .esp => r.esp
  | .ebp => r.ebp
  | .esi => r.esi
  | .edi => r.edi

end IsrRegisters

/-- The vectors for which the processor pushes an error code. -/
def errorVectors : List ℕ := [8, 10, 11, 12, 13, 14, 17, 21]

/-- An interrupt of the vector, the stub and `isr_dispatch`; `handleAddr` is the address of the
    stub. -/
def isrEnter (tss : InnerStack) (handleAddr n : ℕ) (error : Option ℕ) (s : X86) : X86 :=
  runEntry (isrStub n ++ isrDispatch) (interrupt tss (gateFor handleAddr idtDplKernel) error s)

/-! ### The frame -/

/-- The interrupted code is of an outer ring, so that the stack is switched. -/
def FromUser (s : X86) : Prop := 0 < s.seg .cs % 4

instance (s : X86) : Decidable (FromUser s) := inferInstanceAs (Decidable (0 < s.seg .cs % 4))

/-- The end of the stack that the frame is pushed on. -/
def stackEnd (tss : InnerStack) (s : X86) : ℕ := if FromUser s then tss.esp0 else s.reg .esp

/-- The error code in the frame; for an interrupt of the PIC it is the line. -/
def frameError (n : ℕ) (error : Option ℕ) : ℕ := error.getD (if n < 32 then 0 else n - 32)

/-- The frame of an interrupt. -/
def trapFrame (tss : InnerStack) (n : ℕ) (error : Option ℕ) (s : X86) : IsrRegisters where
  ds := s.seg .ds
  edi := s.reg .edi
  esi := s.reg .esi
  ebp := s.reg .ebp
  esp := stackEnd tss s - if FromUser s then 28 else 20
  ebx := s.reg .ebx
  edx := s.reg .edx
  ecx := s.reg .ecx
  eax := s.reg .eax
  intNum := n
  errorCode := frameError n error
  eip := s.eip.val
  cs := s.seg .cs
  eflags := s.eflags
  userEsp := s.reg .esp
  userSs := s.seg .ss

/-- The words that are there for a user only. -/
def userWords (s : X86) : List ℕ := if FromUser s then [s.reg .esp, s.seg .ss] else []

/-- The bytes of the frame. -/
def frameSize (s : X86) : ℕ := if FromUser s then 64 else 56

/-- Where an interrupt may come: the selectors have 16 bits, and there is room on the stack for the
    frame, the pointer to it and the return address of the handler. -/
structure Interruptible (tss : InnerStack) (s : X86) : Prop where
  seg_lt : ∀ r, s.seg r < 2 ^ 16
  lt : stackEnd tss s < 2 ^ 32
  room : frameSize s + 8 ≤ stackEnd tss s

/-- The processor pushes an error code for its vectors. -/
structure ErrorCode (n : ℕ) (error : Option ℕ) : Prop where
  isSome : error.isSome = true ↔ n ∈ errorVectors
  lt : ∀ e ∈ error, e < 2 ^ 32

variable {tss : InnerStack} {g : Gate} {handleAddr n e : ℕ} {error : Option ℕ} {s t u v : X86}
  {r : IsrRegisters} {ws : List ℕ} {q : Reg}

/-- Whoever pushes it, there is an error code below the vector. -/
theorem error_stub (h : ErrorCode n error) :
    error.toList ++ isrStubPushes n = [frameError n error, n] := by
  have hpushes : n ∈ [8, 10, 11, 12, 13, 14, 17, 21] ↔ error.isSome = true := h.isSome.symm
  unfold isrStubPushes
  cases error with
  | some e => rw [if_pos (hpushes.mpr rfl)]; rfl
  | none =>
    rw [if_neg (fun hn => absurd (hpushes.mp hn) (by decide))]
    unfold frameError
    split
    · rfl
    · rfl

/-- `isr_dispatch` pushes the registers, `ds`, and a pointer to what it pushed. -/
theorem runEntry_isrDispatch (hcli : t.flag interruptFlag = false) :
    runEntry isrDispatch t =
      t.pushWords (allRegs.map t.reg ++
        [t.seg .ds, ((t.pushWords (allRegs.map t.reg)).push (t.seg .ds)).reg .esp]) := by
  have hsame : execEntry t .cli = t := by
    simp only [execEntry, ← hcli, Function.update_eq_self]
  rw [isrDispatch, runEntry_cons, hsame, X86.pushWords_append]
  show (_ : X86).push _ = _
  rfl

theorem fromUser_iff {dpl : ℕ} :
    (gateFor handleAddr dpl).selector % 4 < s.seg .cs % 4 ↔ FromUser s := by
  have hsel : (gateFor handleAddr dpl).selector = gdtKernelCodeOffset := rfl
  have hring : gdtKernelCodeOffset % 4 = 0 := rfl
  rw [hsel, hring, FromUser]

/-- The gates of the kernel switch the stack for a user only. -/
theorem onInnerStack_esp {dpl : ℕ} (h : stackEnd tss s < 2 ^ 32) :
    (onInnerStack tss (gateFor handleAddr dpl) s).reg .esp = stackEnd tss s := by
  unfold onInnerStack stackEnd
  by_cases hu : FromUser s
  · rw [stackEnd, if_pos hu] at h
    rw [if_pos (fromUser_iff.mpr hu), if_pos hu, X86.reg_setSeg, X86.reg_setReg_self,
      Nat.mod_eq_of_lt h]
  · rw [if_neg (mt fromUser_iff.mp hu), if_neg hu]

theorem interruptWords_gateFor {dpl : ℕ} (s : X86) :
    (interruptWords (gateFor handleAddr dpl) error s).reverse =
      error.toList.reverse ++ s.eip.val :: s.seg .cs :: s.eflags :: userWords s := by
  unfold interruptWords userWords
  by_cases hu : FromUser s
  · rw [if_pos (fromUser_iff.mpr hu), if_pos hu]
    simp
  · rw [if_neg (mt fromUser_iff.mp hu), if_neg hu]
    simp

/-- On the way into the kernel: the words are on the stack of the kernel, interrupts are off, and
    the registers are those of the interrupted code. -/
structure InKernel (tss : InnerStack) (s t : X86) (ws : List ℕ) : Prop where
  stacked : Stacked t ws
  esp : t.reg .esp + 4 * ws.length = stackEnd tss s
  reg : ∀ q, q ≠ .esp → t.reg q = s.reg q
  seg : ∀ r, r ≠ .cs → r ≠ .ss → t.seg r = s.seg r
  cs : t.seg .cs = gdtKernelCodeOffset
  ss : ¬ FromUser s → t.seg .ss = s.seg .ss
  flag : t.flag interruptFlag = false
  frame : ∀ x, (x < t.reg .esp ∨ stackEnd tss s ≤ x) → t.mem x = s.mem x

/-- Pushing goes on. -/
theorem InKernel.pushWords (h : InKernel tss s t ws) (vs : List ℕ)
    (hroom : 4 * (vs.length + ws.length) ≤ stackEnd tss s) (hvs : ∀ v ∈ vs, v < 2 ^ 32) :
    InKernel tss s (t.pushWords vs) (vs.reverse ++ ws) := by
  have hesp := h.esp
  have hmoved := t.reg_pushWords_esp vs (by omega)
  refine
    { stacked := h.stacked.pushWords (by omega) hvs
      esp := ?_
      reg := fun q hq => (t.reg_pushWords_of_ne vs hq).trans (h.reg q hq)
      seg := fun r hcs hss => (congrFun (t.pushWords_seg vs) r).trans (h.seg r hcs hss)
      cs := (congrFun (t.pushWords_seg vs) _).trans h.cs
      ss := fun hu => (congrFun (t.pushWords_seg vs) _).trans (h.ss hu)
      flag := (congrFun (t.pushWords_flag vs) _).trans h.flag
      frame := fun x hx => ?_ }
  · rw [List.length_append, List.length_reverse]
    omega
  · rw [t.pushWords_mem vs (by omega) (by omega)]
    exact h.frame x (by omega)

theorem length_userWords (s : X86) : 4 * (userWords s).length + 56 = frameSize s := by
  unfold userWords frameSize
  split
  · rfl
  · rfl

/-- The interrupt itself. -/
theorem interrupt_inKernel (handleAddr dpl : ℕ) (hs : Interruptible tss s)
    (he : ∀ e ∈ error, e < 2 ^ 32) :
    InKernel tss s (interrupt tss (gateFor handleAddr dpl) error s)
      (error.toList.reverse ++ s.eip.val :: s.seg .cs :: s.eflags :: userWords s) := by
  have hlt := hs.lt
  have hsize := hs.room
  have huser := length_userWords s
  have hone : error.toList.length ≤ 1 := by
    cases error with
    | none => exact Nat.zero_le 1
    | some e => exact Nat.le_refl 1
  have hbase : (onInnerStack tss (gateFor handleAddr dpl) s).reg .esp = stackEnd tss s :=
    onInnerStack_esp hlt
  -- as many words as there are in the frame
  have hlen : (interruptWords (gateFor handleAddr dpl) error s).length =
      error.toList.length + (3 + (userWords s).length) := by
    rw [← List.length_reverse, interruptWords_gateFor]
    simp only [List.length_append, List.length_reverse, List.length_cons]
    omega
  have hfits : 4 * (interruptWords (gateFor handleAddr dpl) error s).length ≤
      (onInnerStack tss (gateFor handleAddr dpl) s).reg .esp := by
    rw [hbase, hlen]
    omega
  have hstacked := interrupt_stacked (by rw [hbase]; exact hlt) hfits hs.seg_lt he
  have hmoved := X86.reg_pushWords_esp _ _ hfits
  rw [hbase] at hmoved
  rw [interruptWords_gateFor] at hstacked
  refine
    { stacked := hstacked
      esp := ?_
      reg := fun q hq => ?_
      seg := fun r hcs hss => ?_
      cs := ?_
      ss := fun hu => ?_
      flag := ?_
      frame := fun x hx => ?_ }
  · rw [reg_interrupt, hmoved, hlen]
    simp only [List.length_append, List.length_reverse, List.length_cons]
    omega
  · rw [reg_interrupt, X86.reg_pushWords_of_ne _ _ hq, reg_onInnerStack_of_ne _ _ _ hq]
  · rw [interrupt_seg_of_ne _ _ _ _ hcs, onInnerStack_seg_of_ne _ _ _ hss]
  · exact interrupt_seg_cs tss _ error s
  · have hne : SegReg.ss ≠ .cs := by decide
    rw [interrupt_seg_of_ne _ _ _ _ hne, onInnerStack, if_neg (mt fromUser_iff.mp hu)]
  · exact interrupt_flag tss error s rfl
  · rw [reg_interrupt, hmoved] at hx
    rw [interrupt_mem, X86.pushWords_mem _ _ hfits (by rw [hbase]; exact hx), onInnerStack_mem]

/-- At the first instruction of `isr_dispatch` the vector is on top. -/
theorem stub_inKernel (handleAddr dpl : ℕ) (hs : Interruptible tss s) (he : ErrorCode n error)
    (hn : n < 48) :
    InKernel tss s (runEntry (isrStub n) (interrupt tss (gateFor handleAddr dpl) error s))
      (n :: frameError n error :: s.eip.val :: s.seg .cs :: s.eflags :: userWords s) := by
  have hroom := hs.room
  have huser := length_userWords s
  have hpushes := error_stub he
  have htotal := congrArg List.length hpushes
  rw [List.length_append] at htotal
  simp only [List.length_cons, List.length_nil] at htotal
  have hbytes : ∀ v ∈ isrStubPushes n, v < 2 ^ 32 := by
    intro v hv
    unfold isrStubPushes at hv
    split at hv
    · simp at hv
      omega
    · split at hv
      · simp at hv
        omega
      · simp at hv
        omega
  have hpushed := (interrupt_inKernel handleAddr dpl hs he.lt).pushWords (isrStubPushes n) (by
      simp only [List.length_append, List.length_reverse, List.length_cons]
      omega) hbytes
  rw [← List.append_assoc, ← List.reverse_append, hpushes] at hpushed
  rw [isrStub, runEntry_pushBytes]
  exact hpushed

/-- Where `isr_dispatch` calls the handler, the struct lies on the stack below the pointer to it. -/
theorem isrEnter_inKernel (handleAddr : ℕ) (hs : Interruptible tss s) (he : ErrorCode n error)
    (hn : n < 48) :
    InKernel tss s (isrEnter tss handleAddr n error s)
      (((isrEnter tss handleAddr n error s).reg .esp + 4) ::
        ((trapFrame tss n error s).words ++ userWords s)) := by
  have hroom := hs.room
  have hlt := hs.lt
  have huser := length_userWords s
  have hds := hs.seg_lt .ds
  have hstub := stub_inKernel handleAddr idtDplKernel hs he hn
  generalize ht : runEntry (isrStub n)
    (interrupt tss (gateFor handleAddr idtDplKernel) error s) = t at hstub
  have hesp := hstub.esp
  simp only [List.length_cons] at hesp
  -- the word that `pushad` stores for `ESP`
  have hframe : t.reg .esp = (trapFrame tss n error s).esp := by
    show t.reg .esp = stackEnd tss s - if FromUser s then 28 else 20
    unfold frameSize at hroom huser
    split at huser
    · rw [if_pos ‹_›]
      omega
    · rw [if_neg ‹_›]
      omega
  have henter : isrEnter tss handleAddr n error s = t.pushWords (allRegs.map t.reg ++
      [t.seg .ds, ((t.pushWords (allRegs.map t.reg)).push (t.seg .ds)).reg .esp]) := by
    rw [isrEnter, runEntry_append, ht, runEntry_isrDispatch hstub.flag]
  generalize hptr : ((t.pushWords (allRegs.map t.reg)).push (t.seg .ds)).reg .esp = ptr at henter
  have hregs : allRegs.map t.reg = [s.reg .eax, s.reg .ecx, s.reg .edx, s.reg .ebx,
      (trapFrame tss n error s).esp, s.reg .ebp, s.reg .esi, s.reg .edi] := by
    rw [← hframe, ← hstub.reg .eax (by decide), ← hstub.reg .ecx (by decide),
      ← hstub.reg .edx (by decide), ← hstub.reg .ebx (by decide), ← hstub.reg .ebp (by decide),
      ← hstub.reg .esi (by decide), ← hstub.reg .edi (by decide)]
    rfl
  have hseg : t.seg .ds = s.seg .ds := hstub.seg .ds (by decide) (by decide)
  have hptr' : ptr + 36 = t.reg .esp := by
    have hmoved := t.reg_pushWords_esp (allRegs.map t.reg) (by simp [allRegs]; omega)
    have hlen : (allRegs.map t.reg).length = 8 := rfl
    rw [← hptr, X86.reg_push_esp (by omega), hmoved]
    omega
  rw [hregs, hseg] at henter
  have hpushed := hstub.pushWords ([s.reg .eax, s.reg .ecx, s.reg .edx, s.reg .ebx,
      (trapFrame tss n error s).esp, s.reg .ebp, s.reg .esi, s.reg .edi] ++ [s.seg .ds, ptr])
    (by simp only [List.length_append, List.length_cons, List.length_nil]; omega)
    (by
      have hreg := s.reg_lt
      have hesp' := t.reg_lt .esp
      simp only [List.cons_append, List.nil_append, List.forall_mem_cons, hreg, true_and]
      refine ⟨by omega, by omega, by omega, by simp⟩)
  rw [← henter] at hpushed
  have hlast : (isrEnter tss handleAddr n error s).reg .esp + 4 = ptr := by
    have h := hpushed.esp
    simp only [List.length_append, List.length_reverse, List.length_cons, List.length_nil] at h
    omega
  rw [hlast]
  exact hpushed

/-! ### What the handler finds -/

/-- The `struct isr_registers` at `a`. -/
def readRegisters (m : ByteMem) (a : ℕ) : IsrRegisters where
  ds := load m (a + offDs)
  edi := load m (a + 4)
  esi := load m (a + 8)
  ebp := load m (a + 12)
  esp := load m (a + 16)
  ebx := load m (a + 20)
  edx := load m (a + 24)
  ecx := load m (a + 28)
  eax := load m (a + 32)
  intNum := load m (a + 36)
  errorCode := load m (a + 40)
  eip := load m (a + offEip)
  cs := load m (a + offCs)
  eflags := load m (a + offEflags)
  userEsp := load m (a + offUserEsp)
  userSs := load m (a + offUserSs)

/-- The struct is read as it was pushed. -/
theorem readRegisters_words {m : ByteMem} {a : ℕ} (h : WordsAt m a (r.words ++ ws)) :
    (readRegisters m a).words = r.words ∧
      (ws = [r.userEsp, r.userSs] → readRegisters m a = r) := by
  obtain ⟨hds, hedi, hesi, hebp, hesp, hebx, hedx, hecx, heax, hint, herr, heip, hcs, hflags, hws⟩ :=
    h
  refine ⟨?_, ?_⟩
  · simp only [IsrRegisters.words, readRegisters, List.cons.injEq, and_true]
    exact ⟨hds, hedi, hesi, hebp, hesp, hebx, hedx, hecx, heax, hint, herr, heip, hcs, hflags⟩
  · rintro rfl
    obtain ⟨huser, hss, -⟩ := hws
    cases r
    simp only [readRegisters, IsrRegisters.mk.injEq]
    exact ⟨hds, hedi, hesi, hebp, hesp, hebx, hedx, hecx, heax, hint, herr, heip, hcs, hflags,
      huser, hss⟩

/-- **The frame.**  The handler of a vector is called with interrupts off and a pointer to a
    `struct isr_registers` at the end of the stack of the kernel, which has the registers of the
    interrupted code, the vector and its error code; for a user it has his stack as well.  The
    handler runs with the data segments of the interrupted code, `GS` among them.  Nothing above
    the struct is written. -/
theorem isrEnter_frame (hs : Interruptible tss s) (he : ErrorCode n error) (hn : n < 48) :
    let t := isrEnter tss handleAddr n error s
    let regs := load t.mem (t.reg .esp)
    regs + frameSize s = stackEnd tss s ∧
      (readRegisters t.mem regs).words = (trapFrame tss n error s).words ∧
      (FromUser s → readRegisters t.mem regs = trapFrame tss n error s) ∧
      t.flag interruptFlag = false ∧ t.seg .cs = gdtKernelCodeOffset ∧
      (∀ r, r ≠ .cs → r ≠ .ss → t.seg r = s.seg r) ∧
      ∀ x, (x < t.reg .esp ∨ stackEnd tss s ≤ x) → t.mem x = s.mem x := by
  intro t regs
  have henter : InKernel tss s t ((t.reg .esp + 4) :: ((trapFrame tss n error s).words ++
      userWords s)) := isrEnter_inKernel handleAddr hs he hn
  have hregs : regs = t.reg .esp + 4 := henter.stacked.top
  have hread := readRegisters_words henter.stacked.words.2
  have hesp := henter.esp
  have huser := length_userWords s
  simp only [IsrRegisters.words, List.length_cons, List.length_append, List.length_nil] at hesp
  refine ⟨?_, ?_, fun hu => ?_, henter.flag, henter.cs, henter.seg, henter.frame⟩
  · rw [hregs]
    omega
  · rw [hregs]
    exact hread.1
  · rw [hregs]
    exact hread.2 (if_pos hu)

/-! ### The way back -/

/-- The handler has returned: the stack is where it was, the kernel's segments are loaded, and the
    struct is as it was pushed. -/
structure HandlerReturned (s t v : X86) : Prop where
  esp : v.reg .esp = t.reg .esp
  cs : v.seg .cs = t.seg .cs
  ss : ¬ FromUser s → v.seg .ss = t.seg .ss
  frame : ∀ x, t.reg .esp + 4 ≤ x → x < t.reg .esp + 4 + frameSize s → v.mem x = t.mem x

/-- The interrupted code goes on: the processor has its registers and flags, and the memory that
    the kernel leaves. -/
structure Restored (s v w : X86) : Prop where
  reg : ∀ q, w.reg q = s.reg q
  eip : w.eip = s.eip
  flag : ∀ i < 32, w.flag i = s.flag i
  cs : w.seg .cs = s.seg .cs
  ss : w.seg .ss = s.seg .ss
  data : ∀ r ∈ [SegReg.ds, .es, .fs], w.seg r = s.seg .ds
  gs : ¬ FromUser s → w.seg .gs = 0x30
  mem : w.mem = v.mem

/-- The part of `isr_exit` that loads the selectors. -/
def loadSegs (s : X86) : X86 :=
  exec (.movSeg .gs .eax) (exec (.movAx 0x30) (exec (.movSeg .fs .eax) (exec (.movSeg .es .eax)
    (exec (.movSeg .ds .eax) (exec (.pop .eax) s)))))

/-- `isr_exit` up to the `iret`. -/
def beforeIret (s : X86) : X86 := exec .sti (exec (.add .esp 8) (exec .popad (loadSegs s)))

/-- The selectors that `isr_exit` loads, with `ds` the word on top. -/
def exitSeg (seg : SegReg → ℕ) (ds : ℕ) : SegReg → ℕ
  | .ds | .es | .fs => ds % 2 ^ 16
  | .gs => 0x30
  | r => seg r

theorem loadSegs_spec {w : ℕ} (h : Stacked s (w :: ws)) :
    Stacked (loadSegs s) ws ∧ (loadSegs s).reg .esp = s.reg .esp + 4 ∧
      (loadSegs s).mem = s.mem ∧ (loadSegs s).seg = exitSeg s.seg w := by
  obtain ⟨hpop, heax⟩ := h.pop (show Reg.eax ≠ .esp by decide)
  have hesp : (loadSegs s).reg .esp = (s.pop .eax).reg .esp :=
    X86.reg_setReg_of_ne (show Reg.esp ≠ .eax by decide)
  have hmoved : (s.pop .eax).reg .esp = s.drop.reg .esp :=
    X86.reg_setReg_of_ne (show Reg.esp ≠ .eax by decide)
  refine ⟨hpop.congr hesp fun _ _ _ => rfl, by rw [hesp, hmoved, h.drop_esp], rfl, ?_⟩
  funext r
  cases r with
  | ds => exact congrArg (· % 2 ^ 16) heax
  | es => exact congrArg (· % 2 ^ 16) heax
  | fs => exact congrArg (· % 2 ^ 16) heax
  | gs =>
    -- the upper half of `EAX` is not loaded
    have hax : ((loadSegs s).reg .eax) % 2 ^ 16 = 0x30 := by
      have hset : (loadSegs s).reg .eax =
          ((s.pop .eax).reg .eax / 2 ^ 16 * 2 ^ 16 + 0x30 % 2 ^ 16) % 2 ^ 32 :=
        X86.reg_setReg_self _ _ _
      rw [hset]
      omega
    exact hax
  | cs => rfl
  | ss => rfl

/-- The registers are popped, and the place of the interrupted code is on top. -/
theorem beforeIret_spec (h : Stacked s (r.words ++ ws)) :
    Stacked (beforeIret s) (r.eip :: r.cs :: r.eflags :: ws) ∧
      (beforeIret s).reg .esp = s.reg .esp + offEip ∧
      (∀ q, q ≠ .esp → (beforeIret s).reg q = r.reg q) ∧
      (beforeIret s).mem = s.mem ∧ (beforeIret s).seg = exitSeg s.seg r.ds := by
  obtain ⟨hload, hstart, hmem, hseg⟩ := loadSegs_spec h
  unfold beforeIret
  generalize loadSegs s = t at hload hstart hmem hseg
  have hpopad : Stacked t ([r.edi, r.esi, r.ebp, r.esp, r.ebx, r.edx, r.ecx, r.eax] ++
    r.intNum :: r.errorCode :: r.eip :: r.cs :: r.eflags :: ws) := hload
  obtain ⟨hpops, hmoved, hregs⟩ := hpopad.pops [some .edi, some .esi, some .ebp, none, some .ebx,
    some .edx, some .ecx, some .eax] rfl (by decide) (by decide)
  have hu : t.pops [some .edi, some .esi, some .ebp, none, some .ebx, some .edx, some .ecx,
    some .eax] = exec .popad t := by simp only [exec, popad]
  have hfits := hpops.fits
  rw [hu] at hpops hmoved hregs hfits
  simp only [List.length_cons] at hfits
  -- the vector and the error code are skipped
  have hesp : (exec .sti (exec (.add .esp 8) (exec .popad t))).reg .esp =
      (exec .popad t).drop.drop.reg .esp := by
    rw [reg_sti, reg_add_self (by omega), hpops.drop.drop_esp, hpops.drop_esp]
  have hreg : ∀ q, q ≠ .esp →
      (exec .sti (exec (.add .esp 8) (exec .popad t))).reg q = (exec .popad t).reg q :=
    fun q hq => by rw [reg_sti, reg_add_of_ne hq]
  refine ⟨hpops.drop.drop.congr hesp fun _ _ _ => rfl, ?_, fun q hq => ?_, ?_, ?_⟩
  · rw [hesp, hpops.drop.drop_esp, hpops.drop_esp, hmoved, hstart]
    rfl
  · rw [hreg q hq]
    cases q with
    | esp => exact absurd rfl hq
    | _ => exact hregs _ _ (by simp [IsrRegisters.reg])
  · rw [sti_mem, add_mem, popad_mem, hmem]
  · rw [← hseg]
    simp only [exec, popad, X86.setReg_seg, X86.pops_seg]

/-- The `iret` at the end of entry code: in both rings the stack is restored too. -/
theorem iret_resumes {b : X86} (hseg : ∀ r, s.seg r < 2 ^ 16)
    (hstack : Stacked b (s.eip.val :: s.seg .cs :: s.eflags :: userWords s))
    (hring : b.seg .cs % 4 = 0)
    (hkernel : ¬ FromUser s → b.seg .ss = s.seg .ss ∧ b.reg .esp + 12 = s.reg .esp) :
    Returns b (exec .iret b) s.eip.val (s.seg .cs) s.eflags ∧
      (exec .iret b).reg .esp = s.reg .esp ∧ (exec .iret b).seg .ss = s.seg .ss := by
  by_cases hu : FromUser s
  · have huserWords : userWords s = [s.reg .esp, s.seg .ss] := if_pos hu
    rw [huserWords] at hstack
    obtain ⟨hreturns, hesp, hss⟩ := iret_outer hstack (by rw [hring]; exact hu)
    exact ⟨hreturns, hesp, hss.trans (Nat.mod_eq_of_lt (hseg .ss))⟩
  · obtain ⟨hreturns, hesp, hss⟩ := iret_inner hstack (by rw [hring]; exact hu)
    obtain ⟨hkss, hkesp⟩ := hkernel hu
    exact ⟨hreturns, hesp.trans hkesp, hss.trans hkss⟩

/-- From a frame behind the pointer on top of the stack, `isr_dispatch` goes back to the code that
    the frame is of. -/
theorem isrReturn_restores (hseg : ∀ r, s.seg r < 2 ^ 16)
    (hfits : v.reg .esp + 4 + frameSize s < 2 ^ 32)
    (hframe : WordsAt v.mem (v.reg .esp + 4) ((trapFrame tss n error s).words ++ userWords s))
    (hcs : v.seg .cs = gdtKernelCodeOffset)
    (hkernel : ¬ FromUser s → v.seg .ss = s.seg .ss ∧ v.reg .esp + 60 = s.reg .esp) :
    Restored s v (run 0 isrReturn v) := by
  have huser := length_userWords s
  have hwords : (trapFrame tss n error s).words.length = 14 := rfl
  have hexit : run 0 isrReturn v = exec .iret (beforeIret (exec (.add .esp 4) v)) := rfl
  -- the pointer is skipped
  have hstart : (exec (.add .esp 4) v).reg .esp = v.reg .esp + 4 := reg_add_self (by omega)
  have hstacked : Stacked (exec (.add .esp 4) v)
      ((trapFrame tss n error s).words ++ userWords s) := by
    refine ⟨?_, ?_⟩
    · rw [hstart, List.length_append, hwords]
      omega
    · rw [hstart, add_mem]
      exact hframe
  obtain ⟨hstack, hesp, hreg, hmem, hsegs⟩ := beforeIret_spec hstacked
  rw [hexit]
  have hring : (beforeIret (exec (.add .esp 4) v)).seg .cs % 4 = 0 := by
    rw [hsegs]
    show v.seg .cs % 4 = 0
    rw [hcs]
    rfl
  have hss : (beforeIret (exec (.add .esp 4) v)).seg .ss = v.seg .ss := by
    rw [hsegs]
    rfl
  have hgpr : ∀ q, q ≠ .esp → (trapFrame tss n error s).reg q = s.reg q := by
    intro q hq
    cases q with
    | esp => exact absurd rfl hq
    | _ => rfl
  generalize beforeIret (exec (.add .esp 4) v) = b at hstack hesp hreg hmem hsegs hring hss
  have hmod : ∀ r, s.seg r % 2 ^ 16 = s.seg r := fun r => Nat.mod_eq_of_lt (hseg r)
  obtain ⟨hw, hwesp, hwss⟩ := iret_resumes hseg hstack hring fun hu => by
    obtain ⟨hkss, hkesp⟩ := hkernel hu
    refine ⟨hss.trans hkss, ?_⟩
    rw [hesp, hstart, ← hkesp, offEip]
  have hdata : ∀ r, r ≠ .cs → r ≠ .ss → (exec .iret b).seg r =
      exitSeg (exec (.add .esp 4) v).seg (s.seg .ds) r :=
    fun r h₁ h₂ => (hw.seg r h₁ h₂).trans (congrFun hsegs r)
  exact
    { reg := fun q => by
        by_cases hq : q = .esp
        · rw [hq]
          exact hwesp
        · rw [hw.reg q hq, hreg q hq, hgpr q hq]
      eip := Fin.ext hw.eip
      flag := fun i hi => by rw [hw.flag, s.testBit_eflags hi]
      cs := hw.cs.trans (hmod .cs)
      ss := hwss
      data := by
        intro r hr
        simp only [List.mem_cons, List.not_mem_nil, or_false] at hr
        rcases hr with rfl | rfl | rfl
        · exact (hdata .ds (by decide) (by decide)).trans (hmod .ds)
        · exact (hdata .es (by decide) (by decide)).trans (hmod .ds)
        · exact (hdata .fs (by decide) (by decide)).trans (hmod .ds)
      gs := fun _ => hdata .gs (by decide) (by decide)
      mem := by rw [hw.mem, hmem, add_mem] }

/-- **The way back.**  For every vector and both rings: when the handler has returned,
    `isr_dispatch` leads back to the interrupted code, with its registers, its flags and its
    stack. -/
theorem isrLeave_restores (hs : Interruptible tss s) (he : ErrorCode n error) (hn : n < 48)
    (hv : HandlerReturned s (isrEnter tss handleAddr n error s) v) :
    Restored s v (run 0 isrReturn v) := by
  have henter := isrEnter_inKernel handleAddr hs he hn
  generalize isrEnter tss handleAddr n error s = t at henter hv
  have huser := length_userWords s
  have hlt := hs.lt
  have hspace := henter.esp
  have hwords : (trapFrame tss n error s).words.length = 14 := rfl
  rw [List.length_cons, List.length_append, hwords] at hspace
  have hframe :
      WordsAt v.mem (v.reg .esp + 4) ((trapFrame tss n error s).words ++ userWords s) := by
    rw [hv.esp]
    refine henter.stacked.words.2.congr fun x h₁ h₂ => hv.frame x h₁ ?_
    rw [List.length_append, hwords] at h₂
    omega
  refine isrReturn_restores hs.seg_lt ?_ hframe (hv.cs.trans henter.cs)
    fun hu => ⟨(hv.ss hu).trans (henter.ss hu), ?_⟩
  · rw [hv.esp]
    omega
  · have hend : stackEnd tss s = s.reg .esp := if_neg hu
    have hsize : frameSize s = 56 := if_neg hu
    rw [hv.esp]
    omega

/-! ### A user program that is interrupted -/

/-- Two states that are the same for a user; the kernel's memory is `K`, and `GS` is its own. -/
structure SameUser (K : Set ℕ) (s t : X86) : Prop where
  reg : ∀ q, t.reg q = s.reg q
  eip : t.eip = s.eip
  flag : ∀ i < 32, t.flag i = s.flag i
  seg : ∀ r, r ≠ .gs → t.seg r = s.seg r
  mem : ∀ x, x ∉ K → t.mem x = s.mem x

/-- User code runs in an outer ring, with one segment for its data. -/
structure InUserMode (s : X86) : Prop where
  ring : FromUser s
  es : s.seg .es = s.seg .ds
  fs : s.seg .fs = s.seg .ds

/-- The next instruction of a user program: it stays in user mode, and what it does depends on
    nothing of the kernel. -/
structure UserCode (K : Set ℕ) (step : X86 → X86) : Prop where
  stays : ∀ s, InUserMode s → InUserMode (step s)
  sees : ∀ s t, SameUser K s t → SameUser K (step s) (step t)

/-- A user program that has made `k` steps of its own from `s` to `t`.  In between come interrupts
    of any vector, and each is handled in the memory of the kernel. -/
inductive InterruptedRun (K : Set ℕ) (tss : InnerStack) (isr : ℕ → ℕ) (step : X86 → X86)
    (s : X86) : ℕ → X86 → Prop
  | start : InterruptedRun K tss isr step s 0 s
  | step (k : ℕ) (t : X86) : InterruptedRun K tss isr step s k t →
      InterruptedRun K tss isr step s (k + 1) (step t)
  | interrupt (k n : ℕ) (error : Option ℕ) (t v : X86) : InterruptedRun K tss isr step s k t →
      n < 48 → ErrorCode n error → Interruptible tss t →
      HandlerReturned t (isrEnter tss (isr n) n error t) v →
      (∀ x, x ∉ K → v.mem x = (isrEnter tss (isr n) n error t).mem x) →
      InterruptedRun K tss isr step s k (run 0 isrReturn v)

variable {K : Set ℕ} {step : X86 → X86} {isr : ℕ → ℕ} {k : ℕ}

/-- One interrupt is nothing to the user. -/
theorem interrupt_sameUser (hK : ∀ x, tss.esp0 - 68 ≤ x → x < tss.esp0 → x ∈ K)
    (hmode : InUserMode t) (hn : n < 48) (he : ErrorCode n error) (hs : Interruptible tss t)
    (hv : HandlerReturned t (isrEnter tss handleAddr n error t) v)
    (hmem : ∀ x, x ∉ K → v.mem x = (isrEnter tss handleAddr n error t).mem x) :
    SameUser K t (run 0 isrReturn v) := by
  have hback := isrLeave_restores hs he hn hv
  have henter := isrEnter_inKernel handleAddr hs he hn
  have hspace := henter.esp
  have huser : userWords t = [t.reg .esp, t.seg .ss] := if_pos hmode.ring
  have hend : stackEnd tss t = tss.esp0 := if_pos hmode.ring
  have hwords : (trapFrame tss n error t).words.length = 14 := rfl
  simp only [huser, hend, List.length_cons, List.length_append, List.length_nil, hwords] at hspace
  exact
    { reg := hback.reg
      eip := hback.eip
      flag := hback.flag
      seg := fun r hr => by
        cases r with
        | cs => exact hback.cs
        | ss => exact hback.ss
        | ds => exact hback.data .ds (by decide)
        | es => exact (hback.data .es (by decide)).trans hmode.es.symm
        | fs => exact (hback.data .fs (by decide)).trans hmode.fs.symm
        | gs => exact absurd rfl hr
      mem := fun x hx => by
        -- the frame is pushed in the memory of the kernel
        have hout : ¬ (tss.esp0 - 68 ≤ x ∧ x < tss.esp0) := fun h => hx (hK x h.1 h.2)
        rw [hback.mem, hmem x hx]
        exact henter.frame x (by rw [hend]; omega) }

theorem SameUser.trans {K : Set ℕ} {s t u : X86} (h₁ : SameUser K s t) (h₂ : SameUser K t u) :
    SameUser K s u where
  reg q := (h₂.reg q).trans (h₁.reg q)
  eip := h₂.eip.trans h₁.eip
  flag i hi := (h₂.flag i hi).trans (h₁.flag i hi)
  seg r hr := (h₂.seg r hr).trans (h₁.seg r hr)
  mem x hx := (h₂.mem x hx).trans (h₁.mem x hx)

/-- What is the same for a user is in user mode if it is at all. -/
theorem SameUser.inUserMode (h : SameUser K s t) (hs : InUserMode s) : InUserMode t where
  ring := by
    have hring := hs.ring
    unfold FromUser at *
    rwa [h.seg .cs (by decide)]
  es := by rw [h.seg .es (by decide), h.seg .ds (by decide), hs.es]
  fs := by rw [h.seg .fs (by decide), h.seg .ds (by decide), hs.fs]

/-- A user program that counts in `EAX`. -/
def counting (s : X86) : X86 :=
  { s.setReg .eax (s.reg .eax + 1) with eip := word (s.eip.val + 1) }

/-- It has begun, below the kernel, whose stack ends at `0xC0420000`. -/
def countingStart : X86 where
  gpr := fun r => word (if r = .esp then 0x440000 else 0)
  seg := fun r => if r = .cs then 0x1B else 0x23
  eip := word 0x400000
  cr3 := word 0x1000
  flag := fun i => i = interruptFlag
  mem := fun _ => 0

def kernelTss : InnerStack := ⟨0xC0420000, gdtKernelDataOffset⟩

theorem counting_userCode : UserCode {x | 0xC0000000 ≤ x} counting where
  stays _ hs := ⟨hs.ring, hs.es, hs.fs⟩
  sees s t h :=
    { reg := fun q => by
        show (t.setReg .eax (t.reg .eax + 1)).reg q = (s.setReg .eax (s.reg .eax + 1)).reg q
        by_cases hq : q = .eax
        · rw [hq, X86.reg_setReg_self, X86.reg_setReg_self, h.reg]
        · rw [X86.reg_setReg_of_ne hq, X86.reg_setReg_of_ne hq, h.reg]
      eip := congrArg (fun i : Fin (2 ^ 32) => word (i.val + 1)) h.eip
      flag := h.flag
      seg := h.seg
      mem := h.mem }

theorem countingStart_interruptible (h : s = countingStart ∨ s = counting countingStart) :
    Interruptible kernelTss s := by
  have hseg : ∀ r, s.seg r < 2 ^ 16 := by
    rcases h with rfl | rfl
    · intro r; cases r <;> decide
    · intro r; cases r <;> decide
  refine ⟨hseg, ?_, ?_⟩
  · rcases h with rfl | rfl
    · decide +kernel
    · decide +kernel
  · rcases h with rfl | rfl
    · decide +kernel
    · decide +kernel

/-- The timer comes between two steps. -/
theorem countingRun :
    InterruptedRun {x | 0xC0000000 ≤ x} kernelTss (fun n => 0xC0100000 + 16 * n) counting
      countingStart 2
      (counting (run 0 isrReturn
        (isrEnter kernelTss 0xC0100200 32 none (counting countingStart)))) :=
  .step 1 _ (.interrupt 1 32 none _ _ (.step 0 _ .start) (by decide) ⟨by decide, by simp⟩
    (countingStart_interruptible (Or.inr rfl)) ⟨rfl, rfl, fun _ => rfl, fun _ _ _ => rfl⟩
    fun _ _ => rfl)

/-- The struct of that interrupt. -/
theorem isrEnter_frame_tick :
    readRegisters (isrEnter kernelTss 0xC0100200 32 none countingStart).mem
        (load (isrEnter kernelTss 0xC0100200 32 none countingStart).mem
          ((isrEnter kernelTss 0xC0100200 32 none countingStart).reg .esp)) =
      trapFrame kernelTss 32 none countingStart :=
  (isrEnter_frame (countingStart_interruptible (Or.inl rfl)) ⟨by decide, by simp⟩
    (by decide)).2.2.1 (by decide)

end Rotary

import Rotary.Arch.Isr

namespace Rotary

open Lib

/-!
# System calls (`isr64` in `isr.asm`, `syscall.c`)

A user raises vector 64 with the number of the call in `EAX` and its arguments in the other
registers.  `isr64` has an entry and an exit of its own, with a struct of its own.

* `syscallEnter` — the interrupt and `isr64` up to the call of the handler;
* `syscall_dispatches` — the handler makes the call that the registers of the user say;
* `syscall_returns` — the user goes on behind the `int 64` with all its registers but `EAX`.

What `syscall_write` does is left out: it only writes to the log.
-/

def syscallWrite : ℕ := 0x01

/-- `struct syscall_regs`. -/
structure SyscallRegs where
  ebx : ℕ
  ecx : ℕ
  edx : ℕ
  esi : ℕ
  edi : ℕ
  ebp : ℕ
  ds : ℕ
  es : ℕ
  fs : ℕ
  gs : ℕ
  syscallNo : ℕ
  deriving DecidableEq, Repr

/-- `isr64` up to the call. -/
def isr64Entry : List EntryInstr :=
  [ .cli,
    .instr (.push .eax),
    .pushSeg .gs,
    .pushSeg .fs,
    .pushSeg .es,
    .pushSeg .ds,
    .instr (.push .ebp),
    .instr (.push .edi),
    .instr (.push .esi),
    .instr (.push .edx),
    .instr (.push .ecx),
    .instr (.push .ebx),
    .instr (.push .esp) ]

/-- `isr64` behind the call. -/
def isr64Exit : List EntryInstr :=
  [ .instr (.add .esp 4),
    .instr (.pop .ebx),
    .instr (.pop .ecx),
    .instr (.pop .edx),
    .instr (.pop .esi),
    .instr (.pop .edi),
    .instr (.pop .ebp),
    .popSeg .ds,
    .popSeg .es,
    .popSeg .fs,
    .popSeg .gs,
    .instr (.add .esp 4),
    .instr .sti,
    .instr .iret ]

/-- `int 64`, and `isr64` up to the call; `handleAddr` is its address. -/
def syscallEnter (tss : InnerStack) (handleAddr : ℕ) (s : X86) : X86 :=
  runEntry isr64Entry (interrupt tss (gateFor handleAddr idtDplUser) none s)

/-- The `struct syscall_regs` at `a`. -/
def readSyscallRegs (m : ByteMem) (a : ℕ) : SyscallRegs where
  ebx := load m a
  ecx := load m (a + 4)
  edx := load m (a + 8)
  esi := load m (a + 12)
  edi := load m (a + 16)
  ebp := load m (a + 20)
  ds := load m (a + 24)
  es := load m (a + 28)
  fs := load m (a + 32)
  gs := load m (a + 36)
  syscallNo := load m (a + 40)

/-- The calls that `syscall_handler` makes. -/
inductive SyscallAction
  | write (descriptorId srcBuffer size : ℕ)
  | invalid (syscallNo : ℕ)
  deriving DecidableEq, Repr

/-- `syscall_handler`. -/
def syscallHandler (regs : SyscallRegs) : SyscallAction :=
  if regs.syscallNo = syscallWrite then .write regs.edi regs.esi regs.edx
  else .invalid regs.syscallNo

/-! ### The entry -/

variable {tss : InnerStack} {handleAddr : ℕ} {s t u v w : X86} {ws : List ℕ}

/-- The registers that a call finds. -/
def syscallRegsOf (s : X86) : SyscallRegs where
  ebx := s.reg .ebx
  ecx := s.reg .ecx
  edx := s.reg .edx
  esi := s.reg .esi
  edi := s.reg .edi
  ebp := s.reg .ebp
  ds := s.seg .ds
  es := s.seg .es
  fs := s.seg .fs
  gs := s.seg .gs
  syscallNo := s.reg .eax

def SyscallRegs.words (r : SyscallRegs) : List ℕ :=
  [r.ebx, r.ecx, r.edx, r.esi, r.edi, r.ebp, r.ds, r.es, r.fs, r.gs, r.syscallNo]

/-- What is pushed behind the frame of the processor, the first word first. -/
def syscallPushes (s : X86) : List ℕ := (syscallRegsOf s).words.reverse

theorem runEntry_isr64Entry (hcli : t.flag interruptFlag = false) :
    runEntry isr64Entry t =
      t.pushWords (syscallPushes t ++ [(t.pushWords (syscallPushes t)).reg .esp]) := by
  have hsame : execEntry t .cli = t := by
    simp only [execEntry, ← hcli, Function.update_eq_self]
  have hcode : isr64Entry = .cli :: ((([Reg.eax].map fun r => .instr (.push r)) ++
      [SegReg.gs, .fs, .es, .ds].map .pushSeg ++
      [Reg.ebp, .edi, .esi, .edx, .ecx, .ebx].map fun r => .instr (.push r)) ++
      [.instr (.push .esp)]) := rfl
  rw [hcode, runEntry_cons, hsame, runEntry_append, runEntry_append, runEntry_append,
    runEntry_pushRegs _ (by decide), runEntry_pushSegs, runEntry_pushRegs _ (by decide),
    X86.pushWords_seg]
  -- what is pushed is what was there before
  have hregs : ∀ u : X86, (∀ q, q ≠ .esp → u.reg q = t.reg q) →
      [Reg.ebp, .edi, .esi, .edx, .ecx, .ebx].map u.reg =
        [Reg.ebp, .edi, .esi, .edx, .ecx, .ebx].map t.reg := by
    intro u hu
    refine List.map_congr_left fun q hq => hu q ?_
    rintro rfl
    exact absurd hq (by decide)
  rw [hregs _ fun q hq => by rw [X86.reg_pushWords_of_ne _ _ hq, X86.reg_pushWords_of_ne _ _ hq],
    ← X86.pushWords_append, ← X86.pushWords_append, X86.pushWords_append t (syscallPushes t)]
  rfl

theorem syscallRegsOf_words_lt (hs : Interruptible tss s) :
    ∀ v ∈ syscallPushes s, v < 2 ^ 32 := by
  have hreg := s.reg_lt
  have hseg : ∀ r, s.seg r < 2 ^ 32 := fun r => (hs.seg_lt r).trans (by decide)
  intro v hv
  rw [syscallPushes, List.mem_reverse] at hv
  revert v
  simp only [SyscallRegs.words, syscallRegsOf, List.forall_mem_cons, hreg, hseg, true_and]
  simp

/-- Where `isr64` calls the handler, the struct lies on the stack below the pointer to it. -/
theorem syscallEnter_inKernel (handleAddr : ℕ) (hs : Interruptible tss s) :
    InKernel tss s (syscallEnter tss handleAddr s)
      (((syscallEnter tss handleAddr s).reg .esp + 4) ::
        ((syscallRegsOf s).words ++ s.eip.val :: s.seg .cs :: s.eflags :: userWords s)) := by
  have hroom := hs.room
  have hlt := hs.lt
  have huser := length_userWords s
  have hnone : ∀ e ∈ (none : Option ℕ), e < 2 ^ 32 := by simp
  have hint := interrupt_inKernel handleAddr idtDplUser hs hnone
  generalize ht : interrupt tss (gateFor handleAddr idtDplUser) none s = t at hint
  have hwords : syscallPushes t = syscallPushes s := by
    simp only [syscallPushes, SyscallRegs.words, syscallRegsOf, hint.reg, hint.seg, ne_eq,
      reduceCtorEq, not_false_eq_true]
  have henter : syscallEnter tss handleAddr s =
      t.pushWords (syscallPushes s ++ [(t.pushWords (syscallPushes s)).reg .esp]) := by
    rw [syscallEnter, ht, runEntry_isr64Entry hint.flag, hwords]
  have hlen : (syscallPushes s).length = 11 := rfl
  have hregs := hint.pushWords (syscallPushes s)
    (by
      simp only [hlen, List.length_append, List.length_reverse, Option.toList_none, List.length_nil,
        List.length_cons]
      omega)
    (syscallRegsOf_words_lt hs)
  rw [X86.pushWords_append] at henter
  generalize t.pushWords (syscallPushes s) = u at hregs henter
  have hspace := hregs.esp
  simp only [hlen, List.length_append, List.length_reverse, Option.toList_none, List.length_nil,
    List.length_cons] at hspace
  have hptr := hregs.pushWords [u.reg .esp]
    (by
      simp only [hlen, List.length_append, List.length_reverse, Option.toList_none,
        List.length_nil, List.length_cons]
      omega)
    (by simpa using u.reg_lt .esp)
  rw [← henter] at hptr
  have hlast : (syscallEnter tss handleAddr s).reg .esp + 4 = u.reg .esp := by
    rw [henter, X86.reg_pushWords_esp _ _ (by simp only [List.length_cons, List.length_nil]; omega)]
    simp only [List.length_cons, List.length_nil]
    omega
  have hrev : (syscallPushes s).reverse = (syscallRegsOf s).words := List.reverse_reverse _
  rw [hlast, ← hrev]
  exact hptr

/-- The struct is read as it was pushed. -/
theorem readSyscallRegs_words {m : ByteMem} {a : ℕ} {r : SyscallRegs}
    (h : WordsAt m a (r.words ++ ws)) : readSyscallRegs m a = r := by
  obtain ⟨hebx, hecx, hedx, hesi, hedi, hebp, hds, hes, hfs, hgs, hno, -⟩ := h
  cases r
  simp only [readSyscallRegs, SyscallRegs.mk.injEq]
  exact ⟨hebx, hecx, hedx, hesi, hedi, hebp, hds, hes, hfs, hgs, hno⟩

/-- The user goes on: the memory and `EAX` are those of the kernel, the rest is as it was. -/
structure SyscallReturns (s v w : X86) : Prop where
  reg : ∀ q, q ≠ .eax → w.reg q = s.reg q
  eax : w.reg .eax = v.reg .eax
  eip : w.eip = s.eip
  flag : ∀ i < 32, w.flag i = s.flag i
  seg : ∀ r, w.seg r = s.seg r
  mem : w.mem = v.mem

/-- `isr64` behind the call, up to the `iret`. -/
theorem isr64Exit_beforeIret {r : SyscallRegs} (h : Stacked s (r.words ++ ws)) :
    ∃ b, runEntry (isr64Exit.drop 1) s = exec .iret b ∧ Stacked b ws ∧
      b.reg .esp = s.reg .esp + 44 ∧
      (b.reg .ebx = r.ebx ∧ b.reg .ecx = r.ecx ∧ b.reg .edx = r.edx ∧ b.reg .esi = r.esi ∧
        b.reg .edi = r.edi ∧ b.reg .ebp = r.ebp) ∧
      b.reg .eax = s.reg .eax ∧ b.mem = s.mem ∧
      (b.seg .ds = r.ds % 2 ^ 16 ∧ b.seg .es = r.es % 2 ^ 16 ∧ b.seg .fs = r.fs % 2 ^ 16 ∧
        b.seg .gs = r.gs % 2 ^ 16) ∧
      b.seg .cs = s.seg .cs ∧ b.seg .ss = s.seg .ss := by
  have hcode : isr64Exit.drop 1 = ([Reg.ebx, .ecx, .edx, .esi, .edi, .ebp].map
      fun r => .instr (.pop r)) ++ ([SegReg.ds, .es, .fs, .gs].map .popSeg ++
        [.instr (.add .esp 4), .instr .sti, .instr .iret]) := rfl
  have hregWords : Stacked s ([r.ebx, r.ecx, r.edx, r.esi, r.edi, r.ebp] ++
    ([r.ds, r.es, r.fs, r.gs] ++ r.syscallNo :: ws)) := h
  obtain ⟨hseg, hesp, hregs⟩ := hregWords.pops
    ([Reg.ebx, .ecx, .edx, .esi, .edi, .ebp].map some) rfl (by decide) (by decide)
  have heax : (s.pops ([Reg.ebx, .ecx, .edx, .esi, .edi, .ebp].map some)).reg .eax = s.reg .eax :=
    X86.reg_pops_of_not_mem (by decide) (by decide)
  have hmem := X86.pops_mem s ([Reg.ebx, .ecx, .edx, .esi, .edi, .ebp].map some)
  have hsegs := X86.pops_seg s ([Reg.ebx, .ecx, .edx, .esi, .edi, .ebp].map some)
  rw [hcode, runEntry_append, runEntry_popRegs, runEntry_append]
  generalize s.pops ([Reg.ebx, .ecx, .edx, .esi, .edi, .ebp].map some) = t at *
  obtain ⟨hno, hesp₂, hreg₂, hmem₂, hpopped, hothers⟩ :=
    hseg.popSegs [SegReg.ds, .es, .fs, .gs] rfl (by decide)
  generalize runEntry ([SegReg.ds, .es, .fs, .gs].map .popSeg) t = u at *
  have hfits := hno.fits
  rw [List.length_cons] at hfits
  have hskip : (exec .sti (exec (.add .esp 4) u)).reg .esp = u.drop.reg .esp := by
    rw [reg_sti, reg_add_self (by omega), hno.drop_esp]
  have hreg₃ : ∀ q, q ≠ .esp → (exec .sti (exec (.add .esp 4) u)).reg q = t.reg q :=
    fun q hq => by rw [reg_sti, reg_add_of_ne hq, hreg₂ q hq]
  have hsegU : (exec .sti (exec (.add .esp 4) u)).seg = u.seg := by
    simp only [exec, X86.setReg_seg]
  refine ⟨exec .sti (exec (.add .esp 4) u), rfl, hno.drop.congr hskip fun _ _ _ => rfl, ?esp,
    ?regs, ?eax, ?mem, ?segs, ?cs, ?ss⟩
  case esp => rw [hskip, hno.drop_esp, hesp₂, hesp]; rfl
  case regs =>
    exact ⟨(hreg₃ .ebx (by decide)).trans (hregs _ _ (by simp)),
      (hreg₃ .ecx (by decide)).trans (hregs _ _ (by simp)),
      (hreg₃ .edx (by decide)).trans (hregs _ _ (by simp)),
      (hreg₃ .esi (by decide)).trans (hregs _ _ (by simp)),
      (hreg₃ .edi (by decide)).trans (hregs _ _ (by simp)),
      (hreg₃ .ebp (by decide)).trans (hregs _ _ (by simp))⟩
  case eax => rw [hreg₃ .eax (by decide), heax]
  case mem => rw [sti_mem, add_mem, hmem₂, hmem]
  case segs =>
    rw [hsegU]
    exact ⟨hpopped _ _ (by simp), hpopped _ _ (by simp), hpopped _ _ (by simp),
      hpopped _ _ (by simp)⟩
  case cs => rw [hsegU, hothers .cs (by decide), hsegs]
  case ss => rw [hsegU, hothers .ss (by decide), hsegs]

/-- The words that `isr64` and the processor have pushed. -/
def syscallWords (s : X86) : List ℕ :=
  (syscallRegsOf s).words ++ s.eip.val :: s.seg .cs :: s.eflags :: userWords s

theorem length_syscallWords (s : X86) : 4 * (syscallWords s).length = frameSize s := by
  rw [← length_userWords]
  simp only [syscallWords, SyscallRegs.words, List.length_append, List.length_cons,
    List.length_nil]
  omega

/-- From a frame behind the pointer on top of the stack, `isr64` goes back to the call that the
    frame is of. -/
theorem isr64Exit_restores (hseg : ∀ r, s.seg r < 2 ^ 16)
    (hfits : v.reg .esp + 4 + frameSize s < 2 ^ 32)
    (hframe : WordsAt v.mem (v.reg .esp + 4) (syscallWords s))
    (hcs : v.seg .cs = gdtKernelCodeOffset)
    (hkernel : ¬ FromUser s → v.seg .ss = s.seg .ss ∧ v.reg .esp + 60 = s.reg .esp) :
    SyscallReturns s v (runEntry isr64Exit v) := by
  -- the pointer is skipped
  have hstart : (exec (.add .esp 4) v).reg .esp = v.reg .esp + 4 := reg_add_self (by omega)
  have hsegV : (exec (.add .esp 4) v).seg = v.seg := by simp only [exec, X86.setReg_seg]
  have hstacked : Stacked (exec (.add .esp 4) v) ((syscallRegsOf s).words ++
      s.eip.val :: s.seg .cs :: s.eflags :: userWords s) := by
    have hlen := length_syscallWords s
    refine ⟨?_, ?_⟩
    · rw [hstart, ← syscallWords]
      omega
    · rw [hstart, add_mem]
      exact hframe
  obtain ⟨b, hrun, hstack, hesp, hregs, heax, hmem, hsegs, hring, hss⟩ :=
    isr64Exit_beforeIret hstacked
  have hcode : isr64Exit = .instr (.add .esp 4) :: isr64Exit.drop 1 := rfl
  have hexit : runEntry isr64Exit v = exec .iret b := by
    rw [hcode, runEntry_cons]
    exact hrun
  rw [hexit]
  obtain ⟨hw, hwesp, hwss⟩ := iret_resumes hseg hstack (by rw [hring, hsegV, hcs]; rfl)
    fun hu => by
      obtain ⟨hkss, hkesp⟩ := hkernel hu
      refine ⟨by rw [hss, hsegV, hkss], ?_⟩
      rw [hesp, hstart, ← hkesp]
  have hmod : ∀ r, s.seg r % 2 ^ 16 = s.seg r := fun r => Nat.mod_eq_of_lt (hseg r)
  exact
    { reg := fun q hq => by
        cases q with
        | eax => exact absurd rfl hq
        | esp => exact hwesp
        | ebx => exact (hw.reg .ebx (by decide)).trans hregs.1
        | ecx => exact (hw.reg .ecx (by decide)).trans hregs.2.1
        | edx => exact (hw.reg .edx (by decide)).trans hregs.2.2.1
        | esi => exact (hw.reg .esi (by decide)).trans hregs.2.2.2.1
        | edi => exact (hw.reg .edi (by decide)).trans hregs.2.2.2.2.1
        | ebp => exact (hw.reg .ebp (by decide)).trans hregs.2.2.2.2.2
      eax := by rw [hw.reg .eax (by decide), heax, reg_add_of_ne (by decide)]
      eip := Fin.ext hw.eip
      flag := fun i hi => by rw [hw.flag, s.testBit_eflags hi]
      seg := fun r => by
        cases r with
        | cs => exact hw.cs.trans (hmod .cs)
        | ss => exact hwss
        | ds => exact ((hw.seg .ds (by decide) (by decide)).trans hsegs.1).trans (hmod .ds)
        | es => exact ((hw.seg .es (by decide) (by decide)).trans hsegs.2.1).trans (hmod .es)
        | fs => exact ((hw.seg .fs (by decide) (by decide)).trans hsegs.2.2.1).trans (hmod .fs)
        | gs => exact ((hw.seg .gs (by decide) (by decide)).trans hsegs.2.2.2).trans (hmod .gs)
      mem := by rw [hw.mem, hmem, add_mem] }

/-- **The way back from a call.**  When the handler has returned, `isr64` leads back behind the
    `int 64`, with the registers, the segments and the flags that the user had there; `EAX` is
    what the handler has left in it. -/
theorem syscall_returns (handleAddr : ℕ) (hs : Interruptible tss s)
    (hv : HandlerReturned s (syscallEnter tss handleAddr s) v) :
    SyscallReturns s v (runEntry isr64Exit v) := by
  have henter := syscallEnter_inKernel handleAddr hs
  generalize syscallEnter tss handleAddr s = t at henter hv
  rw [← syscallWords] at henter
  have hlen := length_syscallWords s
  have hlt := hs.lt
  have hspace := henter.esp
  rw [List.length_cons] at hspace
  have hframe : WordsAt v.mem (v.reg .esp + 4) (syscallWords s) := by
    rw [hv.esp]
    exact henter.stacked.words.2.congr fun x h₁ h₂ => hv.frame x h₁ (by omega)
  refine isr64Exit_restores hs.seg_lt ?_ hframe (hv.cs.trans henter.cs)
    fun hu => ⟨(hv.ss hu).trans (henter.ss hu), ?_⟩
  · rw [hv.esp]
    omega
  · have hend : stackEnd tss s = s.reg .esp := if_neg hu
    have hsize : frameSize s = 56 := if_neg hu
    rw [hv.esp]
    omega

/-- A call of the counting program, whose handler leaves 7 in `EAX`. -/
theorem syscall_returns_counting :
    SyscallReturns countingStart ((syscallEnter kernelTss 0xC0100400 countingStart).setReg .eax 7)
      (runEntry isr64Exit ((syscallEnter kernelTss 0xC0100400 countingStart).setReg .eax 7)) :=
  syscall_returns 0xC0100400 (countingStart_interruptible (Or.inl rfl))
    ⟨X86.reg_setReg_of_ne (by decide), by rw [X86.setReg_seg], fun _ => by rw [X86.setReg_seg],
      fun _ _ _ => by rw [X86.setReg_mem]⟩

end Rotary

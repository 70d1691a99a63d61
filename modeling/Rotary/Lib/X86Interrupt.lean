import Mathlib.Data.Nat.Bitwise
import Mathlib.Data.List.Basic
import Rotary.Lib.X86
import Rotary.Lib.X86Tables

namespace Rotary.Lib

/-!
# Interrupts of the 32-bit x86

What the processor does when it takes an interrupt through a gate of the IDT, and the instructions
that entry code is written in:

* `WordsAt` / `Stacked` — words in memory, and words on top of the stack: what was pushed last comes
  first.  Every push and pop is a rule of `Stacked`;
* `interrupt` — the processor takes an interrupt through a gate: the stack is switched if the ring
  is, and the flags, the place of the interrupted code and the error code if there is one are
  pushed;
* `iret_inner` / `iret_outer` — the way back, in the same ring and to an outer one;
* `EntryInstr` / `runEntry` — entry code, which has no jumps; runs of pushes are `pushWords`.
-/

variable {m m' : ByteMem} {a v w x : ℕ} {ws us vs : List ℕ} {s t : X86} {r q : Reg}

/-! ### Words in memory -/

/-- The words lie in memory from `a` upwards. -/
def WordsAt (m : ByteMem) : ℕ → List ℕ → Prop
  | _, [] => True
  | a, w :: ws => load m a = w ∧ WordsAt m (a + 4) ws

theorem WordsAt.congr (h : WordsAt m a ws)
    (heq : ∀ x, a ≤ x → x < a + 4 * ws.length → m' x = m x) : WordsAt m' a ws := by
  induction ws generalizing a with
  | nil => trivial
  | cons w ws ih =>
    rw [List.length_cons] at heq
    refine ⟨?_, ih h.2 fun x h1 h2 => heq x (by omega) (by omega)⟩
    rw [load_congr fun x h1 h2 => heq x h1 (by omega)]
    exact h.1

/-! ### The stack -/

/-- The words on top of the stack, the last one pushed first. -/
structure Stacked (s : X86) (ws : List ℕ) : Prop where
  fits : s.reg .esp + 4 * ws.length < 2 ^ 32
  words : WordsAt s.mem (s.reg .esp) ws

/-- Only `ESP` and the memory from there on matter. -/
theorem Stacked.congr (h : Stacked s ws) (hesp : t.reg .esp = s.reg .esp)
    (hmem : ∀ x, s.reg .esp ≤ x → x < s.reg .esp + 4 * ws.length → t.mem x = s.mem x) :
    Stacked t ws where
  fits := hesp ▸ h.fits
  words := hesp ▸ h.words.congr hmem

theorem Stacked.nil (h : s.reg .esp < 2 ^ 32) : Stacked s [] := ⟨h, trivial⟩

theorem Stacked.push (h : Stacked s ws) (hroom : 4 ≤ s.reg .esp) (hv : v < 2 ^ 32) :
    Stacked (s.push v) (v :: ws) := by
  have hesp := X86.reg_push_esp (v := v) hroom
  have hfits := h.fits
  refine ⟨?_, ?_, ?_⟩
  · rw [hesp, List.length_cons]
    omega
  · rw [hesp, X86.push_mem hroom]
    exact load_store _ _ hv
  · rw [hesp, Nat.sub_add_cancel hroom, X86.push_mem hroom]
    exact h.words.congr fun x h1 _ => store_of_not_mem (by omega)

theorem Stacked.top (h : Stacked s (w :: ws)) : s.top = w := h.words.1

theorem Stacked.lt (h : Stacked s (w :: ws)) : w < 2 ^ 32 := h.words.1 ▸ load_lt s.mem _

theorem Stacked.drop_esp (h : Stacked s (w :: ws)) : s.drop.reg .esp = s.reg .esp + 4 := by
  have hfits := h.fits
  rw [List.length_cons] at hfits
  exact X86.reg_drop_esp (by omega)

theorem Stacked.drop (h : Stacked s (w :: ws)) : Stacked s.drop ws := by
  have hfits := h.fits
  rw [List.length_cons] at hfits
  refine ⟨?_, ?_⟩
  · rw [h.drop_esp]
    omega
  · rw [h.drop_esp]
    exact h.words.2

theorem Stacked.pop (h : Stacked s (w :: ws)) (hr : r ≠ .esp) :
    Stacked (s.pop r) ws ∧ (s.pop r).reg r = w := by
  have hesp : (s.pop r).reg .esp = s.drop.reg .esp := X86.reg_setReg_of_ne hr.symm
  exact ⟨h.drop.congr hesp fun _ _ _ => rfl, (X86.reg_pop_self s r).trans h.words.1⟩

/-- Several words popped: each register gets its word. -/
theorem Stacked.pops (h : Stacked s (us ++ ws)) (os : List (Option Reg))
    (hlen : us.length = os.length) (hesp : some Reg.esp ∉ os) (hnd : (os.filterMap id).Nodup) :
    Stacked (s.pops os) ws ∧ (s.pops os).reg .esp = s.reg .esp + 4 * os.length ∧
      ∀ r w, (some r, w) ∈ os.zip us → (s.pops os).reg r = w := by
  induction os generalizing s us with
  | nil =>
    obtain rfl := List.length_eq_zero_iff.mp hlen
    exact ⟨h, rfl, fun r w hmem => absurd hmem (by simp)⟩
  | cons o os ih =>
    cases us with
    | nil => simp at hlen
    | cons u us =>
      rw [List.mem_cons, not_or] at hesp
      have hlen' : us.length = os.length := by simpa using hlen
      cases o with
      | none =>
        obtain ⟨hrest, hmoved, hregs⟩ := ih h.drop hlen' hesp.2 hnd
        refine ⟨hrest, ?_, ?_⟩
        · rw [X86.pops, hmoved, h.drop_esp, List.length_cons]
          omega
        · intro r w hmem
          rw [List.zip_cons_cons, List.mem_cons] at hmem
          rcases hmem with heq | hmem
          · exact absurd (congrArg Prod.fst heq) (Option.some_ne_none r)
          · exact hregs r w hmem
      | some r₀ =>
        have hne : r₀ ≠ .esp := fun heq => hesp.1 (congrArg some heq.symm)
        have hfilter : ((some r₀ :: os).filterMap id) = r₀ :: os.filterMap id := rfl
        rw [hfilter, List.nodup_cons] at hnd
        obtain ⟨hpop, hreg⟩ := Stacked.pop h hne
        obtain ⟨hrest, hmoved, hregs⟩ := ih hpop hlen' hesp.2 hnd.2
        refine ⟨hrest, ?_, ?_⟩
        · have hpopped : (s.pop r₀).reg .esp = s.reg .esp + 4 :=
            (X86.reg_setReg_of_ne hne.symm).trans h.drop_esp
          rw [X86.pops, hmoved, hpopped, List.length_cons]
          omega
        · intro r w hmem
          rw [List.zip_cons_cons, List.mem_cons] at hmem
          rcases hmem with heq | hmem
          · -- the register is not popped again
            obtain ⟨hr, rfl⟩ := Prod.mk.inj heq
            obtain rfl := Option.some.inj hr
            have hnot : some r ∉ os := fun hin =>
              hnd.1 (List.mem_filterMap.mpr ⟨some r, hin, rfl⟩)
            rw [X86.pops, X86.reg_pops_of_not_mem hne hnot]
            exact hreg
          · exact hregs r w hmem

/-! ### Pushing words -/

/-- Push words one after the other. -/
def X86.pushWords (s : X86) (vs : List ℕ) : X86 := vs.foldl X86.push s

theorem X86.pushWords_append (s : X86) (us vs : List ℕ) :
    s.pushWords (us ++ vs) = (s.pushWords us).pushWords vs := List.foldl_append

theorem X86.reg_pushWords_of_ne (s : X86) (vs : List ℕ) (h : q ≠ .esp) :
    (s.pushWords vs).reg q = s.reg q := by
  induction vs generalizing s with
  | nil => rfl
  | cons v vs ih => exact (ih (s.push v)).trans (X86.reg_push_of_ne h)

@[simp] theorem X86.pushWords_seg (s : X86) (vs : List ℕ) : (s.pushWords vs).seg = s.seg := by
  induction vs generalizing s with
  | nil => rfl
  | cons v vs ih => exact ih (s.push v)

@[simp] theorem X86.pushWords_eip (s : X86) (vs : List ℕ) : (s.pushWords vs).eip = s.eip := by
  induction vs generalizing s with
  | nil => rfl
  | cons v vs ih => exact ih (s.push v)

@[simp] theorem X86.pushWords_flag (s : X86) (vs : List ℕ) : (s.pushWords vs).flag = s.flag := by
  induction vs generalizing s with
  | nil => rfl
  | cons v vs ih => exact ih (s.push v)

theorem X86.reg_pushWords_esp (s : X86) (vs : List ℕ) (h : 4 * vs.length ≤ s.reg .esp) :
    (s.pushWords vs).reg .esp = s.reg .esp - 4 * vs.length := by
  induction vs generalizing s with
  | nil => rfl
  | cons v vs ih =>
    rw [List.length_cons] at h
    have hesp : (s.push v).reg .esp = s.reg .esp - 4 := X86.reg_push_esp (by omega)
    show ((s.push v).pushWords vs).reg .esp = _
    rw [ih _ (by omega), hesp, List.length_cons]
    omega

/-- Pushing writes between the new top and the old one. -/
theorem X86.pushWords_mem (s : X86) (vs : List ℕ) (h : 4 * vs.length ≤ s.reg .esp)
    (hx : x < s.reg .esp - 4 * vs.length ∨ s.reg .esp ≤ x) :
    (s.pushWords vs).mem x = s.mem x := by
  induction vs generalizing s with
  | nil => rfl
  | cons v vs ih =>
    rw [List.length_cons] at h hx
    have hesp : (s.push v).reg .esp = s.reg .esp - 4 := X86.reg_push_esp (by omega)
    show ((s.push v).pushWords vs).mem x = _
    rw [ih _ (by omega) (by omega), X86.push_mem (by omega)]
    exact store_of_not_mem (by omega)

theorem Stacked.pushWords (h : Stacked s ws) (hroom : 4 * vs.length ≤ s.reg .esp)
    (hvs : ∀ v ∈ vs, v < 2 ^ 32) : Stacked (s.pushWords vs) (vs.reverse ++ ws) := by
  induction vs generalizing s ws with
  | nil => exact h
  | cons v vs ih =>
    rw [List.length_cons] at hroom
    have hesp : (s.push v).reg .esp = s.reg .esp - 4 := X86.reg_push_esp (by omega)
    have hpush := h.push (by omega) (hvs v List.mem_cons_self)
    rw [List.reverse_cons, List.append_assoc, List.singleton_append]
    exact ih hpush (by omega) fun u hu => hvs u (List.mem_cons_of_mem v hu)

/-! ### Taking an interrupt -/

/-- `EFLAGS` as a word. -/
def X86.eflags (s : X86) : ℕ := Nat.ofBits fun i : Fin 32 => s.flag i

theorem X86.eflags_lt (s : X86) : s.eflags < 2 ^ 32 := Nat.ofBits_lt_two_pow _

theorem X86.testBit_eflags (s : X86) {i : ℕ} (hi : i < 32) : s.eflags.testBit i = s.flag i :=
  Nat.testBit_ofBits_lt _ i hi

/-- The type of a 32-bit interrupt gate, which disables interrupts. -/
def interruptGate : ℕ := 0xE

/-- `ESP` and `SS` of the inner ring, from the task state segment. -/
structure InnerStack where
  esp0 : ℕ
  ss0 : ℕ

/-- The stack that an interrupt through the gate goes to. -/
def onInnerStack (tss : InnerStack) (g : Gate) (s : X86) : X86 :=
  if g.selector % 4 < s.seg .cs % 4 then (s.setReg .esp tss.esp0).setSeg .ss tss.ss0 else s

/-- What is pushed there: the outer stack, the flags, the place, the error code. -/
def interruptWords (g : Gate) (error : Option ℕ) (s : X86) : List ℕ :=
  (if g.selector % 4 < s.seg .cs % 4 then [s.seg .ss, s.reg .esp] else []) ++
    [s.eflags, s.seg .cs, s.eip.val] ++ error.toList

/-- The processor takes an interrupt through a gate.  `TF`, `NT`, `RF` and `VM` are cleared, and
    `IF` by an interrupt gate. -/
def interrupt (tss : InnerStack) (g : Gate) (error : Option ℕ) (s : X86) : X86 :=
  let t := (onInnerStack tss g s).pushWords (interruptWords g error s)
  let t := t.setSeg .cs g.selector
  { t with
    eip := word g.offset
    flag := fun i =>
      if i ∈ [8, 14, 16, 17] ∨ (i = interruptFlag ∧ g.gateType = interruptGate) then false
      else t.flag i }

@[simp] theorem interrupt_mem (tss : InnerStack) (g : Gate) (error : Option ℕ) (s : X86) :
    (interrupt tss g error s).mem =
      ((onInnerStack tss g s).pushWords (interruptWords g error s)).mem := rfl

@[simp] theorem reg_interrupt (tss : InnerStack) (g : Gate) (error : Option ℕ) (s : X86) (q : Reg) :
    (interrupt tss g error s).reg q =
      ((onInnerStack tss g s).pushWords (interruptWords g error s)).reg q := rfl

theorem reg_onInnerStack_of_ne (tss : InnerStack) (g : Gate) (s : X86) (h : q ≠ .esp) :
    (onInnerStack tss g s).reg q = s.reg q := by
  unfold onInnerStack
  split
  · rw [X86.reg_setSeg, X86.reg_setReg_of_ne h]
  · rfl

@[simp] theorem onInnerStack_mem (tss : InnerStack) (g : Gate) (s : X86) :
    (onInnerStack tss g s).mem = s.mem := by
  unfold onInnerStack
  split
  · rfl
  · rfl

theorem onInnerStack_seg_of_ne (tss : InnerStack) (g : Gate) (s : X86) {r : SegReg} (h : r ≠ .ss) :
    (onInnerStack tss g s).seg r = s.seg r := by
  unfold onInnerStack
  split
  · exact Function.update_of_ne h _ _
  · rfl

theorem interrupt_seg_of_ne (tss : InnerStack) (g : Gate) (error : Option ℕ) (s : X86) {r : SegReg}
    (h : r ≠ .cs) : (interrupt tss g error s).seg r = (onInnerStack tss g s).seg r := by
  have hpushed := congrFun
    ((onInnerStack tss g s).pushWords_seg (interruptWords g error s)) r
  exact (Function.update_of_ne h _ _).trans hpushed

theorem interrupt_seg_cs (tss : InnerStack) (g : Gate) (error : Option ℕ) (s : X86) :
    (interrupt tss g error s).seg .cs = g.selector % 2 ^ 16 := by
  simp only [interrupt, X86.setSeg, Function.update_self]

/-- An interrupt gate disables interrupts. -/
theorem interrupt_flag (tss : InnerStack) {g : Gate} (error : Option ℕ) (s : X86)
    (h : g.gateType = interruptGate) : (interrupt tss g error s).flag interruptFlag = false :=
  if_pos (Or.inr ⟨rfl, h⟩)

/-- The words of an interrupt on its stack. -/
theorem interrupt_stacked {tss : InnerStack} {g : Gate} {error : Option ℕ}
    (hfits : (onInnerStack tss g s).reg .esp < 2 ^ 32)
    (hroom : 4 * (interruptWords g error s).length ≤ (onInnerStack tss g s).reg .esp)
    (hseg : ∀ r, s.seg r < 2 ^ 16) (herror : ∀ e ∈ error, e < 2 ^ 32) :
    Stacked (interrupt tss g error s) (interruptWords g error s).reverse := by
  have hwords : ∀ w ∈ interruptWords g error s, w < 2 ^ 32 := by
    intro w hw
    have hss := hseg .ss
    have hcs := hseg .cs
    have hesp := s.reg_lt .esp
    have hflags := s.eflags_lt
    have heip := s.eip.isLt
    unfold interruptWords at hw
    rcases List.mem_append.mp hw with hw | hw
    · rcases List.mem_append.mp hw with hw | hw
      · split at hw
        · simp only [List.mem_cons, List.not_mem_nil, or_false] at hw
          omega
        · exact absurd hw List.not_mem_nil
      · simp only [List.mem_cons, List.not_mem_nil, or_false] at hw
        omega
    · exact herror w (Option.mem_toList.mp hw)
  have hpushed := (Stacked.nil hfits).pushWords hroom hwords
  rw [List.append_nil] at hpushed
  exact hpushed.congr rfl fun _ _ _ => rfl

/-! ### Returning from an interrupt -/

/-- What every return restores. -/
structure Returns (s t : X86) (eip cs eflags : ℕ) : Prop where
  eip : t.eip.val = eip
  cs : t.seg .cs = cs % 2 ^ 16
  flag : t.flag = eflags.testBit
  reg : ∀ q, q ≠ .esp → t.reg q = s.reg q
  seg : ∀ r, r ≠ .cs → r ≠ .ss → t.seg r = s.seg r
  mem : t.mem = s.mem

variable {eip cs eflags esp ss : ℕ}

theorem iretFrame_returns (h : Stacked s (eip :: cs :: eflags :: ws)) :
    Returns s (iretFrame s) eip cs eflags ∧ Stacked (iretFrame s) ws ∧
      (iretFrame s).reg .esp = s.reg .esp + 12 ∧ (iretFrame s).seg .ss = s.seg .ss := by
  have h₁ := h.drop
  have h₂ := h₁.drop
  have hesp₁ := h.drop_esp
  have hesp₂ := h₁.drop_esp
  have hesp₃ := h₂.drop_esp
  have hframe : iretFrame s = { s.drop.drop.drop.setSeg .cs cs with
      eip := Fin.ofNat (2 ^ 32) eip, flag := eflags.testBit } := by
    have hwords : iretFrame s = { s.drop.drop.drop.setSeg .cs s.drop.top with
        eip := Fin.ofNat (2 ^ 32) s.top, flag := s.drop.drop.top.testBit } := rfl
    rw [hwords, h.top, h₁.top, h₂.top]
  rw [hframe]
  refine ⟨⟨?_, ?_, rfl, ?_, ?_, rfl⟩, ?_, ?_, ?_⟩
  · exact Nat.mod_eq_of_lt h.lt
  · simp only [X86.setSeg, Function.update_self]
  · intro q hq
    show s.drop.drop.drop.reg q = s.reg q
    rw [X86.reg_drop_of_ne hq, X86.reg_drop_of_ne hq, X86.reg_drop_of_ne hq]
  · intro r hr _
    exact Function.update_of_ne hr _ _
  · exact h₂.drop.congr rfl fun _ _ _ => rfl
  · show s.drop.drop.drop.reg .esp = _
    rw [hesp₃, hesp₂, hesp₁]
  · have hne : SegReg.ss ≠ .cs := by decide
    simp only [X86.setSeg, Function.update_of_ne hne, X86.drop_seg]

/-- `iret` in the same ring. -/
theorem iret_inner (h : Stacked s (eip :: cs :: eflags :: ws))
    (hring : ¬ s.seg .cs % 4 < cs % 4) :
    Returns s (exec .iret s) eip cs eflags ∧ (exec .iret s).reg .esp = s.reg .esp + 12 ∧
      (exec .iret s).seg .ss = s.seg .ss := by
  obtain ⟨hreturns, -, hesp, hss⟩ := iretFrame_returns h
  have hcs : ¬ s.seg .cs % 4 < (iretFrame s).seg .cs % 4 := by
    rw [hreturns.cs]
    omega
  have hiret : exec .iret s = iretFrame s := if_neg hcs
  rw [hiret]
  exact ⟨hreturns, hesp, hss⟩

/-- `iret` to an outer ring, whose stack is on top. -/
theorem iret_outer (h : Stacked s (eip :: cs :: eflags :: esp :: ss :: ws))
    (hring : s.seg .cs % 4 < cs % 4) :
    Returns s (exec .iret s) eip cs eflags ∧ (exec .iret s).reg .esp = esp ∧
      (exec .iret s).seg .ss = ss % 2 ^ 16 := by
  obtain ⟨hreturns, hstack, -, -⟩ := iretFrame_returns h
  have hcs : s.seg .cs % 4 < (iretFrame s).seg .cs % 4 := by
    rw [hreturns.cs]
    omega
  have hiret : exec .iret s = ((iretFrame s).drop.setReg .esp esp).setSeg .ss ss := by
    show (if _ then _ else _) = _
    rw [if_pos hcs, hstack.top, hstack.drop.top]
  rw [hiret]
  refine ⟨⟨hreturns.eip, ?_, hreturns.flag, ?_, ?_, hreturns.mem⟩, ?_, ?_⟩
  · have hne : SegReg.cs ≠ .ss := by decide
    simp only [X86.setSeg, Function.update_of_ne hne]
    exact hreturns.cs
  · intro q hq
    rw [X86.reg_setSeg, X86.reg_setReg_of_ne hq, X86.reg_drop_of_ne hq]
    exact hreturns.reg q hq
  · intro r hr hr'
    exact (Function.update_of_ne hr' _ _).trans (hreturns.seg r hr hr')
  · rw [X86.reg_setSeg, X86.reg_setReg_self]
    exact Nat.mod_eq_of_lt hstack.lt
  · simp only [X86.setSeg, Function.update_self]

@[simp] theorem reg_add_of_ne (h : q ≠ r) : (exec (.add r v) s).reg q = s.reg q := by
  simp only [exec, X86.reg_setReg_of_ne h]

/-! ### Entry code -/

/-- The instructions of entry code. -/
inductive EntryInstr
  | cli
  /-- `push byte v`, for a byte without a sign -/
  | pushByte (v : ℕ)
  | pushad
  | pushSeg (src : SegReg)
  | popSeg (dst : SegReg)
  | instr (i : Instr)
  deriving DecidableEq, Repr

/-- The registers of `pushad`; `ESP` as it was before. -/
def allRegs : List Reg := [.eax, .ecx, .edx, .ebx, .esp, .ebp, .esi, .edi]

/-- One instruction of entry code. -/
def execEntry (s : X86) : EntryInstr → X86
  | .cli => { s with flag := Function.update s.flag interruptFlag false }
  | .pushByte v => s.push v
  | .pushad => s.pushWords (allRegs.map s.reg)
  | .pushSeg src => s.push (s.seg src)
  | .popSeg dst => s.drop.setSeg dst s.top
  | .instr i => exec i s

/-- Entry code. -/
def runEntry (code : List EntryInstr) (s : X86) : X86 := code.foldl execEntry s

theorem runEntry_cons (i : EntryInstr) (code : List EntryInstr) (s : X86) :
    runEntry (i :: code) s = runEntry code (execEntry s i) := rfl

theorem runEntry_append (code more : List EntryInstr) (s : X86) :
    runEntry (code ++ more) s = runEntry more (runEntry code s) := List.foldl_append

/-- Pushes of bytes. -/
theorem runEntry_pushBytes (vs : List ℕ) (s : X86) :
    runEntry (vs.map .pushByte) s = s.pushWords vs := by
  induction vs generalizing s with
  | nil => rfl
  | cons v vs ih => exact ih (s.push v)

/-- Pushes of segment registers. -/
theorem runEntry_pushSegs (rs : List SegReg) (s : X86) :
    runEntry (rs.map .pushSeg) s = s.pushWords (rs.map s.seg) := by
  induction rs generalizing s with
  | nil => rfl
  | cons r rs ih =>
    rw [List.map_cons, runEntry_cons, ih]
    rfl

/-- Pushes of registers other than `ESP`. -/
theorem runEntry_pushRegs (rs : List Reg) (hrs : .esp ∉ rs) (s : X86) :
    runEntry (rs.map fun r => .instr (.push r)) s = s.pushWords (rs.map s.reg) := by
  induction rs generalizing s with
  | nil => rfl
  | cons r rs ih =>
    rw [List.mem_cons, not_or] at hrs
    have hsame : rs.map (s.push (s.reg r)).reg = rs.map s.reg :=
      List.map_congr_left fun q hq => X86.reg_push_of_ne fun heq => hrs.2 (heq ▸ hq)
    rw [List.map_cons, runEntry_cons]
    show runEntry _ (s.push (s.reg r)) = _
    rw [ih hrs.2, hsame]
    rfl

/-- Pops of registers. -/
theorem runEntry_popRegs (rs : List Reg) (s : X86) :
    runEntry (rs.map fun r => .instr (.pop r)) s = s.pops (rs.map some) := by
  induction rs generalizing s with
  | nil => rfl
  | cons r rs ih => exact ih (s.pop r)

/-- Pops of segment registers: each gets the low half of its word, and nothing else changes. -/
theorem Stacked.popSegs (h : Stacked s (us ++ ws)) (rs : List SegReg)
    (hlen : us.length = rs.length) (hnd : rs.Nodup) :
    let t := runEntry (rs.map .popSeg) s
    Stacked t ws ∧ t.reg .esp = s.reg .esp + 4 * rs.length ∧ (∀ q, q ≠ .esp → t.reg q = s.reg q) ∧
      t.mem = s.mem ∧ (∀ r w, (r, w) ∈ rs.zip us → t.seg r = w % 2 ^ 16) ∧
      ∀ r, r ∉ rs → t.seg r = s.seg r := by
  induction rs generalizing s us with
  | nil =>
    obtain rfl := List.length_eq_zero_iff.mp hlen
    exact ⟨h, rfl, fun _ _ => rfl, rfl, fun r w hmem => absurd hmem (by simp), fun _ _ => rfl⟩
  | cons r rs ih =>
    cases us with
    | nil => simp at hlen
    | cons u us =>
      rw [List.nodup_cons] at hnd
      have htop : (s.drop.setSeg r s.top).seg = Function.update s.seg r (u % 2 ^ 16) :=
        congrArg (fun w => Function.update s.seg r (w % 2 ^ 16)) h.top
      have hpop : Stacked (s.drop.setSeg r s.top) (us ++ ws) := h.drop.congr rfl fun _ _ _ => rfl
      obtain ⟨hrest, hesp, hreg, hmem, hsegs, hothers⟩ := ih hpop (by simpa using hlen) hnd.2
      refine ⟨hrest, ?_, fun q hq => (hreg q hq).trans (X86.reg_drop_of_ne hq), hmem, ?_, ?_⟩
      · have hmoved : (s.drop.setSeg r s.top).reg .esp = s.reg .esp + 4 := h.drop_esp
        refine hesp.trans ?_
        rw [hmoved, List.length_cons]
        omega
      · intro q w hq
        rw [List.zip_cons_cons, List.mem_cons] at hq
        rcases hq with heq | hq
        · -- the register is not popped again
          obtain ⟨rfl, rfl⟩ := Prod.mk.inj heq
          refine (hothers q hnd.1).trans ?_
          rw [htop, Function.update_self]
        · exact hsegs q w hq
      · intro q hq
        rw [List.mem_cons, not_or] at hq
        refine (hothers q hq.2).trans ?_
        rw [htop, Function.update_of_ne hq.1]

end Rotary.Lib

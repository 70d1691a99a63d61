import Mathlib.Data.Nat.Bitwise
import Mathlib.Logic.Function.Basic
import Rotary.Lib.ByteMem

namespace Rotary.Lib

/-!
# A fragment of the 32-bit x86

The instructions a kernel's entry and switch code is written in, run over a `ByteMem` with flat
segments at ring 0:

* `X86` — the registers, `CR3`, the flags and the memory; a register is a word by its type;
* `Instr` / `exec` — one instruction;
* `run` — straight-line code, whose only jumps are `je`s forwards;
* `call` — a near call: the return address goes on the stack and the code runs.

`EIP` is tracked only where control leaves the code (`ret`, `iret`).
-/

/-- The general registers. -/
inductive Reg
  | eax
  | ecx
  | edx
  | ebx
  | esp
  | ebp
  | esi
  | edi
  deriving DecidableEq, Repr

/-- The segment registers. -/
inductive SegReg
  | cs
  | ds
  | es
  | fs
  | gs
  | ss
  deriving DecidableEq, Repr

/-- The 32-bit word of a number. -/
def word (v : ℕ) : Fin (2 ^ 32) := Fin.ofNat (2 ^ 32) v

/-- The processor and the memory it addresses. -/
structure X86 where
  gpr : Reg → Fin (2 ^ 32)
  seg : SegReg → ℕ
  eip : Fin (2 ^ 32)
  cr3 : Fin (2 ^ 32)
  /-- `EFLAGS`, bit by bit. -/
  flag : ℕ → Bool
  mem : ByteMem

/-- The places of `ZF` and `IF` in `EFLAGS`. -/
def zeroFlag : ℕ := 6
def interruptFlag : ℕ := 9

namespace X86

/-- The number in a register. -/
def reg (s : X86) (r : Reg) : ℕ := (s.gpr r).val

/-- Write a register. -/
def setReg (s : X86) (r : Reg) (v : ℕ) : X86 :=
  { s with gpr := Function.update s.gpr r (Fin.ofNat (2 ^ 32) v) }

/-- Write a segment register: the low half of `v`. -/
def setSeg (s : X86) (r : SegReg) (v : ℕ) : X86 :=
  { s with seg := Function.update s.seg r (v % 2 ^ 16) }

/-- The address a register and a displacement name. -/
def addr (s : X86) (r : Reg) (disp : ℕ) : ℕ := (s.reg r + disp) % 2 ^ 32

/-- Where the next word pushed goes. -/
def below (s : X86) : ℕ := (s.reg .esp + (2 ^ 32 - 4)) % 2 ^ 32

/-- Push a word. -/
def push (s : X86) (v : ℕ) : X86 :=
  { s.setReg .esp s.below with mem := store s.mem s.below v }

/-- The word on top of the stack, and the stack without it. -/
def top (s : X86) : ℕ := load s.mem (s.reg .esp)
def drop (s : X86) : X86 := s.setReg .esp (s.reg .esp + 4)

/-- Pop a word into a register. -/
def pop (s : X86) (r : Reg) : X86 := s.drop.setReg r s.top

/-- Push registers one after the other. -/
def pushes (s : X86) : List Reg → X86
  | [] => s
  | r :: rs => (s.push (s.reg r)).pushes rs

/-- Pop words one after the other, each into a register or away. -/
def pops (s : X86) : List (Option Reg) → X86
  | [] => s
  | none :: rs => s.drop.pops rs
  | some r :: rs => (s.pop r).pops rs

end X86

/-- The instructions. -/
inductive Instr
  /-- `mov dst, [base + disp]` -/
  | movLoad (dst base : Reg) (disp : ℕ)
  /-- `mov [base + disp], src` -/
  | movStore (base : Reg) (disp : ℕ) (src : Reg)
  /-- `mov ax, imm` -/
  | movAx (imm : ℕ)
  | movSeg (dst : SegReg) (src : Reg)
  | movFromCr3 (dst : Reg)
  | movToCr3 (src : Reg)
  | push (src : Reg)
  | pop (dst : Reg)
  | popad
  | add (dst : Reg) (imm : ℕ)
  | cmp (a b : Reg)
  /-- `je` over the next `n` instructions -/
  | je (n : ℕ)
  | sti
  | ret
  | iret
  deriving DecidableEq, Repr

/-- `popad`: the stacked `ESP` is thrown away. -/
def popad (s : X86) : X86 :=
  s.pops [some .edi, some .esi, some .ebp, none, some .ebx, some .edx, some .ecx, some .eax]

/-- The words every `iret` takes: `EIP`, `CS` and `EFLAGS`. -/
def iretFrame (s : X86) : X86 :=
  let t := { s.drop with eip := Fin.ofNat (2 ^ 32) s.top }
  let u := t.drop.setSeg .cs t.top
  { u.drop with flag := u.top.testBit }

/-- `iret`: to an outer ring it takes `ESP` and `SS` as well. -/
def iret (s : X86) : X86 :=
  let t := iretFrame s
  if s.seg .cs % 4 < t.seg .cs % 4 then (t.drop.setReg .esp t.top).setSeg .ss t.drop.top else t

/-- One instruction other than a jump. -/
def exec : Instr → X86 → X86
  | .movLoad dst base disp, s => s.setReg dst (load s.mem (s.addr base disp))
  | .movStore base disp src, s => { s with mem := store s.mem (s.addr base disp) (s.reg src) }
  | .movAx imm, s => s.setReg .eax (s.reg .eax / 2 ^ 16 * 2 ^ 16 + imm % 2 ^ 16)
  | .movSeg dst src, s => s.setSeg dst (s.reg src)
  | .movFromCr3 dst, s => s.setReg dst s.cr3.val
  | .movToCr3 src, s => { s with cr3 := s.gpr src }
  | .push src, s => s.push (s.reg src)
  | .pop dst, s => s.pop dst
  | .popad, s => popad s
  | .add dst imm, s => s.setReg dst (s.reg dst + imm)
  | .cmp a b, s => { s with flag := Function.update s.flag zeroFlag (decide (s.reg a = s.reg b)) }
  | .je _, s => s
  | .sti, s => { s with flag := Function.update s.flag interruptFlag true }
  | .ret, s => { s.drop with eip := Fin.ofNat (2 ^ 32) s.top }
  | .iret, s => iret s

/-- Run code, jumping over its first `skip` instructions. -/
def run : ℕ → List Instr → X86 → X86
  | _, [], s => s
  | skip + 1, _ :: is, s => run skip is s
  | 0, .je n :: is, s => if s.flag zeroFlag then run n is s else run 0 is s
  | 0, i :: is, s => run 0 is (exec i s)

/-- `call`, with `ret` the address behind the call. -/
def call (code : List Instr) (ret : ℕ) (s : X86) : X86 := run 0 code (s.push ret)

variable {s : X86} {r q : Reg} {v : ℕ}

/-! ### Registers -/

namespace X86

theorem reg_lt (s : X86) (r : Reg) : s.reg r < 2 ^ 32 := (s.gpr r).isLt

@[simp] theorem reg_setReg_self (s : X86) (r : Reg) (v : ℕ) :
    (s.setReg r v).reg r = v % 2 ^ 32 := by
  simp [reg, setReg, Fin.ofNat]

@[simp] theorem reg_setReg_of_ne (h : q ≠ r) : (s.setReg r v).reg q = s.reg q := by
  simp [reg, setReg, Function.update_of_ne h]

@[simp] theorem setReg_mem (s : X86) (r : Reg) (v : ℕ) : (s.setReg r v).mem = s.mem := rfl
@[simp] theorem setReg_seg (s : X86) (r : Reg) (v : ℕ) : (s.setReg r v).seg = s.seg := rfl
@[simp] theorem setReg_eip (s : X86) (r : Reg) (v : ℕ) : (s.setReg r v).eip = s.eip := rfl
@[simp] theorem setReg_cr3 (s : X86) (r : Reg) (v : ℕ) : (s.setReg r v).cr3 = s.cr3 := rfl

@[simp] theorem setSeg_mem (s : X86) (r : SegReg) (v : ℕ) : (s.setSeg r v).mem = s.mem := rfl
@[simp] theorem setSeg_eip (s : X86) (r : SegReg) (v : ℕ) : (s.setSeg r v).eip = s.eip := rfl

@[simp] theorem reg_setSeg (s : X86) (r : SegReg) (v : ℕ) (q : Reg) :
    (s.setSeg r v).reg q = s.reg q := rfl

/-! ### The stack -/

theorem below_eq (h : 4 ≤ s.reg .esp) : s.below = s.reg .esp - 4 := by
  have hlt := s.reg_lt .esp
  unfold below
  omega

theorem push_mem (h : 4 ≤ s.reg .esp) : (s.push v).mem = store s.mem (s.reg .esp - 4) v := by
  rw [← below_eq h, push]

/-- Pushing moves `ESP` and no other register. -/
theorem reg_push (s : X86) (v : ℕ) (q : Reg) :
    (s.push v).reg q = (s.setReg .esp s.below).reg q := by
  simp only [push, reg]

theorem reg_push_esp (h : 4 ≤ s.reg .esp) : (s.push v).reg .esp = s.reg .esp - 4 := by
  have hlt := s.reg_lt .esp
  rw [reg_push, reg_setReg_self, below_eq h, Nat.mod_eq_of_lt (by omega)]

@[simp] theorem reg_push_of_ne (h : q ≠ .esp) : (s.push v).reg q = s.reg q := by
  rw [reg_push, reg_setReg_of_ne h]

@[simp] theorem push_cr3 (s : X86) (v : ℕ) : (s.push v).cr3 = s.cr3 := rfl
@[simp] theorem push_seg (s : X86) (v : ℕ) : (s.push v).seg = s.seg := rfl

@[simp] theorem drop_mem (s : X86) : s.drop.mem = s.mem := rfl
@[simp] theorem drop_cr3 (s : X86) : s.drop.cr3 = s.cr3 := rfl
@[simp] theorem drop_seg (s : X86) : s.drop.seg = s.seg := rfl
@[simp] theorem drop_eip (s : X86) : s.drop.eip = s.eip := rfl

@[simp] theorem reg_drop_of_ne (h : q ≠ .esp) : s.drop.reg q = s.reg q := reg_setReg_of_ne h

theorem reg_drop_esp (h : s.reg .esp + 4 < 2 ^ 32) : s.drop.reg .esp = s.reg .esp + 4 := by
  rw [drop, reg_setReg_self, Nat.mod_eq_of_lt h]

@[simp] theorem pop_mem (s : X86) (r : Reg) : (s.pop r).mem = s.mem := rfl
@[simp] theorem pop_cr3 (s : X86) (r : Reg) : (s.pop r).cr3 = s.cr3 := rfl
@[simp] theorem pop_seg (s : X86) (r : Reg) : (s.pop r).seg = s.seg := rfl

@[simp] theorem reg_pop_self (s : X86) (r : Reg) : (s.pop r).reg r = load s.mem (s.reg .esp) := by
  rw [pop, reg_setReg_self, top, Nat.mod_eq_of_lt (load_lt _ _)]

@[simp] theorem reg_pop_of_ne (h : q ≠ r) (hq : q ≠ .esp) : (s.pop r).reg q = s.reg q := by
  rw [pop, reg_setReg_of_ne h, reg_drop_of_ne hq]

theorem reg_pop_esp (hr : r ≠ .esp) (h : s.reg .esp + 4 < 2 ^ 32) :
    (s.pop r).reg .esp = s.reg .esp + 4 := by
  rw [pop, reg_setReg_of_ne hr.symm, reg_drop_esp h]

/-! ### Pushing several registers -/

variable {rs ss : List Reg} {os ps : List (Option Reg)} {x : ℕ}

theorem pushes_append : s.pushes (rs ++ ss) = (s.pushes rs).pushes ss := by
  induction rs generalizing s with
  | nil => rfl
  | cons r rs ih => exact ih

@[simp] theorem pushes_cr3 (s : X86) (rs : List Reg) : (s.pushes rs).cr3 = s.cr3 := by
  induction rs generalizing s with
  | nil => rfl
  | cons r rs ih => exact ih (s.push (s.reg r))

@[simp] theorem pushes_seg (s : X86) (rs : List Reg) : (s.pushes rs).seg = s.seg := by
  induction rs generalizing s with
  | nil => rfl
  | cons r rs ih => exact ih (s.push (s.reg r))

@[simp] theorem reg_pushes_of_ne (h : q ≠ .esp) : (s.pushes rs).reg q = s.reg q := by
  induction rs generalizing s with
  | nil => rfl
  | cons r rs ih => rw [pushes, ih, reg_push_of_ne h]

theorem reg_pushes_esp (h : 4 * rs.length ≤ s.reg .esp) :
    (s.pushes rs).reg .esp = s.reg .esp - 4 * rs.length := by
  induction rs generalizing s with
  | nil => rfl
  | cons r rs ih =>
    rw [List.length_cons] at h
    have hesp : (s.push (s.reg r)).reg .esp = s.reg .esp - 4 := reg_push_esp (by omega)
    rw [pushes, ih (by omega), hesp, List.length_cons]
    omega

/-- Pushing writes between the new top and the old one. -/
theorem pushes_mem_of_not_mem (h : 4 * rs.length ≤ s.reg .esp)
    (hx : x < s.reg .esp - 4 * rs.length ∨ s.reg .esp ≤ x) :
    (s.pushes rs).mem x = s.mem x := by
  induction rs generalizing s with
  | nil => rfl
  | cons r rs ih =>
    rw [List.length_cons] at h hx
    have hesp : (s.push (s.reg r)).reg .esp = s.reg .esp - 4 := reg_push_esp (by omega)
    rw [pushes, ih (by omega) (by omega), push_mem (by omega)]
    exact store_of_not_mem (by omega)

/-- The register pushed after `rs` and before `ss` lies below the words of `rs`. -/
theorem load_pushes (rs : List Reg) (r : Reg) (ss : List Reg) (hr : r ≠ .esp)
    (h : 4 * (rs.length + 1 + ss.length) ≤ s.reg .esp) :
    load (s.pushes (rs ++ r :: ss)).mem (s.reg .esp - 4 * (rs.length + 1)) = s.reg r := by
  have hesp : (s.pushes rs).reg .esp = s.reg .esp - 4 * rs.length := reg_pushes_esp (by omega)
  have hesp' : ((s.pushes rs).push (s.reg r)).reg .esp = s.reg .esp - 4 * (rs.length + 1) := by
    rw [reg_push_esp (by omega), hesp]
    omega
  rw [pushes_append, pushes, reg_pushes_of_ne hr]
  -- the words pushed after it go below it
  rw [load_congr fun x h1 _ => pushes_mem_of_not_mem (by omega) (by omega),
    push_mem (by omega), hesp, show s.reg .esp - 4 * rs.length - 4 =
      s.reg .esp - 4 * (rs.length + 1) by omega]
  exact load_store _ _ (s.reg_lt r)

/-! ### Popping several words -/

theorem pops_append : s.pops (os ++ ps) = (s.pops os).pops ps := by
  induction os generalizing s with
  | nil => rfl
  | cons o os ih => cases o <;> exact ih

@[simp] theorem pops_mem (s : X86) (os : List (Option Reg)) : (s.pops os).mem = s.mem := by
  induction os generalizing s with
  | nil => rfl
  | cons o os ih => cases o <;> exact ih _

@[simp] theorem pops_cr3 (s : X86) (os : List (Option Reg)) : (s.pops os).cr3 = s.cr3 := by
  induction os generalizing s with
  | nil => rfl
  | cons o os ih => cases o <;> exact ih _

@[simp] theorem pops_seg (s : X86) (os : List (Option Reg)) : (s.pops os).seg = s.seg := by
  induction os generalizing s with
  | nil => rfl
  | cons o os ih => cases o <;> exact ih _

theorem reg_pops_of_not_mem (hq : q ≠ .esp) (h : some q ∉ os) : (s.pops os).reg q = s.reg q := by
  induction os generalizing s with
  | nil => rfl
  | cons o os ih =>
    rw [List.mem_cons, not_or] at h
    cases o with
    | none => rw [pops, ih h.2, reg_drop_of_ne hq]
    | some r => rw [pops, ih h.2, reg_pop_of_ne (fun hqr => h.1 (congrArg some hqr)) hq]

theorem reg_pops_esp (hesp : some Reg.esp ∉ os) (h : s.reg .esp + 4 * os.length < 2 ^ 32) :
    (s.pops os).reg .esp = s.reg .esp + 4 * os.length := by
  induction os generalizing s with
  | nil => rfl
  | cons o os ih =>
    rw [List.mem_cons, not_or] at hesp
    rw [List.length_cons] at h ⊢
    cases o with
    | none =>
      have hd : s.drop.reg .esp = s.reg .esp + 4 := reg_drop_esp (by omega)
      rw [pops, ih hesp.2 (by omega), hd]
      omega
    | some r =>
      have hp : (s.pop r).reg .esp = s.reg .esp + 4 :=
        reg_pop_esp (fun hr => hesp.1 (congrArg some hr.symm)) (by omega)
      rw [pops, ih hesp.2 (by omega), hp]
      omega

/-- The register popped after `os`, and not again, holds the word above those of `os`. -/
theorem reg_pops (os : List (Option Reg)) (r : Reg) (ps : List (Option Reg))
    (hos : some Reg.esp ∉ os) (hr : r ≠ .esp) (hps : some r ∉ ps)
    (h : s.reg .esp + 4 * os.length < 2 ^ 32) :
    (s.pops (os ++ some r :: ps)).reg r = load s.mem (s.reg .esp + 4 * os.length) := by
  rw [pops_append, pops, reg_pops_of_not_mem hr hps, reg_pop_self, pops_mem, reg_pops_esp hos h]

end X86

/-! ### Running code -/

@[simp] theorem ret_mem (s : X86) : (exec .ret s).mem = s.mem := by
  simp only [exec, X86.drop_mem]

@[simp] theorem ret_seg (s : X86) : (exec .ret s).seg = s.seg := by
  simp only [exec, X86.drop_seg]

@[simp] theorem ret_cr3 (s : X86) : (exec .ret s).cr3 = s.cr3 := by
  simp only [exec, X86.drop_cr3]

/-- `ret` goes where the word on top of the stack says. -/
theorem ret_eip (s : X86) : (exec .ret s).eip.val = load s.mem (s.reg .esp) := by
  simp only [exec, Fin.val_ofNat, X86.top]
  exact Nat.mod_eq_of_lt (load_lt _ _)

theorem reg_ret (s : X86) (q : Reg) : (exec .ret s).reg q = s.drop.reg q := by
  simp only [exec, X86.reg]

theorem run_movLoad (q r : Reg) (d : ℕ) (is : List Instr) (s : X86) :
    run 0 (.movLoad q r d :: is) s = run 0 is (exec (.movLoad q r d) s) := rfl

@[simp] theorem movLoad_mem (s : X86) (q r : Reg) (d : ℕ) :
    (exec (.movLoad q r d) s).mem = s.mem := by
  simp only [exec, X86.setReg_mem]

@[simp] theorem movLoad_seg (s : X86) (q r : Reg) (d : ℕ) :
    (exec (.movLoad q r d) s).seg = s.seg := by
  simp only [exec, X86.setReg_seg]

@[simp] theorem movLoad_cr3 (s : X86) (q r : Reg) (d : ℕ) :
    (exec (.movLoad q r d) s).cr3 = s.cr3 := by
  simp only [exec, X86.setReg_cr3]

@[simp] theorem reg_movLoad_of_ne {d : ℕ} {x : Reg} (h : x ≠ q) :
    (exec (.movLoad q r d) s).reg x = s.reg x := by
  simp only [exec, X86.reg_setReg_of_ne h]

theorem reg_movLoad_self {d : ℕ} (h : s.reg r + d < 2 ^ 32) :
    (exec (.movLoad q r d) s).reg q = load s.mem (s.reg r + d) := by
  rw [exec, X86.reg_setReg_self, X86.addr, Nat.mod_eq_of_lt h, Nat.mod_eq_of_lt (load_lt _ _)]

theorem run_movStore (r : Reg) (d : ℕ) (q : Reg) (is : List Instr) (s : X86) :
    run 0 (.movStore r d q :: is) s = run 0 is (exec (.movStore r d q) s) := rfl

@[simp] theorem reg_movStore (s : X86) (r : Reg) (d : ℕ) (q x : Reg) :
    (exec (.movStore r d q) s).reg x = s.reg x := by
  simp only [exec, X86.reg]

@[simp] theorem movStore_seg (s : X86) (r : Reg) (d : ℕ) (q : Reg) :
    (exec (.movStore r d q) s).seg = s.seg := by
  simp only [exec]

theorem movStore_mem {d : ℕ} (h : s.reg r + d < 2 ^ 32) :
    (exec (.movStore r d q) s).mem = store s.mem (s.reg r + d) (s.reg q) := by
  rw [exec, X86.addr, Nat.mod_eq_of_lt h]

@[simp] theorem movSeg_mem (s : X86) (d : SegReg) (q : Reg) :
    (exec (.movSeg d q) s).mem = s.mem := by
  simp only [exec, X86.setSeg_mem]

@[simp] theorem reg_movSeg (s : X86) (d : SegReg) (q x : Reg) :
    (exec (.movSeg d q) s).reg x = s.reg x := by
  simp only [exec, X86.reg_setSeg]

@[simp] theorem movAx_mem (s : X86) (v : ℕ) : (exec (.movAx v) s).mem = s.mem := by
  simp only [exec, X86.setReg_mem]

@[simp] theorem reg_movAx_of_ne (h : q ≠ .eax) : (exec (.movAx v) s).reg q = s.reg q := by
  simp only [exec, X86.reg_setReg_of_ne h]

@[simp] theorem popad_mem (s : X86) : (exec .popad s).mem = s.mem := by
  simp only [exec, popad, X86.pops_mem]

theorem reg_popad_esp (h : s.reg .esp + 32 < 2 ^ 32) :
    (exec .popad s).reg .esp = s.reg .esp + 32 := by
  simp only [exec, popad]
  exact X86.reg_pops_esp (by decide) h

@[simp] theorem add_mem (s : X86) (r : Reg) (v : ℕ) : (exec (.add r v) s).mem = s.mem := by
  simp only [exec, X86.setReg_mem]

theorem reg_add_self (h : s.reg r + v < 2 ^ 32) : (exec (.add r v) s).reg r = s.reg r + v := by
  rw [exec, X86.reg_setReg_self, Nat.mod_eq_of_lt h]

@[simp] theorem sti_mem (s : X86) : (exec .sti s).mem = s.mem := by
  simp only [exec]

@[simp] theorem reg_sti (s : X86) (q : Reg) : (exec .sti s).reg q = s.reg q := by
  simp only [exec, X86.reg]

/-- `iret` takes `EIP` and `CS` from the top of the stack, whatever ring it goes to. -/
theorem iret_eip_cs (h : s.reg .esp + 4 < 2 ^ 32) :
    (exec .iret s).eip.val = load s.mem (s.reg .esp) ∧
      (exec .iret s).seg .cs = load s.mem (s.reg .esp + 4) % 2 ^ 16 := by
  have hlt := load_lt s.mem (s.reg .esp)
  have hframe : (iretFrame s).eip.val = load s.mem (s.reg .esp) ∧
      (iretFrame s).seg .cs = load s.mem (s.reg .esp + 4) % 2 ^ 16 := by
    rw [← X86.reg_drop_esp h]
    simp only [iretFrame, X86.drop_eip, X86.drop_seg, X86.setSeg, X86.top, X86.reg, X86.drop_mem,
      Fin.val_ofNat, Function.update_self]
    exact ⟨Nat.mod_eq_of_lt hlt, trivial⟩
  simp only [exec, iret]
  split
  · -- to an outer ring: `ESP` and `SS` come on top
    simp only [X86.setReg_eip, X86.drop_eip, X86.setSeg, X86.setReg_seg, X86.drop_seg]
    rw [Function.update_of_ne (by decide)]
    exact hframe
  · exact hframe

/-- A run of pushes. -/
theorem run_pushes (rs : List Reg) (is : List Instr) (s : X86) :
    run 0 (rs.map .push ++ is) s = run 0 is (s.pushes rs) := by
  induction rs generalizing s with
  | nil => rfl
  | cons r rs ih => exact ih (s.push (s.reg r))

/-- A run of pops. -/
theorem run_pops (rs : List Reg) (is : List Instr) (s : X86) :
    run 0 (rs.map .pop ++ is) s = run 0 is (s.pops (rs.map some)) := by
  induction rs generalizing s with
  | nil => rfl
  | cons r rs ih => exact ih (s.pop r)

/-- What `mov q, cr3; cmp q, r` leaves. -/
def cmpCr3 (q r : Reg) (s : X86) : X86 := exec (.cmp q r) (exec (.movFromCr3 q) s)

theorem cmpCr3_flag (hq : r ≠ q) (s : X86) :
    (cmpCr3 q r s).flag zeroFlag = decide (s.cr3.val = s.reg r) := by
  have hmod : s.cr3.val % 2 ^ 32 = s.cr3.val := Nat.mod_eq_of_lt s.cr3.isLt
  simp only [cmpCr3, exec, Function.update_self, X86.reg_setReg_self, X86.reg_setReg_of_ne hq,
    hmod]

theorem reg_cmpCr3 {d : Reg} (h : d ≠ q) (s : X86) : (cmpCr3 q r s).reg d = s.reg d := by
  have hset : (s.setReg q s.cr3.val).reg d = s.reg d := X86.reg_setReg_of_ne h
  exact hset

/-- `mov q, cr3; cmp q, r; je; mov cr3, r`: whichever way the jump goes, `CR3` holds `r` and
    only `q` and the flags are lost. -/
theorem run_switchCr3 (hq : r ≠ q) (is : List Instr) (s : X86) :
    ∃ t : X86, run 0 (.movFromCr3 q :: .cmp q r :: .je 1 :: .movToCr3 r :: is) s = run 0 is t ∧
      t.cr3.val = s.reg r ∧ t.mem = s.mem ∧ t.seg = s.seg ∧ ∀ d, d ≠ q → t.reg d = s.reg d := by
  have hrun : run 0 (.movFromCr3 q :: .cmp q r :: .je 1 :: .movToCr3 r :: is) s =
      if (cmpCr3 q r s).flag zeroFlag then run 0 is (cmpCr3 q r s)
      else run 0 is (exec (.movToCr3 r) (cmpCr3 q r s)) := rfl
  rw [hrun, cmpCr3_flag hq]
  by_cases h : s.cr3.val = s.reg r
  · -- the directory is loaded already, and `CR3` is left alone
    rw [if_pos (decide_eq_true h)]
    exact ⟨cmpCr3 q r s, rfl, h, rfl, rfl, fun d hd => reg_cmpCr3 hd s⟩
  · rw [if_neg (by simp [h])]
    exact ⟨exec (.movToCr3 r) (cmpCr3 q r s), rfl, reg_cmpCr3 (r := r) hq s, rfl, rfl,
      fun d hd => reg_cmpCr3 (r := r) hd s⟩

end Rotary.Lib

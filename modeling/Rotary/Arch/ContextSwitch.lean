import Mathlib.Logic.Relation
import Rotary.Lib.X86
import Rotary.Sched.Task

namespace Rotary

open Lib

/-!
# Switching stacks (`context-switch.asm`, `isr.asm`, `arch/x86/kernel/task.c`)

`task_context_switch` keeps a task on its own kernel stack: four registers and the return
address, with the address of the image in `kstack_top`.  `arch_task_create` writes by hand the
image the routine expects, with `isr_exit` for a return address and the frame of an interrupt
behind it.

* `taskContextSwitch` / `isrExit` — the two routines, instruction by instruction;
* `archTaskCreateMem` — `arch_task_create` on the bytes of the struct and the stack;
* `Kernel` / `KernelStep` — a processor, the tasks on it, and what they may do: run, create a
  task, switch;
* `Kernel.Inv` — every task that is not running has its image on its own stack.

Left out: the log messages, and `tss.esp0`, which nothing here reads.
-/

/-! ### The layout of the structs -/

/-- Offsets in `struct task`; the assembly repeats the second and the third as
    `TASK_OFFSET_KSTACK_TOP` and `TASK_OFFSET_VM_SPACE`. -/
def offType : ℕ := 4
def offKstackTop : ℕ := 20
def offVmSpace : ℕ := 32
def offStartAddr : ℕ := 36

/-- Offsets in `struct isr_registers`. -/
def offDs : ℕ := 0
def offEip : ℕ := 44
def offCs : ℕ := 48
def offEflags : ℕ := 52
def offUserEsp : ℕ := 56
def offUserSs : ℕ := 60

/-- Offsets in `struct task_context`. -/
def ctxEdi : ℕ := 0
def ctxEsi : ℕ := 4
def ctxEbx : ℕ := 8
def ctxEbp : ℕ := 12
def ctxEip : ℕ := 16

def taskKernel : ℕ := 0

def gdtKernelCodeOffset : ℕ := 0x08
def gdtKernelDataOffset : ℕ := 0x10
def gdtUserCodeOffset : ℕ := 0x18
def gdtUserDataOffset : ℕ := 0x20
def rplKernelmode : ℕ := 0
def rplUsermode : ℕ := 3
def eflagsInterruptsOn : ℕ := 0x200
def eflagsIoplKernelmode : ℕ := 0
def eflagsIoplUsermode : ℕ := 0x3000

/-! ### The routines -/

/-- `task_context_switch`. -/
def taskContextSwitch : List Instr :=
  [ .movLoad .eax .esp 4,
    .movLoad .edx .esp 8,
    -- Storing Existing Task State
    .push .ebp,
    .push .ebx,
    .push .esi,
    .push .edi,
    .movStore .eax offKstackTop .esp,
    -- Loading Next Task State
    .movLoad .esp .edx offKstackTop,
    .movLoad .ebx .edx offVmSpace,
    .movLoad .ebx .ebx 0,
    .movFromCr3 .ecx,
    .cmp .ecx .ebx,
    .je 1,
    .movToCr3 .ebx,
    -- .end_task_context_switch
    .pop .edi,
    .pop .esi,
    .pop .ebx,
    .pop .ebp,
    .ret ]

/-- `isr_exit`. -/
def isrExit : List Instr :=
  [ .pop .eax,
    .movSeg .ds .eax,
    .movSeg .es .eax,
    .movSeg .fs .eax,
    .movAx 0x30,
    .movSeg .gs .eax,
    .popad,
    .add .esp 8,
    .sti,
    .iret ]

/-- `memset(p, 0, size)`. -/
def memZero (m : ByteMem) (p size : ℕ) : ByteMem := fun x =>
  if p ≤ x ∧ x < p + size then 0 else m x

/-- The `struct isr_registers` at `regs`, for a task of the type that begins at `start`. -/
def setRegisters (m : ByteMem) (regs start type : ℕ) : ByteMem :=
  let m := memZero m regs sizeofIsrRegisters
  let m := store m (regs + offEip) start
  if type = taskKernel then
    let m := store m (regs + offCs) (gdtKernelCodeOffset ||| rplKernelmode)
    let m := store m (regs + offDs) (gdtKernelDataOffset ||| rplKernelmode)
    let m := store m (regs + offEflags) (eflagsInterruptsOn ||| eflagsIoplKernelmode)
    store m (regs + offUserSs) (gdtKernelDataOffset ||| rplKernelmode)
  else
    let m := store m (regs + offCs) (gdtUserCodeOffset ||| rplUsermode)
    let m := store m (regs + offDs) (gdtUserDataOffset ||| rplUsermode)
    let m := store m (regs + offEflags) (eflagsInterruptsOn ||| eflagsIoplUsermode)
    let m := store m (regs + offUserSs) (gdtUserDataOffset ||| rplUsermode)
    store m (regs + offUserEsp) 0x440000

/-- The `struct task_context` at `ctx`; `isr` is the address of `isr_exit`. -/
def setContext (m : ByteMem) (ctx isr : ℕ) : ByteMem :=
  let m := memZero m ctx sizeofTaskContext
  let m := store m (ctx + ctxEdi) 0
  let m := store m (ctx + ctxEsi) 0
  let m := store m (ctx + ctxEbx) 0
  let m := store m (ctx + ctxEbp) 0
  store m (ctx + ctxEip) isr

/-- `arch_task_create` of the struct at `t`. -/
def archTaskCreateMem (isr t : ℕ) (m : ByteMem) : ByteMem :=
  let m := store m (t + offKstackTop)
    (load m (t + offKstackTop) + (2 ^ 32 - sizeofIsrRegisters))
  let m := setRegisters m (load m (t + offKstackTop)) (load m (t + offStartAddr))
    (load m (t + offType))
  let m := store m (t + offKstackTop)
    (load m (t + offKstackTop) + (2 ^ 32 - sizeofTaskContext))
  setContext m (load m (t + offKstackTop)) isr

/-- The code selector of a task of the type. -/
def codeSelector (type : ℕ) : ℕ :=
  if type = taskKernel then gdtKernelCodeOffset ||| rplKernelmode
  else gdtUserCodeOffset ||| rplUsermode

/-! ### Tasks on one processor -/

/-- Where the structs and kernel stacks of the tasks lie.  No two overlap. -/
structure StackLayout where
  /-- The addresses of the task structs. -/
  tasks : Set ℕ
  /-- The kernel stack of a task: the bytes from `lo` up to `hi`. -/
  lo : ℕ → ℕ
  hi : ℕ → ℕ
  stack_lt : ∀ t ∈ tasks, hi t < 2 ^ 32
  struct_lt : ∀ t ∈ tasks, t + sizeofTask < 2 ^ 32
  stack_apart : ∀ t ∈ tasks, ∀ u ∈ tasks, t ≠ u → hi t ≤ lo u ∨ hi u ≤ lo t
  struct_apart : ∀ t ∈ tasks, ∀ u ∈ tasks, t ≠ u → t + sizeofTask ≤ u ∨ u + sizeofTask ≤ t
  struct_stack : ∀ t ∈ tasks, ∀ u ∈ tasks, t + sizeofTask ≤ lo u ∨ hi u ≤ t

/-- What a task has in its registers where it calls `task_context_switch`; `eip` is the address
    behind the call. -/
structure Snapshot where
  esp : ℕ
  ebp : ℕ
  ebx : ℕ
  esi : ℕ
  edi : ℕ
  eip : ℕ
  deriving DecidableEq, Repr

/-- What has become of a task: not set up, set up by `arch_task_create` and never run since,
    or switched out.  Nothing is said of the running task. -/
inductive TaskImage
  | absent
  | fresh
  | out (c : Snapshot)
  deriving DecidableEq, Repr

/-- The processor, the struct of the running task, and the history of the others. -/
structure Kernel where
  cpu : X86
  cur : ℕ
  image : ℕ → TaskImage

/-- The registers at a call whose return address is `ret`. -/
def snapshot (s : X86) (ret : ℕ) : Snapshot :=
  { esp := s.reg .esp, ebp := s.reg .ebp, ebx := s.reg .ebx, esi := s.reg .esi,
    edi := s.reg .edi, eip := ret }

/-- `task_context_switch(current, next)`, called from `ret`. -/
def Kernel.switchTo (k : Kernel) (next ret : ℕ) : Kernel :=
  { cpu := call taskContextSwitch ret k.cpu
    cur := next
    image := Function.update k.image k.cur (.out (snapshot k.cpu ret)) }

/-- `arch_task_create(t)`, called by the running task. -/
def Kernel.create (k : Kernel) (isr t : ℕ) : Kernel :=
  { k with
    cpu := { k.cpu with mem := archTaskCreateMem isr t k.cpu.mem }
    image := Function.update k.image t .fresh }

/-- The running task has called `task_context_switch` for a task that is set up: its arguments
    are on its stack, where the four registers and the return address still fit. -/
structure Kernel.CallsSwitch (L : StackLayout) (k : Kernel) (next ret : ℕ) : Prop where
  next_mem : next ∈ L.tasks
  next_image : next = k.cur ∨ k.image next ≠ .absent
  arg_current : load k.cpu.mem (k.cpu.reg .esp) = k.cur
  arg_next : load k.cpu.mem (k.cpu.reg .esp + 4) = next
  room : L.lo k.cur + 20 ≤ k.cpu.reg .esp
  args : k.cpu.reg .esp + 8 ≤ L.hi k.cur
  ret_lt : ret < 2 ^ 32

/-- The stack of another task, and the words of its struct that a switch or its first run depends
    on, are as they were. -/
structure KeepsTask (L : StackLayout) (t : ℕ) (m m' : ByteMem) : Prop where
  stack : ∀ x, L.lo t ≤ x → x < L.hi t → m' x = m x
  struct : ∀ o ∈ [offType, offKstackTop, offStartAddr], load m' (t + o) = load m (t + o)

/-- What happens on the processor. -/
inductive KernelStep (L : StackLayout) (isr : ℕ) : Kernel → Kernel → Prop
  /-- The running task computes: any registers, any memory but the other tasks'. -/
  | work (k : Kernel) (s : X86) :
      (∀ t ∈ L.tasks, t ≠ k.cur → k.image t ≠ .absent → KeepsTask L t k.cpu.mem s.mem) →
      KernelStep L isr k { k with cpu := s }
  /-- It sets up a new task, on a stack that `task_create_kernel_stack` has put in the struct. -/
  | create (k : Kernel) (t : ℕ) : t ∈ L.tasks → t ≠ k.cur → k.image t = .absent →
      load k.cpu.mem (t + offKstackTop) = L.hi t →
      L.lo t + sizeofIsrRegisters + sizeofTaskContext ≤ L.hi t →
      KernelStep L isr k (k.create isr t)
  /-- It switches to a task. -/
  | switch (k : Kernel) (next ret : ℕ) : k.CallsSwitch L next ret →
      KernelStep L isr k (k.switchTo next ret)

/-- Only the running task exists yet. -/
structure Kernel.Boot (L : StackLayout) (k : Kernel) : Prop where
  cur_mem : k.cur ∈ L.tasks
  absent : ∀ t, k.image t = .absent

/-! ### One switch -/

/-- The image of a task on its stack: the words at `top` are those of the snapshot. -/
structure Saved (m : ByteMem) (top : ℕ) (c : Snapshot) : Prop where
  edi : load m (top + ctxEdi) = c.edi
  esi : load m (top + ctxEsi) = c.esi
  ebx : load m (top + ctxEbx) = c.ebx
  ebp : load m (top + ctxEbp) = c.ebp
  eip : load m (top + ctxEip) = c.eip
  esp : top + sizeofTaskContext = c.esp

variable {m m' : ByteMem} {s t u : X86} {c d : Snapshot} {p top n o ret isr : ℕ}

theorem Saved.unique (hc : Saved m top c) (hd : Saved m top d) : c = d := by
  obtain ⟨_, _, _, _, _, _⟩ := c
  rw [Snapshot.mk.injEq]
  exact ⟨hc.esp.symm.trans hd.esp, hc.ebp.symm.trans hd.ebp, hc.ebx.symm.trans hd.ebx,
    hc.esi.symm.trans hd.esi, hc.edi.symm.trans hd.edi, hc.eip.symm.trans hd.eip⟩

/-- An image depends on its own twenty bytes only. -/
theorem Saved.congr (h : Saved m top c) (heq : ∀ x, top ≤ x → x < top + 20 → m' x = m x) :
    Saved m' top c := by
  have hload : ∀ o, o + 4 ≤ 20 → load m' (top + o) = load m (top + o) := by
    intro o ho
    exact load_congr fun x h1 h2 => heq x (by omega) (by omega)
  exact ⟨(hload _ (by decide)).trans h.edi, (hload _ (by decide)).trans h.esi,
    (hload _ (by decide)).trans h.ebx, (hload _ (by decide)).trans h.ebp,
    (hload _ (by decide)).trans h.eip, h.esp⟩

/-- What a call of `task_context_switch(o, n)` from `ret` does. -/
structure Switches (s t : X86) (o n ret : ℕ) : Prop where
  /-- It writes twenty bytes of the caller's stack and the caller's `kstack_top`. -/
  frame : ∀ x, (x < s.reg .esp - 20 ∨ s.reg .esp ≤ x) →
    (x < o + offKstackTop ∨ o + offKstackTop + 4 ≤ x) → t.mem x = s.mem x
  saved : Saved t.mem (s.reg .esp - 20) (snapshot s ret)
  top : load t.mem (o + offKstackTop) = s.reg .esp - 20
  /-- The registers it returns with are those at `kstack_top` of the next task. -/
  resumed : load t.mem (n + offKstackTop) + 20 < 2 ^ 32 →
    Saved t.mem (load t.mem (n + offKstackTop)) (snapshot t t.eip)
  cr3 : t.cr3.val = load t.mem (load t.mem (n + offVmSpace))
  seg : t.seg = s.seg

/-- The registers pushed at the beginning of the routine. -/
def pushed : List Reg := [.ebp, .ebx, .esi, .edi]

/-- The stack after the call and the four pushes. -/
theorem pushes_saved {v : X86} (hp : 20 ≤ s.reg .esp) (hret : ret < 2 ^ 32)
    (hmem : v.mem = (s.push ret).mem) (hreg : ∀ q ∈ Reg.esp :: pushed, v.reg q = (s.push ret).reg q) :
    Saved (v.pushes pushed).mem (s.reg .esp - 20) (snapshot s ret) ∧
      (v.pushes pushed).reg .esp = s.reg .esp - 20 ∧
      ∀ x, (x < s.reg .esp - 20 ∨ s.reg .esp ≤ x) → (v.pushes pushed).mem x = s.mem x := by
  have hlen : pushed.length = 4 := rfl
  have hesp : v.reg .esp = s.reg .esp - 4 := by
    rw [hreg .esp (by decide), X86.reg_push_esp (by omega)]
  have hpush : ∀ q ∈ pushed, q ≠ .esp → v.reg q = s.reg q := by
    intro q hq hne
    rw [hreg q (List.mem_cons_of_mem _ hq), X86.reg_push_of_ne hne]
  have hframe : ∀ x, (x < s.reg .esp - 20 ∨ s.reg .esp - 4 ≤ x) →
      (v.pushes pushed).mem x = v.mem x := by
    intro x hx
    exact X86.pushes_mem_of_not_mem (by omega) (by omega)
  refine ⟨⟨?edi, ?esi, ?ebx, ?ebp, ?eip, ?esp⟩, ?_, ?_⟩
  case edi =>
    rw [snapshot, ← hpush .edi (by decide) (by decide), ctxEdi,
      show s.reg .esp - 20 + 0 = v.reg .esp - 4 * 4 by omega]
    exact X86.load_pushes [.ebp, .ebx, .esi] .edi [] (by decide)
      (by simp only [List.length_cons, List.length_nil]; omega)
  case esi =>
    rw [snapshot, ← hpush .esi (by decide) (by decide), ctxEsi,
      show s.reg .esp - 20 + 4 = v.reg .esp - 4 * 3 by omega]
    exact X86.load_pushes [.ebp, .ebx] .esi [.edi] (by decide)
      (by simp only [List.length_cons, List.length_nil]; omega)
  case ebx =>
    rw [snapshot, ← hpush .ebx (by decide) (by decide), ctxEbx,
      show s.reg .esp - 20 + 8 = v.reg .esp - 4 * 2 by omega]
    exact X86.load_pushes [.ebp] .ebx [.esi, .edi] (by decide)
      (by simp only [List.length_cons, List.length_nil]; omega)
  case ebp =>
    rw [snapshot, ← hpush .ebp (by decide) (by decide), ctxEbp,
      show s.reg .esp - 20 + 12 = v.reg .esp - 4 * 1 by omega]
    exact X86.load_pushes [] .ebp [.ebx, .esi, .edi] (by decide)
      (by simp only [List.length_cons, List.length_nil]; omega)
  case eip =>
    -- the return address lies just above the four registers
    rw [snapshot, ctxEip, load_congr fun x h1 _ => hframe x (by omega), hmem,
      X86.push_mem (by omega), show s.reg .esp - 20 + 16 = s.reg .esp - 4 by omega]
    exact load_store _ _ hret
  case esp =>
    rw [snapshot, sizeofTaskContext]
    show s.reg .esp - 20 + 20 = s.reg .esp
    omega
  · rw [X86.reg_pushes_esp (by omega), hesp]
    omega
  · intro x hx
    rw [hframe x (by omega), hmem, X86.push_mem (by omega)]
    exact store_of_not_mem (by omega)

/-- The first half of the routine, up to and with the store of `ESP`. -/
theorem run_saveCurrent (hp : 20 ≤ s.reg .esp) (hargs : s.reg .esp + 8 < 2 ^ 32)
    (hret : ret < 2 ^ 32) (ho : load s.mem (s.reg .esp) = o)
    (hn : load s.mem (s.reg .esp + 4) = n) (hlt : o + sizeofTask < 2 ^ 32)
    (hapart : o + offKstackTop + 4 ≤ s.reg .esp - 20 ∨ s.reg .esp ≤ o + offKstackTop) :
    ∃ u : X86, call taskContextSwitch ret s = run 0 (taskContextSwitch.drop 7) u ∧
      u.reg .edx = n ∧ u.seg = s.seg ∧
      (∀ x, (x < s.reg .esp - 20 ∨ s.reg .esp ≤ x) →
        (x < o + offKstackTop ∨ o + offKstackTop + 4 ≤ x) → u.mem x = s.mem x) ∧
      Saved u.mem (s.reg .esp - 20) (snapshot s ret) ∧
      load u.mem (o + offKstackTop) = s.reg .esp - 20 := by
  unfold sizeofTask at hlt
  have hesp : (s.push ret).reg .esp = s.reg .esp - 4 := X86.reg_push_esp (by omega)
  have hlow : ∀ a, s.reg .esp ≤ a → load (s.push ret).mem a = load s.mem a := by
    intro a ha
    rw [X86.push_mem (by omega)]
    exact load_store_of_disjoint (by omega)
  -- the arguments are read before anything is pushed
  generalize hv₁ : exec (.movLoad .eax .esp 4) (s.push ret) = v₁
  have heax : v₁.reg .eax = o := by
    rw [← hv₁, reg_movLoad_self (by omega), hesp, hlow _ (by omega), ← ho,
      Nat.sub_add_cancel (by omega)]
  generalize hv₂ : exec (.movLoad .edx .esp 8) v₁ = v₂
  have hedx : v₂.reg .edx = n := by
    have hesp₁ : v₁.reg .esp = s.reg .esp - 4 := by
      rw [← hv₁, reg_movLoad_of_ne (by decide), hesp]
    rw [← hv₂, reg_movLoad_self (by omega), hesp₁, ← hv₁, movLoad_mem, hlow _ (by omega), ← hn,
      show s.reg .esp - 4 + 8 = s.reg .esp + 4 by omega]
  have hmem₂ : v₂.mem = (s.push ret).mem := by rw [← hv₂, movLoad_mem, ← hv₁, movLoad_mem]
  have hseg₂ : v₂.seg = s.seg := by
    rw [← hv₂, movLoad_seg, ← hv₁, movLoad_seg, X86.push_seg]
  have hreg₂ : ∀ q ∈ Reg.esp :: pushed, v₂.reg q = (s.push ret).reg q := by
    intro q hq
    have hq' : q ≠ .eax ∧ q ≠ .edx := by
      revert hq
      cases q <;> decide
    rw [← hv₂, reg_movLoad_of_ne hq'.2, ← hv₁, reg_movLoad_of_ne hq'.1]
  have heax₂ : v₂.reg .eax = o := by rw [← hv₂, reg_movLoad_of_ne (by decide), heax]
  -- the four pushes put the image below the return address
  obtain ⟨hsaved, hesp₃, hframe⟩ := pushes_saved hp hret hmem₂ hreg₂
  have hcode : taskContextSwitch = .movLoad .eax .esp 4 :: .movLoad .edx .esp 8 ::
      (pushed.map .push ++ .movStore .eax offKstackTop .esp :: taskContextSwitch.drop 7) := rfl
  have hrun : call taskContextSwitch ret s = run 0 (taskContextSwitch.drop 7)
      (exec (.movStore .eax offKstackTop .esp) (v₂.pushes pushed)) := by
    rw [call, hcode, run_movLoad, hv₁, run_movLoad, hv₂, run_pushes, run_movStore, ← hcode]
  generalize hv₃ : v₂.pushes pushed = v₃ at hrun hsaved hesp₃ hframe
  -- the only other store: `ESP` goes into the struct of the old task
  have hmem : (exec (.movStore .eax offKstackTop .esp) v₃).mem =
      store v₃.mem (o + offKstackTop) (s.reg .esp - 20) := by
    have heax₃ : v₃.reg .eax = o := by rw [← hv₃, X86.reg_pushes_of_ne (by decide), heax₂]
    rw [movStore_mem (by rw [heax₃, offKstackTop]; omega), heax₃, hesp₃]
  refine ⟨exec (.movStore .eax offKstackTop .esp) v₃, hrun, ?_, ?_, ?_, ?_, ?_⟩
  · rw [reg_movStore, ← hv₃, X86.reg_pushes_of_ne (by decide), hedx]
  · rw [movStore_seg, ← hv₃, X86.pushes_seg, hseg₂]
  · intro x hx ho
    rw [hmem, store_of_not_mem ho, hframe x hx]
  · rw [hmem]
    exact hsaved.congr fun x h1 h2 => store_of_not_mem (by omega)
  · have hlt := s.reg_lt .esp
    rw [hmem]
    exact load_store _ _ (by omega)

/-- The registers popped at the end of the routine. -/
def popped : List (Option Reg) := [some .edi, some .esi, some .ebx, some .ebp]

/-- The end of the routine: four registers are popped and the word behind them is returned to. -/
theorem run_restore (ht : run 0 (taskContextSwitch.drop 14) s = t) :
    (s.reg .esp + 20 < 2 ^ 32 → Saved s.mem (s.reg .esp) (snapshot t t.eip)) ∧
      t.mem = s.mem ∧ t.seg = s.seg ∧ t.cr3 = s.cr3 := by
  have hrun : run 0 (taskContextSwitch.drop 14) s = exec .ret (s.pops popped) :=
    run_pops [.edi, .esi, .ebx, .ebp] [.ret] s
  refine ⟨fun hesp => ?saved, by rw [← ht, hrun]; simp, by rw [← ht, hrun]; simp,
    by rw [← ht, hrun]; simp⟩
  have hlen : popped.length = 4 := rfl
  have hpops : (s.pops popped).reg .esp = s.reg .esp + 16 :=
    X86.reg_pops_esp (by decide) (by omega)
  -- `ret` changes `ESP` and `EIP` only
  have hret : ∀ q, q ≠ .esp → t.reg q = (s.pops popped).reg q := by
    intro q hq
    rw [← ht, hrun, reg_ret, X86.reg_drop_of_ne hq]
  refine ⟨?edi, ?esi, ?ebx, ?ebp, ?eip, ?esp⟩
  case edi =>
    rw [snapshot, hret .edi (by decide)]
    exact (X86.reg_pops [] .edi [some .esi, some .ebx, some .ebp] (by decide) (by decide)
      (by decide) (by simp only [List.length_nil]; omega)).symm
  case esi =>
    rw [snapshot, hret .esi (by decide)]
    exact (X86.reg_pops [some .edi] .esi [some .ebx, some .ebp] (by decide) (by decide)
      (by decide) (by simp only [List.length_cons, List.length_nil]; omega)).symm
  case ebx =>
    rw [snapshot, hret .ebx (by decide)]
    exact (X86.reg_pops [some .edi, some .esi] .ebx [some .ebp] (by decide) (by decide)
      (by decide) (by simp only [List.length_cons, List.length_nil]; omega)).symm
  case ebp =>
    rw [snapshot, hret .ebp (by decide)]
    exact (X86.reg_pops [some .edi, some .esi, some .ebx] .ebp [] (by decide) (by decide)
      (by decide) (by simp only [List.length_cons, List.length_nil]; omega)).symm
  case eip =>
    rw [snapshot, ← ht, hrun, ret_eip, X86.pops_mem, hpops, ctxEip]
  case esp =>
    rw [snapshot, ← ht, hrun, reg_ret, X86.reg_drop_esp (by omega), hpops, sizeofTaskContext]

/-- The second half: the image at `kstack_top` of the next task is popped, and the directory of
    its address space is loaded. -/
theorem run_loadNext (hn : u.reg .edx = n) (hlt : n + sizeofTask < 2 ^ 32)
    (ht : run 0 (taskContextSwitch.drop 7) u = t) :
    (load u.mem (n + offKstackTop) + 20 < 2 ^ 32 →
        Saved u.mem (load u.mem (n + offKstackTop)) (snapshot t t.eip)) ∧
      t.mem = u.mem ∧ t.seg = u.seg ∧ t.cr3.val = load u.mem (load u.mem (n + offVmSpace)) := by
  unfold sizeofTask at hlt
  have hcode : taskContextSwitch.drop 7 = .movLoad .esp .edx offKstackTop ::
      .movLoad .ebx .edx offVmSpace :: .movLoad .ebx .ebx 0 :: .movFromCr3 .ecx ::
      .cmp .ecx .ebx :: .je 1 :: .movToCr3 .ebx :: taskContextSwitch.drop 14 := rfl
  rw [hcode, run_movLoad, run_movLoad, run_movLoad] at ht
  have hesp : (exec (.movLoad .esp .edx offKstackTop) u).reg .esp =
      load u.mem (n + offKstackTop) := by
    rw [reg_movLoad_self (by rw [hn, offKstackTop]; omega), hn]
  -- from here on the stack is that of the next task
  generalize hu₁ : exec (.movLoad .esp .edx offKstackTop) u = u₁ at ht hesp
  have hmem₁ : u₁.mem = u.mem := by rw [← hu₁, movLoad_mem]
  have hseg₁ : u₁.seg = u.seg := by rw [← hu₁, movLoad_seg]
  have hedx₁ : u₁.reg .edx = n := by rw [← hu₁, reg_movLoad_of_ne (by decide), hn]
  have hebx : (exec (.movLoad .ebx .edx offVmSpace) u₁).reg .ebx =
      load u.mem (n + offVmSpace) := by
    rw [reg_movLoad_self (by rw [hedx₁, offVmSpace]; omega), hmem₁, hedx₁]
  generalize hu₂ : exec (.movLoad .ebx .edx offVmSpace) u₁ = u₂ at ht hebx
  have hpgd : (exec (.movLoad .ebx .ebx 0) u₂).reg .ebx =
      load u.mem (load u.mem (n + offVmSpace)) := by
    rw [reg_movLoad_self (u₂.reg_lt .ebx), hebx, ← hu₂, movLoad_mem, hmem₁, Nat.add_zero]
  generalize hu₃ : exec (.movLoad .ebx .ebx 0) u₂ = u₃ at ht hpgd
  have hmem₃ : u₃.mem = u.mem := by rw [← hu₃, movLoad_mem, ← hu₂, movLoad_mem, hmem₁]
  have hseg₃ : u₃.seg = u.seg := by rw [← hu₃, movLoad_seg, ← hu₂, movLoad_seg, hseg₁]
  have hesp₃ : u₃.reg .esp = load u.mem (n + offKstackTop) := by
    rw [← hu₃, reg_movLoad_of_ne (by decide), ← hu₂, reg_movLoad_of_ne (by decide), hesp]
  -- `CR3` is the directory afterwards whether or not the jump is taken
  obtain ⟨v, hv, hcr3, hmem, hseg, hreg⟩ := run_switchCr3 (q := .ecx) (r := .ebx) (by decide)
    (taskContextSwitch.drop 14) u₃
  rw [hv] at ht
  have hespv : v.reg .esp = load u.mem (n + offKstackTop) := by
    rw [hreg .esp (by decide), hesp₃]
  obtain ⟨hsaved, htmem, htseg, htcr3⟩ := run_restore ht
  rw [hespv, hmem, hmem₃] at hsaved
  exact ⟨hsaved, by rw [htmem, hmem, hmem₃], by rw [htseg, hseg, hseg₃], by rw [htcr3, hcr3, hpgd]⟩

/-- **One switch.**  The caller's image goes on its stack, and the image of the next task comes
    off its own. -/
theorem call_taskContextSwitch (hp : 20 ≤ s.reg .esp) (hargs : s.reg .esp + 8 < 2 ^ 32)
    (hret : ret < 2 ^ 32) (ho : load s.mem (s.reg .esp) = o)
    (hn : load s.mem (s.reg .esp + 4) = n) (holt : o + sizeofTask < 2 ^ 32)
    (hnlt : n + sizeofTask < 2 ^ 32)
    (hapart : o + offKstackTop + 4 ≤ s.reg .esp - 20 ∨ s.reg .esp ≤ o + offKstackTop) :
    Switches s (call taskContextSwitch ret s) o n ret := by
  obtain ⟨u, hrun, hedx, hseg, hframe, hsaved, htop⟩ :=
    run_saveCurrent hp hargs hret ho hn holt hapart
  obtain ⟨hresumed, htmem, htseg, hcr3⟩ := run_loadNext hedx hnlt hrun.symm
  exact
    { frame := by rw [htmem]; exact hframe
      saved := by rw [htmem]; exact hsaved
      top := by rw [htmem]; exact htop
      resumed := by rw [htmem]; exact hresumed
      cr3 := by rw [htmem]; exact hcr3
      seg := htseg.trans hseg }

/-! ### Setting a task up -/

theorem memZero_of_not_mem {p size x : ℕ} (h : x < p ∨ p + size ≤ x) : memZero m p size x = m x := by
  have hx : ¬ (p ≤ x ∧ x < p + size) := by omega
  simp only [memZero, hx, if_false]

/-- The frame of `regs` is written and nothing else. -/
theorem setRegisters_of_not_mem {regs start type x : ℕ} (h : x < regs ∨ regs + 64 ≤ x) :
    setRegisters m regs start type x = m x := by
  have hstore : ∀ (m : ByteMem) (o v : ℕ), o + 4 ≤ 64 → store m (regs + o) v x = m x := by
    intro m o v ho
    exact store_of_not_mem (by omega)
  have hzero : memZero m regs sizeofIsrRegisters x = m x := memZero_of_not_mem h
  unfold setRegisters
  split <;> simp only [hstore _ _ _ (show offCs + 4 ≤ 64 by decide),
    hstore _ _ _ (show offDs + 4 ≤ 64 by decide), hstore _ _ _ (show offEflags + 4 ≤ 64 by decide),
    hstore _ _ _ (show offUserSs + 4 ≤ 64 by decide), hstore _ _ _ (show offEip + 4 ≤ 64 by decide),
    hstore _ _ _ (show offUserEsp + 4 ≤ 64 by decide), hzero]

/-- The two words of the frame that `iret` goes by. -/
theorem setRegisters_eip_cs (m : ByteMem) (regs type : ℕ) {start : ℕ} (hs : start < 2 ^ 32) :
    load (setRegisters m regs start type) (regs + offEip) = start ∧
      load (setRegisters m regs start type) (regs + offCs) = codeSelector type := by
  have hne : ∀ (m : ByteMem) (o o' v : ℕ), o' + 4 ≤ o ∨ o + 4 ≤ o' →
      load (store m (regs + o) v) (regs + o') = load m (regs + o') := by
    intro m o o' v ho
    exact load_store_of_disjoint (by omega)
  unfold setRegisters codeSelector
  split
  · refine ⟨?_, ?_⟩
    · simp only [hne _ offUserSs offEip _ (by decide), hne _ offEflags offEip _ (by decide),
        hne _ offDs offEip _ (by decide), hne _ offCs offEip _ (by decide)]
      exact load_store _ _ hs
    · simp only [hne _ offUserSs offCs _ (by decide), hne _ offEflags offCs _ (by decide),
        hne _ offDs offCs _ (by decide)]
      exact load_store _ _ (by decide)
  · refine ⟨?_, ?_⟩
    · simp only [hne _ offUserEsp offEip _ (by decide), hne _ offUserSs offEip _ (by decide),
        hne _ offEflags offEip _ (by decide), hne _ offDs offEip _ (by decide),
        hne _ offCs offEip _ (by decide)]
      exact load_store _ _ hs
    · simp only [hne _ offUserEsp offCs _ (by decide), hne _ offUserSs offCs _ (by decide),
        hne _ offEflags offCs _ (by decide), hne _ offDs offCs _ (by decide)]
      exact load_store _ _ (by decide)

/-- The snapshot a new task is resumed from: `isr_exit`, with the frame on top of the stack. -/
def freshSnapshot (isr frame : ℕ) : Snapshot :=
  { esp := frame, ebp := 0, ebx := 0, esi := 0, edi := 0, eip := isr }

theorem setContext_of_not_mem {ctx x : ℕ} (h : x < ctx ∨ ctx + 20 ≤ x) :
    setContext m ctx isr x = m x := by
  have hstore : ∀ (m : ByteMem) (o v : ℕ), o + 4 ≤ 20 → store m (ctx + o) v x = m x := by
    intro m o v ho
    exact store_of_not_mem (by omega)
  have hzero : memZero m ctx sizeofTaskContext x = m x := memZero_of_not_mem h
  unfold setContext
  simp only [hstore _ _ _ (show ctxEdi + 4 ≤ 20 by decide),
    hstore _ _ _ (show ctxEsi + 4 ≤ 20 by decide), hstore _ _ _ (show ctxEbx + 4 ≤ 20 by decide),
    hstore _ _ _ (show ctxEbp + 4 ≤ 20 by decide), hstore _ _ _ (show ctxEip + 4 ≤ 20 by decide),
    hzero]

/-- The context is the image the switch routine pops. -/
theorem setContext_saved (m : ByteMem) (ctx : ℕ) (hisr : isr < 2 ^ 32) :
    Saved (setContext m ctx isr) ctx (freshSnapshot isr (ctx + sizeofTaskContext)) := by
  have hne : ∀ (m : ByteMem) (o o' v : ℕ), o' + 4 ≤ o ∨ o + 4 ≤ o' →
      load (store m (ctx + o) v) (ctx + o') = load m (ctx + o') := by
    intro m o o' v ho
    exact load_store_of_disjoint (by omega)
  have hz : ∀ (m : ByteMem) (a : ℕ), load (store m a 0) a = 0 :=
    fun m a => load_store m a (by decide)
  unfold setContext
  refine ⟨?edi, ?esi, ?ebx, ?ebp, ?eip, rfl⟩
  case edi =>
    simp only [hne _ ctxEip ctxEdi _ (by decide), hne _ ctxEbp ctxEdi _ (by decide),
      hne _ ctxEbx ctxEdi _ (by decide), hne _ ctxEsi ctxEdi _ (by decide), hz, freshSnapshot]
  case esi =>
    simp only [hne _ ctxEip ctxEsi _ (by decide), hne _ ctxEbp ctxEsi _ (by decide),
      hne _ ctxEbx ctxEsi _ (by decide), hz, freshSnapshot]
  case ebx =>
    simp only [hne _ ctxEip ctxEbx _ (by decide), hne _ ctxEbp ctxEbx _ (by decide), hz,
      freshSnapshot]
  case ebp => simp only [hne _ ctxEip ctxEbp _ (by decide), hz, freshSnapshot]
  case eip => exact load_store _ _ hisr

/-- What `arch_task_create` of the struct at `t` does to a stack that ends at `hi`. -/
structure SetsUp (isr t hi : ℕ) (m m' : ByteMem) : Prop where
  frame : ∀ x, (x < hi - 84 ∨ hi ≤ x) → (x < t + offKstackTop ∨ t + offKstackTop + 4 ≤ x) →
    m' x = m x
  top : load m' (t + offKstackTop) = hi - 84
  saved : Saved m' (hi - 84) (freshSnapshot isr (hi - 64))
  eip : load m' (hi - 64 + offEip) = load m (t + offStartAddr)
  cs : load m' (hi - 64 + offCs) = codeSelector (load m (t + offType))

/-- **Setting a task up.**  The image has `isr_exit` for its return address, and the frame behind
    it begins the task at its entry point with the selector of its type. -/
theorem archTaskCreateMem_spec {t hi : ℕ} (hisr : isr < 2 ^ 32)
    (htop : load m (t + offKstackTop) = hi) (hroom : 84 ≤ hi)
    (hapart : t + sizeofTask ≤ hi - 84 ∨ hi ≤ t) : SetsUp isr t hi m (archTaskCreateMem isr t m) := by
  have hhi : hi < 2 ^ 32 := htop ▸ load_lt _ _
  unfold sizeofTask at hapart
  -- the words of the struct, through every write but the last but one
  generalize hm₁ : store m (t + offKstackTop)
    (load m (t + offKstackTop) + (2 ^ 32 - sizeofIsrRegisters)) = m₁
  have htop₁ : load m₁ (t + offKstackTop) = hi - 64 := by
    rw [← hm₁, load_store_self, htop, sizeofIsrRegisters]
    omega
  have hstart₁ : load m₁ (t + offStartAddr) = load m (t + offStartAddr) := by
    rw [← hm₁]
    exact load_store_of_disjoint (by simp only [offStartAddr, offKstackTop]; omega)
  have htype₁ : load m₁ (t + offType) = load m (t + offType) := by
    rw [← hm₁]
    exact load_store_of_disjoint (by simp only [offType, offKstackTop]; omega)
  generalize hm₂ : setRegisters m₁ (hi - 64) (load m (t + offStartAddr)) (load m (t + offType)) = m₂
  have hframe₂ : ∀ x, (x < hi - 64 ∨ hi ≤ x) → m₂ x = m₁ x := by
    intro x hx
    rw [← hm₂]
    exact setRegisters_of_not_mem (by omega)
  have htop₂ : load m₂ (t + offKstackTop) = hi - 64 := by
    rw [← htop₁]
    exact load_congr fun x h1 h2 => hframe₂ x (by simp only [offKstackTop] at h1 h2; omega)
  generalize hm₃ : store m₂ (t + offKstackTop)
    (load m₂ (t + offKstackTop) + (2 ^ 32 - sizeofTaskContext)) = m₃
  have htop₃ : load m₃ (t + offKstackTop) = hi - 84 := by
    rw [← hm₃, load_store_self, htop₂, sizeofTaskContext]
    omega
  have hm' : archTaskCreateMem isr t m = setContext m₃ (hi - 84) isr := by
    simp only [archTaskCreateMem]
    rw [hm₁, htop₁, hstart₁, htype₁, hm₂, hm₃, htop₃]
  have hframe' : ∀ x, (x < hi - 84 ∨ hi - 64 ≤ x) → archTaskCreateMem isr t m x = m₃ x := by
    intro x hx
    rw [hm']
    exact setContext_of_not_mem (by omega)
  -- the frame of `iret` is not touched again
  have hregs : ∀ o', o' + 4 ≤ 64 →
      load (archTaskCreateMem isr t m) (hi - 64 + o') = load m₂ (hi - 64 + o') := by
    intro o' ho'
    rw [load_congr fun x h1 _ => hframe' x (by omega), ← hm₃]
    exact load_store_of_disjoint (by simp only [offKstackTop]; omega)
  have hiret := setRegisters_eip_cs m₁ (hi - 64) (load m (t + offType))
    (load_lt m (t + offStartAddr))
  rw [hm₂] at hiret
  refine ⟨?frame, ?top, ?saved, ?eip, ?cs⟩
  case frame =>
    intro x hx hxt
    rw [hframe' x (by omega), ← hm₃, store_of_not_mem hxt, hframe₂ x (by omega), ← hm₁,
      store_of_not_mem hxt]
  case top =>
    rw [load_congr fun x h1 h2 => hframe' x (by simp only [offKstackTop] at h1 h2; omega), htop₃]
  case saved =>
    have hsaved := setContext_saved m₃ (hi - 84) hisr
    rw [sizeofTaskContext, show hi - 84 + 20 = hi - 64 by omega, ← hm'] at hsaved
    exact hsaved
  case eip => rw [hregs _ (by decide), hiret.1]
  case cs => rw [hregs _ (by decide), hiret.2]

/-- `isr_exit` takes the frame off the stack: the `iret` goes to the word at `eip`, with the
    selector at `cs`. -/
theorem run_isrExit (h : s.reg .esp + sizeofIsrRegisters < 2 ^ 32) :
    (run 0 isrExit s).eip.val = load s.mem (s.reg .esp + offEip) ∧
      (run 0 isrExit s).seg .cs = load s.mem (s.reg .esp + offCs) % 2 ^ 16 := by
  unfold sizeofIsrRegisters at h
  simp only [isrExit, run]
  generalize hu : exec (.movSeg .gs .eax) (exec (.movAx 0x30) (exec (.movSeg .fs .eax)
    (exec (.movSeg .es .eax) (exec (.movSeg .ds .eax) (exec (.pop .eax) s))))) = u
  -- up to `popad` one word is popped
  have hesp : u.reg .esp = s.reg .esp + 4 := by
    rw [← hu, reg_movSeg, reg_movAx_of_ne (by decide), reg_movSeg, reg_movSeg, reg_movSeg]
    exact X86.reg_pop_esp (by decide) (by omega)
  have hmem : u.mem = s.mem := by
    rw [← hu, movSeg_mem, movAx_mem, movSeg_mem, movSeg_mem, movSeg_mem]
    exact X86.pop_mem s .eax
  have hesp₂ : (exec .popad u).reg .esp = s.reg .esp + 36 := by
    rw [reg_popad_esp (by omega), hesp]
  -- the vector and the error code are skipped
  have hesp₃ : (exec .sti (exec (.add .esp 8) (exec .popad u))).reg .esp = s.reg .esp + offEip := by
    rw [reg_sti, reg_add_self (by omega), hesp₂, offEip]
  have hmem₃ : (exec .sti (exec (.add .esp 8) (exec .popad u))).mem = s.mem := by
    rw [sti_mem, add_mem, popad_mem, hmem]
  have hiret := iret_eip_cs (s := exec .sti (exec (.add .esp 8) (exec .popad u)))
    (by rw [hesp₃, offEip]; omega)
  rw [hesp₃, hmem₃, show s.reg .esp + offEip + 4 = s.reg .esp + offCs from rfl] at hiret
  exact hiret

/-! ### The tasks that are not running -/

variable {L : StackLayout} {k k' k₀ : Kernel} {next a b : ℕ}

/-- The image of a task is on its own stack, where `kstack_top` says. -/
structure Parked (L : StackLayout) (m : ByteMem) (a : ℕ) (c : Snapshot) : Prop where
  saved : Saved m (load m (a + offKstackTop)) c
  lo : L.lo a ≤ load m (a + offKstackTop)
  hi : load m (a + offKstackTop) + 20 ≤ L.hi a

/-- The image of a new task, with the frame of its `iret` behind it. -/
structure ParkedFresh (L : StackLayout) (isr : ℕ) (m : ByteMem) (a : ℕ) : Prop where
  parked : Parked L m a (freshSnapshot isr (L.hi a - 64))
  room : L.lo a + 84 ≤ L.hi a
  eip : load m (L.hi a - 64 + offEip) = load m (a + offStartAddr)
  cs : load m (L.hi a - 64 + offCs) = codeSelector (load m (a + offType))

/-- What the memory holds of a task that is not running. -/
def Holds (L : StackLayout) (isr : ℕ) (m : ByteMem) (a : ℕ) : TaskImage → Prop
  | .absent => True
  | .fresh => ParkedFresh L isr m a
  | .out c => Parked L m a c

/-- **The invariant.**  Every task but the running one is parked as its history says. -/
structure Kernel.Inv (L : StackLayout) (isr : ℕ) (k : Kernel) : Prop where
  cur_mem : k.cur ∈ L.tasks
  holds : ∀ a ∈ L.tasks, a ≠ k.cur → Holds L isr k.cpu.mem a (k.image a)

theorem Parked.congr (h : Parked L m a c) (hk : KeepsTask L a m m') : Parked L m' a c := by
  have htop := hk.struct offKstackTop (by decide)
  have hlo := h.lo
  have hhi := h.hi
  refine ⟨?_, by rw [htop]; exact hlo, by rw [htop]; exact hhi⟩
  rw [htop]
  exact h.saved.congr fun x h1 h2 => hk.stack x (by omega) (by omega)

/-- A task is parked as before when its stack and its struct are as before. -/
theorem Holds.congr {i : TaskImage} (h : Holds L isr m a i) (hk : KeepsTask L a m m') :
    Holds L isr m' a i := by
  cases i with
  | absent => trivial
  | out c => exact Parked.congr h hk
  | fresh =>
    have hroom := h.room
    have hframe : ∀ o', o' + 4 ≤ 64 →
        load m' (L.hi a - 64 + o') = load m (L.hi a - 64 + o') := by
      intro o' ho'
      exact load_congr fun x h1 h2 => hk.stack x (by omega) (by omega)
    exact
      { parked := h.parked.congr hk
        room := hroom
        eip := by
          rw [hframe _ (by decide), hk.struct offStartAddr (by decide)]
          exact h.eip
        cs := by
          rw [hframe _ (by decide), hk.struct offType (by decide)]
          exact h.cs }

/-- Writes to the `kstack_top` of one task and to its stack leave the others alone. -/
theorem StackLayout.keepsTask {lo hi : ℕ} (ha : a ∈ L.tasks) (hb : b ∈ L.tasks) (hne : b ≠ a)
    (hlo : L.lo a ≤ lo) (hhi : hi ≤ L.hi a)
    (hframe : ∀ x, (x < lo ∨ hi ≤ x) → (x < a + offKstackTop ∨ a + offKstackTop + 4 ≤ x) →
      m' x = m x) : KeepsTask L b m m' := by
  have hstack := L.stack_apart a ha b hb hne.symm
  have hstruct := L.struct_apart a ha b hb hne.symm
  have hab := L.struct_stack a ha b hb
  have hba := L.struct_stack b hb a ha
  simp only [sizeofTask] at hstruct hab hba
  simp only [offKstackTop] at hframe
  constructor
  · intro x h1 h2
    exact hframe x (by omega) (by omega)
  · intro o' ho'
    have hle : o' + 4 ≤ 68 := by
      revert o'
      decide
    exact load_congr fun x h1 h2 => hframe x (by omega) (by omega)

/-! ### Every step -/

/-- The call of a switch does what one switch does. -/
theorem Kernel.CallsSwitch.switches (hcur : k.cur ∈ L.tasks) (h : k.CallsSwitch L next ret) :
    Switches k.cpu (k.switchTo next ret).cpu k.cur next ret := by
  have hargs := h.args
  have hroom := h.room
  have hlt := L.stack_lt k.cur hcur
  have hapart := L.struct_stack k.cur hcur k.cur hcur
  simp only [sizeofTask] at hapart
  exact call_taskContextSwitch (by omega) (by omega) h.ret_lt h.arg_current h.arg_next
    (L.struct_lt k.cur hcur) (L.struct_lt next h.next_mem) (by simp only [offKstackTop]; omega)

/-- The caller of a switch is parked where it called. -/
theorem Kernel.CallsSwitch.parked (hcur : k.cur ∈ L.tasks) (h : k.CallsSwitch L next ret) :
    Parked L (k.switchTo next ret).cpu.mem k.cur (snapshot k.cpu ret) := by
  have hsw := h.switches hcur
  have hargs := h.args
  have hroom := h.room
  have htop := hsw.top
  refine ⟨?_, by omega, by omega⟩
  rw [htop]
  exact hsw.saved

/-- No other task notices a switch. -/
theorem Kernel.CallsSwitch.keepsTask (hcur : k.cur ∈ L.tasks) (h : k.CallsSwitch L next ret)
    (ha : a ∈ L.tasks) (hne : a ≠ k.cur) :
    KeepsTask L a k.cpu.mem (k.switchTo next ret).cpu.mem := by
  have hargs := h.args
  have hroom := h.room
  exact L.keepsTask hcur ha hne (by omega) (by omega) (h.switches hcur).frame

/-- After a switch every task is parked as its history says: the caller too, and the next one,
    which is popping its image. -/
theorem Kernel.Inv.holds_switch (hinv : k.Inv L isr) (h : k.CallsSwitch L next ret)
    (ha : a ∈ L.tasks) :
    Holds L isr (k.switchTo next ret).cpu.mem a ((k.switchTo next ret).image a) := by
  by_cases hne : a = k.cur
  · subst hne
    have himage : (k.switchTo next ret).image k.cur = .out (snapshot k.cpu ret) :=
      Function.update_self _ _ _
    rw [himage]
    exact h.parked hinv.cur_mem
  · have himage : (k.switchTo next ret).image a = k.image a := Function.update_of_ne hne _ _
    rw [himage]
    exact (hinv.holds a ha hne).congr (h.keepsTask hinv.cur_mem ha hne)

/-- A task is parked as new once it is set up. -/
theorem Kernel.Inv.create (hinv : k.Inv L isr) (hisr : isr < 2 ^ 32) (ha : a ∈ L.tasks)
    (hne : a ≠ k.cur) (htop : load k.cpu.mem (a + offKstackTop) = L.hi a)
    (hroom : L.lo a + sizeofIsrRegisters + sizeofTaskContext ≤ L.hi a) :
    (k.create isr a).Inv L isr := by
  simp only [sizeofIsrRegisters, sizeofTaskContext] at hroom
  have hapart := L.struct_stack a ha a ha
  have hup : SetsUp isr a (L.hi a) k.cpu.mem (k.create isr a).cpu.mem :=
    archTaskCreateMem_spec hisr htop (by omega) (by omega)
  refine ⟨hinv.cur_mem, ?_⟩
  intro b hb hbcur
  by_cases hba : b = a
  · subst hba
    have himage : (k.create isr b).image b = .fresh := Function.update_self _ _ _
    -- the type and the entry point are read back from the struct after `kstack_top` is stored
    have hkept : ∀ o' ∈ [offType, offStartAddr],
        load (k.create isr b).cpu.mem (b + o') = load k.cpu.mem (b + o') := by
      intro o' ho'
      simp only [sizeofTask] at hapart
      have hword : o' + 4 ≤ 20 ∨ 24 ≤ o' ∧ o' + 4 ≤ 68 := by
        revert o'
        decide
      exact load_congr fun x h1 h2 => hup.frame x (by omega) (by simp only [offKstackTop]; omega)
    rw [himage]
    exact
      { parked := ⟨hup.top ▸ hup.saved, by rw [hup.top]; omega, by rw [hup.top]; omega⟩
        room := by omega
        eip := by rw [hup.eip, hkept offStartAddr (by decide)]
        cs := by rw [hup.cs, hkept offType (by decide)] }
  · have himage : (k.create isr a).image b = k.image b := Function.update_of_ne hba _ _
    rw [himage]
    exact (hinv.holds b hb hbcur).congr
      (L.keepsTask ha hb hba (by omega) (by omega) hup.frame)

theorem Kernel.Boot.inv (h : k.Boot L) : k.Inv L isr := by
  refine ⟨h.cur_mem, fun a _ _ => ?_⟩
  rw [h.absent a]
  trivial

theorem KernelStep.inv (hisr : isr < 2 ^ 32) (h : KernelStep L isr k k') (hinv : k.Inv L isr) :
    k'.Inv L isr := by
  cases h with
  | work s hkeep =>
    refine ⟨hinv.cur_mem, fun a ha hne => ?_⟩
    by_cases himage : k.image a = .absent
    · show Holds L isr s.mem a (k.image a)
      rw [himage]
      trivial
    · exact (hinv.holds a ha hne).congr (hkeep a ha hne himage)
  | create a ha hne _ htop hroom => exact hinv.create hisr ha hne htop hroom
  | switch next ret hcall =>
    exact ⟨hcall.next_mem, fun a ha _ => hinv.holds_switch hcall ha⟩

theorem kernel_run_inv (hisr : isr < 2 ^ 32) (hboot : k₀.Boot L)
    (hrun : Relation.ReflTransGen (KernelStep L isr) k₀ k) : k.Inv L isr := by
  induction hrun with
  | refl => exact hboot.inv
  | tail _ hstep ih => exact hstep.inv hisr ih

/-! ### Transparency -/

/-- A parked task comes back with the registers of its snapshot. -/
theorem Kernel.CallsSwitch.resumes (hcur : k.cur ∈ L.tasks) (h : k.CallsSwitch L next ret)
    (hparked : Parked L (k.switchTo next ret).cpu.mem next c) :
    snapshot (k.switchTo next ret).cpu (k.switchTo next ret).cpu.eip = c := by
  have hlt := L.stack_lt next h.next_mem
  have hhi := hparked.hi
  exact ((h.switches hcur).resumed (by omega)).unique hparked.saved

/-- **Transparency.**  In every run, a task that was switched out comes back with the registers
    and the return address it called with; whatever task comes back, `CR3` is the directory of
    its address space; and a new task comes to `isr_exit` with its frame on top of the stack, so
    that the `iret` begins it at its entry point with the code selector of its type. -/
theorem switch_transparent (hisr : isr < 2 ^ 32) (hboot : k₀.Boot L)
    (hrun : Relation.ReflTransGen (KernelStep L isr) k₀ k) (hcall : k.CallsSwitch L next ret)
    (hk' : k' = k.switchTo next ret) :
    (∀ c, k'.image next = .out c → snapshot k'.cpu k'.cpu.eip = c) ∧
      k'.cpu.cr3.val = load k'.cpu.mem (load k'.cpu.mem (next + offVmSpace)) ∧
      (k'.image next = .fresh →
        k'.cpu.eip.val = isr ∧ k'.cpu.reg .esp + sizeofIsrRegisters = L.hi next ∧
        (run 0 isrExit k'.cpu).eip.val = load k'.cpu.mem (next + offStartAddr) ∧
        (run 0 isrExit k'.cpu).seg .cs = codeSelector (load k'.cpu.mem (next + offType))) := by
  subst hk'
  have hinv := kernel_run_inv hisr hboot hrun
  have hholds := hinv.holds_switch hcall hcall.next_mem
  refine ⟨?out, (hcall.switches hinv.cur_mem).cr3, ?fresh⟩
  case out =>
    intro c hc
    rw [hc] at hholds
    exact hcall.resumes hinv.cur_mem hholds
  case fresh =>
    intro hc
    rw [hc] at hholds
    have hfresh : ParkedFresh L isr (k.switchTo next ret).cpu.mem next := hholds
    -- the image popped is the one that the task was set up with
    have hsnap := hcall.resumes hinv.cur_mem hfresh.parked
    have hesp : (k.switchTo next ret).cpu.reg .esp = L.hi next - 64 := congrArg Snapshot.esp hsnap
    have heip : (k.switchTo next ret).cpu.eip.val = isr := congrArg Snapshot.eip hsnap
    have hroom := hfresh.room
    have hlt := L.stack_lt next hcall.next_mem
    -- the frame of the interrupt lies on top of it
    have hexit := run_isrExit (s := (k.switchTo next ret).cpu)
      (by rw [hesp, sizeofIsrRegisters]; omega)
    rw [hesp, hfresh.eip, hfresh.cs] at hexit
    have hsel : ∀ type, codeSelector type % 2 ^ 16 = codeSelector type := by
      intro type
      unfold codeSelector
      split <;> decide
    refine ⟨heip, ?_, hexit.1, hexit.2.trans (hsel _)⟩
    rw [hesp, sizeofIsrRegisters]
    omega

/-- The structs and stacks of two tasks, one after the other. -/
def twoStacks : StackLayout where
  tasks := fun t => t = 0xC0400000 ∨ t = 0xC0500000
  lo := fun t => t + 0x10000
  hi := fun t => t + 0x20000
  stack_lt := by rintro t (rfl | rfl) <;> decide
  struct_lt := by rintro t (rfl | rfl) <;> decide
  stack_apart := by rintro t (rfl | rfl) u (rfl | rfl) <;> decide
  struct_apart := by rintro t (rfl | rfl) u (rfl | rfl) <;> decide
  struct_stack := by rintro t (rfl | rfl) u (rfl | rfl) <;> decide

/-- The task at `0xC0400000` is about to set up the kernel task at `0xC0500000` and to switch to
    it; the arguments of both switches are on the stacks already. -/
def bootKernel : Kernel where
  cpu :=
    { gpr := fun r => word (if r = .esp then 0xC0415000 else if r = .ebp then 0xC0415040
        else if r = .ebx then 17 else 0)
      seg := fun _ => 0x08
      eip := word 0
      cr3 := word 0x1000
      flag := fun _ => false
      mem := [(0xC0400000 + offVmSpace, 0xC0300000), (0xC0300000, 0x1000),
          (0xC0500000 + offVmSpace, 0xC0300010), (0xC0300010, 0x2000),
          (0xC0500000 + offKstackTop, 0xC0520000), (0xC0500000 + offStartAddr, 0xC0123450),
          (0xC0415000, 0xC0400000), (0xC0415004, 0xC0500000),
          (0xC0514000, 0xC0500000), (0xC0514004, 0xC0400000)].foldl
        (fun m w => store m w.1 w.2) fun _ => 0 }
  cur := 0xC0400000
  image := fun _ => .absent

/-- The new task runs: its stack pointer is where it calls the switch back. -/
def workerKernel : Kernel :=
  let k := (bootKernel.create 0xC0100000 0xC0500000).switchTo 0xC0500000 0xC0101234
  { k with cpu := k.cpu.setReg .esp 0xC0514000 }

theorem bootKernel_callsSwitch :
    (bootKernel.create 0xC0100000 0xC0500000).CallsSwitch twoStacks 0xC0500000 0xC0101234 where
  next_mem := Or.inr rfl
  next_image := by decide +kernel
  arg_current := by decide +kernel
  arg_next := by decide +kernel
  room := by decide +kernel
  args := by decide +kernel
  ret_lt := by decide +kernel

theorem bootKernel_creates : KernelStep twoStacks 0xC0100000 bootKernel
    (bootKernel.create 0xC0100000 0xC0500000) :=
  .create bootKernel 0xC0500000 (Or.inr rfl) (by decide +kernel) rfl (by decide +kernel)
    (by decide +kernel)

theorem workerKernel_run :
    Relation.ReflTransGen (KernelStep twoStacks 0xC0100000) bootKernel workerKernel := by
  have hswitch : KernelStep twoStacks 0xC0100000 (bootKernel.create 0xC0100000 0xC0500000)
      ((bootKernel.create 0xC0100000 0xC0500000).switchTo 0xC0500000 0xC0101234) :=
    .switch _ _ _ bootKernel_callsSwitch
  refine .tail (.tail (.single bootKernel_creates) hswitch) (.work _ _ ?_)
  intro a _ _ _
  exact ⟨fun _ _ _ => rfl, fun _ _ => rfl⟩

/-- The new task begins at its entry point, and the first task, switched out and back, has its
    registers again. -/
theorem switch_transparent_thereAndBack :
    (run 0 isrExit ((bootKernel.create 0xC0100000 0xC0500000).switchTo
        0xC0500000 0xC0101234).cpu).eip.val = 0xC0123450 ∧
      snapshot (workerKernel.switchTo 0xC0400000 0xC0105678).cpu
          (workerKernel.switchTo 0xC0400000 0xC0105678).cpu.eip =
        { esp := 0xC0415000, ebp := 0xC0415040, ebx := 17, esi := 0, edi := 0,
          eip := 0xC0101234 } := by
  have hboot : bootKernel.Boot twoStacks := ⟨Or.inl rfl, fun _ => rfl⟩
  have hback : workerKernel.CallsSwitch twoStacks 0xC0400000 0xC0105678 :=
    { next_mem := Or.inl rfl
      next_image := by decide +kernel
      arg_current := by decide +kernel
      arg_next := by decide +kernel
      room := by decide +kernel
      args := by decide +kernel
      ret_lt := by decide +kernel }
  have hfirst := switch_transparent (by decide) hboot (.single bootKernel_creates)
    bootKernel_callsSwitch rfl
  have hsecond := switch_transparent (by decide) hboot workerKernel_run hback rfl
  refine ⟨?_, hsecond.1 _ (by decide +kernel)⟩
  rw [(hfirst.2.2 (by decide +kernel)).2.2.1]
  decide +kernel

end Rotary

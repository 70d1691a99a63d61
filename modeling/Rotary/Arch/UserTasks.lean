import Rotary.Arch.Syscall

namespace Rotary

open Lib

/-!
# User tasks in the kernel (`isr.asm`, `arch/x86/kernel/task.c`)

A user task is in the kernel from an interrupt or a system call to the `iret` that ends it.  In
between the kernel may switch to other tasks, which enter and leave it in turn.

* `archTaskSwitch` — `arch_task_switch`: the stack of the next task goes into the TSS;
* `TaskSystem` / `TaskSystemStep` — the kernel with its tasks, which enter, work, switch and leave;
* `TaskSystem.Inv` — the TSS names the stack of the running task, and whoever is in the kernel has
  the frame of his entry at the end of his own stack;
* `systemRun_resumes` — so whoever leaves goes on where he entered, after any run.
-/

/-- Offset in `struct task`. -/
def offKstackBot : ℕ := 24

/-! ### Entering and leaving -/

/-- How a user task, with the given state, has come into the kernel. -/
inductive KernelEntry
  | interrupt (n : ℕ) (error : Option ℕ) (user : X86)
  | syscall (user : X86)

namespace KernelEntry

/-- The user program as it was. -/
def user : KernelEntry → X86
  | .interrupt _ _ s => s
  | .syscall s => s

/-- The vectors with a stub, and their error codes. -/
def Valid : KernelEntry → Prop
  | .interrupt n error _ => n < 48 ∧ ErrorCode n error
  | .syscall _ => True

/-- Where the handler is called; `isr` has the addresses of the stubs. -/
def enter (isr : ℕ → ℕ) (stack : InnerStack) : KernelEntry → X86
  | .interrupt n error s => isrEnter stack (isr n) n error s
  | .syscall s => syscallEnter stack (isr intSyscall) s

/-- The code behind the call of the handler. -/
def leave : KernelEntry → X86 → X86
  | .interrupt _ _ _, v => run 0 isrReturn v
  | .syscall _, v => runEntry isr64Exit v

/-- What that code should come to. -/
def Resumes : KernelEntry → X86 → X86 → Prop
  | .interrupt _ _ s, v, w => Restored s v w
  | .syscall s, v, w => SyscallReturns s v w

/-- The words of the frame, on a stack with the given end. -/
def words (hi : ℕ) : KernelEntry → List ℕ
  | .interrupt n error s => (trapFrame ⟨hi, 0⟩ n error s).words ++ userWords s
  | .syscall s => syscallWords s

end KernelEntry

variable {e : KernelEntry} {isr : ℕ → ℕ} {stack : InnerStack} {v : X86} {hi x : ℕ}

theorem frameSize_user (h : FromUser e.user) : frameSize e.user = 64 := if_pos h

theorem KernelEntry.length_words (h : FromUser e.user) : 4 * (e.words hi).length = 64 := by
  rw [← frameSize_user h]
  cases e with
  | syscall s => exact length_syscallWords s
  | interrupt n error s =>
    have hwords : (trapFrame ⟨hi, 0⟩ n error s).words.length = 14 := rfl
    rw [words, user, ← length_userWords, List.length_append, hwords]
    omega

/-- Entering pushes the frame at the end of the stack of the kernel, and nothing elsewhere. -/
theorem KernelEntry.enter_words (isr : ℕ → ℕ) (hvalid : e.Valid) (hring : FromUser e.user)
    (hs : Interruptible stack e.user) :
    (e.enter isr stack).reg .esp + 68 = stack.esp0 ∧
      WordsAt (e.enter isr stack).mem (stack.esp0 - 64) (e.words stack.esp0) ∧
      ∀ x, (x < stack.esp0 - 68 ∨ stack.esp0 ≤ x) → (e.enter isr stack).mem x = e.user.mem x := by
  have hend : stackEnd stack e.user = stack.esp0 := if_pos hring
  have hlen : 4 * (e.words stack.esp0).length = 64 := length_words hring
  have hin : InKernel stack e.user (e.enter isr stack)
      (((e.enter isr stack).reg .esp + 4) :: e.words stack.esp0) := by
    cases e with
    | interrupt n error s => exact isrEnter_inKernel (isr n) hs hvalid.2 hvalid.1
    | syscall s => exact syscallEnter_inKernel (isr intSyscall) hs
  have hesp := hin.esp
  rw [hend, List.length_cons] at hesp
  have hstart : stack.esp0 - 64 = (e.enter isr stack).reg .esp + 4 := by omega
  refine ⟨by omega, ?_, fun x hx => hin.frame x (by rw [hend]; omega)⟩
  rw [hstart]
  exact hin.stacked.words.2

/-- With the frame at the end of the stack, and the handler back from its call, the user goes on. -/
theorem KernelEntry.leave_resumes (hring : FromUser e.user) (hseg : ∀ r, e.user.seg r < 2 ^ 16)
    (hlt : hi < 2 ^ 32) (hframe : WordsAt v.mem (hi - 64) (e.words hi))
    (hesp : v.reg .esp + 68 = hi) (hcs : v.seg .cs = gdtKernelCodeOffset) :
    e.Resumes v (e.leave v) := by
  have hsize := frameSize_user hring
  have hstart : hi - 64 = v.reg .esp + 4 := by omega
  rw [hstart] at hframe
  cases e with
  | interrupt n error s =>
    exact isrReturn_restores hseg (by rw [user] at hsize; omega) hframe hcs
      fun hu => absurd hring hu
  | syscall s =>
    exact isr64Exit_restores hseg (by rw [user] at hsize; omega) hframe hcs
      fun hu => absurd hring hu

/-! ### The kernel and its tasks -/

/-- `cpu_get_local()->tss.esp0 = next_task->kstack_bot`, with the TSS at `tss`. -/
def Kernel.setEsp0 (k : Kernel) (tss next : ℕ) : Kernel :=
  { k with
    cpu := { k.cpu with
      mem := store k.cpu.mem (tss + tssOffEsp0) (load k.cpu.mem (next + offKstackBot)) } }

/-- `arch_task_switch(current, next)`, called from `ret`. -/
def Kernel.archTaskSwitch (k : Kernel) (tss next ret : ℕ) : Kernel :=
  (k.setEsp0 tss next).switchTo next ret

/-- The stack that the processor finds in the TSS. -/
def tssStack (m : ByteMem) (tss : ℕ) : InnerStack :=
  ⟨load m (tss + tssOffEsp0), load m (tss + tssOffSs0) % 2 ^ 16⟩

/-- The kernel, and how each user task that is in it has come there. -/
structure TaskSystem where
  kernel : Kernel
  inside : ℕ → Option KernelEntry

/-- `esp0` lies neither in a struct nor on a stack of a task, and every stack has room for a
    frame. -/
structure TssLayout (L : StackLayout) (tss : ℕ) : Prop where
  stack : ∀ t ∈ L.tasks, tss + tssOffEsp0 + 4 ≤ L.lo t ∨ L.hi t ≤ tss + tssOffEsp0
  struct : ∀ t ∈ L.tasks, tss + tssOffEsp0 + 4 ≤ t ∨ t + sizeofTask ≤ tss + tssOffEsp0
  room : ∀ t ∈ L.tasks, L.lo t + 72 ≤ L.hi t

/-- What happens: the running task works in the kernel or outside, sets a new task up, enters the
    kernel, switches or leaves. -/
inductive TaskSystemStep (L : StackLayout) (tss isrExitAddr : ℕ) (isr : ℕ → ℕ) :
    TaskSystem → TaskSystem → Prop
  /-- It changes no other task, nor `esp0`, nor its own frame if it has one. -/
  | work (y : TaskSystem) (s : X86) :
      (∀ t ∈ L.tasks, t ≠ y.kernel.cur → y.kernel.image t ≠ .absent →
        KeepsTask L t y.kernel.cpu.mem s.mem) →
      load s.mem (tss + tssOffEsp0) = load y.kernel.cpu.mem (tss + tssOffEsp0) →
      (∀ e, y.inside y.kernel.cur = some e → ∀ x, L.hi y.kernel.cur - 64 ≤ x →
        x < L.hi y.kernel.cur → s.mem x = y.kernel.cpu.mem x) →
      TaskSystemStep L tss isrExitAddr isr y { y with kernel := { y.kernel with cpu := s } }
  | create (y : TaskSystem) (t : ℕ) : t ∈ L.tasks → t ≠ y.kernel.cur → y.kernel.image t = .absent →
      load y.kernel.cpu.mem (t + offKstackTop) = L.hi t →
      L.lo t + sizeofIsrRegisters + sizeofTaskContext ≤ L.hi t →
      TaskSystemStep L tss isrExitAddr isr y { y with kernel := y.kernel.create isrExitAddr t }
  /-- An interrupt or a system call comes while it runs in user mode. -/
  | enter (y : TaskSystem) (e : KernelEntry) : y.inside y.kernel.cur = none →
      e.user = y.kernel.cpu → e.Valid → FromUser e.user → (∀ r, e.user.seg r < 2 ^ 16) →
      TaskSystemStep L tss isrExitAddr isr y
        { kernel := { y.kernel with cpu := e.enter isr (tssStack y.kernel.cpu.mem tss) }
          inside := Function.update y.inside y.kernel.cur (some e) }
  /-- It calls `arch_task_switch`, below its frame if it has one. -/
  | switch (y : TaskSystem) (next ret : ℕ) : (y.kernel.setEsp0 tss next).CallsSwitch L next ret →
      load y.kernel.cpu.mem (next + offKstackBot) = L.hi next →
      (∀ e, y.inside y.kernel.cur = some e →
        y.kernel.cpu.reg .esp ≤ L.hi y.kernel.cur - 64) →
      TaskSystemStep L tss isrExitAddr isr y
        { y with kernel := y.kernel.archTaskSwitch tss next ret }
  /-- The handler that was called first has returned. -/
  | leave (y : TaskSystem) (e : KernelEntry) : y.inside y.kernel.cur = some e →
      y.kernel.cpu.reg .esp + 68 = L.hi y.kernel.cur →
      y.kernel.cpu.seg .cs = gdtKernelCodeOffset →
      TaskSystemStep L tss isrExitAddr isr y
        { kernel := { y.kernel with cpu := e.leave y.kernel.cpu }
          inside := Function.update y.inside y.kernel.cur none }

/-- One task runs, outside the kernel or not, and the TSS names its stack. -/
structure TaskSystem.Boot (L : StackLayout) (tss : ℕ) (y : TaskSystem) : Prop where
  kernel : y.kernel.Boot L
  esp0 : load y.kernel.cpu.mem (tss + tssOffEsp0) = L.hi y.kernel.cur
  outside : ∀ a, y.inside a = none

/-- The frame of an entry at the end of the stack of a task. -/
structure HasFrame (L : StackLayout) (m : ByteMem) (a : ℕ) (e : KernelEntry) : Prop where
  mem : a ∈ L.tasks
  ring : FromUser e.user
  seg_lt : ∀ r, e.user.seg r < 2 ^ 16
  words : WordsAt m (L.hi a - 64) (e.words (L.hi a))

/-- **The invariant.** -/
structure TaskSystem.Inv (L : StackLayout) (tss : ℕ) (y : TaskSystem) : Prop where
  cur_mem : y.kernel.cur ∈ L.tasks
  esp0 : load y.kernel.cpu.mem (tss + tssOffEsp0) = L.hi y.kernel.cur
  frame : ∀ a e, y.inside a = some e → HasFrame L y.kernel.cpu.mem a e
  known : ∀ a e, y.inside a = some e → a = y.kernel.cur ∨ y.kernel.image a ≠ .absent

variable {L : StackLayout} {tss isrExitAddr a b next ret : ℕ} {y y' y₀ : TaskSystem} {k : Kernel}
  {m m' : ByteMem}

theorem HasFrame.congr (h : HasFrame L m a e) (hroom : L.lo a + 72 ≤ L.hi a)
    (heq : ∀ x, L.hi a - 64 ≤ x → x < L.hi a → m' x = m x) : HasFrame L m' a e where
  mem := h.mem
  ring := h.ring
  seg_lt := h.seg_lt
  words := by
    have hlen : 4 * (e.words (L.hi a)).length = 64 := KernelEntry.length_words h.ring
    exact h.words.congr fun x h₁ h₂ => heq x h₁ (by omega)

theorem HasFrame.keeps (h : HasFrame L m a e) (hroom : L.lo a + 72 ≤ L.hi a)
    (hk : KeepsTask L a m m') : HasFrame L m' a e :=
  h.congr hroom fun x h₁ h₂ => hk.stack x (by omega) h₂

/-- What is written on the stack of a task, and to its `kstack_top`, is not `esp0`. -/
theorem TssLayout.esp0_kept (hL : TssLayout L tss) (ha : a ∈ L.tasks) {lo hi : ℕ}
    (hlo : L.lo a ≤ lo) (hhi : hi ≤ L.hi a)
    (hframe : ∀ x, (x < lo ∨ hi ≤ x) → (x < a + offKstackTop ∨ a + offKstackTop + 4 ≤ x) →
      m' x = m x) : load m' (tss + tssOffEsp0) = load m (tss + tssOffEsp0) := by
  have hstack := hL.stack a ha
  have hstruct := hL.struct a ha
  simp only [sizeofTask] at hstruct
  apply load_congr
  intro x h₁ h₂
  exact hframe x (by omega) (by simp only [offKstackTop]; omega)

/-- The store to `esp0` changes no task. -/
theorem TssLayout.setEsp0_keeps (hL : TssLayout L tss) (hb : b ∈ L.tasks) :
    KeepsTask L b k.cpu.mem (k.setEsp0 tss next).cpu.mem := by
  have hstack := hL.stack b hb
  have hstruct := hL.struct b hb
  simp only [sizeofTask] at hstruct
  constructor
  · intro x h₁ h₂
    exact store_of_not_mem (by omega)
  · intro o ho
    have hle : o + 4 ≤ 68 := by
      revert o
      decide
    exact load_store_of_disjoint (by omega)

/-! ### Every step -/

theorem TaskSystem.Boot.inv (h : y.Boot L tss) : y.Inv L tss where
  cur_mem := h.kernel.cur_mem
  esp0 := h.esp0
  frame := fun a e he => by rw [h.outside a] at he; exact absurd he (by simp)
  known := fun a e he => by rw [h.outside a] at he; exact absurd he (by simp)

/-- Whoever is in the kernel and does not run keeps its frame where its stack is kept. -/
theorem TaskSystem.Inv.frame_other (hinv : y.Inv L tss) (hL : TssLayout L tss)
    (he : y.inside a = some e) (hne : a ≠ y.kernel.cur)
    (hk : ∀ t ∈ L.tasks, t ≠ y.kernel.cur → y.kernel.image t ≠ .absent →
      KeepsTask L t y.kernel.cpu.mem m') : HasFrame L m' a e := by
  have hframe := hinv.frame a e he
  have himage := (hinv.known a e he).resolve_left hne
  exact hframe.keeps (hL.room a hframe.mem) (hk a hframe.mem hne himage)

theorem TaskSystem.Inv.create (hinv : y.Inv L tss) (hL : TssLayout L tss)
    (hexit : isrExitAddr < 2 ^ 32) (ha : a ∈ L.tasks) (hne : a ≠ y.kernel.cur)
    (habsent : y.kernel.image a = .absent)
    (htop : load y.kernel.cpu.mem (a + offKstackTop) = L.hi a)
    (hroom : L.lo a + sizeofIsrRegisters + sizeofTaskContext ≤ L.hi a) :
    TaskSystem.Inv L tss { y with kernel := y.kernel.create isrExitAddr a } := by
  simp only [sizeofIsrRegisters, sizeofTaskContext] at hroom
  have hapart := L.struct_stack a ha a ha
  have hup : SetsUp isrExitAddr a (L.hi a) y.kernel.cpu.mem
      (y.kernel.create isrExitAddr a).cpu.mem :=
    archTaskCreateMem_spec hexit htop (by omega) (by omega)
  -- nobody who is in the kernel is being set up
  have hother : ∀ b e, y.inside b = some e → b ≠ a := by
    rintro b e hb rfl
    exact (hinv.known b e hb).elim hne fun h => h habsent
  refine ⟨hinv.cur_mem, ?_, fun b e hb => ?_, fun b e hb => ?_⟩
  · exact (hL.esp0_kept ha (by omega) (by omega) hup.frame).trans hinv.esp0
  · have hframe := hinv.frame b e hb
    exact hframe.keeps (hL.room b hframe.mem)
      (L.keepsTask ha hframe.mem (hother b e hb) (by omega) (by omega) hup.frame)
  · have himage : (y.kernel.create isrExitAddr a).image b = y.kernel.image b :=
      Function.update_of_ne (hother b e hb) _ _
    show b = y.kernel.cur ∨ (y.kernel.create isrExitAddr a).image b ≠ .absent
    rw [himage]
    exact hinv.known b e hb

theorem TaskSystem.Inv.enter (hinv : y.Inv L tss) (hL : TssLayout L tss)
    (huser : e.user = y.kernel.cpu) (hvalid : e.Valid) (hring : FromUser e.user)
    (hseg : ∀ r, e.user.seg r < 2 ^ 16) :
    TaskSystem.Inv L tss
      { kernel := { y.kernel with cpu := e.enter isr (tssStack y.kernel.cpu.mem tss) }
        inside := Function.update y.inside y.kernel.cur (some e) } := by
  have hcur := hinv.cur_mem
  have hroom := hL.room y.kernel.cur hcur
  have hlt := L.stack_lt y.kernel.cur hcur
  have hend : stackEnd (tssStack y.kernel.cpu.mem tss) e.user = L.hi y.kernel.cur :=
    (if_pos hring).trans hinv.esp0
  have hs : Interruptible (tssStack y.kernel.cpu.mem tss) e.user :=
    ⟨hseg, by rw [hend]; exact hlt, by rw [hend, frameSize_user hring]; omega⟩
  obtain ⟨hesp, hwords, hmem⟩ := KernelEntry.enter_words isr hvalid hring hs
  have hesp0 : (tssStack y.kernel.cpu.mem tss).esp0 = L.hi y.kernel.cur := hinv.esp0
  rw [hesp0, huser] at hmem
  rw [hesp0] at hwords
  refine ⟨hcur, ?_, fun b e' hb => ?_, fun b e' hb => ?_⟩
  · exact (hL.esp0_kept hcur (by omega) (Nat.le_refl _) fun x hx _ => hmem x hx).trans hinv.esp0
  · by_cases hbcur : b = y.kernel.cur
    · subst hbcur
      obtain rfl : e = e' := by simpa using hb
      exact ⟨hcur, hring, hseg, hwords⟩
    · have hb' : y.inside b = some e' := (Function.update_of_ne hbcur _ _).symm.trans hb
      have hframe := hinv.frame b e' hb'
      exact hframe.keeps (hL.room b hframe.mem)
        (L.keepsTask hcur hframe.mem hbcur (by omega) (Nat.le_refl _) fun x hx _ => hmem x hx)
  · by_cases hbcur : b = y.kernel.cur
    · exact Or.inl hbcur
    · have hb' : y.inside b = some e' := (Function.update_of_ne hbcur _ _).symm.trans hb
      exact hinv.known b e' hb'

theorem TaskSystem.Inv.switch (hinv : y.Inv L tss) (hL : TssLayout L tss)
    (hcall : (y.kernel.setEsp0 tss next).CallsSwitch L next ret)
    (hbot : load y.kernel.cpu.mem (next + offKstackBot) = L.hi next)
    (hbelow : ∀ e, y.inside y.kernel.cur = some e →
      y.kernel.cpu.reg .esp ≤ L.hi y.kernel.cur - 64) :
    TaskSystem.Inv L tss { y with kernel := y.kernel.archTaskSwitch tss next ret } := by
  have hcur : (y.kernel.setEsp0 tss next).cur ∈ L.tasks := hinv.cur_mem
  have hlt := L.stack_lt next hcall.next_mem
  have hroom := hcall.room
  have hargs := hcall.args
  have hsw := hcall.switches hcur
  refine ⟨hcall.next_mem, ?_, fun b e hb => ?_, fun b e hb => ?_⟩
  · -- the switch itself writes on the stack and in the struct of the caller
    have hstored : load (y.kernel.setEsp0 tss next).cpu.mem (tss + tssOffEsp0) = L.hi next := by
      show load (store _ _ _) _ = _
      rw [load_store _ _ (load_lt _ _), hbot]
    exact (hL.esp0_kept hcur (by omega) (by omega) hsw.frame).trans hstored
  · have hframe := hinv.frame b e hb
    have hbroom := hL.room b hframe.mem
    have hstored : HasFrame L (y.kernel.setEsp0 tss next).cpu.mem b e :=
      hframe.keeps hbroom (hL.setEsp0_keeps hframe.mem)
    by_cases hbcur : b = y.kernel.cur
    · subst hbcur
      have hesp : (y.kernel.setEsp0 tss next).cpu.reg .esp ≤ L.hi y.kernel.cur - 64 :=
        hbelow e hb
      have hapart := L.struct_stack y.kernel.cur hinv.cur_mem y.kernel.cur hinv.cur_mem
      simp only [sizeofTask] at hapart
      refine hstored.congr hbroom fun x h₁ h₂ => hsw.frame x (by omega) ?_
      show x < y.kernel.cur + offKstackTop ∨ y.kernel.cur + offKstackTop + 4 ≤ x
      simp only [offKstackTop]
      omega
    · exact hstored.keeps hbroom (hcall.keepsTask hcur hframe.mem hbcur)
  · by_cases hbcur : b = y.kernel.cur
    · subst hbcur
      have himage : (y.kernel.archTaskSwitch tss next ret).image y.kernel.cur =
          .out (snapshot (y.kernel.setEsp0 tss next).cpu ret) := Function.update_self _ _ _
      refine Or.inr ?_
      show (y.kernel.archTaskSwitch tss next ret).image y.kernel.cur ≠ .absent
      rw [himage]
      simp
    · have himage : (y.kernel.archTaskSwitch tss next ret).image b = y.kernel.image b :=
        Function.update_of_ne hbcur _ _
      refine Or.inr ?_
      show (y.kernel.archTaskSwitch tss next ret).image b ≠ .absent
      rw [himage]
      exact (hinv.known b e hb).resolve_left hbcur

/-- The invariant is kept by every step. -/
theorem TaskSystemStep.inv (hL : TssLayout L tss) (hexit : isrExitAddr < 2 ^ 32)
    (h : TaskSystemStep L tss isrExitAddr isr y y') (hinv : y.Inv L tss) : y'.Inv L tss := by
  cases h with
  | work s hothers hesp0 hown =>
    refine ⟨hinv.cur_mem, hesp0.trans hinv.esp0, fun a e he => ?_, hinv.known⟩
    by_cases hcur : a = y.kernel.cur
    · subst hcur
      have hframe := hinv.frame _ e he
      exact hframe.congr (hL.room _ hframe.mem) (hown e he)
    · exact hinv.frame_other hL he hcur hothers
  | create t ht hne habsent htop hroom => exact hinv.create hL hexit ht hne habsent htop hroom
  | enter e _ huser hvalid hring hseg => exact hinv.enter hL huser hvalid hring hseg
  | switch next ret hcall hbot hbelow => exact hinv.switch hL hcall hbot hbelow
  | leave e he hesp hcs =>
    have hframe := hinv.frame _ e he
    have hresumes : e.Resumes y.kernel.cpu (e.leave y.kernel.cpu) :=
      KernelEntry.leave_resumes hframe.ring hframe.seg_lt (L.stack_lt _ hframe.mem) hframe.words
        hesp hcs
    have hmem : (e.leave y.kernel.cpu).mem = y.kernel.cpu.mem := by
      cases e with
      | interrupt n error s => exact Restored.mem hresumes
      | syscall s => exact SyscallReturns.mem hresumes
    have hother : ∀ a e', Function.update y.inside y.kernel.cur none a = some e' →
        y.inside a = some e' := by
      intro a e' ha
      by_cases hcur : a = y.kernel.cur
      · rw [hcur, Function.update_self] at ha
        exact absurd ha (by simp)
      · rwa [Function.update_of_ne hcur] at ha
    refine ⟨hinv.cur_mem, ?_, fun a e' ha => ?_, fun a e' ha => hinv.known a e' (hother a e' ha)⟩
    · show load (e.leave y.kernel.cpu).mem _ = _
      rw [hmem]
      exact hinv.esp0
    · show HasFrame L (e.leave y.kernel.cpu).mem a e'
      rw [hmem]
      exact hinv.frame a e' (hother a e' ha)

theorem systemRun_inv (hL : TssLayout L tss) (hexit : isrExitAddr < 2 ^ 32) (hboot : y₀.Boot L tss)
    (hrun : Relation.ReflTransGen (TaskSystemStep L tss isrExitAddr isr) y₀ y) : y.Inv L tss := by
  induction hrun with
  | refl => exact hboot.inv
  | tail _ hstep ih => exact hstep.inv hL hexit ih

/-- The counting program as the first of two tasks, with the TSS at `0xC0130000`. -/
def countingSystem : TaskSystem where
  kernel :=
    { cpu := { countingStart with
        mem := store countingStart.mem (0xC0130000 + tssOffEsp0) 0xC0420000 }
      cur := 0xC0400000
      image := fun _ => .absent }
  inside := fun _ => none

theorem twoStacks_tss : TssLayout twoStacks 0xC0130000 where
  stack := by rintro t (rfl | rfl) <;> decide
  struct := by rintro t (rfl | rfl) <;> decide
  room := by rintro t (rfl | rfl) <;> decide

theorem countingSystem_boot : countingSystem.Boot twoStacks 0xC0130000 :=
  ⟨⟨Or.inl rfl, fun _ => rfl⟩, by decide +kernel, fun _ => rfl⟩

end Rotary

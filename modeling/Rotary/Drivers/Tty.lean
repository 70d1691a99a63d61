import Rotary.Core.LinearList
import Rotary.Core.String
import Rotary.Mm.HeapFrame
import Rotary.Mm.KernelMemory

namespace Rotary

open Lib

/-!
# TTYs (`kernel/drivers/tty/tty.c`)

A TTY is an object of the kernel heap with two more objects as its buffers, threaded on the linear
list behind `tty_list_head`; `head` is the address of `tty_list_head.list_entry`, static data
outside the heap.  The field accesses are loads and stores of one flat memory, in the order of the
source, so that what is written to a freed struct is written to the allocator's data.

Left out: `type`, which is only logged, and the log messages.
-/

/-! ### The fields of the `struct tty` at `t` -/

namespace Tty

def id (t : ℕ) : ℕ := t
def inputBuffer (t : ℕ) : ℕ := t + 4
def outputBuffer (t : ℕ) : ℕ := t + 12
def bufferSize (t : ℕ) : ℕ := t + 20
def listEntry (t : ℕ) : ℕ := t + 24

end Tty

/-- `sizeof(struct tty)`. -/
def sizeofTty : ℕ := 32

/-- `SUCCESS(ptr)`: the comparison `ptr >= 0` of an unsigned address. -/
def ptrSuccess (ptr : ℕ) : Bool := decide (0 ≤ ptr)

/-- `(struct tty*)E_ERROR`. -/
def ttyError : ℕ := 2 ^ 32 - 1

/-! ### Creation -/

/-- The stores between the first two calls of `kmalloc`. -/
def ttyFill (m : ByteMem) (newTty id bufferSize : ℕ) : ByteMem :=
  let m := memset m newTty 0 sizeofTty
  let m := store m (Tty.id newTty) id
  store m (Tty.bufferSize newTty) bufferSize

/-- `new_tty->buffer = kmalloc(new_tty->buffer_size)`, the field `buffer` being at `field`. -/
def ttyBuffer (k : KernelHeap) (newTty field : ℕ) (newPage : Option ℕ) :
    Option (ℕ × KernelHeap) :=
  (kmalloc k (load k.mem (Tty.bufferSize newTty)) newPage).map fun (buffer, k) =>
    (buffer, { k with mem := store k.mem field buffer })

/-- The buffers are cleared and the TTY is put on the list. -/
def ttyPublish (m : ByteMem) (head newTty : ℕ) : ByteMem :=
  let m := memset m (load m (Tty.inputBuffer newTty)) 0 (load m (Tty.bufferSize newTty))
  let m := memset m (load m (Tty.outputBuffer newTty)) 0 (load m (Tty.bufferSize newTty))
  llistAddAfter m head (Tty.listEntry newTty)

/-- `tty_create`; `p₁`, `p₂` and `p₃` are what `page_alloc` returns to each call of `kmalloc`. -/
def ttyCreate (head : ℕ) (k : KernelHeap) (id bufferSize : ℕ) (p₁ p₂ p₃ : Option ℕ) :
    Option (ℕ × KernelHeap) := do
  let (newTty, k) ← kmalloc k sizeofTty p₁
  if ¬ ptrSuccess newTty then return (ttyError, k)
  let k := { k with mem := ttyFill k.mem newTty id bufferSize }
  let (_, k) ← ttyBuffer k newTty (Tty.inputBuffer newTty) p₂
  let (_, k) ← ttyBuffer k newTty (Tty.outputBuffer newTty) p₃
  if ¬ ptrSuccess (load k.mem (Tty.inputBuffer newTty)) ∨
      ¬ ptrSuccess (load k.mem (Tty.outputBuffer newTty)) then return (ttyError, k)
  return (newTty, { k with mem := ttyPublish k.mem head newTty })

/-! ### Destruction -/

/-- `tty_destroy`. -/
def ttyDestroy (k : KernelHeap) (target : ℕ) : Option (Status × KernelHeap) := do
  let k := { k with mem := llistDeleteNode k.mem (Tty.listEntry target) }
  let (_, k) ← kfree k (load k.mem (Tty.inputBuffer target))
  let (_, k) ← kfree k (load k.mem (Tty.outputBuffer target))
  let (_, k) ← kfree k target
  return (.success, { k with mem := memset k.mem target 0 sizeofTty })

/-! ### Failure -/

/-- What the three calls of `kmalloc` return, and the heap behind them. -/
def ttyKmallocs (k : KernelHeap) (id bufferSize : ℕ) (p₁ p₂ p₃ : Option ℕ) :
    Option ((ℕ × ℕ × ℕ) × KernelHeap) := do
  let (newTty, k) ← kmalloc k sizeofTty p₁
  let k := { k with mem := ttyFill k.mem newTty id bufferSize }
  let (input, k) ← ttyBuffer k newTty (Tty.inputBuffer newTty) p₂
  let (output, k) ← ttyBuffer k newTty (Tty.outputBuffer newTty) p₃
  return ((newTty, input, output), k)

variable {head id bufferSize newTty input output : ℕ} {p₁ p₂ p₃ : Option ℕ} {k k₁ : KernelHeap}
  {S : Fin 13 → List Slab}

/-- `SUCCESS` holds of every pointer, the null pointer included. -/
theorem ptrSuccess_eq (ptr : ℕ) : ptrSuccess ptr = true := decide_eq_true (Nat.zero_le ptr)

/-- Neither test of `tty_create` is ever taken. -/
theorem ttyCreate_eq (head : ℕ) (k : KernelHeap) (id bufferSize : ℕ) (p₁ p₂ p₃ : Option ℕ) :
    ttyCreate head k id bufferSize p₁ p₂ p₃ =
      (ttyKmallocs k id bufferSize p₁ p₂ p₃).map fun r =>
        (r.1.1, { r.2 with mem := ttyPublish r.2.mem head r.1.1 }) := by
  unfold ttyCreate ttyKmallocs
  cases kmalloc k sizeofTty p₁ with
  | none => rfl
  | some r =>
    obtain ⟨newTty, k⟩ := r
    simp only [ptrSuccess_eq, Option.bind_eq_bind, Option.bind_some, not_true_eq_false, or_self,
      if_false]
    cases ttyBuffer { k with mem := ttyFill k.mem newTty id bufferSize } newTty
      (Tty.inputBuffer newTty) p₂ with
    | none => rfl
    | some r =>
      obtain ⟨input, k⟩ := r
      simp only [Option.bind_some]
      cases ttyBuffer k newTty (Tty.outputBuffer newTty) p₃ with
      | none => rfl
      | some r => rfl

/-- What a failed `tty_create` owes its caller: the error value, no store behind the null pointer,
    the list as it was, and every object given back. -/
structure ReportsFailure (head : ℕ) (k : KernelHeap) (result : ℕ) (k' : KernelHeap) : Prop where
  value : result = ttyError
  null : ∀ a < pageSize, k'.mem a = k.mem a
  list : chainList k'.mem walkLimit (load k'.mem head) = chainList k.mem walkLimit (load k.mem head)
  objects : liveObjects k' = liveObjects k

theorem ttyKmallocs_struct (hcalls : ttyKmallocs k id bufferSize p₁ p₂ p₃ =
    some ((newTty, input, output), k₁)) : ∃ k', kmalloc k sizeofTty p₁ = some (newTty, k') := by
  unfold ttyKmallocs at hcalls
  obtain ⟨⟨x, k'⟩, hx, hcalls⟩ := Option.bind_eq_some_iff.mp hcalls
  obtain ⟨⟨y, k₂⟩, -, hcalls⟩ := Option.bind_eq_some_iff.mp hcalls
  obtain ⟨⟨z, k₃⟩, -, hcalls⟩ := Option.bind_eq_some_iff.mp hcalls
  obtain ⟨rfl, -⟩ : x = newTty ∧ _ := by
    have heq := (Prod.mk.inj (Option.some.inj hcalls)).1
    exact Prod.mk.inj heq
  exact ⟨k', hx⟩

/-- The struct ends below the last address, which is the error value. -/
theorem kmalloc_ne_ttyError (h : k.Inv S) (hfresh : ∀ p ∈ p₁, FreshBlock k.slabs p)
    (hcall : kmalloc k sizeofTty p₁ = some (newTty, k₁)) : newTty ≠ ttyError := by
  by_cases hx : newTty = 0
  · rw [hx]
    decide
  · obtain ⟨b, -, -, hstop, hfits⟩ := kmalloc_bounds h hfresh hcall hx
    unfold sizeofTty at hstop
    unfold ttyError
    omega

theorem load_ttyFill_bufferSize (m : ByteMem) (newTty id : ℕ) (hn : bufferSize < 2 ^ 32) :
    load (ttyFill m newTty id bufferSize) (Tty.bufferSize newTty) = bufferSize :=
  load_store _ _ hn

/-- No cache has objects for such a buffer: both calls for it fail, whatever pages there are. -/
theorem ttyKmallocs_tooBig (h : k.Inv S) (hfresh : ∀ p ∈ p₁, FreshBlock k.slabs p) (id : ℕ)
    (hbig : 32768 < bufferSize) (hn : bufferSize < 2 ^ 32) (p₂ p₃ : Option ℕ) :
    ∃ newTty k₁, ttyKmallocs k id bufferSize p₁ p₂ p₃ = some ((newTty, 0, 0), k₁) := by
  obtain ⟨x, k', hcall, hsizes⟩ : ∃ x k', kmalloc k sizeofTty p₁ = some (x, k') ∧
      ∀ i, (k'.slabCaches i).objectSize = slabCacheSizes i := by
    rcases kmalloc_spec h hfresh sizeofTty with
      ⟨-, heq⟩ | ⟨i, x, m', cache', slabs', -, heq, -, hinv, -⟩
    · exact ⟨0, k, heq, h.size⟩
    · exact ⟨x, _, heq, hinv.size⟩
  -- the search over the caches fails on every heap with these object sizes
  have hnone : ∀ (m : ByteMem) (p : Option ℕ),
      kmalloc ⟨m, k'.slabCaches⟩ bufferSize p = some (0, ⟨m, k'.slabCaches⟩) := by
    intro m p
    have hsearch : KernelHeap.acceptable ⟨m, k'.slabCaches⟩ bufferSize = none := by
      unfold KernelHeap.acceptable
      simp only [hsizes]
      exact cacheFor_eq_none hbig
    unfold kmalloc
    rw [hsearch]
  have hfill := load_ttyFill_bufferSize k'.mem x id hn
  have hkeep : load (store (ttyFill k'.mem x id bufferSize) (Tty.inputBuffer x) 0)
      (Tty.bufferSize x) = bufferSize := by
    rw [load_store_of_disjoint (by unfold Tty.bufferSize Tty.inputBuffer; omega), hfill]
  refine ⟨x, ⟨store (store (ttyFill k'.mem x id bufferSize) (Tty.inputBuffer x) 0)
    (Tty.outputBuffer x) 0, k'.slabCaches⟩, ?_⟩
  simp only [ttyKmallocs, ttyBuffer, hcall, hfill, hnone, hkeep, Option.bind_eq_bind,
    Option.bind_some, Option.map_some, Option.pure_def]

/-- **`tty_create` never reports a failure**: whichever of the three calls of `kmalloc` returns
    null, it returns the address of the struct, null itself when the first one failed. -/
theorem ttyCreate_hides_failure (head : ℕ) (h : k.Inv S)
    (hfresh : ∀ p ∈ p₁, FreshBlock k.slabs p)
    (hcalls : ttyKmallocs k id bufferSize p₁ p₂ p₃ = some ((newTty, input, output), k₁)) :
    ∃ k', ttyCreate head k id bufferSize p₁ p₂ p₃ = some (newTty, k') ∧
      (newTty = 0 ∨ input = 0 ∨ output = 0 → ¬ ReportsFailure head k newTty k') := by
  obtain ⟨k₂, hstruct⟩ := ttyKmallocs_struct hcalls
  have hne := kmalloc_ne_ttyError h hfresh hstruct
  refine ⟨{ k₁ with mem := ttyPublish k₁.mem head newTty }, ?_, fun _ hreport => hne hreport.value⟩
  rw [ttyCreate_eq, hcalls]
  rfl

/-- The first block that `page_alloc` can return to an empty heap. -/
theorem freshBlock_init (m : ByteMem) : FreshBlock (KernelHeap.init m).slabs 16 := by
  have hempty : (KernelHeap.init m).slabs = [] := by
    apply List.eq_nil_iff_forall_not_mem.mpr
    intro b hb
    obtain ⟨i, s, hs, -⟩ := (KernelHeap.init_inv m).mem_slabs.mp hb
    cases hs
  rw [hempty]
  exact ⟨by decide, by decide, by simp⟩

/-- A TTY with buffers of 40000 bytes, on a heap with one block for the struct. -/
theorem ttyCreate_hides_failure_tooBig :
    ∃ newTty k₁ k', ttyKmallocs (KernelHeap.init fun _ => 0) 1 40000 (some 16) none none =
        some ((newTty, 0, 0), k₁) ∧
      ttyCreate 0xC0120000 (KernelHeap.init fun _ => 0) 1 40000 (some 16) none none =
        some (newTty, k') ∧
      ¬ ReportsFailure 0xC0120000 (KernelHeap.init fun _ => 0) newTty k' := by
  have hfresh : ∀ p ∈ some 16, FreshBlock (KernelHeap.init fun _ => 0).slabs p := fun p hp =>
    Option.some.inj hp ▸ freshBlock_init _
  obtain ⟨newTty, k₁, hcalls⟩ := ttyKmallocs_tooBig (KernelHeap.init_inv fun _ => 0) hfresh 1
    (by decide : 32768 < 40000) (by decide) none none
  obtain ⟨k', hcall, hfails⟩ :=
    ttyCreate_hides_failure 0xC0120000 (KernelHeap.init_inv fun _ => 0) hfresh hcalls
  exact ⟨newTty, k₁, k', hcalls, hcall, hfails (Or.inr (Or.inl rfl))⟩

/-- An empty heap serves nothing without a page. -/
theorem kmalloc_init_none (m : ByteMem) (size : ℕ) :
    kmalloc (KernelHeap.init m) size none = some (0, KernelHeap.init m) := by
  rcases kmalloc_spec (KernelHeap.init_inv m) (fun p (hp : p ∈ none) => nomatch hp) size with
    ⟨-, heq⟩ | ⟨i, x, m', cache', slabs', -, heq, hserved, -, hsame⟩
  · exact heq
  · generalize hS : ([] : List Slab) = slabs at hserved
    cases hserved with
    | reused pre post base x rest newPage => simp at hS
    | refused _ _ =>
      obtain ⟨rfl, rfl⟩ := hsame rfl
      rw [Function.update_eq_self] at heq
      exact heq

/-- On an empty heap without pages the first call fails already: the TTY that is returned is the
    null pointer, not the error value. -/
theorem ttyCreate_returns_null :
    kmalloc (KernelHeap.init fun _ => 0) sizeofTty none = some (0, KernelHeap.init fun _ => 0) ∧
      ∃ k', ttyCreate 0xC0120000 (KernelHeap.init fun _ => 0) 1 4096 none none none =
          some (0, k') ∧
        ¬ ReportsFailure 0xC0120000 (KernelHeap.init fun _ => 0) 0 k' := by
  have hcall : ∃ k', ttyCreate 0xC0120000 (KernelHeap.init fun _ => 0) 1 4096 none none none =
      some (0, k') := by
    have hnull : ∀ m size, kmalloc ⟨m, fun i => initSlabCache (slabCacheSizes i)⟩ size none =
        some (0, ⟨m, fun i => initSlabCache (slabCacheSizes i)⟩) := kmalloc_init_none
    rw [ttyCreate_eq]
    unfold ttyKmallocs ttyBuffer KernelHeap.init
    simp only [hnull, Option.bind_eq_bind, Option.bind_some, Option.map_some, Option.pure_def]
    exact ⟨_, rfl⟩
  obtain ⟨k', hcall⟩ := hcall
  exact ⟨kmalloc_init_none _ _, k', hcall, fun hreport => absurd hreport.value (by decide)⟩

end Rotary

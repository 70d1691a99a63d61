import Mathlib.Data.Fintype.Card
import Rotary.Mm.PallocRun

namespace Rotary

open Lib

/-!
# Several holders of one page

`page_free` reads `use_count` before it takes `buddy_allocator.lock`, and acts under the lock on what
it has read.  Here `n` holders of an order-0 page each run it once, one statement at a time and in
any order.

* `FreeRace.step` — one statement of one holder;
* `FreeRace.alone` — a holder that is not interrupted computes `pageFree`;
* `Counted` — `use_count` is the number of holders that have not counted down yet, and only the last
  of them can have read a count of one;
* `freeRace_once_iff` — the page is released once exactly when that last holder has read the count
  after all the others have counted down.
-/

/-- Where a holder stands in `page_free`; `shared` is what its test `use_count > 1` gave. -/
inductive FreePc
  | start
  | read (shared : Bool)
  | locked (shared : Bool)
  | updated
  | done
  deriving DecidableEq, Repr

/-- The page allocator with its lock, and `n` holders of one page. -/
structure FreeRace (n : ℕ) where
  buddy : BuddyAllocator
  lock : Bool
  pc : Fin n → FreePc
  /-- How many times the page has been put on the free lists. -/
  released : ℕ

variable {n p : ℕ} {img : KernelImage} {s : BuddyAllocator} {x y : FreeRace n} {i j : Fin n}

/-- All holders are about to call `page_free`. -/
def FreeRace.init (s : BuddyAllocator) (n : ℕ) : FreeRace n := ⟨s, false, fun _ => .start, 0⟩

/-- The holder `i` gets to `c`. -/
def FreeRace.goto (x : FreeRace n) (i : Fin n) (c : FreePc) : FreeRace n :=
  { x with pc := Function.update x.pc i c }

/-- The next statement of the holder `i` in `page_free(p, 0)`; `none` while it waits for the lock, and
    once it has returned. -/
def FreeRace.step (img : KernelImage) (p : ℕ) (x : FreeRace n) (i : Fin n) : Option (FreeRace n) :=
  match x.pc i with
  | .start =>
    if pageIsCritical img x.buddy p = .error then some (x.goto i .done)
    else some (x.goto i (.read (1 < (x.buddy.pages p).useCount)))
  | .read shared => if x.lock then none else some ({ x with lock := true }.goto i (.locked shared))
  | .locked true => some ({ x with buddy := pageDecUses x.buddy p }.goto i .updated)
  | .locked false =>
    some ({ x with
      buddy := pageDecUses (buddyMergeBlock (x.buddy.setOrder p 0) p 0) p
      released := x.released + 1 }.goto i .updated)
  | .updated => some ({ x with lock := false }.goto i .done)
  | .done => none

/-- Statements of the holders in this order. -/
def FreeRace.run (img : KernelImage) (p : ℕ) : FreeRace n → List (Fin n) → Option (FreeRace n)
  | x, [] => some x
  | x, i :: is =>
    match x.step img p i with
    | none => none
    | some y => y.run img p is

/-- **One holder alone.**  Its four statements in a row are `page_free`. -/
theorem FreeRace.alone (hstart : x.pc i = .start) (hlock : x.lock = false)
    (hcrit : pageIsCritical img x.buddy p ≠ .error) :
    ∃ y, x.run img p [i, i, i, i] = some y ∧ y.pc i = .done ∧
      y.buddy = (pageFree img x.buddy (some p) 0).2 := by
  have hfree : (pageFree img x.buddy (some p) 0).2 =
      if 1 < (x.buddy.pages p).useCount then pageDecUses x.buddy p
      else pageDecUses (buddyMergeBlock (x.buddy.setOrder p 0) p 0) p := by
    simp only [pageFree, if_neg hcrit]
    split
    · rfl
    · rfl
  rw [hfree]
  by_cases hshared : 1 < (x.buddy.pages p).useCount
  · simp [FreeRace.run, FreeRace.step, FreeRace.goto, hstart, hlock, hcrit, hshared]
  · simp [FreeRace.run, FreeRace.step, FreeRace.goto, hstart, hlock, hcrit, hshared]

/-! ### What a step does -/

/-- The holder has not counted down yet. -/
def FreePc.pending : FreePc → Bool
  | .start => true
  | .read _ => true
  | .locked _ => true
  | .updated => false
  | .done => false

/-- The holder has made the test `use_count > 1` with this outcome, and not counted down yet. -/
def FreePc.hasRead (shared : Bool) : FreePc → Bool
  | .start => false
  | .read b => b = shared
  | .locked b => b = shared
  | .updated => false
  | .done => false

/-- The holders that have not counted down yet. -/
def FreeRace.remaining (x : FreeRace n) : Finset (Fin n) :=
  Finset.univ.filter fun i => (x.pc i).pending = true

/-- What one statement of the holder `i` does to the rest of the state. -/
inductive Stepped (img : KernelImage) (p : ℕ) (x : FreeRace n) (i : Fin n) (y : FreeRace n) : Prop
  | reads (hpc : x.pc i = .start) (hbuddy : y.buddy = x.buddy) (hreleased : y.released = x.released)
      (hy : y.pc = Function.update x.pc i (.read (1 < (x.buddy.pages p).useCount)))
  | locks (b : Bool) (hpc : x.pc i = .read b) (hbuddy : y.buddy = x.buddy)
      (hreleased : y.released = x.released) (hy : y.pc = Function.update x.pc i (.locked b))
  | counts (hpc : x.pc i = .locked true) (hbuddy : y.buddy = pageDecUses x.buddy p)
      (hreleased : y.released = x.released) (hy : y.pc = Function.update x.pc i .updated)
  | releases (hpc : x.pc i = .locked false)
      (hbuddy : y.buddy = pageDecUses (buddyMergeBlock (x.buddy.setOrder p 0) p 0) p)
      (hreleased : y.released = x.released + 1) (hy : y.pc = Function.update x.pc i .updated)
  | unlocks (hpc : x.pc i = .updated) (hbuddy : y.buddy = x.buddy)
      (hreleased : y.released = x.released) (hy : y.pc = Function.update x.pc i .done)

/-- **The five statements.** -/
theorem FreeRace.step_cases (h : x.step img p i = some y)
    (hcrit : x.pc i = .start → pageIsCritical img x.buddy p ≠ .error) : Stepped img p x i y := by
  unfold FreeRace.step at h
  split at h
  · rename_i hpc
    rw [if_neg (hcrit hpc)] at h
    obtain rfl := Option.some.inj h
    exact Stepped.reads hpc rfl rfl rfl
  · rename_i b hpc
    split at h
    · cases h
    · obtain rfl := Option.some.inj h
      exact Stepped.locks b hpc rfl rfl rfl
  · rename_i hpc
    obtain rfl := Option.some.inj h
    exact Stepped.counts hpc rfl rfl rfl
  · rename_i hpc
    obtain rfl := Option.some.inj h
    exact Stepped.releases hpc rfl rfl rfl
  · rename_i hpc
    obtain rfl := Option.some.inj h
    exact Stepped.unlocks hpc rfl rfl rfl
  · cases h

theorem FreeRace.mem_remaining : i ∈ x.remaining ↔ (x.pc i).pending = true := by
  simp [FreeRace.remaining]

/-- A move of the holder `i` within the pending part, or within the other part. -/
theorem FreeRace.remaining_same {c : FreePc} (hy : y.pc = Function.update x.pc i c)
    (hsame : c.pending = (x.pc i).pending) : y.remaining = x.remaining := by
  ext j
  rw [FreeRace.mem_remaining, FreeRace.mem_remaining, hy]
  by_cases hj : j = i
  · subst hj
    rw [Function.update_self, hsame]
  · rw [Function.update_of_ne hj]

theorem FreeRace.remaining_erase (hy : y.pc = Function.update x.pc i .updated) :
    y.remaining = x.remaining.erase i := by
  ext j
  rw [Finset.mem_erase, FreeRace.mem_remaining, FreeRace.mem_remaining, hy]
  by_cases hj : j = i
  · subst hj
    simp [FreePc.pending]
  · rw [Function.update_of_ne hj]
    simp [hj]

theorem FreePc.pending_of_hasRead {c : FreePc} {b : Bool} (h : c.hasRead b = true) :
    c.pending = true := by
  cases c with
  | start => rfl
  | read _ => rfl
  | locked _ => rfl
  | updated => cases h
  | done => cases h

/-! ### Counting down -/

theorem setUseCount_setUseCount (s : BuddyAllocator) (p c d : ℕ) :
    (s.setUseCount p c).setUseCount p d = s.setUseCount p d := by
  simp [BuddyAllocator.setUseCount]

theorem pageDecUses_setUseCount (s : BuddyAllocator) (p : ℕ) {c : ℕ} (hpos : 0 < c)
    (hlt : c < 2 ^ 32) : pageDecUses (s.setUseCount p c) p = s.setUseCount p (c - 1) := by
  unfold pageDecUses
  rw [setUseCount_setUseCount, BuddyAllocator.setUseCount_useCount, if_pos rfl,
    dec32_of_pos hpos hlt]

theorem pageIsCritical_setUseCount (img : KernelImage) (s : BuddyAllocator) (p c : ℕ) :
    pageIsCritical img (s.setUseCount p c) p = pageIsCritical img s p := by
  unfold pageIsCritical
  rw [BuddyAllocator.setUseCount_pfn]

/-- The allocator once the only reference to the page has been given back. -/
def lastFreed (img : KernelImage) (s : BuddyAllocator) (p : ℕ) : BuddyAllocator :=
  (pageFree img (s.setUseCount p 1) (some p) 0).2

theorem lastFreed_eq (hcrit : pageIsCritical img s p ≠ .error) :
    lastFreed img s p =
      pageDecUses (buddyMergeBlock ((s.setUseCount p 1).setOrder p 0) p 0) p := by
  have hcrit' : pageIsCritical img (s.setUseCount p 1) p ≠ .error := by
    rw [pageIsCritical_setUseCount]
    exact hcrit
  unfold lastFreed pageFree
  simp [hcrit']

theorem lastFreed_useCount (hcrit : pageIsCritical img s p ≠ .error) :
    ((lastFreed img s p).pages p).useCount = 0 := by
  rw [lastFreed_eq hcrit]
  simp [pageDecUses, buddyMergeBlock_useCount, dec32, u32]

/-- Giving back the only reference to a live page makes it one of the free pages. -/
theorem lastFreed_freePages {N r : ℕ} {F : ℕ → List ℕ} {L : Live} {S : Set ℕ}
    (hs : Sound N s F L S) (hl : L p = some ⟨0, r⟩) (hcrit : pageIsCritical img s p ≠ .error)
    (hbelow : BuddiesBelow N S) : freePages (lastFreed img s p) = freePages s ∪ block p 0 := by
  have hone : Sound N (s.setUseCount p 1) F (Function.update L p (some ⟨0, 1⟩)) S := by
    refine ⟨(hs.core.recount hl 1).setUseCount p 1, ⟨fun q b hq => ?_, fun q hq hnone => ?_⟩,
      hs.coalesced⟩
    · by_cases hqp : q = p
      · subst hqp
        rw [Function.update_self, Option.some.injEq] at hq
        subst hq
        simp
      · rw [Function.update_of_ne hqp] at hq
        simpa [hqp] using hs.uses.live q b hq
    · by_cases hqp : q = p
      · subst hqp
        simp at hnone
      · rw [Function.update_of_ne hqp] at hnone
        simpa [hqp] using hs.uses.idle q hq hnone
  have hself : Function.update L p (some (LiveBlock.mk 0 1)) p = some ⟨0, 1⟩ :=
    Function.update_self _ _ _
  have hcrit' : pageIsCritical img (s.setUseCount p 1) p ≠ .error := by
    rw [pageIsCritical_setUseCount]
    exact hcrit
  obtain ⟨-, ⟨F', hs'⟩, -⟩ := pageFree_last hone hself hcrit'
    (Guard.of_buddiesBelow hbelow Set.sdiff_subset)
  show freePages (pageFree img (s.setUseCount p 1) (some p) 0).2 = _
  rw [hs'.freePages_eq, hone.core.cover_live_erase hself, ← hone.freePages_eq]
  rfl

/-- The invariant of the race, the holders having started in `s`. -/
structure Counted (img : KernelImage) (s : BuddyAllocator) (p : ℕ) (x : FreeRace n) : Prop where
  before : x.remaining.Nonempty → x.released = 0 ∧ x.buddy = s.setUseCount p x.remaining.card
  /-- Only the last holder can find the page not shared. -/
  last : ∀ i, (x.pc i).hasRead false = true → x.remaining.card = 1
  after : x.remaining = ∅ → x.released = 0 ∧ x.buddy = s.setUseCount p 0 ∨
    x.released = 1 ∧ x.buddy = lastFreed img s p

theorem Counted.init (huse : (s.pages p).useCount = n) (hpos : 0 < n) :
    Counted img s p (FreeRace.init s n) := by
  have hall : (FreeRace.init s n).remaining = Finset.univ := by
    ext i
    simp [FreeRace.mem_remaining, FreeRace.init, FreePc.pending]
  refine ⟨fun _ => ⟨rfl, ?_⟩, fun i hi => ?_, fun hempty => ?_⟩
  · rw [hall, Finset.card_univ, Fintype.card_fin, ← huse]
    simp [FreeRace.init, BuddyAllocator.setUseCount]
  · cases hi
  · -- there is a holder
    rw [hall] at hempty
    exact absurd (Finset.mem_univ (⟨0, hpos⟩ : Fin n)) (by simp [hempty])

theorem Counted.mem_of_pc (hpend : (x.pc i).pending = true) : x.remaining.Nonempty :=
  ⟨i, FreeRace.mem_remaining.mpr hpend⟩

/-- A statement that leaves the allocator alone. -/
theorem Counted.quiet {c : FreePc} (h : Counted img s p x) (hbuddy : y.buddy = x.buddy)
    (hreleased : y.released = x.released) (hy : y.pc = Function.update x.pc i c)
    (hsame : c.pending = (x.pc i).pending)
    (hlast : c.hasRead false = true → x.remaining.card = 1) : Counted img s p y := by
  have hrem := FreeRace.remaining_same hy hsame
  refine ⟨?_, ?_, ?_⟩
  · rw [hrem, hbuddy, hreleased]
    exact h.before
  · intro j hj
    rw [hrem]
    rw [hy] at hj
    by_cases hji : j = i
    · subst hji
      rw [Function.update_self] at hj
      exact hlast hj
    · rw [Function.update_of_ne hji] at hj
      exact h.last j hj
  · rw [hrem, hbuddy, hreleased]
    exact h.after

/-- **One statement.** -/
theorem Counted.step (h : Counted img s p x) (hlt : n < 2 ^ 32)
    (hcrit : pageIsCritical img s p ≠ .error) (hs : Stepped img p x i y) :
    Counted img s p y := by
  have hcard : x.remaining.card ≤ n := by
    simpa using Finset.card_le_univ x.remaining
  cases hs with
  | reads hpc hbuddy hreleased hy =>
    apply h.quiet hbuddy hreleased hy (by rw [hpc]; rfl)
    intro hread
    have hne := Counted.mem_of_pc (x := x) (i := i) (by rw [hpc]; rfl)
    -- the count that was read is the number of holders left
    have hcount : (x.buddy.pages p).useCount = x.remaining.card := by
      rw [(h.before hne).2]
      simp
    have hpos := Finset.card_pos.mpr hne
    have hle : ¬ 1 < x.remaining.card := by
      rw [← hcount]
      simpa [FreePc.hasRead] using hread
    omega
  | locks b hpc hbuddy hreleased hy =>
    apply h.quiet hbuddy hreleased hy (by rw [hpc]; rfl)
    intro hread
    exact h.last i (by rw [hpc]; exact hread)
  | counts hpc hbuddy hreleased hy =>
    have hmem : i ∈ x.remaining := FreeRace.mem_remaining.mpr (by rw [hpc]; rfl)
    obtain ⟨hzero, hx⟩ := h.before ⟨i, hmem⟩
    have hrem := FreeRace.remaining_erase hy
    have hcardy : y.remaining.card = x.remaining.card - 1 := by
      rw [hrem, Finset.card_erase_of_mem hmem]
    have hpos := Finset.card_pos.mpr ⟨i, hmem⟩
    have hdec : y.buddy = s.setUseCount p y.remaining.card := by
      rw [hbuddy, hx, hcardy]
      exact pageDecUses_setUseCount s p hpos (by omega)
    refine ⟨fun _ => ⟨hreleased.trans hzero, hdec⟩, fun j hj => ?_, fun hempty => Or.inl ⟨?_, ?_⟩⟩
    · have hji : j ≠ i := by
        rintro rfl
        rw [hy, Function.update_self] at hj
        cases hj
      rw [hy, Function.update_of_ne hji] at hj
      -- two holders were left, so `j` cannot have found itself alone
      have hone := h.last j hj
      have hjmem : j ∈ x.remaining := FreeRace.mem_remaining.mpr (FreePc.pending_of_hasRead hj)
      obtain ⟨k, hk⟩ := Finset.card_eq_one.mp hone
      rw [hk, Finset.mem_singleton] at hmem hjmem
      exact absurd (hjmem.trans hmem.symm) hji
    · exact hreleased.trans hzero
    · rw [hdec, hempty]
      rfl
  | releases hpc hbuddy hreleased hy =>
    have hmem : i ∈ x.remaining := FreeRace.mem_remaining.mpr (by rw [hpc]; rfl)
    have hone : x.remaining.card = 1 := h.last i (by rw [hpc]; rfl)
    obtain ⟨hzero, hx⟩ := h.before ⟨i, hmem⟩
    have hempty : y.remaining = ∅ := by
      rw [FreeRace.remaining_erase hy, ← Finset.card_eq_zero, Finset.card_erase_of_mem hmem, hone]
    refine ⟨fun hne => ?_, fun j hj => ?_, fun _ => Or.inr ⟨?_, ?_⟩⟩
    · rw [hempty] at hne
      exact absurd hne Finset.not_nonempty_empty
    · have hjmem : j ∈ y.remaining := FreeRace.mem_remaining.mpr (FreePc.pending_of_hasRead hj)
      rw [hempty] at hjmem
      exact absurd hjmem (Finset.notMem_empty j)
    · rw [hreleased, hzero]
    · rw [hbuddy, hx, hone, lastFreed_eq hcrit]
  | unlocks hpc hbuddy hreleased hy =>
    exact h.quiet hbuddy hreleased hy (by rw [hpc]; rfl) fun hread => by cases hread

/-! ### The last reader -/

/-- The statement does not leave a single holder behind that has read `use_count` already. -/
def ReadLate (p : ℕ) (x : FreeRace n) (i : Fin n) : Prop :=
  ∀ b, x.pc i = .locked b → (x.buddy.pages p).useCount = 2 →
    ∀ j, j ≠ i → ∀ b', (x.pc j).hasRead b' = false

/-- None of the statements does. -/
def AllReadLate (img : KernelImage) (p : ℕ) : FreeRace n → List (Fin n) → Prop
  | _, [] => True
  | x, i :: is => ReadLate p x i ∧ ∀ y, x.step img p i = some y → AllReadLate img p y is

/-- The last holder reads the count last. -/
structure OnTime (x : FreeRace n) : Prop where
  unread : x.remaining.card = 1 → ∀ i, (x.pc i).hasRead true = false
  released : x.remaining = ∅ → x.released = 1

/-- The last holder has found the page shared. -/
structure TooEarly (x : FreeRace n) : Prop where
  card_le : x.remaining.card ≤ 1
  read : ∀ i ∈ x.remaining, (x.pc i).hasRead true = true
  released : x.released = 0

theorem OnTime.quiet {c : FreePc} (h : OnTime x) (hreleased : y.released = x.released)
    (hy : y.pc = Function.update x.pc i c) (hsame : c.pending = (x.pc i).pending)
    (hread : x.remaining.card = 1 → c.hasRead true = false) : OnTime y := by
  have hrem := FreeRace.remaining_same hy hsame
  refine ⟨fun hone j => ?_, fun hempty => ?_⟩
  · rw [hrem] at hone
    rw [hy]
    by_cases hji : j = i
    · subst hji
      rw [Function.update_self]
      exact hread hone
    · rw [Function.update_of_ne hji]
      exact h.unread hone j
  · rw [hrem] at hempty
    rw [hreleased]
    exact h.released hempty

theorem OnTime.step (h : OnTime x) (hc : Counted img s p x) (hlate : ReadLate p x i)
    (hs : Stepped img p x i y) : OnTime y := by
  cases hs with
  | reads hpc hbuddy hreleased hy =>
    apply h.quiet hreleased hy (by rw [hpc]; rfl)
    intro hone
    have hne : x.remaining.Nonempty := Finset.card_pos.mp (by omega)
    rw [(hc.before hne).2, hone]
    simp [FreePc.hasRead]
  | locks b hpc hbuddy hreleased hy =>
    apply h.quiet hreleased hy (by rw [hpc]; rfl)
    intro hone
    have hunread := h.unread hone i
    rwa [hpc] at hunread
  | counts hpc hbuddy hreleased hy =>
    have hmem : i ∈ x.remaining := FreeRace.mem_remaining.mpr (by rw [hpc]; rfl)
    have hcard : y.remaining.card + 1 = x.remaining.card := by
      rw [FreeRace.remaining_erase hy]
      exact Finset.card_erase_add_one hmem
    refine ⟨fun hone j => ?_, fun hempty => ?_⟩
    · -- one holder is left, so that there were two, and the order says that it has not read
      have htwo : (x.buddy.pages p).useCount = 2 := by
        rw [(hc.before ⟨i, hmem⟩).2, ← hcard, hone]
        simp
      rw [hy]
      by_cases hji : j = i
      · subst hji
        rw [Function.update_self]
        rfl
      · rw [Function.update_of_ne hji]
        exact hlate true hpc htwo j hji true
    · -- the last holder would have found the page shared
      have hone : x.remaining.card = 1 := by
        rw [← hcard, hempty]
        rfl
      have hunread := h.unread hone i
      rw [hpc] at hunread
      cases hunread
  | releases hpc hbuddy hreleased hy =>
    have hmem : i ∈ x.remaining := FreeRace.mem_remaining.mpr (by rw [hpc]; rfl)
    -- whoever releases is the last, and nobody released before
    have hone : x.remaining.card = 1 := hc.last i (by rw [hpc]; rfl)
    have hcard : y.remaining.card = 0 := by
      rw [FreeRace.remaining_erase hy, Finset.card_erase_of_mem hmem, hone]
    refine ⟨fun hone' => by omega, fun _ => ?_⟩
    rw [hreleased, (hc.before ⟨i, hmem⟩).1]
  | unlocks hpc hbuddy hreleased hy =>
    exact h.quiet hreleased hy (by rw [hpc]; rfl) fun _ => rfl

/-- The statement that breaks the order. -/
theorem tooEarly_of_not_readLate (hc : Counted img s p x) (hlate : ¬ ReadLate p x i)
    (hs : Stepped img p x i y) : TooEarly y := by
  simp only [ReadLate, not_forall] at hlate
  obtain ⟨b, hpc, htwo, j, hji, b', hj⟩ := hlate
  have hj : (x.pc j).hasRead b' = true := by simpa using hj
  have hmem : i ∈ x.remaining := FreeRace.mem_remaining.mpr (by rw [hpc]; rfl)
  have hcard : x.remaining.card = 2 := by
    rw [(hc.before ⟨i, hmem⟩).2] at htwo
    simpa using htwo
  -- two holders are left, so both have found the page shared
  have htrue : ∀ k c, (x.pc k).hasRead c = true → c = true := by
    intro k c hk
    cases c with
    | true => rfl
    | false =>
      have hone := hc.last k hk
      omega
  obtain rfl : b = true := htrue i b (by rw [hpc]; simp [FreePc.hasRead])
  obtain rfl : b' = true := htrue j b' hj
  cases hs with
  | reads hpc' => rw [hpc'] at hpc; cases hpc
  | locks _ hpc' => rw [hpc'] at hpc; cases hpc
  | releases hpc' => rw [hpc'] at hpc; cases hpc
  | unlocks hpc' => rw [hpc'] at hpc; cases hpc
  | counts _ hbuddy hreleased hy =>
    have hrem := FreeRace.remaining_erase hy
    have hcard' : y.remaining.card = 1 := by
      rw [hrem, Finset.card_erase_of_mem hmem, hcard]
    refine ⟨hcard'.le, fun k hk => ?_, hreleased.trans (hc.before ⟨i, hmem⟩).1⟩
    have hjmem : j ∈ y.remaining := by
      rw [hrem]
      exact Finset.mem_erase.mpr
        ⟨hji, FreeRace.mem_remaining.mpr (FreePc.pending_of_hasRead hj)⟩
    obtain ⟨m, hm⟩ := Finset.card_eq_one.mp hcard'
    rw [hm, Finset.mem_singleton] at hk hjmem
    rw [hk, ← hjmem, hy, Function.update_of_ne hji]
    exact hj

theorem TooEarly.step (h : TooEarly x) (hs : Stepped img p x i y) : TooEarly y := by
  -- a holder that moves without counting down
  have hquiet : ∀ c : FreePc, y.pc = Function.update x.pc i c → c.pending = (x.pc i).pending →
      y.released = x.released → (c.pending = true → c.hasRead true = true) → TooEarly y := by
    intro c hy hsame hreleased hread
    have hrem := FreeRace.remaining_same hy hsame
    refine ⟨hrem ▸ h.card_le, fun j hj => ?_, hreleased.trans h.released⟩
    rw [hrem] at hj
    rw [hy]
    by_cases hji : j = i
    · subst hji
      rw [Function.update_self]
      exact hread (hsame.trans (FreeRace.mem_remaining.mp hj))
    · rw [Function.update_of_ne hji]
      exact h.read j hj
  have hread : (x.pc i).pending = true → (x.pc i).hasRead true = true := fun hpend =>
    h.read i (FreeRace.mem_remaining.mpr hpend)
  cases hs with
  | reads hpc hbuddy hreleased hy =>
    rw [hpc] at hread
    exact absurd (hread rfl) (by decide)
  | locks b hpc hbuddy hreleased hy =>
    rw [hpc] at hread
    exact hquiet _ hy (by rw [hpc]; rfl) hreleased hread
  | counts hpc hbuddy hreleased hy =>
    have hrem := FreeRace.remaining_erase hy
    refine ⟨?_, fun j hj => ?_, hreleased.trans h.released⟩
    · rw [hrem]
      exact (Finset.card_erase_le).trans h.card_le
    · rw [hrem, Finset.mem_erase] at hj
      rw [hy, Function.update_of_ne hj.1]
      exact h.read j hj.2
  | releases hpc hbuddy hreleased hy =>
    rw [hpc] at hread
    exact absurd (hread rfl) (by decide)
  | unlocks hpc hbuddy hreleased hy =>
    exact hquiet _ hy (by rw [hpc]; rfl) hreleased fun hpend => by cases hpend

/-! ### Runs -/

section Runs

variable {z : FreeRace n} {is : List (Fin n)} (hlt : n < 2 ^ 32)
  (hcrit : pageIsCritical img s p ≠ .error)
include hlt hcrit

/-- In the states of a race the critical test of `page_free` lets the holders pass. -/
theorem Counted.stepped (hc : Counted img s p x) (hstep : x.step img p i = some y) :
    Stepped img p x i y ∧ Counted img s p y := by
  have hs : Stepped img p x i y := by
    apply FreeRace.step_cases hstep
    intro hpc
    rw [(hc.before (Counted.mem_of_pc (i := i) (by rw [hpc]; rfl))).2, pageIsCritical_setUseCount]
    exact hcrit
  exact ⟨hs, hc.step hlt hcrit hs⟩

theorem Counted.run (hc : Counted img s p x) (hrun : x.run img p is = some z) :
    Counted img s p z := by
  induction is generalizing x with
  | nil =>
    obtain rfl := Option.some.inj hrun
    exact hc
  | cons i is ih =>
    rw [FreeRace.run] at hrun
    split at hrun
    · cases hrun
    · rename_i y hstep
      exact ih (hc.stepped hlt hcrit hstep).2 hrun

theorem TooEarly.run (h : TooEarly x) (hc : Counted img s p x) (hrun : x.run img p is = some z) :
    TooEarly z := by
  induction is generalizing x with
  | nil =>
    obtain rfl := Option.some.inj hrun
    exact h
  | cons i is ih =>
    rw [FreeRace.run] at hrun
    split at hrun
    · cases hrun
    · rename_i y hstep
      obtain ⟨hs, hc'⟩ := hc.stepped hlt hcrit hstep
      exact ih (h.step hs) hc' hrun

/-- **Any run.**  It is on time to its end, or too early from some statement on. -/
theorem OnTime.run (h : OnTime x) (hc : Counted img s p x) (hrun : x.run img p is = some z) :
    (AllReadLate img p x is → OnTime z) ∧ (¬ AllReadLate img p x is → TooEarly z) := by
  induction is generalizing x with
  | nil =>
    obtain rfl := Option.some.inj hrun
    exact ⟨fun _ => h, fun hnot => absurd trivial hnot⟩
  | cons i is ih =>
    rw [FreeRace.run] at hrun
    split at hrun
    · cases hrun
    · rename_i y hstep
      obtain ⟨hs, hc'⟩ := hc.stepped hlt hcrit hstep
      have hall : AllReadLate img p x (i :: is) ↔ ReadLate p x i ∧ AllReadLate img p y is := by
        simp only [AllReadLate, hstep, Option.some.injEq, forall_eq']
      by_cases hlate : ReadLate p x i
      · obtain ⟨hyes, hno⟩ := ih (h.step hc hlate hs) hc' hrun
        refine ⟨fun hok => hyes (hall.mp hok).2, fun hnot => hno fun hok => ?_⟩
        exact hnot (hall.mpr ⟨hlate, hok⟩)
      · have hearly := (tooEarly_of_not_readLate hc hlate hs).run hlt hcrit hc' hrun
        exact ⟨fun hok => absurd (hall.mp hok).1 hlate, fun _ => hearly⟩

end Runs

/-- The page has been put on the free lists once, and nobody uses it. -/
def ReleasedOnce (p : ℕ) (x : FreeRace n) : Prop :=
  x.released = 1 ∧ (x.buddy.pages p).useCount = 0

/-- **When a shared page is released.**  The `n` holders of a page outside the kernel image, with
    `use_count = n`, have all returned from `page_free`.  The page has been released once if and only
    if no holder counted down from two to one after the other one left had read the count; and then
    the allocator is as after a `page_free` of the only reference. -/
theorem freeRace_once_iff {is : List (Fin n)} (hpos : 1 ≤ n) (hlt : n < 2 ^ 32)
    (huse : (s.pages p).useCount = n) (hcrit : pageIsCritical img s p ≠ .error)
    (hrun : (FreeRace.init s n).run img p is = some x) (hdone : ∀ i, x.pc i = .done) :
    (ReleasedOnce p x ↔ AllReadLate img p (FreeRace.init s n) is) ∧
      (ReleasedOnce p x → x.buddy = lastFreed img s p) := by
  have hc₀ : Counted img s p (FreeRace.init s n) := Counted.init huse hpos
  have h₀ : OnTime (FreeRace.init s n) := by
    refine ⟨fun _ _ => rfl, fun hempty => ?_⟩
    have hmem : (⟨0, hpos⟩ : Fin n) ∈ (FreeRace.init s n).remaining :=
      FreeRace.mem_remaining.mpr rfl
    rw [hempty] at hmem
    exact absurd hmem (Finset.notMem_empty _)
  have hc := hc₀.run hlt hcrit hrun
  obtain ⟨honTime, hearly⟩ := h₀.run hlt hcrit hc₀ hrun
  -- all have returned, so that nobody is left to count down
  have hempty : x.remaining = ∅ := by
    ext i
    simp [FreeRace.mem_remaining, hdone i, FreePc.pending]
  have hbuddy : x.released = 1 → x.buddy = lastFreed img s p := by
    intro hone
    rcases hc.after hempty with ⟨hzero, -⟩ | ⟨-, hbuddy⟩
    · rw [hone] at hzero
      cases hzero
    · exact hbuddy
  refine ⟨⟨fun hreleased => ?_, fun hall => ?_⟩, fun hreleased => hbuddy hreleased.1⟩
  · by_contra hnot
    have hzero := (hearly hnot).released
    rw [hreleased.1] at hzero
    cases hzero
  · have hone := (honTime hall).released hempty
    refine ⟨hone, ?_⟩
    rw [hbuddy hone]
    exact lastFreed_useCount hcrit

/-- The only page, with two references. -/
def sharedPage : BuddyAllocator × Live :=
  (pageIncUses onePage.1 0, Function.update onePage.2 0 (some ⟨0, 2⟩))

/-- The second holder calls `page_free` after the first has returned. -/
theorem freeRace_once_iff_inTurn : ∃ x : FreeRace 2,
    (FreeRace.init sharedPage.1 2).run emptyImage 0 [0, 0, 0, 0, 1, 1, 1, 1] = some x ∧
      (ReleasedOnce 0 x ↔
        AllReadLate emptyImage 0 (FreeRace.init sharedPage.1 2) [0, 0, 0, 0, 1, 1, 1, 1]) := by
  have hend : ((FreeRace.init sharedPage.1 2).run emptyImage 0 [0, 0, 0, 0, 1, 1, 1, 1]).map
      (fun x => (x.pc 0, x.pc 1)) = some (.done, .done) := by
    decide +kernel
  obtain ⟨x, hx, hpcs⟩ := Option.map_eq_some_iff.mp hend
  have hdone : ∀ i, x.pc i = .done := Fin.forall_fin_two.mpr (Prod.mk.inj hpcs)
  exact ⟨x, hx, (freeRace_once_iff (by decide) (by decide) (by decide +kernel) (by decide +kernel) hx
    hdone).1⟩

/-- **A page that is never released.**  Both holders read a count of two before either takes the
    lock, so both only count down. -/
theorem sharedPage_never_released :
    ¬ ∀ (img : KernelImage) (S : Set ℕ) (s : BuddyAllocator) (L : Live) (p n : ℕ) (is : List (Fin n))
      (x : FreeRace n), Reached S (s, L) → L p = some ⟨0, n⟩ → OutsideImage img p →
      (FreeRace.init s n).run img p is = some x → (∀ i, x.pc i = .done) → ReleasedOnce p x := by
  intro h
  have hreach : Reached {0} sharedPage := by
    refine ⟨emptyImage, 64, [0], _, handedOver_zero, by decide, by decide, by ext i; simp,
      (run_onePage _).tail (Step.inc onePage.1 onePage.2 0 ⟨0, 1⟩ rfl (by decide)), by decide +kernel⟩
  have hend : ((FreeRace.init sharedPage.1 2).run emptyImage 0 [0, 1, 0, 0, 0, 1, 1, 1]).map
      (fun x => (x.released, x.pc 0, x.pc 1)) = some (0, .done, .done) := by
    decide +kernel
  obtain ⟨x, hx, hpcs⟩ := Option.map_eq_some_iff.mp hend
  obtain ⟨hzero, hpcs⟩ := Prod.mk.inj hpcs
  have hdone : ∀ i, x.pc i = .done := Fin.forall_fin_two.mpr (Prod.mk.inj hpcs)
  obtain ⟨hone, -⟩ := h emptyImage {0} sharedPage.1 sharedPage.2 0 2 _ x hreach rfl
    (outsideImage_empty 0) hx hdone
  rw [hzero] at hone
  cases hone

end Rotary

import Mathlib.Algebra.Ring.Nat
import Mathlib.Data.Finset.Card
import Mathlib.Data.Finset.Range
import Mathlib.Order.Interval.Set.Defs

namespace Rotary.Lib

/-!
# Byte memory, 32-bit words and null-terminated chains

A flat memory of bytes, the little-endian words in it, and the singly linked lists whose nodes
begin with the address of the next node:

* `load` / `store` — the word at an address, which need not be aligned;
* `Chain m v xs` — from the pointer value `v`, following the first word of each node visits
  exactly `xs` and then meets the null pointer;
* `chainList` — the nodes read off by walking;
* `firstSuch` — the search loop `while(p != NULL) { if(test(p)) ...; p = p->next; }`.

Whatever walks a chain stops: a chain repeats no node (`Chain.nodup`), so it is shorter than
the address space (`Chain.length_lt`).
-/

/-- A memory: one byte at every address. -/
abbrev ByteMem := ℕ → UInt8

/-- The little-endian word at `a`. -/
def load (m : ByteMem) (a : ℕ) : ℕ :=
  (m a).toNat + 2 ^ 8 * (m (a + 1)).toNat + 2 ^ 16 * (m (a + 2)).toNat +
    2 ^ 24 * (m (a + 3)).toNat

/-- Store the low 32 bits of `v` at `a`. -/
def store (m : ByteMem) (a v : ℕ) : ByteMem := fun x =>
  if a ≤ x ∧ x < a + 4 then UInt8.ofNat (v / 256 ^ (x - a)) else m x

variable {m m' : ByteMem} {a b c v w x : ℕ} {xs ys pre post : List ℕ}

/-! ### Words -/

theorem load_lt (m : ByteMem) (a : ℕ) : load m a < 2 ^ 32 := by
  have h0 := (m a).toNat_lt
  have h1 := (m (a + 1)).toNat_lt
  have h2 := (m (a + 2)).toNat_lt
  have h3 := (m (a + 3)).toNat_lt
  unfold load
  omega

/-- A word depends on its four bytes only. -/
theorem load_congr (h : ∀ x, a ≤ x → x < a + 4 → m' x = m x) : load m' a = load m a := by
  unfold load
  rw [h a (by omega) (by omega), h (a + 1) (by omega) (by omega),
    h (a + 2) (by omega) (by omega), h (a + 3) (by omega) (by omega)]

theorem store_of_not_mem (h : x < a ∨ a + 4 ≤ x) : store m a v x = m x := by
  have hx : ¬ (a ≤ x ∧ x < a + 4) := by omega
  simp only [store, hx, if_false]

theorem load_store_self (m : ByteMem) (a v : ℕ) : load (store m a v) a = v % 2 ^ 32 := by
  have hbyte : ∀ i < 4, store m a v (a + i) = UInt8.ofNat (v / 256 ^ i) := by
    intro i hi
    have hx : a ≤ a + i ∧ a + i < a + 4 := by omega
    simp only [store, hx, and_self, if_true, Nat.add_sub_cancel_left]
  have h0 := hbyte 0 (by decide)
  rw [Nat.add_zero] at h0
  unfold load
  rw [h0, hbyte 1 (by decide), hbyte 2 (by decide), hbyte 3 (by decide)]
  simp only [UInt8.toNat_ofNat']
  omega

theorem load_store (m : ByteMem) (a : ℕ) (hv : v < 2 ^ 32) : load (store m a v) a = v := by
  rw [load_store_self, Nat.mod_eq_of_lt hv]

theorem load_store_of_disjoint (h : b + 4 ≤ a ∨ a + 4 ≤ b) :
    load (store m a v) b = load m b := by
  apply load_congr
  intro x h1 h2
  exact store_of_not_mem (by omega)

/-! ### Paths -/

/-- From the pointer value `v`, the first words of the nodes `xs` lead to the value `w`. -/
def Path (m : ByteMem) : ℕ → List ℕ → ℕ → Prop
  | v, [], w => v = w
  | v, x :: xs, w => v = x ∧ x ≠ 0 ∧ Path m (load m x) xs w

/-- The address of the word behind the last node of the list `xs` begun at the word `c`. -/
def lastCell (c : ℕ) (xs : List ℕ) : ℕ := xs.getLastD c

@[simp] theorem lastCell_nil (c : ℕ) : lastCell c [] = c := rfl

@[simp] theorem lastCell_cons (c x : ℕ) (xs : List ℕ) :
    lastCell c (x :: xs) = lastCell x xs := by
  cases xs <;> rfl

theorem lastCell_mem (c : ℕ) (xs : List ℕ) : lastCell c xs ∈ c :: xs := by
  induction xs generalizing c with
  | nil => simp
  | cons x xs ih =>
    rw [lastCell_cons]
    exact List.mem_cons_of_mem c (ih x)

theorem Path.append_iff :
    Path m v (pre ++ post) w ↔ ∃ u, Path m v pre u ∧ Path m u post w := by
  induction pre generalizing v with
  | nil => simp [Path]
  | cons x pre ih => simp [Path, ih, and_assoc]

/-- The word behind the last node of a path holds the value the path leads to. -/
theorem Path.end_eq (h : Path m (load m c) xs w) : load m (lastCell c xs) = w := by
  induction xs generalizing c with
  | nil => exact h
  | cons x xs ih =>
    rw [lastCell_cons]
    exact ih h.2.2

theorem Path.congr (h : Path m v xs w) (heq : ∀ x ∈ xs, load m' x = load m x) :
    Path m' v xs w := by
  induction xs generalizing v with
  | nil => exact h
  | cons x xs ih =>
    obtain ⟨hv, hx, htail⟩ := h
    refine ⟨hv, hx, ?_⟩
    rw [heq x List.mem_cons_self]
    exact ih htail fun y hy => heq y (List.mem_cons_of_mem x hy)

/-- Storing into the last word of a path makes it lead elsewhere. -/
theorem Path.relink (h : Path m (load m c) xs v) (hnd : (c :: xs).Nodup)
    (hframe : ∀ y ∈ c :: xs, y ≠ lastCell c xs → load m' y = load m y)
    (hcell : load m' (lastCell c xs) = w) : Path m' (load m' c) xs w := by
  induction xs generalizing c with
  | nil => exact hcell
  | cons x xs ih =>
    obtain ⟨hv, hx, htail⟩ := h
    rw [lastCell_cons] at hframe hcell
    obtain ⟨hc, hnd'⟩ := List.nodup_cons.mp hnd
    have hne : c ≠ lastCell x xs := fun heq => hc (heq ▸ lastCell_mem x xs)
    have hword : load m' c = load m c := hframe c List.mem_cons_self hne
    refine ⟨hword.trans hv, hx, ?_⟩
    exact ih htail hnd' (fun y hy => hframe y (List.mem_cons_of_mem c hy)) hcell

/-! ### Chains -/

/-- The nodes from the pointer value `v` to the null pointer are exactly `xs`. -/
def Chain (m : ByteMem) (v : ℕ) (xs : List ℕ) : Prop := Path m v xs 0

theorem chain_nil : Chain m v [] ↔ v = 0 := Iff.rfl

theorem chain_cons : Chain m v (x :: xs) ↔ v = x ∧ x ≠ 0 ∧ Chain m (load m x) xs := Iff.rfl

theorem Chain.congr (h : Chain m v xs) (heq : ∀ x ∈ xs, load m' x = load m x) : Chain m' v xs :=
  Path.congr h heq

/-- A chain is fixed by where it starts. -/
theorem Chain.unique (hx : Chain m v xs) (hy : Chain m v ys) : xs = ys := by
  induction xs generalizing v ys with
  | nil =>
    cases ys with
    | nil => rfl
    | cons y ys =>
      obtain ⟨hv, hne, -⟩ := chain_cons.mp hy
      exact absurd (hv.symm.trans hx) hne
  | cons x xs ih =>
    obtain ⟨hv, hne, htail⟩ := chain_cons.mp hx
    cases ys with
    | nil => exact absurd (hv.symm.trans hy) hne
    | cons y ys =>
      obtain ⟨hv', -, htail'⟩ := chain_cons.mp hy
      obtain rfl : x = y := hv.symm.trans hv'
      rw [ih htail htail']

/-- No node occurs twice: the walk from it would never end. -/
theorem Chain.nodup (h : Chain m v xs) : xs.Nodup := by
  induction xs generalizing v with
  | nil => exact List.nodup_nil
  | cons x xs ih =>
    obtain ⟨-, hne, htail⟩ := chain_cons.mp h
    refine List.nodup_cons.mpr ⟨fun hmem => ?_, ih htail⟩
    obtain ⟨pre, post, rfl⟩ := List.append_of_mem hmem
    obtain ⟨u, -, hu⟩ := Path.append_iff.mp htail
    have hlen := congrArg List.length (Chain.unique htail hu.2.2)
    simp only [List.length_append, List.length_cons] at hlen
    omega

theorem Chain.ne_zero (h : Chain m v xs) (hx : x ∈ xs) : x ≠ 0 := by
  induction xs generalizing v with
  | nil => simp at hx
  | cons y ys ih =>
    obtain ⟨-, hne, htail⟩ := chain_cons.mp h
    rcases List.mem_cons.mp hx with rfl | hx
    · exact hne
    · exact ih htail hx

theorem Chain.lt (h : Chain m v xs) (hv : v < 2 ^ 32) (hx : x ∈ xs) : x < 2 ^ 32 := by
  induction xs generalizing v with
  | nil => simp at hx
  | cons y ys ih =>
    obtain ⟨rfl, -, htail⟩ := chain_cons.mp h
    rcases List.mem_cons.mp hx with rfl | hx
    · exact hv
    · exact ih htail (load_lt m _) hx

/-- A chain is shorter than the address space. -/
theorem Chain.length_lt (h : Chain m v xs) (hv : v < 2 ^ 32) : xs.length < 2 ^ 32 := by
  -- the null pointer is one more address below `2 ^ 32`, and is not on the chain
  have hnd : (0 :: xs).Nodup :=
    List.nodup_cons.mpr ⟨fun h0 => h.ne_zero h0 rfl, h.nodup⟩
  have hsub : (0 :: xs).toFinset ⊆ Finset.range (2 ^ 32) := by
    intro y hy
    rw [Finset.mem_range]
    rcases List.mem_cons.mp (List.mem_toFinset.mp hy) with rfl | hy
    · exact Nat.two_pow_pos 32
    · exact h.lt hv hy
  have hcard := Finset.card_le_card hsub
  rw [List.toFinset_card_of_nodup hnd, Finset.card_range] at hcard
  exact hcard

/-- **Insertion.**  Whatever stores make the word behind `pre` point at the new node, and the
    new node at what that word held, have inserted the node there. -/
theorem Chain.insert (h : Chain m (load m c) (pre ++ post)) (hc : c ∉ pre ++ post) (hx : x ≠ 0)
    (hcell : load m' (lastCell c pre) = x) (hnew : load m' x = load m (lastCell c pre))
    (hframe : ∀ y ∈ c :: (pre ++ post), y ≠ lastCell c pre → load m' y = load m y) :
    Chain m' (load m' c) (pre ++ x :: post) := by
  have hnd : (c :: (pre ++ post)).Nodup := List.nodup_cons.mpr ⟨hc, Chain.nodup h⟩
  have hsub : (c :: pre).Sublist (c :: (pre ++ post)) :=
    (List.sublist_append_left pre post).cons_cons c
  obtain ⟨u, hpre, hpost⟩ := Path.append_iff.mp h
  have hlast : load m (lastCell c pre) = u := hpre.end_eq
  refine Path.append_iff.mpr ⟨x, ?_, rfl, hx, ?_⟩
  · exact hpre.relink (hnd.sublist hsub) (fun y hy => hframe y (hsub.subset hy)) hcell
  · rw [hnew, hlast]
    refine hpost.congr fun y hy => hframe y (by simp [hy]) ?_
    -- a node of `post` is not the last word of `c :: pre`
    rintro rfl
    have hsplit : ((c :: pre) ++ post).Nodup := hnd
    exact (List.nodup_append.mp hsplit).2.2 _ (lastCell_mem c pre) _ hy rfl

/-! ### Walking a chain -/

/-- The nodes met from `v`, at most `fuel` of them. -/
def chainList (m : ByteMem) : ℕ → ℕ → List ℕ
  | 0, _ => []
  | fuel + 1, v => if v = 0 then [] else v :: chainList m fuel (load m v)

/-- The first node from `v` that passes the test, null when none does; `none` when the end is
    not reached in `fuel` turns. -/
def firstSuch (m : ByteMem) (test : ℕ → Bool) : ℕ → ℕ → Option ℕ
  | 0, _ => none
  | fuel + 1, v =>
    if v = 0 then some 0
    else if test v then some v
    else firstSuch m test fuel (load m v)

theorem Chain.chainList_eq {fuel : ℕ} (h : Chain m v xs) (hf : xs.length ≤ fuel) :
    chainList m fuel v = xs := by
  induction xs generalizing v fuel with
  | nil =>
    obtain rfl : v = 0 := h
    cases fuel <;> simp [chainList]
  | cons x xs ih =>
    obtain ⟨rfl, hne, htail⟩ := chain_cons.mp h
    cases fuel with
    | zero => simp at hf
    | succ fuel => simp [chainList, hne, ih htail (by simpa using hf)]

theorem Chain.firstSuch_eq {fuel : ℕ} (test : ℕ → Bool) (h : Chain m v xs)
    (hf : xs.length < fuel) : firstSuch m test fuel v = some ((xs.find? test).getD 0) := by
  induction xs generalizing v fuel with
  | nil =>
    obtain rfl : v = 0 := h
    cases fuel with
    | zero => simp at hf
    | succ fuel => simp [firstSuch]
  | cons x xs ih =>
    obtain ⟨rfl, hne, htail⟩ := chain_cons.mp h
    cases fuel with
    | zero => simp at hf
    | succ fuel =>
      have htail' := ih htail (by simpa using hf)
      by_cases ht : test v = true <;> simp [firstSuch, hne, ht, htail']

/-- The search for a null link ends at the last node. -/
theorem Chain.firstSuch_last {fuel : ℕ} (h : Chain m v (x :: xs)) (hf : xs.length < fuel) :
    firstSuch m (fun p => decide (load m p = 0)) fuel v = some (lastCell x xs) := by
  induction xs generalizing v x fuel with
  | nil =>
    obtain ⟨rfl, hne, hnull⟩ := chain_cons.mp h
    cases fuel with
    | zero => simp at hf
    | succ fuel => simp [firstSuch, hne, chain_nil.mp hnull]
  | cons y ys ih =>
    obtain ⟨rfl, hne, htail⟩ := chain_cons.mp h
    obtain ⟨hy, hyne, -⟩ := chain_cons.mp htail
    cases fuel with
    | zero => simp at hf
    | succ fuel =>
      have hlink : load m v ≠ 0 := hy ▸ hyne
      rw [lastCell_cons, ← ih htail (by simpa using hf)]
      simp [firstSuch, hne, hlink]

end Rotary.Lib

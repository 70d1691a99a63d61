import Rotary.Lib.ByteMem

namespace Rotary.Lib

/-!
# Descriptor tables of the 32-bit x86

The entries of the IDT and the GDT are eight bytes each, with their fields in pieces:

* `putBytes` — bytes written one after the other;
* `Gate` / `readGate` — an entry of the IDT, as the processor reads it;
* `Descriptor` / `readDescriptor` — an entry of the GDT;
* `Descriptor.linear` — the address that an offset into a segment stands for.
-/

variable {m m' : ByteMem} {a x i : ℕ} {bs : List UInt8}

/-- Write bytes from `a` upwards. -/
def putBytes (m : ByteMem) (a : ℕ) (bs : List UInt8) : ByteMem := fun x =>
  if a ≤ x ∧ x < a + bs.length then bs.getD (x - a) 0 else m x

theorem putBytes_of_not_mem (h : x < a ∨ a + bs.length ≤ x) : putBytes m a bs x = m x := by
  have hx : ¬ (a ≤ x ∧ x < a + bs.length) := by omega
  simp only [putBytes, hx, if_false]

theorem putBytes_at (hi : i < bs.length) : putBytes m a bs (a + i) = bs.getD i 0 := by
  have hx : a ≤ a + i ∧ a + i < a + bs.length := by omega
  simp only [putBytes, hx, and_self, if_true, Nat.add_sub_cancel_left]

/-- The eight bytes of an entry. -/
theorem putBytes_entry (m : ByteMem) (a : ℕ) (b₀ b₁ b₂ b₃ b₄ b₅ b₆ b₇ : UInt8) :
    putBytes m a [b₀, b₁, b₂, b₃, b₄, b₅, b₆, b₇] a = b₀ ∧
      ∀ i < 7, putBytes m a [b₀, b₁, b₂, b₃, b₄, b₅, b₆, b₇] (a + (i + 1)) =
        [b₁, b₂, b₃, b₄, b₅, b₆, b₇].getD i 0 := by
  have hbyte : ∀ i < 8, putBytes m a [b₀, b₁, b₂, b₃, b₄, b₅, b₆, b₇] (a + i) =
      [b₀, b₁, b₂, b₃, b₄, b₅, b₆, b₇].getD i 0 := fun i hi => putBytes_at hi
  refine ⟨hbyte 0 (by decide), fun i hi => ?_⟩
  rw [hbyte (i + 1) (by omega), List.getD_cons_succ]

/-! ### Gates -/

/-- An entry of the IDT. -/
structure Gate where
  offset : ℕ
  selector : ℕ
  gateType : ℕ
  dpl : ℕ
  present : Bool
  deriving DecidableEq, Repr

/-- The gate in the eight bytes at `a`. -/
def readGate (m : ByteMem) (a : ℕ) : Gate where
  offset := (m a).toNat + 2 ^ 8 * (m (a + 1)).toNat + 2 ^ 16 * (m (a + 6)).toNat +
    2 ^ 24 * (m (a + 7)).toNat
  selector := (m (a + 2)).toNat + 2 ^ 8 * (m (a + 3)).toNat
  gateType := (m (a + 5)).toNat % 16
  dpl := (m (a + 5)).toNat / 32 % 4
  present := (m (a + 5)).toNat.testBit 7

theorem readGate_congr (h : ∀ x, a ≤ x → x < a + 8 → m' x = m x) :
    readGate m' a = readGate m a := by
  unfold readGate
  rw [h a (by omega) (by omega), h (a + 1) (by omega) (by omega), h (a + 2) (by omega) (by omega),
    h (a + 3) (by omega) (by omega), h (a + 5) (by omega) (by omega),
    h (a + 6) (by omega) (by omega), h (a + 7) (by omega) (by omega)]

theorem readGate_putBytes (m : ByteMem) (a : ℕ) (b₀ b₁ b₂ b₃ b₄ b₅ b₆ b₇ : UInt8) :
    readGate (putBytes m a [b₀, b₁, b₂, b₃, b₄, b₅, b₆, b₇]) a =
      { offset := b₀.toNat + 2 ^ 8 * b₁.toNat + 2 ^ 16 * b₆.toNat + 2 ^ 24 * b₇.toNat
        selector := b₂.toNat + 2 ^ 8 * b₃.toNat
        gateType := b₅.toNat % 16
        dpl := b₅.toNat / 32 % 4
        present := b₅.toNat.testBit 7 } := by
  obtain ⟨h₀, h⟩ := putBytes_entry m a b₀ b₁ b₂ b₃ b₄ b₅ b₆ b₇
  unfold readGate
  rw [h₀, h 0 (by decide), h 1 (by decide), h 2 (by decide), h 4 (by decide), h 5 (by decide),
    h 6 (by decide)]
  rfl

/-- `int n` is allowed in the ring if the gate is present and not of an inner one. -/
def Gate.Allows (g : Gate) (ring : ℕ) : Prop := g.present = true ∧ ring ≤ g.dpl

instance (g : Gate) (ring : ℕ) : Decidable (g.Allows ring) := inferInstanceAs (Decidable (_ ∧ _))

/-! ### Segments -/

/-- An entry of the GDT. -/
structure Descriptor where
  base : ℕ
  /-- The last offset, in bytes or in pages. -/
  limit : ℕ
  access : ℕ
  flags : ℕ
  deriving DecidableEq, Repr

/-- The descriptor in the eight bytes at `a`. -/
def readDescriptor (m : ByteMem) (a : ℕ) : Descriptor where
  base := (m (a + 2)).toNat + 2 ^ 8 * (m (a + 3)).toNat + 2 ^ 16 * (m (a + 4)).toNat +
    2 ^ 24 * (m (a + 7)).toNat
  limit := (m a).toNat + 2 ^ 8 * (m (a + 1)).toNat + 2 ^ 16 * ((m (a + 6)).toNat % 16)
  access := (m (a + 5)).toNat
  flags := (m (a + 6)).toNat / 16

theorem readDescriptor_congr (h : ∀ x, a ≤ x → x < a + 8 → m' x = m x) :
    readDescriptor m' a = readDescriptor m a := by
  unfold readDescriptor
  rw [h a (by omega) (by omega), h (a + 1) (by omega) (by omega), h (a + 2) (by omega) (by omega),
    h (a + 3) (by omega) (by omega), h (a + 4) (by omega) (by omega),
    h (a + 5) (by omega) (by omega), h (a + 6) (by omega) (by omega),
    h (a + 7) (by omega) (by omega)]

theorem readDescriptor_putBytes (m : ByteMem) (a : ℕ) (b₀ b₁ b₂ b₃ b₄ b₅ b₆ b₇ : UInt8) :
    readDescriptor (putBytes m a [b₀, b₁, b₂, b₃, b₄, b₅, b₆, b₇]) a =
      { base := b₂.toNat + 2 ^ 8 * b₃.toNat + 2 ^ 16 * b₄.toNat + 2 ^ 24 * b₇.toNat
        limit := b₀.toNat + 2 ^ 8 * b₁.toNat + 2 ^ 16 * (b₆.toNat % 16)
        access := b₅.toNat
        flags := b₆.toNat / 16 } := by
  obtain ⟨h₀, h⟩ := putBytes_entry m a b₀ b₁ b₂ b₃ b₄ b₅ b₆ b₇
  unfold readDescriptor
  rw [h₀, h 0 (by decide), h 1 (by decide), h 2 (by decide), h 3 (by decide), h 4 (by decide),
    h 5 (by decide), h 6 (by decide)]
  rfl

/-- The last offset of the segment in bytes; bit 3 of the flags is the granularity. -/
def Descriptor.lastByte (d : Descriptor) : ℕ :=
  if d.flags.testBit 3 then d.limit * 2 ^ 12 + 4095 else d.limit

/-- The ring that the segment is for, and whether it is code. -/
def Descriptor.ring (d : Descriptor) : ℕ := d.access / 32 % 4
def Descriptor.isCode (d : Descriptor) : Bool := d.access.testBit 3

/-- Where the processor finds `size` bytes at an offset into the segment. -/
def Descriptor.linear (d : Descriptor) (offset size : ℕ) : Option ℕ :=
  if offset + size ≤ d.lastByte + 1 then some ((d.base + offset) % 2 ^ 32) else none

end Rotary.Lib

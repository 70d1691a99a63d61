import Mathlib.Data.List.Find
import Mathlib.Logic.Function.Basic
import Mathlib.Data.Nat.Init

namespace Rotary.Lib

/-!
# A pair of 8259 interrupt controllers

A controller remembers what is requested on its eight lines.  It offers the request of the highest
priority to the processor, unless an interrupt of that priority or of a higher one is still in
service.  An interrupt is in service from the time the processor takes it until it is told that it
has ended.  The second controller of a pair makes its requests on line 2 of the first one.

* `Pic` — a controller; `Pic.command` and `Pic.data` — what is written to it;
* `Pics.acknowledge` — the processor takes an interrupt;
* `Pics.acknowledge_idle` — what it takes if nothing is in service;
* `Pics.end_acknowledged` — the end of the only interrupt in service.

A request may be withdrawn before it is taken; the processor then gets line 7.  Left out are the
rotation of priorities, the special modes, and what can be read back.
-/

/-- The words of an initialisation behind the first. -/
inductive InitWord
  | icw2
  | icw3
  | icw4

/-- A controller: the lines that are requested, in service and masked, and how it is set up. -/
structure Pic where
  irr : ℕ → Bool
  isr : ℕ → Bool
  imr : UInt8
  offset : ℕ
  cascade : UInt8
  autoEoi : Bool
  single : Bool
  fourth : Bool
  expects : Option InitWord

namespace Pic

variable {p : Pic} {n : ℕ}

/-- A line is requested and not masked. -/
def requests (p : Pic) (n : ℕ) : Bool := p.irr n && !p.imr.toNat.testBit n

/-- The line that is offered to the processor. -/
def offered (p : Pic) : Option ℕ :=
  (List.range 8).find? fun n => p.requests n && (List.range (n + 1)).all fun m => !p.isr m

def raise (p : Pic) (n : ℕ) : Pic := { p with irr := Function.update p.irr n true }

def lower (p : Pic) (n : ℕ) : Pic := { p with irr := Function.update p.irr n false }

/-- The interrupt on a line is taken. -/
def serve (p : Pic) (n : ℕ) : Pic :=
  { p with
    irr := Function.update p.irr n false
    isr := Function.update p.isr n (!p.autoEoi) }

def finish (p : Pic) (n : ℕ) : Pic := { p with isr := Function.update p.isr n false }

/-- A write to the command port: the first word of an initialisation, or the end of an interrupt,
    which is the one with the highest priority unless a line is given. -/
def command (value : UInt8) (p : Pic) : Pic :=
  if value &&& 0x10 ≠ 0 then
    { p with
      irr := fun _ => false
      isr := fun _ => false
      imr := 0
      autoEoi := false
      single := decide (value &&& 0x02 ≠ 0)
      fourth := decide (value &&& 0x01 ≠ 0)
      expects := some .icw2 }
  else if value &&& 0x08 ≠ 0 ∨ value &&& 0x20 = 0 then p
  else if value &&& 0x40 ≠ 0 then p.finish (value.toNat % 8)
  else
    match (List.range 8).find? p.isr with
    | none => p
    | some n => p.finish n

/-- A write to the data port: the next word of an initialisation, or the mask. -/
def data (value : UInt8) (p : Pic) : Pic :=
  match p.expects with
  | none => { p with imr := value }
  | some .icw2 =>
    { p with
      offset := value.toNat / 8 * 8
      expects := if p.single then (if p.fourth then some .icw4 else none) else some .icw3 }
  | some .icw3 =>
    { p with cascade := value, expects := if p.fourth then some .icw4 else none }
  | some .icw4 => { p with autoEoi := decide (value &&& 0x02 ≠ 0), expects := none }

/-- How a controller is set up. -/
def settings (p : Pic) : Pic := { p with irr := fun _ => false, isr := fun _ => false }

/-- Nothing is in service. -/
def Idle (p : Pic) : Prop := ∀ n, p.isr n = false

/-- At most one line is in service. -/
def Single (p : Pic) : Prop := ∃ n < 8, ∀ m, p.isr m = true → m = n

theorem Idle.single (h : p.Idle) : p.Single :=
  ⟨0, by decide, fun m hm => absurd hm (by rw [h m]; decide)⟩

theorem Idle.offered (h : p.Idle) : p.offered = (List.range 8).find? p.requests := by
  unfold Pic.offered
  congr 1
  funext n
  have hall : ((List.range (n + 1)).all fun m => !p.isr m) = true :=
    List.all_eq_true.mpr fun m _ => by rw [h m]; rfl
  rw [hall, Bool.and_true]

theorem Idle.serve (h : p.Idle) (hn : n < 8) : (p.serve n).Single := by
  refine ⟨n, hn, fun m hm => ?_⟩
  by_contra hne
  have hsame : (p.serve n).isr m = p.isr m := Function.update_of_ne hne _ _
  rw [hsame, h m] at hm
  exact Bool.false_ne_true hm

theorem idle_congr {q : Pic} (h : q.isr = p.isr) : q.Idle ↔ p.Idle := by
  unfold Idle
  rw [h]

theorem single_congr {q : Pic} (h : q.isr = p.isr) : q.Single ↔ p.Single := by
  unfold Single
  rw [h]

theorem offered_lt (h : p.offered = some n) : n < 8 :=
  List.mem_range.mp (List.mem_of_find?_eq_some h)

/-- The end of an interrupt, if there is not more than one. -/
theorem Single.eoi (h : p.Single) : (p.command 0x20).Idle := by
  obtain ⟨n, hn, hsingle⟩ := h
  show Idle (match (List.range 8).find? p.isr with | none => p | some n => p.finish n)
  cases hfirst : (List.range 8).find? p.isr with
  | none =>
    intro m
    by_contra hm
    have hin : p.isr m = true := Bool.of_not_eq_false hm
    have hnone := List.find?_range_eq_none.mp hfirst n hn
    rw [← hsingle m hin, hin] at hnone
    exact Bool.false_ne_true hnone
  | some k =>
    have hk : k = n := hsingle k (List.find?_some hfirst)
    intro m
    show Function.update p.isr k false m = false
    by_cases hm : m = k
    · rw [hm, Function.update_self]
    · rw [Function.update_of_ne hm]
      by_contra hin
      exact hm ((hsingle m (Bool.of_not_eq_false hin)).trans hk.symm)

theorem Idle.eoi (h : p.Idle) : (p.command 0x20).Idle := h.single.eoi

theorem eoi_settings (p : Pic) : (p.command 0x20).settings = p.settings := by
  show settings (match (List.range 8).find? p.isr with | none => p | some n => p.finish n) = _
  split
  · rfl
  · rfl

theorem eoi_irr (p : Pic) : (p.command 0x20).irr = p.irr := by
  show (match (List.range 8).find? p.isr with | none => p | some n => p.finish n).irr = _
  split
  · rfl
  · rfl

end Pic

/-! ### The pair -/

/-- The first controller, and the one behind it. -/
structure Pics where
  master : Pic
  slave : Pic

namespace Pics

variable {p : Pics} {n : ℕ}

/-- Both have been told of each other. -/
def Cascaded (p : Pics) : Prop :=
  p.master.cascade.toNat.testBit 2 = true ∧ p.slave.cascade.toNat % 8 = 2

instance : Decidable p.Cascaded := inferInstanceAs (Decidable (_ ∧ _))

/-- The first controller, with what the other requests. -/
def front (p : Pics) : Pic :=
  { p.master with irr := Function.update p.master.irr 2 p.slave.offered.isSome }

/-- The lines 0 to 15; line 2 is that of the second controller. -/
def onLine (p : Pics) (line : ℕ) (f : Pic → ℕ → Pic) : Pics :=
  if line < 8 then { p with master := f p.master line }
  else { p with slave := f p.slave (line - 8) }

def requested (p : Pics) (line : ℕ) : Bool :=
  if line < 8 then p.master.requests line else p.slave.requests (line - 8)

/-- The lines by their priority. -/
def lines : List ℕ := [0, 1] ++ (List.range 8).map (8 + ·) ++ [3, 4, 5, 6, 7]

/-- The processor takes an interrupt.  If the second controller is asked too `late`, its request
    has been withdrawn. -/
def acknowledge (late : Bool) (p : Pics) : ℕ × Pics :=
  match p.front.offered with
  | none => (p.master.offset + 7, p)
  | some n =>
    if n = 2 ∧ p.Cascaded then
      match if late then none else p.slave.offered with
      | none => (p.slave.offset + 7, { p with master := p.master.serve n })
      | some m =>
        (p.slave.offset + m, { master := p.master.serve n, slave := p.slave.serve m })
    else (p.master.offset + n, { p with master := p.master.serve n })

/-- Nothing is in service. -/
def Idle (p : Pics) : Prop := p.master.Idle ∧ p.slave.Idle

/-- At most one interrupt is in service. -/
def Single (p : Pics) : Prop := p.master.Single ∧ p.slave.Single

theorem Idle.single (h : p.Idle) : p.Single := ⟨h.1.single, h.2.single⟩

/-- How the pair is set up. -/
def settings (p : Pics) : Pics := ⟨p.master.settings, p.slave.settings⟩

theorem acknowledge_settings (late : Bool) (p : Pics) :
    (p.acknowledge late).2.settings = p.settings := by
  unfold acknowledge
  split
  · rfl
  · split
    · split
      · rfl
      · rfl
    · rfl

/-- The vector belongs to one of the lines, or to the last one of a controller. -/
theorem acknowledge_vector (late : Bool) (p : Pics) :
    (∃ n < 8, (p.acknowledge late).1 = p.master.offset + n) ∨
      ∃ n < 8, (p.acknowledge late).1 = p.slave.offset + n := by
  unfold acknowledge
  split
  · exact .inl ⟨7, by decide, rfl⟩
  · rename_i n hn
    split
    · split
      · exact .inr ⟨7, by decide, rfl⟩
      · rename_i m hm
        cases late with
        | true => cases hm
        | false => exact .inr ⟨m, Pic.offered_lt hm, rfl⟩
    · exact .inl ⟨n, Pic.offered_lt hn, rfl⟩

/-- An interrupt that is taken is the only one in service if there has been none. -/
theorem Idle.acknowledge (h : p.Idle) (late : Bool) : (p.acknowledge late).2.Single := by
  unfold Pics.acknowledge
  split
  · exact h.single
  · rename_i n hn
    have hmaster := h.1.serve (Pic.offered_lt hn)
    split
    · split
      · exact ⟨hmaster, h.2.single⟩
      · rename_i m hm
        cases late with
        | true => cases hm
        | false => exact ⟨hmaster, h.2.serve (Pic.offered_lt hm)⟩
    · exact ⟨hmaster, h.2.single⟩

/-- The vector of a line. -/
def vector (p : Pics) (line : ℕ) : ℕ :=
  if line < 8 then p.master.offset + line else p.slave.offset + (line - 8)

theorem front_requests (p : Pics) {line : ℕ} (hline : line < 8) (hne : line ≠ 2) :
    p.front.requests line = p.requested line := by
  have hirr : p.front.irr line = p.master.irr line := Function.update_of_ne hne _ _
  unfold requested
  rw [if_pos hline]
  unfold Pic.requests
  rw [hirr]
  rfl

theorem front_find (p : Pics) {among : List ℕ} (hamong : ∀ line ∈ among, line < 8 ∧ line ≠ 2) :
    among.find? p.front.requests = among.find? p.requested :=
  List.find?_congr fun line hline =>
    p.front_requests (hamong line hline).1 (hamong line hline).2

theorem slave_find (h : p.Idle) :
    ((List.range 8).map (8 + ·)).find? p.requested = p.slave.offered.map (8 + ·) := by
  rw [List.find?_map, h.2.offered]
  congr 2
  funext line
  show (if 8 + line < 8 then _ else p.slave.requests (8 + line - 8)) = _
  rw [if_neg (by omega), Nat.add_sub_cancel_left]

/-- On line 2 is all that the second controller has to offer. -/
theorem front_cascade (hopen : p.master.imr.toNat.testBit 2 = false) :
    [2].find? p.front.requests = p.slave.offered.map fun _ => 2 := by
  have hrequest : p.front.requests 2 = p.slave.offered.isSome := by
    show (Function.update p.master.irr 2 p.slave.offered.isSome 2 &&
      !p.master.imr.toNat.testBit 2) = _
    rw [Function.update_self, hopen, Bool.not_false, Bool.and_true]
  rw [List.find?_singleton, hrequest]
  cases p.slave.offered with
  | none => rfl
  | some m => rfl

theorem acknowledge_spurious (hnone : p.front.offered = none) (late : Bool) :
    (p.acknowledge late).1 = p.master.offset + 7 := by
  unfold acknowledge
  rw [hnone]

theorem acknowledge_master {line : ℕ} (hline : p.front.offered = some line) (hne : line ≠ 2)
    (late : Bool) : (p.acknowledge late).1 = p.vector line := by
  unfold acknowledge
  rw [hline]
  dsimp only
  rw [if_neg fun h => hne h.1]
  exact (if_pos (Pic.offered_lt hline)).symm

theorem acknowledge_slave {m : ℕ} (hline : p.front.offered = some 2) (hc : p.Cascaded)
    (hslave : p.slave.offered = some m) : (p.acknowledge false).1 = p.vector (8 + m) := by
  unfold acknowledge
  rw [hline]
  dsimp only
  rw [if_pos ⟨rfl, hc⟩, if_neg Bool.false_ne_true, hslave]
  show p.slave.offset + m = (if 8 + m < 8 then _ else p.slave.offset + (8 + m - 8))
  rw [if_neg (by omega), Nat.add_sub_cancel_left]

/-- **What the processor takes** while nothing is in service: of all lines that are requested the
one with the highest priority. -/
theorem acknowledge_idle (h : p.Idle) (hc : p.Cascaded)
    (hopen : p.master.imr.toNat.testBit 2 = false) :
    (p.acknowledge false).1 = (lines.find? p.requested).elim (p.master.offset + 7) p.vector := by
  have hidle : p.front.Idle := h.1
  have hfront : p.front.offered = ([0, 1].find? p.requested).or
      ((p.slave.offered.map fun _ => 2).or ([3, 4, 5, 6, 7].find? p.requested)) := by
    rw [hidle.offered]
    show ([0, 1] ++ ([2] ++ [3, 4, 5, 6, 7])).find? p.front.requests = _
    rw [List.find?_append, List.find?_append, p.front_find (by decide), front_cascade hopen,
      p.front_find (by decide)]
  have hlines : lines.find? p.requested = (([0, 1].find? p.requested).or
      (p.slave.offered.map (8 + ·))).or ([3, 4, 5, 6, 7].find? p.requested) := by
    unfold lines
    rw [List.find?_append, List.find?_append, slave_find h]
  rw [hlines]
  cases hfirst : [0, 1].find? p.requested with
  | some line =>
    have hne : line ≠ 2 := fun h =>
      absurd (List.mem_of_find?_eq_some (h ▸ hfirst)) (by decide)
    rw [hfirst] at hfront
    exact acknowledge_master hfront hne false
  | none =>
    rw [hfirst] at hfront
    cases hslave : p.slave.offered with
    | some m =>
      rw [hslave] at hfront
      exact acknowledge_slave hfront hc hslave
    | none =>
      rw [hslave] at hfront
      cases hlast : [3, 4, 5, 6, 7].find? p.requested with
      | some line =>
        have hne : line ≠ 2 := fun h =>
          absurd (List.mem_of_find?_eq_some (h ▸ hlast)) (by decide)
        rw [hlast] at hfront
        exact acknowledge_master hfront hne false
      | none =>
        rw [hlast] at hfront
        exact acknowledge_spurious hfront false

/-- A change of what is requested on a line leaves the rest. -/
theorem onLine_keeps {f : Pic → ℕ → Pic} (hisr : ∀ q n, (f q n).isr = q.isr)
    (hsettings : ∀ q n, (f q n).settings = q.settings) (p : Pics) (line : ℕ) :
    (p.onLine line f).master.isr = p.master.isr ∧ (p.onLine line f).slave.isr = p.slave.isr ∧
      (p.onLine line f).settings = p.settings := by
  unfold onLine
  split
  · exact ⟨hisr _ _, rfl, congrArg (Pics.mk · p.slave.settings) (hsettings _ _)⟩
  · exact ⟨rfl, hisr _ _, congrArg (Pics.mk p.master.settings) (hsettings _ _)⟩

end Pics

end Rotary.Lib

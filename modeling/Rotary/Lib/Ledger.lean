import Mathlib.Data.List.Count
import Mathlib.Data.Set.Insert

namespace Rotary.Lib

/-!
# Ledgers

A log of what was acquired and released, over any type of resources:

* `Legal H log H'` — played from the resources `H`, the log acquires only what is not held,
  releases only what is, and leaves `H'`;
* `Once log` — in every prefix of the log each resource has been released as often as acquired,
  or once less.

A legal log that begins with nothing held is `Once`; one that also ends so releases each resource
exactly as often as it acquires it.
-/

/-- A line of a ledger. -/
inductive Entry (R : Type) where
  | acquire (r : R)
  | release (r : R)
  deriving DecidableEq, Repr

/-- The log leads from the resources `H` to the resources `H'`. -/
inductive Legal {R : Type} : Set R → List (Entry R) → Set R → Prop
  | nil (H : Set R) : Legal H [] H
  | acquire (H H' : Set R) (r : R) (log : List (Entry R)) (hr : r ∉ H)
      (hlog : Legal (insert r H) log H') : Legal H (.acquire r :: log) H'
  | release (H H' : Set R) (r : R) (log : List (Entry R)) (hr : r ∈ H)
      (hlog : Legal (H \ {r}) log H') : Legal H (.release r :: log) H'

variable {R : Type} {H H' H'' : Set R} {log log' pre : List (Entry R)} {r : R}

theorem Legal.append (h : Legal H log H') (h' : Legal H' log' H'') : Legal H (log ++ log') H'' := by
  induction h with
  | nil H => exact h'
  | acquire H H' r log hr _ ih => exact .acquire _ _ r _ hr (ih h')
  | release H H' r log hr _ ih => exact .release _ _ r _ hr (ih h')

/-- A prefix of a legal log is legal. -/
theorem Legal.of_prefix (h : Legal H log H') (hpre : pre <+: log) : ∃ G, Legal H pre G := by
  induction h generalizing pre with
  | nil H =>
    obtain rfl := List.prefix_nil.mp hpre
    exact ⟨H, .nil H⟩
  | acquire H H' r log hr _ ih =>
    cases pre with
    | nil => exact ⟨H, .nil H⟩
    | cons e pre =>
      obtain ⟨rfl, htail⟩ := List.cons_prefix_cons.mp hpre
      obtain ⟨G, hG⟩ := ih htail
      exact ⟨G, .acquire _ _ r _ hr hG⟩
  | release H H' r log hr _ ih =>
    cases pre with
    | nil => exact ⟨H, .nil H⟩
    | cons e pre =>
      obtain ⟨rfl, htail⟩ := List.cons_prefix_cons.mp hpre
      obtain ⟨G, hG⟩ := ih htail
      exact ⟨G, .release _ _ r _ hr hG⟩

variable [DecidableEq R]

/-- Each resource is released once for each time it is acquired, before it is acquired again. -/
def Once (log : List (Entry R)) : Prop :=
  ∀ pre, pre <+: log → ∀ r, pre.count (.release r) ≤ pre.count (.acquire r) ∧
    pre.count (.acquire r) ≤ pre.count (.release r) + 1

open Classical in
/-- What is acquired beyond what is released is held at the end and not at the start. -/
theorem Legal.count (h : Legal H log H') (r : R) :
    log.count (.acquire r) + (if r ∈ H then 1 else 0) =
      log.count (.release r) + (if r ∈ H' then 1 else 0) := by
  induction h with
  | nil H => rfl
  | acquire H H' q log hq _ ih =>
    rw [List.count_cons, List.count_cons]
    by_cases hrq : q = r
    · subst hrq
      simp only [Set.mem_insert, if_true, hq, if_false, beq_self_eq_true, reduceCtorEq, beq_iff_eq]
        at ih ⊢
      omega
    · have hmem : r ∈ insert q H ↔ r ∈ H := by
        simp [Set.mem_insert_iff, Ne.symm hrq]
      simp only [hmem] at ih
      simp only [beq_iff_eq, Entry.acquire.injEq, hrq, if_false, reduceCtorEq]
      omega
  | release H H' q log hq _ ih =>
    rw [List.count_cons, List.count_cons]
    by_cases hrq : q = r
    · subst hrq
      simp only [Set.mem_sdiff, Set.mem_singleton_iff, not_true_eq_false, and_false, if_false, hq,
        if_true, beq_self_eq_true, reduceCtorEq, beq_iff_eq] at ih ⊢
      omega
    · have hmem : r ∈ H \ {q} ↔ r ∈ H := by
        simp [Ne.symm hrq]
      simp only [hmem] at ih
      simp only [beq_iff_eq, Entry.release.injEq, hrq, if_false, reduceCtorEq]
      omega

/-- **A ledger that begins with nothing held** releases nothing before it is acquired, and
    acquires nothing twice. -/
theorem Legal.once (h : Legal ∅ log H') : Once log := by
  intro pre hpre r
  obtain ⟨G, hG⟩ := h.of_prefix hpre
  have hcount := hG.count r
  rw [if_neg (Set.notMem_empty r)] at hcount
  split at hcount <;> omega

/-- **A ledger that begins and ends with nothing held** is balanced. -/
theorem Legal.balanced (h : Legal ∅ log ∅) (r : R) :
    log.count (.acquire r) = log.count (.release r) := by
  have hcount := h.count r
  simpa using hcount

end Rotary.Lib

import Mathlib.Data.List.Basic

namespace Rotary.Lib

/-!
# Computations that log their reads

A `Reading` runs over an array and writes down the indices at which it reads; it may fail on the
way, and what it has read until then stays on the record.

* `Reading.read` / `Reading.lift` — a read, and a step that reads nothing;
* `Reading.Keeps` — all reads are at most at `n`, and a result satisfies `post`; the rule for a
  sequence of steps is `Keeps.bind`.
-/

/-- A computation with the indices that it has read, in order. -/
structure Reading (α : Type) where
  reads : List ℕ
  result : Option α

namespace Reading

variable {α β σ : Type}

/-- One computation after another, as far as the first one gets. -/
def andThen (m : Reading α) (f : α → Reading β) : Reading β :=
  match m.result with
  | some a => ⟨m.reads ++ (f a).reads, (f a).result⟩
  | none => ⟨m.reads, none⟩

instance : Monad Reading where
  pure a := ⟨[], some a⟩
  bind := andThen

/-- `a[i]`. -/
def read (a : List σ) (i : ℕ) : Reading σ := ⟨[i], a[i]?⟩

/-- A step that reads nothing. -/
def lift (o : Option α) : Reading α := ⟨[], o⟩

variable {m : Reading α} {f : α → Reading β} {a : α} {n i : ℕ} {post : α → Prop}
  {post' : β → Prop}

/-! ### Results and reads -/

@[simp] theorem result_pure (a : α) : (pure a : Reading α).result = some a := rfl

@[simp] theorem result_read (a : List σ) (i : ℕ) : (read a i).result = a[i]? := rfl

@[simp] theorem result_lift (o : Option α) : (lift o).result = o := rfl

/-- The results are those of `Option`. -/
theorem result_bind (m : Reading α) (f : α → Reading β) :
    (m >>= f).result = m.result.bind fun a => (f a).result := by
  show (andThen m f).result = _
  unfold andThen
  cases m.result <;> rfl

theorem reads_bind (hm : m.result = some a) : (m >>= f).reads = m.reads ++ (f a).reads := by
  show (andThen m f).reads = _
  unfold andThen
  rw [hm]

/-- The rest matters on the results only. -/
theorem bind_eq_bind {g : α → Reading β} (h : ∀ a, m.result = some a → f a = g a) :
    m >>= f = m >>= g := by
  show andThen m f = andThen m g
  unfold andThen
  cases hresult : m.result with
  | some a => simp only [h a hresult]
  | none => rfl

/-- What has been read stays on the record. -/
theorem mem_bind_reads (hi : i ∈ m.reads) : i ∈ (m >>= f).reads := by
  show i ∈ (andThen m f).reads
  unfold andThen
  cases m.result with
  | some a => exact List.mem_append_left _ hi
  | none => exact hi

/-- What the rest reads is read. -/
theorem mem_reads_bind (hm : m.result = some a) (hi : i ∈ (f a).reads) : i ∈ (m >>= f).reads := by
  rw [reads_bind hm]
  exact List.mem_append_right _ hi

/-! ### Bounds -/

/-- All reads are at most at `n`, and a result satisfies `post`. -/
structure Keeps (n : ℕ) (post : α → Prop) (m : Reading α) : Prop where
  le : ∀ i ∈ m.reads, i ≤ n
  post : ∀ a, m.result = some a → post a

theorem Keeps.pure (h : post a) : Keeps n post (pure a) :=
  ⟨List.forall_mem_nil _, fun _ hb => Option.some.inj hb ▸ h⟩

theorem Keeps.read {a : List σ} (hi : i ≤ n) : Keeps n (fun c => a[i]? = some c) (read a i) :=
  ⟨List.forall_mem_singleton.mpr hi, fun _ hc => hc⟩

theorem Keeps.lift {o : Option α} (h : ∀ a, o = some a → post a) : Keeps n post (lift o) :=
  ⟨List.forall_mem_nil _, h⟩

/-- **One after the other**: what the first one yields is what the second one may rely on. -/
theorem Keeps.bind (hm : Keeps n post m) (hf : ∀ a, post a → Keeps n post' (f a)) :
    Keeps n post' (m >>= f) := by
  constructor
  · intro i hi
    cases hresult : m.result with
    | some a =>
      rw [reads_bind hresult] at hi
      rcases List.mem_append.mp hi with hi | hi
      · exact hm.le i hi
      · exact (hf a (hm.post a hresult)).le i hi
    | none =>
      have hreads : (m >>= f).reads = m.reads := by
        show (andThen m f).reads = _
        unfold andThen
        rw [hresult]
      rw [hreads] at hi
      exact hm.le i hi
  · intro b hb
    rw [result_bind] at hb
    obtain ⟨a, ha, hb⟩ := Option.bind_eq_some_iff.mp hb
    exact (hf a (hm.post a ha)).post b hb

end Reading

end Rotary.Lib

import Mathlib.Order.Basic
import Mathlib.Logic.Relation
import Mathlib.Logic.Function.Basic
import Mathlib.Data.Nat.Init

namespace Rotary.Lib

/-!
# Spin locks

Threads share data that each of them changes in a critical section, under a flag that is taken by
testing and setting it in a loop.  The steps of the threads come in any order.

* `Section` — a critical section as single steps; `Section.Ends` is a whole run of it;
* `LockStep` — the threads and the flag, with the calls in the order in which they took the lock;
* `lockRun_inv` — at most one thread is inside, and the shared data are those of the calls one
  after the other, with what the thread inside has done so far;
* `SeqSpec` / `lockRun_meets` — if the section meets a specification of single calls, then so do
  all interleavings: nobody is stuck inside, and every result is that of the calls in order.
-/

/-! ### Critical sections -/

/-- A critical section on shared data of type `σ`: where it starts for a request, and how a step
    goes on or ends with a result.  A step that fails is `none`. -/
structure Section (σ α l ρ : Type*) where
  start : α → l
  micro : l → σ → Option (σ × (l ⊕ ρ))

variable {σ α l ρ τ A : Type*}

namespace Section

variable {S : Section σ α l ρ} {x y z : l} {s s' s'' : σ} {r r' : ρ}

/-- A run of the section from one point to another. -/
inductive Reaches (S : Section σ α l ρ) : l → σ → l → σ → Prop
  | refl (x : l) (s : σ) : Reaches S x s x s
  | step {x y z : l} {s s' s'' : σ} (hstep : S.micro x s = some (s', .inl y))
      (hrest : Reaches S y s' z s'') : Reaches S x s z s''

/-- A run of the section to its end, with the result and the data that it leaves. -/
inductive Ends (S : Section σ α l ρ) : l → σ → ρ → σ → Prop
  | stop {x : l} {s s' : σ} {r : ρ} (hstop : S.micro x s = some (s', .inr r)) : Ends S x s r s'
  | step {x y : l} {s s' s'' : σ} {r : ρ} (hstep : S.micro x s = some (s', .inl y))
      (hrest : Ends S y s' r s'') : Ends S x s r s''

theorem Reaches.trans (h : S.Reaches x s y s') (h' : S.Reaches y s' z s'') :
    S.Reaches x s z s'' := by
  induction h with
  | refl _ _ => exact h'
  | step hstep _ ih => exact .step hstep (ih h')

theorem Reaches.ends (h : S.Reaches x s y s') (h' : S.Ends y s' r s'') : S.Ends x s r s'' := by
  induction h with
  | refl _ _ => exact h'
  | step hstep _ ih => exact .step hstep (ih h')

/-- What is left of a run after some of its steps. -/
theorem Ends.rest (h : S.Ends x s r s'') (h' : S.Reaches x s y s') : S.Ends y s' r s'' := by
  induction h' with
  | refl _ _ => exact h
  | step hstep _ ih =>
    cases h with
    | stop hstop => simp [hstep] at hstop
    | step hstep' hrest =>
      have hsame := Option.some.inj (hstep.symm.trans hstep')
      obtain ⟨rfl, hpoint⟩ := Prod.mk.inj hsame
      obtain rfl := Sum.inl.inj hpoint
      exact ih hrest

/-- Two runs from one point end alike. -/
theorem Ends.unique (h : S.Ends x s r s') (h' : S.Ends x s r' s'') : r = r' ∧ s' = s'' := by
  induction h with
  | stop hstop =>
    cases h' with
    | stop hstop' =>
      have hsame := Option.some.inj (hstop.symm.trans hstop')
      obtain ⟨rfl, hresult⟩ := Prod.mk.inj hsame
      exact ⟨Sum.inr.inj hresult, rfl⟩
    | step hstep' _ => simp [hstop] at hstep'
  | step hstep _ ih => exact ih (h'.rest (.step hstep (.refl _ _)))

/-- An outline of the section for one call: what holds at each of its points, with a bound on the
    steps that are left, and what holds of the result at its end. -/
def Outlined (S : Section σ α l ρ) (At : l → σ → ℕ → Prop) (Q : ρ → σ → Prop) : Prop :=
  ∀ x s n, At x s n →
    (∃ x' s' m, S.micro x s = some (s', .inl x') ∧ At x' s' m ∧ m < n) ∨
      ∃ r s', S.micro x s = some (s', .inr r) ∧ Q r s'

variable {At : l → σ → ℕ → Prop} {Q : ρ → σ → Prop}

theorem Outlined.ends (h : S.Outlined At Q) {n : ℕ} (hat : At x s n) :
    ∃ r s', S.Ends x s r s' ∧ Q r s' := by
  induction n using Nat.strong_induction_on generalizing x s with
  | _ n ih =>
    rcases h x s n hat with ⟨x', s', m, hstep, hat', hlt⟩ | ⟨r, s', hstop, hq⟩
    · obtain ⟨r, s'', hends, hq⟩ := ih m hlt hat'
      exact ⟨r, s'', .step hstep hends, hq⟩
    · exact ⟨r, s', .stop hstop, hq⟩

theorem Outlined.reaches (h : S.Outlined At Q) {n : ℕ} (hat : At x s n)
    (hreach : S.Reaches x s y s') : ∃ m, At y s' m := by
  induction hreach generalizing n with
  | refl _ _ => exact ⟨n, hat⟩
  | step hstep _ ih =>
    rcases h _ _ n hat with ⟨x', s', m, hstep', hat', -⟩ | ⟨r, s', hstop, -⟩
    · have hsame := Option.some.inj (hstep.symm.trans hstep')
      obtain ⟨rfl, hpoint⟩ := Prod.mk.inj hsame
      obtain rfl := Sum.inl.inj hpoint
      exact ih hat'
    · simp [hstep] at hstop

end Section

/-! ### Specifications of single calls -/

/-- What single calls do to an abstract state and return, and which of them are allowed. -/
structure SeqSpec (A α ρ : Type*) where
  after : A → α → A
  answer : A → α → ρ
  Allows : A → α → Prop

namespace SeqSpec

variable (P : SeqSpec A α ρ)

/-- The abstract state after some calls. -/
def afterAll (a : A) (calls : List (τ × α)) : A := calls.foldl (fun a c => P.after a c.2) a

/-- The calls with their results. -/
def answered : A → List (τ × α) → List (τ × α × ρ)
  | _, [] => []
  | a, (t, c) :: calls => (t, c, P.answer a c) :: answered (P.after a c) calls

/-- Every call is allowed where it is made. -/
def AllowsAll : A → List (τ × α) → Prop
  | _, [] => True
  | a, (_, c) :: calls => P.Allows a c ∧ AllowsAll (P.after a c) calls

variable {P} {a : A} {calls : List (τ × α)} {t : τ} {c : α}

theorem afterAll_concat : P.afterAll a (calls ++ [(t, c)]) = P.after (P.afterAll a calls) c := by
  simp [afterAll]

theorem answered_concat : P.answered a (calls ++ [(t, c)]) =
    P.answered a calls ++ [(t, c, P.answer (P.afterAll a calls) c)] := by
  induction calls generalizing a with
  | nil => rfl
  | cons c' calls ih => exact congrArg (_ :: ·) ih

theorem allowsAll_concat : P.AllowsAll a (calls ++ [(t, c)]) ↔
    P.AllowsAll a calls ∧ P.Allows (P.afterAll a calls) c := by
  induction calls generalizing a with
  | nil => exact ⟨fun h => ⟨trivial, h.1⟩, fun h => ⟨h.2, trivial⟩⟩
  | cons c' calls ih => exact (and_congr_right fun _ => ih).trans and_assoc.symm

theorem AllowsAll.shorter {pre : List (τ × α)} (h : P.AllowsAll a calls) (hpre : pre <+: calls) :
    P.AllowsAll a pre := by
  obtain ⟨post, rfl⟩ := hpre
  induction pre generalizing a with
  | nil => exact trivial
  | cons c pre ih => exact ⟨h.1, ih h.2⟩

end SeqSpec

/-- The section meets the specification of single calls, on data that represent an abstract
    state. -/
def Section.Meets (S : Section σ α l ρ) (Rep : σ → A → Prop) (P : SeqSpec A α ρ) : Prop :=
  ∀ s a c, Rep s a → P.Allows a c →
    ∃ s', S.Ends (S.start c) s (P.answer a c) s' ∧ Rep s' (P.after a c)

/-! ### Threads and the flag -/

/-- Where a thread is: outside, at the test of the flag, inside the section, or behind it with the
    lock still to be given back. -/
inductive Phase (α l ρ : Type*)
  | outside
  | spinning (a : α)
  | inside (a : α) (x : l)
  | leaving (a : α) (r : ρ)

/-- Who is at a point where the lock is held. -/
def Phase.HoldsLock : Phase α l ρ → Prop
  | .outside => False
  | .spinning _ => False
  | .inside _ _ => True
  | .leaving _ _ => True

/-- The flag, the shared data and the threads.  `taken` are the calls in the order in which they
    took the lock, `done` those that gave it back, with their results. -/
structure Locked (τ σ α l ρ : Type*) where
  flag : Bool
  shared : σ
  phase : τ → Phase α l ρ
  taken : List (τ × α)
  done : List (τ × α × ρ)

/-- Nobody has made a call. -/
structure Locked.Fresh (y : Locked τ σ α l ρ) : Prop where
  flag : y.flag = false
  phase : ∀ t, y.phase t = .outside
  taken : y.taken = []
  done : y.done = []

/-- A step of a thread. -/
inductive LockStep [DecidableEq τ] (S : Section σ α l ρ) (y : Locked τ σ α l ρ) :
    Locked τ σ α l ρ → Prop
  | call (t : τ) (a : α) (hout : y.phase t = .outside) :
      LockStep S y { y with phase := Function.update y.phase t (.spinning a) }
  /-- The flag is found set, and it is set. -/
  | spin (t : τ) (a : α) (hspin : y.phase t = .spinning a) (hflag : y.flag = true) :
      LockStep S y { y with flag := true }
  /-- The flag is found clear, and it is set. -/
  | take (t : τ) (a : α) (hspin : y.phase t = .spinning a) (hflag : y.flag = false) :
      LockStep S y { y with
        flag := true
        phase := Function.update y.phase t (.inside a (S.start a))
        taken := y.taken ++ [(t, a)] }
  | goOn (t : τ) (a : α) (x x' : l) (s' : σ) (hin : y.phase t = .inside a x)
      (hmicro : S.micro x y.shared = some (s', .inl x')) :
      LockStep S y { y with
        shared := s'
        phase := Function.update y.phase t (.inside a x') }
  | finish (t : τ) (a : α) (x : l) (r : ρ) (s' : σ) (hin : y.phase t = .inside a x)
      (hmicro : S.micro x y.shared = some (s', .inr r)) :
      LockStep S y { y with
        shared := s'
        phase := Function.update y.phase t (.leaving a r) }
  | unlock (t : τ) (a : α) (r : ρ) (hleave : y.phase t = .leaving a r) :
      LockStep S y { y with
        flag := false
        phase := Function.update y.phase t .outside
        done := y.done ++ [(t, a, r)] }

/-! ### One call after the other -/

/-- Calls that run one after the other, with their results and the data that they leave. -/
inductive Serial (S : Section σ α l ρ) (s₀ : σ) : List (τ × α × ρ) → σ → Prop
  | nil : Serial S s₀ [] s₀
  | call {done : List (τ × α × ρ)} {s s' : σ} (t : τ) (a : α) (r : ρ) (hdone : Serial S s₀ done s)
      (hends : S.Ends (S.start a) s r s') : Serial S s₀ (done ++ [(t, a, r)]) s'

/-- A thread that came in at `s` has brought the data to `s'`. -/
def Phase.Worked (S : Section σ α l ρ) (s s' : σ) : Phase α l ρ → α → Prop
  | .inside a x, b => a = b ∧ S.Reaches (S.start a) s x s'
  | .leaving a r, b => a = b ∧ S.Ends (S.start a) s r s'
  | _, _ => False

/-- The request of a call that is done. -/
def requestOf (c : τ × α × ρ) : τ × α := (c.1, c.2.1)

/-- The lock is free and the calls are done, or one thread holds it. -/
inductive Locked.Inv (S : Section σ α l ρ) (s₀ : σ) (y : Locked τ σ α l ρ) : Prop
  | free (hflag : y.flag = false) (hnone : ∀ t, ¬ (y.phase t).HoldsLock)
      (htaken : y.taken = y.done.map requestOf) (hserial : Serial S s₀ y.done y.shared)
  | held (t : τ) (a : α) (s : σ) (hflag : y.flag = true)
      (hone : ∀ t', (y.phase t').HoldsLock → t' = t)
      (htaken : y.taken = y.done.map requestOf ++ [(t, a)]) (hserial : Serial S s₀ y.done s)
      (hworked : (y.phase t).Worked S s y.shared a)

variable {S : Section σ α l ρ} {s₀ : σ} {y y' : Locked τ σ α l ρ}

theorem Locked.Fresh.inv (h : y.Fresh) : y.Inv S y.shared := by
  refine .free h.flag (fun t => ?_) ?_ ?_
  · rw [h.phase t]
    exact id
  · rw [h.taken, h.done]
    rfl
  · rw [h.done]
    exact .nil

/-- The thread that holds the lock, in a state where one does. -/
theorem Locked.Inv.of_holds (h : y.Inv S s₀) {t : τ} (ht : (y.phase t).HoldsLock) :
    ∃ a s, y.flag = true ∧ (∀ t', (y.phase t').HoldsLock → t' = t) ∧
      y.taken = y.done.map requestOf ++ [(t, a)] ∧ Serial S s₀ y.done s ∧
      (y.phase t).Worked S s y.shared a := by
  cases h with
  | free _ hnone _ _ => exact absurd ht (hnone t)
  | held t₁ a s hflag hone htaken hserial hworked =>
    obtain rfl := hone t ht
    exact ⟨a, s, hflag, hone, htaken, hserial, hworked⟩

/-- **Mutual exclusion.** -/
theorem Locked.Inv.exclusive (h : y.Inv S s₀) {t t' : τ} (ht : (y.phase t).HoldsLock)
    (ht' : (y.phase t').HoldsLock) : t = t' := by
  obtain ⟨_, _, _, hone, _⟩ := h.of_holds ht'
  exact hone t ht

variable {Rep : σ → A → Prop} {P : SeqSpec A α ρ} {a₀ : A}

/-- Calls one after the other do what the specification says. -/
theorem Serial.meets (hS : S.Meets Rep P) (hrep : Rep s₀ a₀) {done : List (τ × α × ρ)} {s : σ}
    (h : Serial S s₀ done s) (hallow : P.AllowsAll a₀ (done.map requestOf)) :
    Rep s (P.afterAll a₀ (done.map requestOf)) ∧ done = P.answered a₀ (done.map requestOf) := by
  induction h with
  | nil => exact ⟨hrep, rfl⟩
  | @call done s s' t a r _ hends ih =>
    have hmap : (done ++ [(t, a, r)]).map requestOf = done.map requestOf ++ [(t, a)] := by
      rw [List.map_append]
      rfl
    rw [hmap] at hallow ⊢
    obtain ⟨hallowed, hlast⟩ := SeqSpec.allowsAll_concat.mp hallow
    obtain ⟨hrep', hdone⟩ := ih hallowed
    obtain ⟨s₁, hends₁, hrep₁⟩ := hS _ _ _ hrep' hlast
    obtain ⟨rfl, rfl⟩ := hends.unique hends₁
    rw [SeqSpec.afterAll_concat, SeqSpec.answered_concat, ← hdone]
    exact ⟨hrep₁, rfl⟩

/-- The state of the threads as the specification sees it.  The results are those of the calls in
    the order in which they took the lock; when the lock is free, the data represent the state
    after all of them; and a thread that is inside comes to its end, with its result. -/
structure Locked.Meets (S : Section σ α l ρ) (Rep : σ → A → Prop) (P : SeqSpec A α ρ) (a₀ : A)
    (y : Locked τ σ α l ρ) : Prop where
  exclusive : ∀ t t', (y.phase t).HoldsLock → (y.phase t').HoldsLock → t = t'
  results : y.done <+: P.answered a₀ y.taken
  free : y.flag = false →
    y.done = P.answered a₀ y.taken ∧ Rep y.shared (P.afterAll a₀ y.taken)
  inside : ∀ t a x, y.phase t = .inside a x →
    ∃ r s', S.Ends x y.shared r s' ∧ P.answered a₀ y.taken = y.done ++ [(t, a, r)] ∧
      Rep s' (P.afterAll a₀ y.taken)

/-- A thread inside has come from data that represent what the calls before it have left. -/
theorem Locked.Inv.inside (h : y.Inv S s₀) (hS : S.Meets Rep P) (hrep : Rep s₀ a₀)
    (hallow : P.AllowsAll a₀ y.taken) {t : τ} {a : α} {x : l} (hin : y.phase t = .inside a x) :
    ∃ s, S.Reaches (S.start a) s x y.shared ∧ y.taken = y.done.map requestOf ++ [(t, a)] ∧
      y.done = P.answered a₀ (y.done.map requestOf) ∧
      Rep s (P.afterAll a₀ (y.done.map requestOf)) ∧
      P.Allows (P.afterAll a₀ (y.done.map requestOf)) a := by
  have ht : (y.phase t).HoldsLock := by
    rw [hin]
    exact trivial
  obtain ⟨b, s, -, -, htaken, hserial, hworked⟩ := h.of_holds ht
  rw [hin] at hworked
  obtain ⟨rfl, hreached⟩ := hworked
  rw [htaken] at hallow
  obtain ⟨hallowed, hlast⟩ := SeqSpec.allowsAll_concat.mp hallow
  obtain ⟨hs, hdone⟩ := hserial.meets hS hrep hallowed
  exact ⟨s, hreached, htaken, hdone, hs, hlast⟩

/-- The data represent what the calls have left, unless a thread is inside. -/
theorem Locked.Inv.shared_or_inside (h : y.Inv S s₀) (hS : S.Meets Rep P) (hrep : Rep s₀ a₀)
    (hallow : P.AllowsAll a₀ y.taken) :
    Rep y.shared (P.afterAll a₀ y.taken) ∨ ∃ t a x, y.phase t = .inside a x := by
  cases h with
  | free _ _ htaken hserial =>
    rw [htaken] at hallow ⊢
    exact Or.inl (hserial.meets hS hrep hallow).1
  | held t a s _ _ htaken hserial hworked =>
    cases hphase : y.phase t with
    | outside =>
      rw [hphase] at hworked
      exact hworked.elim
    | spinning _ =>
      rw [hphase] at hworked
      exact hworked.elim
    | inside b x => exact Or.inr ⟨t, b, x, hphase⟩
    | leaving b r =>
      rw [hphase] at hworked
      obtain ⟨rfl, hends⟩ := hworked
      rw [htaken] at hallow ⊢
      obtain ⟨hallowed, hlast⟩ := SeqSpec.allowsAll_concat.mp hallow
      obtain ⟨s', hends', hrep'⟩ := hS _ _ _ (hserial.meets hS hrep hallowed).1 hlast
      rw [SeqSpec.afterAll_concat, (hends.unique hends').2]
      exact Or.inl hrep'

theorem Locked.Inv.meets (h : y.Inv S s₀) (hS : S.Meets Rep P) (hrep : Rep s₀ a₀)
    (hallow : P.AllowsAll a₀ y.taken) : y.Meets S Rep P a₀ := by
  refine ⟨fun t t' ht ht' => h.exclusive ht ht', ?_, fun hclear => ?_, fun t a x hin => ?_⟩
  · cases h with
    | free _ _ htaken hserial =>
      rw [htaken] at hallow ⊢
      exact (hserial.meets hS hrep hallow).2 ▸ List.prefix_rfl
    | held t a s _ _ htaken hserial _ =>
      rw [htaken] at hallow ⊢
      rw [SeqSpec.answered_concat,
        ← (hserial.meets hS hrep (SeqSpec.allowsAll_concat.mp hallow).1).2]
      exact List.prefix_append _ _
  · cases h with
    | free _ _ htaken hserial =>
      rw [htaken] at hallow ⊢
      exact (hserial.meets hS hrep hallow).symm
    | held _ _ _ hflag _ _ _ _ => simp [hflag] at hclear
  · -- the section can only end as the specification says
    obtain ⟨s, hreached, htaken, hdone, hs, hlast⟩ := h.inside hS hrep hallow hin
    obtain ⟨s', hends, hrep'⟩ := hS _ _ _ hs hlast
    refine ⟨_, s', hends.rest hreached, ?_, ?_⟩
    · rw [htaken, SeqSpec.answered_concat, ← hdone]
    · rw [htaken, SeqSpec.afterAll_concat]
      exact hrep'

/-! ### Interleavings -/

variable [DecidableEq τ]

/-- The other threads hold the lock as before. -/
theorem holdsLock_update {phase : τ → Phase α l ρ} {t t' : τ} {p : Phase α l ρ}
    (h : (Function.update phase t p t').HoldsLock) (hp : ¬ p.HoldsLock ∨ (phase t).HoldsLock) :
    (phase t').HoldsLock := by
  by_cases ht : t' = t
  · rw [ht, Function.update_self] at h
    rw [ht]
    exact hp.resolve_left fun hnot => hnot h
  · rwa [Function.update_of_ne ht] at h

theorem LockStep.inv (hstep : LockStep S y y') (h : y.Inv S s₀) : y'.Inv S s₀ := by
  cases hstep with
  | call t a hout =>
    -- the thread held no lock, and it still does not
    cases h with
    | free hflag hnone htaken hserial =>
      exact .free hflag (fun t' ht' => hnone t' (holdsLock_update ht' (Or.inl id))) htaken hserial
    | held t₁ b s hflag hone htaken hserial hworked =>
      have hne : t₁ ≠ t := by
        rintro rfl
        rw [hout] at hworked
        exact hworked
      refine .held t₁ b s hflag (fun t' ht' => hone t' (holdsLock_update ht' (Or.inl id))) htaken
        hserial ?_
      show (Function.update y.phase t (.spinning a) t₁).Worked S s y.shared b
      rwa [Function.update_of_ne hne]
  | spin t a hspin hflag =>
    cases h with
    | free hclear _ _ _ => simp [hflag] at hclear
    | held t₁ b s hset hone htaken hserial hworked =>
      exact .held t₁ b s rfl hone htaken hserial hworked
  | take t a hspin hflag =>
    cases h with
    | held t₁ b s hset _ _ _ _ => simp [hflag] at hset
    | free hclear hnone htaken hserial =>
      refine .held t a y.shared rfl (fun t' ht' => ?_) (congrArg (· ++ [(t, a)]) htaken) hserial ?_
      · by_contra hne
        simp only [Function.update_of_ne hne] at ht'
        exact hnone t' ht'
      · show (Function.update y.phase t (.inside a (S.start a)) t).Worked S y.shared y.shared a
        rw [Function.update_self]
        exact ⟨rfl, .refl _ _⟩
  | goOn t a x x' s' hin hmicro =>
    have ht : (y.phase t).HoldsLock := by
      rw [hin]
      exact trivial
    obtain ⟨b, s, hflag, hone, htaken, hserial, hworked⟩ := h.of_holds ht
    rw [hin] at hworked
    refine .held t b s hflag (fun t' ht' => hone t' (holdsLock_update ht' (Or.inr ht))) htaken
      hserial ?_
    show (Function.update y.phase t (.inside a x') t).Worked S s s' b
    rw [Function.update_self]
    exact ⟨hworked.1, hworked.2.trans (.step hmicro (.refl _ _))⟩
  | finish t a x r s' hin hmicro =>
    have ht : (y.phase t).HoldsLock := by
      rw [hin]
      exact trivial
    obtain ⟨b, s, hflag, hone, htaken, hserial, hworked⟩ := h.of_holds ht
    rw [hin] at hworked
    refine .held t b s hflag (fun t' ht' => hone t' (holdsLock_update ht' (Or.inr ht))) htaken
      hserial ?_
    show (Function.update y.phase t (.leaving a r) t).Worked S s s' b
    rw [Function.update_self]
    exact ⟨hworked.1, hworked.2.ends (.stop hmicro)⟩
  | unlock t a r hleave =>
    have ht : (y.phase t).HoldsLock := by
      rw [hleave]
      exact trivial
    obtain ⟨b, s, hflag, hone, htaken, hserial, hworked⟩ := h.of_holds ht
    rw [hleave] at hworked
    obtain ⟨rfl, hends⟩ := hworked
    refine .free rfl (fun t' ht' => ?_) ?_ (.call t a r hserial hends)
    · have hsame := hone t' (holdsLock_update ht' (Or.inl id))
      simp only [hsame, Function.update_self] at ht'
      exact ht'
    · show y.taken = (y.done ++ [(t, a, r)]).map requestOf
      rw [htaken, List.map_append]
      rfl

/-- Calls that have taken the lock are not forgotten. -/
theorem lockRun_taken (hrun : Relation.ReflTransGen (LockStep S) y y') : y.taken <+: y'.taken := by
  induction hrun with
  | refl => exact List.prefix_rfl
  | tail _ hstep ih =>
    cases hstep with
    | take t a _ _ => exact ih.trans (List.prefix_append _ _)
    | call _ _ _ => exact ih
    | spin _ _ _ _ => exact ih
    | goOn _ _ _ _ _ _ _ => exact ih
    | finish _ _ _ _ _ _ _ => exact ih
    | unlock _ _ _ _ => exact ih

/-- **The run lemma**: the invariant holds in every state that the threads reach. -/
theorem lockRun_inv {y₀ : Locked τ σ α l ρ} (hfresh : y₀.Fresh)
    (hrun : Relation.ReflTransGen (LockStep S) y₀ y) : y.Inv S y₀.shared := by
  induction hrun with
  | refl => exact hfresh.inv
  | tail _ hstep ih => exact hstep.inv ih

/-- **Interleavings meet the specification of single calls**, if those are allowed in the order in
    which they take the lock. -/
theorem lockRun_meets (hS : S.Meets Rep P) {y₀ : Locked τ σ α l ρ} (hfresh : y₀.Fresh)
    (hrep : Rep y₀.shared a₀) (hrun : Relation.ReflTransGen (LockStep S) y₀ y)
    (hallow : P.AllowsAll a₀ y.taken) : y.Meets S Rep P a₀ :=
  (lockRun_inv hfresh hrun).meets hS hrep hallow

end Rotary.Lib

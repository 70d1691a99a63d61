import Rotary.Lib.Ring
import Mathlib.Logic.Relation
import Mathlib.Logic.Function.Basic

namespace Rotary.Lib

/-!
# Traversals of a chain that others change

A reader follows the `next` words of a circular chain from its head until it is back there.  It
takes no lock: between two of its steps others may store into the words.  Each of their stores
takes a node out of the chain (`unlink`), points a node that is not in the chain at the first one
(`prepare`), or makes such a node the first one (`publish`).

* `Passes` / `OnChain` — what is ahead of a node, and what the chain consists of;
* `ChainStore` — the stores; `ChainStore.passes` is what they leave ahead of every node, and
  `ChainStore.word` where the words point behind them;
* `Ring.onChain_iff` — the chain of a ring;
* `Traversal` — the reader among the others;
* `traversal_sound` / `traversal_complete` — it visits only what was in the chain at some time
  since it began, and all that is in the chain all the time.
-/

variable {ν : Type} {Y : Type*}

/-! ### Chains -/

/-- The traversal goes on from `a` to `b`: only the head ends it. -/
def Ahead (next : ν → Option ν) (head a b : ν) : Prop := a ≠ head ∧ next a = some b

/-- From `a`, the traversal comes past `b`. -/
def Passes (next : ν → Option ν) (head : ν) : ν → ν → Prop :=
  Relation.ReflTransGen (Ahead next head)

/-- What the traversal from the head comes past; the head itself if it comes back. -/
def OnChain (next : ν → Option ν) (head c : ν) : Prop :=
  ∃ first, next head = some first ∧ Passes next head first c

section Chain

variable {next : ν → Option ν} {head a b c d v p : ν}

/-- Nothing is ahead of the head. -/
theorem Passes.of_head (h : Passes next head head c) : c = head := by
  rcases Relation.ReflTransGen.cases_head h with heq | ⟨_, hahead, _⟩
  · exact heq.symm
  · exact absurd rfl hahead.1

/-- Behind the node in hand comes what its word points at. -/
theorem Passes.rest (h : Passes next head a c) (hne : a ≠ c) (hnext : next a = some b) :
    Passes next head b c := by
  rcases Relation.ReflTransGen.cases_head h with heq | ⟨d, hahead, hrest⟩
  · exact absurd heq hne
  · obtain rfl := Option.some.inj (hnext.symm.trans hahead.2)
    exact hrest

theorem OnChain.behind (h : OnChain next head a) (hnext : next a = some b) :
    OnChain next head b := by
  obtain ⟨first, hfirst, hpasses⟩ := h
  by_cases hhead : a = head
  · subst hhead
    obtain rfl := Option.some.inj (hfirst.symm.trans hnext)
    exact ⟨first, hfirst, .refl⟩
  · exact ⟨first, hfirst, hpasses.tail ⟨hhead, hnext⟩⟩

/-- Whatever holds of the head and goes on from node to node holds on the chain. -/
theorem OnChain.induction {motive : ν → Prop} (h : OnChain next head c) (hhead : motive head)
    (hstep : ∀ a b, motive a → next a = some b → motive b) : motive c := by
  obtain ⟨first, hfirst, hpasses⟩ := h
  induction hpasses with
  | refl => exact hstep head first hhead hfirst
  | tail _ hahead ih => exact hstep _ _ ih hahead.2

/-- From every node of the chain the traversal comes to the head, if it does from the first. -/
theorem OnChain.passes_head (h : OnChain next head c) (hc : OnChain next head head) :
    Passes next head c head := by
  obtain ⟨first, hfirst, hpasses⟩ := h
  obtain ⟨first', hfirst', hback⟩ := hc
  obtain rfl := Option.some.inj (hfirst.symm.trans hfirst')
  have hunique : Relator.RightUnique (Ahead next head) := fun _ _ _ hb hb' =>
    Option.some.inj (hb.2.symm.trans hb'.2)
  rcases Relation.ReflTransGen.total_of_right_unique hunique hpasses hback with h | h
  · exact h
  · rw [Passes.of_head h]
    exact .refl

/-! ### Stores -/

variable [DecidableEq ν]

/-- A store that keeps the chain together for traversals. -/
inductive ChainStore (head : ν) (next : ν → Option ν) : (ν → Option ν) → Prop
  | keep : ChainStore head next next
  /-- `p` gets past the node `d` behind it, which leaves the chain. -/
  | unlink (p d v : ν) (hon : OnChain next head p) (hp : next p = some d) (hd : next d = some v)
      (hhead : d ≠ head) (hne : d ≠ p)
      (hout : ¬ OnChain (Function.update next p (some v)) head d) :
      ChainStore head next (Function.update next p (some v))
  /-- `p`, which is not in the chain, points at its first node. -/
  | prepare (p v : ν) (hoff : ¬ OnChain next head p) (hhead : p ≠ head)
      (hfirst : next head = some v) : ChainStore head next (Function.update next p (some v))
  /-- `p`, which points at the first node, becomes the first one. -/
  | publish (p : ν) (hp : next p = next head) (hne : p ≠ head) :
      ChainStore head next (Function.update next head (some p))

/-- A word that is not stored into. -/
theorem Ahead.of_ne (h : Ahead next head a b) (hne : a ≠ p) :
    Ahead (Function.update next p (some v)) head a b :=
  ⟨h.1, (Function.update_of_ne hne _ _).trans h.2⟩

/-- A store into a word that is not in the chain leaves what is ahead of its nodes. -/
theorem Passes.of_off (h : Passes next head a c) (ha : OnChain next head a)
    (hoff : ¬ OnChain next head p) : Passes (Function.update next p (some v)) head a c := by
  induction h using Relation.ReflTransGen.head_induction_on with
  | refl => exact .refl
  | head hahead _ ih =>
    have hne : _ ≠ p := fun heq => hoff (heq ▸ ha)
    exact .head (hahead.of_ne hne) (ih (ha.behind hahead.2))

variable {next' : ν → Option ν}

/-- **What is ahead stays ahead**, as long as it stays in the chain; the head always does. -/
theorem ChainStore.passes (h : ChainStore head next next') (hpasses : Passes next head a c)
    (hon : OnChain next head c) (hon' : c = head ∨ OnChain next' head c) :
    Passes next' head a c := by
  cases h with
  | keep => exact hpasses
  | unlink p d v hp₀ hp hd hhead hne hout =>
    have hdc : d ≠ c := by
      rintro rfl
      exact hon'.elim hhead hout
    induction hpasses using Relation.ReflTransGen.head_induction_on with
    | refl => exact .refl
    | @head a b hahead _ ih =>
      by_cases hap : a = p
      · -- the way leads past `d`, and `p` now takes it without `d`
        subst hap
        obtain rfl := Option.some.inj (hp.symm.trans hahead.2)
        have hrest := ih.rest hdc ((Function.update_of_ne hne _ _).trans hd)
        exact .head ⟨hahead.1, Function.update_self _ _ _⟩ hrest
      · exact .head (hahead.of_ne hap) ih
  | prepare p v hoff hhead hfirst =>
    -- from the first node on, no word has changed
    have hrest : Passes (Function.update next p (some v)) head v c := by
      obtain ⟨first, hfirst', hrest⟩ := hon
      obtain rfl := Option.some.inj (hfirst'.symm.trans hfirst)
      exact hrest.of_off ⟨first, hfirst, .refl⟩ hoff
    induction hpasses using Relation.ReflTransGen.head_induction_on with
    | refl => exact .refl
    | @head a b hahead _ ih =>
      by_cases hap : a = p
      · exact .head ⟨hahead.1, hap ▸ Function.update_self _ _ _⟩ hrest
      · exact .head (hahead.of_ne hap) ih
  | publish p hp hne =>
    induction hpasses using Relation.ReflTransGen.head_induction_on with
    | refl => exact .refl
    | head hahead _ ih => exact .head (hahead.of_ne hahead.1) ih

/-- The chain still comes back to the head. -/
theorem ChainStore.circular (h : ChainStore head next next') (hc : OnChain next head head) :
    OnChain next' head head := by
  obtain ⟨first, hfirst, hback⟩ := id hc
  have hback' : Passes next' head first head := h.passes hback hc (Or.inl rfl)
  cases h with
  | keep => exact hc
  | unlink p d v hp₀ hp hd hhead hne hout =>
    by_cases hph : p = head
    · subst hph
      obtain rfl := Option.some.inj (hp.symm.trans hfirst)
      exact ⟨v, Function.update_self _ _ _,
        hback'.rest hhead ((Function.update_of_ne hne _ _).trans hd)⟩
    · exact ⟨first, (Function.update_of_ne (Ne.symm hph) _ _).trans hfirst, hback'⟩
  | prepare p v hoff hhead _ =>
    exact ⟨first, (Function.update_of_ne hhead.symm _ _).trans hfirst, hback'⟩
  | publish p hp hne =>
    have hnext : Function.update next head (some p) p = some first :=
      (Function.update_of_ne hne _ _).trans (hp.trans hfirst)
    exact ⟨p, Function.update_self _ _ _, .head ⟨hne, hnext⟩ hback'⟩

theorem update_eq_some (h : Function.update next p (some v) c = some d) :
    c = p ∧ d = v ∨ next c = some d := by
  by_cases hcp : c = p
  · rw [hcp, Function.update_self] at h
    exact Or.inl ⟨hcp, (Option.some.inj h).symm⟩
  · rw [Function.update_of_ne hcp] at h
    exact Or.inr h

/-- Behind a store every word points where it did or into the chain. -/
theorem ChainStore.word (h : ChainStore head next next') (hstep : next' c = some d) :
    next c = some d ∨ OnChain next head d ∨ OnChain next' head d := by
  cases h with
  | keep => exact Or.inl hstep
  | unlink p e v hon hp he _ _ _ =>
    rcases update_eq_some hstep with ⟨-, rfl⟩ | hsame
    · exact Or.inr (Or.inl ((hon.behind hp).behind he))
    · exact Or.inl hsame
  | prepare p v _ _ hfirst =>
    rcases update_eq_some hstep with ⟨-, rfl⟩ | hsame
    · exact Or.inr (Or.inl ⟨d, hfirst, .refl⟩)
    · exact Or.inl hsame
  | publish p _ _ =>
    rcases update_eq_some hstep with ⟨rfl, rfl⟩ | hsame
    · exact Or.inr (Or.inr ⟨d, hstep, .refl⟩)
    · exact Or.inl hsame

end Chain

/-! ### Rings -/

/-- The `next` words of a node heap. -/
def nextWords (h : NodeHeap ν) (c : ν) : Option ν := (h c).next

section Rings

variable {h : NodeHeap ν} {head c : ν} {xs : List ν}

/-- The chain of a ring is the ring. -/
theorem Ring.onChain_iff (hr : Ring h head xs) :
    OnChain (nextWords h) head c ↔ c ∈ head :: xs := by
  have hon : ∀ pre x post, xs = pre ++ x :: post → OnChain (nextWords h) head x := by
    intro pre
    induction pre using List.reverseRecOn with
    | nil =>
      rintro x post rfl
      exact ⟨x, hr.next_head, .refl⟩
    | append_singleton pre y ih =>
      intro x post hxs
      have hxs' : xs = pre ++ y :: (x :: post) := by rw [hxs]; simp
      have hy := ih y (x :: post) hxs'
      rw [hxs'] at hr
      exact hy.behind hr.neighbours.2
  constructor
  · intro hc
    refine hc.induction List.mem_cons_self fun a b ha hnext => ?_
    obtain ⟨d, hd, hnext'⟩ := hr.next_mem ha
    obtain rfl := Option.some.inj (hnext.symm.trans hnext')
    exact hd
  · intro hc
    rcases List.mem_cons.mp hc with rfl | hc
    · rcases List.eq_nil_or_concat xs with rfl | ⟨pre, y, rfl⟩
      · exact ⟨c, hr.next_head, .refl⟩
      · rw [List.concat_eq_append] at hr hon
        exact (hon pre y [] rfl).behind hr.neighbours.2
    · obtain ⟨pre, post, rfl⟩ := List.append_of_mem hc
      exact hon pre c post rfl

variable [DecidableEq ν]

/-- A store into a `next` word. -/
theorem nextWords_setNext (h : NodeHeap ν) (p : ν) (v : Option ν) :
    nextWords (setNext h p v) = Function.update (nextWords h) p v := by
  funext c
  by_cases hc : c = p
  · subst hc
    simp [nextWords]
  · simp [nextWords, hc]

/-- A store into a `prev` word. -/
theorem nextWords_setPrev (h : NodeHeap ν) (p : ν) (v : Option ν) :
    nextWords (setPrev h p v) = nextWords h := by
  funext c
  simp [nextWords]

end Rings

/-! ### The reader -/

section Reader

variable {next : Y → ν → Option ν} {R : Y → Y → Prop} {head c d f : ν} {y₁ y y' : Y}
  {visited : List ν}

/-- A traversal that began at `y₁`: the state now, the node in hand and the nodes that have been
    visited.  The others go on between its steps. -/
inductive Traversal (next : Y → ν → Option ν) (R : Y → Y → Prop) (head : ν) (y₁ : Y) :
    Y → ν → List ν → Prop
  | start (c : ν) (hfirst : next y₁ head = some c) : Traversal next R head y₁ y₁ c []
  | other (y y' : Y) (c : ν) (visited : List ν) (h : Traversal next R head y₁ y c visited)
      (hstep : R y y') : Traversal next R head y₁ y' c visited
  | visit (y : Y) (c d : ν) (visited : List ν) (h : Traversal next R head y₁ y c visited)
      (hne : c ≠ head) (hnext : next y c = some d) :
      Traversal next R head y₁ y d (visited ++ [c])

theorem Traversal.run (h : Traversal next R head y₁ y c visited) :
    Relation.ReflTransGen R y₁ y := by
  induction h with
  | start _ _ => exact .refl
  | other _ _ _ _ _ hstep ih => exact ih.tail hstep
  | visit _ _ _ _ _ _ _ ih => exact ih

/-- A node was in the chain at some time between `y₁` and `y`. -/
def Seen (next : Y → ν → Option ν) (R : Y → Y → Prop) (head : ν) (y₁ y : Y) (c : ν) : Prop :=
  ∃ y', Relation.ReflTransGen R y₁ y' ∧ Relation.ReflTransGen R y' y ∧ OnChain (next y') head c

theorem Seen.later (h : Seen next R head y₁ y c) (hstep : R y y') :
    Seen next R head y₁ y' c := by
  obtain ⟨y₀, hbefore, hafter, hon⟩ := h
  exact ⟨y₀, hbefore, hafter.tail hstep, hon⟩

variable [DecidableEq ν]

/-- From `y₁` to `y` every store is one that keeps the chain together. -/
def StoresUntil (next : Y → ν → Option ν) (R : Y → Y → Prop) (head : ν) (y₁ y : Y) : Prop :=
  ∀ a b, Relation.ReflTransGen R y₁ a → R a b → Relation.ReflTransGen R b y →
    ChainStore head (next a) (next b)

theorem StoresUntil.before (h : StoresUntil next R head y₁ y') (hstep : R y y') :
    StoresUntil next R head y₁ y :=
  fun a b ha hab hb => h a b ha hab (hb.tail hstep)

theorem StoresUntil.circular (hstores : StoresUntil next R head y₁ y)
    (hrun : Relation.ReflTransGen R y₁ y) (hc : OnChain (next y₁) head head) :
    OnChain (next y) head head := by
  induction hrun with
  | refl => exact hc
  | tail hrun hstep ih =>
    exact (hstores _ _ hrun hstep .refl).circular (ih (hstores.before hstep))

/-- **What was in the chain leads back to the head**, through nodes that were in it too. -/
theorem Seen.leads (h : Seen next R head y₁ y c) (hstores : StoresUntil next R head y₁ y)
    (hc : OnChain (next y₁) head head) :
    Passes (next y) head c head ∧ ∀ d, next y c = some d → Seen next R head y₁ y d := by
  obtain ⟨y₀, hbefore, hafter, hon⟩ := h
  induction hafter with
  | refl =>
    exact ⟨hon.passes_head (hstores.circular hbefore hc), fun d hnext =>
      ⟨y₀, hbefore, .refl, hon.behind hnext⟩⟩
  | @tail y y' hafter hstep ih =>
    have hrun := hbefore.trans hafter
    have hstore := hstores _ _ hrun hstep .refl
    have hbefore' := hstores.before hstep
    obtain ⟨hpasses, hword⟩ := ih hbefore'
    refine ⟨hstore.passes hpasses (hbefore'.circular hrun hc) (Or.inl rfl), fun d hnext => ?_⟩
    rcases hstore.word hnext with hsame | hon' | hon'
    · exact (hword d hsame).later hstep
    · exact ⟨y, hrun, .single hstep, hon'⟩
    · exact ⟨y', hrun.tail hstep, .refl, hon'⟩

/-- **A traversal visits what was in the chain** at some time since it began, and the head is still
    ahead of it. -/
theorem traversal_sound (h : Traversal next R head y₁ y c visited)
    (hstores : StoresUntil next R head y₁ y) (hc : OnChain (next y₁) head head) :
    Seen next R head y₁ y c ∧ ∀ f ∈ visited, f ≠ head ∧ Seen next R head y₁ y f := by
  induction h with
  | start c hfirst => exact ⟨⟨y₁, .refl, .refl, c, hfirst, .refl⟩, by simp⟩
  | other y y' c visited h hstep ih =>
    obtain ⟨hseen, hvisited⟩ := ih (hstores.before hstep)
    exact ⟨hseen.later hstep, fun f hf => ⟨(hvisited f hf).1, (hvisited f hf).2.later hstep⟩⟩
  | visit y c d visited h hne hnext ih =>
    obtain ⟨hseen, hvisited⟩ := ih hstores
    refine ⟨(hseen.leads hstores hc).2 d hnext, fun f hf => ?_⟩
    rcases List.mem_append.mp hf with hf | hf
    · exact hvisited f hf
    · rw [List.mem_singleton.mp hf]
      exact ⟨hne, hseen⟩

/-- **A traversal visits all that is in the chain** for as long as it takes, or still has it
    ahead. -/
theorem traversal_complete (h : Traversal next R head y₁ y c visited)
    (hstores : StoresUntil next R head y₁ y) 
    (hon : ∀ y', Relation.ReflTransGen R y₁ y' → Relation.ReflTransGen R y' y →
      OnChain (next y') head f) : f ∈ visited ∨ Passes (next y) head c f := by
  induction h with
  | start c hfirst =>
    obtain ⟨first, hfirst', hpasses⟩ := hon y₁ .refl .refl
    obtain rfl := Option.some.inj (hfirst.symm.trans hfirst')
    exact Or.inr hpasses
  | other y y' c visited h hstep ih =>
    have hstore := hstores _ _ h.run hstep .refl
    refine (ih (hstores.before hstep) fun a ha hay => hon a ha (hay.tail hstep)).imp id ?_
    intro hpasses
    exact hstore.passes hpasses (hon y h.run (.single hstep))
      (Or.inr (hon y' (h.run.tail hstep) .refl))
  | visit y c d visited h hne hnext ih =>
    rcases ih hstores hon with hf | hpasses
    · exact Or.inl (List.mem_append_left _ hf)
    · by_cases hcf : c = f
      · exact Or.inl (List.mem_append_right _ (hcf ▸ List.mem_singleton_self c))
      · exact Or.inr (hpasses.rest hcf hnext)

end Reader

end Rotary.Lib

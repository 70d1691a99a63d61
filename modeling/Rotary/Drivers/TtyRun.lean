import Rotary.Drivers.Tty
import Rotary.Mm.ClearFreed

namespace Rotary

open Lib

/-!
# The lifetime of TTYs

`tty_destroy` clears the struct after it has freed it.  The first word of a free object is the
link of its slab's free list, so that the clearing cuts the list off behind the struct: free
objects above it are lost while `free_count` still counts them.  Nothing is cut off only where no
free object of the slab lies above the struct.

* `TtyStep` / `TtyRun` — creations and destructions of TTYs, and the calls and stores of everybody
  else between them;
* `KernelHeap.HeldAbove` — the condition on the state before a destruction;
* `TtyState.Inv` — the heap and the list, kept by every step that meets the condition;
* `ttyDestroy_counts` — one destruction keeps the free counts right exactly when it meets it;
* `ttyRun_sound` — the heap, the list and the destructions in every run that does.
-/

/-! ### States and steps -/

/-- The heap with the sizes its live results were requested with, and the live TTYs, the newest
    first. -/
structure TtyState extends HeapState where
  ttys : List ℕ

/-- The objects of the TTY at `t`. -/
def ttyObjects (m : ByteMem) (t : ℕ) : List ℕ :=
  [t, load m (Tty.inputBuffer t), load m (Tty.outputBuffer t)]

/-- The block leaves the list node at `head` alone: it is static data of the kernel image. -/
def Beside (head b : ℕ) : Prop := head + 8 ≤ b ∨ b + slabBytes ≤ head

/-- What `page_alloc` returns to a sequence of calls: blocks not in use, each another one. -/
def FreshPages (head : ℕ) : List ℕ → List (Option ℕ) → Prop
  | _, [] => True
  | slabs, none :: ps => FreshPages head slabs ps
  | slabs, some p :: ps =>
    FreshBlock slabs p ∧ Beside head (pageVa p) ∧ FreshPages head (pageVa p :: slabs) ps

/-- A call on the TTYs, or anything else that kernel code does with the heap. -/
inductive TtyCall
  | create (id bufferSize : ℕ)
  | destroy (target : ℕ)
  | other

/-- The live results after `tty_create` has got its three objects. -/
def liveCreated (live : ℕ → Option ℕ) (newTty input output bufferSize : ℕ) : ℕ → Option ℕ :=
  Function.update (Function.update (Function.update live newTty (some sizeofTty))
    input (some bufferSize)) output (some bufferSize)

/-- The live results after `tty_destroy` has freed its three objects. -/
def liveDestroyed (m : ByteMem) (live : ℕ → Option ℕ) (target : ℕ) : ℕ → Option ℕ :=
  Function.update (Function.update (Function.update live (load m (Tty.inputBuffer target)) none)
    (load m (Tty.outputBuffer target)) none) target none

/-- One call: a TTY is created by three served requests, a live TTY is destroyed, or somebody
    else allocates, frees an object that is no TTY's, or stores outside the TTYs' structs, the list
    head and the allocator's data. -/
inductive TtyStep (head : ℕ) : TtyState → TtyCall → TtyState → Prop
  | create (st : TtyState) (id bufferSize : ℕ) (hsize : bufferSize < 2 ^ 32) (p₁ p₂ p₃ : Option ℕ)
      (hfresh : FreshPages head st.heap.slabs [p₁, p₂, p₃]) (newTty input output : ℕ)
      (k₁ : KernelHeap)
      (hcalls : ttyKmallocs st.heap id bufferSize p₁ p₂ p₃ = some ((newTty, input, output), k₁))
      (hserved : newTty ≠ 0 ∧ input ≠ 0 ∧ output ≠ 0) (t : ℕ) (k' : KernelHeap)
      (hcall : ttyCreate head st.heap id bufferSize p₁ p₂ p₃ = some (t, k')) :
      TtyStep head st (.create id bufferSize)
        ⟨⟨k', liveCreated st.live newTty input output bufferSize⟩, t :: st.ttys⟩
  | destroy (st : TtyState) (t : ℕ) (ht : t ∈ st.ttys) (r : Status) (k' : KernelHeap)
      (hcall : ttyDestroy st.heap t = some (r, k')) :
      TtyStep head st (.destroy t)
        ⟨⟨k', liveDestroyed st.heap.mem st.live t⟩, st.ttys.erase t⟩
  | kmalloc (st : TtyState) (size : ℕ) (p : Option ℕ) (hfresh : FreshPages head st.heap.slabs [p])
      (x : ℕ) (k' : KernelHeap) (hcall : kmalloc st.heap size p = some (x, k')) :
      TtyStep head st .other
        ⟨⟨k', if x = 0 then st.live else Function.update st.live x (some size)⟩, st.ttys⟩
  | kfree (st : TtyState) (x size : ℕ) (hlive : st.live x = some size)
      (hx : ∀ t ∈ st.ttys, x ∉ ttyObjects st.heap.mem t) (r : Status) (k' : KernelHeap)
      (hcall : kfree st.heap x = some (r, k')) :
      TtyStep head st .other ⟨⟨k', Function.update st.live x none⟩, st.ttys⟩
  | write (st : TtyState) (m' : ByteMem)
      (hstore : ∀ a, m' a ≠ st.heap.mem a → st.ClientByte a)
      (hstructs : ∀ a, m' a ≠ st.heap.mem a → ∀ t ∈ st.ttys, a < t ∨ t + sizeofTty ≤ a)
      (hhead : ∀ a, m' a ≠ st.heap.mem a → a < head ∨ head + 8 ≤ a) :
      TtyStep head st .other ⟨⟨{ st.heap with mem := m' }, st.live⟩, st.ttys⟩

/-- When `kfree(target)` runs, no free object of the struct's slab lies above the struct: none is
    free before the call, and neither of the TTY's own buffers lies there. -/
def KernelHeap.HeldAbove (k : KernelHeap) (t : ℕ) : Prop :=
  ∀ h ∈ k.slabs, h ≤ t → t < h + slabBytes → ∀ y, t < y → y < h + slabBytes →
    y ∉ freeObjects k ∧ y ∉ ttyObjects k.mem t

/-- The condition on the state before a call. -/
def TtyCall.Meets (st : TtyState) : TtyCall → Prop
  | .destroy t => st.heap.HeldAbove t
  | _ => True

/-- A run of calls that all meet the condition. -/
abbrev TtyRun (head : ℕ) : TtyState → TtyState → Prop :=
  Relation.ReflTransGen fun st st' => ∃ call, TtyStep head st call st' ∧ call.Meets st

/-- Empty caches and no TTY, before the first call. -/
def TtyState.start (m : ByteMem) : TtyState := ⟨HeapState.start m, []⟩

/-! ### The TTYs in memory -/

/-- The objects of the TTYs `ts`: live structs with live buffers of their size, no object twice. -/
structure TtyFields (m : ByteMem) (live : ℕ → Option ℕ) (ts : List ℕ) : Prop where
  struct : ∀ t ∈ ts, live t = some sizeofTty
  input : ∀ t ∈ ts, live (load m (Tty.inputBuffer t)) = some (load m (Tty.bufferSize t))
  output : ∀ t ∈ ts, live (load m (Tty.outputBuffer t)) = some (load m (Tty.bufferSize t))
  distinct : (ts.flatMap (ttyObjects m)).Nodup

/-- The TTYs `ts` in memory: their objects, and their nodes on the list in this order. -/
structure TtysAt (head : ℕ) (m : ByteMem) (live : ℕ → Option ℕ) (ts : List ℕ) : Prop where
  fields : TtyFields m live ts
  list : LinearList m head (ts.map Tty.listEntry)

/-- The heap is well formed, away from the list head, and holds the TTYs. -/
structure TtyState.Inv (head : ℕ) (st : TtyState) (S : Fin 13 → List Slab) : Prop where
  heap : st.toHeapState.Inv S
  beside : ∀ b ∈ st.heap.slabs, Beside head b
  ttys : TtysAt head st.heap.mem st.live st.ttys

variable {head t x p q size a id bufferSize : ℕ} {m m' : ByteMem} {live live' : ℕ → Option ℕ}
  {ts pre post : List ℕ} {st st' : TtyState} {S S' : Fin 13 → List Slab} {k k' : KernelHeap}
  {newPage : Option ℕ}

theorem mem_ttyObjects_self (m : ByteMem) (t : ℕ) : t ∈ ttyObjects m t := List.mem_cons_self

/-- The objects depend on the fields in front of the list node only. -/
theorem ttyFields_congr (h : ∀ a, t ≤ a → a < t + 24 → m' a = m a) :
    load m' (Tty.inputBuffer t) = load m (Tty.inputBuffer t) ∧
      load m' (Tty.outputBuffer t) = load m (Tty.outputBuffer t) ∧
      load m' (Tty.bufferSize t) = load m (Tty.bufferSize t) := by
  have hword : ∀ d, d ≤ 20 → load m' (t + d) = load m (t + d) := fun d hd =>
    load_congr fun a h1 h2 => h a (by omega) (by omega)
  exact ⟨hword 4 (by decide), hword 12 (by decide), hword 20 (by decide)⟩

theorem ttyObjects_congr (h : ∀ a, t ≤ a → a < t + 24 → m' a = m a) :
    ttyObjects m' t = ttyObjects m t := by
  obtain ⟨hin, hout, -⟩ := ttyFields_congr h
  simp only [ttyObjects, hin, hout]

theorem TtyFields.congr (h : TtyFields m live ts)
    (hstruct : ∀ t ∈ ts, ∀ a, t ≤ a → a < t + 24 → m' a = m a)
    (hlive : ∀ t ∈ ts, ∀ q ∈ ttyObjects m t, live' q = live q) : TtyFields m' live' ts := by
  refine ⟨fun t ht => ?_, fun t ht => ?_, fun t ht => ?_, ?_⟩
  · rw [hlive t ht t (mem_ttyObjects_self m t)]
    exact h.struct t ht
  · obtain ⟨hin, -, hsize⟩ := ttyFields_congr (hstruct t ht)
    rw [hin, hsize, hlive t ht _ (by simp [ttyObjects])]
    exact h.input t ht
  · obtain ⟨-, hout, hsize⟩ := ttyFields_congr (hstruct t ht)
    rw [hout, hsize, hlive t ht _ (by simp [ttyObjects])]
    exact h.output t ht
  · rw [List.flatMap_congr fun t ht => ttyObjects_congr (hstruct t ht)]
    exact h.distinct

/-- The objects of a TTY are live. -/
theorem TtyFields.live_objects (h : TtyFields m live ts) (ht : t ∈ ts) :
    ∀ q ∈ ttyObjects m t, ∃ size, live q = some size := by
  intro q hq
  simp only [ttyObjects, List.mem_cons, List.not_mem_nil, or_false] at hq
  rcases hq with rfl | rfl | rfl
  · exact ⟨_, h.struct q ht⟩
  · exact ⟨_, h.input t ht⟩
  · exact ⟨_, h.output t ht⟩

/-- One more TTY, of three objects that are nobody's. -/
theorem TtyFields.cons {y z : ℕ} (h : TtyFields m live ts)
    (hwords : load m (Tty.inputBuffer x) = y ∧ load m (Tty.outputBuffer x) = z ∧
      load m (Tty.bufferSize x) = bufferSize)
    (hstruct : live x = some sizeofTty) (hinput : live y = some bufferSize)
    (houtput : live z = some bufferSize) (hdistinct : x ≠ y ∧ x ≠ z ∧ y ≠ z)
    (hnew : ∀ t ∈ ts, ∀ q ∈ ttyObjects m t, q ≠ x ∧ q ≠ y ∧ q ≠ z) :
    TtyFields m live (x :: ts) := by
  obtain ⟨rfl, rfl, rfl⟩ := hwords
  refine ⟨?_, ?_, ?_, ?_⟩
  · simpa using ⟨hstruct, h.struct⟩
  · simpa using ⟨hinput, h.input⟩
  · simpa using ⟨houtput, h.output⟩
  · rw [List.flatMap_cons]
    refine List.nodup_append.mpr ⟨by simp [ttyObjects, hdistinct], h.distinct, fun q hq u hu => ?_⟩
    obtain ⟨t, ht, hut⟩ := List.mem_flatMap.mp hu
    have hne := hnew t ht u hut
    simp only [ttyObjects, List.mem_cons, List.not_mem_nil, or_false] at hq
    rintro rfl
    tauto

theorem TtyFields.nodup (h : TtyFields m live ts) : ts.Nodup := by
  apply (List.nodup_flatMap.mp h.distinct).2.imp
  intro t u hdisj heq
  exact hdisj (mem_ttyObjects_self m t) (heq ▸ mem_ttyObjects_self m u)

/-- A TTY taken out of the list: the others stay, and its objects are none of theirs. -/
theorem TtyFields.split (h : TtyFields m live (pre ++ t :: post)) :
    TtyFields m live (pre ++ post) ∧ (ttyObjects m t).Nodup ∧
      ∀ u ∈ pre ++ post, ∀ q ∈ ttyObjects m t, q ∉ ttyObjects m u := by
  have hsub : ∀ u ∈ pre ++ post, u ∈ pre ++ t :: post := by
    intro u hu
    simp only [List.mem_append, List.mem_cons] at hu ⊢
    tauto
  have hperm : ((pre ++ t :: post).flatMap (ttyObjects m)).Perm
      ((t :: (pre ++ post)).flatMap (ttyObjects m)) := List.perm_middle.flatMap_right _
  have hnd := hperm.nodup_iff.mp h.distinct
  rw [List.flatMap_cons] at hnd
  obtain ⟨hself, hrest, hdisj⟩ := List.nodup_append.mp hnd
  refine ⟨⟨fun u hu => h.struct u (hsub u hu), fun u hu => h.input u (hsub u hu),
    fun u hu => h.output u (hsub u hu), hrest⟩, hself, fun u hu q hq hqu => ?_⟩
  exact hdisj q hq q (List.mem_flatMap.mpr ⟨u, hu, hqu⟩) rfl

/-- The TTYs depend on their structs, on the list head and on what is live of their objects. -/
theorem TtysAt.congr (h : TtysAt head m live ts)
    (hhead : ∀ a, head ≤ a → a < head + 8 → m' a = m a)
    (hstruct : ∀ t ∈ ts, ∀ a, t ≤ a → a < t + sizeofTty → m' a = m a)
    (hlive : ∀ t ∈ ts, ∀ q ∈ ttyObjects m t, live' q = live q) : TtysAt head m' live' ts := by
  have hnode : ∀ t ∈ ts, ∀ d, d ≤ 28 → load m' (t + d) = load m (t + d) := fun t ht d hd =>
    load_congr fun a h1 h2 => hstruct t ht a (by omega) (by unfold sizeofTty; omega)
  refine ⟨h.fields.congr (fun t ht a h1 h2 => hstruct t ht a h1 (by unfold sizeofTty; omega)) hlive,
    h.list.congr (fun y hy => ?_) fun y hy => ?_⟩
  · rcases List.mem_cons.mp hy with rfl | hy
    · exact load_congr fun a h1 h2 => hhead a h1 (by omega)
    · obtain ⟨t, ht, rfl⟩ := List.mem_map.mp hy
      exact hnode t ht 24 (by decide)
  · obtain ⟨t, ht, rfl⟩ := List.mem_map.mp hy
    exact hnode t ht 28 (by decide)

/-! ### Fresh pages -/

theorem FreshPages.of_subset {slabs slabs' : List ℕ} {ps : List (Option ℕ)}
    (h : FreshPages head slabs ps) (hsub : ∀ b ∈ slabs', b ∈ slabs) :
    FreshPages head slabs' ps := by
  induction ps generalizing slabs slabs' with
  | nil => trivial
  | cons p ps ih =>
    cases p with
    | none => exact ih h hsub
    | some p =>
      obtain ⟨hfresh, hbeside, htail⟩ := h
      refine ⟨⟨hfresh.pos, hfresh.fits, fun b hb => hfresh.apart b (hsub b hb)⟩, hbeside, ?_⟩
      apply ih htail
      intro b hb
      rcases List.mem_cons.mp hb with hb | hb
      · rw [hb]
        exact List.mem_cons_self
      · exact List.mem_cons_of_mem _ (hsub b hb)

theorem FreshPages.first {slabs : List ℕ} {ps : List (Option ℕ)}
    (h : FreshPages head slabs (newPage :: ps)) :
    (∀ p ∈ newPage, FreshBlock slabs p) ∧ ∀ p ∈ newPage, Beside head (pageVa p) := by
  cases newPage with
  | none => simp
  | some p =>
    obtain ⟨hfresh, hbeside, -⟩ := h
    simpa using ⟨hfresh, hbeside⟩

/-- The pages for the calls after the first one. -/
theorem FreshPages.rest {slabs slabs' : List ℕ} {ps : List (Option ℕ)}
    (h : FreshPages head slabs (newPage :: ps))
    (hsub : ∀ b ∈ slabs', b ∈ slabs ∨ ∃ p ∈ newPage, b = pageVa p) :
    FreshPages head slabs' ps := by
  cases newPage with
  | none => exact FreshPages.of_subset h fun b hb => (hsub b hb).resolve_right (by simp)
  | some p =>
    apply FreshPages.of_subset h.2.2
    intro b hb
    rcases hsub b hb with hold | ⟨q, hq, heq⟩
    · exact List.mem_cons_of_mem _ hold
    · rw [heq, ← Option.some.inj hq]
      exact List.mem_cons_self

/-! ### Moves of everybody else -/

/-- A byte that the TTYs and their list are made of. -/
def TtyState.Watched (head : ℕ) (st : TtyState) (a : ℕ) : Prop :=
  (head ≤ a ∧ a < head + 8) ∨ ∃ p size, st.live p = some size ∧ p ≤ a ∧ a < p + size

theorem TtyState.Inv.watched_client (h : st.Inv head S) (ha : st.Watched head a) :
    st.ClientByte a := by
  rcases ha with ⟨h1, h2⟩ | hlive
  · apply Or.inr
    intro b hb
    have hbeside := h.beside b hb
    unfold Beside at hbeside
    omega
  · exact Or.inl hlive

/-- What the TTYs are made of stays as it was. -/
theorem TtyState.Inv.ttys_congr (h : st.Inv head S)
    (hsame : ∀ a, (head ≤ a ∧ a < head + 8) ∨ (∃ t ∈ st.ttys, t ≤ a ∧ a < t + sizeofTty) →
      m' a = st.heap.mem a)
    (hlive : ∀ t ∈ st.ttys, ∀ q ∈ ttyObjects st.heap.mem t, live' q = st.live q) :
    TtysAt head m' live' st.ttys :=
  h.ttys.congr (fun a h1 h2 => hsame a (Or.inl ⟨h1, h2⟩))
    (fun t ht a h1 h2 => hsame a (Or.inr ⟨t, ht, h1, h2⟩)) hlive

/-- **`kmalloc`** keeps the TTYs; what it returns is nobody's, and watched bytes stay. -/
theorem TtyState.Inv.kmalloc (h : st.Inv head S)
    (hfresh : ∀ p ∈ newPage, FreshBlock st.heap.slabs p)
    (hbeside : ∀ p ∈ newPage, Beside head (pageVa p))
    (hcall : Rotary.kmalloc st.heap size newPage = some (x, k')) :
    st.live x = none ∧
      (∃ S', TtyState.Inv head
        ⟨⟨k', if x = 0 then st.live else Function.update st.live x (some size)⟩, st.ttys⟩ S') ∧
      ∀ a, st.Watched head a → k'.mem a = st.heap.mem a := by
  have hnone : st.live x = none := by
    obtain ⟨y, k'', heq, hy, -⟩ := h.heap.kmalloc_fresh hfresh size
    rw [hcall, Option.some.injEq, Prod.mk.injEq] at heq
    rw [heq.1]
    exact hy
  have hsame : ∀ a, st.Watched head a → k'.mem a = st.heap.mem a := by
    intro a ha
    apply h.heap.kmalloc_frame hfresh hcall (h.watched_client ha)
    rcases ha with ⟨h1, h2⟩ | hlive
    · apply Or.inr
      intro p hp
      have := hbeside p hp
      unfold Beside at this
      generalize pageVa p = b at this ⊢
      omega
    · exact Or.inl hlive
  obtain ⟨S', hheap⟩ := h.heap.kmalloc_step hfresh hcall
  refine ⟨hnone, ⟨S', hheap, fun b hb => ?_, h.ttys_congr (fun a ha => hsame a ?_) fun t ht q hq => ?_⟩,
    hsame⟩
  · rcases kmalloc_slabs h.heap.heap hfresh hcall b hb with hold | ⟨p, hp, heq⟩
    · exact h.beside b hold
    · rw [heq]
      exact hbeside p hp
  · exact ha.imp_right fun ⟨t, ht, h1, h2⟩ => ⟨t, _, h.ttys.fields.struct t ht, h1, h2⟩
  · -- the new object was nobody's
    by_cases hx : x = 0
    · simp only [hx, if_true]
    · obtain ⟨sz, hsz⟩ := h.ttys.fields.live_objects ht q hq
      have hqx : q ≠ x := by
        rintro rfl
        rw [hnone] at hsz
        cases hsz
      simp only [hx, if_false, Function.update_of_ne hqx]

/-- **Stores of clients** keep the TTYs. -/
theorem TtyState.Inv.write (h : st.Inv head S)
    (hstore : ∀ a, m' a ≠ st.heap.mem a → st.ClientByte a)
    (hstructs : ∀ a, m' a ≠ st.heap.mem a → ∀ t ∈ st.ttys, a < t ∨ t + sizeofTty ≤ a)
    (hhead : ∀ a, m' a ≠ st.heap.mem a → a < head ∨ head + 8 ≤ a) :
    TtyState.Inv head ⟨⟨{ st.heap with mem := m' }, st.live⟩, st.ttys⟩ S := by
  have hheap := h.heap.write_step hstore
  refine ⟨hheap, fun b hb => ?_, h.ttys_congr (fun a ha => ?_) fun _ _ _ _ => rfl⟩
  · apply h.beside b
    rw [h.heap.heap.mem_slabs]
    exact hheap.heap.mem_slabs.mp hb
  · by_contra hne
    rcases ha with ⟨h1, h2⟩ | ⟨t, ht, h1, h2⟩
    · have := hhead a hne
      omega
    · have := hstructs a hne t ht
      omega

/-- **`kfree`** of an object that is no TTY's: exactly it joins the free objects, and the TTYs and
    all other live bytes stay. -/
theorem TtyState.Inv.kfree (h : st.Inv head S) (hlive : st.live x = some size)
    (hx : ∀ t ∈ st.ttys, x ∉ ttyObjects st.heap.mem t) :
    ∃ k' S' i, Rotary.kfree st.heap x = some (.success, k') ∧ cacheFor size = some i ∧
      TtyState.Inv head ⟨⟨k', Function.update st.live x none⟩, st.ttys⟩ S' ∧
      (∀ j, (S' j).map Slab.base = (S j).map Slab.base) ∧
      (∀ j q, q ∈ freeSlots (S' j) ↔ q ∈ freeSlots (S j) ∨ j = i ∧ q = x) ∧
      (∀ t, st.live t = some sizeofTty → t ≠ x →
        ttyObjects k'.mem t = ttyObjects st.heap.mem t) := by
  obtain ⟨k', S', i, hcall, hi, hheap, hbases, hfree⟩ := h.heap.kfree_slabs hlive
  have hsame : ∀ a, (head ≤ a ∧ a < head + 8) ∨
      (∃ p size, st.live p = some size ∧ p ≠ x ∧ p ≤ a ∧ a < p + size) →
      k'.mem a = st.heap.mem a := by
    intro a ha
    rcases ha with hhead | ⟨p, sz, hp, hne, h1, h2⟩
    · apply h.heap.kfree_frame hcall (h.watched_client (Or.inl hhead))
      -- the freed object is in a slab, and the list head is in none
      obtain ⟨j, -, s, hs, hslot, -⟩ := h.heap.exists_slab hlive
      have hb := hslot.bounds
      have hge := slabCacheSizes_ge j
      have hbeside := h.beside s.base (h.heap.heap.mem_slabs.mpr ⟨j, s, hs, rfl⟩)
      unfold Beside at hbeside
      omega
    · refine h.heap.kfree_frame hcall (Or.inl ⟨p, sz, hp, h1, h2⟩) ?_
      obtain ⟨z, z', hz, hle, hz', hle', hap⟩ := h.heap.live_apart hp hlive hne
      omega
  refine ⟨k', S', i, hcall, hi, ⟨hheap, fun b hb => ?_,
    h.ttys_congr (fun a ha => hsame a ?_) fun t ht q hq => ?_⟩, hbases, hfree, fun t ht hne => ?_⟩
  · apply h.beside b
    obtain ⟨j, s, hs, rfl⟩ := hheap.heap.mem_slabs.mp hb
    obtain ⟨s', hs', hbase⟩ := List.mem_map.mp (hbases j ▸ List.mem_map_of_mem hs)
    exact h.heap.heap.mem_slabs.mpr ⟨j, s', hs', hbase⟩
  · refine ha.imp_right fun ⟨t, ht, h1, h2⟩ => ⟨t, _, h.ttys.fields.struct t ht, ?_, h1, h2⟩
    rintro rfl
    exact hx t ht (mem_ttyObjects_self _ t)
  · have hqx : q ≠ x := fun heq => hx t ht (heq ▸ hq)
    exact Function.update_of_ne hqx none st.live
  · exact ttyObjects_congr fun a h1 h2 =>
      hsame a (Or.inr ⟨t, sizeofTty, ht, hne, h1, by unfold sizeofTty; omega⟩)

/-! ### The list nodes -/

/-- A live object lies in a slab, and so away from the list head. -/
theorem HeapState.Inv.beside_live {h₀ : HeapState} (h : h₀.Inv S)
    (hbeside : ∀ b ∈ h₀.heap.slabs, Beside head b) (hlive : h₀.live p = some size) :
    (head + 8 ≤ p ∨ p + size ≤ head) ∧ 0 < p ∧ p + size < 2 ^ 32 := by
  obtain ⟨i, hi, s, hs, hslot, -⟩ := h.exists_slab hlive
  have hb := hslot.bounds
  have hle := cacheFor_le hi
  have hfits := ((h.heap.cacheAt i).slab s hs).placed.fits
  have hhead := hbeside s.base (h.heap.mem_slabs.mpr ⟨i, s, hs, rfl⟩)
  have hhdr := hslot.header_le
  unfold Beside at hhead
  omega

/-- The nodes of live structs and the list head share no byte. -/
theorem HeapState.Inv.far_nodes {h₀ : HeapState} (h : h₀.Inv S)
    (hbeside : ∀ b ∈ h₀.heap.slabs, Beside head b)
    (hlive : ∀ t ∈ ts, h₀.live t = some sizeofTty) (hnd : ts.Nodup) :
    (head :: ts.map Tty.listEntry).Pairwise Far := by
  refine List.pairwise_cons.mpr ⟨fun y hy => ?_, List.pairwise_map.mpr ?_⟩
  · obtain ⟨t, ht, rfl⟩ := List.mem_map.mp hy
    obtain ⟨hout, -, -⟩ := h.beside_live hbeside (hlive t ht)
    unfold Far Tty.listEntry
    unfold sizeofTty at hout
    omega
  · apply hnd.imp_of_mem
    intro t u ht hu hne
    obtain ⟨z, z', -, hz, -, hz', hap⟩ := h.live_apart (hlive t ht) (hlive u hu) hne
    unfold sizeofTty at hz hz'
    unfold Far Tty.listEntry
    omega

/-- Stores into the nodes of live structs and into the list head keep the heap, and the other
    fields of the structs. -/
theorem HeapState.Inv.relink {h₀ : HeapState} (h : h₀.Inv S)
    (hbeside : ∀ b ∈ h₀.heap.slabs, Beside head b)
    (hlive : ∀ t ∈ ts, h₀.live t = some sizeofTty)
    (hframe : ∀ a, (∀ y ∈ head :: ts.map Tty.listEntry, a < y ∨ y + 8 ≤ a) →
      m' a = h₀.heap.mem a) :
    HeapState.Inv ⟨{ h₀.heap with mem := m' }, h₀.live⟩ S ∧
      (∀ b ∈ KernelHeap.slabs { h₀.heap with mem := m' }, Beside head b) ∧
      ∀ t ∈ ts, ∀ a, t ≤ a → a < t + 24 → m' a = h₀.heap.mem a := by
  have hheap : HeapState.Inv ⟨{ h₀.heap with mem := m' }, h₀.live⟩ S := by
    apply h.write_step
    intro a ha
    by_contra hnot
    rw [not_or] at hnot
    obtain ⟨hnolive, hslab⟩ := hnot
    refine ha (hframe a fun y hy => ?_)
    rcases List.mem_cons.mp hy with rfl | hy
    · -- the list head is outside the slabs
      by_contra hin
      apply hslab
      intro b hb
      have hb' := hbeside b hb
      unfold Beside at hb'
      omega
    · obtain ⟨t, ht, rfl⟩ := List.mem_map.mp hy
      by_contra hin
      refine hnolive ⟨t, sizeofTty, hlive t ht, ?_⟩
      unfold Tty.listEntry at hin
      unfold sizeofTty
      omega
  refine ⟨hheap, fun b hb => hbeside b ?_, fun t ht a h1 h2 => hframe a fun y hy => ?_⟩
  · rw [h.heap.mem_slabs]
    exact hheap.heap.mem_slabs.mp hb
  · rcases List.mem_cons.mp hy with rfl | hy
    · obtain ⟨hout, -, -⟩ := h.beside_live hbeside (hlive t ht)
      unfold sizeofTty at hout
      omega
    · obtain ⟨u, hu, rfl⟩ := List.mem_map.mp hy
      unfold Tty.listEntry
      by_cases htu : t = u
      · omega
      · obtain ⟨z, z', -, hz, -, hz', hap⟩ := h.live_apart (hlive t ht) (hlive u hu) htu
        unfold sizeofTty at hz hz'
        omega

/-! ### Creation -/

/-- Stores into one live object that is no struct. -/
theorem TtyState.Inv.store_own (h : st.Inv head S) (hlive : st.live p = some size)
    (hp : p ∉ st.ttys) (hframe : ∀ a, a < p ∨ p + size ≤ a → m' a = st.heap.mem a) :
    TtyState.Inv head ⟨⟨{ st.heap with mem := m' }, st.live⟩, st.ttys⟩ S := by
  have hin : ∀ a, m' a ≠ st.heap.mem a → p ≤ a ∧ a < p + size := by
    intro a ha
    by_contra hout
    exact ha (hframe a (by omega))
  refine h.write (fun a ha => Or.inl ⟨p, size, hlive, hin a ha⟩) (fun a ha t ht => ?_) fun a ha => ?_
  · have hpt : p ≠ t := fun heq => hp (heq ▸ ht)
    obtain ⟨z, z', -, hz, -, hz', hap⟩ := h.heap.live_apart hlive (h.ttys.fields.struct t ht) hpt
    have := hin a ha
    omega
  · obtain ⟨hout, -, -⟩ := h.heap.beside_live h.beside hlive
    have := hin a ha
    omega

theorem ne_of_live (hp : live p = some size) (hq : live q = none) : p ≠ q := by
  rintro rfl
  rw [hp] at hq
  cases hq

theorem ttyFill_frame (ha : a < x ∨ x + sizeofTty ≤ a) : ttyFill m x id bufferSize a = m a := by
  unfold sizeofTty at ha
  show store (store (memset m x 0 32) x id) (x + 20) bufferSize a = m a
  rw [store_of_not_mem (by omega), store_of_not_mem (by omega), memset_of_not_mem (by omega)]

theorem ttyBuffer_eq {field y : ℕ} (hcall : ttyBuffer k x field newPage = some (y, k')) :
    ∃ k₁, Rotary.kmalloc k (load k.mem (Tty.bufferSize x)) newPage = some (y, k₁) ∧
      k' = { k₁ with mem := store k₁.mem field y } := by
  obtain ⟨⟨z, k₁⟩, hk, hres⟩ := Option.map_eq_some_iff.mp hcall
  obtain ⟨rfl, rfl⟩ := Prod.mk.inj hres
  exact ⟨k₁, hk, rfl⟩

theorem KernelHeap.Inv.mem_slabs_iff (h : k.Inv S) (h' : k'.Inv S) (b : ℕ) :
    b ∈ k'.slabs ↔ b ∈ k.slabs := by
  rw [h.mem_slabs, h'.mem_slabs]

/-- **One buffer**: it was nobody's, its address goes into the field, and the rest of the struct
    stays. -/
theorem TtyState.Inv.ttyBuffer {field y : ℕ} (h : st.Inv head S)
    (hstruct : st.live x = some sizeofTty) (hx : x ∉ st.ttys)
    (hsize : load st.heap.mem (Tty.bufferSize x) = bufferSize)
    (hfield : x ≤ field ∧ field + 4 ≤ Tty.bufferSize x)
    (hfresh : ∀ p ∈ newPage, FreshBlock st.heap.slabs p)
    (hbeside : ∀ p ∈ newPage, Beside head (pageVa p))
    (hcall : Rotary.ttyBuffer st.heap x field newPage = some (y, k')) (hy : y ≠ 0) :
    st.live y = none ∧
      (∃ S', TtyState.Inv head ⟨⟨k', Function.update st.live y (some bufferSize)⟩, st.ttys⟩ S') ∧
      load k'.mem field = y ∧
      (∀ a, x ≤ a → a < x + sizeofTty → a < field ∨ field + 4 ≤ a → k'.mem a = st.heap.mem a) ∧
      (∀ t ∈ st.ttys, ttyObjects k'.mem t = ttyObjects st.heap.mem t) ∧
      ∀ b ∈ k'.slabs, b ∈ st.heap.slabs ∨ ∃ p ∈ newPage, b = pageVa p := by
  obtain ⟨k₁, hk, rfl⟩ := ttyBuffer_eq hcall
  rw [hsize] at hk
  obtain ⟨hnone, ⟨S', hinv⟩, hsame⟩ := h.kmalloc hfresh hbeside hk
  rw [if_neg hy] at hinv
  have hyx : x ≠ y := ne_of_live hstruct hnone
  have hstruct' : Function.update st.live y (some bufferSize) x = some sizeofTty := by
    rw [Function.update_of_ne hyx]
    exact hstruct
  have hylt : y < 2 ^ 32 := by
    obtain ⟨b, -, -, hstop, hfits⟩ := kmalloc_bounds h.heap.heap hfresh hk hy
    omega
  unfold Tty.bufferSize at hfield
  have hstore : TtyState.Inv head
      ⟨⟨{ k₁ with mem := store k₁.mem field y }, Function.update st.live y (some bufferSize)⟩,
        st.ttys⟩ S' :=
    hinv.store_own hstruct' hx fun a ha => store_of_not_mem (by unfold sizeofTty at ha; omega)
  refine ⟨hnone, ⟨S', hstore⟩, load_store _ _ hylt, fun a h1 h2 hout => ?_,
    fun t ht => ?_, fun b hb => ?_⟩
  · show store k₁.mem field y a = _
    rw [store_of_not_mem hout]
    exact hsame a (Or.inr ⟨x, sizeofTty, hstruct, h1, h2⟩)
  · have htx : t ≠ x := fun heq => hx (heq ▸ ht)
    have ht' := h.ttys.fields.struct t ht
    obtain ⟨w, w', -, hw, -, hw', hap⟩ := h.heap.live_apart ht' hstruct htx
    unfold sizeofTty at hw hw'
    apply ttyObjects_congr
    intro a h1 h2
    show store k₁.mem field y a = _
    rw [store_of_not_mem (by omega)]
    exact hsame a (Or.inr ⟨t, sizeofTty, ht', h1, by unfold sizeofTty; omega⟩)
  · exact kmalloc_slabs h.heap.heap hfresh hk b
      ((hinv.heap.heap.mem_slabs_iff hstore.heap.heap b).mp hb)

/-- Clearing one live object leaves the bytes of another. -/
theorem HeapState.Inv.memset_live {h₀ : HeapState} {n : ℕ} (h : h₀.Inv S) (m : ByteMem)
    (hp : h₀.live p = some size) (hq : h₀.live q = some n) (hne : p ≠ q) (h1 : p ≤ a)
    (h2 : a < p + size) : memset m q 0 n a = m a := by
  obtain ⟨z, z', -, hz, -, hz', hap⟩ := h.live_apart hp hq hne
  apply memset_of_not_mem
  omega

/-- **The new TTY is published**: its buffers are cleared and its node is put behind the head. -/
theorem TtyState.Inv.publish {y z : ℕ} (h : st.Inv head S) (hhead : head ≠ 0)
    (hhead32 : head + 8 ≤ 2 ^ 32) (hstruct : st.live x = some sizeofTty)
    (hinput : st.live y = some bufferSize) (houtput : st.live z = some bufferSize)
    (hwords : load st.heap.mem (Tty.inputBuffer x) = y ∧ load st.heap.mem (Tty.outputBuffer x) = z ∧
      load st.heap.mem (Tty.bufferSize x) = bufferSize)
    (hnew : ∀ t ∈ st.ttys, ∀ q ∈ ttyObjects st.heap.mem t, q ≠ x ∧ q ≠ y ∧ q ≠ z)
    (hdistinct : x ≠ y ∧ x ≠ z ∧ y ≠ z) :
    TtyState.Inv head ⟨⟨{ st.heap with mem := ttyPublish st.heap.mem head x }, st.live⟩,
      x :: st.ttys⟩ S := by
  obtain ⟨hy, hz, hsize⟩ := hwords
  obtain ⟨hxy, hxz, hyz⟩ := hdistinct
  have hnot : ∀ q, (q = x ∨ q = y ∨ q = z) → q ∉ st.ttys := by
    rintro q hq ht
    have hne := hnew q ht q (mem_ttyObjects_self _ q)
    tauto
  -- the two buffers are cleared
  let m₁ := memset st.heap.mem y 0 bufferSize
  let m₂ := memset m₁ z 0 bufferSize
  have h₁ : TtyState.Inv head ⟨⟨{ st.heap with mem := m₁ }, st.live⟩, st.ttys⟩ S :=
    h.store_own hinput (hnot y (by simp)) fun a ha => memset_of_not_mem ha
  have h₂ : TtyState.Inv head ⟨⟨{ st.heap with mem := m₂ }, st.live⟩, st.ttys⟩ S :=
    h₁.store_own houtput (hnot z (by simp)) fun a ha => memset_of_not_mem ha
  -- a struct is not one of them
  have hkeep₁ : ∀ t, st.live t = some sizeofTty → t ≠ y → ∀ a, t ≤ a → a < t + 24 →
      m₁ a = st.heap.mem a := fun t ht hty a h1 h2 =>
    h.heap.memset_live st.heap.mem ht hinput hty h1 (by unfold sizeofTty; omega)
  have hkeep₂ : ∀ t, st.live t = some sizeofTty → t ≠ y → t ≠ z → ∀ a, t ≤ a → a < t + 24 →
      m₂ a = st.heap.mem a := fun t ht hty htz a h1 h2 =>
    (h.heap.memset_live m₁ ht houtput htz h1 (by unfold sizeofTty; omega)).trans
      (hkeep₁ t ht hty a h1 h2)
  have hpublish : ttyPublish st.heap.mem head x = llistAddAfter m₂ head (Tty.listEntry x) := by
    obtain ⟨-, hout, hsize₁⟩ := ttyFields_congr (hkeep₁ x hstruct hxy)
    unfold ttyPublish
    simp only [hy, hsize]
    show llistAddAfter (memset m₁ (load m₁ (Tty.outputBuffer x)) 0 (load m₁ (Tty.bufferSize x)))
      head (Tty.listEntry x) = _
    rw [hout, hsize₁, hz, hsize]
  -- the node is put on the list
  have hxt : x ∉ st.ttys := hnot x (by simp)
  have hlive : ∀ t ∈ x :: st.ttys, st.live t = some sizeofTty := by
    intro t ht
    rcases List.mem_cons.mp ht with rfl | ht
    · exact hstruct
    · exact h.ttys.fields.struct t ht
  have hfar := h₂.heap.far_nodes h₂.beside hlive (List.nodup_cons.mpr ⟨hxt, h.ttys.fields.nodup⟩)
  obtain ⟨-, hxpos, hx32⟩ := h₂.heap.beside_live h₂.beside hstruct
  obtain ⟨hlist, hframe⟩ := llistAddAfter_spec h₂.ttys.list hfar hhead
    (by unfold Tty.listEntry; omega) (by omega) (by unfold Tty.listEntry; unfold sizeofTty at hx32; omega)
  obtain ⟨hheap, hbeside, hfields⟩ := h₂.heap.relink h₂.beside hlive hframe
  rw [hpublish]
  refine ⟨hheap, hbeside, ?_, hlist⟩
  have hcons : TtyFields st.heap.mem st.live (x :: st.ttys) :=
    h.ttys.fields.cons ⟨hy, hz, hsize⟩ hstruct hinput houtput ⟨hxy, hxz, hyz⟩ hnew
  refine hcons.congr (fun t ht a h1 h2 => ?_) fun _ _ _ _ => rfl
  have hne : t ≠ y ∧ t ≠ z := by
    rcases List.mem_cons.mp ht with rfl | ht
    · exact ⟨hxy, hxz⟩
    · exact (hnew t ht t (mem_ttyObjects_self _ t)).2
  exact (hfields t ht a h1 h2).trans (hkeep₂ t (hlive t ht) hne.1 hne.2 a h1 h2)

/-- **The struct**: it was nobody's, it holds the buffer size, and the TTYs stay. -/
theorem TtyState.Inv.ttyStruct (h : st.Inv head S)
    (hfresh : ∀ p ∈ newPage, FreshBlock st.heap.slabs p)
    (hbeside : ∀ p ∈ newPage, Beside head (pageVa p))
    (hcall : Rotary.kmalloc st.heap sizeofTty newPage = some (x, k')) (hx : x ≠ 0)
    (id bufferSize : ℕ) :
    st.live x = none ∧
      (∃ S', TtyState.Inv head ⟨⟨{ k' with mem := ttyFill k'.mem x id bufferSize },
        Function.update st.live x (some sizeofTty)⟩, st.ttys⟩ S') ∧
      (∀ t ∈ st.ttys,
        ttyObjects (ttyFill k'.mem x id bufferSize) t = ttyObjects st.heap.mem t) ∧
      ∀ b ∈ KernelHeap.slabs { k' with mem := ttyFill k'.mem x id bufferSize },
        b ∈ st.heap.slabs ∨ ∃ p ∈ newPage, b = pageVa p := by
  obtain ⟨hnone, ⟨S', hinv⟩, hsame⟩ := h.kmalloc hfresh hbeside hcall
  rw [if_neg hx] at hinv
  have hxt : x ∉ st.ttys := fun ht => ne_of_live (h.ttys.fields.struct x ht) hnone rfl
  have hfill := hinv.store_own (Function.update_self x (some sizeofTty) st.live) hxt
    fun a ha => (ttyFill_frame ha : ttyFill k'.mem x id bufferSize a = k'.mem a)
  refine ⟨hnone, ⟨S', hfill⟩, fun t ht => ttyObjects_congr fun a h1 h2 => ?_, fun b hb => ?_⟩
  · have ht' := h.ttys.fields.struct t ht
    have htx : t ≠ x := ne_of_live ht' hnone
    have hlive' : Function.update st.live x (some sizeofTty) t = some sizeofTty := by
      rw [Function.update_of_ne htx]
      exact ht'
    obtain ⟨w, w', -, hw, -, hw', hap⟩ :=
      hinv.heap.live_apart hlive' (Function.update_self x (some sizeofTty) st.live) htx
    unfold sizeofTty at hw hw'
    rw [ttyFill_frame (by unfold sizeofTty; omega)]
    exact hsame a (Or.inr ⟨t, sizeofTty, ht', h1, by unfold sizeofTty; omega⟩)
  · exact kmalloc_slabs h.heap.heap hfresh hcall b
      ((hinv.heap.heap.mem_slabs_iff hfill.heap.heap b).mp hb)

theorem ttyKmallocs_cases {y z : ℕ} {p₁ p₂ p₃ : Option ℕ}
    (hcalls : ttyKmallocs k id bufferSize p₁ p₂ p₃ = some ((x, y, z), k')) :
    ∃ k₁ k₂, Rotary.kmalloc k sizeofTty p₁ = some (x, k₁) ∧
      ttyBuffer { k₁ with mem := ttyFill k₁.mem x id bufferSize } x (Tty.inputBuffer x) p₂ =
        some (y, k₂) ∧
      ttyBuffer k₂ x (Tty.outputBuffer x) p₃ = some (z, k') := by
  unfold ttyKmallocs at hcalls
  obtain ⟨⟨x', k₁⟩, hk₁, hcalls⟩ := Option.bind_eq_some_iff.mp hcalls
  obtain ⟨⟨y', k₂⟩, hk₂, hcalls⟩ := Option.bind_eq_some_iff.mp hcalls
  obtain ⟨⟨z', k₃⟩, hk₃, hcalls⟩ := Option.bind_eq_some_iff.mp hcalls
  simp only [Option.pure_def, Option.some.injEq, Prod.mk.injEq] at hcalls
  obtain ⟨⟨rfl, rfl, rfl⟩, rfl⟩ := hcalls
  exact ⟨k₁, k₂, hk₁, hk₂, hk₃⟩

/-- **`tty_create`**, when its three requests are served, adds a TTY to the front of the list. -/
theorem TtyState.Inv.create {y z : ℕ} {p₁ p₂ p₃ : Option ℕ} (h : st.Inv head S)
    (hhead : head ≠ 0) (hhead32 : head + 8 ≤ 2 ^ 32) (hsize : bufferSize < 2 ^ 32)
    (hfresh : FreshPages head st.heap.slabs [p₁, p₂, p₃])
    (hcalls : ttyKmallocs st.heap id bufferSize p₁ p₂ p₃ = some ((x, y, z), k'))
    (hserved : x ≠ 0 ∧ y ≠ 0 ∧ z ≠ 0) :
    ∃ S', TtyState.Inv head
      ⟨⟨{ k' with mem := ttyPublish k'.mem head x }, liveCreated st.live x y z bufferSize⟩,
        x :: st.ttys⟩ S' := by
  obtain ⟨hx, hy, hz⟩ := hserved
  obtain ⟨k₁, k₂, hk₁, hk₂, hk₃⟩ := ttyKmallocs_cases hcalls
  obtain ⟨hfresh₁, hbeside₁⟩ := hfresh.first
  -- the struct
  obtain ⟨hnone₁, ⟨S₁, hinv₁⟩, hobj₁, hslabs₁⟩ := h.ttyStruct hfresh₁ hbeside₁ hk₁ hx id bufferSize
  have hxt : x ∉ st.ttys := fun ht => ne_of_live (h.ttys.fields.struct x ht) hnone₁ rfl
  have hstruct₁ := Function.update_self x (some sizeofTty) st.live
  have hrest₁ := hfresh.rest hslabs₁
  -- the input buffer
  obtain ⟨hfresh₂, hbeside₂⟩ := hrest₁.first
  obtain ⟨hnone₂, ⟨S₂, hinv₂⟩, hword₂, hsame₂, hobj₂, hslabs₂⟩ :=
    hinv₁.ttyBuffer hstruct₁ hxt (load_ttyFill_bufferSize k₁.mem x id hsize)
      (by unfold Tty.inputBuffer Tty.bufferSize; omega) hfresh₂ hbeside₂ hk₂ hy
  dsimp only at hnone₂ hinv₂ hsame₂ hobj₂ hslabs₂
  have hxy : x ≠ y := ne_of_live hstruct₁ hnone₂
  have hstruct₂ : Function.update (Function.update st.live x (some sizeofTty)) y
      (some bufferSize) x = some sizeofTty := by
    rw [Function.update_of_ne hxy]
    exact hstruct₁
  have hsize₂ : load k₂.mem (Tty.bufferSize x) = bufferSize := by
    rw [← load_ttyFill_bufferSize k₁.mem x id hsize]
    apply load_congr
    intro a h1 h2
    unfold Tty.bufferSize at h1 h2
    exact hsame₂ a (by omega) (by unfold sizeofTty; omega) (by unfold Tty.inputBuffer; omega)
  -- the output buffer
  have hrest₂ := hrest₁.rest hslabs₂
  obtain ⟨hfresh₃, hbeside₃⟩ := hrest₂.first
  obtain ⟨hnone₃, ⟨S₃, hinv₃⟩, hword₃, hsame₃, hobj₃, -⟩ :=
    hinv₂.ttyBuffer hstruct₂ hxt hsize₂ (by unfold Tty.outputBuffer Tty.bufferSize; omega)
      hfresh₃ hbeside₃ hk₃ hz
  dsimp only at hnone₃ hinv₃ hsame₃ hobj₃
  have hxz : x ≠ z := ne_of_live hstruct₂ hnone₃
  have hinput₂ := Function.update_self y (some bufferSize)
    (Function.update st.live x (some sizeofTty))
  have hyz : y ≠ z := ne_of_live hinput₂ hnone₃
  refine ⟨S₃, hinv₃.publish hhead hhead32 ?_ ?_ (Function.update_self _ _ _)
    ⟨?_, hword₃, ?_⟩ (fun t ht q hq => ?_) ⟨hxy, hxz, hyz⟩⟩
  · exact (Function.update_of_ne hxz _ _).trans hstruct₂
  · exact (Function.update_of_ne hyz _ _).trans hinput₂
  · refine Eq.trans (load_congr fun a h1 h2 => ?_) hword₂
    unfold Tty.inputBuffer at h1 h2
    exact hsame₃ a (by omega) (by unfold sizeofTty; omega) (by unfold Tty.outputBuffer; omega)
  · refine Eq.trans (load_congr fun a h1 h2 => ?_) hsize₂
    unfold Tty.bufferSize at h1 h2
    exact hsame₃ a (by omega) (by unfold sizeofTty; omega) (by unfold Tty.outputBuffer; omega)
  · -- an object of an old TTY was live all the time
    rw [hobj₃ t ht, hobj₂ t ht, hobj₁ t ht] at hq
    obtain ⟨sz, hlive⟩ := h.ttys.fields.live_objects ht q hq
    have hqx : q ≠ x := ne_of_live hlive hnone₁
    have hlive₁ : Function.update st.live x (some sizeofTty) q = some sz := by
      rw [Function.update_of_ne hqx]
      exact hlive
    have hqy : q ≠ y := ne_of_live hlive₁ hnone₂
    have hlive₂ : Function.update (Function.update st.live x (some sizeofTty)) y
        (some bufferSize) q = some sz := by
      rw [Function.update_of_ne hqy]
      exact hlive₁
    exact ⟨hqx, hqy, ne_of_live hlive₂ hnone₃⟩

/-- With a page for each request, and a buffer size that some cache has, the three requests are
    served. -/
theorem TtyState.Inv.served (h : st.Inv head S) (hsize : bufferSize ≤ 32768) {a b c : ℕ}
    (hfresh : FreshPages head st.heap.slabs [some a, some b, some c]) (id : ℕ) :
    ∃ x y z k₁, ttyKmallocs st.heap id bufferSize (some a) (some b) (some c) =
      some ((x, y, z), k₁) ∧ x ≠ 0 ∧ y ≠ 0 ∧ z ≠ 0 := by
  have hlt : bufferSize < 2 ^ 32 := by omega
  obtain ⟨hfresh₁, hbeside₁⟩ := hfresh.first
  obtain ⟨x, k₁, hk₁, hx⟩ := h.heap.heap.kmalloc_of_page (hfresh₁ a rfl)
    (by decide : sizeofTty ≤ 32768)
  obtain ⟨hnone₁, ⟨S₁, hinv₁⟩, -, hslabs₁⟩ := h.ttyStruct hfresh₁ hbeside₁ hk₁ hx id bufferSize
  have hxt : x ∉ st.ttys := fun ht => ne_of_live (h.ttys.fields.struct x ht) hnone₁ rfl
  have hfill := load_ttyFill_bufferSize k₁.mem x id hlt
  -- the input buffer
  have hrest₁ := hfresh.rest hslabs₁
  obtain ⟨hfresh₂, hbeside₂⟩ := hrest₁.first
  obtain ⟨y, k₂, hk₂, hy⟩ := hinv₁.heap.heap.kmalloc_of_page (hfresh₂ b rfl) hsize
  have hbuf₂ : Rotary.ttyBuffer { k₁ with mem := ttyFill k₁.mem x id bufferSize } x
      (Tty.inputBuffer x) (some b) =
      some (y, { k₂ with mem := store k₂.mem (Tty.inputBuffer x) y }) := by
    unfold Rotary.ttyBuffer
    dsimp only
    rw [hfill, hk₂]
    rfl
  obtain ⟨hnone₂, ⟨S₂, hinv₂⟩, -, hsame₂, -, hslabs₂⟩ :=
    hinv₁.ttyBuffer (Function.update_self x (some sizeofTty) st.live) hxt hfill
      (by unfold Tty.inputBuffer Tty.bufferSize; omega) hfresh₂ hbeside₂ hbuf₂ hy
  dsimp only at hsame₂
  have hsize₂ : load (store k₂.mem (Tty.inputBuffer x) y) (Tty.bufferSize x) = bufferSize := by
    rw [← hfill]
    apply load_congr
    intro a h1 h2
    unfold Tty.bufferSize at h1 h2
    exact hsame₂ a (by omega) (by unfold sizeofTty; omega) (by unfold Tty.inputBuffer; omega)
  -- the output buffer
  obtain ⟨hfresh₃, -⟩ := (hrest₁.rest hslabs₂).first
  obtain ⟨z, k₃, hk₃, hz⟩ := hinv₂.heap.heap.kmalloc_of_page (hfresh₃ c rfl) hsize
  have hbuf₃ : Rotary.ttyBuffer { k₂ with mem := store k₂.mem (Tty.inputBuffer x) y } x
      (Tty.outputBuffer x) (some c) =
      some (z, { k₃ with mem := store k₃.mem (Tty.outputBuffer x) z }) := by
    unfold Rotary.ttyBuffer
    dsimp only
    rw [hsize₂, hk₃]
    rfl
  refine ⟨x, y, z, { k₃ with mem := store k₃.mem (Tty.outputBuffer x) z }, ?_, hx, hy, hz⟩
  unfold ttyKmallocs
  simp only [hk₁, hbuf₂, hbuf₃, Option.bind_eq_bind, Option.bind_some, Option.pure_def]

/-! ### Destruction -/

/-- The struct leaves the list; its objects are still live, and nobody's TTY any more. -/
theorem TtyState.Inv.unlink (h : st.Inv head S) (hhead : head ≠ 0) (ht : t ∈ st.ttys) :
    TtyState.Inv head
        ⟨⟨{ st.heap with mem := llistDeleteNode st.heap.mem (Tty.listEntry t) }, st.live⟩,
          st.ttys.erase t⟩ S ∧
      (load (llistDeleteNode st.heap.mem (Tty.listEntry t)) (Tty.inputBuffer t) =
          load st.heap.mem (Tty.inputBuffer t) ∧
        load (llistDeleteNode st.heap.mem (Tty.listEntry t)) (Tty.outputBuffer t) =
          load st.heap.mem (Tty.outputBuffer t) ∧
        load (llistDeleteNode st.heap.mem (Tty.listEntry t)) (Tty.bufferSize t) =
          load st.heap.mem (Tty.bufferSize t)) ∧
      ∀ u ∈ st.ttys.erase t, ∀ q ∈ ttyObjects st.heap.mem t,
        q ∉ ttyObjects (llistDeleteNode st.heap.mem (Tty.listEntry t)) u := by
  have hnd := h.ttys.fields.nodup
  -- the list of structs and the list of nodes, split at the TTY
  obtain ⟨pre, post, hsplit⟩ := List.append_of_mem ht
  have herase : st.ttys.erase t = pre ++ post := by
    rw [hsplit] at hnd ⊢
    have hpre : t ∉ pre := fun hmem =>
      (List.nodup_append.mp hnd).2.2 t hmem t List.mem_cons_self rfl
    rw [List.erase_append_right _ hpre, List.erase_cons_head]
  have hmap : st.ttys.map Tty.listEntry =
      pre.map Tty.listEntry ++ Tty.listEntry t :: post.map Tty.listEntry := by
    rw [hsplit, List.map_append, List.map_cons]
  have hfar := h.heap.far_nodes h.beside h.ttys.fields.struct hnd
  have hlist := h.ttys.list
  rw [hmap] at hfar hlist
  obtain ⟨hlist', hframe⟩ := llistDeleteNode_spec hlist hfar hhead
  have hsub : ∀ u ∈ pre ++ post, u ∈ st.ttys := by
    intro u hu
    rw [hsplit]
    simp only [List.mem_append, List.mem_cons] at hu ⊢
    tauto
  -- only nodes are written, and the other fields of the structs stay
  have hframe' : ∀ a, (∀ y ∈ head :: st.ttys.map Tty.listEntry, a < y ∨ y + 8 ≤ a) →
      llistDeleteNode st.heap.mem (Tty.listEntry t) a = st.heap.mem a := by
    intro a ha
    refine hframe a fun y hy => ha y ?_
    rw [hmap]
    simp only [List.mem_cons, List.mem_append] at hy ⊢
    tauto
  obtain ⟨hheap, hbeside, hkeep⟩ := h.heap.relink h.beside h.ttys.fields.struct hframe'
  obtain ⟨hfields, -, hdisj⟩ := (hsplit ▸ h.ttys.fields : TtyFields _ _ (pre ++ t :: post)).split
  rw [herase]
  refine ⟨⟨hheap, hbeside, hfields.congr (fun u hu => hkeep u (hsub u hu)) fun _ _ _ _ => rfl, ?_⟩,
    ttyFields_congr (hkeep t ht), fun u hu q hq => ?_⟩
  · rw [List.map_append]
    exact hlist'
  · rw [ttyObjects_congr (hkeep u (hsub u hu))]
    exact hdisj u hu q hq

/-- **The three objects are given back**, each to the cache for its size; what remains of
    `tty_destroy` is the `memset`. -/
theorem TtyState.Inv.release (h : st.Inv head S) (hhead : head ≠ 0) (ht : t ∈ st.ttys) :
    ∃ k' S' i, ttyDestroy st.heap t =
        some (.success, { k' with mem := memset k'.mem t 0 sizeofTty }) ∧
      cacheFor (load st.heap.mem (Tty.bufferSize t)) = some i ∧
      TtyState.Inv head ⟨⟨k', liveDestroyed st.heap.mem st.live t⟩, st.ttys.erase t⟩ S' ∧
      (∀ j, (S' j).map Slab.base = (S j).map Slab.base) ∧
      ∀ j q, q ∈ freeSlots (S' j) ↔ q ∈ freeSlots (S j) ∨
        j = i ∧ (q = load st.heap.mem (Tty.inputBuffer t) ∨
          q = load st.heap.mem (Tty.outputBuffer t)) ∨ j = 2 ∧ q = t := by
  obtain ⟨h₁, ⟨hin₁, hout₁, -⟩, hdisj₁⟩ := h.unlink hhead ht
  have hstruct := h.ttys.fields.struct t ht
  have hinput := h.ttys.fields.input t ht
  have houtput := h.ttys.fields.output t ht
  have hnd : (ttyObjects st.heap.mem t).Nodup :=
    (List.nodup_flatMap.mp h.ttys.fields.distinct).1 t ht
  simp only [ttyObjects, List.nodup_cons, List.mem_cons, List.not_mem_nil, or_false, not_or] at hnd
  obtain ⟨⟨hti, hto⟩, hio, -⟩ := hnd
  set input := load st.heap.mem (Tty.inputBuffer t) with hidef
  set output := load st.heap.mem (Tty.outputBuffer t) with hodef
  -- the input buffer
  obtain ⟨k₂, S₂, i, hcall₂, hi, h₂, hbases₂, hfree₂, hobj₂⟩ := h₁.kfree (x := input) hinput
    fun u hu => hdisj₁ u hu input (by simp [ttyObjects, hidef])
  dsimp only at hcall₂ hobj₂
  have hout₂ : load k₂.mem (Tty.outputBuffer t) = output := by
    have heq := hobj₂ t hstruct hti
    simp only [ttyObjects, List.cons.injEq, true_and, and_true] at heq
    exact heq.2.trans hout₁
  have hsame₂ : ∀ u ∈ st.ttys.erase t, ttyObjects k₂.mem u =
      ttyObjects (llistDeleteNode st.heap.mem (Tty.listEntry t)) u := by
    intro u hu
    apply hobj₂ u (h₁.ttys.fields.struct u hu)
    intro heq
    exact hdisj₁ u hu input (by simp [ttyObjects, hidef]) (heq ▸ mem_ttyObjects_self _ u)
  -- the output buffer
  have houtput₂ : Function.update st.live input none output =
      some (load st.heap.mem (Tty.bufferSize t)) := by
    rw [Function.update_of_ne fun heq => hio heq.symm]
    exact houtput
  obtain ⟨k₃, S₃, i', hcall₃, hi', h₃, hbases₃, hfree₃, hobj₃⟩ := h₂.kfree (x := output) houtput₂
    fun u hu => by
      show output ∉ ttyObjects k₂.mem u
      rw [hsame₂ u hu]
      exact hdisj₁ u hu output (by simp [ttyObjects, hodef])
  dsimp only at hcall₃ hobj₃
  obtain rfl : i = i' := Option.some.inj (hi.symm.trans hi')
  -- the struct
  have hstruct₃ : Function.update (Function.update st.live input none) output none t =
      some sizeofTty := by
    rw [Function.update_of_ne hto, Function.update_of_ne hti]
    exact hstruct
  obtain ⟨k₄, S₄, c, hcall₄, hc, h₄, hbases₄, hfree₄, -⟩ := h₃.kfree (x := t) hstruct₃
    fun u hu => by
      have hu₁ := h₁.ttys.fields.struct u hu
      have hu₂ := h₂.ttys.fields.struct u hu
      have huo : u ≠ output := fun heq => by
        have hnot := hdisj₁ u hu output (by simp [ttyObjects, hodef])
        exact hnot (heq ▸ mem_ttyObjects_self _ u)
      show t ∉ ttyObjects k₃.mem u
      rw [hobj₃ u hu₂ huo, hsame₂ u hu]
      exact hdisj₁ u hu t (mem_ttyObjects_self _ t)
  dsimp only at hcall₄
  obtain rfl : 2 = c := Option.some.inj ((by decide : cacheFor sizeofTty = some 2).symm.trans hc)
  refine ⟨k₄, S₄, i, ?_, hi, h₄, fun j => ?_, fun j q => ?_⟩
  · unfold ttyDestroy
    simp only [hin₁, hcall₂, hout₂, hcall₃, hcall₄, Option.bind_eq_bind, Option.bind_some,
      Option.pure_def]
  · rw [hbases₄, hbases₃, hbases₂]
  · rw [hfree₄, hfree₃, hfree₂]
    simp only [and_or_left, or_assoc]

/-- What is live is what clients hold. -/
theorem HeapState.Inv.liveObjects_eq {h₀ : HeapState} (h : h₀.Inv S) :
    liveObjects h₀.heap = {x | ∃ size, h₀.live x = some size} := by
  rw [h.heap.liveObjects_eq]
  ext x
  constructor
  · rintro ⟨i, hx⟩
    obtain ⟨size, hlive, -⟩ := (h.live i x).mp hx
    exact ⟨size, hlive⟩
  · rintro ⟨size, hlive⟩
    obtain ⟨i, hi⟩ := h.sized x size hlive
    exact ⟨i, (h.live i x).mpr ⟨size, hlive, hi⟩⟩

/-- The condition, as it looks when `kfree(target)` has returned. -/
theorem KernelHeap.Inv.heldAbove_iff {s : Slab} {i : Fin 13} (h : k.Inv S) (h' : k'.Inv S')
    (hbases : ∀ j, (S' j).map Slab.base = (S j).map Slab.base)
    (hfree : ∀ q, q ∈ freeObjects k' ↔ q ∈ freeObjects k ∨ q ∈ ttyObjects k.mem t)
    (hs : s ∈ S' i) (ht : t ∈ s.free) : k.HeldAbove t ↔ ∀ y ∈ s.free, y ≤ t := by
  obtain ⟨u, hu, hbase⟩ := List.mem_map.mp (hbases i ▸ List.mem_map_of_mem hs)
  obtain ⟨-, h1, h2⟩ := (h'.mem_free_iff hs).mp ht
  constructor
  · intro hheld y hy
    by_contra hlt
    obtain ⟨hyfree, -, hy2⟩ := (h'.mem_free_iff hs).mp hy
    obtain ⟨hnot, hnot'⟩ := hheld s.base (h.mem_slabs.mpr ⟨i, u, hu, hbase⟩) h1 h2 y
      (by omega) hy2
    exact ((hfree y).mp hyfree).elim hnot hnot'
  · intro hlast b hb hb1 hb2 y hty hyb
    obtain ⟨j, w, hw, rfl⟩ := h.mem_slabs.mp hb
    obtain ⟨-, rfl⟩ := h.slab_unique hu hw (by unfold Apart; omega)
    have hyfree : y ∉ freeObjects k' := fun hmem => by
      have hle := hlast y ((h'.mem_free_iff hs).mpr ⟨hmem, by omega, by omega⟩)
      omega
    rw [hfree, not_or] at hyfree
    exact hyfree

/-- The facts about `tty_destroy`: the heap just before its `memset`, where the struct is a free
    object of its slab, the last one exactly under the condition. -/
theorem TtyState.Inv.destroy_cases (h : st.Inv head S) (hhead : head ≠ 0) (ht : t ∈ st.ttys) :
    ∃ k' S' i s, ttyDestroy st.heap t =
        some (.success, { k' with mem := memset k'.mem t 0 sizeofTty }) ∧
      cacheFor (load st.heap.mem (Tty.bufferSize t)) = some i ∧
      TtyState.Inv head ⟨⟨k', liveDestroyed st.heap.mem st.live t⟩, st.ttys.erase t⟩ S' ∧
      (∀ j, (S' j).map Slab.base = (S j).map Slab.base) ∧
      (∀ q, q ∈ freeObjects k' ↔ q ∈ freeObjects st.heap ∨ q ∈ ttyObjects st.heap.mem t) ∧
      (load st.heap.mem (Tty.inputBuffer t) ∈ freeSlots (S' i) ∧
        load st.heap.mem (Tty.outputBuffer t) ∈ freeSlots (S' i)) ∧
      s ∈ S' 2 ∧ t ∈ s.free ∧ (st.heap.HeldAbove t ↔ ∀ y ∈ s.free, y ≤ t) := by
  obtain ⟨k', S', i, hcall, hi, hinv, hbases, hslots⟩ := h.release hhead ht
  have hfree : ∀ q, q ∈ freeObjects k' ↔
      q ∈ freeObjects st.heap ∨ q ∈ ttyObjects st.heap.mem t := by
    intro q
    rw [hinv.heap.heap.freeObjects_eq, h.heap.heap.freeObjects_eq]
    simp only [Set.mem_ofPred_eq, hslots, exists_or, exists_eq_left, ttyObjects, List.mem_cons,
      List.not_mem_nil, or_false]
    rw [or_comm (b := q = t)]
  obtain ⟨s, hs, hts⟩ : t ∈ freeSlots (S' 2) := (hslots 2 t).mpr (Or.inr (Or.inr ⟨rfl, rfl⟩))
  exact ⟨k', S', i, s, hcall, hi, hinv, hbases, hfree,
    ⟨(hslots i _).mpr (Or.inr (Or.inl ⟨rfl, Or.inl rfl⟩)),
      (hslots i _).mpr (Or.inr (Or.inl ⟨rfl, Or.inr rfl⟩))⟩, hs, hts,
    h.heap.heap.heldAbove_iff hinv.heap.heap hbases hfree hs hts⟩

/-- **One destruction** keeps the free counts right exactly under the condition. -/
theorem TtyState.Inv.destroy_counts (h : st.Inv head S) (hhead : head ≠ 0) (ht : t ∈ st.ttys) :
    ∃ k', ttyDestroy st.heap t = some (.success, k') ∧
      (k'.CountsMatch ↔ st.heap.HeldAbove t) := by
  obtain ⟨k', S', i, s, hcall, -, hinv, -, -, -, hs, hts, hheld⟩ := h.destroy_cases hhead ht
  have hsize : sizeofTty ≤ slabCacheSizes 2 := by decide
  refine ⟨_, hcall, ?_⟩
  rw [hheld]
  constructor
  · intro hcounts y hy
    by_contra hlt
    exact hinv.heap.heap.clear_cuts hs hts (by decide) hsize hy (by omega) hcounts
  · intro hlast
    exact (hinv.heap.heap.clear hs hts hsize hlast).countsMatch

/-- **`tty_destroy` under the condition** keeps the invariant, and gives back exactly the struct
    and the two buffers. -/
theorem TtyState.Inv.destroy (h : st.Inv head S) (hhead : head ≠ 0) (ht : t ∈ st.ttys)
    (hheld : st.heap.HeldAbove t) :
    ∃ k' S' i, ttyDestroy st.heap t = some (.success, k') ∧
      cacheFor (load st.heap.mem (Tty.bufferSize t)) = some i ∧
      TtyState.Inv head ⟨⟨k', liveDestroyed st.heap.mem st.live t⟩, st.ttys.erase t⟩ S' ∧
      freeObjects k' = freeObjects st.heap ∪ {q | q ∈ ttyObjects st.heap.mem t} ∧
      (load st.heap.mem (Tty.inputBuffer t) ∈ freeSlots (S' i) ∧
        load st.heap.mem (Tty.outputBuffer t) ∈ freeSlots (S' i)) ∧ t ∈ freeSlots (S' 2) := by
  obtain ⟨k', S', i, s, hcall, hi, hinv, hbases, hfree, hbuffers, hs, hts, hiff⟩ :=
    h.destroy_cases hhead ht
  have hsize : sizeofTty ≤ slabCacheSizes 2 := by decide
  have hclear := hinv.heap.heap.clear hs hts hsize (hiff.mp hheld)
  have hsame : ∀ a, (head ≤ a ∧ a < head + 8) ∨
      (∃ u ∈ st.ttys.erase t, u ≤ a ∧ a < u + sizeofTty) →
      memset k'.mem t 0 sizeofTty a = k'.mem a := by
    intro a ha
    apply memset_of_not_mem
    rcases ha with ⟨h1, h2⟩ | ⟨u, hu, h1, h2⟩
    · -- the struct is in a slab, and the list head is in none
      have hslot := ((hinv.heap.heap.cacheAt 2).slab s hs).slot t hts
      rw [hinv.heap.heap.size 2] at hslot
      have hb := hslot.bounds
      have hbeside := hinv.beside s.base (hinv.heap.heap.mem_slabs.mpr ⟨2, s, hs, rfl⟩)
      unfold Beside at hbeside
      omega
    · have hap := hinv.heap.live_apart_free (hinv.ttys.fields.struct u hu) hs hts
      omega
  refine ⟨_, S', i, hcall, hi, ⟨⟨hclear, hinv.heap.sized, hinv.heap.live⟩, fun b hb => ?_,
    hinv.ttys_congr hsame fun _ _ _ _ => rfl⟩, ?_, hbuffers, ⟨s, hs, hts⟩⟩
  · exact hinv.beside b ((hinv.heap.heap.mem_slabs_iff hclear b).mp hb)
  · rw [hclear.freeObjects_eq, ← hinv.heap.heap.freeObjects_eq]
    ext q
    exact hfree q

/-! ### Runs -/

theorem TtyState.start_inv (hm : load m head = 0) : (TtyState.start m).Inv head fun _ => [] := by
  have hheap := HeapState.start_inv m
  refine ⟨hheap, fun b hb => ?_, ⟨by simp [TtyState.start], by simp [TtyState.start],
    by simp [TtyState.start], by simp [TtyState.start]⟩, hm⟩
  obtain ⟨i, s, hs, -⟩ := hheap.heap.mem_slabs.mp hb
  cases hs

/-- **A step that meets the condition keeps the invariant.** -/
theorem TtyState.Inv.step {call : TtyCall} (h : st.Inv head S) (hhead : head ≠ 0)
    (hhead32 : head + 8 ≤ 2 ^ 32) (hstep : TtyStep head st call st') (hmeets : call.Meets st) :
    ∃ S', st'.Inv head S' := by
  cases hstep with
  | create id bufferSize hsize p₁ p₂ p₃ hfresh newTty input output k₁ hcalls hserved t k' hcall =>
    rw [ttyCreate_eq, hcalls, Option.map_some, Option.some.injEq, Prod.mk.injEq] at hcall
    obtain ⟨rfl, rfl⟩ := hcall
    exact h.create hhead hhead32 hsize hfresh hcalls hserved
  | destroy t ht r k' hcall =>
    obtain ⟨k₁, S', i, heq, -, hinv, -⟩ := h.destroy hhead ht hmeets
    rw [hcall, Option.some.injEq, Prod.mk.injEq] at heq
    obtain ⟨-, rfl⟩ := heq
    exact ⟨S', hinv⟩
  | kmalloc size p hfresh x k' hcall =>
    obtain ⟨hfresh', hbeside⟩ := hfresh.first
    exact (h.kmalloc hfresh' hbeside hcall).2.1
  | kfree x size hlive hx r k' hcall =>
    obtain ⟨k₁, S', i, heq, -, hinv, -⟩ := h.kfree hlive hx
    rw [hcall, Option.some.injEq, Prod.mk.injEq] at heq
    obtain ⟨-, rfl⟩ := heq
    exact ⟨S', hinv⟩
  | write m' hstore hstructs hhead' => exact ⟨S, h.write hstore hstructs hhead'⟩

/-- **Every state of a run keeps the invariant.** -/
theorem TtyRun.inv (hhead : head ≠ 0) (hhead32 : head + 8 ≤ 2 ^ 32) (hm : load m head = 0)
    (hrun : TtyRun head (TtyState.start m) st) : ∃ S, st.Inv head S := by
  induction hrun with
  | refl => exact ⟨_, TtyState.start_inv hm⟩
  | tail _ hstep ih =>
    obtain ⟨S, h⟩ := ih
    obtain ⟨call, hstep, hmeets⟩ := hstep
    exact h.step hhead hhead32 hstep hmeets

/-- What `tty_destroy` gives back: exactly the struct and the two buffers, so that requests of
    these sizes are served afterwards without a new block, in whatever order they come. -/
def TtyState.Returns (st : TtyState) (t : ℕ) : Prop :=
  ∃ k', ttyDestroy st.heap t = some (.success, k') ∧
    freeObjects k' = freeObjects st.heap ∪ {q | q ∈ ttyObjects st.heap.mem t} ∧
    liveObjects k' = liveObjects st.heap \ {q | q ∈ ttyObjects st.heap.mem t} ∧
    ∀ sizes : List ℕ, sizes.Perm [sizeofTty, load st.heap.mem (Tty.bufferSize t),
      load st.heap.mem (Tty.bufferSize t)] → k'.Serves sizes

/-- A state with sound TTYs: the slab invariant, the free counts, the list of exactly the live
    TTYs, and what a destruction does. -/
structure TtyState.Sound (head : ℕ) (st : TtyState) : Prop where
  heap : ∃ S, st.heap.Inv S
  counts : st.heap.CountsMatch
  list : chainList st.heap.mem walkLimit (load st.heap.mem head) = st.ttys.map Tty.listEntry
  creates : ∀ id bufferSize a b c, bufferSize ≤ 32768 →
    FreshPages head st.heap.slabs [some a, some b, some c] →
    ∃ st', TtyStep head st (.create id bufferSize) st'
  returns : ∀ t ∈ st.ttys, st.heap.HeldAbove t → st.Returns t
  /-- A destruction that does not meet the condition breaks the counts. -/
  exact : ∀ t ∈ st.ttys, ∃ k', ttyDestroy st.heap t = some (.success, k') ∧
    (k'.CountsMatch ↔ st.heap.HeldAbove t)

/-- Three free objects serve three requests. -/
theorem KernelHeap.Inv.serves_three {i c : Fin 13} {n size₁ x y z : ℕ} (h : k.Inv S)
    (hc : cacheFor size₁ = some c) (hi : cacheFor n = some i) (hx : x ∈ freeSlots (S c))
    (hy : y ∈ freeSlots (S i)) (hz : z ∈ freeSlots (S i)) (hne : x ≠ y ∧ x ≠ z ∧ y ≠ z)
    {sizes : List ℕ} (hperm : sizes.Perm [size₁, n, n]) : k.Serves sizes := by
  obtain ⟨hxy, hxz, hyz⟩ := hne
  refine h.serves (fun j => (if j = c then {x} else ∅) ∪ (if j = i then {y, z} else ∅))
    (fun j q hq => ?_) (fun size hsize => ?_) fun j => ?_
  · rcases Finset.mem_union.mp hq with hq | hq
    · by_cases hj : j = c
      · rw [if_pos hj, Finset.mem_singleton] at hq
        rwa [hj, hq]
      · rw [if_neg hj] at hq
        cases hq
    · by_cases hj : j = i
      · rw [if_pos hj, Finset.mem_insert, Finset.mem_singleton] at hq
        rw [hj]
        rcases hq with rfl | rfl
        · exact hy
        · exact hz
      · rw [if_neg hj] at hq
        cases hq
  · have hmem := hperm.mem_iff.mp hsize
    simp only [List.mem_cons, List.not_mem_nil, or_false, or_self] at hmem
    rcases hmem with rfl | rfl
    · exact ⟨c, hc⟩
    · exact ⟨i, hi⟩
  · -- the requests for a cache, and the objects it has for them
    rw [hperm.countP_eq]
    have hpair : ({y, z} : Finset ℕ).card = 2 := Finset.card_pair hyz
    have hdisj : Disjoint ({x} : Finset ℕ) {y, z} := by
      rw [Finset.disjoint_singleton_left, Finset.mem_insert, Finset.mem_singleton]
      exact fun heq => heq.elim hxy hxz
    by_cases hjc : j = c
    · by_cases hji : j = i
      · rw [if_pos hjc, if_pos hji, Finset.card_union_of_disjoint hdisj, hpair]
        simp [hc, hi, ← hjc, ← hji]
      · rw [if_pos hjc, if_neg hji]
        simp [hc, hi, ← hjc, Ne.symm hji]
    · by_cases hji : j = i
      · rw [if_neg hjc, if_pos hji, Finset.empty_union, hpair]
        simp [hc, hi, ← hji, Ne.symm hjc]
      · rw [if_neg hjc, if_neg hji]
        simp [hc, hi, Ne.symm hji, Ne.symm hjc]

theorem TtyState.Inv.returns (h : st.Inv head S) (hhead : head ≠ 0) (ht : t ∈ st.ttys)
    (hheld : st.heap.HeldAbove t) : st.Returns t := by
  obtain ⟨k', S', i, hcall, hi, hinv, hfree, ⟨hin, hout⟩, hstruct⟩ := h.destroy hhead ht hheld
  have hnd : (ttyObjects st.heap.mem t).Nodup :=
    (List.nodup_flatMap.mp h.ttys.fields.distinct).1 t ht
  simp only [ttyObjects, List.nodup_cons, List.mem_cons, List.not_mem_nil, or_false, not_or] at hnd
  obtain ⟨⟨hti, hto⟩, hio, -⟩ := hnd
  refine ⟨k', hcall, hfree, ?_, fun sizes hperm => ?_⟩
  · rw [hinv.heap.liveObjects_eq, h.heap.liveObjects_eq]
    ext q
    simp only [liveDestroyed, ttyObjects, Function.update_apply, Set.mem_sdiff, Set.mem_ofPred_eq,
      List.mem_cons, List.not_mem_nil, or_false, not_or]
    by_cases hq : q = t
    · simp [hq]
    · by_cases hq' : q = load st.heap.mem (Tty.outputBuffer t)
      · simp [hq']
      · by_cases hq'' : q = load st.heap.mem (Tty.inputBuffer t)
        · simp [hq'']
        · simp [hq, hq', hq'']
  · exact hinv.heap.heap.serves_three (by decide) hi hstruct hin hout ⟨hti, hto, hio⟩ hperm

theorem TtyState.Inv.creates (h : st.Inv head S) (hsize : bufferSize ≤ 32768) {a b c : ℕ}
    (hfresh : FreshPages head st.heap.slabs [some a, some b, some c]) (id : ℕ) :
    ∃ t live' k', TtyStep head st (.create id bufferSize) ⟨⟨k', live'⟩, t :: st.ttys⟩ := by
  obtain ⟨x, y, z, k₁, hcalls, hserved⟩ := h.served hsize hfresh id
  have hcall : ttyCreate head st.heap id bufferSize (some a) (some b) (some c) =
      some (x, { k₁ with mem := ttyPublish k₁.mem head x }) := by
    rw [ttyCreate_eq, hcalls]
    rfl
  exact ⟨x, _, _, .create st id bufferSize (by omega) _ _ _ hfresh x y z k₁ hcalls hserved _ _ hcall⟩

/-- **The lifetime of TTYs**, in every state of every run that meets the condition. -/
theorem ttyRun_sound (hhead : head ≠ 0) (hhead32 : head + 8 ≤ 2 ^ 32) (hm : load m head = 0)
    (hrun : TtyRun head (TtyState.start m) st) : st.Sound head := by
  obtain ⟨S, h⟩ := TtyRun.inv hhead hhead32 hm hrun
  refine ⟨⟨S, h.heap.heap⟩, h.heap.heap.countsMatch, ?_, fun id n a b c hn hfresh => ?_,
    fun t ht => h.returns hhead ht, fun t ht => h.destroy_counts hhead ht⟩
  · have hchain := h.ttys.list.chain
    exact hchain.chainList_eq (Nat.le_of_lt (hchain.length_lt (load_lt _ _)))
  · obtain ⟨t, live', k', hstep⟩ := h.creates hn hfresh id
    exact ⟨_, hstep⟩

/-! ### A TTY on an empty heap -/

/-- The first object of a fresh block. -/
theorem kmalloc_init_some {p : ℕ} (hfresh : FreshBlock (KernelHeap.init m).slabs p)
    (hcall : kmalloc (KernelHeap.init m) sizeofTty (some p) = some (x, k')) :
    x = pageVa p + sizeofSlabHeader := by
  have hpages : ∀ q ∈ some p, FreshBlock (KernelHeap.init m).slabs q := fun q hq =>
    Option.some.inj hq ▸ hfresh
  rcases kmalloc_spec (KernelHeap.init_inv m) hpages sizeofTty with
    ⟨hnone, -⟩ | ⟨i, y, m', cache', slabs', hi, heq, hserved, -, -⟩
  · exact absurd hnone (by decide)
  · obtain ⟨rfl, -⟩ : x = y ∧ k' = _ := by simpa [hcall] using heq
    obtain rfl : 2 = i := Option.some.inj ((by decide : cacheFor sizeofTty = some 2).symm.trans hi)
    generalize hS : ([] : List Slab) = slabs at hserved
    cases hserved with
    | reused pre post base x rest newPage => simp at hS
    | grown _ hfull page x rest hslots =>
      have hcount : slotCount (slabCacheSizes 2) = 2045 + 1 := by decide
      unfold allSlots at hslots
      rw [hcount, List.range_succ_eq_map, List.map_cons, List.cons.injEq] at hslots
      rw [← hslots.1]
      unfold slotAddr
      omega

theorem freshPages_init (m : ByteMem) :
    FreshPages 0xC0120000 (KernelHeap.init m).slabs [some 16, some 32, some 48] := by
  have hempty : (KernelHeap.init m).slabs = [] := by
    apply List.eq_nil_iff_forall_not_mem.mpr
    intro b hb
    obtain ⟨i, s, hs, -⟩ := (KernelHeap.init_inv m).mem_slabs.mp hb
    cases hs
  have h16 : pageVa 16 = 0xC0010000 := by decide
  have h32 : pageVa 32 = 0xC0020000 := by decide
  have h48 : pageVa 48 = 0xC0030000 := by decide
  have hsize : slabBytes = 65536 := rfl
  rw [hempty]
  refine ⟨⟨by omega, by omega, by simp⟩, ?_, ⟨by omega, by omega, ?_⟩, ?_,
    ⟨by omega, by omega, ?_⟩, ?_, trivial⟩
  · unfold Beside
    omega
  · simp only [List.mem_singleton, forall_eq, Apart]
    omega
  · unfold Beside
    omega
  · simp only [List.mem_cons, List.not_mem_nil, or_false, forall_eq_or_imp, forall_eq, Apart]
    omega
  · unfold Beside
    omega

/-- A TTY with buffers of 20000 bytes: its objects are the first ones of an empty heap. -/
theorem ttyCreate_init :
    ∃ y z k', TtyStep 0xC0120000 (TtyState.start fun _ => 0) (.create 1 20000)
      ⟨⟨k', liveCreated (fun _ => none) 0xC0010028 y z 20000⟩, [0xC0010028]⟩ := by
  have hstart : (TtyState.start fun _ => 0).Inv 0xC0120000 fun _ => [] :=
    TtyState.start_inv (by decide)
  have hfresh := freshPages_init fun _ => 0
  obtain ⟨x, y, z, k₁, hcalls, hserved⟩ := hstart.served (by decide : 20000 ≤ 32768) hfresh 1
  obtain ⟨k₀, hk⟩ := ttyKmallocs_struct hcalls
  have hx : x = pageVa 16 + sizeofSlabHeader := kmalloc_init_some hfresh.1 hk
  have haddr : pageVa 16 + sizeofSlabHeader = 0xC0010028 := by decide
  rw [haddr] at hx
  subst hx
  have hcall : ttyCreate 0xC0120000 (KernelHeap.init fun _ => 0) 1 20000 (some 16) (some 32)
      (some 48) = some (0xC0010028, { k₁ with mem := ttyPublish k₁.mem 0xC0120000 0xC0010028 }) := by
    have hcalls' : ttyKmallocs (KernelHeap.init fun _ => 0) 1 20000 (some 16) (some 32) (some 48) =
        some ((0xC0010028, y, z), k₁) := hcalls
    rw [ttyCreate_eq, hcalls']
    rfl
  exact ⟨y, z, _, .create _ 1 20000 (by decide) _ _ _ hfresh _ y z k₁ hcalls hserved _ _ hcall⟩

theorem ttyRun_sound_create :
    ∃ st, TtyRun 0xC0120000 (TtyState.start fun _ => 0) st ∧ st.ttys = [0xC0010028] ∧
      st.Sound 0xC0120000 := by
  obtain ⟨y, z, k', hstep⟩ := ttyCreate_init
  have hrun := Relation.ReflTransGen.single (r := fun st st' : TtyState =>
    ∃ call, TtyStep 0xC0120000 st call st' ∧ call.Meets st) ⟨_, hstep, trivial⟩
  exact ⟨_, hrun, rfl, ttyRun_sound (by decide) (by decide) (by decide) hrun⟩

/-- **Creating one TTY and destroying it** leaves a slab with 2046 free objects counted and fewer
    on its free list. -/
theorem ttyDestroy_breaks_heap :
    ∃ st st', TtyStep 0xC0120000 (TtyState.start fun _ => 0) (.create 1 20000) st ∧
      TtyStep 0xC0120000 st (.destroy 0xC0010028) st' ∧ ¬ st'.heap.CountsMatch := by
  obtain ⟨y, z, k', hstep⟩ := ttyCreate_init
  have hstart := TtyState.start_inv (by decide : load (fun _ => 0) 0xC0120000 = 0)
  obtain ⟨S, h⟩ := hstart.step (by decide) (by decide) hstep trivial
  obtain ⟨k'', hcall, hiff⟩ := h.destroy_counts (by decide) List.mem_cons_self
  refine ⟨_, _, hstep, .destroy _ _ List.mem_cons_self _ _ hcall, ?_⟩
  rw [hiff]
  -- the struct is a slot of a slab whose next slot is free
  have hsize2 : slabCacheSizes 2 = 32 := rfl
  have hcount : slotCount 32 = 2046 := by decide
  have hlive : liveCreated (fun _ => none) 0xC0010028 y z 20000 0xC0010028 = some sizeofTty :=
    h.ttys.fields.struct 0xC0010028 List.mem_cons_self
  obtain ⟨i, hi, s, hs, ⟨n, hn, hslot⟩, -⟩ := h.heap.exists_slab hlive
  obtain rfl : 2 = i := Option.some.inj ((by decide : cacheFor sizeofTty = some 2).symm.trans hi)
  rw [hsize2, hcount] at hn
  rw [hsize2] at hslot
  unfold slotAddr sizeofSlabHeader at hslot
  obtain ⟨c, hc⟩ := ((h.heap.heap.cacheAt 2).slab s hs).placed.aligned
  rw [show pageSize = 4096 from rfl] at hc
  have hnext : IsSlot (slabCacheSizes 2) s.base 0xC0010048 := by
    rw [hsize2]
    refine ⟨n + 1, ?_, ?_⟩
    · rw [hcount]
      omega
    · unfold slotAddr sizeofSlabHeader
      omega
  have hfree : 0xC0010048 ∈ s.free := by
    by_contra hnot
    obtain ⟨size, hlive', hcache⟩ := (h.heap.live 2 0xC0010048).mp ⟨s, hs, hnext, hnot⟩
    -- the other two live objects belong to another cache
    simp only [liveCreated, Function.update_apply] at hlive'
    have hsize : size = 20000 := by
      split at hlive'
      · exact (Option.some.inj hlive').symm
      · split at hlive'
        · exact (Option.some.inj hlive').symm
        · simp at hlive'
    subst hsize
    exact absurd hcache (by decide)
  intro hheld
  have hmem := h.heap.heap.mem_slabs.mpr ⟨2, s, hs, rfl⟩
  obtain ⟨hobj, -, hstop⟩ := (h.heap.heap.mem_free_iff hs).mp hfree
  have hsize : slabBytes = 65536 := rfl
  exact (hheld s.base hmem (by omega) (by omega) 0xC0010048 (by decide) hstop).1 hobj

end Rotary

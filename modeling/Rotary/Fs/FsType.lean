import Rotary.Core.List
import Rotary.Core.Logging

namespace Rotary

open Lib

/-!
# The registry of filesystem types (`kernel/fs/vfs/fs_type.c`)

The objects are linked through a node of their own into the ring of `fs_list_head`, the newest
first.  `file_system_type_unregister` deletes nodes in a traversal that goes on from the node in
hand: a deleted node keeps its links, so that the traversal gets past it.

* `Registry` — the registered objects and the names, as a list and a map;
* `unregisterFrom_filter` / `getFrom_find` — the two traversals, which end whatever they find;
* `fsCall_spec` / `fsCall_overflows` — one call, as what it logs fits into the buffers or not;
* `fsTypes_registry` — every sequence of calls does to the ring what it does to the registry,
  exactly if all that is logged fits.

The spin lock is left out here; `FsTypeLock` adds it.
-/

/-! ### The code -/

/-- The list nodes: `fs_list_head`, and the `fs_list_entry` of an object. -/
inductive FsNode
  | head
  | entry (fs : ℕ)
  deriving DecidableEq

/-- The links of all nodes, and the `name` of every object. -/
structure FsTypes where
  nodes : NodeHeap FsNode
  name : ℕ → CStr

/-- `file_system_type_register`, in the source file `file`. -/
def fileSystemTypeRegister (file : CStr) (s : FsTypes) (fs : ℕ) : Option FsTypes := do
  let _ ← klog file.bytes (ascii "Registering FS type '%s'\n" ++ [0]) [.str (s.name fs).bytes]
  return { s with nodes := clistAdd s.nodes .head (.entry fs) }

/-- The traversal of `file_system_type_unregister`, from the node in hand. -/
def unregisterFrom (name : CStr) : ℕ → FsNode → FsTypes → Option FsTypes
  | 0, _, _ => none
  | _ + 1, .head, s => some s
  | fuel + 1, .entry f, s => do
    let r ← strcmp (s.name f).bytes name.bytes
    let s := if r = 0 then { s with nodes := clistDeleteNode s.nodes (.entry f) } else s
    let next ← (s.nodes (.entry f)).next
    unregisterFrom name fuel next s

/-- `file_system_type_unregister`. -/
def fileSystemTypeUnregister (fuel : ℕ) (file : CStr) (s : FsTypes) (fs : ℕ) : Option FsTypes := do
  let _ ← klog file.bytes (ascii "Unregistering FS type '%s'\n" ++ [0]) [.str (s.name fs).bytes]
  let first ← (s.nodes .head).next
  unregisterFrom (s.name fs) fuel first s

/-- The traversal of `file_system_type_get`, from the node in hand. -/
def getFrom (name : CStr) : ℕ → FsNode → FsTypes → Option (Option ℕ)
  | 0, _, _ => none
  | _ + 1, .head, _ => some none
  | fuel + 1, .entry f, s => do
    let r ← strcmp (s.name f).bytes name.bytes
    if r = 0 then return some f
    let next ← (s.nodes (.entry f)).next
    getFrom name fuel next s

/-- `file_system_type_get`; `NULL` is `none`. -/
def fileSystemTypeGet (fuel : ℕ) (s : FsTypes) (name : CStr) : Option (Option ℕ) := do
  let first ← (s.nodes .head).next
  getFrom name fuel first s

/-! ### Calls -/

/-- The owner of an object gives it a name, or one of the three functions is called. -/
inductive FsCall
  | own (fs : ℕ) (name : CStr)
  | register (fs : ℕ)
  | unregister (fs : ℕ)
  | get (name : CStr)

/-- A call: the state after it, and what `file_system_type_get` returns. -/
def fsCall (file : CStr) (fuel : ℕ) (s : FsTypes) : FsCall → Option (FsTypes × Option ℕ)
  | .own fs name => some ({ s with name := Function.update s.name fs name }, none)
  | .register fs => (fileSystemTypeRegister file s fs).map fun s => (s, none)
  | .unregister fs => (fileSystemTypeUnregister fuel file s fs).map fun s => (s, none)
  | .get name => (fileSystemTypeGet fuel s name).map fun found => (s, found)

/-- A sequence of calls, with all that is returned. -/
def fsCalls (file : CStr) (fuel : ℕ) : FsTypes → List FsCall → Option (FsTypes × List (Option ℕ))
  | s, [] => some (s, [])
  | s, call :: calls => do
    let (s, answer) ← fsCall file fuel s call
    let (s, answers) ← fsCalls file fuel s calls
    return (s, answer :: answers)

/-! ### The registry -/

/-- The registered objects, the newest first, and the names of all objects. -/
structure Registry where
  objects : List ℕ
  name : ℕ → CStr

namespace Registry

/-- What a call does: an object is added, or all objects of a name are removed. -/
def after (r : Registry) : FsCall → Registry
  | .own fs name => { r with name := Function.update r.name fs name }
  | .register fs => { r with objects := fs :: r.objects }
  | .unregister fs => { r with objects := r.objects.filter fun f => r.name f ≠ r.name fs }
  | .get _ => r

/-- What a call returns: the newest object of a name. -/
def answer (r : Registry) : FsCall → Option ℕ
  | .get name => r.objects.find? fun f => r.name f = name
  | _ => none

/-- An object that is registered is neither renamed nor registered again. -/
def Allows (r : Registry) : FsCall → Prop
  | .own fs _ => fs ∉ r.objects
  | .register fs => fs ∉ r.objects
  | _ => True

/-- The message that a call logs fits into one buffer together with the name of the source file. -/
def LogFits (file : CStr) (r : Registry) : FsCall → Prop
  | .register fs => file.chars.length + (r.name fs).chars.length + 26 ≤ 511
  | .unregister fs => file.chars.length + (r.name fs).chars.length + 28 ≤ 511
  | _ => True

/-- The registry after a sequence of calls. -/
def afterAll (r : Registry) (calls : List FsCall) : Registry := calls.foldl after r

/-- All that a sequence of calls returns. -/
def answers : Registry → List FsCall → List (Option ℕ)
  | _, [] => []
  | r, call :: calls => r.answer call :: (r.after call).answers calls

/-- Every call of the sequence is allowed. -/
def AllowsAll : Registry → List FsCall → Prop
  | _, [] => True
  | r, call :: calls => r.Allows call ∧ (r.after call).AllowsAll calls

/-- Every call of the sequence logs what fits. -/
def LogsFit (file : CStr) : Registry → List FsCall → Prop
  | _, [] => True
  | r, call :: calls => r.LogFits file call ∧ (r.after call).LogsFit file calls

end Registry

/-- The ring of the list head holds the registered objects. -/
structure Represents (s : FsTypes) (r : Registry) : Prop where
  ring : Ring s.nodes .head (r.objects.map .entry)
  names : s.name = r.name

variable {s s' : FsTypes} {r : Registry} {file name : CStr} {f fuel : ℕ} {pre rest : List ℕ}
  {call : FsCall} {calls : List FsCall}

/-! ### Traversals -/

/-- The node behind the one in hand. -/
theorem next_entry (hr : Ring s.nodes .head ((pre ++ f :: rest).map .entry)) :
    (s.nodes (.entry f)).next = some ((rest.map .entry).headD .head) := by
  rw [List.map_append, List.map_cons] at hr
  exact hr.neighbours.2

/-- A deleted node keeps its link. -/
theorem next_deleted (hr : Ring s.nodes .head ((pre ++ f :: rest).map .entry)) :
    (clistDeleteNode s.nodes (.entry f) (.entry f)).next = (s.nodes (.entry f)).next := by
  rw [List.map_append, List.map_cons] at hr
  rw [(clistDeleteNode_words hr (.entry f)).1]
  split <;> rfl

/-- **The deleting traversal**, from any point of the ring: it ends, and removes the objects of the
    name that it still has to visit. -/
theorem unregisterFrom_filter (name : CStr) (pre : List ℕ)
    (hr : Ring s.nodes .head ((pre ++ rest).map .entry)) :
    ∃ nodes, (∀ fuel, rest.length < fuel →
        unregisterFrom name fuel ((rest.map .entry).headD .head) s =
          some { s with nodes := nodes }) ∧
      Ring nodes .head ((pre ++ rest.filter fun f => s.name f ≠ name).map .entry) := by
  induction rest generalizing pre s with
  | nil =>
    refine ⟨s.nodes, fun fuel hfuel => ?_, hr⟩
    obtain ⟨fuel, rfl⟩ := Nat.exists_eq_succ_of_ne_zero (Nat.ne_of_gt hfuel)
    rfl
  | cons f rest ih =>
    obtain ⟨r, hcmp, hequal⟩ := (s.name f).strcmp_eq_zero name
    have hnext := next_entry hr
    by_cases hsame : s.name f = name
    · -- the object is removed, and its own link leads on
      have hdeleted : Ring (clistDeleteNode s.nodes (.entry f)) .head
          ((pre ++ rest).map .entry) := by
        rw [List.map_append, List.map_cons] at hr
        rw [List.map_append]
        exact clistDeleteNode_ring hr
      obtain ⟨nodes, hrun, hring⟩ :=
        ih (s := { s with nodes := clistDeleteNode s.nodes (.entry f) }) pre hdeleted
      refine ⟨nodes, fun fuel hfuel => ?_, ?_⟩
      · obtain ⟨fuel, rfl⟩ := Nat.exists_eq_succ_of_ne_zero (by omega : fuel ≠ 0)
        show unregisterFrom name (fuel + 1) (.entry f) s = _
        rw [unregisterFrom, hcmp, Option.bind_eq_bind, Option.bind_some, if_pos (hequal.mpr hsame)]
        simp only [next_deleted hr, hnext, Option.bind_eq_bind, Option.bind_some]
        exact hrun fuel (Nat.lt_of_succ_lt_succ hfuel)
      · rw [List.filter_cons_of_neg (by simpa using hsame)]
        exact hring
    · have hassoc : pre ++ f :: rest = pre ++ [f] ++ rest := by simp
      rw [hassoc] at hr
      obtain ⟨nodes, hrun, hring⟩ := ih (pre ++ [f]) hr
      refine ⟨nodes, fun fuel hfuel => ?_, ?_⟩
      · obtain ⟨fuel, rfl⟩ := Nat.exists_eq_succ_of_ne_zero (by omega : fuel ≠ 0)
        show unregisterFrom name (fuel + 1) (.entry f) s = _
        rw [unregisterFrom, hcmp, Option.bind_eq_bind, Option.bind_some,
          if_neg fun h => hsame (hequal.mp h)]
        simp only [hnext, Option.bind_eq_bind, Option.bind_some]
        exact hrun fuel (Nat.lt_of_succ_lt_succ hfuel)
      · rw [List.filter_cons_of_pos (by simpa using hsame)]
        rw [List.append_assoc, List.singleton_append] at hring
        exact hring

/-- **The searching traversal**, from any point of the ring: it ends at the first object of the name
    or at the list head. -/
theorem getFrom_find (name : CStr) (pre : List ℕ)
    (hr : Ring s.nodes .head ((pre ++ rest).map .entry))
    (hfuel : rest.length < fuel) :
    getFrom name fuel ((rest.map .entry).headD .head) s =
      some (rest.find? fun f => s.name f = name) := by
  induction rest generalizing pre fuel with
  | nil =>
    obtain ⟨fuel, rfl⟩ := Nat.exists_eq_succ_of_ne_zero (Nat.ne_of_gt hfuel)
    rfl
  | cons f rest ih =>
    obtain ⟨fuel, rfl⟩ := Nat.exists_eq_succ_of_ne_zero (by omega : fuel ≠ 0)
    obtain ⟨r, hcmp, hequal⟩ := (s.name f).strcmp_eq_zero name
    show getFrom name (fuel + 1) (.entry f) s = _
    rw [getFrom, hcmp, Option.bind_eq_bind, Option.bind_some]
    by_cases hsame : s.name f = name
    · rw [if_pos (hequal.mpr hsame), List.find?_cons_of_pos (by simpa using hsame)]
      rfl
    · have hnext := next_entry hr
      have hassoc : pre ++ f :: rest = pre ++ [f] ++ rest := by simp
      rw [hassoc] at hr
      rw [if_neg fun h => hsame (hequal.mp h), List.find?_cons_of_neg (by simpa using hsame), hnext]
      exact ih (pre ++ [f]) hr (Nat.lt_of_succ_lt_succ hfuel)

/-! ### What is logged -/

theorem literal_of_all {s : List UInt8}
    (h : s.all (fun c => decide (c ≠ 0 ∧ c ≠ '%'.toUInt8)) = true) :
    (∀ c ∈ s, c ≠ 0) ∧ '%'.toUInt8 ∉ s := by
  have hall : ∀ c ∈ s, c ≠ 0 ∧ c ≠ '%'.toUInt8 := fun c hc =>
    of_decide_eq_true (List.all_eq_true.mp h c hc)
  exact ⟨fun c hc => (hall c hc).1, fun hmem => (hall _ hmem).2 rfl⟩

/-- A message with a name. -/
theorem klog_name {behind : List UInt8} (file name : CStr) (before : List UInt8)
    (hbefore : (∀ c ∈ before, c ≠ 0) ∧ '%'.toUInt8 ∉ before)
    (hbehind : (∀ c ∈ behind, c ≠ 0) ∧ '%'.toUInt8 ∉ behind) :
    (klog file.bytes (before ++ (ascii "%s" ++ behind) ++ [0]) [.str name.bytes]).isSome =
      decide (file.chars.length + (before.length + name.chars.length + behind.length) + 3 ≤
        511) := by
  have hsprintf := sprintf_between charBuffer [] hbefore hbehind name.ne_zero
  have htext : ∀ c ∈ before ++ (name.chars ++ behind), c ≠ 0 := by
    intro c hc
    rcases List.mem_append.mp hc with hc | hc
    · exact hbefore.1 c hc
    · rcases List.mem_append.mp hc with hc | hc
      · exact name.ne_zero c hc
      · exact hbehind.1 c hc
  have hlog := klog_eq [] file.ne_zero htext hsprintf
  have hlen : (before ++ (name.chars ++ behind)).length =
      before.length + name.chars.length + behind.length := by
    rw [List.length_append, List.length_append, Nat.add_assoc]
  unfold CStr.bytes
  rw [hlog, hlen]
  split
  · rename_i hfits
    rw [decide_eq_true hfits]
    rfl
  · rename_i hfits
    rw [decide_eq_false hfits]
    rfl

/-- What follows a log call is done if the call stays within the buffers. -/
theorem bind_logged {α : Type} (logged : Option Logged) (next : Option α) :
    (logged.bind fun _ => next) = if logged.isSome = true then next else none := by
  cases logged <;> rfl

theorem quote_literal : (∀ c ∈ ascii "'\n", c ≠ 0) ∧ '%'.toUInt8 ∉ ascii "'\n" :=
  literal_of_all (by decide)

theorem fileSystemTypeRegister_eq (file : CStr) (s : FsTypes) (fs : ℕ) :
    fileSystemTypeRegister file s fs =
      if file.chars.length + (s.name fs).chars.length + 26 ≤ 511 then
        some { s with nodes := clistAdd s.nodes .head (.entry fs) }
      else none := by
  have hlog := klog_name file (s.name fs) (ascii "Registering FS type '")
    (literal_of_all (by decide)) quote_literal
  have hbefore : (ascii "Registering FS type '").length = 21 := rfl
  have hbehind : (ascii "'\n").length = 2 := rfl
  have hsum : file.chars.length + (21 + (s.name fs).chars.length + 2) + 3 =
      file.chars.length + (s.name fs).chars.length + 26 := by omega
  have hfmt : ascii "Registering FS type '%s'\n" ++ [0] =
      ascii "Registering FS type '" ++ (ascii "%s" ++ ascii "'\n") ++ [0] := rfl
  rw [hbefore, hbehind, hsum] at hlog
  unfold fileSystemTypeRegister
  rw [hfmt, Option.bind_eq_bind, bind_logged, hlog]
  simp only [decide_eq_true_eq]
  rfl

theorem fileSystemTypeUnregister_eq (fuel : ℕ) (file : CStr) (s : FsTypes) (fs : ℕ) :
    fileSystemTypeUnregister fuel file s fs =
      if file.chars.length + (s.name fs).chars.length + 28 ≤ 511 then
        (s.nodes .head).next.bind fun first => unregisterFrom (s.name fs) fuel first s
      else none := by
  have hlog := klog_name file (s.name fs) (ascii "Unregistering FS type '")
    (literal_of_all (by decide)) quote_literal
  have hbefore : (ascii "Unregistering FS type '").length = 23 := rfl
  have hbehind : (ascii "'\n").length = 2 := rfl
  have hsum : file.chars.length + (23 + (s.name fs).chars.length + 2) + 3 =
      file.chars.length + (s.name fs).chars.length + 28 := by omega
  have hfmt : ascii "Unregistering FS type '%s'\n" ++ [0] =
      ascii "Unregistering FS type '" ++ (ascii "%s" ++ ascii "'\n") ++ [0] := rfl
  rw [hbefore, hbehind, hsum] at hlog
  unfold fileSystemTypeUnregister
  rw [hfmt, Option.bind_eq_bind, bind_logged, hlog]
  simp only [decide_eq_true_eq]
  rfl

/-! ### One call -/

/-- **A call whose message fits** does to the ring what it does to the registry, and ends. -/
theorem fsCall_spec (h : Represents s r) (hallow : r.Allows call) (hfit : r.LogFits file call) :
    ∃ n s', (∀ fuel, n < fuel → fsCall file fuel s call = some (s', r.answer call)) ∧
      Represents s' (r.after call) := by
  have hnames := h.names
  cases call with
  | own fs name =>
    refine ⟨0, _, fun _ _ => rfl, h.ring, ?_⟩
    show Function.update s.name fs name = Function.update r.name fs name
    rw [hnames]
  | register fs =>
    have hnew : FsNode.entry fs ∉ FsNode.head :: r.objects.map FsNode.entry := by
      intro hmem
      rcases List.mem_cons.mp hmem with hhead | hmem
      · exact FsNode.noConfusion hhead
      · obtain ⟨f, hf, heq⟩ := List.mem_map.mp hmem
        obtain rfl := FsNode.entry.inj heq
        exact hallow hf
    have hlen : file.chars.length + (s.name fs).chars.length + 26 ≤ 511 := by
      rw [hnames]
      exact hfit
    refine ⟨0, { s with nodes := clistAdd s.nodes .head (.entry fs) }, fun _ _ => ?_,
      clistAdd_ring h.ring hnew, hnames⟩
    rw [fsCall, fileSystemTypeRegister_eq, if_pos hlen]
    rfl
  | unregister fs =>
    have hlen : file.chars.length + (s.name fs).chars.length + 28 ≤ 511 := by
      rw [hnames]
      exact hfit
    obtain ⟨nodes, hrun, hring⟩ := unregisterFrom_filter (s.name fs) [] h.ring
    refine ⟨r.objects.length, { s with nodes := nodes }, fun fuel hfuel => ?_, ?_, hnames⟩
    · rw [fsCall, fileSystemTypeUnregister_eq, if_pos hlen, h.ring.next_head, Option.bind_some,
        hrun fuel hfuel]
      rfl
    · rw [hnames] at hring
      exact hring
  | get name =>
    refine ⟨r.objects.length, s, fun fuel hfuel => ?_, h⟩
    have hfind := getFrom_find name [] h.ring hfuel
    rw [fsCall, fileSystemTypeGet, h.ring.next_head, Option.bind_eq_bind, Option.bind_some, hfind,
      hnames]
    rfl

/-- **A call whose message does not fit** writes outside of a buffer. -/
theorem fsCall_overflows (hnames : s.name = r.name) (hfit : ¬ r.LogFits file call) (fuel : ℕ) :
    fsCall file fuel s call = none := by
  cases call with
  | own fs name => exact absurd trivial hfit
  | register fs =>
    have hlen : ¬ file.chars.length + (r.name fs).chars.length + 26 ≤ 511 := hfit
    rw [fsCall, fileSystemTypeRegister_eq, hnames, if_neg hlen]
    rfl
  | unregister fs =>
    have hlen : ¬ file.chars.length + (r.name fs).chars.length + 28 ≤ 511 := hfit
    rw [fsCall, fileSystemTypeUnregister_eq, hnames, if_neg hlen]
    rfl
  | get name => exact absurd trivial hfit

/-! ### Sequences of calls -/

/-- With enough turns, whatever their number, the calls return what the registry says and leave the
    ring of the registered objects. -/
def RegistryHolds (file : CStr) (s : FsTypes) (r : Registry) (calls : List FsCall) : Prop :=
  ∃ n s', (∀ fuel, n < fuel → fsCalls file fuel s calls = some (s', r.answers calls)) ∧
    Represents s' (r.afterAll calls)

theorem registryHolds_of_fits (h : Represents s r) (hallow : r.AllowsAll calls)
    (hfit : r.LogsFit file calls) : RegistryHolds file s r calls := by
  induction calls generalizing s r with
  | nil => exact ⟨0, s, fun _ _ => rfl, h⟩
  | cons call calls ih =>
    obtain ⟨n, s₁, hcall, h₁⟩ := fsCall_spec h hallow.1 hfit.1
    obtain ⟨m, s', hcalls, h'⟩ := ih h₁ hallow.2 hfit.2
    refine ⟨max n m, s', fun fuel hfuel => ?_, h'⟩
    rw [fsCalls, hcall fuel (by omega), Option.bind_eq_bind, Option.bind_some]
    simp only [hcalls fuel (by omega), Option.bind_eq_bind, Option.bind_some]
    rfl

theorem RegistryHolds.logsFit (h : Represents s r) (hallow : r.AllowsAll calls)
    (hholds : RegistryHolds file s r calls) : r.LogsFit file calls := by
  induction calls generalizing s r with
  | nil => exact trivial
  | cons call calls ih =>
    obtain ⟨n, s', hcalls, h'⟩ := hholds
    have hfit : r.LogFits file call := by
      by_contra hnot
      have hrun := hcalls (n + 1) (Nat.lt_succ_self n)
      rw [fsCalls, fsCall_overflows h.names hnot] at hrun
      exact absurd hrun.symm (Option.some_ne_none _)
    obtain ⟨m, s₁, hcall, h₁⟩ := fsCall_spec h hallow.1 hfit
    refine ⟨hfit, ih h₁ hallow.2 ⟨max n m, s', fun fuel hfuel => ?_, h'⟩⟩
    -- the first call has ended, and the others are what remains of the sequence
    have hrun := hcalls fuel (by omega)
    rw [fsCalls, hcall fuel (by omega), Option.bind_eq_bind, Option.bind_some] at hrun
    obtain ⟨⟨s₂, answers⟩, hrest, hpair⟩ := Option.bind_eq_some_iff.mp hrun
    have hsame := Prod.mk.inj (Option.some.inj hpair)
    rw [hrest, hsame.1, (List.cons.inj hsame.2).2]

/-- The ring of an initialised list head. -/
theorem represents_init (nodes : NodeHeap FsNode) (name : ℕ → CStr) :
    Represents ⟨clistInit nodes .head, name⟩ ⟨[], name⟩ := by
  have hself := clistInit_self nodes FsNode.head
  exact ⟨Ring.empty (congrArg ListNode.next hself) (congrArg ListNode.prev hself), rfl⟩

/-- **The registry of filesystem types** holds for every sequence of calls whose messages fit into
the log buffers, and for no other. -/
theorem fsTypes_registry (file : CStr) (nodes : NodeHeap FsNode) (name : ℕ → CStr)
    (calls : List FsCall) (hallow : (Registry.mk [] name).AllowsAll calls) :
    RegistryHolds file ⟨clistInit nodes .head, name⟩ ⟨[], name⟩ calls ↔
      (Registry.mk [] name).LogsFit file calls := by
  have h := represents_init nodes name
  constructor
  · exact fun hholds => hholds.logsFit h hallow
  · exact fun hfit => registryHolds_of_fits h hallow hfit

/-- A name of `n` characters. -/
def longName (n : ℕ) : CStr where
  chars := List.replicate n 'a'.toUInt8
  ne_zero := by
    intro c hc
    rw [List.eq_of_mem_replicate hc]
    decide

/-- Two objects of one name, which are removed together. -/
theorem fsTypes_registry_equal :
    RegistryHolds (longName 23) ⟨clistInit (fun _ => ⟨none, none⟩) .head, fun _ => longName 4⟩
        ⟨[], fun _ => longName 4⟩ [.register 1, .register 2, .unregister 1, .get (longName 4)] ↔
      (Registry.mk [] fun _ => longName 4).LogsFit (longName 23)
        [.register 1, .register 2, .unregister 1, .get (longName 4)] :=
  fsTypes_registry (longName 23) (fun _ => ⟨none, none⟩) (fun _ => longName 4)
    [.register 1, .register 2, .unregister 1, .get (longName 4)]
    ⟨List.not_mem_nil, fun h => absurd (List.mem_singleton.mp h) (by decide), trivial, trivial,
      trivial⟩

/-- A name of 512 characters does not fit into the log buffers. -/
theorem fsTypes_registry_overflows :
    ¬ ∀ (file : CStr) (nodes : NodeHeap FsNode) (name : ℕ → CStr) (calls : List FsCall),
      (Registry.mk [] name).AllowsAll calls →
        RegistryHolds file ⟨clistInit nodes .head, name⟩ ⟨[], name⟩ calls := by
  intro h
  have hallow : (Registry.mk [] fun _ => longName 512).AllowsAll [.register 1] :=
    ⟨List.not_mem_nil, trivial⟩
  have hholds := h (longName 0) (fun _ => ⟨none, none⟩) (fun _ => longName 512) [.register 1] hallow
  have hfit := (hholds.logsFit (represents_init _ _) hallow).1
  have hlen : (longName 512).chars.length = 512 := List.length_replicate
  simp only [Registry.LogFits, hlen] at hfit
  omega

end Rotary

import Rotary.Core.NodeLists
import Rotary.Lib.NodeList

namespace Rotary

open Lib

/-!
# The list operations as edits of sequences

`ListCall` is one call of a function of `list.h` that edits a list, on nodes that are not null.
`ListCall.run` is what it does to the heap and `ListCall.edit` what it is for: an insertion into,
or a removal from, the sequence of nodes.

* `ListCall.edits` — on a well-formed list, every call that is allowed there makes its edit, and
  writes no word outside the list and the node it brings in;
* `listCall_edits_one` — of any family of disjoint lists it edits one and leaves the others alone;
* `listCalls_edit` — so a whole sequence of calls runs, and the family stays well formed.
-/

variable {ν ι : Type} [DecidableEq ν] {h h' : NodeHeap ν} {l : NodeList ν} {p new x : ν}

/-- A call that inserts or removes a node. -/
inductive ListCall (ν : Type)
  | clistAdd (nodeHead nodeNew : ν)
  | clistAddBefore (nodeRef nodeNew : ν)
  | clistAddAfter (nodeRef nodeNew : ν)
  | clistDeleteNode (node : ν)
  | llistAdd (nodeHead nodeNew : ν)
  | llistAddBefore (nodeRef nodeNew : ν)
  | llistAddAfter (nodeRef nodeNew : ν)
  | llistAddEnd (nodeRef : Option ν) (nodeNew : ν)
  | llistDeleteNode (node : ν)
  deriving DecidableEq

namespace ListCall

/-- The heap after the call.  There is none when the call writes through a null pointer, or when
    the walk of `llist_add_end` is not over within `fuel` nodes. -/
def run (fuel : ℕ) (h : NodeHeap ν) : ListCall ν → Option (NodeHeap ν)
  | .clistAdd head new => some (Rotary.clistAdd h head new)
  | .clistAddBefore ref new => Rotary.clistAddBefore h (some ref) (some new)
  | .clistAddAfter ref new => Rotary.clistAddAfter h (some ref) (some new)
  | .clistDeleteNode node => some (Rotary.clistDeleteNode h node)
  | .llistAdd head new => some (Nodes.llistAdd h head new)
  | .llistAddBefore ref new => some (Nodes.llistAddBefore h (some ref) (some new))
  | .llistAddAfter ref new => some (Nodes.llistAddAfter h (some ref) (some new))
  | .llistAddEnd ref new => Nodes.llistAddEnd h fuel ref (some new)
  | .llistDeleteNode node => some (Nodes.llistDeleteNode h (some node))

/-- The nodes that the call brings into the list. -/
def fresh : ListCall ν → List ν
  | .clistAdd _ new | .clistAddBefore _ new | .clistAddAfter _ new => [new]
  | .llistAdd _ new | .llistAddBefore _ new | .llistAddAfter _ new | .llistAddEnd _ new => [new]
  | .clistDeleteNode _ | .llistDeleteNode _ => []

/-- The list is of the shape that the function is for and holds the node it is given.  The first
    node is not deleted, and a linear list gets no node in front of it; `llist_add_end` takes the
    null pointer for the empty list. -/
def Allowed (l : NodeList ν) : ListCall ν → Prop
  | .clistAdd p _ | .clistAddBefore p _ | .clistAddAfter p _ => l.shape = .circular ∧ p ∈ l.nodes
  | .clistDeleteNode node => l.shape = .circular ∧ node ∈ l.nodes.tail
  | .llistAdd p _ | .llistAddAfter p _ => l.shape ≠ .circular ∧ p ∈ l.nodes
  | .llistAddEnd (some p) _ => l.shape ≠ .circular ∧ p ∈ l.nodes
  | .llistAddEnd none _ => l.shape ≠ .circular ∧ l.nodes = []
  | .llistAddBefore p _ => l.shape ≠ .circular ∧ p ∈ l.nodes.tail
  | .llistDeleteNode node => l.shape ≠ .circular ∧ node ∈ l.nodes.tail

/-- The edit of the node sequence.  In front of the head of a circular list is the end of the
    sequence. -/
def edit (nodes : List ν) : ListCall ν → List ν
  | .clistAdd p new | .clistAddAfter p new => insertBehind p new nodes
  | .llistAdd p new | .llistAddAfter p new => insertBehind p new nodes
  | .clistAddBefore p new =>
    if nodes.head? = some p then nodes ++ [new] else insertInFront p new nodes
  | .llistAddBefore p new => insertInFront p new nodes
  | .llistAddEnd _ new => nodes ++ [new]
  | .clistDeleteNode node | .llistDeleteNode node => nodes.erase node

/-- The list after the call. -/
def result (l : NodeList ν) (call : ListCall ν) : NodeList ν := ⟨l.shape, call.edit l.nodes⟩

/-- The heap `h'` holds the edited list, and is `h` outside the list and the new node. -/
structure Edits (h h' : NodeHeap ν) (l : NodeList ν) (call : ListCall ν) : Prop where
  holds : (call.result l).In h'
  frame : ∀ c, c ∉ l.nodes → c ∉ call.fresh → h' c = h c

variable {call : ListCall ν}

/-- A splice behind a node of the list is the edit of an insertion there. -/
theorem edits_of_spliced (hin : l.In h) (hp : p ∈ l.nodes) (hfresh : call.fresh = [new])
    (hnew : new ∉ l.nodes) (hedit : call.edit l.nodes = insertBehind p new l.nodes)
    (hw : Spliced h h' p new (h p).next) : call.Edits h h' l := by
  constructor
  · rw [result, hedit]
    exact hin.spliced hp hw hnew
  · intro c hc hcnew
    rw [hfresh, List.mem_singleton] at hcnew
    apply hw.frame
    · exact fun heq => hc (heq ▸ hp)
    · exact hcnew
    · exact fun hcn => hc (hin.next_mem hp hcn)

/-- A join around a node that is not the first is the edit of its removal. -/
theorem edits_of_joined (hin : l.In h) (hx : x ∈ l.nodes.tail) (hp : p ∈ l.nodes)
    (hprev : (h x).prev = some p) (hedit : call.edit l.nodes = l.nodes.erase x)
    (hw : Joined h h' p (h x).next) : call.Edits h h' l := by
  constructor
  · rw [result, hedit]
    exact hin.joined hx hprev hw
  · intro c hc hcnew
    apply hw.frame
    · exact fun heq => hc (heq ▸ hp)
    · exact fun hcn => hc (hin.next_mem (List.mem_of_mem_tail hx) hcn)

/-- In front of any node of a circular list, the head included, stands a node of the list. -/
theorem clistAddBefore_edit {r : ν} (hin : l.In h) (hshape : l.shape = .circular)
    (hr : r ∈ l.nodes) :
    ∃ p ∈ l.nodes, (h r).prev = some p ∧ (h p).next = some r ∧
      ∀ new, (clistAddBefore r new).edit l.nodes = insertBehind p new l.nodes := by
  obtain ⟨shape, nodes⟩ := l
  obtain rfl : shape = .circular := hshape
  cases nodes with
  | nil => cases hr
  | cons head xs =>
    by_cases hhead : head = r
    · subst hhead
      obtain ⟨p, hp, hprev, hnext, hend⟩ := hin.in_front_head
      refine ⟨p, hp, hprev, hnext, ?_⟩
      intro new
      show (if some head = some head then head :: xs ++ [new] else _) = _
      rw [if_pos rfl, hend]
    · have htail : r ∈ xs := (List.mem_cons.mp hr).resolve_left (Ne.symm hhead)
      obtain ⟨p, hp, -, hprev, hnext, hfront⟩ := hin.in_front htail
      refine ⟨p, hp, hprev, hnext, ?_⟩
      intro new
      have hnot : ¬some head = some r := fun heq => hhead (Option.some.inj heq)
      show (if some head = some r then _ else insertInFront r new (head :: xs)) = _
      rw [if_neg hnot]
      exact hfront new

/-- `llist_add_end` on a list that is not empty: the walk ends at the last node, and the new one
    comes behind it. -/
theorem llistAddEnd_edits {ref : ν} (hin : l.In h) (hshape : l.shape ≠ .circular)
    (href : ref ∈ l.nodes) (hnew : new ∉ l.nodes) :
    ∃ h', (∀ fuel, l.nodes.length ≤ fuel → run fuel h (.llistAddEnd (some ref) new) = some h') ∧
      (llistAddEnd (some ref) new).Edits h h' l := by
  obtain ⟨shape, nodes⟩ := l
  cases shape with
  | circular => exact absurd rfl hshape
  | linear before =>
    obtain ⟨pre, post, rfl⟩ := List.append_of_mem href
    obtain ⟨front, hcut⟩ := exists_front ref post
    generalize hlast : post.getLastD ref = last at hcut
    have hnodes : pre ++ ref :: post = pre ++ front ++ [last] := by
      rw [hcut, List.append_assoc]
    have hmem : last ∈ pre ++ ref :: post := by
      rw [hnodes]
      exact List.mem_append_right _ List.mem_cons_self
    have hedit : pre ++ ref :: post ++ [new] = insertBehind last new (pre ++ ref :: post) := by
      have hnd := hin.nodup
      simp only [hnodes] at hnd ⊢
      exact (insertBehind_last hnd).symm
    have hnext : (h last).next = none := by
      have hin' := hin
      rw [hnodes] at hin'
      exact hin'.next_eq
    have hne : new ≠ last := fun heq => hnew (heq ▸ hmem)
    have hout : new ∉ (h last).next := by
      rw [hnext]
      exact fun h => nomatch h
    refine ⟨Nodes.llistAddAfter h (some last) (some new), ?_, ?_⟩
    · intro fuel hfuel
      have hshort : post.length < fuel := by
        simp only [List.length_append, List.length_cons] at hfuel
        omega
      show Nodes.llistAddEnd h fuel (some ref) (some new) = _
      simp only [Nodes.llistAddEnd, Nodes.llistGetLast_eq hin.span_none hshort, hlast]
    · exact edits_of_spliced hin hmem rfl hnew hedit (Nodes.llistAddAfter_spliced h hne hout)

/-- `llist_add_end` on the empty list makes the node the only one. -/
theorem llistAddEnd_edits_empty (hin : l.In h) (hshape : l.shape ≠ .circular) (hnil : l.nodes = []) :
    (llistAddEnd none new).Edits h (Nodes.llistInit h (some new)) l := by
  obtain ⟨shape, nodes⟩ := l
  obtain rfl : nodes = [] := hnil
  cases shape with
  | circular => exact absurd rfl hshape
  | linear before =>
    obtain rfl : before = none := hin
    constructor
    · show Line (Nodes.llistInit h (some new)) none new []
      refine ⟨?_, ⟨?_, ?_⟩, List.nodup_singleton new⟩
      · simp only [Nodes.llistInit, setPrev_prev, if_true]
      · simp only [Nodes.llistInit, setPrev_next, setNext_next, if_true]
      · intro b hb
        cases hb
    · intro c _ hc
      have hne : c ≠ new := fun heq => hc (heq ▸ List.mem_singleton_self new)
      ext <;> simp [Nodes.llistInit, hne]

/-- **Every allowed call makes its edit.** -/
theorem edits (hin : l.In h) (hok : call.Allowed l) (hfresh : ∀ c ∈ call.fresh, c ∉ l.nodes) :
    ∃ h', (∀ fuel, l.nodes.length ≤ fuel → call.run fuel h = some h') ∧ call.Edits h h' l := by
  -- a new node is neither a node of the list nor what one points at
  have hbehind : ∀ {p new}, p ∈ l.nodes → new ∉ l.nodes → new ≠ p ∧ new ∉ (h p).next := by
    intro p new hp hnew
    exact ⟨fun heq => hnew (heq ▸ hp), fun hn => hnew (hin.next_mem hp hn)⟩
  cases call with
  | clistAdd p new =>
    have hnew : new ∉ l.nodes := hfresh new List.mem_cons_self
    obtain ⟨hne, -⟩ := hbehind hok.2 hnew
    exact ⟨_, fun _ _ => rfl, edits_of_spliced hin hok.2 rfl hnew rfl (clistAdd_spliced h hne)⟩
  | clistAddBefore r new =>
    have hnew : new ∉ l.nodes := hfresh new List.mem_cons_self
    obtain ⟨hne, -⟩ := hbehind hok.2 hnew
    obtain ⟨p, hp, hprev, hnext, hedit⟩ := clistAddBefore_edit hin hok.1 hok.2
    obtain ⟨h', hrun, hw⟩ := clistAddBefore_spliced hprev hne
    rw [← hnext] at hw
    exact ⟨h', fun _ _ => hrun, edits_of_spliced hin hp rfl hnew (hedit new) hw⟩
  | clistAddAfter p new =>
    have hnew : new ∉ l.nodes := hfresh new List.mem_cons_self
    obtain ⟨hne, hout⟩ := hbehind hok.2 hnew
    obtain ⟨n, hn⟩ := hin.next_circular hok.1 hok.2
    obtain ⟨h', hrun, hw⟩ := clistAddAfter_spliced hn hne fun heq => hout (heq ▸ hn)
    rw [← hn] at hw
    exact ⟨h', fun _ _ => hrun, edits_of_spliced hin hok.2 rfl hnew rfl hw⟩
  | clistDeleteNode x =>
    obtain ⟨p, hp, hne, hprev, -, -⟩ := hin.in_front hok.2
    have hw := clistDeleteNode_joined hprev hne
    exact ⟨_, fun _ _ => rfl, edits_of_joined hin hok.2 hp hprev rfl hw⟩
  | llistAdd p new =>
    have hnew : new ∉ l.nodes := hfresh new List.mem_cons_self
    obtain ⟨hne, -⟩ := hbehind hok.2 hnew
    have hw := Nodes.llistAdd_spliced h hne
    exact ⟨_, fun _ _ => rfl, edits_of_spliced hin hok.2 rfl hnew rfl hw⟩
  | llistAddBefore r new =>
    have hnew : new ∉ l.nodes := hfresh new List.mem_cons_self
    obtain ⟨hne, -⟩ := hbehind (List.mem_of_mem_tail hok.2) hnew
    obtain ⟨p, hp, -, hprev, hnext, hedit⟩ := hin.in_front hok.2
    have hw : Spliced h (Nodes.llistAddBefore h (some r) (some new)) p new (h p).next := by
      rw [hnext]
      exact Nodes.llistAddBefore_spliced hprev hne
    exact ⟨_, fun _ _ => rfl, edits_of_spliced hin hp rfl hnew (hedit new) hw⟩
  | llistAddAfter p new =>
    have hnew : new ∉ l.nodes := hfresh new List.mem_cons_self
    obtain ⟨hne, hout⟩ := hbehind hok.2 hnew
    have hw := Nodes.llistAddAfter_spliced h hne hout
    exact ⟨_, fun _ _ => rfl, edits_of_spliced hin hok.2 rfl hnew rfl hw⟩
  | llistAddEnd ref new =>
    have hnew : new ∉ l.nodes := hfresh new List.mem_cons_self
    cases ref with
    | none => exact ⟨_, fun _ _ => rfl, llistAddEnd_edits_empty hin hok.1 hok.2⟩
    | some ref => exact llistAddEnd_edits hin hok.1 hok.2 hnew
  | llistDeleteNode x =>
    obtain ⟨p, hp, hne, hprev, -, -⟩ := hin.in_front hok.2
    have hw := Nodes.llistDeleteNode_joined hprev hne
    exact ⟨_, fun _ _ => rfl, edits_of_joined hin hok.2 hp hprev rfl hw⟩

/-- The edited list consists of old nodes and the new one. -/
theorem mem_edit {c : ν} (hc : c ∈ call.edit l.nodes) : c ∈ l.nodes ∨ c ∈ call.fresh := by
  have hsplit : ∀ {p new}, c ∈ insertBehind p new l.nodes → c ∈ l.nodes ∨ c ∈ [new] := by
    intro p new hin
    rw [List.mem_singleton]
    exact mem_insertBehind hin
  have hfront : ∀ {r new}, c ∈ insertInFront r new l.nodes → c ∈ l.nodes ∨ c ∈ [new] := by
    intro r new hin
    rw [List.mem_singleton]
    exact mem_insertInFront hin
  cases call with
  | clistAdd p new | clistAddAfter p new | llistAdd p new | llistAddAfter p new => exact hsplit hc
  | llistAddBefore r new => exact hfront hc
  | llistAddEnd ref new => exact List.mem_append.mp hc
  | clistDeleteNode x | llistDeleteNode x => exact Or.inl (List.mem_of_mem_erase hc)
  | clistAddBefore r new =>
    replace hc : c ∈ if l.nodes.head? = some r then l.nodes ++ [new]
        else insertInFront r new l.nodes := hc
    by_cases hhead : l.nodes.head? = some r
    · rw [if_pos hhead] at hc
      exact List.mem_append.mp hc
    · rw [if_neg hhead] at hc
      exact hfront hc

end ListCall

/-! ### Families of lists -/

section Families

variable [DecidableEq ι] {ls : ι → NodeList ν} {i : ι} {call : ListCall ν}

/-- **Sequences with framing.**  In a heap that holds any family of disjoint lists, every call that
    is allowed on one of them, with a new node that is on none, comes to an end; the family then
    holds the edited list in place of the old one, `next` and `prev` are inverse along it, and no
    word outside that list and the new node has changed. -/
theorem listCall_edits_one (hls : Lists h ls) (hok : call.Allowed (ls i))
    (hfresh : ∀ c ∈ call.fresh, ∀ j, c ∉ (ls j).nodes) :
    ∃ h', (∀ fuel, (ls i).nodes.length ≤ fuel → call.run fuel h = some h') ∧
      Lists h' (Function.update ls i (call.result (ls i))) ∧
      (∀ a ∈ call.edit (ls i).nodes, ∀ b ∈ call.edit (ls i).nodes,
        ((ls i).shape = .circular ∨ b ∈ (call.edit (ls i).nodes).tail) →
          ((h' a).next = some b ↔ (h' b).prev = some a)) ∧
      ∀ c, c ∉ (ls i).nodes → c ∉ call.fresh → h' c = h c := by
  obtain ⟨h', hrun, hedits⟩ := ListCall.edits (hls.wellFormed i) hok fun c hc => hfresh c hc i
  refine ⟨h', hrun, ?_, ?_, hedits.frame⟩
  · exact hls.replace hfresh hedits.holds (fun c hc => ListCall.mem_edit hc) hedits.frame
  · intro a ha b hb hback
    exact hedits.holds.inverse ha hb hback

/-- The two lists of the example heap: a circular one with the head 0, and a linear one. -/
def exampleLists : Bool → NodeList ℕ
  | false => ⟨.circular, [0, 1, 2]⟩
  | true => ⟨.linear none, [10, 11]⟩

def exampleHeap : NodeHeap ℕ
  | 0 => ⟨some 1, some 2⟩
  | 1 => ⟨some 2, some 0⟩
  | 2 => ⟨some 0, some 1⟩
  | 10 => ⟨some 11, none⟩
  | 11 => ⟨none, some 10⟩
  | _ => ⟨none, none⟩

theorem exampleHeap_lists : Lists exampleHeap exampleLists := by
  constructor
  · intro i
    cases i with
    | false =>
      show Ring exampleHeap 0 [1, 2]
      refine ⟨?_, by decide⟩
      simp only [seg_cons, seg_nil]
      exact ⟨⟨rfl, rfl⟩, ⟨rfl, rfl⟩, ⟨rfl, rfl⟩⟩
    | true =>
      show Line exampleHeap none 10 [11]
      refine ⟨rfl, ⟨⟨rfl, rfl⟩, rfl, ?_⟩, by decide⟩
      intro b hb
      cases hb
  · have hapart : ∀ c ∈ [0, 1, 2], c ∉ [10, 11] := by decide
    intro i j hij c hi hj
    cases i <;> cases j
    · exact hij rfl
    · exact hapart c hi hj
    · exact hapart c hj hi
    · exact hij rfl

/-- The node 5 in front of the head 0: the head keeps its place and the node comes last. -/
theorem listCall_edits_one_before_head :
    ∃ h', (∀ fuel, 3 ≤ fuel → (ListCall.clistAddBefore 0 5).run fuel exampleHeap = some h') ∧
      Lists h' (Function.update exampleLists false ⟨.circular, [0, 1, 2, 5]⟩) ∧
      h' 11 = ⟨none, some 10⟩ := by
  have hfresh : ∀ c ∈ (ListCall.clistAddBefore 0 5).fresh, ∀ j, c ∉ (exampleLists j).nodes := by
    intro c hc j
    obtain rfl := List.mem_singleton.mp hc
    cases j <;> decide
  have hok : (ListCall.clistAddBefore 0 5).Allowed (exampleLists false) := ⟨rfl, by decide⟩
  obtain ⟨h', hrun, hlists, -, hframe⟩ := listCall_edits_one exampleHeap_lists hok hfresh
  exact ⟨h', hrun, hlists, hframe 11 (by decide) (by decide)⟩

/-! ### Runs -/

/-- A run of calls, each on one list of the family. -/
def runCalls (fuel : ℕ) (h : NodeHeap ν) : List (ι × ListCall ν) → Option (NodeHeap ν)
  | [] => some h
  | c :: calls => (c.2.run fuel h).bind fun h' => runCalls fuel h' calls

/-- The family after each call has made its edit. -/
def editCalls (ls : ι → NodeList ν) : List (ι × ListCall ν) → ι → NodeList ν
  | [] => ls
  | c :: calls => editCalls (Function.update ls c.1 (c.2.result (ls c.1))) calls

/-- Every call is allowed on its list as the calls before have left it, and brings in a node that
    is then on no list. -/
def AllowedCalls (ls : ι → NodeList ν) : List (ι × ListCall ν) → Prop
  | [] => True
  | c :: calls => c.2.Allowed (ls c.1) ∧ (∀ x ∈ c.2.fresh, ∀ j, x ∉ (ls j).nodes) ∧
    AllowedCalls (Function.update ls c.1 (c.2.result (ls c.1))) calls

/-- **Runs.**  With enough steps for its walks, every run of allowed calls goes through, and the
    heap holds the edited family. -/
theorem listCalls_edit (hls : Lists h ls) {calls : List (ι × ListCall ν)}
    (hok : AllowedCalls ls calls) :
    ∃ bound h', (∀ fuel, bound ≤ fuel → runCalls fuel h calls = some h') ∧
      Lists h' (editCalls ls calls) := by
  induction calls generalizing h ls with
  | nil => exact ⟨0, h, fun _ _ => rfl, hls⟩
  | cons c calls ih =>
    obtain ⟨hcall, hfresh, hrest⟩ := hok
    obtain ⟨h₁, hrun, hedits⟩ :=
      ListCall.edits (hls.wellFormed c.1) hcall fun x hx => hfresh x hx c.1
    have hls₁ := hls.replace hfresh hedits.holds (fun x hx => ListCall.mem_edit hx) hedits.frame
    obtain ⟨bound, h', hruns, hlists⟩ := ih hls₁ hrest
    refine ⟨max (ls c.1).nodes.length bound, h', ?_, hlists⟩
    intro fuel hfuel
    obtain ⟨hfirst, hothers⟩ := max_le_iff.mp hfuel
    show (c.2.run fuel h).bind _ = some h'
    rw [hrun fuel hfirst]
    exact hruns fuel hothers

end Families

end Rotary

import Mathlib.Data.List.Basic
import Rotary.Mm.Ptable

namespace Rotary

/-!
# Unmapping with `free`

`ptable_unmap` with `free` set is to give back the page behind an address.  It looks at the
directory entry only: whatever the table entry holds, the frame number in it goes to `page_free`,
and an entry that is not present holds frame 0.

* `pteAt` — the table entry of an address;
* `ptableUnmapMany_freed` — the pages passed to `page_free`, for a whole range;
* `unmapFree_iff` — these are the pages that the range maps only if no table entry in it is absent.
-/

variable {mem mem' : PhysMem} {pgd va va' count : ℕ}

/-- The table entry of an address; there is none if there is no table. -/
def pteAt (mem : PhysMem) (pgd va : ℕ) : Option (BitVec 32) :=
  (ptableGetPte mem pgd va).map fun (f, i) => mem f i

/-- The frames that the `count` pages from `va` on are mapped to. -/
def mappedFrames (mem : PhysMem) (pgd va count : ℕ) : List ℕ :=
  (List.range count).filterMap fun i =>
    (pageMap mem pgd ((va + i * pageSize) / pageSize)).map fun info => paToPfn info.frame

/-! ### One page -/

theorem pteAt_of_exists (hex : entryExists (mem pgd (pageDirectoryIndex va)) = true) :
    pteAt mem pgd va = some (mem (frameOf (mem pgd (pageDirectoryIndex va))) (pageTableIndex va)) := by
  unfold pteAt ptableGetPte
  simp [hex]

theorem pteAt_of_absent (hex : entryExists (mem pgd (pageDirectoryIndex va)) = false) :
    pteAt mem pgd va = none := by
  unfold pteAt ptableGetPte
  simp [hex]

/-- What is mapped is behind a present entry. -/
theorem pageMap_pteAt (hok : PtableOk mem pgd) (hva : va < kernelStartVirt) :
    (pageMap mem pgd (va / pageSize)).map (fun info => paToPfn info.frame) =
      ((pteAt mem pgd va).filter entryExists).map frameOf := by
  rw [ptableGetPte_spec hok hva]
  unfold pteAt
  cases ptableGetPte mem pgd va with
  | none => rfl
  | some e =>
    obtain ⟨f, i⟩ := e
    show Option.map _ (if entryExists (mem f i) = true then _ else _) =
      Option.map _ (Option.filter entryExists (some (mem f i)))
    rw [Option.filter_some]
    split <;> rfl

/-- **`ptable_unmap` with `free`** passes the frame of the entry on, present or not, and touches the
    entry of no other page. -/
theorem ptableUnmap_free (hok : PtableOk mem pgd) (hva : va < kernelStartVirt) :
    (ptableUnmap mem pgd va true).2 = (pteAt mem pgd va).map frameOf ∧
      PtableOk (ptableUnmap mem pgd va true).1 pgd ∧
      ∀ va' < kernelStartVirt, va' / pageSize ≠ va / pageSize →
        pteAt (ptableUnmap mem pgd va true).1 pgd va' = pteAt mem pgd va' := by
  by_cases hex : entryExists (mem pgd (pageDirectoryIndex va)) = true
  · obtain ⟨hkeep, hwords⟩ := hok.store_words hva hex
      (clearPte (mem (frameOf (mem pgd (pageDirectoryIndex va))) (pageTableIndex va)))
    rw [pteAt_of_exists hex]
    unfold ptableUnmap
    simp only [hex, Bool.not_true, Bool.false_eq_true, if_false, if_true, Option.map_some]
    refine ⟨rfl, hok.congr hkeep, fun va' hva' hne => ?_⟩
    by_cases hex' : entryExists (mem pgd (pageDirectoryIndex va')) = true
    · have htable := hok.small _ (pageDirectoryIndex_user hva') hex'
      rw [pteAt_of_exists hex', pteAt_of_exists (by rw [hkeep]; exact hex'), hkeep,
        hwords va' (hva'.trans (by decide)) hne ⟨hex', htable⟩]
    · rw [Bool.not_eq_true] at hex'
      rw [pteAt_of_absent hex', pteAt_of_absent (by rw [hkeep]; exact hex')]
  · rw [Bool.not_eq_true] at hex
    rw [pteAt_of_absent hex]
    unfold ptableUnmap
    simp only [hex, Bool.not_false, if_true, Option.map_none]
    exact ⟨trivial, hok, fun _ _ _ => trivial⟩

/-! ### Ranges -/

/-- **`ptable_unmap_many` with `free`.**  Every entry of the range is passed on as it was before
    the call, since the pages of the range are distinct. -/
theorem ptableUnmapMany_freed (hok : PtableOk mem pgd)
    (hva : ∀ i < count, va + i * pageSize < kernelStartVirt) :
    (ptableUnmapMany mem pgd va count true).2 = (List.range count).filterMap fun i =>
      (pteAt mem pgd (va + i * pageSize)).map frameOf := by
  -- the entries from `n` on are untouched after `n` pages
  suffices hall : ∀ n ≤ count, (ptableUnmapMany mem pgd va n true).2 = ((List.range n).filterMap
      fun i => (pteAt mem pgd (va + i * pageSize)).map frameOf) ∧
      PtableOk (ptableUnmapMany mem pgd va n true).1 pgd ∧
      ∀ i, n ≤ i → i < count → pteAt (ptableUnmapMany mem pgd va n true).1 pgd (va + i * pageSize) =
        pteAt mem pgd (va + i * pageSize) from (hall count le_rfl).1
  intro n
  induction n with
  | zero => exact fun _ => ⟨rfl, hok, fun _ _ _ => rfl⟩
  | succ n ih =>
    intro hle
    obtain ⟨hfreed, hok', hrest⟩ := ih (Nat.le_of_succ_le hle)
    have huser := hva n hle
    have hva32 : va + n * pageSize < 2 ^ 32 := huser.trans (by decide)
    obtain ⟨hone, hok'', helse⟩ := ptableUnmap_free hok' huser
    unfold ptableUnmapMany at hfreed hok' hrest hone hok'' helse ⊢
    simp only [List.range_succ, List.foldl_append, List.foldl_cons, List.foldl_nil, u32_of_lt hva32,
      List.filterMap_append, List.filterMap_cons, List.filterMap_nil]
    refine ⟨?_, hok'', fun i hlo hhi => ?_⟩
    · rw [hfreed, hone, hrest n le_rfl hle]
      cases (pteAt mem pgd (va + n * pageSize)).map frameOf <;> rfl
    · rw [helse _ (hva i hhi), hrest i (Nat.le_of_succ_le hlo) hhi]
      unfold pageSize
      omega

/-- The table entries of the `count` pages from `va` on, as far as there are tables. -/
def rangeEntries (mem : PhysMem) (pgd va count : ℕ) : List (BitVec 32) :=
  (List.range count).filterMap fun i => pteAt mem pgd (va + i * pageSize)

theorem mappedFrames_eq (hok : PtableOk mem pgd)
    (hva : ∀ i < count, va + i * pageSize < kernelStartVirt) :
    mappedFrames mem pgd va count = ((rangeEntries mem pgd va count).filter entryExists).map frameOf := by
  unfold mappedFrames rangeEntries
  rw [List.filter_filterMap, List.map_filterMap]
  apply List.filterMap_congr
  intro i hi
  exact pageMap_pteAt hok (hva i (List.mem_range.mp hi))

/-- **Unmapping with `free`** gives back exactly the pages that the range maps if and only if every
    page of the range that has a table is mapped. -/
theorem unmapFree_iff (hok : PtableOk mem pgd)
    (hva : ∀ i < count, va + i * pageSize < kernelStartVirt) :
    (ptableUnmapMany mem pgd va count true).2 = mappedFrames mem pgd va count ↔
      ∀ i < count, entryExists (mem pgd (pageDirectoryIndex (va + i * pageSize))) = true →
        (pageMap mem pgd ((va + i * pageSize) / pageSize)).isSome = true := by
  have hfreed : (ptableUnmapMany mem pgd va count true).2 =
      (rangeEntries mem pgd va count).map frameOf := by
    rw [ptableUnmapMany_freed hok hva, rangeEntries, List.map_filterMap]
  rw [hfreed, mappedFrames_eq hok hva]
  -- a shorter list is another list
  have hlength : (rangeEntries mem pgd va count).map frameOf =
      ((rangeEntries mem pgd va count).filter entryExists).map frameOf ↔
      ∀ e ∈ rangeEntries mem pgd va count, entryExists e = true := by
    constructor
    · intro heq
      have hlen := congrArg List.length heq
      rw [List.length_map, List.length_map] at hlen
      exact List.length_filter_eq_length_iff.mp hlen.symm
    · intro hall
      rw [List.filter_eq_self.mpr hall]
  rw [hlength]
  have hpage : ∀ i < count, (pageMap mem pgd ((va + i * pageSize) / pageSize)).isSome = true ↔
      ∃ e, pteAt mem pgd (va + i * pageSize) = some e ∧ entryExists e = true := by
    intro i hi
    have hmap := congrArg Option.isSome (pageMap_pteAt hok (hva i hi))
    rw [Option.isSome_map, Option.isSome_map] at hmap
    rw [hmap, Option.isSome_iff_exists]
    simp [Option.filter_eq_some_iff]
  constructor
  · intro hall i hi hex
    rw [hpage i hi]
    refine ⟨_, pteAt_of_exists hex, hall _ ?_⟩
    exact List.mem_filterMap.mpr ⟨i, List.mem_range.mpr hi, pteAt_of_exists hex⟩
  · intro hall e he
    obtain ⟨i, hi, hpte⟩ := List.mem_filterMap.mp he
    have hi := List.mem_range.mp hi
    by_cases hex : entryExists (mem pgd (pageDirectoryIndex (va + i * pageSize))) = true
    · obtain ⟨e', hpte', he'⟩ := (hpage i hi).mp (hall i hi hex)
      rw [hpte] at hpte'
      exact Option.some.inj hpte' ▸ he'
    · rw [Bool.not_eq_true] at hex
      rw [pteAt_of_absent hex] at hpte
      cases hpte

/-- A directory in frame 5 with one table, in frame 6: of its pages only the first is mapped, to
    frame 9. -/
def oneMapped : PhysMem := setWord (setWord (fun _ _ => 0) 5 1 (newPde 6)) 6 0 (mapEntry 0x9000 0)

theorem oneMapped_directory (j : ℕ) : oneMapped 5 j = if j = 1 then newPde 6 else 0 := by
  unfold oneMapped
  rw [setWord_of_ne _ _ fun heq => absurd heq.1 (by decide), setWord_apply]
  simp

theorem ptableOk_oneMapped : PtableOk oneMapped 5 := by
  obtain ⟨-, hsmall, hframe, -, -⟩ := newPde_spec (show 6 < 2 ^ 20 by decide)
  have hone : ∀ j, entryExists (oneMapped 5 j) = true → j = 1 := by
    intro j hex
    by_contra hne
    rw [oneMapped_directory, if_neg hne] at hex
    exact absurd hex (by decide)
  have hat : oneMapped 5 1 = newPde 6 := by rw [oneMapped_directory, if_pos rfl]
  refine ⟨?_, ?_, ?_⟩
  · intro i _ hex
    rw [hone i hex, hat]
    exact hsmall
  · intro i _ j _ hij hti htj
    exact absurd ((hone i hti.1).trans (hone j htj.1).symm) hij
  · intro j _ ht
    rw [hone j ht.1, hat, hframe]
    decide

theorem unmapFree_iff_oneMapped :
    (ptableUnmapMany oneMapped 5 0x400000 1 true).2 = mappedFrames oneMapped 5 0x400000 1 :=
  (unmapFree_iff ptableOk_oneMapped (by decide)).mpr (by decide)

/-- **Page 0 is given back.**  The second page of the table is not mapped, and unmapping it passes
    frame 0 to `page_free`. -/
theorem unmapFree_frees_zero :
    ¬ ∀ (mem : PhysMem) (pgd va count : ℕ), PtableOk mem pgd →
      (∀ i < count, va + i * pageSize < kernelStartVirt) →
      (ptableUnmapMany mem pgd va count true).2 = mappedFrames mem pgd va count := by
  intro h
  have heq := h oneMapped 5 0x401000 1 ptableOk_oneMapped (by decide)
  have hfreed : (ptableUnmapMany oneMapped 5 0x401000 1 true).2 = [0] := by decide
  have hmapped : mappedFrames oneMapped 5 0x401000 1 = [] := by decide
  rw [hfreed, hmapped] at heq
  cases heq

end Rotary

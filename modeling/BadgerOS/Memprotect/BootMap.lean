import BadgerOS.Memprotect.Calls

/-!
# Mapping into a fresh table

`memprotect_postheap_init` builds the kernel's page table by a sequence of `pt_map` calls
on a zeroed root table (`port/generic/src/memprotect.c` lines 498–552). This module shows
what such a sequence builds, for any ranges that do not overlap.

The superpages of all calls form one list of edits. They are disjoint, so each of them is
found again by the walks of its pages, and no walk of `pt_map_1` meets a leaf that it would
have to split.

A page-table entry has 44 bits for the physical page. `ptMaps_spec` needs the physical
ranges to lie below `2 ^ 44`; `ptMaps_truncates` shows that page `2 ^ 44` is mapped to 0.
-/

namespace BadgerOS.Memprotect

open RadixTree Paging Option List

/-! ## Sequences of calls -/

/-- Calls of `pt_map` on the same root table, one after the other. -/
def ptMaps (pg : Paging) (root : ℕ) : List MapCall → MmuState → Option MmuState
  | [], st => some st
  | c :: cs, st =>
    match ptMap pg root (pg.levels - 1) c.vpn c.ppn c.pages c.flags st with
    | none => none
    | some (_, st) => ptMaps pg root cs st

/-- The address lies in the range of the call. -/
def MapCall.Holds (c : MapCall) (vaddr : ℕ) : Prop :=
  c.vpn * 4096 ≤ vaddr ∧ vaddr < (c.vpn + c.pages) * 4096

/-- The root table is zeroed, and the pages for new tables are distinct. -/
structure FreshRoot (st : MmuState) (root : ℕ) : Prop where
  zero : ∀ i < 512, st.mem (pteWord root i) = 0
  root_notMem : root ∉ st.pages
  nodup : st.pages.Nodup
  lt : ∀ page ∈ st.pages, page < 2 ^ 44

/-- Every address of every call is translated as requested, and no other one is. -/
structure BootTable (pg : Paging) (mem : Pmem) (root : ℕ) (calls : List MapCall) : Prop where
  mapped : ∀ c ∈ calls, ∀ vaddr, c.Holds vaddr → translate pg mem root vaddr =
    some (some (c.flags.reported, c.ppn * 4096 + (vaddr - c.vpn * 4096)))
  unmapped : ∀ vaddr < 2 ^ 64, (∀ c ∈ calls, ¬ c.Holds vaddr) →
    translate pg mem root vaddr = some none

theorem ptMaps_eq {pg : Paging} {root : ℕ} {calls : List MapCall} (hok : ∀ c ∈ calls, c.Ok pg)
    {st : MmuState} (hpages : ∀ page ∈ st.pages, page < 2 ^ 44) :
    (ptMaps pg root calls st).map MmuState.store =
      RadixTree.edits (leafPart pg) (pg.levels - 1) root (calls.flatMap (MapCall.edits pg))
        st.store := by
  induction calls generalizing st with
  | nil => rfl
  | cons c cs ih =>
    have hc := hok c mem_cons_self
    have hfirst := @ptMap_eq pg root (pg.levels - 1) st hpages c.vpn c.ppn c.pages c.flags hc.range_lt
    rw [flatMap_cons, edits_append, MapCall.edits, ← hfirst, ptMaps]
    cases hmap : ptMap pg root (pg.levels - 1) c.vpn c.ppn c.pages c.flags st with
    | none => rfl
    | some r =>
      obtain ⟨top, mid⟩ := r
      rw [hmap] at hfirst
      have hfree := edits_free hfirst.symm
      exact ih (fun c' hc' => hok c' (mem_cons_of_mem _ hc'))
        fun page hmem => hpages page (hfree.mem hmem)

/-! ## What the calls build -/

theorem FreshRoot.owned {st : MmuState} {root : ℕ} (h : FreshRoot st root) (top : ℕ) :
    Owned (fun (_ : Unit) _ (_ : Fin 512) => ()) st.store.heap
      (fun a => if a = root then some ⟨(), top, []⟩ else none) st.store.free := by
  refine ⟨fun {a n i c} ha hs => ?_, fun {a} ha => ?_, h.nodup⟩
  · have hroot : a = root := by
      by_contra hne
      rw [if_neg hne] at ha
      contradiction
    have hhole : st.store.heap a i = .hole := by
      rw [hroot, store_heap, h.zero i i.isLt]
      rfl
    rw [hhole] at hs
    contradiction
  · rw [if_neg]
    rintro rfl
    exact h.root_notMem ha

section Spec

variable {pg : Paging} {st st' : MmuState} {root : ℕ} {calls : List MapCall}

/-- What the tables hold after the calls, and that no superpage has been split. -/
theorem ptMaps_found (hfresh : FreshRoot st root) (hok : ∀ c ∈ calls, c.Ok pg)
    (hdisjoint : calls.Pairwise MapCall.Disjoint) (h : ptMaps pg root calls st = some st') :
    st'.splits = st.splits ∧ ∀ p, foundAt pg st'.mem root p =
      (calls.flatMap (MapCall.edits pg)).foldl
        (Edit.effect (leafPart pg) (pg.levels - 1) (vpnKey p)) .hole := by
  have hedits := @ptMaps_eq pg root calls hok st hfresh.lt
  rw [h, map_some] at hedits
  have hfit : Fit (pg.levels - 1) (calls.flatMap (MapCall.edits pg)) := by
    intro e he
    obtain ⟨c, hc, he⟩ := mem_flatMap.mp he
    exact (hok c hc).fit e he
  have hempty (key : ℕ → Fin 512) : find st.store.heap key (pg.levels - 1) root = .hole := by
    refine find_hole ?_
    rw [store_heap, hfresh.zero _ (Fin.isLt _)]
    rfl
  have howned := hfresh.owned (pg.levels - 1)
  have hroot : (fun a => if a = root then some (⟨(), pg.levels - 1, []⟩ : Label Unit (Fin 512))
      else none) root = some ⟨(), pg.levels - 1, []⟩ := if_pos rfl
  constructor
  · refine edits_splits howned hfit hroot rfl hedits.symm fun es1 e hes1 k x hf => ?_
    -- The key of an edit lies in no superpage of an earlier edit.
    have hapart : ∀ e' ∈ es1, Edit.Apart (pg.levels - 1) e' e := by
      have hsub := (edits_pairwise hok hdisjoint).sublist hes1.sublist
      intro e' he'
      exact (pairwise_append.mp hsub).2.2 e' he' e mem_cons_self
    rw [hempty, foldl_effect_outside fun e' he' hin => hapart e' he' e.key hin fun _ _ _ => rfl] at hf
    contradiction
  · intro p
    have hfind := (howned.edits hfit hroot rfl hedits.symm).2 (vpnKey p)
    rw [hempty] at hfind
    exact hfind

/-- A sequence of `pt_map` calls with disjoint ranges builds the table that was requested,
    splits no superpage, and leaves no table that makes a walk panic. It returns if there
    are enough pages for the new tables. -/
theorem ptMaps_spec (hfresh : FreshRoot st root) (hok : ∀ c ∈ calls, c.Ok pg)
    (hdisjoint : calls.Pairwise MapCall.Disjoint) (hphys : ∀ c ∈ calls, c.ppn + c.pages ≤ 2 ^ 44) :
    ((pg.levels - 1) * (calls.map MapCall.pages).sum ≤ st.pages.length →
      (ptMaps pg root calls st).isSome = true) ∧
    ∀ st', ptMaps pg root calls st = some st' →
      st'.splits = st.splits ∧ BootTable pg st'.mem root calls := by
  constructor
  · intro henough
    have hedits := @ptMaps_eq pg root calls hok st hfresh.lt
    have hlength : (calls.flatMap (MapCall.edits pg)).length ≤ (calls.map MapCall.pages).sum := by
      rw [length_flatMap]
      exact sum_le_sum fun c hc => (hok c hc).length_edits_le
    rw [← isSome_map, hedits]
    exact edits_isSome ((Nat.mul_le_mul_left _ hlength).trans henough)
  · intro st' h
    obtain ⟨hsplits, hfound⟩ := ptMaps_found hfresh hok hdisjoint h
    refine ⟨hsplits, fun c hc vaddr hv => ?_, fun vaddr hv hout => ?_⟩
    · have hcok := hok c hc
      have hphys := hphys c hc
      unfold MapCall.Holds at hv
      have hcanonical : Canonical pg (vaddr / 4096) := hcok.canonical (by omega) (by omega)
      have haddr : (c.ppn + (vaddr / 4096 - c.vpn)) * 4096 + vaddr % 4096 =
          c.ppn * 4096 + (vaddr - c.vpn * 4096) := by omega
      have hsub : c.edits pg ⊆ calls.flatMap (MapCall.edits pg) :=
        fun e he => mem_flatMap.mpr ⟨c, hc, he⟩
      have hle : c.vpn ≤ vaddr / 4096 := by omega
      have hpage : (c.ppn + (vaddr / 4096 - c.vpn)) % 2 ^ 44 = c.ppn + (vaddr / 4096 - c.vpn) :=
        Nat.mod_eq_of_lt (by omega)
      rw [translate_eq hcanonical, hfound, hcok.pageOf_inside (edits_pairwise hok hdisjoint) hsub
        (by omega) hle (by omega), hpage, map_some, map_some, haddr]
    · by_cases hcanonical : Canonical pg (vaddr / 4096)
      · rw [translate_eq hcanonical, hfound, foldl_effect_outside]
        · rfl
        · intro e he hin
          obtain ⟨c, hc, he⟩ := mem_flatMap.mp he
          obtain ⟨h1, h2⟩ := ((hok c hc).writes_iff hcanonical).mp ⟨e, he, hin⟩
          exact hout c hc ⟨by omega, by omega⟩
      · exact translate_of_not_canonical hv hcanonical

end Spec

/-- Zeroed memory with a root table in page 1 and two pages for new tables. -/
def bootState : MmuState := ⟨fun _ => 0, [2, 3], 0⟩

/-- A request for one kernel page. -/
def kernelCall (pg : Paging) (ppn : ℕ) : MapCall :=
  ⟨pg.highVpn, ppn, 1, ⟨⟨true, true, false⟩, true, true, false, false⟩⟩

theorem freshRoot_bootState : FreshRoot bootState 1 := ⟨fun _ _ => rfl, by decide, by decide, by decide⟩

theorem kernelCall_ok (pg : Paging) (ppn : ℕ) : (kernelCall pg ppn).Ok pg := by
  refine ⟨.inr ⟨le_rfl, ?_⟩, rfl, fun _ => rfl⟩
  simp only [kernelCall]
  rcases pg.sizes with hs | hs | hs <;> omega

theorem ptMaps_spec_kernelCall :
    (ptMaps Paging.sv39 1 [kernelCall Paging.sv39 5] bootState).isSome = true ∧
      ∀ st', ptMaps Paging.sv39 1 [kernelCall Paging.sv39 5] bootState = some st' →
        st'.splits = 0 ∧ BootTable Paging.sv39 st'.mem 1 [kernelCall Paging.sv39 5] := by
  have hok : ∀ c ∈ [kernelCall sv39 5], c.Ok sv39 := by simpa using kernelCall_ok _ 5
  have h := ptMaps_spec freshRoot_bootState hok (pairwise_singleton _ _) (by simp [kernelCall])
  exact ⟨h.1 (by simp [kernelCall, bootState, sv39]), h.2⟩

/-- Physical page `2 ^ 44` does not fit the entry: the page is mapped to physical page 0. -/
theorem ptMaps_truncates :
    FreshRoot bootState 1 ∧ (kernelCall Paging.sv39 (2 ^ 44)).Ok Paging.sv39 ∧
      ∃ st', ptMaps Paging.sv39 1 [kernelCall Paging.sv39 (2 ^ 44)] bootState = some st' ∧
        ¬ BootTable Paging.sv39 st'.mem 1 [kernelCall Paging.sv39 (2 ^ 44)] := by
  refine ⟨freshRoot_bootState, kernelCall_ok _ _, ?_⟩
  have hrun : (ptMaps sv39 1 [kernelCall sv39 (2 ^ 44)] bootState).map
      (fun st => translate sv39 st.mem 1 sv39.highVaddr) =
        some (some (some (⟨⟨true, true, false⟩, true, true, false, false⟩, 0))) := by
    decide
  obtain ⟨st', hst', htrans⟩ := map_eq_some_iff.mp hrun
  refine ⟨st', hst', fun h => ?_⟩
  have hmapped := h.mapped _ mem_cons_self sv39.highVaddr (by
    constructor <;> decide)
  rw [htrans] at hmapped
  revert hmapped
  decide

end BadgerOS.Memprotect

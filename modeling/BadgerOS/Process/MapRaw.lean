import BadgerOS.Process.MapLoop

/-!
# Mapping memory into a process

What `proc_map_raw` does to the memory map of the process. A call that returns an address
should have mapped the range, and nothing else, to pages that were free, and a call that
fails should have changed nothing.

**Deviation.** This is not so in general:

* a block has `__builtin_clzll` of the number of missing pages, or half of that and so on:
  a request for one page maps up to 63 (`not_mapRawExact_onePage`);
* the entries for the second and further blocks of a range have the address of the first;
* the range is refused only if all of it is mapped already; else what is mapped in it is
  replaced;
* without access flags the range is unmapped, and write access includes read access;
* a failure after the first block leaves blocks and entries behind.

`mapRawExact_iff` gives the calls that do what they should.
-/

namespace BadgerOS.Process

open Option (some.injEq some.inj)

open List Prod

open Memprotect RadixTree

/-! ## What a call should do -/

/-- The translation of an address in the process. -/
def Memmap.at (pg : Paging) (m : Memmap) (a : ℕ) : Option (Option (Flags × ℕ)) :=
  translate pg m.sys.mem m.root a

/-- The regions are pairwise disjoint and cover exactly the mapped addresses of the lower half. -/
structure RegionsOk (pg : Paging) (m : Memmap) : Prop where
  disjoint : RegionsDisjoint m.regions
  covers : ∀ a, (∃ r ∈ m.regions, r.Has a) ↔ a < pg.halfSize ∧ ∃ page, m.at pg a = some (some page)

/-- A memory map in good order: the regions fit the page table, and no mapped page is free. -/
structure MemmapOk (pg : Paging) (m : Memmap) : Prop where
  wellFormed : WellFormed pg m.sys
  root : m.root ∈ m.sys.ctxs
  aligned : Aligned pg m.sys.mem m.root
  owned : ∀ a < pg.halfSize, ∀ page, m.at pg a = some (some page) → page.2 / 4096 ∉ m.sys.pages
  regions : RegionsOk pg m

/-- The range has been mapped to pages that were free, and nothing else has changed. -/
structure RangeMapped (pg : Paging) (m m' : Memmap) (vaddr size : ℕ) (flags : Flags) : Prop where
  fresh : ∀ a, vaddr ≤ a → a < vaddr + size → m.at pg a = some none
  mapped : ∀ a, vaddr ≤ a → a < vaddr + size → ∃ ppn ∈ m.sys.pages, ppn ∉ m'.sys.pages ∧
    m'.at pg a = some (some (⟨flags.toRwx, false, false, false, false⟩, ppn * 4096 + a % 4096))
  apart : ∀ a b, vaddr ≤ a → a < vaddr + size → vaddr ≤ b → b < vaddr + size →
    m'.at pg a = m'.at pg b → a = b
  others : ∀ a < 2 ^ 64, ¬ (vaddr ≤ a ∧ a < vaddr + size) → m'.at pg a = m.at pg a
  regions : RegionsOk pg m'

/-- Neither the mappings nor the owners of physical pages have changed. -/
structure MapUnchanged (pg : Paging) (m m' : Memmap) : Prop where
  same : ∀ a < 2 ^ 64, m'.at pg a = m.at pg a
  regions : m'.regions = m.regions
  pages : ∀ page, page ∈ m'.sys.pages ↔ page ∈ m.sys.pages

/-- What `proc_map_raw` should do when it returns `vaddr` for a request of `minSize` bytes. -/
def MapRawExact (pg : Paging) (m m' : Memmap) (vaddr minSize : ℕ) (flags : Flags) : Prop :=
  if vaddr = 0 then MapUnchanged pg m m'
  else RangeMapped pg m m' vaddr (Align.ceil 4096 minSize) flags

/-- The first block, if there is one with an entry, has exactly the size of the range, which
    is free and to be mapped with flags that the page table can represent. -/
def FirstBlockFits (env : MapEnv) (pg : Paging) (vaddr size : ℕ) (flags : Flags) (m : Memmap) :
    Prop :=
  ∀ alloc ppn st, nextBlock env.pages (size / 4096) m.sys.toMmuState = some (alloc, ppn, st) →
    env.index m.regions (blockEnt (vaddr / 4096) ppn alloc) ≠ none →
    vaddr ≠ 0 ∧ alloc = size / 4096 ∧ flags.any = true ∧ (flags.w = true → flags.r = true) ∧
      vaddr + size ≤ pg.halfSize ∧ ∀ a, vaddr ≤ a → a < vaddr + size → m.at pg a = some none

/-- The condition: a call that comes to the loop asks for nothing, or its first block fits. -/
def MapRawSafe (env : MapEnv) (pg : Paging) (vaddrReq minSize minAlign : ℕ) (flags : Flags)
    (m : Memmap) : Prop :=
  ∀ vaddr size existing, settle pg vaddrReq minSize minAlign = some (vaddr, size) →
    procMapContainsRaw pg m.sys.mem m.root vaddr size = some existing → existing.any = false →
    (size = 0 → vaddr = 0 ∨ minSize = 0) ∧ (0 < size → FirstBlockFits env pg vaddr size flags m)

theorem MemmapOk.hole {pg : Paging} {m : Memmap} (hok : MemmapOk pg m) {a : ℕ}
    (hp : Canonical pg (a / 4096)) (h : m.at pg a = some none) :
    foundAt pg m.sys.mem m.root (a / 4096) = .hole := by
  obtain ⟨own, hsep⟩ := hok.wellFormed
  have hpage := (translate_none hp).mp h
  cases hf : foundAt pg m.sys.mem m.root (a / 4096) with
  | hole => rfl
  | leaf level pte => exact absurd (hf ▸ hpage) (pageOf_leaf_ne _ _ _)
  | broken => exact absurd hf (hsep.ne_broken (mem_cons_of_mem _ hok.root) _)

/-! ## A range of one block -/

section OneBlock

variable {env : MapEnv} {pg : Paging} {vaddr size alloc ppn k : ℕ} {flags : Flags}
  {m m' : Memmap} {st : MmuState}

/-- The request that the first round makes. -/
def firstCall (vaddr ppn alloc : ℕ) (flags : Flags) : MapCall :=
  userCall vaddr (ppn * 4096) (alloc * 4096) flags

theorem firstCall_eq (vaddr ppn alloc : ℕ) (flags : Flags) : firstCall vaddr ppn alloc flags =
      ⟨vaddr / 4096, ppn, alloc, (firstCall vaddr ppn alloc flags).flags⟩ := by
  simp [firstCall, userCall]

theorem firstCall_has (p : ℕ) :
    (firstCall vaddr ppn alloc flags).Has p ↔ vaddr / 4096 ≤ p ∧ p < vaddr / 4096 + alloc := by
  rw [firstCall_eq]
  rfl

/-- After the first round: the tables hold the edits of the request, whose range is in the
    lower half and whose physical pages exist, and the pages of the block are not free. -/
structure FirstBlock (pg : Paging) (m m' : Memmap) (vaddr ppn alloc : ℕ) (flags : Flags) : Prop where
  pos : 0 < alloc
  page : 4096 ∣ vaddr
  lower : vaddr / 4096 + alloc ≤ pg.halfPages
  frames : ppn + alloc ≤ 2 ^ 44
  root : m'.root = m.root
  found : ∀ p, foundAt pg m'.sys.mem m.root p =
    ((firstCall vaddr ppn alloc flags).changes pg).foldl
      (Edit.effect (leafPart pg) (pg.levels - 1) (vpnKey p)) (foundAt pg m.sys.mem m.root p)
  before : ∀ i < alloc, ppn + i ∈ m.sys.pages
  after : ∀ i < alloc, ppn + i ∉ m'.sys.pages
  regions : ∃ k, m'.regions =
    m.regions.take k ++ blockEnt (vaddr / 4096) ppn alloc :: m.regions.drop k

theorem firstBlock (hok : MemmapOk pg m) (hpage : 4096 ∣ vaddr) {missing : ℕ}
    (hblock : nextBlock env.pages missing m.sys.toMmuState = some (alloc, ppn, st))
    (hcall : memprotectU pg m.root ((vaddr / 4096 + 0) * 4096) (ppn * 4096) (alloc * 4096) flags
      { m.sys with toMmuState := st } = some (true, m'.sys)) (hroot : m'.root = m.root)
    (hregions : m'.regions =
      m.regions.take k ++ blockEnt (vaddr / 4096) ppn alloc :: m.regions.drop k) :
    FirstBlock pg m m' vaddr ppn alloc flags := by
  obtain ⟨own, hsep⟩ := hok.wellFormed
  have hmem : m.root ∈ m.sys.global :: m.sys.ctxs := mem_cons_of_mem _ hok.root
  obtain ⟨hsep1, hsame⟩ := nextBlock_separate hsep hblock
  obtain ⟨hpos, halloc⟩ := nextBlock_spec hblock
  obtain ⟨hfree, -, hpages, -⟩ := physPageAllocUser_spec halloc
  have hle := le_blockPages alloc
  rw [Nat.add_zero, Nat.div_mul_cancel hpage] at hcall
  obtain ⟨-, -, -, hlower, -⟩ := memprotectU_inv hcall
  rw [Nat.mul_div_cancel _ (by norm_num)] at hlower
  refine ⟨hpos, hpage, hlower, nextBlock_frames hsep hblock, hroot, fun p => ?_,
    fun i hi => hfree i (by omega), fun i hi hin => ?_, k, hregions⟩
  · rw [(memprotectU_found hcall hsep1 hmem).2 p, firstCall]
    simp only [hsame m.root hmem p]
  · have hst := memprotectU_pages hsep1.lt hcall hin
    exact ((hpages _).mp hst).2 ⟨by omega, by omega⟩

section First

variable (h : FirstBlock pg m m' vaddr ppn alloc flags)

include h

theorem FirstBlock.inHalf : (firstCall vaddr ppn alloc flags).InHalf pg := by
  rw [firstCall_eq]
  exact .inl h.lower

theorem FirstBlock.canonical {p : ℕ} (hlt : p < vaddr / 4096 + alloc) : Canonical pg p := .inl (by have := h.lower; omega)

theorem FirstBlock.pageOf (hany : flags.any = true) {p : ℕ} (hge : vaddr / 4096 ≤ p)
    (hlt : p < vaddr / 4096 + alloc) : pageOf p (foundAt pg m'.sys.mem m.root p) =
      some (some ((firstCall vaddr ppn alloc flags).flags.reported, ppn + (p - vaddr / 4096))) := by
  have hframes := h.frames
  have hmapped := pageOf_mapped h.inHalf (userCall_read _ _ _ _)
    (by rw [firstCall_eq]; exact lt_of_le_of_lt hframes (by norm_num)) h.found
    ((any_userCall _ _ _ _).trans hany) ((firstCall_has p).mpr ⟨hge, hlt⟩)
  have hfit : ppn + (p - vaddr / 4096) < 2 ^ 44 := by omega
  rw [hmapped, firstCall_eq]
  simp only [Nat.mod_eq_of_lt hfit]

theorem FirstBlock.at (hany : flags.any = true) {a : ℕ} (hge : vaddr ≤ a) (hlt : a < vaddr + alloc * 4096) :
    m'.at pg a = some (some ((firstCall vaddr ppn alloc flags).flags.reported,
      (ppn + (a / 4096 - vaddr / 4096)) * 4096 + a % 4096)) := by
  have hpage := h.page
  have hp : a / 4096 < vaddr / 4096 + alloc := by omega
  rw [Memmap.at, h.root]
  exact (translate_page (h.canonical hp) rfl).mpr (h.pageOf hany (by omega) hp)

theorem FirstBlock.at_none (hok : MemmapOk pg m) (hany : flags.any = false) {a : ℕ}
    (ha : a / 4096 < vaddr / 4096 + alloc) (hnone : m.at pg a = some none) :
    m'.at pg a = some none := by
  have hp := h.canonical ha
  rw [Memmap.at, h.root, translate_none hp]
  exact pageOf_cleared h.found ((any_userCall _ _ _ _).trans hany) (.inl (hok.hole hp hnone))

/-- The range is mapped as it should be only if the block has its size and the flags can be
    represented. -/
theorem FirstBlock.of_rangeMapped (hok : MemmapOk pg m) (hsize : 4096 ∣ size) (hpos : 0 < size)
    (hle : size / 4096 ≤ alloc) (hr : RangeMapped pg m m' vaddr size flags) :
    alloc = size / 4096 ∧ flags.any = true ∧ (flags.w = true → flags.r = true) := by
  obtain ⟨frame, -, -, hfirst⟩ := hr.mapped vaddr le_rfl (by omega)
  have hpos' := h.pos
  have hany : flags.any = true := by
    by_contra hno
    have := h.at_none hok (by simpa using hno) (by omega) (hr.fresh vaddr le_rfl (by omega))
    rw [this] at hfirst
    simp at hfirst
  refine ⟨?_, hany, ?_⟩
  · -- A larger block maps the page behind the range to a page that was free.
    by_contra hne
    have hlt : size / 4096 < alloc := by omega
    have hbehind := hr.others (vaddr + size) (by
      have := h.lower
      rcases pg.sizes with hs | hs | hs <;> omega) (by omega)
    rw [h.at hany (by omega) (by omega)] at hbehind
    have hnew : ((vaddr + size) / 4096 - vaddr / 4096) = size / 4096 := by omega
    have hfree := h.before (size / 4096) hlt
    refine hok.owned (vaddr + size) ?_ _ hbehind.symm ?_
    · have := h.lower
      have := h.page
      rcases pg.sizes with hs | hs | hs <;> omega
    · simp only [hnew]
      rwa [show ((ppn + size / 4096) * 4096 + (vaddr + size) % 4096) / 4096 = ppn + size / 4096 by
        omega]
  · rw [h.at hany le_rfl (by omega)] at hfirst
    simp only [some.injEq, mk.injEq] at hfirst
    exact (reported_userCall _ _ _ _).mp hfirst.1

theorem FirstBlock.others (hexact : Exact pg m.sys.mem m'.sys.mem m.root
    (firstCall vaddr ppn alloc flags)) {a : ℕ} (ha : a < 2 ^ 64)
    (hout : ¬ (vaddr ≤ a ∧ a < vaddr + alloc * 4096)) : m'.at pg a = m.at pg a := by
  have hpage := h.page
  have hall := (@outside_iff_pages vaddr (ppn * 4096) (alloc * 4096) flags pg m.sys.mem m'.sys.mem
    m.root (by omega) (by omega)).mpr hexact.outside
  rw [Memmap.at, h.root]
  exact hall a ha hout

theorem FirstBlock.covered (a : ℕ) : (∃ r ∈ m'.regions, r.Has a) ↔
    (vaddr ≤ a ∧ a < vaddr + alloc * 4096) ∨ ∃ r ∈ m.regions, r.Has a := by
  have hpage := h.page
  obtain ⟨k, hregions⟩ := h.regions
  have hnew : (blockEnt (vaddr / 4096) ppn alloc).Has a ↔ vaddr ≤ a ∧ a < vaddr + alloc * 4096 := by
    simp only [blockEnt, MemmapEnt.Has]
    omega
  have hmem (r : MemmapEnt) : r ∈ m'.regions ↔
      r = blockEnt (vaddr / 4096) ppn alloc ∨ r ∈ m.regions := by
    have hold : r ∈ m.regions ↔ r ∈ m.regions.take k ∨ r ∈ m.regions.drop k := by
      rw [← mem_append, take_append_drop]
    rw [hregions, hold, mem_append, mem_cons, or_left_comm]
  simp only [hmem, or_and_right, exists_or, exists_eq_left, hnew]

section

variable (hok : MemmapOk pg m) (hany : flags.any = true)
  (hfresh : ∀ a, vaddr ≤ a → a < vaddr + alloc * 4096 → m.at pg a = some none)

include hok hany hfresh

theorem FirstBlock.exact :
    Exact pg m.sys.mem m'.sys.mem m.root (firstCall vaddr ppn alloc flags) := by
  obtain ⟨own, hsep⟩ := hok.wellFormed
  have hpage := h.page
  have hread := userCall_read vaddr (ppn * 4096) (alloc * 4096) flags
  have hcany : (firstCall vaddr ppn alloc flags).flags.any = true := (any_userCall _ _ _ _).trans hany
  have hframes : (firstCall vaddr ppn alloc flags).ppn + (firstCall vaddr ppn alloc flags).pages ≤
      2 ^ 44 := by
    rw [firstCall_eq]
    exact h.frames
  have hhole : ∀ p, (firstCall vaddr ppn alloc flags).Has p →
      foundAt pg m.sys.mem m.root p = .hole := by
    intro p hp
    obtain ⟨hge, hlt⟩ := (firstCall_has p).mp hp
    have hdiv : p * 4096 / 4096 = p := Nat.mul_div_cancel _ (by norm_num)
    have hnone := hok.hole (by rw [hdiv]; exact h.canonical hlt)
      (hfresh (p * 4096) (by omega) (by omega))
    rwa [hdiv] at hnone
  exact (exact_iff_safe hok.aligned h.inHalf hread (by omega)
    (hsep.ne_broken (mem_cons_of_mem _ hok.root)) h.found).mpr
      (safe_of_unmapped h.inHalf hcany hread hframes hhole)

theorem FirstBlock.rangeMapped (hwr : flags.w = true → flags.r = true) :
    RangeMapped pg m m' vaddr (alloc * 4096) flags := by
  have hpage := h.page
  have hflags : (firstCall vaddr ppn alloc flags).flags.reported =
      ⟨flags.toRwx, false, false, false, false⟩ := (reported_userCall _ _ _ _).mpr hwr
  have hat (a : ℕ) (hge : vaddr ≤ a) (hlt : a < vaddr + alloc * 4096) :
      m'.at pg a = some (some (⟨flags.toRwx, false, false, false, false⟩,
        (ppn + (a / 4096 - vaddr / 4096)) * 4096 + a % 4096)) := by
    rw [h.at hany hge hlt, hflags]
  have hexact := h.exact hok hany hfresh
  refine ⟨hfresh, fun a hge hlt => ?_, fun a b hage halt hbge hblt heq => ?_,
    fun a => h.others hexact, ?_, fun a => ?_⟩
  · exact ⟨ppn + (a / 4096 - vaddr / 4096), h.before _ (by omega), h.after _ (by omega),
      hat a hge hlt⟩
  · rw [hat a hage halt, hat b hbge hblt] at heq
    simp only [some.injEq, mk.injEq, true_and] at heq
    omega
  · obtain ⟨k, hregions⟩ := h.regions
    rw [hregions, disjoint_insert_iff]
    refine ⟨fun r hr a hnew hold => ?_, hok.regions.disjoint⟩
    obtain ⟨-, page, hmapped⟩ := (hok.regions.covers a).mp ⟨r, hr, hold⟩
    simp only [blockEnt, MemmapEnt.Has] at hnew
    rw [hfresh a (by omega) (by omega)] at hmapped
    simp at hmapped
  · rw [h.covered a, hok.regions.covers a]
    by_cases hin : vaddr ≤ a ∧ a < vaddr + alloc * 4096
    · have hlower := h.lower
      have hhalf : pg.halfPages * 4096 = pg.halfSize := by
        rcases pg.sizes with hs | hs | hs <;> omega
      exact iff_of_true (.inl hin) ⟨by omega, _, hat a hin.1 hin.2⟩
    · rw [or_iff_right hin]
      refine and_congr_right fun hlt => ?_
      rw [h.others hexact (by rcases pg.sizes with hs | hs | hs <;> omega) hin]

end

end First

end OneBlock

/-! ## The whole call -/

section Call

variable {env : MapEnv} {pg : Paging} {vaddr size : ℕ} {flags : Flags} {m m' : Memmap}

theorem MapUnchanged.refl (pg : Paging) (m : Memmap) : MapUnchanged pg m m := ⟨fun _ _ => rfl, rfl, fun _ => Iff.rfl⟩

theorem mapUnchanged_of_freed (hok : MemmapOk pg m) {missing alloc ppn : ℕ} {st : MmuState}
    (hblock : nextBlock env.pages missing m.sys.toMmuState = some (alloc, ppn, st)) :
    MapUnchanged pg m { m with sys := { m.sys with toMmuState := physPageFree ppn alloc st } } := by
  obtain ⟨own, hsep⟩ := hok.wellFormed
  have hsame := (nextBlock_separate hsep hblock).2 m.root (mem_cons_of_mem _ hok.root)
  refine ⟨fun a ha => ?_, rfl, mem_physPageFree (nextBlock_spec hblock).2⟩
  exact translate_congr (fun p _ => congrArg (pageOf p) (hsame p)) ha

theorem not_mapUnchanged {page : ℕ} (hbefore : page ∈ m.sys.pages) (hafter : page ∉ m'.sys.pages) :
    ¬ MapUnchanged pg m m' := fun h => hafter ((h.pages page).mpr hbefore)

/-- A first round that fails is harmless unless a block stays behind. -/
theorem mapUnchanged_iff_fits (hok : MemmapOk pg m) (hpage : 4096 ∣ vaddr) (hsize : 4096 ∣ size)
    (h : mapBlock env pg (vaddr / 4096) (size / 4096) flags 0 m = some (none, m')) :
    MapUnchanged pg m m' ↔ FirstBlockFits env pg vaddr size flags m := by
  rcases mapBlock_inv h with ⟨hnone, -, rfl⟩ | ⟨alloc, ppn, st, hblock, hrest⟩
  · refine iff_of_true (MapUnchanged.refl pg m') fun alloc ppn st hblock => ?_
    rw [Nat.sub_zero, hblock] at hnone
    contradiction
  rw [Nat.sub_zero] at hblock
  rcases hrest with ⟨hindex, -, rfl⟩ | ⟨k, ok, hindex, hcall, -, -, hresult⟩
  · refine iff_of_true (mapUnchanged_of_freed hok hblock) fun alloc' ppn' st' hblock' hne => ?_
    rw [hblock] at hblock'
    cases hblock'
    exact absurd hindex hne
  · obtain rfl : ok = false := by
      cases ok with
      | false => rfl
      | true => rw [if_pos rfl] at hresult; contradiction
    obtain ⟨hsys, hrange⟩ := memprotectU_false hcall
    obtain ⟨hpos, halloc⟩ := nextBlock_spec hblock
    obtain ⟨hfree, -, hpages, -⟩ := physPageAllocUser_spec halloc
    have hle := le_blockPages alloc
    refine iff_of_false (not_mapUnchanged (hfree 0 (by omega)) ?_) fun hfits => ?_
    · rw [hsys]
      exact fun hin => ((hpages _).mp hin).2 ⟨by omega, by omega⟩
    · obtain ⟨-, rfl, -, -, hhalf, -⟩ := hfits alloc ppn st hblock (by rw [hindex]; simp)
      have := hrange (by omega) (by omega) (by omega)
      rcases pg.sizes with hs | hs | hs <;> omega

/-- What the loop does to a range that is not empty is right exactly if the first block fits. -/
theorem mapLoop_exact_iff (hok : MemmapOk pg m) (hpage : 4096 ∣ vaddr) (hsize : 4096 ∣ size) (hpos : 0 < size) {ok : Bool}
    (h : mapLoop env pg (vaddr / 4096) (size / 4096) flags (size / 4096 + 1) 0 m = some (ok, m')) :
    (if (if ok then vaddr else 0) = 0 then MapUnchanged pg m m'
      else RangeMapped pg m m' vaddr size flags) ↔ FirstBlockFits env pg vaddr size flags m := by
  rw [mapLoop, if_neg (by omega)] at h
  split at h
  · contradiction
  · rename_i m1 hround
    cases h
    rw [if_neg Bool.false_ne_true, if_pos rfl]
    exact mapUnchanged_iff_fits hok hpage hsize hround
  · rename_i alloc' m1 hround
    rcases mapBlock_inv hround with ⟨-, hno, -⟩ | ⟨alloc, ppn, st, hblock, hrest⟩
    · contradiction
    rcases hrest with ⟨-, hno, -⟩ | ⟨k, ok', hindex, hcall, hroot, hregions, hresult⟩
    · contradiction
    obtain rfl : ok' = true := by
      cases ok' with
      | true => rfl
      | false => rw [if_neg Bool.false_ne_true] at hresult; contradiction
    obtain rfl : alloc' = alloc := some.inj hresult
    rw [Nat.sub_zero] at hblock
    have hfirst := firstBlock hok hpage hblock hcall hroot hregions
    have hfits : FirstBlockFits env pg vaddr size flags m → _ := fun hfits =>
      hfits alloc' ppn st hblock (by rw [hindex]; simp)
    have hlt : ∀ page ∈ m.sys.pages, page < 2 ^ 44 := hok.wellFormed.choose_spec.lt
    -- The first page of the block stays taken.
    have hchanged : ¬ MapUnchanged pg m m' := by
      have hlt1 : ∀ page ∈ m1.sys.pages, page < 2 ^ 44 := fun page hp =>
        hlt page (mapBlock_pages hlt hround hp)
      refine not_mapUnchanged (hfirst.before 0 hfirst.pos) fun hin => ?_
      exact hfirst.after 0 hfirst.pos (mapLoop_pages hlt1 h hin)
    rw [Nat.zero_add] at h
    rcases lt_or_ge alloc' (size / 4096) with hmore | hdone
    · refine iff_of_false ?_ fun hright => by have := (hfits hright).2.1; omega
      cases ok with
      | false =>
        rw [if_neg Bool.false_ne_true, if_pos rfl]
        exact hchanged
      | true =>
        rw [if_pos rfl]
        split_ifs
        · exact hchanged
        · obtain ⟨k, hk⟩ := hfirst.regions
          have hpos := hfirst.pos
          refine fun hright => mapLoop_overlap hmore ?_ h hright.regions.disjoint
          refine ⟨blockEnt (vaddr / 4096) ppn alloc', ?_, by simp only [blockEnt, MemmapEnt.Has]; omega⟩
          rw [hk]
          exact mem_append_right _ mem_cons_self
    · rw [mapLoop_done (by omega) hdone] at h
      cases h
      rw [if_pos rfl]
      split_ifs with hzero
      · exact iff_of_false hchanged fun hright => (hfits hright).1 hzero
      · constructor
        · intro hmapped
          obtain ⟨halloc, hany, hwr⟩ := hfirst.of_rangeMapped hok hsize hpos hdone hmapped
          have hlower := hfirst.lower
          have hhalf : vaddr + size ≤ pg.halfSize := by
            rcases pg.sizes with hs | hs | hs <;> omega
          intro alloc ppn' st' hblock' _
          rw [hblock] at hblock'
          obtain rfl := (mk.inj (some.inj hblock')).1
          exact ⟨hzero, halloc, hany, hwr, hhalf, hmapped.fresh⟩
        · intro hright
          obtain ⟨-, halloc, hany, hwr, -, hfresh⟩ := hfits hright
          obtain rfl : size = alloc' * 4096 := by omega
          exact hfirst.rangeMapped hok hany hfresh hwr

theorem procMapRaw_inv {vaddrReq minSize minAlign result : ℕ} {cause : Cause}
    (h : procMapRaw env pg vaddrReq minSize minAlign flags m = some (result, cause, m')) :
    (settle pg vaddrReq minSize minAlign = none ∧ result = 0 ∧ m' = m) ∨
    ∃ vaddr size existing, settle pg vaddrReq minSize minAlign = some (vaddr, size) ∧
      procMapContainsRaw pg m.sys.mem m.root vaddr size = some existing ∧
      ((existing.any = true ∧ result = 0 ∧ m' = m) ∨
        existing.any = false ∧ ∃ ok, result = (if ok then vaddr else 0) ∧
          mapLoop env pg (vaddr / 4096) (size / 4096) flags (size / 4096 + 1) 0 m = some (ok, m')) := by
  unfold procMapRaw at h
  split at h
  · rename_i hsettle
    simp only [some.injEq, mk.injEq] at h
    exact .inl ⟨hsettle, h.1.symm, h.2.2.symm⟩
  · rename_i vaddr size hsettle
    split at h
    · contradiction
    · rename_i existing hcontains
      refine .inr ⟨vaddr, size, existing, hsettle, hcontains, ?_⟩
      split_ifs at h with hany
      · simp only [some.injEq, mk.injEq] at h
        exact .inl ⟨hany, h.1.symm, h.2.2.symm⟩
      · refine .inr ⟨by simpa using hany, ?_⟩
        split at h
        · contradiction
        · rename_i m1 hloop
          cases h
          exact ⟨true, rfl, hloop⟩
        · rename_i m1 hloop
          cases h
          exact ⟨false, rfl, hloop⟩

/-- Returning an address without having mapped anything is right only if nothing was asked for. -/
theorem rangeMapped_self_iff (hok : MemmapOk pg m) : RangeMapped pg m m vaddr size flags ↔ size = 0 := by
  constructor
  · intro h
    by_contra hne
    obtain ⟨ppn, hfree, htaken, -⟩ := h.mapped vaddr le_rfl (by omega)
    exact htaken hfree
  · rintro rfl
    refine ⟨fun a _ _ => by omega, fun a _ _ => by omega, fun a b _ _ => by omega, fun _ _ _ => rfl,
      hok.regions⟩

/-- A call of `proc_map_raw` that returns has done what it should exactly under the condition. -/
theorem mapRawExact_iff {vaddrReq minSize minAlign result : ℕ} {cause : Cause}
    (hok : MemmapOk pg m) (hv : vaddrReq < 2 ^ 64) (hs : minSize < 2 ^ 64) (ha : minAlign < 2 ^ 64)
    (h : procMapRaw env pg vaddrReq minSize minAlign flags m = some (result, cause, m')) :
    MapRawExact pg m m' result minSize flags ↔
      MapRawSafe env pg vaddrReq minSize minAlign flags m := by
  rcases procMapRaw_inv h with ⟨hsettle, rfl, rfl⟩ | ⟨vaddr, size, existing, hsettle, hcontains, hrest⟩
  · rw [MapRawExact, if_pos rfl]
    refine iff_of_true (MapUnchanged.refl pg m') fun vaddr size existing hsettle' => ?_
    rw [hsettle] at hsettle'
    contradiction
  -- The address, the size and the result of the check are the ones in the condition.
  have hsafe : MapRawSafe env pg vaddrReq minSize minAlign flags m ↔ (existing.any = false →
      (size = 0 → vaddr = 0 ∨ minSize = 0) ∧
        (0 < size → FirstBlockFits env pg vaddr size flags m)) := by
    constructor
    · exact fun hsafe hany => hsafe vaddr size existing hsettle hcontains hany
    · intro hsafe vaddr' size' existing' hsettle' hcontains' hany
      rw [hsettle] at hsettle'
      cases hsettle'
      rw [hcontains] at hcontains'
      cases hcontains'
      exact hsafe hany
  rw [hsafe]
  obtain ⟨hpage, hmod, hpages⟩ := settle_pages hv hs ha hsettle
  rcases hrest with ⟨hany, rfl, rfl⟩ | ⟨hany, ok, rfl, hloop⟩
  · rw [MapRawExact, if_pos rfl]
    refine iff_of_true (MapUnchanged.refl pg m') fun hno => ?_
    rw [hany] at hno
    contradiction
  simp only [hany, forall_const]
  have hceil : Align.ceil 4096 minSize = 0 ↔ minSize = 0 := by
    have := (Align.ceil_spec (show 0 < 4096 by norm_num) minSize).2.1
    constructor
    · intro hzero
      omega
    · rintro rfl
      rfl
  rcases Nat.eq_zero_or_pos size with rfl | hpos
  · rw [mapLoop_done (by omega) (by omega)] at hloop
    cases hloop
    simp only [MapRawExact, if_true, forall_const, lt_irrefl, false_imp_iff, and_true]
    split_ifs with hzero
    · exact iff_of_true (MapUnchanged.refl pg m) (.inl hzero)
    · rw [rangeMapped_self_iff hok, hceil, or_iff_right hzero]
  · have hwanted : Align.ceil 4096 minSize = size := by
      have hle : Align.ceil 4096 minSize ≤ 2 ^ 64 := Align.ceil_le (by norm_num) (by norm_num) hs.le
      unfold wantedSize at hmod
      omega
    have hiff := mapLoop_exact_iff hok hpage hpages hpos hloop
    simp only [hpos, forall_const, hpos.ne', false_imp_iff, true_and]
    rw [MapRawExact, hwanted, ← hiff]
    cases ok <;> simp

end Call

/-! ### Examples of calls -/

/-- First fit. -/
def firstFit : PageAllocator where
  choose pages count := pages.find? fun ppn =>
    decide (ppn ≠ 0) && (List.range (blockPages count)).all fun i => pages.contains (ppn + i)
  free {pages count ppn} h := by
    have hfit := find?_some h
    simp only [Bool.and_eq_true, decide_eq_true_eq, all_eq_true, mem_range,
      contains_iff_mem] at hfit
    exact hfit

/-- First fit, with room for every entry at the front. -/
def roomyEnv : MapEnv := ⟨firstFit, fun _ _ => some 0⟩

/-- A process without memory, and the free pages. -/
def emptyMemmap (pages : List ℕ) : Memmap := ⟨⟨⟨fun _ => 0, pages, 0⟩, 1, [2]⟩, 2, []⟩

theorem emptyMemmap_at (pg : Paging) (pages : List ℕ) {a : ℕ} (ha : a < 2 ^ 64) :
    (emptyMemmap pages).at pg a = some none := by
  rw [Memmap.at]
  by_cases hp : Canonical pg (a / 4096)
  · exact (translate_none hp).mpr (congrArg (pageOf _) (find_hole rfl))
  · exact translate_of_not_canonical ha hp

theorem memmapOk_empty (pg : Paging) {pages : List ℕ} (hpages : ∀ page ∈ pages, 2 < page)
    (hlt : ∀ page ∈ pages, page < 2 ^ 44) (hnodup : pages.Nodup) :
    MemmapOk pg (emptyMemmap pages) := by
  have hnone (a : ℕ) (ha : a < pg.halfSize) : (emptyMemmap pages).at pg a = some none :=
    emptyMemmap_at pg pages (by rcases pg.sizes with hs | hs | hs <;> omega)
  refine ⟨⟨fun a => if a = 1 ∨ a = 2 then some (rootLabel pg a) else none, ⟨?_, ?_, hnodup⟩, ?_, hlt⟩,
    by simp [emptyMemmap], ?_, ?_, List.Pairwise.nil, ?_⟩
  · intro a n i c _ hs
    contradiction
  · intro a ha
    have := hpages a ha
    rw [if_neg (by omega)]
  · intro root hroot
    have : root = 1 ∨ root = 2 := by simpa [emptyMemmap] using hroot
    exact if_pos this
  · intro p _ level pte hleaf
    have hhole : foundAt pg (emptyMemmap pages).sys.mem 2 p = .hole := find_hole rfl
    rw [show (emptyMemmap pages).root = 2 from rfl, hhole] at hleaf
    contradiction
  · intro a ha page hmapped
    rw [hnone a ha] at hmapped
    simp at hmapped
  · intro a
    refine iff_of_false (by simp [emptyMemmap]) ?_
    rintro ⟨ha, page, hmapped⟩
    rw [hnone a ha] at hmapped
    simp at hmapped

/-- Free pages for a block of 64 and for two tables. -/
def manyPages : List ℕ := List.range' 64 64 ++ [3, 4]

theorem memmapOk_manyPages (pg : Paging) : MemmapOk pg (emptyMemmap manyPages) :=
  memmapOk_empty pg (by decide +kernel) (by decide +kernel) (by decide +kernel)

/-- A range of 58 pages gets a block of 58 pages, since 58 is its own `__builtin_clzll`. -/
theorem mapRawExact_iff_58 : ∃ m',
    procMapRaw roomyEnv Paging.sv39 65536 237568 4096 userRw (emptyMemmap manyPages) =
      some (65536, .ok, m') ∧
    MapRawExact Paging.sv39 (emptyMemmap manyPages) m' 65536 237568 userRw := by
  have hcall : (procMapRaw roomyEnv Paging.sv39 65536 237568 4096 userRw
      (emptyMemmap manyPages)).map (fun r => (r.1, r.2.1)) = some (65536, .ok) := by decide +kernel
  obtain ⟨⟨result, cause, m'⟩, hm', heq⟩ := Option.map_eq_some_iff.mp hcall
  cases heq
  refine ⟨m', hm', (mapRawExact_iff (memmapOk_manyPages _) (by norm_num) (by norm_num) (by norm_num)
    hm').mpr ?_⟩
  intro vaddr size existing hsettle _ _
  obtain ⟨rfl, rfl⟩ : 65536 = vaddr ∧ 237568 = size := by
    have : settle Paging.sv39 65536 237568 4096 = some (65536, 237568) := by decide +kernel
    rw [this] at hsettle
    simpa using hsettle
  refine ⟨fun h => by contradiction, fun _ alloc ppn st hblock _ => ?_⟩
  have halloc : 58 = alloc := by
    have hfirst : (nextBlock firstFit 58 (emptyMemmap manyPages).sys.toMmuState).map fst =
        some 58 := by decide +kernel
    have hblock' : nextBlock firstFit 58 (emptyMemmap manyPages).sys.toMmuState =
      some (alloc, ppn, st) := hblock
    rw [hblock'] at hfirst
    simpa using hfirst.symm
  exact ⟨by norm_num, halloc.symm, rfl, fun _ => rfl, by decide, fun a _ ha =>
    emptyMemmap_at _ _ (lt_trans ha (by norm_num))⟩

/-- A request for one byte maps 63 pages if it can. -/
theorem not_mapRawExact_onePage : ∃ m', MemmapOk Paging.sv39 (emptyMemmap manyPages) ∧
    procMapRaw roomyEnv Paging.sv39 65536 1 4096 userRw (emptyMemmap manyPages) =
      some (65536, .ok, m') ∧
    ¬ MapRawExact Paging.sv39 (emptyMemmap manyPages) m' 65536 1 userRw := by
  have hcall : (procMapRaw roomyEnv Paging.sv39 65536 1 4096 userRw (emptyMemmap manyPages)).map
      (fun r => (r.1, r.2.1)) = some (65536, .ok) := by decide +kernel
  have hlast : (procMapRaw roomyEnv Paging.sv39 65536 1 4096 userRw (emptyMemmap manyPages)).map
      (fun r => decide (Memmap.at Paging.sv39 r.2.2 (65536 + 62 * 4096) = some none)) =
        some false := by
    decide +kernel
  obtain ⟨⟨result, cause, m'⟩, hm', heq⟩ := Option.map_eq_some_iff.mp hcall
  cases heq
  rw [hm', Option.map_some, some.injEq, decide_eq_false_iff_not] at hlast
  refine ⟨m', memmapOk_manyPages _, hm', fun hexact => hlast ?_⟩
  rw [MapRawExact, if_neg (by norm_num)] at hexact
  have hsize : Align.ceil 4096 1 = 4096 := rfl
  rw [hexact.others _ (by norm_num) (by rw [hsize]; omega)]
  exact emptyMemmap_at _ _ (by norm_num)

end BadgerOS.Process

import BadgerOS.Common.Cause
import BadgerOS.Memprotect.UserEdit
import BadgerOS.Process.MapRequest
import BadgerOS.Process.UserRange

/-!
# The blocks of a new mapping

Model of `proc_map_raw` for targets with virtual memory
(`kernel/src/process/proc_memmap.c` lines 44–141): the search for an address of
`MapRequest`, the check of `UserRange` and the loop that fills the range with blocks of
physical pages.

The physical allocator is taken at its contract (`PageAllocator`): it hands out blocks of
free pages. So is the sorted insertion into the array of regions, which is part of badgelib
and not in the sources: it puts the entry somewhere or runs out of memory.

* `mapBlock_inv`: what one round of the loop can do.
* `mapLoop_pages`: physical pages are taken from the free ones only.
* `mapLoop_overlap`: a range of several blocks gets entries that overlap.
* `mapLoop_rounds`: the model has enough rounds.
-/

namespace BadgerOS.Process

open Memprotect RadixTree Option List Prod

/-! ## Physical pages -/

/-- The size of the block that the buddy allocator gives out for `count` pages. -/
def blockPages (count : ℕ) : ℕ := 2 ^ Nat.clog 2 count

/-- The physical allocator: the block that it chooses for `count` pages, if any, consists of
    free pages. Page 0 is not given out, as `phys_page_alloc` returns 0 for failure. -/
structure PageAllocator where
  choose : List ℕ → ℕ → Option ℕ
  free : ∀ {pages count ppn}, choose pages count = some ppn →
    ppn ≠ 0 ∧ ∀ i < blockPages count, ppn + i ∈ pages

/-- `phys_page_alloc(count, true)` (`kernel/src/page_alloc.c` lines 17–28). -/
def physPageAllocUser (A : PageAllocator) (count : ℕ) (st : MmuState) : Option (ℕ × MmuState) :=
  match A.choose st.pages count with
  | none => none
  | some ppn =>
    some (ppn, { st with
      mem := fun word => if ppn ≤ word / 512 ∧ word / 512 < ppn + count then 0 else st.mem word
      pages := st.pages.filter fun page => page < ppn ∨ ppn + blockPages count ≤ page })

/-- `phys_page_free` (lines 42–48) of a block for `count` pages. -/
def physPageFree (ppn count : ℕ) (st : MmuState) : MmuState :=
  { st with pages := List.range' ppn (blockPages count) ++ st.pages }

/-! ## Model -/

/-- `proc_memmap_ent_t`. -/
structure MemmapEnt where
  paddr : ℕ
  vaddr : ℕ
  size : ℕ
  write : Bool
  exec : Bool
  deriving DecidableEq

/-- The memory map of a process: the root table of `mpu_ctx` and the regions. -/
structure Memmap where
  sys : Contexts
  root : ℕ
  regions : List MemmapEnt

/-- What a call depends on besides the memory map: the physical allocator, and for each
    insertion into the regions the index, or `none` if memory runs out. -/
structure MapEnv where
  pages : PageAllocator
  index : List MemmapEnt → MemmapEnt → Option ℕ

/-- `__builtin_clzll` of a non-zero number. -/
def clzll (n : ℕ) : ℕ := 63 - Nat.log2 n

/-- The loop over the sizes of a block (lines 93–98). The size at least halves in each
    round, so there are at most `alloc` rounds. -/
def allocBlock (A : PageAllocator) (st : MmuState) : ℕ → ℕ → Option (ℕ × ℕ × MmuState)
  | 0, _ => none
  | rounds + 1, alloc =>
    if alloc = 0 then none
    else
      match physPageAllocUser A alloc st with
      | some (ppn, st) => some (alloc, ppn, st)
      | none => allocBlock A st rounds (alloc / 2)

/-- The block for the next pages of a range of which `missing` pages are left. -/
def nextBlock (A : PageAllocator) (missing : ℕ) (st : MmuState) : Option (ℕ × ℕ × MmuState) :=
  allocBlock A st (clzll missing) (clzll missing)

/-- The entry of a block (lines 103–109). All blocks get the address of the range. -/
def blockEnt (vpn ppn alloc : ℕ) : MemmapEnt := ⟨ppn * 4096, vpn * 4096, alloc * 4096, true, true⟩

/-- One round of the loop (lines 92–134) for the pages from `i` on: the number of pages that it has
    mapped, or `none` for the jump to `error`. A panic of `memprotect_u` is `none` outside. The
    addresses fit a `size_t`, as everything mapped before ends in the lower half. -/
def mapBlock (env : MapEnv) (pg : Paging) (vpn pages : ℕ) (flags : Flags) (i : ℕ) (m : Memmap) :
    Option (Option ℕ × Memmap) :=
  match nextBlock env.pages (pages - i) m.sys.toMmuState with
  | none => some (none, m)
  | some (alloc, ppn, st) =>
    match env.index m.regions (blockEnt vpn ppn alloc) with
    | none => some (none, { m with sys := { m.sys with toMmuState := physPageFree ppn alloc st } })
    | some k =>
      let regions := m.regions.take k ++ blockEnt vpn ppn alloc :: m.regions.drop k
      match memprotectU pg m.root ((vpn + i) * 4096) (ppn * 4096) (alloc * 4096) flags
          { m.sys with toMmuState := st } with
      | none => none
      | some (ok, sys) => some (if ok then some alloc else none, { m with sys, regions })

/-- The loop (lines 91–136), with a bound on the number of rounds. -/
def mapLoop (env : MapEnv) (pg : Paging) (vpn pages : ℕ) (flags : Flags) :
    ℕ → ℕ → Memmap → Option (Bool × Memmap)
  | 0, _, _ => none
  | rounds + 1, i, m =>
    if pages ≤ i then some (true, m)
    else
      match mapBlock env pg vpn pages flags i m with
      | none => none
      | some (none, m) => some (false, m)
      | some (some alloc, m) => mapLoop env pg vpn pages flags rounds (i + alloc) m

/-- `proc_map_raw` (lines 44–141): the result, the error cause and the new memory map.
    `none` stands for a panic. -/
def procMapRaw (env : MapEnv) (pg : Paging) (vaddrReq minSize minAlign : ℕ) (flags : Flags)
    (m : Memmap) : Option (ℕ × Cause × Memmap) :=
  match settle pg vaddrReq minSize minAlign with
  | none => some (0, .nomem, m)
  | some (vaddr, size) =>
    match procMapContainsRaw pg m.sys.mem m.root vaddr size with
    | none => none
    | some existing =>
      if existing.any then some (0, .nomem, m)
      else
        match mapLoop env pg (vaddr / 4096) (size / 4096) flags (size / 4096 + 1) 0 m with
        | none => none
        | some (true, m) => some (vaddr, .ok, m)
        | some (false, m) => some (0, .nomem, m)

/-! ## Entries -/

/-- The address lies in the region. -/
def MemmapEnt.Has (r : MemmapEnt) (a : ℕ) : Prop := r.vaddr ≤ a ∧ a < r.vaddr + r.size

/-- The entries do not overlap. -/
def RegionsDisjoint (regions : List MemmapEnt) : Prop :=
  regions.Pairwise fun r r' => ∀ a, r.Has a → ¬ r'.Has a

/-! ## Physical blocks -/

theorem le_blockPages (count : ℕ) : count ≤ blockPages count := Nat.le_pow_clog (by norm_num) count

variable {A : PageAllocator} {st st' : MmuState}

/-- What an allocation does: the pages of the block were free and are so no longer. -/
theorem physPageAllocUser_spec {count ppn : ℕ} (h : physPageAllocUser A count st = some (ppn, st')) :
    (∀ i < blockPages count, ppn + i ∈ st.pages) ∧ st'.pages.Sublist st.pages ∧
      (∀ page, page ∈ st'.pages ↔
        page ∈ st.pages ∧ ¬ (ppn ≤ page ∧ page < ppn + blockPages count)) ∧
      ∀ pt ∉ st.pages, tables st'.mem pt = tables st.mem pt := by
  unfold physPageAllocUser at h
  split at h
  · contradiction
  · rename_i ppn' hchoose
    simp only [some.injEq, mk.injEq] at h
    obtain ⟨rfl, rfl⟩ := h
    have hfree := (A.free hchoose).2
    refine ⟨hfree, filter_sublist, fun page => ?_, fun pt hpt => funext fun i => ?_⟩
    · simp only [mem_filter, decide_eq_true_eq]
      exact and_congr_right fun _ => by omega
    · have hdiv : pteWord pt i / 512 = pt := by unfold pteWord; omega
      have hle := le_blockPages count
      simp only [tables, hdiv]
      rw [if_neg]
      rintro ⟨hge, hlt⟩
      refine hpt ?_
      rw [show pt = ppn' + (pt - ppn') by omega]
      exact hfree _ (by omega)

theorem mem_physPageFree {count ppn : ℕ} (h : physPageAllocUser A count st = some (ppn, st'))
    (page : ℕ) : page ∈ (physPageFree ppn count st').pages ↔ page ∈ st.pages := by
  obtain ⟨hfree, -, hpages, -⟩ := physPageAllocUser_spec h
  simp only [physPageFree, mem_append, mem_range'_1, hpages]
  constructor
  · rintro (⟨hge, hlt⟩ | ⟨hmem, -⟩)
    · rw [show page = ppn + (page - ppn) by omega]
      exact hfree _ (by omega)
    · exact hmem
  · intro hmem
    by_cases hin : ppn ≤ page ∧ page < ppn + blockPages count
    · exact .inl hin
    · exact .inr ⟨hmem, hin⟩

theorem nextBlock_spec {missing alloc ppn : ℕ} (h : nextBlock A missing st = some (alloc, ppn, st')) :
    0 < alloc ∧ physPageAllocUser A alloc st = some (ppn, st') := by
  have hloop : ∀ rounds count, allocBlock A st rounds count = some (alloc, ppn, st') →
      0 < alloc ∧ physPageAllocUser A alloc st = some (ppn, st') := by
    intro rounds
    induction rounds with
    | zero => exact fun count h => absurd h (by simp [allocBlock])
    | succ rounds ih =>
      intro count h
      rw [allocBlock] at h
      split_ifs at h with hzero
      split at h
      · rename_i ppn' st'' halloc
        cases h
        exact ⟨by omega, halloc⟩
      · exact ih _ h
  exact hloop _ _ h

section Block

variable {A : PageAllocator} {pg : Paging} {missing alloc ppn root : ℕ} {sys : Contexts}
  {st : MmuState} {own : ℕ → Option (Label (Option ℕ) (Fin 512))}

section

variable (hsep : Separate pg sys own)
  (h : nextBlock A missing sys.toMmuState = some (alloc, ppn, st))

include hsep h

theorem nextBlock_separate : Separate pg { sys with toMmuState := st } own ∧
      ∀ root ∈ sys.global :: sys.ctxs, ∀ p, foundAt pg st.mem root p = foundAt pg sys.mem root p := by
  obtain ⟨-, hsub, -, htables⟩ := physPageAllocUser_spec (nextBlock_spec h).2
  have hsame {c : ℕ} {n : Label (Option ℕ) (Fin 512)} (hc : own c = some n) :
      tables st.mem c = tables sys.mem c := htables c fun hmem => by
    rw [hsep.owned.fresh hmem] at hc
    contradiction
  refine ⟨⟨hsep.owned.frame hsame hsub, hsep.roots, fun page hp => hsep.lt page (hsub.subset hp)⟩,
    fun root hroot p => ?_⟩
  exact hsep.owned.find_congr (hsep.roots root hroot) rfl hsame

theorem nextBlock_frames : ppn + alloc ≤ 2 ^ 44 := by
  obtain ⟨hpos, halloc⟩ := nextBlock_spec h
  have hle := le_blockPages alloc
  have hlast := (physPageAllocUser_spec halloc).1 (alloc - 1) (by omega)
  have := hsep.lt _ hlast
  omega

end

end Block

/-! ## The loop -/

section Loop

variable {env : MapEnv} {pg : Paging} {vpn pages i : ℕ} {flags : Flags} {m m' : Memmap}

variable {result : Option ℕ} {ok : Bool} {rounds : ℕ}

theorem mapBlock_inv (h : mapBlock env pg vpn pages flags i m = some (result, m')) :
    (nextBlock env.pages (pages - i) m.sys.toMmuState = none ∧ result = none ∧ m' = m) ∨
    ∃ alloc ppn st, nextBlock env.pages (pages - i) m.sys.toMmuState = some (alloc, ppn, st) ∧
      ((env.index m.regions (blockEnt vpn ppn alloc) = none ∧ result = none ∧
          m' = { m with sys := { m.sys with toMmuState := physPageFree ppn alloc st } }) ∨
        ∃ k ok, env.index m.regions (blockEnt vpn ppn alloc) = some k ∧
          memprotectU pg m.root ((vpn + i) * 4096) (ppn * 4096) (alloc * 4096) flags
            { m.sys with toMmuState := st } = some (ok, m'.sys) ∧
          m'.root = m.root ∧
          m'.regions = m.regions.take k ++ blockEnt vpn ppn alloc :: m.regions.drop k ∧
          result = if ok then some alloc else none) := by
  unfold mapBlock at h
  split at h
  · rename_i hblock
    simp only [some.injEq, mk.injEq] at h
    exact .inl ⟨hblock, h.1.symm, h.2.symm⟩
  · rename_i alloc ppn st hblock
    refine .inr ⟨alloc, ppn, st, hblock, ?_⟩
    split at h
    · rename_i hindex
      simp only [some.injEq, mk.injEq] at h
      exact .inl ⟨hindex, h.1.symm, h.2.symm⟩
    · rename_i k hindex
      simp only at h
      split at h
      · contradiction
      · rename_i ok sys hcall
        cases h
        exact .inr ⟨k, ok, hindex, hcall, rfl, rfl, rfl⟩

/-- The first round of the loop: the range is done, the block fails, or the loop goes on. -/
theorem mapLoop_succ_inv (h : mapLoop env pg vpn pages flags (rounds + 1) i m = some (ok, m')) :
    (pages ≤ i ∧ ok = true ∧ m' = m) ∨
      (ok = false ∧ mapBlock env pg vpn pages flags i m = some (none, m')) ∨
      ∃ alloc m1, mapBlock env pg vpn pages flags i m = some (some alloc, m1) ∧
        mapLoop env pg vpn pages flags rounds (i + alloc) m1 = some (ok, m') := by
  rw [mapLoop] at h
  split_ifs at h with hdone
  · cases h
    exact .inl ⟨hdone, rfl, rfl⟩
  · split at h
    · contradiction
    · rename_i m1 hround
      cases h
      exact .inr (.inl ⟨rfl, hround⟩)
    · rename_i alloc m1 hround
      exact .inr (.inr ⟨alloc, m1, hround, h⟩)

theorem memprotectU_pages {root vaddr paddr length : ℕ} {sys sys' : Contexts} (hlt : ∀ page ∈ sys.pages, page < 2 ^ 44)
    (h : memprotectU pg root vaddr paddr length flags sys = some (ok, sys')) :
    sys'.pages ⊆ sys.pages := by
  cases ok with
  | false => rw [(memprotectU_false h).1]; exact List.Subset.refl _
  | true => exact (edits_free (memprotectU_edits h hlt).1).subset

theorem mapBlock_pages (hlt : ∀ page ∈ m.sys.pages, page < 2 ^ 44)
    (h : mapBlock env pg vpn pages flags i m = some (result, m')) : m'.sys.pages ⊆ m.sys.pages := by
  rcases mapBlock_inv h with ⟨-, -, rfl⟩ | ⟨alloc, ppn, st, hblock, hrest⟩
  · exact List.Subset.refl _
  · have halloc := (nextBlock_spec hblock).2
    rcases hrest with ⟨-, -, rfl⟩ | ⟨k, ok, -, hcall, -⟩
    · exact fun page hmem => (mem_physPageFree halloc page).mp hmem
    · have hsub := (physPageAllocUser_spec halloc).2.1.subset
      exact List.Subset.trans (memprotectU_pages (fun page hp => hlt page (hsub hp)) hcall) hsub

theorem mapLoop_pages (hlt : ∀ page ∈ m.sys.pages, page < 2 ^ 44)
    (h : mapLoop env pg vpn pages flags rounds i m = some (ok, m')) :
    m'.sys.pages ⊆ m.sys.pages := by
  induction rounds generalizing i m with
  | zero => simp [mapLoop] at h
  | succ rounds ih =>
    rcases mapLoop_succ_inv h with ⟨-, -, rfl⟩ | ⟨-, hround⟩ | ⟨alloc, m1, hround, hrest⟩
    · exact List.Subset.refl _
    · exact mapBlock_pages hlt hround
    · have hsub := mapBlock_pages hlt hround
      exact List.Subset.trans (ih (fun page hp => hlt page (hsub hp)) hrest) hsub

theorem disjoint_insert_iff {regions : List MemmapEnt} {k : ℕ} {r : MemmapEnt} :
    RegionsDisjoint (regions.take k ++ r :: regions.drop k) ↔
      (∀ r' ∈ regions, ∀ a, r.Has a → ¬ r'.Has a) ∧ RegionsDisjoint regions := by
  have hperm : (regions.take k ++ r :: regions.drop k).Perm (r :: regions) := by
    refine perm_middle.trans ?_
    rw [take_append_drop]
  rw [RegionsDisjoint, RegionsDisjoint, hperm.pairwise_iff fun h a ha' ha => h a ha ha', pairwise_cons]

theorem mapBlock_disjoint (h : mapBlock env pg vpn pages flags i m = some (result, m'))
    (hm : RegionsDisjoint m'.regions) : RegionsDisjoint m.regions ∧
      (result.isSome = true → ∀ r ∈ m.regions, ¬ r.Has (vpn * 4096)) ∧
      (result.isSome = true → ∃ r ∈ m'.regions, r.Has (vpn * 4096)) := by
  rcases mapBlock_inv h with ⟨-, rfl, rfl⟩ | ⟨alloc, ppn, st, hblock, hrest⟩
  · simpa using hm
  · rcases hrest with ⟨-, rfl, rfl⟩ | ⟨k, ok, -, -, -, hregions, -⟩
    · simpa using hm
    · have hpos := (nextBlock_spec hblock).1
      have hhas : (blockEnt vpn ppn alloc).Has (vpn * 4096) := by
        simp only [blockEnt, MemmapEnt.Has]
        omega
      rw [hregions, disjoint_insert_iff] at hm
      refine ⟨hm.2, fun _ r hr => hm.1 r hr _ hhas, fun _ => ?_⟩
      rw [hregions]
      exact ⟨_, mem_append_right _ mem_cons_self, hhas⟩

theorem mapLoop_disjoint (h : mapLoop env pg vpn pages flags rounds i m = some (ok, m'))
    (hm : RegionsDisjoint m'.regions) : RegionsDisjoint m.regions := by
  induction rounds generalizing i m with
  | zero => simp [mapLoop] at h
  | succ rounds ih =>
    rcases mapLoop_succ_inv h with ⟨-, -, rfl⟩ | ⟨-, hround⟩ | ⟨alloc, m1, hround, hrest⟩
    · exact hm
    · exact (mapBlock_disjoint hround hm).1
    · exact (mapBlock_disjoint hround (ih hrest)).1

theorem mapLoop_overlap (hlt : i < pages) (hr : ∃ r ∈ m.regions, r.Has (vpn * 4096))
    (h : mapLoop env pg vpn pages flags rounds i m = some (true, m')) :
    ¬ RegionsDisjoint m'.regions := by
  intro hm
  cases rounds with
  | zero => simp [mapLoop] at h
  | succ rounds =>
    rcases mapLoop_succ_inv h with ⟨hdone, -, -⟩ | ⟨hok, -⟩ | ⟨alloc, m1, hround, hrest⟩
    · omega
    · contradiction
    · obtain ⟨r, hmem, hhas⟩ := hr
      exact (mapBlock_disjoint hround (mapLoop_disjoint hrest hm)).2.1 rfl r hmem hhas

/-- The bound on the number of rounds suffices: more of them change nothing. -/
theorem mapLoop_rounds (h : pages - i < rounds) :
    mapLoop env pg vpn pages flags (rounds + 1) i m = mapLoop env pg vpn pages flags rounds i m := by
  induction rounds generalizing i m with
  | zero => omega
  | succ rounds ih =>
    rw [mapLoop, mapLoop]
    split_ifs with hdone
    · rfl
    · split
      · rfl
      · rfl
      · rename_i alloc m1 hround
        have hpos : 0 < alloc := by
          rcases mapBlock_inv hround with ⟨-, hno, -⟩ | ⟨alloc', ppn, st, hblock, hrest⟩
          · contradiction
          · rcases hrest with ⟨-, hno, -⟩ | ⟨k, ok, -, -, -, -, hsome⟩
            · contradiction
            · have := (nextBlock_spec hblock).1
              cases ok with
              | true => obtain rfl := some.inj hsome; exact this
              | false => simp at hsome
        exact ih (by omega)

theorem mapLoop_done (hrounds : 0 < rounds) (hdone : pages ≤ i) :
    mapLoop env pg vpn pages flags rounds i m = some (true, m) := by
  cases rounds with
  | zero => contradiction
  | succ rounds => rw [mapLoop, if_pos hdone]

end Loop

end BadgerOS.Process

import BadgerOS.Lib.Run
import BadgerOS.Process.MapRaw

/-!
# Unmapping memory from a process

Model of `proc_unmap_raw` for targets with virtual memory
(`kernel/src/process/proc_memmap.c` lines 143–173), and of a process that maps and unmaps
memory. Unmapping an address that `proc_map_raw` has returned should remove the mapping and
give its physical blocks back, and nothing else.

**Deviation.** It does so for empty mappings only (`unmapExact_iff`). The loop that frees the
blocks looks the physical addresses up in the page table, from which the call has just
removed them: it finds address 0. If an address of the mapping can still be looked up, then
`pt_unmap` has failed to remove it (see `Memprotect.UserEdit`). Besides, only one entry and
its size are considered, while a mapping of several blocks has several entries.

The assertions and `array_remove` are part of badgelib and not in the sources: an assertion
panics if it is compiled in (`UnmapEnv.asserts`), and `array_remove` removes the element.
-/

namespace BadgerOS.Process

open List Option Prod

open Memprotect

/-! ## Model -/

/-- What a call depends on besides the memory map: whether assertions are compiled in, and
    `phys_page_size` (`kernel/src/page_alloc.c` lines 32–38), which is `none` for the panic on
    a page that is in no block. -/
structure UnmapEnv where
  asserts : Bool
  physPageSize : MmuState → ℕ → Option ℕ
  pos : ∀ {st ppn count}, physPageSize st ppn = some count → 0 < count

/-- The loop that releases physical memory (lines 157–165), with the blocks that it frees. The
    addresses fit a `size_t`. -/
def freeLoop (env : UnmapEnv) (pg : Paging) (root stop vaddr : ℕ) (st : MmuState) :
    Option (List ℕ × MmuState) :=
  if vaddr < stop then
    match memprotectVirt2phys pg st.mem root vaddr with
    | none => none
    | some v2p =>
      if env.asserts && (!v2p.flags.any || v2p.flags.kernel) then none
      else
        match h : env.physPageSize st (v2p.paddr / 4096) with
        | none => none
        | some count =>
          (freeLoop env pg root stop (vaddr + count * 4096)
            (physPageFree (v2p.paddr / 4096) count st)).map
              fun (freed, st) => (v2p.paddr / 4096 :: freed, st)
  else some ([], st)
termination_by stop - vaddr
decreasing_by
  have := env.pos h
  omega

/-- `proc_unmap_raw` (lines 143–173): the error cause, the blocks that have been freed and the
    new memory map. `none` stands for a panic. -/
def procUnmapRaw (env : UnmapEnv) (pg : Paging) (base : ℕ) (m : Memmap) :
    Option (Cause × List ℕ × Memmap) :=
  match m.regions.find? fun r => r.vaddr == base with
  | none => some (.notfound, [], m)
  | some region =>
    match memprotectU pg m.root base 0 region.size Flags.zero m.sys with
    | none => none
    | some (ok, sys) =>
      if env.asserts && !ok then none
      else
        match freeLoop env pg m.root (base + region.size) base sys.toMmuState with
        | none => none
        | some (freed, st) =>
          some (.ok, freed, { m with
            sys := { sys with toMmuState := st }
            regions := m.regions.eraseP fun r => r.vaddr == base })

/-! ## A process that maps and unmaps memory -/

/-- A mapping: the address that `proc_map_raw` has returned, the size that was asked for, as
    rounded in a `size_t`, and the entries of the blocks. -/
structure Mapping where
  base : ℕ
  size : ℕ
  ents : List MemmapEnt

/-- The address is in one of the blocks, which lie one after the other. -/
def Mapping.Has (x : Mapping) (a : ℕ) : Prop :=
  x.base ≤ a ∧ a < x.base + (x.ents.map MemmapEnt.size).sum

/-- The memory map of a process and the mappings that have not been unmapped. -/
structure MapState where
  memmap : Memmap
  live : List Mapping

/-- A call of `proc_map_raw` or `proc_unmap_raw`, or anything that others do to the physical
    memory. -/
inductive MapOp
  | map (env : MapEnv) (vaddrReq minSize minAlign : ℕ) (flags : Flags)
  | unmap (env : UnmapEnv) (base : ℕ)
  | others (sys : Contexts)

/-- One call. The entries of a mapping are the ones that the call has added. -/
def mapStep (pg : Paging) (s : MapState) : MapOp → Option MapState
  | .map env vaddrReq minSize minAlign flags =>
    (procMapRaw env pg vaddrReq minSize minAlign flags s.memmap).map fun (base, cause, m) =>
      ⟨m, if cause = .ok then
          ⟨base, wantedSize minSize % 2 ^ 64, m.regions.diff s.memmap.regions⟩ :: s.live
        else s.live⟩
  | .unmap env base =>
    (procUnmapRaw env pg base s.memmap).map fun (_, _, m) =>
      ⟨m, s.live.filter fun x => x.base ≠ base⟩
  | .others sys => some { s with memmap := { s.memmap with sys } }

/-- The arguments are of type `size_t`. -/
def MapValid (_ : MapState) : MapOp → Prop
  | .map _ vaddrReq minSize minAlign _ =>
    vaddrReq < 2 ^ 64 ∧ minSize < 2 ^ 64 ∧ minAlign < 2 ^ 64
  | _ => True

/-- Unmapping removes the mapping and nothing else: no address of it is translated, its blocks
    are freed once, its entries are removed, and no other address is affected. -/
def UnmapExact (env : UnmapEnv) (pg : Paging) (m : Memmap) (x : Mapping) : Prop :=
  ∃ cause freed m', procUnmapRaw env pg x.base m = some (cause, freed, m') ∧
    (∀ a, x.Has a → m'.at pg a = some none) ∧
    freed.Perm (x.ents.map fun e => e.paddr / 4096) ∧
    m'.sys.pages.Perm
      ((x.ents.flatMap fun e => List.range' (e.paddr / 4096) (blockPages (e.size / 4096))) ++
        m.sys.pages) ∧
    m.regions.Perm (x.ents ++ m'.regions) ∧
    ∀ a < 2 ^ 64, ¬ x.Has a → m'.at pg a = m.at pg a

/-! ## The loop that frees the blocks -/

section Free

variable {env : UnmapEnv} {pg : Paging} {root stop vaddr : ℕ} {st st' : MmuState} {freed : List ℕ}

theorem paddr_of_unmapped {mem : Pmem} {v2p : Virt2phys}
    (h : memprotectVirt2phys pg mem root vaddr = some v2p) (hany : v2p.flags.any = false) :
    v2p.paddr = 0 := by
  by_cases hv : pg.halfSize ≤ vaddr ∧ vaddr < pg.highVaddr
  · rw [memprotectVirt2phys, if_pos hv] at h
    cases h
    rfl
  · rw [memprotectVirt2phys_eq mem root hv, ptLookup_eq_find] at h
    cases hf : foundAt pg mem root (vaddr / 4096) with
    | hole =>
      rw [foundAt] at hf
      rw [hf] at h
      cases h
      rfl
    | leaf level pte =>
      have hleaf := (foundAt_leaf hf).2
      rw [foundAt] at hf
      rw [hf] at h
      simp only [Lookup.ofFound] at h
      split_ifs at h with hal
      cases h
      rw [show (Virt2phys.ofLeaf level pte vaddr).flags = mmuPteGetFlags pte from rfl, hleaf] at hany
      contradiction
    | broken =>
      rw [foundAt] at hf
      rw [hf] at h
      contradiction

section

variable (h : freeLoop env pg root stop vaddr st = some (freed, st'))

include h

theorem freeLoop_round (hlt : vaddr < stop) :
    ∃ v2p count rest, memprotectVirt2phys pg st.mem root vaddr = some v2p ∧
      env.physPageSize st (v2p.paddr / 4096) = some count ∧
      freeLoop env pg root stop (vaddr + count * 4096)
        (physPageFree (v2p.paddr / 4096) count st) = some (rest, st') ∧
      freed = v2p.paddr / 4096 :: rest := by
  rw [freeLoop, if_pos hlt] at h
  split at h
  · contradiction
  · rename_i v2p hv2p
    split_ifs at h with hassert
    split at h
    · contradiction
    · rename_i count hcount
      obtain ⟨⟨rest, st1⟩, hrest, heq⟩ := map_eq_some_iff.mp h
      cases heq
      exact ⟨v2p, count, rest, hv2p, hcount, hrest, rfl⟩

theorem freeLoop_mem : st'.mem = st.mem := by
  induction hn : stop - vaddr using Nat.strong_induction_on generalizing vaddr st freed with
  | _ n ih =>
    by_cases hlt : vaddr < stop
    · obtain ⟨v2p, count, rest, -, hcount, hrest, -⟩ := freeLoop_round h hlt
      have := env.pos hcount
      have hless : stop - (vaddr + count * 4096) < n := by omega
      have hmem := ih _ hless hrest rfl
      exact hmem
    · rw [freeLoop, if_neg hlt] at h
      obtain ⟨-, rfl⟩ := mk.inj (some.inj h)
      rfl

theorem zero_mem_freed (hlt : vaddr < stop) (hgone : translate pg st.mem root vaddr = some none) :
    0 ∈ freed := by
  obtain ⟨v2p, count, rest, hv2p, -, -, rfl⟩ := freeLoop_round h hlt
  rw [Memprotect.translate, hv2p, map_some, some.injEq] at hgone
  split_ifs at hgone with hany
  rw [paddr_of_unmapped hv2p (by simpa using hany)]
  exact mem_cons_self

end

end Free

/-! ## One call -/

section Unmap

variable {env : UnmapEnv} {pg : Paging} {m m' : Memmap} {x : Mapping}

theorem procUnmapRaw_notfound {base : ℕ} (h : ∀ r ∈ m.regions, r.vaddr ≠ base) :
    procUnmapRaw env pg base m = some (.notfound, [], m) := by
  have hfind : (m.regions.find? fun r => r.vaddr == base) = none :=
    find?_eq_none.mpr fun r hr => by simpa using h r hr
  rw [procUnmapRaw, hfind]

theorem procUnmapRaw_found {base : ℕ} {cause : Cause} {freed : List ℕ} (hr : ∃ r ∈ m.regions, r.vaddr = base)
    (h : procUnmapRaw env pg base m = some (cause, freed, m')) :
    ∃ region ∈ m.regions, ∃ st, freeLoop env pg m.root (base + region.size) base st =
        some (freed, m'.sys.toMmuState) ∧ m'.root = m.root ∧
      m'.regions = m.regions.eraseP fun r => r.vaddr == base := by
  rw [procUnmapRaw] at h
  split at h
  · rename_i hfind
    obtain ⟨r, hmem, hbase⟩ := hr
    have := find?_eq_none.mp hfind r hmem
    simp [hbase] at this
  · rename_i region hfind
    split at h
    · contradiction
    · rename_i ok sys hcall
      split_ifs at h with hassert
      split at h
      · contradiction
      · rename_i freed' st hloop
        cases h
        exact ⟨region, mem_of_find?_eq_some hfind, _, hloop, rfl, rfl⟩

/-- A call that finds an entry does not do what it should: either the address stays mapped or
    page 0 is freed in place of the block. -/
theorem not_unmapExact (hreal : ∀ r ∈ m.regions, 0 < r.size ∧ 4096 ≤ r.paddr)
    (hr : ∃ r ∈ m.regions, r.vaddr = x.base) : ¬ UnmapExact env pg m x := by
  rintro ⟨cause, freed, m', hcall, hgone, hfreed, -, hperm, -⟩
  obtain ⟨region, hmem, st, hloop, hroot, hregions⟩ := procUnmapRaw_found hr hcall
  -- One entry has been removed, so the mapping has one block.
  have hone : x.ents.length = 1 := by
    obtain ⟨r, hr, hbase⟩ := hr
    have hlen := hperm.length_eq
    rw [length_append, hregions, length_eraseP_of_mem hr (by simp [hbase])] at hlen
    have := length_pos_of_mem hr
    omega
  obtain ⟨e, he⟩ := length_eq_one_iff.mp hone
  have hreal_e := hreal e (hperm.mem_iff.mpr (by simp [he]))
  have hbase : x.Has x.base := by
    rw [Mapping.Has, he]
    simp only [map_cons, map_nil, sum_cons, sum_nil]
    omega
  have htrans := hgone x.base hbase
  rw [Memmap.at, hroot, freeLoop_mem hloop] at htrans
  have hzero := zero_mem_freed hloop (by have := (hreal region hmem).1; omega) htrans
  rw [hfreed.mem_iff, he] at hzero
  simp only [map_cons, map_nil, mem_singleton] at hzero
  omega

end Unmap

/-! ## Runs -/

section Entries

variable {env : MapEnv} {pg : Paging} {vpn pages i : ℕ} {flags : Flags} {m m' : Memmap}

/-- The entries that the loop adds have the address of the range; there is one if the loop has
    mapped anything. -/
structure Added (vpn : ℕ) (new : List MemmapEnt) (m m' : Memmap) : Prop where
  perm : m'.regions.Perm (new ++ m.regions)
  base : ∀ e ∈ new, e.vaddr = vpn * 4096
  real : ∀ e ∈ new, 0 < e.size ∧ 4096 ≤ e.paddr

theorem Added.refl (vpn : ℕ) (m : Memmap) : Added vpn [] m m := ⟨.refl _, nofun, nofun⟩

theorem Added.trans {new new' : List MemmapEnt} {m1 : Memmap} (h : Added vpn new m m1)
    (h' : Added vpn new' m1 m') : Added vpn (new' ++ new) m m' := by
  refine ⟨?_, fun e he => ?_, fun e he => ?_⟩
  · rw [append_assoc]
    exact h'.perm.trans (h.perm.append_left _)
  · exact (mem_append.mp he).elim (h'.base e) (h.base e)
  · exact (mem_append.mp he).elim (h'.real e) (h.real e)

theorem nextBlock_ne_zero {A : PageAllocator} {missing alloc ppn : ℕ} {st st' : MmuState}
    (h : nextBlock A missing st = some (alloc, ppn, st')) : ppn ≠ 0 := by
  have halloc := (nextBlock_spec h).2
  unfold physPageAllocUser at halloc
  split at halloc
  · contradiction
  · rename_i ppn' hchoose
    obtain ⟨rfl, -⟩ := mk.inj (some.inj halloc)
    exact (A.free hchoose).1

theorem mapBlock_added {result : Option ℕ} (h : mapBlock env pg vpn pages flags i m = some (result, m')) :
    ∃ new, Added vpn new m m' ∧ (result.isSome = true → new ≠ []) := by
  rcases mapBlock_inv h with ⟨-, rfl, rfl⟩ | ⟨alloc, ppn, st, hblock, hrest⟩
  · exact ⟨[], .refl vpn m', nofun⟩
  · rcases hrest with ⟨-, rfl, rfl⟩ | ⟨k, ok, -, -, -, hregions, -⟩
    · exact ⟨[], ⟨.refl _, nofun, nofun⟩, nofun⟩
    · have hpos := (nextBlock_spec hblock).1
      have hne := nextBlock_ne_zero hblock
      refine ⟨[blockEnt vpn ppn alloc], ⟨?_, fun e he => ?_, fun e he => ?_⟩, fun _ => by simp⟩
      · rw [hregions]
        refine perm_middle.trans ?_
        rw [take_append_drop]
        rfl
      · rw [mem_singleton.mp he, blockEnt]
      · rw [mem_singleton.mp he]
        simp only [blockEnt]
        omega

theorem mapLoop_added {rounds : ℕ} {ok : Bool} (h : mapLoop env pg vpn pages flags rounds i m = some (ok, m')) :
    ∃ new, Added vpn new m m' ∧ (ok = true → i < pages → new ≠ []) := by
  induction rounds generalizing i m with
  | zero => simp [mapLoop] at h
  | succ rounds ih =>
    rcases mapLoop_succ_inv h with ⟨hdone, -, rfl⟩ | ⟨rfl, hround⟩ | ⟨alloc, m1, hround, hrest⟩
    · exact ⟨[], .refl vpn _, fun _ hlt => by omega⟩
    · obtain ⟨new, hnew, -⟩ := mapBlock_added hround
      exact ⟨new, hnew, by intros; contradiction⟩
    · obtain ⟨new, hnew, hne⟩ := mapBlock_added hround
      obtain ⟨new', hnew', -⟩ := ih hrest
      exact ⟨new' ++ new, hnew.trans hnew', fun _ _ => by simp [hne rfl]⟩

theorem procMapRaw_added {vaddrReq minSize minAlign base : ℕ} {cause : Cause}
    (hv : vaddrReq < 2 ^ 64) (hs : minSize < 2 ^ 64) (ha : minAlign < 2 ^ 64)
    (h : procMapRaw env pg vaddrReq minSize minAlign flags m = some (base, cause, m')) :
    ∃ vpn new, Added vpn new m m' ∧ (cause = .ok → base = vpn * 4096 ∧
      (wantedSize minSize % 2 ^ 64 ≠ 0 → new ≠ [])) := by
  unfold procMapRaw at h
  split at h
  · simp only [some.injEq, mk.injEq] at h
    obtain ⟨-, rfl, rfl⟩ := h
    exact ⟨0, [], .refl 0 m, nofun⟩
  · rename_i vaddr size hsettle
    obtain ⟨hpage, hsize, hdvd⟩ := settle_pages hv hs ha hsettle
    split at h
    · contradiction
    · split_ifs at h with hany
      · simp only [some.injEq, mk.injEq] at h
        obtain ⟨-, rfl, rfl⟩ := h
        exact ⟨0, [], .refl 0 m, nofun⟩
      · split at h
        · contradiction
        · rename_i m1 hloop
          simp only [some.injEq, mk.injEq] at h
          obtain ⟨rfl, rfl, rfl⟩ := h
          obtain ⟨new, hnew, hne⟩ := mapLoop_added hloop
          refine ⟨vaddr / 4096, new, hnew, fun _ => ⟨(Nat.div_mul_cancel hpage).symm, fun hpos => ?_⟩⟩
          exact hne rfl (by omega)
        · rename_i m1 hloop
          simp only [some.injEq, mk.injEq] at h
          obtain ⟨-, rfl, rfl⟩ := h
          obtain ⟨new, hnew, -⟩ := mapLoop_added hloop
          exact ⟨vaddr / 4096, new, hnew, nofun⟩

theorem Added.diff_perm {new : List MemmapEnt} (h : Added vpn new m m') : (m'.regions.diff m.regions).Perm new := by
  rw [← Multiset.coe_eq_coe, ← Multiset.coe_sub, Multiset.coe_eq_coe.mpr h.perm,
    ← Multiset.coe_add, add_tsub_cancel_right]

end Entries

/-- The entries of the mappings exist and have the address of the mapping; a mapping that is
    not empty has one; no entry is empty or for page 0. -/
structure LiveOk (s : MapState) : Prop where
  mem : ∀ x ∈ s.live, ∀ e ∈ x.ents, e ∈ s.memmap.regions ∧ e.vaddr = x.base
  ne_nil : ∀ x ∈ s.live, x.size ≠ 0 → x.ents ≠ []
  real : ∀ r ∈ s.memmap.regions, 0 < r.size ∧ 4096 ≤ r.paddr

theorem LiveOk.map {s : MapState} (h : LiveOk s) {m : Memmap} {vpn : ℕ} {new : List MemmapEnt}
    (hnew : Added vpn new s.memmap m) : LiveOk ⟨m, s.live⟩ := by
  refine ⟨fun x hx e he => ?_, h.ne_nil, fun r hr => ?_⟩
  · obtain ⟨hmem, hbase⟩ := h.mem x hx e he
    exact ⟨hnew.perm.mem_iff.mpr (mem_append_right _ hmem), hbase⟩
  · exact (mem_append.mp (hnew.perm.mem_iff.mp hr)).elim (hnew.real r) (h.real r)

theorem LiveOk.cons {s : MapState} (h : LiveOk s) {x : Mapping}
    (hmem : ∀ e ∈ x.ents, e ∈ s.memmap.regions ∧ e.vaddr = x.base)
    (hne : x.size ≠ 0 → x.ents ≠ []) : LiveOk { s with live := x :: s.live } := by
  refine ⟨fun y hy => ?_, fun y hy => ?_, h.real⟩
  · rcases mem_cons.mp hy with rfl | hy
    · exact hmem
    · exact h.mem y hy
  · rcases mem_cons.mp hy with rfl | hy
    · exact hne
    · exact h.ne_nil y hy

/-- Removing an entry for `base` and forgetting the mappings at `base`. -/
theorem LiveOk.unmap {s : MapState} (h : LiveOk s) {m : Memmap} {base : ℕ}
    (hregions : m.regions = s.memmap.regions.eraseP fun r => r.vaddr == base) :
    LiveOk ⟨m, s.live.filter fun x => x.base ≠ base⟩ := by
  refine ⟨fun x hx e he => ?_, fun x hx => h.ne_nil x (mem_filter.mp hx).1, fun r hr => ?_⟩
  · obtain ⟨hx, hne⟩ := mem_filter.mp hx
    obtain ⟨hmem, hbase⟩ := h.mem x hx e he
    refine ⟨?_, hbase⟩
    rw [hregions, mem_eraseP_of_neg]
    · exact hmem
    · simpa [hbase] using hne
  · rw [hregions] at hr
    exact h.real r (mem_of_mem_eraseP hr)

theorem LiveOk.step {pg : Paging} {s t : MapState} {o : MapOp} (h : LiveOk s) (hok : MapValid s o)
    (hst : mapStep pg s o = some t) : LiveOk t := by
  cases o with
  | map env vaddrReq minSize minAlign flags =>
    obtain ⟨hv, hs, ha⟩ := hok
    obtain ⟨⟨base, cause, m⟩, hcall, rfl⟩ := map_eq_some_iff.mp hst
    obtain ⟨vpn, new, hnew, hlive⟩ := procMapRaw_added hv hs ha hcall
    have hmap := h.map hnew
    by_cases hcause : cause = .ok
    · obtain ⟨hbase, hne⟩ := hlive hcause
      simp only [if_pos hcause]
      refine hmap.cons (fun e he => ⟨diff_subset _ _ he, ?_⟩) fun hpos hnil => ?_
      · rw [hbase]
        exact hnew.base e (hnew.diff_perm.mem_iff.mp he)
      · exact hne hpos (nil_perm.mp (hnil ▸ hnew.diff_perm))
    · simp only [if_neg hcause]
      exact hmap
  | unmap env base =>
    obtain ⟨⟨cause, freed, m⟩, hcall, rfl⟩ := map_eq_some_iff.mp hst
    by_cases hr : ∃ r ∈ s.memmap.regions, r.vaddr = base
    · obtain ⟨region, -, st, -, -, hregions⟩ := procUnmapRaw_found hr hcall
      exact h.unmap hregions
    · simp only [not_exists, not_and] at hr
      rw [procUnmapRaw_notfound hr] at hcall
      cases hcall
      refine h.unmap (eraseP_of_forall_not fun r hmem => ?_).symm
      simpa using hr r hmem
  | others sys =>
    cases hst
    exact ⟨h.mem, h.ne_nil, h.real⟩

/-- In every run of a new process, unmapping a mapping that is still there does what it should
    exactly if there is no entry with its address, and so only if the mapping is empty. -/
theorem unmapExact_iff {pg : Paging} {s₀ s : MapState} {ops : List MapOp}
    (hregions : s₀.memmap.regions = []) (hlive : s₀.live = [])
    (hrun : Run (mapStep pg) MapValid s₀ ops s) (env : UnmapEnv) {x : Mapping} (hx : x ∈ s.live) :
    (UnmapExact env pg s.memmap x ↔ ∀ r ∈ s.memmap.regions, r.vaddr ≠ x.base) ∧
      (x.size ≠ 0 → ∃ r ∈ s.memmap.regions, r.vaddr = x.base) := by
  have hok : LiveOk s := hrun.invariant LiveOk.step ⟨by simp [hlive], by simp [hlive], by simp [hregions]⟩
  refine ⟨⟨fun hexact r hr hbase => ?_, fun hno => ?_⟩, fun hsize => ?_⟩
  · exact not_unmapExact hok.real ⟨r, hr, hbase⟩ hexact
  · have hnil : x.ents = [] := eq_nil_iff_forall_not_mem.mpr fun e he =>
      hno e (hok.mem x hx e he).1 (hok.mem x hx e he).2
    refine ⟨_, _, _, procUnmapRaw_notfound hno, fun a ha => ?_, ?_, ?_, ?_, fun _ _ _ => rfl⟩
    · rw [Mapping.Has, hnil] at ha
      simp only [map_nil, sum_nil] at ha
      omega
    · rw [hnil]
      rfl
    · rw [hnil]
      rfl
    · rw [hnil]
      rfl
  · obtain ⟨e, he⟩ := exists_mem_of_ne_nil _ (hok.ne_nil x hx hsize)
    exact ⟨e, hok.mem x hx e he⟩

/-- A process without memory, with free pages for a block of one page and two tables. -/
def threePages : MapState := ⟨emptyMemmap [64, 3, 4], []⟩

/-- Assertions are compiled in, and every block is a page. -/
def checkedEnv : UnmapEnv := ⟨true, fun _ _ => some 1, fun h => by cases h; decide⟩

/-- An empty mapping can be unmapped. -/
theorem unmapExact_iff_empty : ∃ s, ∃ x ∈ s.live, Run (mapStep Paging.sv39) MapValid threePages
    [.map roomyEnv 0 0 4096 userRw] s ∧ UnmapExact checkedEnv Paging.sv39 s.memmap x := by
  have hcall : (mapStep Paging.sv39 threePages (.map roomyEnv 0 0 4096 userRw)).map
      (fun s => (s.live.length, s.memmap.regions)) = some (1, []) := by decide
  obtain ⟨s, hs, heq⟩ := map_eq_some_iff.mp hcall
  obtain ⟨hlen, hregions⟩ := mk.inj heq
  obtain ⟨x, hx⟩ := length_eq_one_iff.mp hlen
  have hmem : x ∈ s.live := by simp [hx]
  have hrun : Run (mapStep Paging.sv39) MapValid threePages [.map roomyEnv 0 0 4096 userRw] s :=
    .cons ⟨by norm_num, by norm_num, by norm_num⟩ hs (.nil s)
  refine ⟨s, x, hmem, hrun, (unmapExact_iff rfl rfl hrun checkedEnv hmem).1.mpr fun r hr => ?_⟩
  rw [hregions] at hr
  contradiction

/-- A page that has been mapped cannot be unmapped. -/
theorem not_unmapExact_onePage : ∃ s, ∃ x ∈ s.live, Run (mapStep Paging.sv39) MapValid threePages
    [.map roomyEnv 0x40201000 4096 4096 userRw] s ∧ x.base = 0x40201000 ∧ x.size = 4096 ∧
      Memmap.at Paging.sv39 s.memmap 0x40201000 = some (some (userRw, 64 * 4096)) ∧
      ∀ env, ¬ UnmapExact env Paging.sv39 s.memmap x := by
  have hcall : (mapStep Paging.sv39 threePages
      (.map roomyEnv 0x40201000 4096 4096 userRw)).map (fun s =>
        (s.live.map fun x => (x.base, x.size), s.memmap.regions,
          Memmap.at Paging.sv39 s.memmap 0x40201000)) =
      some ([(0x40201000, 4096)], [blockEnt 0x40201 64 1], some (some (userRw, 64 * 4096))) := by
    decide
  obtain ⟨s, hs, heq⟩ := map_eq_some_iff.mp hcall
  simp only [mk.injEq] at heq
  obtain ⟨hlive, hregions, htrans⟩ := heq
  obtain ⟨x, hx, hsize⟩ := map_eq_singleton_iff.mp hlive
  obtain ⟨hbase, hsize⟩ := mk.inj hsize
  refine ⟨s, x, by simp [hx], .cons ⟨by norm_num, by norm_num, by norm_num⟩ hs (.nil s), hbase, hsize,
    htrans, fun env => not_unmapExact ?_ ?_⟩
  · rw [hregions]
    simp [blockEnt]
  · rw [hregions, hbase]
    exact ⟨_, mem_singleton_self _, rfl⟩

end BadgerOS.Process

import BadgerOS.Malloc.BuddyCoalesce
import BadgerOS.Malloc.BuddyComplete

/-!
# The pages of a fresh pool

Which pages `init_pool` marks as waste, and what one-page allocations then hand out.

* `FreshExact`: the marks are those of the pages that are not usable, and one-page allocations hand
  out every usable page once.
* `Paged`, `allocateAll_paged`: in a pool whose managed pages are all usable, one-page
  allocations succeed until every page is held.
* `freshExact_iff`: the ranges for which the pool is exact.

**Deviation.** The marks begin at `pages - max_order_waste`, which is `2 * pages - 2^order`; they
should begin at `pages`. The two agree only if all `2^order` managed pages are usable, which takes a
range of 16 pages whose metadata lies in the partial pages at its ends. Every other pool loses
usable pages or marks none (`fresh_pool_loses_pages`).
-/

namespace BadgerOS.Malloc

open List

/-! ## One-page requests -/

/-- A request of one page. -/
def OnePage (size : ℕ) : Prop := 0 < size ∧ size ≤ pageSize

/-- The results of a sequence of allocations, and the heap after it. -/
def allocateAll : Heap → List (ℕ × BlockType) → List (Option ℕ) × Heap
  | heap, [] => ([], heap)
  | heap, (size, type) :: requests =>
    let (addr, heap) := buddyAllocate heap size type
    let (addrs, heap) := allocateAll heap requests
    (addr :: addrs, heap)

theorem OnePage.requestPages_eq {size : ℕ} (h : OnePage size) : requestPages size = 1 := by
  obtain ⟨hpos, hle⟩ := h
  unfold pageSize at hle
  rw [requestPages, sizeAdd_eq (by unfold pageSize; omega)]
  unfold pageSize
  omega

theorem getOrder_one : getOrder 1 = 0 := by decide

/-- The pages of a pool that is made from the range, and its allocations of one page. -/
structure FreshExact (memStart memEnd flags : ℕ) : Prop where
  /-- `1 << orders` is defined. -/
  shift : getOrder (totalPages memStart memEnd) ≤ 30
  waste : ∀ i < totalPages memStart memEnd,
    ((newPool memStart memEnd flags).blocks i).isWaste = true ↔ poolPages memStart memEnd ≤ i
  served : ∀ requests : List (ℕ × BlockType), (∀ r ∈ requests, OnePage r.1) →
    requests.length = poolPages memStart memEnd →
    ∃ (addrs : List ℕ) (heap : Heap), allocateAll (initPool {} memStart memEnd flags) requests =
        (addrs.map some, heap) ∧
      addrs.Perm ((List.range (poolPages memStart memEnd)).map fun i =>
        poolPagesStart memStart memEnd + i * pageSize) ∧
      ∀ size type, OnePage size → (buddyAllocate heap size type).1 = none
  pagesEnd : poolPagesEnd memEnd =
    poolPagesStart memStart memEnd + poolPages memStart memEnd * pageSize

/-! ## A pool without waste -/

/-- A pool whose managed pages are all usable and unmarked, and whose allocated blocks `held` are
    single pages. -/
structure Paged (pool : MemoryPool) (held : List ℕ) : Prop where
  inv : CoalesceInv pool held
  order_pos : 0 < pool.maxOrder
  pages_eq : pool.pages = 2 ^ pool.maxOrder
  clean : ∀ i, (pool.blocks i).isWaste = false
  held_order : ∀ i ∈ held, (pool.blocks i).order = 0

namespace Paged

variable {pool : MemoryPool} {held : List ℕ}

section

variable (h : Paged pool held)

include h

theorem held_lt {i : ℕ} (hi : i ∈ held) : i < 2 ^ pool.maxOrder := h.inv.inv.tiling.lt (PoolInv.tile_held hi)

theorem heldPages_eq : pool.heldPages held = held.length := by
  have hone : ∀ n ∈ held.map fun i => 2 ^ (pool.blocks i).order, n = 1 := by
    intro n hn
    obtain ⟨i, hi, rfl⟩ := mem_map.mp hn
    rw [h.held_order i hi, pow_zero]
  rw [MemoryPool.heldPages, sum_eq_card_nsmul _ 1 hone, length_map, smul_eq_mul, mul_one]

theorem held_subset : held ⊆ List.range (2 ^ pool.maxOrder) := fun _ hi => mem_range.mpr (h.held_lt hi)

theorem length_le : held.length ≤ 2 ^ pool.maxOrder := by
  have hle := (h.inv.inv.held_nodup.subperm h.held_subset).length_le
  rwa [length_range] at hle

theorem perm_range (hfull : held.length = 2 ^ pool.maxOrder) : held.Perm (List.range (2 ^ pool.maxOrder)) :=
  (h.inv.inv.held_nodup.subperm h.held_subset).perm_of_length_le (by rw [length_range, hfull])

theorem freePages_eq : pool.freePages + held.length = 2 ^ pool.maxOrder := by
  have hcount := h.inv.count
  have hlt := h.inv.freePages_lt
  have hle := h.length_le
  have hmax : 2 ^ pool.maxOrder ≤ 2 ^ 30 := Nat.pow_le_pow_right (by norm_num) h.inv.inv.maxOrder_le
  rw [h.heldPages_eq, h.pages_eq] at hcount
  omega

theorem exists_free (hlt : held.length < 2 ^ pool.maxOrder) : ∃ k i, k ≤ pool.maxOrder ∧ i ∈ pool.lists (.free k) := by
  -- the block of a page that is not held is not held either
  obtain ⟨x, hx, hfree⟩ : ∃ x < 2 ^ pool.maxOrder, x ∉ held := by
    by_contra hall
    have hsub : List.range (2 ^ pool.maxOrder) ⊆ held := by
      intro x hx
      by_contra hnot
      exact hall ⟨x, mem_range.mp hx, hnot⟩
    have hle := (nodup_range.subperm hsub).length_le
    rw [length_range] at hle
    omega
  obtain ⟨i, k, htile, hle, hend⟩ := h.inv.inv.tiling.cover hx
  rw [MemoryPool.tile] at htile
  split_ifs at htile with hin
  cases htile
  rcases hin with hin | hheld
  · obtain ⟨l, hl⟩ := h.inv.inv.inList_iff.mp hin
    cases l with
    | free k => exact ⟨k, i, h.inv.inv.free_le hl, hl⟩
    | waste =>
      have hmarked := h.inv.merged.waste_marked hl
      rw [h.clean i] at hmarked
      cases hmarked
  · rw [h.held_order i hheld, pow_zero] at hend
    obtain rfl : i = x := by omega
    exact absurd hheld hfree

theorem serves_iff {size : ℕ} (hsize : OnePage size) : ServesSize pool size ↔ held.length < 2 ^ pool.maxOrder := by
  have hcount := h.freePages_eq
  rw [ServesSize, hsize.requestPages_eq, getOrder_one]
  constructor
  · intro hserves
    have := hserves.pages_le
    omega
  · intro hlt
    obtain ⟨k, i, hk, hi⟩ := h.exists_free hlt
    exact ⟨Nat.zero_le _, by omega, fun hrefused => absurd hrefused.1 h.order_pos.ne,
      k, i, Nat.zero_le _, hk, hi, h.clean _⟩

theorem take {i size : ℕ} {type : BlockType} (hsize : OnePage size)
    (hfind : poolFindBlock pool 0 1 = some i) : Paged (takeBlock pool i 0 type) (i :: held) := by
  have hreq := hsize.requestPages_eq
  obtain ⟨k, _, _, hi, _⟩ := poolFindBlock_some hfind
  have hshape : SameShape pool (takeBlock pool i 0 type) := SameShape.takeBlock i 0 type
  have hinv : CoalesceInv (takeBlock pool i (getOrder (requestPages size)) type) (i :: held) :=
    h.inv.take (by have := hsize.2; unfold pageSize at this ⊢; omega) hsize.1.ne'
    (by rw [hreq, getOrder_one]; exact hfind)
    (by rw [hreq, getOrder_one]; exact fun hrefused => absurd hrefused.1 h.order_pos.ne)
  rw [hreq, getOrder_one] at hinv
  refine ⟨hinv, ?_, ?_, ?_, ?_⟩
  · rw [hshape.maxOrder]
    exact h.order_pos
  · rw [hshape.pages, hshape.maxOrder]
    exact h.pages_eq
  · intro j
    rw [hshape.isWaste]
    exact h.clean j
  · intro j hj
    rcases mem_cons.mp hj with rfl | hj
    · exact (h.inv.inv.takeBlock hi (Nat.zero_le k)).2
    · rw [(Merged.takeBlock h.inv.inv h.inv.merged hi (Nat.zero_le k)).2.2 j hj]
      exact h.held_order j hj

end

end Paged

/-! ## A heap with one such pool -/

section

variable {heap : Heap} {held : List ℕ} {size : ℕ} {type : BlockType}

section

variable (h : Paged (heap.memoryPools 0) held) (hnum : heap.memoryPoolNum = 1)

include h hnum

theorem buddyAllocate_paged (type : BlockType) (hsize : OnePage size)
    (hlt : held.length < 2 ^ (heap.memoryPools 0).maxOrder) :
    ∃ i, poolFindBlock (heap.memoryPools 0) 0 1 = some i ∧
      buddyAllocate heap size type = (some (blockToAddress (heap.memoryPools 0) i),
        heap.setPool 0 (takeBlock (heap.memoryPools 0) i 0 type)) := by
  have hsome : (buddyAllocate heap size type).1.isSome = true :=
    (buddyAllocate_isSome_iff type hsize.1.ne').mpr
      ⟨0, by rw [hnum]; exact Nat.one_pos, (h.serves_iff hsize).mpr hlt⟩
  rcases buddyAllocateBlock_cases heap size type with hnone | ⟨p, i, _, hp, hfind, _, heq⟩
  · rw [buddyAllocate, hnone] at hsome
    cases hsome
  · rw [hnum] at hp
    obtain rfl : p = 0 := by omega
    rw [hsize.requestPages_eq, getOrder_one] at hfind heq
    refine ⟨i, hfind, ?_⟩
    rw [buddyAllocate, heq]
    show (some (blockToAddress ((heap.setPool 0 _).memoryPools 0) i), _) = _
    rw [Heap.setPool_self, blockToAddress, (SameShape.takeBlock i 0 type).pagesStart]
    rfl

theorem allocateAll_paged (requests : List (ℕ × BlockType)) (hreq : ∀ r ∈ requests, OnePage r.1)
    (hlen : held.length + requests.length = 2 ^ (heap.memoryPools 0).maxOrder) :
    ∃ (blocks : List ℕ) (heap' : Heap), allocateAll heap requests =
        (blocks.map fun i => some (blockToAddress (heap.memoryPools 0) i), heap') ∧
      blocks.length = requests.length ∧ heap'.memoryPoolNum = 1 ∧
      Paged (heap'.memoryPools 0) (blocks.reverse ++ held) ∧
      (heap'.memoryPools 0).maxOrder = (heap.memoryPools 0).maxOrder := by
  induction requests generalizing heap held with
  | nil => exact ⟨[], heap, rfl, rfl, hnum, h, rfl⟩
  | cons r requests ih =>
    obtain ⟨size, type⟩ := r
    have hsize : OnePage size := hreq (size, type) mem_cons_self
    rw [length_cons] at hlen
    obtain ⟨i, hfind, heq⟩ := buddyAllocate_paged h hnum type hsize (by omega)
    have hshape : SameShape (heap.memoryPools 0) (takeBlock (heap.memoryPools 0) i 0 type) :=
      SameShape.takeBlock i 0 type
    have hself : (heap.setPool 0 (takeBlock (heap.memoryPools 0) i 0 type)).memoryPools 0 =
        takeBlock (heap.memoryPools 0) i 0 type := Heap.setPool_self
    obtain ⟨blocks, heap', hall, hcount, hnum', hpaged, hmax⟩ :=
      @ih (heap.setPool 0 (takeBlock (heap.memoryPools 0) i 0 type)) (i :: held)
        (hself ▸ h.take hsize hfind) hnum (fun r hr => hreq r (mem_cons_of_mem _ hr))
        (by rw [hself, hshape.maxOrder, length_cons]; omega)
    refine ⟨i :: blocks, heap', ?_, ?_, hnum', ?_, ?_⟩
    · rw [allocateAll, heq]
      dsimp only
      rw [hall, map_cons, hself]
      simp only [blockToAddress, hshape.pagesStart]
    · rw [length_cons, hcount, length_cons]
    · rw [reverse_cons, append_assoc]
      exact hpaged
    · rw [hmax, hself, hshape.maxOrder]

theorem buddyAllocate_full (hsize : OnePage size)
    (hfull : held.length = 2 ^ (heap.memoryPools 0).maxOrder) :
    (buddyAllocate heap size type).1 = none := by
  rw [← Option.not_isSome_iff_eq_none, buddyAllocate_isSome_iff type hsize.1.ne']
  rintro ⟨p, hp, hserves⟩
  rw [hnum] at hp
  obtain rfl : p = 0 := by omega
  have hlt := (h.serves_iff hsize).mp hserves
  omega

end

end

/-! ## Fresh pools -/

section

variable {memStart memEnd flags : ℕ}

section

variable (hend : memEnd < 2 ^ 64) (hshift : getOrder (totalPages memStart memEnd) ≤ 30)

include hend hshift

theorem totalPages_le_of_shift : totalPages memStart memEnd ≤ 2 ^ 30 := by
  have hle : totalPages memStart memEnd ≤ 2 ^ 63 := by
    unfold totalPages pageSize
    omega
  exact (getOrder_le_iff hle).mp hshift

/-- The first marked page, without wrap-around, and the case in which it wraps. -/
theorem waste_start (hT : 16 ≤ totalPages memStart memEnd) (i : ℕ) :
    ((newPool memStart memEnd flags).blocks i).isWaste = true ↔
      2 ^ getOrder (totalPages memStart memEnd) ≤ 2 * usablePages memStart memEnd ∧
        2 * usablePages memStart memEnd - 2 ^ getOrder (totalPages memStart memEnd) ≤ i ∧
        i < totalPages memStart memEnd := by
  obtain ⟨hpages, hle, _⟩ := poolPages_eq hend hT
  have hT' := totalPages_le_of_shift hend hshift
  have htop := le_two_pow_getOrder (n := totalPages memStart memEnd) (by omega)
  have hmax : 2 ^ getOrder (totalPages memStart memEnd) ≤ 2 ^ 30 :=
    Nat.pow_le_pow_right (by norm_num) hshift
  have hwaste : poolMaxOrderWaste memStart memEnd =
      2 ^ getOrder (totalPages memStart memEnd) - usablePages memStart memEnd := by
    rw [poolMaxOrderWaste, hpages, sizeShl_eq hshift, sizeSub_eq (by omega) (by omega)]
    omega
  rw [newPool_eq]
  simp only [decide_eq_true_eq]
  rw [hpages, hwaste, sizeSub]
  omega

theorem newPool_paged (flags : ℕ) (hT : 16 ≤ totalPages memStart memEnd)
    (hall : usablePages memStart memEnd = 2 ^ getOrder (totalPages memStart memEnd)) :
    Paged (newPool memStart memEnd flags) [] := by
  have hle : memStart ≤ memEnd ∧ memStart + 2 * pageSize ≤ 2 ^ 64 := by
    unfold totalPages pageSize at *
    omega
  have hT' := totalPages_le_of_shift hend hshift
  have htop := le_two_pow_getOrder (n := totalPages memStart memEnd) (by omega)
  refine ⟨newPool_coalesceInv flags hle.1 hend hT' hle.2, ?_, ?_, ?_, ?_⟩
  · rw [newPool_eq]
    refine Nat.pos_of_ne_zero fun hzero => ?_
    have hzero : getOrder (totalPages memStart memEnd) = 0 := hzero
    rw [hzero] at htop
    omega
  · rw [newPool_eq]
    exact (poolPages_eq hend hT).1.trans hall
  · intro i
    rw [← Bool.not_eq_true, waste_start hend hshift hT]
    omega
  · exact fun i hi => absurd hi not_mem_nil

end

/-- The pool is exact for the ranges all of whose managed pages are usable. -/
theorem freshExact_iff (hend : memEnd < 2 ^ 64) (hT : 16 ≤ totalPages memStart memEnd) :
    FreshExact memStart memEnd flags ↔
      getOrder (totalPages memStart memEnd) ≤ 30 ∧
        usablePages memStart memEnd = 2 ^ getOrder (totalPages memStart memEnd) := by
  obtain ⟨hpages, hle, hpagesEnd⟩ := poolPages_eq hend hT
  constructor
  · rintro ⟨hshift, hwaste, _, _⟩
    refine ⟨hshift, ?_⟩
    have hT' := totalPages_le_of_shift hend hshift
    have htop := le_two_pow_getOrder (n := totalPages memStart memEnd) (by omega)
    simp only [waste_start hend hshift hT, hpages] at hwaste
    by_cases hfits : 2 ^ getOrder (totalPages memStart memEnd) ≤ 2 * usablePages memStart memEnd
    · -- the first marked page is usable unless there is no page to mark
      by_contra hne
      have hfirst := hwaste
        (2 * usablePages memStart memEnd - 2 ^ getOrder (totalPages memStart memEnd)) (by omega)
      omega
    · -- nothing is marked, although the last page is not usable
      have hlast := hwaste (totalPages memStart memEnd - 1) (by omega)
      obtain ⟨k, hk⟩ : ∃ k, getOrder (totalPages memStart memEnd) = k + 1 := by
        refine Nat.exists_eq_succ_of_ne_zero fun hzero => ?_
        rw [hzero] at htop
        omega
      have hlt := lt_of_getOrder_eq_succ (n := totalPages memStart memEnd) (by omega) hk
      rw [hk, pow_succ] at hfits hlast
      omega
  · rintro ⟨hshift, hall⟩
    have hpaged := newPool_paged hend hshift flags hT hall
    have hmax : (newPool memStart memEnd flags).maxOrder =
        getOrder (totalPages memStart memEnd) := by
      rw [newPool_eq]
    have hstart : (newPool memStart memEnd flags).pagesStart = poolPagesStart memStart memEnd := by
      rw [newPool_eq]
    have hpool : (initPool {} memStart memEnd flags).memoryPools 0 =
        newPool memStart memEnd flags := by
      rw [initPool, if_neg (by decide)]
      rfl
    have hcount : poolPages memStart memEnd = 2 ^ getOrder (totalPages memStart memEnd) :=
      hpages.trans hall
    have hstop : poolPagesEnd memEnd < 2 ^ 64 := by
      unfold poolPagesEnd alignDown pageSize
      omega
    rw [← hpages] at hpagesEnd
    refine ⟨hshift, ?_, ?_, hpagesEnd⟩
    · intro i hi
      have hclean := hpaged.clean i
      have htop := le_two_pow_getOrder (n := totalPages memStart memEnd)
        (by have := totalPages_le_of_shift hend hshift; omega)
      rw [hclean]
      constructor
      · nofun
      · intro hw
        omega
    · intro requests hreq hlen
      have hnum : (initPool {} memStart memEnd flags).memoryPoolNum = 1 := rfl
      have hpaged₀ : Paged ((initPool {} memStart memEnd flags).memoryPools 0) [] := by
        rw [hpool]
        exact hpaged
      obtain ⟨blocks, heap', hserved, hlength, hnum', hpaged', hmax'⟩ :=
        allocateAll_paged hpaged₀ hnum requests hreq
          (by rw [hpool, hmax, hlen, hcount, length_nil, Nat.zero_add])
      rw [append_nil] at hpaged'
      rw [hpool, hmax] at hmax'
      have hfull : blocks.reverse.length = 2 ^ (heap'.memoryPools 0).maxOrder := by
        rw [length_reverse, hlength, hlen, hcount, hmax']
      refine ⟨blocks.map fun i => poolPagesStart memStart memEnd + i * pageSize, heap', ?_, ?_, ?_⟩
      · rw [hserved, map_map]
        congr 1
        refine map_congr_left fun i hi => ?_
        have hlt := hpaged'.held_lt (mem_reverse.mpr hi)
        rw [hmax', ← hcount] at hlt
        show some _ = some _
        rw [hpool, blockToAddress, hstart, sizeAdd_eq]
        unfold pageSize
        omega
      · have hperm := hpaged'.perm_range hfull
        rw [hmax', ← hcount] at hperm
        exact ((reverse_perm blocks).symm.trans hperm).map _
      · exact fun size type hsize => buddyAllocate_full hpaged' hnum' hsize hfull

end

/-- Sixteen pages whose metadata ends at the first page boundary inside the range. -/
theorem freshExact_iff_sixteen : FreshExact 4928 74559 0 := (freshExact_iff (by decide) (by decide)).mpr (by decide)

/-- A range of 64 pages: page 60 of the 62 usable ones is marked as waste. -/
theorem fresh_pool_loses_pages : ¬ ∀ memStart memEnd flags : ℕ, memEnd < 2 ^ 64 →
    16 ≤ totalPages memStart memEnd → FreshExact memStart memEnd flags := by
  intro hall
  have hwaste := (hall 409600 671744 0 (by decide) (by decide)).waste 60 (by decide)
  exact absurd (hwaste.mp (by decide)) (by decide)

end BadgerOS.Malloc

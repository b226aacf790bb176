import BadgerOS.Malloc.BuddyWaste

/-!
# Requests that are refused

When `buddy_allocate` returns `NULL` although a pool has a free block for the request.

* `PoolServes`: the tests that a pool has to pass, and a free block of it; `findBlock_isSome_iff`: the
  loop over the pools finds a block exactly when some pool passes, whatever pools the search
  starts from.
* `Fits`: a pool has a free block of the order of the request whose first pages are usable.
* `complete_iff`: when a request that fits somewhere is served.
* `top_not_serves`: no pool serves a request of its top order.

**Deviation.** The test of lines 440–444 compares the size of the request in bytes with a number of
pages, so that a request which needs a whole pool is refused by every pool (`whole_pool_refused`).
Further blocks are lost to waste marks on usable pages and to `free_pages`, from which a block is
subtracted with its unusable pages.
-/

namespace BadgerOS.Malloc

/-! ## The search -/

/-- The pool passes the tests of `find_pool` and `buddy_allocate` for the request, and one of its
    free blocks is taken by `pool_find_block`. -/
structure PoolServes (pool : MemoryPool) (size pages order : ℕ) : Prop where
  order_le : order ≤ pool.maxOrderFree
  pages_le : pages ≤ pool.freePages
  accepted : ¬ (order = pool.maxOrder ∧ size > uintSub (uintShl order) pool.maxOrderWaste)
  block : ∃ k i, order ≤ k ∧ k ≤ pool.maxOrder ∧ i ∈ pool.lists (.free k) ∧
    (pool.blocks (sizeSub (sizeAdd i pages) 1)).isWaste = false

theorem poolFindBlock_isSome_iff {pool : MemoryPool} {order pages : ℕ} : (poolFindBlock pool order pages).isSome = true ↔
      ∃ k i, order ≤ k ∧ k ≤ pool.maxOrder ∧ i ∈ pool.lists (.free k) ∧
        (pool.blocks (sizeSub (sizeAdd i pages) 1)).isWaste = false := by
  constructor
  · intro h
    obtain ⟨i, hi⟩ := Option.isSome_iff_exists.mp h
    obtain ⟨k, hk⟩ := poolFindBlock_some hi
    exact ⟨k, i, hk⟩
  · rintro ⟨k, i, hk, hmax, hi, hclean⟩
    rw [poolFindBlock, List.findSome?_isSome_iff]
    refine ⟨k, List.mem_range'_1.mpr (by omega), List.find?_isSome.mpr ⟨i, hi, ?_⟩⟩
    rw [hclean]
    rfl

section

variable {heap : Heap} {size pages order : ℕ}

/-- `find_pool` returns the first pool from `start` on that passes its tests. -/
theorem findPool_eq_some (size : ℕ) {start p : ℕ} (h : findPool heap start order pages = some p) :
    start ≤ p ∧ p < heap.memoryPoolNum ∧
      ∀ q, start ≤ q → PoolServes (heap.memoryPools q) size pages order → p ≤ q := by
  obtain ⟨_, hmem, hfirst⟩ := List.find?_range'_eq_some.mp h
  rw [List.mem_range'_1] at hmem
  refine ⟨hmem.1, by omega, fun q hstart hserves => ?_⟩
  by_contra hlt
  have hnot := hfirst q hstart (by omega)
  simp only [Bool.not_eq_true', Bool.and_eq_false_iff, decide_eq_false_iff_not] at hnot
  rcases hnot with hnot | hnot
  · exact hnot hserves.order_le
  · exact hnot hserves.pages_le

theorem findPool_eq_none {start q : ℕ} (h : findPool heap start order pages = none)
    (hstart : start ≤ q) (hq : q < heap.memoryPoolNum) :
    ¬ PoolServes (heap.memoryPools q) size pages order := by
  intro hserves
  have hnot := List.find?_range'_eq_none.mp h q hstart (by omega)
  simp only [Bool.not_eq_true', Bool.and_eq_false_iff, decide_eq_false_iff_not] at hnot
  rcases hnot with hnot | hnot
  · exact hnot hserves.order_le
  · exact hnot hserves.pages_le

/-- The pool that `find_pool` returns serves the request exactly when it is not refused and
    `pool_find_block` finds a block. -/
theorem serves_of_findPool {start p : ℕ} (h : findPool heap start order pages = some p)
    (haccepted : ¬ (order = (heap.memoryPools p).maxOrder ∧
      size > uintSub (uintShl order) (heap.memoryPools p).maxOrderWaste))
    (hblock : (poolFindBlock (heap.memoryPools p) order pages).isSome = true) :
    PoolServes (heap.memoryPools p) size pages order := by
  have htests := List.find?_some h
  simp only [Bool.and_eq_true, decide_eq_true_eq] at htests
  exact ⟨htests.1, htests.2, haccepted, poolFindBlock_isSome_iff.mp hblock⟩

/-- The loop over the pools. It asks `find_pool` for the first pool from `i` on, and so looks at a
    pool that has failed again until `i` has passed it. -/
theorem findBlock_isSome_iff : ∀ {turns i : ℕ}, i + turns = heap.memoryPoolNum →
    ((findBlock heap size pages order turns i).isSome = true ↔
      ∃ p, i ≤ p ∧ p < heap.memoryPoolNum ∧ PoolServes (heap.memoryPools p) size pages order) := by
  intro turns
  induction turns with
  | zero =>
    intro i hi
    refine iff_of_false Bool.false_ne_true ?_
    rintro ⟨p, hip, hp, _⟩
    omega
  | succ turns ih =>
    intro i hi
    rw [findBlock]
    cases hfind : findPool heap i order pages with
    | none =>
      refine iff_of_false Bool.false_ne_true ?_
      rintro ⟨p, hip, hp, hserves⟩
      exact findPool_eq_none hfind hip hp hserves
    | some p =>
      obtain ⟨hip, hp, hfirst⟩ := findPool_eq_some size hfind
      -- when `p` fails, the pools from `i + 1` on are those that are left
      have hnext : ¬ PoolServes (heap.memoryPools p) size pages order →
          ((∃ q, i + 1 ≤ q ∧ q < heap.memoryPoolNum ∧
              PoolServes (heap.memoryPools q) size pages order) ↔
            ∃ q, i ≤ q ∧ q < heap.memoryPoolNum ∧
              PoolServes (heap.memoryPools q) size pages order) := by
        intro hfails
        constructor
        · rintro ⟨q, hiq, hq, hserves⟩
          exact ⟨q, by omega, hq, hserves⟩
        · rintro ⟨q, hiq, hq, hserves⟩
          have hpq := hfirst q hiq hserves
          have hne : q ≠ p := fun heq => hfails (heq ▸ hserves)
          exact ⟨q, by omega, hq, hserves⟩
      by_cases hrefused : order = (heap.memoryPools p).maxOrder ∧
          size > uintSub (uintShl order) (heap.memoryPools p).maxOrderWaste
      · simp only [if_pos hrefused]
        rw [ih (by omega)]
        exact hnext fun hserves => hserves.accepted hrefused
      · simp only [if_neg hrefused]
        cases hblock : poolFindBlock (heap.memoryPools p) order pages with
        | some b =>
          exact iff_of_true rfl
            ⟨p, hip, hp, serves_of_findPool hfind hrefused (by rw [hblock]; rfl)⟩
        | none =>
          rw [ih (by omega)]
          refine hnext fun hserves => ?_
          have hsome := poolFindBlock_isSome_iff.mpr hserves.block
          rw [hblock] at hsome
          cases hsome

end

/-! ## Completeness -/

/-- The number of pages of a request. -/
def neededPages (size : ℕ) : ℕ := (size + (pageSize - 1)) / pageSize

/-- The pool has a free block of at least the order of the request whose first pages are usable. -/
def Fits (pool : MemoryPool) (size : ℕ) : Prop :=
  ∃ k i, getOrder (neededPages size) ≤ k ∧ i ∈ pool.lists (.free k) ∧
    i + neededPages size ≤ pool.pages

/-- `buddy_allocate` returns `NULL` only if the request fits nowhere. -/
def Complete (heap : Heap) (size : ℕ) (type : BlockType) : Prop :=
  (buddyAllocate heap size type).1 = none →
    ∀ p < heap.memoryPoolNum, ¬ Fits (heap.memoryPools p) size

/-- What the code tests in a pool for a request of `size` bytes. -/
def ServesSize (pool : MemoryPool) (size : ℕ) : Prop :=
  PoolServes pool size (requestPages size) (getOrder (requestPages size))

theorem buddyAllocate_isSome_iff {heap : Heap} {size : ℕ} (type : BlockType) (hpos : size ≠ 0) :
    (buddyAllocate heap size type).1.isSome = true ↔
      ∃ p < heap.memoryPoolNum, ServesSize (heap.memoryPools p) size := by
  have hiff : (findBlock heap size (requestPages size) (getOrder (requestPages size))
      heap.memoryPoolNum 0).isSome = true ↔ _ :=
    findBlock_isSome_iff (Nat.zero_add heap.memoryPoolNum)
  simp only [Nat.zero_le, true_and] at hiff
  show _ ↔ ∃ p, p < heap.memoryPoolNum ∧ PoolServes _ size _ _
  rw [← hiff, buddyAllocate, Option.isSome_map, buddyAllocateBlock, if_neg hpos]
  dsimp only
  cases findBlock heap size (requestPages size) (getOrder (requestPages size))
    heap.memoryPoolNum 0 with
  | none => exact Iff.rfl
  | some pb => exact Iff.rfl

/-- No pool serves a request of its top order. -/
theorem top_not_serves {pool : MemoryPool} {size : ℕ} (hpos : 0 < pool.maxOrder)
    (hM : pool.maxOrder ≤ 30) (hwaste : pool.maxOrderWaste ≤ 2 ^ pool.maxOrder)
    (hsize : size + (pageSize - 1) < 2 ^ 64)
    (heq : getOrder (requestPages size) = pool.maxOrder) : ¬ ServesSize pool size :=
  fun h => h.accepted ⟨heq, top_refused hpos hM hwaste hsize heq⟩

/-- The heap with one pool of 64 pages, 62 of them usable. -/
def heap64 : Heap := initPool {} 409600 671744 0

end BadgerOS.Malloc

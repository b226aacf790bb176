import BadgerOS.Malloc.BuddyInv

/-!
# Runs of the buddy allocator

A state is the table of memory pools together with the list of the blocks that
are currently allocated; the operations are `init_pool`, `buddy_allocate` and
`buddy_deallocate`. A deallocation names its block by pool and first page and
passes the address that `buddy_allocate` returned for it.

* `HeapInv`: every pool is tiled by its listed and its allocated blocks, and the
  page ranges of the pools are disjoint.
* `buddyStep_cases`: what one operation does to one pool.
* `HeapInv.step`, `heapInv_run`: one operation and a whole run keep it, as long as
  every deallocated block starts inside the pages of its pool.
* `buddy_blocks_partition`: the partition of every pool after such a run.
* `buddy_blocks_overlap`: without that condition two pools of 33 pages end up with
  overlapping free blocks.
-/

namespace BadgerOS.Malloc

open List

/-! ## States and operations -/

/-- The pools and the allocated blocks, each as its pool and its first page. -/
structure BuddyState where
  heap : Heap := {}
  live : List (ℕ × ℕ) := []

/-- The calls of a run. -/
inductive BuddyOp
  | initPool (memStart memEnd flags : ℕ)
  | allocate (size : ℕ) (type : BlockType)
  | deallocate (p i : ℕ)

/-- The first pages of the allocated blocks of pool `p`. -/
def heldIn (live : List (ℕ × ℕ)) (p : ℕ) : List ℕ := (live.filter fun b => b.1 = p).map Prod.snd

/-- One call; `none` where it ends in `panic_abort`. -/
def buddyStep (s : BuddyState) : BuddyOp → Option BuddyState
  | .initPool memStart memEnd flags => some { s with heap := initPool s.heap memStart memEnd flags }
  | .allocate size type =>
    let r := buddyAllocateBlock s.heap size type
    some { heap := r.2, live := r.1.toList ++ s.live }
  | .deallocate p i =>
    (buddyDeallocate s.heap (blockToAddress (s.heap.memoryPools p) i)).map fun heap =>
      { heap := heap, live := s.live.erase (p, i) }

/-- What the callers of the allocator guarantee: a new range is part of the address space and
    disjoint from the ranges of the other pools, and only allocated blocks are deallocated. -/
def ValidCall (s : BuddyState) : BuddyOp → Prop
  | .initPool memStart memEnd _ => memStart ≤ memEnd ∧ memEnd < 2 ^ 64 ∧
      ∀ p < s.heap.memoryPoolNum,
        (s.heap.memoryPools p).stop ≤ memStart ∨ memEnd ≤ (s.heap.memoryPools p).start
  | .allocate _ _ => True
  | .deallocate p i => (p, i) ∈ s.live

/-- Page `i` of `pool` is one of its usable pages. -/
def OwnPage (pool : MemoryPool) (i : ℕ) : Prop :=
  pool.pagesStart ≤ blockToAddress pool i ∧ blockToAddress pool i < pool.pagesEnd

/-- The calls for which the partition is kept: a range has at most 2^30 pages, so
    that `1 << order` is defined, and does not begin in the last two pages of the
    address space; a deallocated block starts at a usable page of its pool. -/
def OwnPageCall (s : BuddyState) : BuddyOp → Prop
  | .initPool memStart memEnd flags => ValidCall s (.initPool memStart memEnd flags) ∧
      totalPages memStart memEnd ≤ 2 ^ 30 ∧ memStart + 2 * pageSize ≤ 2 ^ 64
  | .allocate size type => ValidCall s (.allocate size type)
  | .deallocate p i => ValidCall s (.deallocate p i) ∧ OwnPage (s.heap.memoryPools p) i

/-! ## Allocated blocks by pool -/

variable {heap : Heap} {p : ℕ} {pool : MemoryPool} {live : List (ℕ × ℕ)} {q : ℕ}
  {memStart memEnd : ℕ}

theorem Heap.setPool_self : (heap.setPool p pool).memoryPools p = pool := Function.update_self _ _ _

theorem Heap.setPool_of_ne (h : q ≠ p) : (heap.setPool p pool).memoryPools q = heap.memoryPools q :=
  Function.update_of_ne h _ _

theorem mem_heldIn {i : ℕ} : i ∈ heldIn live p ↔ (p, i) ∈ live := by
  simp [heldIn]

theorem heldIn_cons_self (live : List (ℕ × ℕ)) (p i : ℕ) : heldIn ((p, i) :: live) p = i :: heldIn live p := by
  simp [heldIn]

theorem heldIn_cons_of_ne (live : List (ℕ × ℕ)) (i : ℕ) (h : q ≠ p) : heldIn ((p, i) :: live) q = heldIn live q := by
  simp [heldIn, h.symm]

theorem heldIn_perm_erase {i : ℕ} (h : (p, i) ∈ live) : (heldIn live p).Perm (i :: heldIn (live.erase (p, i)) p) := by
  rw [← heldIn_cons_self]
  exact ((perm_cons_erase h).filter _).map _

theorem heldIn_erase_of_ne {q i : ℕ} (hne : q ≠ p) (h : (p, i) ∈ live) :
    (heldIn live q).Perm (heldIn (live.erase (p, i)) q) := by
  rw [← heldIn_cons_of_ne (live.erase (p, i)) i hne]
  exact ((perm_cons_erase h).filter _).map _

/-! ## What the search finds -/

/-- `pool_find_block` returns an entry of a free list of sufficient order whose last
    requested page is not marked as waste. -/
theorem poolFindBlock_some {a pages i : ℕ} (h : poolFindBlock pool a pages = some i) :
    ∃ k, a ≤ k ∧ k ≤ pool.maxOrder ∧ i ∈ pool.lists (.free k) ∧
      (pool.blocks (sizeSub (sizeAdd i pages) 1)).isWaste = false := by
  unfold poolFindBlock at h
  obtain ⟨k, hk, hfind⟩ := exists_of_findSome?_eq_some h
  rw [mem_range'_1] at hk
  have hw := find?_some hfind
  exact ⟨k, hk.1, by omega, mem_of_find?_eq_some hfind, by simpa using hw⟩

theorem findPool_lt {i order pages : ℕ} (h : findPool heap i order pages = some p) : p < heap.memoryPoolNum := by
  have := mem_of_find?_eq_some h
  rw [mem_range'_1] at this
  omega

/-- The pool loop of `buddy_allocate` returns a block that `pool_find_block` found
    in one of the pools, where the request is not refused for its size. -/
theorem findBlock_some {size pages a i : ℕ} : ∀ {turns start : ℕ}, findBlock heap size pages a turns start = some (p, i) →
      p < heap.memoryPoolNum ∧ poolFindBlock (heap.memoryPools p) a pages = some i ∧
        ¬ (a = (heap.memoryPools p).maxOrder ∧
          size > uintSub (uintShl a) (heap.memoryPools p).maxOrderWaste) := by
  intro turns
  induction turns with
  | zero => intro start h; cases h
  | succ turns ih =>
    intro start h
    rw [findBlock] at h
    cases hp : findPool heap start a pages with
    | none => rw [hp] at h; cases h
    | some q =>
      rw [hp] at h
      dsimp only at h
      split_ifs at h with hc
      · exact ih h
      · cases hb : poolFindBlock (heap.memoryPools q) a pages with
        | none => rw [hb] at h; exact ih h
        | some b =>
          rw [hb] at h
          cases h
          exact ⟨findPool_lt hp, hb, hc⟩

/-- What `buddy_allocate` does: it fails and changes nothing, or it takes one block of one pool. -/
theorem buddyAllocateBlock_cases (heap : Heap) (size : ℕ) (type : BlockType) : buddyAllocateBlock heap size type = (none, heap) ∨
    ∃ p i, size ≠ 0 ∧ p < heap.memoryPoolNum ∧
      poolFindBlock (heap.memoryPools p) (getOrder (requestPages size)) (requestPages size)
        = some i ∧
      ¬ (getOrder (requestPages size) = (heap.memoryPools p).maxOrder ∧
        size > uintSub (uintShl (getOrder (requestPages size)))
          (heap.memoryPools p).maxOrderWaste) ∧
      buddyAllocateBlock heap size type = (some (p, i), heap.setPool p
        (takeBlock (heap.memoryPools p) i (getOrder (requestPages size)) type)) := by
  unfold buddyAllocateBlock
  split_ifs with h0
  · exact .inl rfl
  · dsimp only
    cases hf : findBlock heap size (requestPages size) (getOrder (requestPages size))
        heap.memoryPoolNum 0 with
    | none => exact .inl rfl
    | some r =>
      obtain ⟨p, i⟩ := r
      obtain ⟨hp, hb, hc⟩ := findBlock_some hf
      exact .inr ⟨p, i, h0, hp, hb, hc, rfl⟩

/-! ## Placement of a pool -/

/-- The page range of a pool is page aligned, not at address 0 and inside the range
    that the pool was made from. -/
structure Placed (pool : MemoryPool) : Prop where
  aligned : pageSize ∣ pool.pagesStart
  pos : 0 < pool.pagesStart
  start_le : pool.start ≤ pool.pagesStart
  le_stop : pool.pagesEnd ≤ pool.stop
  stop_lt : pool.stop < 2 ^ 64

theorem alignUp_eq {x y : ℕ} (h : x + (y - 1) < 2 ^ 64) : alignUp x y = (x + (y - 1)) / y * y := by
  rw [alignUp, sizeAdd_eq h]

theorem getOrder_le_self {n : ℕ} (h : n ≤ 2 ^ 63) : getOrder n ≤ n := (getOrder_le_iff h).mpr Nat.lt_two_pow_self.le

section

variable (hend : memEnd < 2 ^ 64) (hstart : memStart + 2 * pageSize ≤ 2 ^ 64)

include hend hstart

theorem metadata_lt :
    memStart + 576 * (getOrder (totalPages memStart memEnd) + 1) + 7 +
      24 * totalPages memStart memEnd + 4095 < 2 ^ 64 := by
  have hT : totalPages memStart memEnd * 4096 ≤ memEnd - memStart := Nat.div_mul_le_self _ _
  have ho := getOrder_le_self (n := totalPages memStart memEnd) (by omega)
  unfold pageSize at hstart
  rcases Nat.lt_or_ge (totalPages memStart memEnd) 2 with hlt | hge
  · have ho' : getOrder (totalPages memStart memEnd) = 0 := by
      rcases (show totalPages memStart memEnd = 0 ∨ totalPages memStart memEnd = 1 by omega)
        with he | he <;> rw [he] <;> rfl
    omega
  · omega

theorem poolPagesStart_eq :
    poolPagesStart memStart memEnd =
      ((memStart + 576 * (getOrder (totalPages memStart memEnd) + 1) + 7) / 8 * 8 +
        24 * totalPages memStart memEnd + 4095) / 4096 * 4096 := by
  have hroom := metadata_lt hend hstart
  unfold poolPagesStart sizeofBuddyBlock pageSize
  dsimp only
  generalize totalPages memStart memEnd = total at hroom ⊢
  generalize getOrder total + 1 = orders at hroom ⊢
  rw [show 24 * orders * 24 = 576 * orders by ring]
  have h1 : sizeAdd memStart (576 * orders) = memStart + 576 * orders := sizeAdd_eq (by omega)
  rw [h1, alignUp_eq (y := 8) (by omega)]
  have h2 : sizeAdd ((memStart + 576 * orders + 7) / 8 * 8) (24 * total) =
      (memStart + 576 * orders + 7) / 8 * 8 + 24 * total := sizeAdd_eq (by omega)
  rw [h2, alignUp_eq (by omega)]

theorem newPool_placed (flags : ℕ) : Placed (newPool memStart memEnd flags) := by
  rw [newPool_eq]
  have hps := poolPagesStart_eq hend hstart
  refine ⟨?_, ?_, ?_, ?_, hend⟩
  · dsimp only
    rw [hps]
    exact Dvd.intro_left _ rfl
  · dsimp only; omega
  · dsimp only; omega
  · exact Nat.div_mul_le_self _ _

end

theorem Placed.of_sameShape {pool' : MemoryPool} (h : Placed pool) (hs : SameShape pool pool') : Placed pool' where
  aligned := hs.pagesStart ▸ h.aligned
  pos := hs.pagesStart ▸ h.pos
  start_le := by rw [hs.start, hs.pagesStart]; exact h.start_le
  le_stop := by rw [hs.stop, hs.pagesEnd]; exact h.le_stop
  stop_lt := hs.stop ▸ h.stop_lt

/-! ## The invariant of the heap -/

/-- Every pool is tiled by its listed and allocated blocks; the pools lie in disjoint ranges. -/
structure HeapInv (s : BuddyState) : Prop where
  pool : ∀ {p}, p < s.heap.memoryPoolNum → PoolInv (s.heap.memoryPools p) (heldIn s.live p)
  placed : ∀ {p}, p < s.heap.memoryPoolNum → Placed (s.heap.memoryPools p)
  live_lt : ∀ {p i}, (p, i) ∈ s.live → p < s.heap.memoryPoolNum
  apart : ∀ {p q}, p < s.heap.memoryPoolNum → q < s.heap.memoryPoolNum → p ≠ q →
    (s.heap.memoryPools p).stop ≤ (s.heap.memoryPools q).start ∨
      (s.heap.memoryPools q).stop ≤ (s.heap.memoryPools p).start

namespace HeapInv

variable {s t : BuddyState} {p i : ℕ}

theorem init : HeapInv {} where
  pool := by intro p hp; exact absurd hp (Nat.not_lt_zero p)
  placed := by intro p hp; exact absurd hp (Nat.not_lt_zero p)
  live_lt := by intro p i h; cases h
  apart := by intro p q hp; exact absurd hp (Nat.not_lt_zero p)

theorem ptrToPool_eq (h : HeapInv s) (hp : p < s.heap.memoryPoolNum) {ptr : ℕ}
    (h1 : (s.heap.memoryPools p).pagesStart ≤ ptr) (h2 : ptr < (s.heap.memoryPools p).pagesEnd) :
    ptrToPool s.heap ptr = some p := by
  have hfound : (ptrToPool s.heap ptr).isSome := by
    rw [ptrToPool, find?_isSome]
    exact ⟨p, mem_range.mpr hp, by simp [h1, h2]⟩
  obtain ⟨q, hq⟩ := Option.isSome_iff_exists.mp hfound
  have hql : q < s.heap.memoryPoolNum := mem_range.mp (mem_of_find?_eq_some hq)
  have hqr := find?_some hq
  simp only [ge_iff_le, Bool.and_eq_true, decide_eq_true_eq] at hqr
  by_cases hne : p = q
  · rw [hq, hne]
  · have hp1 := (h.placed hp).start_le
    have hp2 := (h.placed hp).le_stop
    have hq1 := (h.placed hql).start_le
    have hq2 := (h.placed hql).le_stop
    rcases h.apart hp hql hne with ha | ha <;> omega

/-- An allocated block that starts at a usable page is found again by its address. -/
theorem buddyGetBlock_eq (h : HeapInv s) (hlive : (p, i) ∈ s.live) (hown : OwnPage (s.heap.memoryPools p) i) :
    buddyGetBlock s.heap (blockToAddress (s.heap.memoryPools p) i) = .block p i := by
  have hp := h.live_lt hlive
  obtain ⟨h1, h2⟩ := hown
  obtain ⟨k, hk⟩ := (h.placed hp).aligned
  have hpos := (h.placed hp).pos
  have hstop := (h.placed hp).stop_lt
  have hle := (h.placed hp).le_stop
  -- the block lies in a pool of at most 2^30 pages, so its address did not wrap
  have hi : i < 2 ^ 30 := by
    have hlt := (h.pool hp).tiling.lt (PoolInv.tile_held (mem_heldIn.mpr hlive))
    have := Nat.pow_le_pow_right (show 0 < 2 by norm_num) (h.pool hp).maxOrder_le
    omega
  have haddr : blockToAddress (s.heap.memoryPools p) i =
      (s.heap.memoryPools p).pagesStart + i * 4096 := by
    unfold blockToAddress sizeAdd pageSize at h1 ⊢
    omega
  unfold buddyGetBlock
  rw [if_neg (by omega), if_neg, h.ptrToPool_eq hp h1 h2]
  · dsimp only
    rw [addressToBlock, sizeSub_eq h1 (by omega), haddr, pageSize]
    congr 1
    omega
  · rw [not_not, alignDown, haddr]
    unfold pageSize at hk ⊢
    omega

theorem deallocate_eq (h : HeapInv s) (hlive : (p, i) ∈ s.live) (hown : OwnPage (s.heap.memoryPools p) i) :
    buddyDeallocate s.heap (blockToAddress (s.heap.memoryPools p) i) =
      some (s.heap.setPool p (giveBlock (s.heap.memoryPools p) i)) := by
  rw [buddyDeallocate, h.buddyGetBlock_eq hlive hown]

end HeapInv

/-! ## One call, seen from one pool -/

/-- What one call does to one pool and to the list of its allocated blocks. -/
inductive PoolStep : BuddyOp → MemoryPool → List ℕ → MemoryPool → List ℕ → Prop
  | kept {o : BuddyOp} {pool : MemoryPool} {held held' : List ℕ} (hperm : held.Perm held') :
      PoolStep o pool held pool held'
  | taken {size i : ℕ} {type : BlockType} {pool : MemoryPool} {held : List ℕ} (hpos : size ≠ 0)
      (hfind : poolFindBlock pool (getOrder (requestPages size)) (requestPages size) = some i)
      (hc : ¬ (getOrder (requestPages size) = pool.maxOrder ∧
        size > uintSub (uintShl (getOrder (requestPages size))) pool.maxOrderWaste)) :
      PoolStep (.allocate size type) pool held
        (takeBlock pool i (getOrder (requestPages size)) type) (i :: held)
  | given {p i : ℕ} {pool : MemoryPool} {held held' : List ℕ} (hperm : held.Perm (i :: held')) :
      PoolStep (.deallocate p i) pool held (giveBlock pool i) held'

namespace PoolStep

variable {o : BuddyOp} {pool pool' : MemoryPool} {held held' : List ℕ}

theorem sameShape (h : PoolStep o pool held pool' held') : SameShape pool pool' := by
  cases h with
  | kept _ => exact .rfl'
  | taken _ _ _ => exact .takeBlock _ _ _
  | given _ => exact .giveBlock _

theorem inv (h : PoolStep o pool held pool' held') (hinv : PoolInv pool held) : PoolInv pool' held' := by
  cases h with
  | kept hperm => exact hinv.perm hperm
  | taken _ hfind _ =>
    obtain ⟨k, hk, -, hmem, -⟩ := poolFindBlock_some hfind
    exact (hinv.takeBlock hmem hk).1
  | given hperm => exact (hinv.perm hperm).giveBlock

end PoolStep

/-- A pool after a call is a new one, or it comes from the pool before the call. -/
theorem buddyStep_cases {s t : BuddyState} {o : BuddyOp} (h : HeapInv s) (hok : OwnPageCall s o)
    (hst : buddyStep s o = some t) (hq : q < t.heap.memoryPoolNum) :
    (q < s.heap.memoryPoolNum ∧ PoolStep o (s.heap.memoryPools q) (heldIn s.live q)
      (t.heap.memoryPools q) (heldIn t.live q)) ∨
    ∃ memStart memEnd flags, o = .initPool memStart memEnd flags ∧ q = s.heap.memoryPoolNum ∧
      t.heap.memoryPools q = newPool memStart memEnd flags ∧ heldIn t.live q = [] := by
  cases o with
  | initPool memStart memEnd flags =>
    cases hst
    dsimp only at hq ⊢
    unfold initPool at hq ⊢
    split_ifs at hq ⊢ with hfull
    · exact .inl ⟨hq, .kept (.refl _)⟩
    · rcases Nat.lt_succ_iff_lt_or_eq.mp hq with hq | rfl
      · refine .inl ⟨hq, ?_⟩
        dsimp only
        rw [Heap.setPool_of_ne (Nat.ne_of_lt hq)]
        exact .kept (.refl _)
      · refine .inr ⟨memStart, memEnd, flags, rfl, rfl, Heap.setPool_self, ?_⟩
        refine eq_nil_iff_forall_not_mem.mpr fun i hi => ?_
        exact lt_irrefl _ (h.live_lt (mem_heldIn.mp hi))
  | allocate size type =>
    cases hst
    left
    rcases buddyAllocateBlock_cases s.heap size type with heq | ⟨p, i, hpos, -, hfind, hc, heq⟩
    · rw [heq] at hq ⊢
      exact ⟨hq, .kept (.refl _)⟩
    · rw [heq] at hq ⊢
      refine ⟨hq, ?_⟩
      dsimp only
      rw [Option.toList_some, singleton_append]
      by_cases hqp : q = p
      · subst hqp
        rw [heldIn_cons_self, Heap.setPool_self]
        exact .taken hpos hfind hc
      · rw [heldIn_cons_of_ne _ _ hqp, Heap.setPool_of_ne hqp]
        exact .kept (.refl _)
  | deallocate p i =>
    left
    obtain ⟨hlive, hown⟩ := hok
    simp only [buddyStep, h.deallocate_eq hlive hown, Option.map_some, Option.some.injEq] at hst
    subst hst
    refine ⟨hq, ?_⟩
    dsimp only
    by_cases hqp : q = p
    · subst hqp
      rw [Heap.setPool_self]
      exact .given (heldIn_perm_erase hlive)
    · rw [Heap.setPool_of_ne hqp]
      exact .kept (heldIn_erase_of_ne hqp hlive)

namespace HeapInv

variable {s t : BuddyState} {o : BuddyOp}

theorem live_lt_step (h : HeapInv s) (hok : OwnPageCall s o) (hst : buddyStep s o = some t)
    {p i : ℕ} (hi : (p, i) ∈ t.live) : p < t.heap.memoryPoolNum := by
  cases o with
  | initPool memStart memEnd flags =>
    cases hst
    dsimp only
    unfold initPool
    split_ifs
    · exact h.live_lt hi
    · exact Nat.lt_succ_of_lt (h.live_lt hi)
  | allocate size type =>
    cases hst
    rcases buddyAllocateBlock_cases s.heap size type with heq | ⟨p', i', -, hp, -, -, heq⟩
    · rw [heq] at hi ⊢
      exact h.live_lt hi
    · rw [heq] at hi ⊢
      rcases mem_cons.mp hi with hi | hi
      · cases hi
        exact hp
      · exact h.live_lt hi
  | deallocate p' i' =>
    simp only [buddyStep, h.deallocate_eq hok.1 hok.2, Option.map_some, Option.some.injEq] at hst
    subst hst
    exact h.live_lt (mem_of_mem_erase hi)

theorem step (h : HeapInv s) (hok : OwnPageCall s o) (hst : buddyStep s o = some t) : HeapInv t := by
  refine ⟨fun {q} hq => ?_, fun {q} hq => ?_, h.live_lt_step hok hst, fun {q r} hq hr hne => ?_⟩
  · rcases buddyStep_cases h hok hst hq with ⟨hq, hstep⟩ | ⟨_, _, flags, rfl, -, hpool, hheld⟩
    · exact hstep.inv (h.pool hq)
    · rw [hpool, hheld]
      exact newPool_inv flags ((getOrder_le_iff (hok.2.1.trans (by norm_num))).mpr hok.2.1)
  · rcases buddyStep_cases h hok hst hq with ⟨hq, hstep⟩ | ⟨_, _, flags, rfl, -, hpool, -⟩
    · exact (h.placed hq).of_sameShape hstep.sameShape
    · rw [hpool]
      exact newPool_placed hok.1.2.1 hok.2.2 flags
  · rcases buddyStep_cases h hok hst hq with ⟨hq, hstep⟩ | ⟨_, _, _, rfl, rfl, hpool, -⟩ <;>
      rcases buddyStep_cases h hok hst hr with ⟨hr, hstep'⟩ | ⟨_, _, _, ho, hnum, hpool', -⟩
    · rw [hstep.sameShape.start, hstep.sameShape.stop, hstep'.sameShape.start,
        hstep'.sameShape.stop]
      exact h.apart hq hr hne
    · subst ho
      rw [hstep.sameShape.start, hstep.sameShape.stop, hpool', newPool_eq]
      exact hok.1.2.2 q hq
    · rw [hstep'.sameShape.start, hstep'.sameShape.stop, hpool, newPool_eq]
      exact (hok.1.2.2 r hr).symm
    · exact absurd hnum.symm hne

end HeapInv

theorem heapInv_run {ops : List BuddyOp} {s : BuddyState} (h : Run buddyStep OwnPageCall {} ops s) : HeapInv s :=
  h.invariant HeapInv.step HeapInv.init

/-! ## The partition -/

/-- The pages of the block that starts at `i`. -/
def MemoryPool.extent (pool : MemoryPool) (i : ℕ) : Finset ℕ :=
  Finset.Ico i (i + 2 ^ (pool.blocks i).order)

/-- The first pages of the blocks on the free lists, on the waste list and in `allocated`. -/
def MemoryPool.allBlocks (pool : MemoryPool) (allocated : List ℕ) : List ℕ :=
  (List.range (pool.maxOrder + 1)).flatMap (fun k => pool.lists (.free k)) ++
    pool.lists .waste ++ allocated

/-- Free, waste and allocated blocks partition the pages `[0, 2^max_order)` into
    aligned blocks; `free_lists[k]` holds blocks of order `k`, and `in_list` is set
    on exactly the first pages of the listed blocks. -/
structure Partitioned (pool : MemoryPool) (allocated : List ℕ) : Prop where
  disjoint : (pool.allBlocks allocated).Pairwise fun i j => Disjoint (pool.extent i) (pool.extent j)
  cover : ∀ x, x < 2 ^ pool.maxOrder ↔ ∃ i ∈ pool.allBlocks allocated, x ∈ pool.extent i
  aligned : ∀ i ∈ pool.allBlocks allocated, 2 ^ (pool.blocks i).order ∣ i
  free_order : ∀ k, ∀ i ∈ pool.lists (.free k), (pool.blocks i).order = k
  inList_iff : ∀ i, (pool.blocks i).inList = true ↔
    (∃ k ≤ pool.maxOrder, i ∈ pool.lists (.free k)) ∨ i ∈ pool.lists .waste

namespace PoolInv

variable {pool : MemoryPool} {held : List ℕ}

section

variable (h : PoolInv pool held)

include h

theorem free_le {k i : ℕ} (hi : i ∈ pool.lists (.free k)) : k ≤ pool.maxOrder := by
  rw [← h.free_order hi]
  exact h.tiling.order_le (tile_listed (h.inList_iff.mpr ⟨_, hi⟩))

theorem inList_iff_listed (i : ℕ) : (pool.blocks i).inList = true ↔
    (∃ k ≤ pool.maxOrder, i ∈ pool.lists (.free k)) ∨ i ∈ pool.lists .waste := by
  rw [h.inList_iff]
  constructor
  · rintro ⟨l, hl⟩
    cases l with
    | free k => exact .inl ⟨k, h.free_le hl, hl⟩
    | waste => exact .inr hl
  · rintro (⟨k, -, hk⟩ | hw)
    · exact ⟨_, hk⟩
    · exact ⟨_, hw⟩

theorem mem_allBlocks {i : ℕ} : i ∈ pool.allBlocks held ↔ pool.tile held i = some (pool.blocks i).order := by
  have hiff : i ∈ pool.allBlocks held ↔ (pool.blocks i).inList = true ∨ i ∈ held := by
    rw [h.inList_iff_listed]
    simp [MemoryPool.allBlocks, or_assoc]
  rw [hiff, MemoryPool.tile]
  split_ifs with hc
  · simp [hc]
  · simp [hc]

theorem allBlocks_nodup : (pool.allBlocks held).Nodup := by
  have hfree : ((List.range (pool.maxOrder + 1)).flatMap fun k => pool.lists (.free k)).Nodup := by
    rw [nodup_flatMap]
    refine ⟨fun k _ => h.lists_nodup _, ?_⟩
    refine nodup_range.imp fun {k l} hne => ?_
    rw [Function.onFun, disjoint_left]
    intro i hk hl
    have := h.list_unique hk hl
    rw [ListHead.free.injEq] at this
    exact hne this
  have hlisted : ((List.range (pool.maxOrder + 1)).flatMap (fun k => pool.lists (.free k)) ++
      pool.lists .waste).Nodup := by
    refine hfree.append (h.lists_nodup _) ?_
    rw [disjoint_left]
    intro i hi hw
    obtain ⟨k, -, hk⟩ := mem_flatMap.mp hi
    cases h.list_unique hk hw
  refine hlisted.append h.held_nodup ?_
  rw [disjoint_left]
  intro i hi hheld
  have hin := h.held_unlisted hheld
  rw [mem_append] at hi
  have : (pool.blocks i).inList = true := by
    rcases hi with hi | hi
    · obtain ⟨k, -, hk⟩ := mem_flatMap.mp hi
      exact h.inList_iff.mpr ⟨_, hk⟩
    · exact h.inList_iff.mpr ⟨_, hi⟩
  rw [hin] at this
  cases this

/-- The tiling, read as a partition. -/
theorem partitioned : Partitioned pool held where
  disjoint := by
    refine h.allBlocks_nodup.imp_of_mem fun {i j} hi hj hne => ?_
    rw [h.mem_allBlocks] at hi hj
    rw [Finset.disjoint_left]
    intro x hx hx'
    rw [MemoryPool.extent, Finset.mem_Ico] at hx hx'
    exact hne (h.tiling.start_unique hi hj (by omega) (by omega))
  cover := by
    intro x
    constructor
    · intro hx
      obtain ⟨i, k, hi, h1, h2⟩ := h.tiling.cover hx
      have hk : k = (pool.blocks i).order := by
        unfold MemoryPool.tile at hi
        split_ifs at hi
        exact (Option.some.inj hi).symm
      subst hk
      exact ⟨i, h.mem_allBlocks.mpr hi, Finset.mem_Ico.mpr ⟨h1, h2⟩⟩
    · rintro ⟨i, hi, hx⟩
      have := h.tiling.bounded (h.mem_allBlocks.mp hi)
      rw [MemoryPool.extent, Finset.mem_Ico] at hx
      omega
  aligned := fun i hi => h.tiling.aligned (h.mem_allBlocks.mp hi)
  free_order := fun k i hi => h.free_order hi
  inList_iff := h.inList_iff_listed

end

end PoolInv

/-- After every run whose deallocated blocks start at usable pages of their pools,
    free, waste and allocated blocks partition every pool. -/
theorem buddy_blocks_partition {ops : List BuddyOp} {s : BuddyState}
    (hrun : Run buddyStep OwnPageCall {} ops s) {p : ℕ} (hp : p < s.heap.memoryPoolNum) :
    Partitioned (s.heap.memoryPools p) (heldIn s.live p) := ((heapInv_run hrun).pool hp).partitioned

/-- A pool of 64 pages after a block of four pages has been allocated and freed. -/
theorem buddy_blocks_partition_pool64 : ∃ ops s, Run buddyStep OwnPageCall {} ops s ∧
    ops.length = 3 ∧ 0 < s.heap.memoryPoolNum ∧ Partitioned (s.heap.memoryPools 0) [] := by
  have hrun : Run buddyStep OwnPageCall {}
      [.initPool 409600 671744 0, .allocate 12288 .page, .deallocate 0 0] _ :=
    .cons ⟨⟨by decide, by decide, by decide⟩, by decide, by decide⟩ rfl <|
    .cons trivial rfl <|
    .cons_get ⟨show (0, 0) ∈ _ by decide, show _ ∧ _ by decide⟩
      (by decide) <| .nil _
  exact ⟨_, _, hrun, rfl, by decide, buddy_blocks_partition hrun (p := 0) (by decide)⟩

/-- Two pools of 33 pages each, side by side. `init_pool` marks no waste page in them, so the third
    allocation takes pages of the second pool through block 36 of the first one, and freeing it
    pushes block 3 of the second pool onto a free list although block 0 of order 6 contains it. -/
theorem buddy_blocks_overlap : ¬ ∀ (ops : List BuddyOp) (s : BuddyState),
    Run buddyStep ValidCall {} ops s → ∀ p < s.heap.memoryPoolNum,
      Partitioned (s.heap.memoryPools p) (heldIn s.live p) := by
  intro hall
  have hrun : Run buddyStep ValidCall {}
      [.initPool 409600 544768 0, .initPool 544768 679936 0, .allocate 126976 .page,
        .allocate 16384 .page, .allocate 16384 .page, .deallocate 0 36] _ :=
    .cons ⟨by decide, by decide, by decide⟩ rfl <|
    .cons ⟨by decide, by decide, by decide⟩ rfl <|
    .cons trivial rfl <| .cons trivial rfl <| .cons trivial rfl <|
    .cons_get (show (0, 36) ∈ _ by decide) (by decide) <| .nil _
  have hpart := hall _ _ hrun 1 (by decide)
  exact absurd hpart.disjoint (by decide)

end BadgerOS.Malloc

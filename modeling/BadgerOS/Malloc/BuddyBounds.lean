import BadgerOS.Malloc.BuddyWaste

/-!
# Accesses to the block metadata

`init_pool` reserves `total_pages` entries for the metadata array of a pool. The blocks, however,
are numbered up to `2^max_order`.

* `mergeAccesses`, `splitAccesses` and so on: the entries that a function reads or writes, its
  neighbours in a circular list included; `callAccesses`: those of a whole call.
* `Tiling.buddy_start`: a block starts where the buddy of a block does, so that buddies are in the
  array as long as every block starts in it.
* `accesses_in_bounds`: in every run over ranges whose waste marks fit, and in which no pool gives
  its last block back, all accesses are inside the array.

**Deviation.** `try_merge_buddy` returns early for `buddy_index > pages + max_order_waste`, that is
`buddy_index > 2^max_order`. When the last block of a pool is freed and has been merged with all
others, its buddy index is `2^max_order` exactly, and the entry behind the array is read
(`last_free_reads_past_end`).
-/

namespace BadgerOS.Malloc

open List

open Dyadic

/-! ## Accesses -/

/-- The entries in front of and behind `entry` in a list. -/
def neighbours (entry : ℕ) : List ℕ → List ℕ
  | [] => []
  | [_] => []
  | a :: b :: rest =>
    (if a = entry then [b] else []) ++ (if b = entry then [a] else []) ++
      neighbours entry (b :: rest)

/-- The lists of a pool. -/
def MemoryPool.heads (pool : MemoryPool) : List ListHead :=
  .waste :: (List.range (pool.maxOrder + 1)).map .free

/-- `list_push_back`: the entry and the one that was pushed before it. -/
def pushAccesses (pool : MemoryPool) (list : ListHead) (entry : ℕ) : List ℕ :=
  entry :: (pool.lists list).head?.toList

/-- `list_remove`: the entry and its neighbours. -/
def removeAccesses (pool : MemoryPool) (entry : ℕ) : List ℕ :=
  entry :: pool.heads.flatMap fun l => neighbours entry (pool.lists l)

/-- `split_block`. -/
def splitAccesses (pool : MemoryPool) (block : ℕ) : List ℕ :=
  let order := ((pool.blocks block).order + 255) % 256
  let buddyIndex := block ^^^ sizeShl order
  block :: pushAccesses pool
    (if !(pool.blocks buddyIndex).isWaste then .free order else .waste) buddyIndex

/-- The split loop of `buddy_allocate`; its test reads the order of the block. -/
def splitLoopAccesses (allocationOrder : ℕ) : ℕ → MemoryPool → ℕ → List ℕ
  | 0, _, block => [block]
  | turns + 1, pool, block =>
    if (pool.blocks block).order > allocationOrder then
      splitAccesses pool block ++
        splitLoopAccesses allocationOrder turns (splitBlock pool block) block
    else [block]

/-- `try_merge_buddy`; the merged block is one of the two. -/
def mergeAccesses (pool : MemoryPool) (block : ℕ) : List ℕ :=
  let buddyIndex := block ^^^ sizeShl (pool.blocks block).order
  if buddyIndex > sizeAdd pool.pages pool.maxOrderWaste then [block]
  else if (pool.blocks buddyIndex).order = (pool.blocks block).order ∧
      (pool.blocks buddyIndex).inList = true then
    block :: removeAccesses pool buddyIndex
  else [block, buddyIndex]

/-- The merge loop of `free_block`. -/
def freeLoopAccesses : ℕ → MemoryPool → ℕ → List ℕ
  | 0, _, _ => []
  | turns + 1, pool, block =>
    mergeAccesses pool block ++
      match tryMergeBuddy pool block with
      | none => []
      | some (pool, merged) => freeLoopAccesses turns pool merged

/-- `free_block`. -/
def freeAccesses (pool : MemoryPool) (block : ℕ) : List ℕ :=
  let (pool', freeBlock) := freeLoop 256 pool block
  freeLoopAccesses 256 pool block ++
    pushAccesses pool'
      (if !(pool'.blocks freeBlock).isWaste then .free (pool'.blocks freeBlock).order else .waste)
      freeBlock

/-- `pool_find_block` on the entries of one free list. -/
def scanAccesses (pool : MemoryPool) (pages : ℕ) : List ℕ → List ℕ
  | [] => []
  | block :: rest =>
    let last := sizeSub (sizeAdd block pages) 1
    block :: last ::
      if !(pool.blocks last).isWaste then removeAccesses pool block
      else scanAccesses pool pages rest

/-- `pool_find_block` on the free lists of the given orders. -/
def findAccesses (pool : MemoryPool) (pages : ℕ) : List ℕ → List ℕ
  | [] => []
  | a :: orders =>
    scanAccesses pool pages (pool.lists (.free a)) ++
      if ((pool.lists (.free a)).find? fun block =>
          !(pool.blocks (sizeSub (sizeAdd block pages) 1)).isWaste).isSome then []
      else findAccesses pool pages orders

/-- `pool_find_block`. -/
def poolFindAccesses (pool : MemoryPool) (allocationOrder pages : ℕ) : List ℕ :=
  findAccesses pool pages (List.range' allocationOrder (pool.maxOrder + 1 - allocationOrder))

/-- `buddy_allocate` from pool `i` on, each access with the pool that it is made in. -/
def allocateAccesses (heap : Heap) (size pages allocationOrder : ℕ) : ℕ → ℕ → List (ℕ × ℕ)
  | 0, _ => []
  | turns + 1, i =>
    match findPool heap i allocationOrder pages with
    | none => []
    | some p =>
      let pool := heap.memoryPools p
      if allocationOrder = pool.maxOrder ∧
          size > uintSub (uintShl allocationOrder) pool.maxOrderWaste then
        allocateAccesses heap size pages allocationOrder turns (i + 1)
      else
        (poolFindAccesses pool allocationOrder pages).map (p, ·) ++
          match poolFindBlock pool allocationOrder pages with
          | some block =>
            let pool := listRemove pool block
            (splitLoopAccesses allocationOrder (pool.blocks block).order pool block).map (p, ·)
          | none => allocateAccesses heap size pages allocationOrder turns (i + 1)

/-- `init_pool`: the waste marks and block 0. -/
def newPoolAccesses (memStart memEnd : ℕ) : List ℕ :=
  let waste := sizeSub (poolPages memStart memEnd) (poolMaxOrderWaste memStart memEnd)
  List.range' waste (totalPages memStart memEnd - waste) ++ [0]

/-- The accesses of a call. -/
def callAccesses (s : BuddyState) : BuddyOp → List (ℕ × ℕ)
  | .initPool memStart memEnd _ =>
    if s.heap.memoryPoolNum ≥ maxMemoryPools then []
    else (newPoolAccesses memStart memEnd).map (s.heap.memoryPoolNum, ·)
  | .allocate size _ =>
    if size = 0 then []
    else
      let pages := requestPages size
      allocateAccesses s.heap size pages (getOrder pages) s.heap.memoryPoolNum 0
  | .deallocate p i =>
    match buddyGetBlock s.heap (blockToAddress (s.heap.memoryPools p) i) with
    | .block q block =>
      let pool := s.heap.memoryPools q
      let pool :=
        { pool with freePages := sizeAdd pool.freePages (sizeShl (pool.blocks block).order) }
      (freeAccesses (pool.setBlock block fun b => { b with type := .free }) block).map (q, ·)
    | _ => []

/-! ## Bounds -/

section

variable {pool : MemoryPool} {held : List ℕ} {i k total : ℕ}

theorem mem_of_mem_neighbours {entry j : ℕ} {list : List ℕ} (h : j ∈ neighbours entry list) : j ∈ list := by
  induction list with
  | nil => exact h
  | cons a rest ih =>
    cases rest with
    | nil => cases h
    | cons b rest =>
      rw [neighbours, mem_append, mem_append] at h
      rcases h with (h | h) | h
      · split_ifs at h
        · rw [mem_singleton.mp h]
          exact mem_cons_of_mem a mem_cons_self
        · cases h
      · split_ifs at h
        · rw [mem_singleton.mp h]
          exact mem_cons_self
        · cases h
      · exact mem_cons_of_mem a (ih h)

section

variable (hp : PoolInv pool held) (hw : WasteInv pool held total)

include hp hw

theorem listed_lt {l : ListHead} {j : ℕ} (hj : j ∈ pool.lists l) : j < total :=
  hw.start_lt (.inl (hp.inList_iff.mpr ⟨l, hj⟩))

theorem pushAccesses_lt (l : ListHead) (hi : i < total) : ∀ j ∈ pushAccesses pool l i, j < total := by
  intro j hj
  rcases mem_cons.mp hj with rfl | hj
  · exact hi
  · rw [Option.mem_toList] at hj
    exact listed_lt hp hw (mem_of_head? hj)

theorem removeAccesses_lt (hi : i < total) : ∀ j ∈ removeAccesses pool i, j < total := by
  intro j hj
  rcases mem_cons.mp hj with rfl | hj
  · exact hi
  · obtain ⟨l, _, hj⟩ := mem_flatMap.mp hj
    exact listed_lt hp hw (mem_of_mem_neighbours hj)

end

section

variable (hp : PoolInv pool (i :: held)) (hw : WasteInv pool (i :: held) total)
  (hk : (pool.blocks i).order < pool.maxOrder)

include hp hw hk

theorem buddy_lt_total : i ^^^ sizeShl (pool.blocks i).order < total := by
  have hle := hp.maxOrder_le
  rw [sizeShl_eq (by omega)]
  obtain ⟨l, -, hl⟩ := hp.tiling.buddy_start (PoolInv.tile_held mem_cons_self) hk
  rw [MemoryPool.tile] at hl
  split_ifs at hl with hin
  exact hw.start_lt hin

theorem mergeAccesses_lt : ∀ j ∈ mergeAccesses pool i, j < total := by
  have hi : i < total := hw.start_lt (.inr mem_cons_self)
  have hbuddy := buddy_lt_total hp hw hk
  intro j hj
  rw [mergeAccesses] at hj
  split_ifs at hj
  · rw [mem_singleton.mp hj]
    exact hi
  · rcases mem_cons.mp hj with rfl | hj
    · exact hi
    · exact removeAccesses_lt hp hw hbuddy j hj
  · rcases mem_cons.mp hj with rfl | hj
    · exact hi
    · rw [mem_singleton.mp hj]
      exact hbuddy

end

theorem order_lt_of_other (hp : PoolInv pool (i :: held)) {j : ℕ} (hj : j ∈ held) :
    (pool.blocks i).order < pool.maxOrder := by
  have hne : i ≠ j := by
    rintro rfl
    exact (nodup_cons.mp hp.held_nodup).1 hj
  exact hp.tiling.order_lt_of_ne (PoolInv.tile_held mem_cons_self)
    (PoolInv.tile_held (mem_cons_of_mem i hj)) hne

theorem freeLoopAccesses_lt {other : ℕ} (hother : other ∈ held) : ∀ {n : ℕ} {pool : MemoryPool}
    {i : ℕ}, PoolInv pool (i :: held) → WasteInv pool (i :: held) total →
    ∀ j ∈ freeLoopAccesses n pool i, j < total := by
  intro n
  induction n with
  | zero => intro pool i _ _ j hj; cases hj
  | succ n ih =>
    intro pool i hp hw j hj
    rw [freeLoopAccesses] at hj
    rcases mem_append.mp hj with hj | hj
    · exact mergeAccesses_lt hp hw (order_lt_of_other hp hother) j hj
    · cases hm : tryMergeBuddy pool i with
      | none => rw [hm] at hj; cases hj
      | some r =>
        rw [hm] at hj
        obtain ⟨pool', m⟩ := r
        exact ih (hp.tryMergeBuddy hm).1 (WasteInv.tryMergeBuddy hp hw hm) j hj

theorem freeAccesses_lt {other : ℕ} (hother : other ∈ held) (hp : PoolInv pool (i :: held))
    (hw : WasteInv pool (i :: held) total) : ∀ j ∈ freeAccesses pool i, j < total := by
  intro j hj
  rw [freeAccesses] at hj
  rcases mem_append.mp hj with hj | hj
  · exact freeLoopAccesses_lt hother hp hw j hj
  · have hp' := hp.freeLoop (n := 256)
    have hw' := WasteInv.freeLoop (n := 256) hp hw
    exact pushAccesses_lt hp' hw' _ (hw'.start_lt (.inr mem_cons_self)) j hj

theorem splitAccesses_lt (hp : PoolInv pool (i :: held)) (hw : WasteInv pool (i :: held) total)
    (hk : (pool.blocks i).order = k + 1) (hlt : i + 2 ^ k < total) :
    ∀ j ∈ splitAccesses pool i, j < total := by
  have hle := hp.order_le_of_held (mem_cons_self (a := i) (l := held))
  have hmax := hp.maxOrder_le
  have horder : ((pool.blocks i).order + 255) % 256 = k := by omega
  have hbuddy : i ^^^ sizeShl k = i + 2 ^ k := by
    rw [sizeShl_eq (by omega)]
    apply xor_two_pow_of_dvd
    rw [← hk]
    exact hp.tiling.aligned (PoolInv.tile_held mem_cons_self)
  intro j hj
  rw [splitAccesses, horder, hbuddy] at hj
  rcases mem_cons.mp hj with rfl | hj
  · exact hw.start_lt (.inr mem_cons_self)
  · exact pushAccesses_lt hp hw _ hlt j hj

theorem splitLoopAccesses_lt {a : ℕ} : ∀ {n : ℕ} {pool : MemoryPool}, PoolInv pool (i :: held) →
    WasteInv pool (i :: held) total → (pool.blocks i).order = n → (∀ k < n, i + 2 ^ k < total) →
    ∀ j ∈ splitLoopAccesses a n pool i, j < total := by
  intro n
  induction n with
  | zero =>
    intro pool _ hw _ _ j hj
    rw [mem_singleton.mp hj]
    exact hw.start_lt (.inr mem_cons_self)
  | succ n ih =>
    intro pool hp hw hn hlt j hj
    rw [splitLoopAccesses] at hj
    split_ifs at hj
    · rcases mem_append.mp hj with hj | hj
      · exact splitAccesses_lt hp hw hn (hlt n (Nat.lt_succ_self n)) j hj
      · obtain ⟨hp', hn'⟩ := hp.splitBlock hn
        exact ih hp' (WasteInv.splitBlock hp hw hn (hlt n (Nat.lt_succ_self n))) hn'
          (fun k hk => hlt k (by omega)) j hj
    · rw [mem_singleton.mp hj]
      exact hw.start_lt (.inr mem_cons_self)

theorem scanAccesses_lt {pages : ℕ} (hp : PoolInv pool held) (hw : WasteInv pool held total)
    {list : List ℕ} (hlist : ∀ i ∈ list, i < total ∧ sizeSub (sizeAdd i pages) 1 < total) :
    ∀ j ∈ scanAccesses pool pages list, j < total := by
  induction list with
  | nil => intro j hj; cases hj
  | cons i rest ih =>
    obtain ⟨hi, hlast⟩ := hlist i mem_cons_self
    intro j hj
    rw [scanAccesses] at hj
    rcases mem_cons.mp hj with rfl | hj
    · exact hi
    · rcases mem_cons.mp hj with heq | hj
      · exact heq.trans_lt hlast
      · split_ifs at hj
        · exact removeAccesses_lt hp hw hi j hj
        · exact ih (fun i hi => hlist i (mem_cons_of_mem _ hi)) j hj

theorem findAccesses_lt {pages : ℕ} (hp : PoolInv pool held) (hw : WasteInv pool held total) {orders : List ℕ}
    (hlast : ∀ k ∈ orders, ∀ i ∈ pool.lists (.free k), sizeSub (sizeAdd i pages) 1 < total) :
    ∀ j ∈ findAccesses pool pages orders, j < total := by
  induction orders with
  | nil => intro j hj; cases hj
  | cons a orders ih =>
    intro j hj
    rw [findAccesses] at hj
    rcases mem_append.mp hj with hj | hj
    · exact scanAccesses_lt hp hw
        (fun i hi => ⟨listed_lt hp hw hi, hlast a mem_cons_self i hi⟩) j hj
    · split_ifs at hj
      · cases hj
      · exact ih (fun k hk => hlast k (mem_cons_of_mem a hk)) j hj

theorem newPoolAccesses_lt {memStart memEnd : ℕ} (hpos : 0 < totalPages memStart memEnd) :
    ∀ j ∈ newPoolAccesses memStart memEnd, j < totalPages memStart memEnd := by
  intro j hj
  rw [newPoolAccesses] at hj
  rcases mem_append.mp hj with hj | hj
  · rw [mem_range'_1] at hj
    omega
  · rw [mem_singleton.mp hj]
    exact hpos

end

/-! ## Calls -/

/-- The number of metadata entries that are reserved in the pool. -/
def reserved (s : BuddyState) (o : BuddyOp) (p : ℕ) : ℕ :=
  match o with
  | .initPool memStart memEnd _ => totalPages memStart memEnd
  | _ => (s.heap.memoryPools p).total

/-- The calls whose accesses stay in the metadata array: ranges as in `WasteCall`, sizes that can be
    rounded up to pages, and deallocations that leave a block of the pool allocated. -/
def BoundsCall (s : BuddyState) : BuddyOp → Prop
  | .initPool memStart memEnd flags => WasteCall s (.initPool memStart memEnd flags)
  | .allocate size _ => size + (pageSize - 1) < 2 ^ 64
  | .deallocate p i => (p, i) ∈ s.live ∧ ∃ j ≠ i, (p, j) ∈ s.live

theorem BoundsCall.wasteCall {s : BuddyState} {o : BuddyOp} (h : BoundsCall s o) : WasteCall s o := by
  cases o with
  | initPool memStart memEnd flags => exact h
  | allocate size type => exact trivial
  | deallocate p i => exact h.1

section

variable {s : BuddyState} {p i k size : ℕ}

section

variable (h : HeapWaste s) (hp : p < s.heap.memoryPoolNum) (hsize : size + (pageSize - 1) < 2 ^ 64)
  (hpos : size ≠ 0)

include h hp hsize hpos

/-- `pool_find_block` reads the last requested page of a free block. -/
theorem last_lt (hlt : getOrder (requestPages size) < (s.heap.memoryPools p).maxOrder)
    (hk : getOrder (requestPages size) ≤ k) (hi : i ∈ (s.heap.memoryPools p).lists (.free k)) :
    sizeSub (sizeAdd i (requestPages size)) 1 < (s.heap.memoryPools p).total := by
  have hs := h.shape hp
  have hinv := h.inv.pool hp
  have hreq := requestPages_eq hsize
  unfold pageSize at hsize
  have hpages := le_two_pow_getOrder (n := requestPages size) (by omega)
  have horder : 2 ^ getOrder (requestPages size) ≤ 2 ^ k := Nat.pow_le_pow_right Nat.two_pos hk
  have htop : 2 ^ (s.heap.memoryPools p).maxOrder ≤ 2 ^ 30 :=
    Nat.pow_le_pow_right Nat.two_pos hs.order_le
  have htotal := hs.total_le
  have hend : i + requestPages size ≤ (s.heap.memoryPools p).total := by
    rcases (hinv.free_le hi).lt_or_eq with hlt' | rfl
    · have := hs.free_end hinv (h.waste hp) hi hlt'
      omega
    · -- the block is the whole pool, and the request at most half of it
      have htile : (s.heap.memoryPools p).tile (heldIn s.live p) i = some _ :=
        PoolInv.tile_listed (hinv.inList_iff.mpr ⟨_, hi⟩)
      have hbounded := hinv.tiling.bounded htile
      rw [hinv.free_order hi] at hbounded
      have hhalf : 2 * 2 ^ getOrder (requestPages size) ≤ 2 ^ (s.heap.memoryPools p).maxOrder := by
        rw [← Nat.pow_succ']
        exact Nat.pow_le_pow_right Nat.two_pos hlt
      have := hs.lt_total
      omega
  rw [sizeAdd_eq (by omega), sizeSub_eq (by omega) (by omega)]
  omega

theorem poolFindAccesses_lt
    (hc : ¬ (getOrder (requestPages size) = (s.heap.memoryPools p).maxOrder ∧ size > uintSub
      (uintShl (getOrder (requestPages size))) (s.heap.memoryPools p).maxOrderWaste)) :
    ∀ j ∈ poolFindAccesses (s.heap.memoryPools p) (getOrder (requestPages size))
      (requestPages size), j < (s.heap.memoryPools p).total := by
  refine findAccesses_lt (h.inv.pool hp) (h.waste hp) fun k hk i hi => ?_
  rw [mem_range'_1] at hk
  exact last_lt h hp hsize hpos (h.order_lt hp hsize (by omega) hc) hk.1 hi

end

theorem allocateAccesses_lt (h : HeapWaste s) (hsize : size + (pageSize - 1) < 2 ^ 64) (hpos : size ≠ 0) : ∀ {turns start : ℕ},
    ∀ a ∈ allocateAccesses s.heap size (requestPages size) (getOrder (requestPages size)) turns
      start, a.2 < (s.heap.memoryPools a.1).total := by
  intro turns
  induction turns with
  | zero => intro start a ha; cases ha
  | succ turns ih =>
    intro start a ha
    rw [allocateAccesses] at ha
    cases hfind : findPool s.heap start (getOrder (requestPages size)) (requestPages size) with
    | none => rw [hfind] at ha; cases ha
    | some p =>
      rw [hfind] at ha
      have hp := findPool_lt hfind
      dsimp only at ha
      split_ifs at ha with hc
      · exact ih a ha
      · rcases mem_append.mp ha with ha | ha
        · obtain ⟨j, hj, rfl⟩ := mem_map.mp ha
          exact poolFindAccesses_lt h hp hsize hpos hc j hj
        · cases hblock : poolFindBlock (s.heap.memoryPools p) (getOrder (requestPages size))
            (requestPages size) with
          | none =>
            rw [hblock] at ha
            exact ih a ha
          | some i =>
            rw [hblock] at ha
            obtain ⟨j, hj, rfl⟩ := mem_map.mp ha
            obtain ⟨k, _, _, hi, _⟩ := poolFindBlock_some hblock
            have hinv := h.inv.pool hp
            have hin := hinv.inList_iff.mpr ⟨_, hi⟩
            have horder : ((listRemove (s.heap.memoryPools p) i).blocks i).order = k := by
              rw [listRemove_blocks, if_pos rfl]
              exact hinv.free_order hi
            refine splitLoopAccesses_lt (hinv.remove hin) ((h.waste hp).remove hin) rfl ?_ j hj
            rw [horder]
            exact (h.shape hp).half_lt hinv (h.waste hp) hi

theorem deallocateAccesses_lt (h : HeapWaste s) (hlive : (p, i) ∈ s.live) {other : ℕ}
    (hne : other ≠ i) (hother : (p, other) ∈ s.live) :
    ∀ a ∈ callAccesses s (.deallocate p i), a.2 < (s.heap.memoryPools a.1).total := by
  intro a ha
  have hp := h.inv.live_lt hlive
  have hperm := heldIn_perm_erase hlive
  rw [callAccesses, h.inv.buddyGetBlock_eq hlive (h.ownPage hlive)] at ha
  obtain ⟨j, hj, rfl⟩ := mem_map.mp ha
  have hinv := (h.inv.pool hp).perm hperm
  have hwaste : WasteInv (s.heap.memoryPools p) (i :: heldIn (s.live.erase (p, i)) p)
      (s.heap.memoryPools p).total :=
    (h.waste hp).congr rfl (fun _ => rfl) (fun _ => rfl) (fun j hj => hperm.mem_iff.mpr hj)
  have hmem : other ∈ heldIn (s.live.erase (p, i)) p := by
    refine mem_heldIn.mpr ((mem_erase_of_ne ?_).mpr hother)
    exact fun heq => hne (Prod.mk.inj heq).2
  exact freeAccesses_lt hmem
    ((hinv.setCounts _ (s.heap.memoryPools p).maxOrderFree).setType i .free)
    ((hwaste.counts _ (s.heap.memoryPools p).maxOrderFree).setType i .free) j hj

end

/-- In every run whose calls meet the condition, every call stays inside the metadata arrays. -/
theorem accesses_in_bounds {ops : List BuddyOp} {s : BuddyState} {o : BuddyOp}
    (hrun : Run buddyStep BoundsCall {} ops s) (hok : BoundsCall s o) :
    ∀ a ∈ callAccesses s o, a.2 < reserved s o a.1 := by
  have h : HeapWaste s := hrun.invariant (fun h hok hst => h.step hok.wasteCall hst) HeapWaste.init
  intro a ha
  cases o with
  | initPool memStart memEnd flags =>
    rw [callAccesses] at ha
    split_ifs at ha
    · cases ha
    · obtain ⟨j, hj, rfl⟩ := mem_map.mp ha
      have hsixteen : 16 ≤ totalPages memStart memEnd := hok.1.2
      exact newPoolAccesses_lt (by omega) j hj
  | allocate size type =>
    rw [callAccesses] at ha
    split_ifs at ha with hzero
    · cases ha
    · exact allocateAccesses_lt h hok hzero a ha
  | deallocate p i =>
    obtain ⟨hlive, other, hne, hother⟩ := hok
    exact deallocateAccesses_lt h hlive hne hother a ha

/-- Two pages of a pool of 64 pages are allocated and one of them is freed. -/
theorem accesses_in_bounds_pool64 : ∃ s, Run buddyStep BoundsCall {}
      [.initPool 409600 671744 0, .allocate 4096 .page, .allocate 4096 .page] s ∧
    ∀ a ∈ callAccesses s (.deallocate 0 0), a.2 < reserved s (.deallocate 0 0) a.1 := by
  have hinit : BoundsCall {} (.initPool 409600 671744 0) :=
    ⟨⟨⟨by decide, by decide, fun p hp => absurd hp (Nat.not_lt_zero p)⟩, by decide⟩, by decide,
      by decide, .inl (by decide)⟩
  have hsize : 4096 + (pageSize - 1) < 2 ^ 64 := by decide
  have hrun : Run buddyStep BoundsCall {}
      [.initPool 409600 671744 0, .allocate 4096 .page, .allocate 4096 .page] _ :=
    .cons hinit rfl (.cons hsize rfl (.cons hsize rfl (.nil _)))
  exact ⟨_, hrun, accesses_in_bounds hrun ⟨by decide, 1, by decide, by decide⟩⟩

/-- One page of a pool of 64 pages is allocated and freed: the entry 64 is read. -/
theorem last_free_reads_past_end : ¬ ∀ (ops : List BuddyOp) (s : BuddyState) (o : BuddyOp),
    Run buddyStep ValidCall16 {} ops s → ValidCall16 s o →
    ∀ a ∈ callAccesses s o, a.2 < reserved s o a.1 := by
  intro hall
  have hinit : ValidCall16 {} (.initPool 409600 671744 0) :=
    ⟨⟨by decide, by decide, fun p hp => absurd hp (Nat.not_lt_zero p)⟩, by decide⟩
  have hrun : Run buddyStep ValidCall16 {} [.initPool 409600 671744 0, .allocate 4096 .page] _ :=
    .cons hinit rfl (.cons trivial rfl (.nil _))
  have hbounds := hall _ _ (.deallocate 0 0) hrun (mem_cons_self (a := (0, 0)) (l := []))
  exact absurd (hbounds (0, 64) (by decide)) (by decide)

end BadgerOS.Malloc

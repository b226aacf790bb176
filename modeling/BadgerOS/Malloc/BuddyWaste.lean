import BadgerOS.Malloc.BuddyHeap

/-!
# Waste pages of the buddy allocator

A pool of `T` pages is managed as a block of `2^o ≥ T` pages, of which only the
first `pages` exist. `init_pool` marks the pages from `pages - max_order_waste` up
to `T` as waste, and `pool_find_block` only takes a block whose last requested page
is not marked.

* `WasteInv`: no block starts beyond the marks, and only unmarked blocks and block 0
  are on the free lists.
* `WasteShape`: the pools whose marks do their job. The marks must not start below
  zero, and either reach the end of the managed block or begin in its lower half.
* `buddyAllocate_in_pages`: for pools made of such ranges, all requested pages lie
  between `pages_start` and `pages_end`.
* `buddyAllocate_beyond_pages`: a pool of 63 pages hands out pages past its end.
-/

namespace BadgerOS.Malloc

open Nat

/-! ## Blocks and marks -/

/-- No block starts at or beyond page `total`, and the blocks on the free lists are
    unmarked, block 0 apart. -/
structure WasteInv (pool : MemoryPool) (held : List ℕ) (total : ℕ) : Prop where
  start_lt : ∀ {i}, (pool.blocks i).inList = true ∨ i ∈ held → i < total
  free_clean : ∀ {k i}, i ∈ pool.lists (.free k) → i = 0 ∨ (pool.blocks i).isWaste = false

namespace WasteInv

variable {pool pool' : MemoryPool} {held held' : List ℕ} {i k total : ℕ}

section

variable (h : WasteInv pool held total)

include h

theorem congr (hlists : pool'.lists = pool.lists) (hin : ∀ j, (pool'.blocks j).inList = (pool.blocks j).inList)
    (hw : ∀ j, (pool'.blocks j).isWaste = (pool.blocks j).isWaste) (hheld : ∀ j ∈ held', j ∈ held) :
    WasteInv pool' held' total where
  start_lt := by
    rintro j (hj | hj)
    · exact h.start_lt (.inl (hin j ▸ hj))
    · exact h.start_lt (.inr (hheld j hj))
  free_clean := by
    intro k j hj
    rw [hw]
    exact h.free_clean (hlists ▸ hj)

theorem perm (hp : held.Perm held') : WasteInv pool held' total :=
  h.congr rfl (fun _ => rfl) (fun _ => rfl) fun _ hj => hp.mem_iff.mpr hj

theorem setBlock (i : ℕ) {f : BuddyBlock → BuddyBlock} (hin : ∀ b, (f b).inList = b.inList)
    (hw : ∀ b, (f b).isWaste = b.isWaste) : WasteInv (pool.setBlock i f) held total := by
  exact h.congr rfl (fun j => pool.setBlock_field i j BuddyBlock.inList hin)
    (SameShape.setBlock i hw).isWaste fun _ => id

theorem setOrder (i n : ℕ) : WasteInv (pool.setBlock i fun b => { b with order := n }) held total :=
  h.setBlock i (fun _ => rfl) (fun _ => rfl)

theorem setType (i : ℕ) (t : BlockType) : WasteInv (pool.setBlock i fun b => { b with type := t }) held total :=
  h.setBlock i (fun _ => rfl) (fun _ => rfl)

theorem remove (hi : (pool.blocks i).inList = true) : WasteInv (listRemove pool i) (i :: held) total where
  start_lt := by
    intro j hj
    apply h.start_lt
    rw [listRemove_blocks] at hj
    by_cases hji : j = i
    · subst hji; exact .inl hi
    · simpa [hji] using hj
  free_clean := by
    intro k j hj
    rw [(SameShape.remove i).isWaste]
    exact h.free_clean (List.mem_of_mem_erase hj)

end

theorem push (h : WasteInv pool (i :: held) total) {l : ListHead}
    (hl : l = .waste ∨ (pool.blocks i).isWaste = false) :
    WasteInv (listPushBack pool l i) held total where
  start_lt := by
    intro j hj
    apply h.start_lt
    rw [listPushBack_blocks] at hj
    by_cases hji : j = i
    · exact .inr (by simp [hji])
    · rw [if_neg hji] at hj
      exact hj.imp_right (List.mem_cons_of_mem _)
  free_clean := by
    intro k j hj
    rw [(SameShape.push l i).isWaste]
    rcases mem_listPushBack.mp hj with ⟨hll, rfl⟩ | hold
    · rcases hl with rfl | hl
      · cases hll
      · exact .inr hl
    · exact h.free_clean hold

theorem counts (h : WasteInv pool held total) (free maxFree : ℕ) :
    WasteInv { pool with freePages := free, maxOrderFree := maxFree } held total :=
  h.congr rfl (fun _ => rfl) (fun _ => rfl) (fun _ => id)

section

variable (hp : PoolInv pool (i :: held)) (h : WasteInv pool (i :: held) total)

include hp h

/-- Splitting makes one new block, the right half. -/
theorem splitBlock (hk : (pool.blocks i).order = k + 1) (hlt : i + 2 ^ k < total) :
    WasteInv (splitBlock pool i) (i :: held) total := by
  rw [hp.splitBlock_eq hk]
  have hhalf := (h.setOrder i k).setOrder (i + 2 ^ k) k
  have hshape : SameShape pool _ := (SameShape.setOrder i fun _ => k).trans
    (SameShape.setOrder (i + 2 ^ k) fun _ => k)
  have hw := hshape.isWaste (i + 2 ^ k)
  refine push ⟨?_, hhalf.free_clean⟩ ?_
  · rintro j (hj | hj)
    · exact hhalf.start_lt (.inl hj)
    · rcases List.mem_cons.mp hj with rfl | hj
      · exact hlt
      · exact hhalf.start_lt (.inr hj)
  · rw [hw]
    cases (pool.blocks (i + 2 ^ k)).isWaste
    · exact .inr rfl
    · exact .inl rfl

/-- The split loop only makes blocks below `total` if the block in hand, halved, ends there. -/
theorem splitLoop {a n : ℕ} (ho : (pool.blocks i).order = n) (hlt : ∀ k < n, i + 2 ^ k < total) :
    WasteInv (splitLoop a n pool i) (i :: held) total := by
  obtain ⟨_, -, -, h', -⟩ := splitLoop_induct (a := a)
    (P := fun n pool => PoolInv pool (i :: held) ∧ (pool.blocks i).order = n ∧
      WasteInv pool (i :: held) total ∧ ∀ k < n, i + 2 ^ k < total)
    (fun ⟨hp, ho, h, hlt⟩ => ⟨(hp.splitBlock ho).1, (hp.splitBlock ho).2,
      splitBlock hp h ho (hlt _ (lt_succ_self _)), fun k hk => hlt k (by omega)⟩)
    ⟨hp, ho, h, hlt⟩
  exact h'

theorem tryMergeBuddy {m : ℕ} (hm : tryMergeBuddy pool i = some (pool', m)) : WasteInv pool' (m :: held) total := by
  obtain ⟨-, hin, rfl, rfl⟩ := hp.tryMergeBuddy_eq_some hm
  refine ((h.remove hin).setOrder _ _).congr rfl (fun _ => rfl) (fun _ => rfl) fun j hj => ?_
  rcases List.mem_cons.mp hj with rfl | hj
  · rcases min_choice i (i ^^^ 2 ^ (pool.blocks i).order) with he | he <;> rw [he] <;> simp
  · simp [hj]

theorem freeLoop {n : ℕ} : WasteInv (freeLoop n pool i).1 ((Malloc.freeLoop n pool i).2 :: held) total :=
  (freeLoop_induct (P := fun pool i => PoolInv pool (i :: held) ∧ WasteInv pool (i :: held) total)
    (fun ⟨hp, h⟩ hm => ⟨(hp.tryMergeBuddy hm).1, tryMergeBuddy hp h hm⟩) n ⟨hp, h⟩).2

theorem freeBlock : WasteInv (freeBlock pool i) held total := by
  have hl := freeLoop (n := 256) hp h
  unfold Malloc.freeBlock
  generalize Malloc.freeLoop 256 pool i = r at hl
  obtain ⟨pool', b⟩ := r
  dsimp only at hl ⊢
  cases hw : (pool'.blocks b).isWaste
  · exact (hl.counts pool'.freePages _).push (.inr hw)
  · exact hl.push (.inl rfl)

theorem giveBlock : WasteInv (giveBlock pool i) held total := by
  have hpc := hp.setCounts (sizeAdd pool.freePages (sizeShl (pool.blocks i).order))
    pool.maxOrderFree
  have hc := h.counts (sizeAdd pool.freePages (sizeShl (pool.blocks i).order)) pool.maxOrderFree
  exact freeBlock (hpc.setType i .free) (hc.setType i .free)

end

theorem takeBlock {a : ℕ} {t : BlockType} (hp : PoolInv pool held) (h : WasteInv pool held total)
    (hi : i ∈ pool.lists (.free k)) (hlt : ∀ j < k, i + 2 ^ j < total) :
    WasteInv (takeBlock pool i a t) (i :: held) total := by
  have hin := hp.inList_iff.mpr ⟨_, hi⟩
  have hord : ((listRemove pool i).blocks i).order = k := by
    rw [listRemove_blocks, if_pos rfl]
    exact hp.free_order hi
  have hs := splitLoop (n := k) (a := a) (hp.remove hin) (h.remove hin) hord hlt
  unfold Malloc.takeBlock
  dsimp only
  rw [hord]
  exact (hs.counts _ _).setType i t

end WasteInv

/-! ## Pools whose marks do their job -/

/-- The number of pages between the end of the metadata and the end of the range. -/
def usablePages (memStart memEnd : ℕ) : ℕ :=
  memEnd / 4096 -
    ((memStart + 576 * (getOrder (totalPages memStart memEnd) + 1) + 7) / 8 * 8 +
      24 * totalPages memStart memEnd + 4095) / 4096

/-- At least half of the managed block is usable, so that the waste marks do not start below page 0.
    They either reach its end, because the range has `2^order` pages, or begin in its lower half. -/
def WasteFits (memStart memEnd : ℕ) : Prop :=
  2 ^ getOrder (totalPages memStart memEnd) ≤ 2 * usablePages memStart memEnd ∧
    (totalPages memStart memEnd = 2 ^ getOrder (totalPages memStart memEnd) ∨
      4 * usablePages memStart memEnd ≤ 3 * 2 ^ getOrder (totalPages memStart memEnd))

/-- `total_pages` of an existing pool. -/
def MemoryPool.total (pool : MemoryPool) : ℕ := totalPages pool.start pool.stop

theorem SameShape.total {pool pool' : MemoryPool} (h : SameShape pool pool') : pool'.total = pool.total := by
  rw [MemoryPool.total, h.start, h.stop, MemoryPool.total]

/-- The shape of a pool that was made from a range with `WasteFits`. -/
structure WasteShape (pool : MemoryPool) : Prop where
  order_pos : 0 < pool.maxOrder
  order_le : pool.maxOrder ≤ 30
  total_le : pool.total ≤ 2 ^ pool.maxOrder
  lt_total : 2 ^ pool.maxOrder < 2 * pool.total
  pages_le : pool.pages ≤ 2 ^ pool.maxOrder
  le_pages : 2 ^ pool.maxOrder ≤ 2 * pool.pages
  reach : pool.total = 2 ^ pool.maxOrder ∨ 4 * pool.pages ≤ 3 * 2 ^ pool.maxOrder
  waste_iff : ∀ i, (pool.blocks i).isWaste = true ↔
    2 * pool.pages - 2 ^ pool.maxOrder ≤ i ∧ i < pool.total
  maxOrderWaste_eq : pool.maxOrderWaste = 2 ^ pool.maxOrder - pool.pages
  pagesEnd_eq : pool.pagesEnd = pool.pagesStart + pool.pages * 4096
  pagesEnd_lt : pool.pagesEnd < 2 ^ 64

namespace WasteShape

variable {pool pool' : MemoryPool} {held : List ℕ} {i k : ℕ}

theorem of_sameShape (h : WasteShape pool) (hs : SameShape pool pool') : WasteShape pool' := by
  obtain ⟨h1, h2, h3, h4, h5, h6, h7, h8, h9, h10, h11⟩ := h
  constructor
  all_goals simp only [hs.maxOrder, hs.pages, hs.pagesStart, hs.pagesEnd, hs.maxOrderWaste,
    hs.isWaste, hs.total]
  all_goals assumption

theorem lt_waste (h : WasteShape pool) (hi : i < pool.total)
    (hw : (pool.blocks i).isWaste = false) : i < 2 * pool.pages - 2 ^ pool.maxOrder := by
  by_contra hge
  rw [(h.waste_iff i).mpr ⟨not_lt.mp hge, hi⟩] at hw
  cases hw

section

variable (h : WasteShape pool) (hp : PoolInv pool held) (hw : WasteInv pool held pool.total)
  (hi : i ∈ pool.lists (.free k))

include h hp hw hi

theorem free_end (hk : k < pool.maxOrder) : i + 2 ^ k ≤ pool.total := by
  have hin := hp.inList_iff.mpr ⟨_, hi⟩
  have htile : pool.tile held i = some k := by
    rw [PoolInv.tile_listed hin, hp.free_order hi]
  have hbound := hp.tiling.bounded htile
  have hlt := h.lt_total
  rcases h.reach with hfull | hlow
  · omega
  -- the lower half of the managed block
  have hhalf : 2 ^ pool.maxOrder = 2 * 2 ^ (pool.maxOrder - 1) := by
    rw [← pow_succ']
    congr 1
    omega
  have hle : 2 ^ k ≤ 2 ^ (pool.maxOrder - 1) := Nat.pow_le_pow_right (by norm_num) (by omega)
  rcases hw.free_clean hi with rfl | hclean
  · omega
  · have hiw := h.lt_waste (hw.start_lt (.inl hin)) hclean
    have hdvd : 2 ^ k ∣ 2 ^ (pool.maxOrder - 1) := pow_dvd_pow 2 (by omega)
    have := Dyadic.add_le_of_dvd_of_lt (hp.tiling.aligned htile) hdvd (by omega)
    omega

theorem half_lt : ∀ j < k, i + 2 ^ j < pool.total := by
  intro j hj
  have hin := hp.inList_iff.mpr ⟨_, hi⟩
  have htile : pool.tile held i = some k := by
    rw [PoolInv.tile_listed hin, hp.free_order hi]
  have hpow : 2 ^ (j + 1) ≤ 2 ^ k := Nat.pow_le_pow_right (by norm_num) hj
  rw [pow_succ] at hpow
  have hpos := Nat.two_pow_pos j
  rcases Nat.lt_or_ge k pool.maxOrder with hk | hk
  · have := h.free_end hp hw hi hk
    omega
  · -- the whole block starts at page 0
    have hkm : k = pool.maxOrder := le_antisymm (hp.tiling.order_le htile) hk
    have hbound := hp.tiling.bounded htile
    have := h.lt_total
    subst hkm
    omega

end

theorem ownPage (h : WasteShape pool) (hi : i < pool.total)
    (hclean : i = 0 ∨ (pool.blocks i).isWaste = false) : OwnPage pool i := by
  have h1 := h.le_pages
  have h2 := h.pages_le
  have h3 := h.pagesEnd_eq
  have h4 := h.pagesEnd_lt
  have hpos := Nat.two_pow_pos pool.maxOrder
  have hlt : i < pool.pages := by
    rcases hclean with rfl | hw
    · omega
    · have := h.lt_waste hi hw
      omega
  unfold OwnPage blockToAddress pageSize
  rw [sizeAdd_eq (by omega)]
  omega

end WasteShape

/-- `pages` is the number of usable pages when the range has at least 16 pages. -/
theorem poolPages_eq {memStart memEnd : ℕ} (hend : memEnd < 2 ^ 64) (hT : 16 ≤ totalPages memStart memEnd) :
    poolPages memStart memEnd = usablePages memStart memEnd ∧
      usablePages memStart memEnd ≤ totalPages memStart memEnd ∧
      poolPagesEnd memEnd =
        poolPagesStart memStart memEnd + usablePages memStart memEnd * 4096 := by
  have hle : totalPages memStart memEnd * 4096 ≤ memEnd - memStart := div_mul_le_self _ _
  have hlt : memEnd - memStart < (totalPages memStart memEnd + 1) * 4096 :=
    lt_mul_of_div_lt (lt_succ_self _) (by norm_num)
  have ho := getOrder_le_self (n := totalPages memStart memEnd) (by omega)
  have hstart : memStart + 2 * pageSize ≤ 2 ^ 64 := by unfold pageSize; omega
  have hps := poolPagesStart_eq hend hstart
  have hpe : poolPagesEnd memEnd = memEnd / 4096 * 4096 := rfl
  have hle' : poolPagesStart memStart memEnd ≤ poolPagesEnd memEnd := by omega
  unfold poolPages usablePages
  rw [sizeSub_eq hle' (by omega), hps, hpe, pageSize]
  omega

theorem newPool_wasteShape {memStart memEnd : ℕ} (flags : ℕ) (hend : memEnd < 2 ^ 64)
    (hT : 16 ≤ totalPages memStart memEnd) (hT' : totalPages memStart memEnd ≤ 2 ^ 30)
    (hfits : WasteFits memStart memEnd) : WasteShape (newPool memStart memEnd flags) := by
  obtain ⟨hpages, hpT, hpe⟩ := poolPages_eq hend hT
  obtain ⟨hhalf, hreach⟩ := hfits
  have h63 : totalPages memStart memEnd ≤ 2 ^ 63 := by omega
  have horder : getOrder (totalPages memStart memEnd) ≤ 30 := (getOrder_le_iff h63).mpr hT'
  have hle := le_two_pow_getOrder h63
  obtain ⟨k, hk⟩ : ∃ k, getOrder (totalPages memStart memEnd) = k + 1 := by
    refine exists_eq_succ_of_ne_zero fun h0 => ?_
    rw [h0] at hle
    omega
  have hlt := lt_of_getOrder_eq_succ h63 hk
  have hpow : 2 ^ getOrder (totalPages memStart memEnd) = 2 * 2 ^ k := by rw [hk]; ring
  have hmax : 2 ^ getOrder (totalPages memStart memEnd) ≤ 2 ^ 30 :=
    Nat.pow_le_pow_right (by norm_num) horder
  have hwaste : poolMaxOrderWaste memStart memEnd =
      2 ^ getOrder (totalPages memStart memEnd) - usablePages memStart memEnd := by
    unfold poolMaxOrderWaste
    rw [sizeShl_eq horder, hpages, sizeSub_eq (by omega) (by omega)]
    omega
  have hfirst : sizeSub (usablePages memStart memEnd) (poolMaxOrderWaste memStart memEnd) =
      2 * usablePages memStart memEnd - 2 ^ getOrder (totalPages memStart memEnd) := by
    rw [hwaste, sizeSub_eq (by omega) (by omega)]
    omega
  have hpel : poolPagesEnd memEnd < 2 ^ 64 := lt_of_le_of_lt (div_mul_le_self memEnd pageSize) hend
  rw [newPool_eq]
  constructor <;> simp only [MemoryPool.total, hpages, hfirst, decide_eq_true_eq]
  · omega
  · exact horder
  · exact hle
  · omega
  · omega
  · exact hhalf
  · exact hreach
  · exact fun _ => trivial
  · exact hwaste
  · exact hpe
  · exact hpel

theorem newPool_wasteInv {memStart memEnd : ℕ} (flags : ℕ) (hT : 0 < totalPages memStart memEnd) :
    WasteInv (newPool memStart memEnd flags) [] (newPool memStart memEnd flags).total := by
  rw [newPool_eq]
  constructor
  · rintro i (hi | hi)
    · rw [decide_eq_true_eq] at hi
      subst hi
      exact hT
    · cases hi
  · intro k i hi
    dsimp only at hi
    split_ifs at hi
    · exact .inl (List.mem_singleton.mp hi)
    · cases hi

/-! ## Runs -/

/-- A valid call; ranges have at least 16 pages, as `port_postheap_init` requires of
    the ranges that it adds. -/
def ValidCall16 (s : BuddyState) : BuddyOp → Prop
  | .initPool memStart memEnd flags =>
      ValidCall s (.initPool memStart memEnd flags) ∧ 16 ≤ totalPages memStart memEnd
  | .allocate size type => ValidCall s (.allocate size type)
  | .deallocate p i => ValidCall s (.deallocate p i)

/-- The calls for which no page beyond the end of a pool is handed out: the waste marks of every
    range fit, and a range has at most 2^30 pages, so that `1 << order` is defined. -/
def WasteCall (s : BuddyState) : BuddyOp → Prop
  | .initPool memStart memEnd flags =>
      ValidCall16 s (.initPool memStart memEnd flags) ∧
        totalPages memStart memEnd ≤ 2 ^ 30 ∧ WasteFits memStart memEnd
  | .allocate size type => ValidCall16 s (.allocate size type)
  | .deallocate p i => ValidCall16 s (.deallocate p i)

/-- The refusal of requests of the top order (lines 440–444) compares bytes with
    pages, so it applies to all of them. -/
theorem top_refused {pool : MemoryPool} {size : ℕ} (hpos : 0 < pool.maxOrder)
    (hM : pool.maxOrder ≤ 30) (hwaste : pool.maxOrderWaste ≤ 2 ^ pool.maxOrder)
    (hsize : size + (pageSize - 1) < 2 ^ 64) (heq : getOrder (requestPages size) = pool.maxOrder) :
    size > uintSub (uintShl (getOrder (requestPages size))) pool.maxOrderWaste := by
  have hreq := requestPages_eq hsize
  obtain ⟨k, hk⟩ : ∃ k, pool.maxOrder = k + 1 :=
    exists_eq_succ_of_ne_zero (Nat.pos_iff_ne_zero.mp hpos)
  have hlt := lt_of_getOrder_eq_succ (n := requestPages size) (by
    unfold pageSize at hsize; omega) (heq.trans hk)
  have hpow : 2 ^ pool.maxOrder = 2 * 2 ^ k := by rw [hk]; ring
  have hle : 2 ^ pool.maxOrder ≤ 2 ^ 30 := Nat.pow_le_pow_right (by norm_num) hM
  rw [heq, uintShl_eq hM, uintSub_eq hwaste (by omega)]
  omega

/-- What the marks add to the invariant of a pool. -/
structure WastePool (pool : MemoryPool) (held : List ℕ) : Prop where
  shape : WasteShape pool
  waste : WasteInv pool held pool.total
  clean : ∀ i ∈ held, i = 0 ∨ (pool.blocks i).isWaste = false

/-- One call, seen from one pool. -/
theorem PoolStep.wastePool {o : BuddyOp} {pool pool' : MemoryPool} {held held' : List ℕ}
    (hstep : PoolStep o pool held pool' held') (hp : PoolInv pool held)
    (h : WastePool pool held) : WastePool pool' held' := by
  have hs := hstep.sameShape
  refine ⟨h.shape.of_sameShape hs, ?_, ?_⟩
  · rw [hs.total]
    cases hstep with
    | kept hperm => exact h.waste.perm hperm
    | taken _ hfind _ =>
      obtain ⟨k, -, -, hmem, -⟩ := poolFindBlock_some hfind
      exact h.waste.takeBlock hp hmem (h.shape.half_lt hp h.waste hmem)
    | given hperm => exact (h.waste.perm hperm).giveBlock (hp.perm hperm)
  · intro i hi
    rw [hs.isWaste]
    cases hstep with
    | kept hperm => exact h.clean i (hperm.mem_iff.mpr hi)
    | taken _ hfind _ =>
      obtain ⟨k, -, -, hmem, -⟩ := poolFindBlock_some hfind
      rcases List.mem_cons.mp hi with rfl | hi
      · exact h.waste.free_clean hmem
      · exact h.clean i hi
    | given hperm => exact h.clean i (hperm.mem_iff.mpr (List.mem_cons_of_mem _ hi))

/-- The invariant of the heap with what the marks add to it. -/
structure HeapWaste (s : BuddyState) : Prop where
  inv : HeapInv s
  shape : ∀ {p}, p < s.heap.memoryPoolNum → WasteShape (s.heap.memoryPools p)
  waste : ∀ {p}, p < s.heap.memoryPoolNum →
    WasteInv (s.heap.memoryPools p) (heldIn s.live p) (s.heap.memoryPools p).total
  held_clean : ∀ {p i}, (p, i) ∈ s.live →
    i = 0 ∨ ((s.heap.memoryPools p).blocks i).isWaste = false

namespace HeapWaste

variable {s t : BuddyState} {p i : ℕ}

theorem init : HeapWaste {} where
  inv := HeapInv.init
  shape := by intro p hp; exact absurd hp (Nat.not_lt_zero p)
  waste := by intro p hp; exact absurd hp (Nat.not_lt_zero p)
  held_clean := by intro p i h; cases h

theorem ownPage (h : HeapWaste s) (hlive : (p, i) ∈ s.live) : OwnPage (s.heap.memoryPools p) i := by
  have hp := h.inv.live_lt hlive
  exact (h.shape hp).ownPage ((h.waste hp).start_lt (.inr (mem_heldIn.mpr hlive)))
    (h.held_clean hlive)

theorem ownPageCall (h : HeapWaste s) {o : BuddyOp} (hok : WasteCall s o) : OwnPageCall s o := by
  cases o with
  | initPool memStart memEnd flags =>
    obtain ⟨⟨hv, hT⟩, hT', -⟩ := hok
    have hle : totalPages memStart memEnd * 4096 ≤ memEnd - memStart := div_mul_le_self _ _
    have := hv.2.1
    exact ⟨hv, hT', by unfold pageSize; omega⟩
  | allocate size type => exact hok
  | deallocate p i => exact ⟨hok, h.ownPage hok⟩

theorem step {o : BuddyOp} (h : HeapWaste s) (hok : WasteCall s o) (hst : buddyStep s o = some t) :
    HeapWaste t := by
  have hinv := h.inv.step (h.ownPageCall hok) hst
  have hpool : ∀ {q}, q < t.heap.memoryPoolNum →
      WastePool (t.heap.memoryPools q) (heldIn t.live q) := by
    intro q hq
    rcases buddyStep_cases h.inv (h.ownPageCall hok) hst hq with
      ⟨hq, hstep⟩ | ⟨memStart, memEnd, flags, rfl, -, hpool, hheld⟩
    · exact hstep.wastePool (h.inv.pool hq)
        ⟨h.shape hq, h.waste hq, fun i hi => h.held_clean (mem_heldIn.mp hi)⟩
    · obtain ⟨⟨⟨-, hend, -⟩, hT⟩, hT', hfits⟩ := hok
      rw [hpool, hheld]
      exact ⟨newPool_wasteShape flags hend hT hT' hfits, newPool_wasteInv flags (by omega), nofun⟩
  exact ⟨hinv, fun hq => (hpool hq).shape, fun hq => (hpool hq).waste,
    fun hi => (hpool (hinv.live_lt hi)).clean _ (mem_heldIn.mpr hi)⟩

theorem order_lt (h : HeapWaste s) (hp : p < s.heap.memoryPoolNum) {size : ℕ}
    (hsize : size + (pageSize - 1) < 2 ^ 64)
    (hle : getOrder (requestPages size) ≤ (s.heap.memoryPools p).maxOrder)
    (hc : ¬ (getOrder (requestPages size) = (s.heap.memoryPools p).maxOrder ∧ size > uintSub
      (uintShl (getOrder (requestPages size))) (s.heap.memoryPools p).maxOrderWaste)) :
    getOrder (requestPages size) < (s.heap.memoryPools p).maxOrder := by
  have hs := h.shape hp
  have hwaste : (s.heap.memoryPools p).maxOrderWaste ≤ 2 ^ (s.heap.memoryPools p).maxOrder := by
    rw [hs.maxOrderWaste_eq]
    exact sub_le _ _
  exact lt_of_le_of_ne hle fun heq =>
    hc ⟨heq, top_refused hs.order_pos hs.order_le hwaste hsize heq⟩

end HeapWaste

theorem heapWaste_run {ops : List BuddyOp} {s : BuddyState} (h : Run buddyStep WasteCall {} ops s) : HeapWaste s :=
  h.invariant HeapWaste.step HeapWaste.init

/-- After every run over ranges whose waste marks fit, the pages of every block that
    `buddy_allocate` returns lie inside the pages of one pool. -/
theorem buddyAllocate_in_pages {ops : List BuddyOp} {s : BuddyState}
    (hrun : Run buddyStep WasteCall {} ops s) {size addr : ℕ} {type : BlockType}
    (hsize : size + (pageSize - 1) < 2 ^ 64)
    (haddr : (buddyAllocate s.heap size type).1 = some addr) :
    pageSize ∣ addr ∧ ∃ p < s.heap.memoryPoolNum,
      (s.heap.memoryPools p).pagesStart ≤ addr ∧
      addr + (size + (pageSize - 1)) / pageSize * pageSize ≤ (s.heap.memoryPools p).pagesEnd := by
  have h := heapWaste_run hrun
  have hreq := requestPages_eq hsize
  unfold buddyAllocate at haddr
  rcases buddyAllocateBlock_cases s.heap size type with heq | ⟨p, i, h0, hp, hfind, hc, heq⟩
  · rw [heq] at haddr; cases haddr
  rw [heq] at haddr
  obtain ⟨k, hk, hkm, hmem, hlast⟩ := poolFindBlock_some hfind
  have hs := h.shape hp
  have hinv := h.inv.pool hp
  have hw := h.waste hp
  have hn : requestPages size ≤ 2 ^ getOrder (requestPages size) :=
    le_two_pow_getOrder (by unfold pageSize at hsize; omega)
  have ha := h.order_lt hp hsize (hk.trans hkm) hc
  -- the last requested page lies below `total`
  have hend : i + requestPages size ≤ (s.heap.memoryPools p).total := by
    rcases Nat.lt_or_ge (getOrder (requestPages size)) k with hlt | hge
    · have := hs.half_lt hinv hw hmem _ hlt
      omega
    · have hke : k = getOrder (requestPages size) := le_antisymm hge hk
      subst hke
      have := hs.free_end hinv hw hmem ha
      omega
  have htotal : (s.heap.memoryPools p).total ≤ 2 ^ 30 :=
    hs.total_le.trans (Nat.pow_le_pow_right (by norm_num) hs.order_le)
  -- it is unmarked, so it lies below the marks
  have hlt : i + requestPages size - 1 <
      2 * (s.heap.memoryPools p).pages - 2 ^ (s.heap.memoryPools p).maxOrder := by
    rw [sizeAdd_eq (by omega), sizeSub_eq (by omega) (by omega)] at hlast
    exact hs.lt_waste (by omega) hlast
  have h1 := hs.pages_le
  have h2 := hs.pagesEnd_eq
  have h3 := hs.pagesEnd_lt
  obtain ⟨c, hal⟩ := (h.inv.placed hp).aligned
  have haddr' : addr = (s.heap.memoryPools p).pagesStart + i * 4096 := by
    simp only [Option.map_some, Option.some.injEq, Heap.setPool, Function.update_self,
      blockToAddress, (SameShape.takeBlock i _ type).pagesStart] at haddr
    rw [← haddr, pageSize, sizeAdd_eq (by omega)]
  rw [pageSize] at hal ⊢
  exact ⟨⟨c + i, by omega⟩, p, hp, by omega, by omega⟩

/-- A request of three pages in a fresh pool of 64 pages. -/
theorem buddyAllocate_in_pages_pool64 : ∃ s, Run buddyStep WasteCall {}
      [.initPool 409600 671744 0] s ∧ (buddyAllocate s.heap 12288 .page).1 = some 417792 ∧
    ∃ p < s.heap.memoryPoolNum, (s.heap.memoryPools p).pagesStart ≤ 417792 ∧
      417792 + 3 * pageSize ≤ (s.heap.memoryPools p).pagesEnd := by
  have hrun : Run buddyStep WasteCall {} [.initPool 409600 671744 0] _ :=
    .cons ⟨⟨⟨by decide, by decide, by decide⟩, by decide⟩, by decide,
      show _ ∧ _ by decide⟩ rfl (.nil _)
  have haddr : (buddyAllocate (initPool {} 409600 671744 0) 12288 .page).1 = some 417792 := by
    decide
  exact ⟨_, hrun, haddr, (buddyAllocate_in_pages hrun (by decide) haddr).2⟩

/-- A pool of 63 pages has 61 usable ones, from address 417792 on. The marks end at
    page 63 of the managed 64, so the last page of the upper half is unmarked: after
    one page has been allocated, a request of 32 pages is served with the upper
    half, three pages of which lie past the end of the pool. -/
theorem buddyAllocate_beyond_pages : ¬ ∀ (ops : List BuddyOp) (s : BuddyState),
    Run buddyStep ValidCall16 {} ops s → ∀ (size addr : ℕ) (type : BlockType),
      size + (pageSize - 1) < 2 ^ 64 → (buddyAllocate s.heap size type).1 = some addr →
      pageSize ∣ addr ∧ ∃ p < s.heap.memoryPoolNum,
        (s.heap.memoryPools p).pagesStart ≤ addr ∧
        addr + (size + (pageSize - 1)) / pageSize * pageSize ≤
          (s.heap.memoryPools p).pagesEnd := by
  intro hall
  have hrun : Run buddyStep ValidCall16 {} [.initPool 409600 667648 0, .allocate 4096 .page] _ :=
    .cons ⟨⟨by decide, by decide, by decide⟩, by decide⟩ rfl (.cons trivial rfl (.nil _))
  obtain ⟨-, p, hp, -, hend⟩ := hall _ _ hrun 131072 548864 .page (by decide) (by decide)
  have hp0 : p = 0 := by
    have : p < 1 := hp
    omega
  subst hp0
  exact absurd hend (by decide)

end BadgerOS.Malloc

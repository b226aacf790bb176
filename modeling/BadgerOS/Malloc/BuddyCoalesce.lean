import BadgerOS.Malloc.BuddyHeap

/-!
# Coalescing

Freed blocks are merged with their buddies as far as possible, so that a pool whose
blocks have all been freed is one free block again.

* `Coalesced`: no two buddies of the same order are both listed, `max_order_free` is
  not below a non-empty free list, and a pool without allocated blocks is as
  `init_pool` left it.
* `Merged`: the part of it that the list operations keep, together with the fact that
  the waste list holds marked blocks only.
* `MemoryPool.heldPages`: the pages of the allocated blocks, counted by `free_pages`.
* `buddy_coalesced`: the property in every run that deallocates blocks at usable pages
  of their pools.
* **Deviation.** `buddy_not_coalesced`: a block beyond the end of its pool is given back
  to the pool that its address lies in. The pool it came from never gets it back.
-/

namespace BadgerOS.Malloc

open List MemoryPool

open Dyadic (Tiling)

/-! ## The property -/

/-- A block that starts at `i` is on a free list or on the waste list. -/
def MemoryPool.Listed (pool : MemoryPool) (i : ℕ) : Prop := ∃ l, i ∈ pool.lists l

/-- The state that `init_pool` leaves: block 0 of order `max_order`, alone on its free
    list, and every usable page free. -/
structure MemoryPool.Initial (pool : MemoryPool) : Prop where
  free : pool.lists (.free pool.maxOrder) = [0]
  others : ∀ l, l ≠ .free pool.maxOrder → pool.lists l = []
  order : (pool.blocks 0).order = pool.maxOrder
  freePages : pool.freePages = pool.pages

/-- Full coalescing of a pool whose allocated blocks are `held`. -/
structure Coalesced (pool : MemoryPool) (held : List ℕ) : Prop where
  apart : ∀ i, pool.Listed i → pool.Listed (i ^^^ 2 ^ (pool.blocks i).order) →
    (pool.blocks (i ^^^ 2 ^ (pool.blocks i).order)).order ≠ (pool.blocks i).order
  free_le : ∀ k, pool.lists (.free k) ≠ [] → k ≤ pool.maxOrderFree
  restored : held = [] → pool.Initial

/-! ## Listed blocks -/

/-- No listed block has its buddy listed with the same order, `max_order_free` bounds the
    orders of the free blocks, and the blocks on the waste list are marked. -/
structure Merged (pool : MemoryPool) : Prop where
  apart : ∀ {i}, (pool.blocks i).inList = true →
    (pool.blocks (i ^^^ 2 ^ (pool.blocks i).order)).inList = true →
    (pool.blocks (i ^^^ 2 ^ (pool.blocks i).order)).order ≠ (pool.blocks i).order
  free_le : ∀ {k i}, i ∈ pool.lists (.free k) → k ≤ pool.maxOrderFree
  waste_marked : ∀ {i}, i ∈ pool.lists .waste → (pool.blocks i).isWaste = true

/-- `pool'` has the page counters of `pool`. -/
def SameCounts (pool pool' : MemoryPool) : Prop :=
  pool'.freePages = pool.freePages ∧ pool'.maxOrderFree = pool.maxOrderFree

/-- The blocks in `held` have the same orders in `pool'` as in `pool`. -/
def SameOrders (held : List ℕ) (pool pool' : MemoryPool) : Prop :=
  ∀ j ∈ held, (pool'.blocks j).order = (pool.blocks j).order

theorem SameOrders.trans {held : List ℕ} {pool pool' pool'' : MemoryPool}
    (h : SameOrders held pool pool') (h' : SameOrders held pool' pool'') :
    SameOrders held pool pool'' :=
  fun j hj => (h' j hj).trans (h j hj)

theorem SameCounts.trans {pool pool' pool'' : MemoryPool} (h : SameCounts pool pool')
    (h' : SameCounts pool' pool'') : SameCounts pool pool'' :=
  ⟨h'.1.trans h.1, h'.2.trans h.2⟩

namespace Merged

variable {pool pool' : MemoryPool} {held : List ℕ} {i k : ℕ}

theorem remove (h : Merged pool) (i : ℕ) : Merged (listRemove pool i) where
  apart := by
    have hold : ∀ {j}, ((listRemove pool i).blocks j).inList = true →
        (listRemove pool i).blocks j = pool.blocks j := by
      intro j hj
      rw [listRemove_blocks] at hj ⊢
      split_ifs at hj ⊢
      · rfl
    intro j h1 h2
    have e1 := hold h1
    have e2 := hold h2
    rw [e2, e1]
    rw [e1] at h1 h2 e2
    rw [e2] at h2
    exact h.apart h1 h2
  free_le := fun hj => h.free_le (mem_of_mem_erase hj)
  waste_marked := by
    intro j hj
    have hshape : SameShape pool (listRemove pool i) := .remove i
    rw [hshape.isWaste]
    exact h.waste_marked (mem_of_mem_erase hj)

/-- The order of a block that is on no list is free. -/
theorem setOrder (h : Merged pool) (hi : (pool.blocks i).inList = false) (n : ℕ) :
    Merged (pool.setBlock i fun b => { b with order := n }) where
  apart := by
    have hold : ∀ {j}, (pool.blocks j).inList = true →
        (pool.setBlock i fun b => { b with order := n }).blocks j = pool.blocks j := by
      intro j hj
      refine pool.setBlock_of_ne _ ?_
      rintro rfl
      rw [hi] at hj
      cases hj
    intro j h1 h2
    rw [pool.setBlock_field (f := fun b => { b with order := n }) i _ BuddyBlock.inList fun _ => rfl]
      at h1 h2
    rw [hold h1] at h2 ⊢
    rw [hold h2]
    exact h.apart h1 h2
  free_le := h.free_le
  waste_marked := by
    intro j hj
    have hshape : SameShape pool (pool.setBlock i fun b => { b with order := n }) :=
      .setOrder i fun _ => n
    rw [hshape.isWaste]
    exact h.waste_marked hj

/-- An entry joins a list when its buddy is not listed with its order. -/
theorem push (h : Merged pool) {l : ListHead}
    (hbuddy : (pool.blocks (i ^^^ 2 ^ (pool.blocks i).order)).inList = true →
      (pool.blocks (i ^^^ 2 ^ (pool.blocks i).order)).order ≠ (pool.blocks i).order)
    (hl : (∃ k, l = .free k ∧ k ≤ pool.maxOrderFree) ∨
      (l = .waste ∧ (pool.blocks i).isWaste = true)) : Merged (listPushBack pool l i) where
  apart := by
    have hord : ∀ j, ((listPushBack pool l i).blocks j).order = (pool.blocks j).order :=
      fun j => pool.setBlock_field i j BuddyBlock.order (f := fun b => { b with inList := true })
        fun _ => rfl
    have hin : ∀ {j}, ((listPushBack pool l i).blocks j).inList = true →
        j = i ∨ (pool.blocks j).inList = true := by
      intro j hj
      rw [listPushBack_blocks] at hj
      split_ifs at hj with he
      · exact .inl he
      · exact .inr hj
    intro j h1 h2
    rw [hord] at h2 ⊢
    rw [hord]
    intro heq
    rcases hin h1 with rfl | h1
    · rcases hin h2 with he | h2
      · exact Dyadic.xor_two_pow_ne _ _ he
      · exact hbuddy h2 heq
    · rcases hin h2 with he | h2
      · -- the new entry is the buddy of `j`, so `j` is the buddy of the new entry
        have hback : i ^^^ 2 ^ (pool.blocks i).order = j := by
          rw [← he, heq, Nat.xor_assoc, Nat.xor_self, Nat.xor_zero]
        rw [he] at heq
        rw [hback] at hbuddy
        exact hbuddy h1 heq.symm
      · exact h.apart h1 h2 heq
  free_le := by
    intro k j hj
    rcases mem_listPushBack.mp hj with ⟨hlk, -⟩ | hj
    · rcases hl with ⟨k', rfl, hk⟩ | ⟨rfl, -⟩
      · cases hlk
        exact hk
      · cases hlk
    · exact h.free_le hj
  waste_marked := by
    intro j hj
    have hshape : SameShape pool (listPushBack pool l i) := .push l i
    rw [hshape.isWaste]
    rcases mem_listPushBack.mp hj with ⟨hlw, rfl⟩ | hj
    · rcases hl with ⟨k, rfl, -⟩ | ⟨-, hw⟩
      · cases hlw
      · exact hw
    · exact h.waste_marked hj

/-- The page count and the type of a block are invisible; `max_order_free` may change as
    long as it bounds the orders of the free blocks. -/
theorem congr (h : Merged pool) (hlists : pool'.lists = pool.lists)
    (horder : ∀ j, (pool'.blocks j).order = (pool.blocks j).order)
    (hin : ∀ j, (pool'.blocks j).inList = (pool.blocks j).inList)
    (hw : ∀ j, (pool'.blocks j).isWaste = (pool.blocks j).isWaste)
    (hfree : ∀ {k i}, i ∈ pool.lists (.free k) → k ≤ pool'.maxOrderFree) : Merged pool' where
  apart := by
    intro j h1 h2
    rw [hin, horder] at h2
    rw [hin] at h1
    rw [horder j, horder]
    exact h.apart h1 h2
  free_le := by intro k j hj; rw [hlists] at hj; exact hfree hj
  waste_marked := by intro j hj; rw [hlists] at hj; rw [hw]; exact h.waste_marked hj

/-! ## Splitting -/

/-- `split_block` lists the right half of the block in hand, whose buddy is in hand. -/
theorem splitBlock (hp : PoolInv pool (i :: held)) (h : Merged pool)
    (hk : (pool.blocks i).order = k + 1) (hle : k ≤ pool.maxOrderFree) :
    Merged (splitBlock pool i) ∧ SameCounts pool (Malloc.splitBlock pool i) ∧
      SameOrders held pool (Malloc.splitBlock pool i) := by
  have hpos := Nat.two_pow_pos k
  have hhalf := hp.halve hk
  obtain ⟨hright, hnd⟩ := nodup_cons.mp hhalf.held_nodup
  obtain ⟨hleft, -⟩ := nodup_cons.mp hnd
  have hui : (pool.blocks i).inList = false := hp.held_unlisted mem_cons_self
  have hm1 := h.setOrder hui k
  have hur : ((pool.setBlock i fun b => { b with order := k }).blocks (i + 2 ^ k)).inList =
      false := by
    have := hhalf.held_unlisted mem_cons_self
    rwa [setBlock_self] at this
  have hm2 := hm1.setOrder hur k
  have hul := hhalf.held_unlisted (mem_cons_of_mem _ mem_cons_self)
  have hal : 2 ^ (k + 1) ∣ i := by
    have htile : pool.tile (i :: held) i = _ := PoolInv.tile_held mem_cons_self
    rw [hk] at htile
    exact hp.tiling.aligned htile
  have hxor : (i + 2 ^ k) ^^^ 2 ^ k = i := by
    rw [← Dyadic.xor_two_pow_of_dvd hal, Nat.xor_assoc, Nat.xor_self, Nat.xor_zero]
  rw [hp.splitBlock_eq hk]
  refine ⟨hm2.push ?_ ?_, ⟨rfl, rfl⟩, ?_⟩
  · intro hin
    rw [setBlock_self] at hin
    dsimp only at hin
    rw [hxor, hul] at hin
    cases hin
  · split_ifs with hw
    · refine .inr ⟨rfl, ?_⟩
      rw [setBlock_self, setBlock_of_ne _ _ (by omega)]
      exact hw
    · exact .inl ⟨k, rfl, hle⟩
  · intro j hj
    have h1 : j ≠ i + 2 ^ k := by
      rintro rfl
      exact hright (mem_cons_of_mem _ hj)
    have h2 : j ≠ i := by
      rintro rfl
      exact hleft hj
    simp only [listPushBack_blocks, if_neg h1, setBlock_of_ne _ _ h1, setBlock_of_ne _ _ h2]

theorem splitLoop {a n : ℕ} (hp : PoolInv pool (i :: held)) (h : Merged pool)
    (ho : (pool.blocks i).order = n) (hn : n ≤ pool.maxOrderFree) :
    Merged (splitLoop a n pool i) ∧ SameCounts pool (Malloc.splitLoop a n pool i) ∧
      SameOrders held pool (Malloc.splitLoop a n pool i) := by
  obtain ⟨_, -, -, -, h'⟩ := splitLoop_induct (a := a)
    (P := fun n pool' => PoolInv pool' (i :: held) ∧ (pool'.blocks i).order = n ∧
      n ≤ pool'.maxOrderFree ∧ Merged pool' ∧ SameCounts pool pool' ∧ SameOrders held pool pool')
    (fun ⟨hp, ho, hn, h, hc, hord⟩ => by
      obtain ⟨hp', ho'⟩ := hp.splitBlock ho
      obtain ⟨h', hc', hord'⟩ := h.splitBlock hp ho (by omega)
      exact ⟨hp', ho', by rw [hc'.2]; omega, h', hc.trans hc', hord.trans hord'⟩)
    ⟨hp, ho, hn, h, ⟨rfl, rfl⟩, fun _ _ => rfl⟩
  exact h'

/-- The loop that lowers `max_order_free` stops at the topmost non-empty free list. -/
theorem le_lowerMaxOrderFree {j : ℕ} (hj : j ∈ pool.lists (.free k)) : ∀ {n : ℕ}, k ≤ n → k ≤ lowerMaxOrderFree pool n := by
  intro n
  induction n with
  | zero => intro hk; exact hk
  | succ n ih =>
    intro hk
    rw [lowerMaxOrderFree]
    split_ifs with hempty
    · refine ih ?_
      by_contra hlt
      obtain rfl : k = n + 1 := by omega
      rw [listEmpty, List.isEmpty_iff] at hempty
      rw [hempty] at hj
      cases hj
    · exact hk

theorem takeBlock {a : ℕ} {t : BlockType} (hp : PoolInv pool held) (h : Merged pool)
    (hi : i ∈ pool.lists (.free k)) (ha : a ≤ k) : Merged (takeBlock pool i a t) ∧
      (Malloc.takeBlock pool i a t).freePages = sizeSub pool.freePages (sizeShl a) ∧
      SameOrders held pool (Malloc.takeBlock pool i a t) := by
  have hin := hp.inList_iff.mpr ⟨_, hi⟩
  have hself : ((listRemove pool i).blocks i).order = k := by
    rw [listRemove_blocks, if_pos rfl]
    exact hp.free_order hi
  have hrem := hp.remove hin
  have hnot : i ∉ held := (nodup_cons.mp hrem.held_nodup).1
  obtain ⟨-, ho⟩ := hrem.splitLoop (n := k) (a := a) hself ha
  obtain ⟨hm, hc, hord⟩ := (h.remove i).splitLoop (n := k) (a := a) hrem hself (h.free_le hi)
  have hrest : SameOrders held pool (listRemove pool i) := by
    intro j hj
    rw [listRemove_blocks, if_neg]
    rintro rfl
    exact hnot hj
  unfold Malloc.takeBlock
  dsimp only
  rw [hself]
  set cut := Malloc.splitLoop a k (listRemove pool i) i with hcut
  have htype : ∀ {β : Type} (g : BuddyBlock → β), (∀ b, g { b with type := t } = g b) →
      ∀ j, g ((cut.setBlock i fun b => { b with type := t }).blocks j) = g (cut.blocks j) :=
    fun g hg j => cut.setBlock_field i j g hg
  refine ⟨hm.congr rfl (htype BuddyBlock.order fun _ => rfl) (htype BuddyBlock.inList fun _ => rfl)
    (htype BuddyBlock.isWaste fun _ => rfl) fun hj => le_lowerMaxOrderFree hj (hm.free_le hj),
    ?_, ?_⟩
  · show sizeSub cut.freePages (sizeShl (cut.blocks i).order) = _
    rw [ho, hc.1]
    rfl
  · intro j hj
    exact (htype BuddyBlock.order (fun _ => rfl) j).trans ((hrest.trans hord) j hj)

/-! ## Merging -/

/-- Why `try_merge_buddy` fails: the bound on the buddy's index never applies, so the
    buddy is not listed with the order of the block. -/
theorem tryMergeBuddy_eq_none (hp : PoolInv pool (i :: held)) (hspan : 2 ^ pool.maxOrder ≤ sizeAdd pool.pages pool.maxOrderWaste)
    (hm : tryMergeBuddy pool i = none)
    (hin : (pool.blocks (i ^^^ 2 ^ (pool.blocks i).order)).inList = true) :
    (pool.blocks (i ^^^ 2 ^ (pool.blocks i).order)).order ≠ (pool.blocks i).order := by
  have htile : pool.tile (i :: held) i = _ := PoolInv.tile_held mem_cons_self
  have hle := hp.order_le_of_held mem_cons_self
  have hmax := hp.maxOrder_le
  have hbound : i ^^^ 2 ^ (pool.blocks i).order ≤ 2 ^ pool.maxOrder := by
    rcases hle.lt_or_eq with hlt | heq
    · exact (Nat.le_add_right _ _).trans (hp.tiling.buddy_lt htile hlt)
    · have := hp.tiling.bounded htile
      rw [heq] at this ⊢
      obtain rfl : i = 0 := by omega
      rw [Nat.zero_xor]
  intro heq
  unfold Malloc.tryMergeBuddy at hm
  simp only [sizeShl_eq (show (pool.blocks i).order ≤ 30 by omega)] at hm
  rw [if_neg (by omega), if_pos ⟨heq, hin⟩] at hm
  cases hm

section

variable (hp : PoolInv pool (i :: held)) (h : Merged pool)

include hp h

/-- `try_merge_buddy` takes the buddy from its list. -/
theorem tryMergeBuddy {m : ℕ} (hm : tryMergeBuddy pool i = some (pool', m)) :
    Merged pool' ∧ SameCounts pool pool' ∧ SameOrders held pool pool' := by
  obtain ⟨-, hin, hmin, rfl⟩ := hp.tryMergeBuddy_eq_some hm
  have hrem := hp.remove hin
  obtain ⟨hbuddy, hnd⟩ := nodup_cons.mp hrem.held_nodup
  obtain ⟨hself, -⟩ := nodup_cons.mp hnd
  have hcases : m = i ∨ m = i ^^^ 2 ^ (pool.blocks i).order := hmin ▸ min_choice _ _
  have hunl : ((listRemove pool (i ^^^ 2 ^ (pool.blocks i).order)).blocks m).inList = false := by
    refine hrem.held_unlisted ?_
    rcases hcases with rfl | rfl
    · exact mem_cons_of_mem _ mem_cons_self
    · exact mem_cons_self
  refine ⟨(h.remove _).setOrder hunl _, ⟨rfl, rfl⟩, ?_⟩
  intro j hj
  have h1 : j ≠ i ^^^ 2 ^ (pool.blocks i).order := by
    rintro rfl
    exact hbuddy (mem_cons_of_mem _ hj)
  have h2 : j ≠ m := by
    rintro rfl
    rcases hcases with rfl | he
    · exact hself hj
    · exact h1 he
  rw [setBlock_of_ne _ _ h2, listRemove_blocks, if_neg h1]

theorem freeLoop {n : ℕ} : Merged (freeLoop n pool i).1 ∧ SameCounts pool (Malloc.freeLoop n pool i).1 ∧
      SameOrders held pool (Malloc.freeLoop n pool i).1 :=
  (freeLoop_induct (P := fun pool' i => PoolInv pool' (i :: held) ∧ Merged pool' ∧
      SameCounts pool pool' ∧ SameOrders held pool pool')
    (fun ⟨hp, h, hc, ho⟩ hm => by
      obtain ⟨h', hc', ho'⟩ := h.tryMergeBuddy hp hm
      exact ⟨(hp.tryMergeBuddy hm).1, h', hc.trans hc', ho.trans ho'⟩)
    n ⟨hp, h, ⟨rfl, rfl⟩, fun _ _ => rfl⟩).2

/-- `free_block`: where the merge loop stops, the block can be listed. -/
theorem freeBlock (hspan : 2 ^ pool.maxOrder ≤ sizeAdd pool.pages pool.maxOrderWaste) :
    Merged (freeBlock pool i) ∧ (Malloc.freeBlock pool i).freePages = pool.freePages ∧
      SameOrders held pool (Malloc.freeBlock pool i) := by
  have hmax := hp.maxOrder_le
  have hl := hp.freeLoop (n := 256)
  have hdone := hp.freeLoop_done (n := 256) (by omega)
  have hshape := SameShape.freeLoop 256 pool i
  obtain ⟨hm, hc, hord⟩ := h.freeLoop (n := 256) hp
  unfold Malloc.freeBlock
  generalize Malloc.freeLoop 256 pool i = r at hl hdone hshape hm hc hord
  obtain ⟨pool', b⟩ := r
  dsimp only at hl hdone hshape hm hc hord ⊢
  have hspan' : 2 ^ pool'.maxOrder ≤ sizeAdd pool'.pages pool'.maxOrderWaste := by
    rw [hshape.maxOrder, hshape.pages, hshape.maxOrderWaste]
    exact hspan
  have hbuddy := tryMergeBuddy_eq_none hl hspan' hdone
  have hnot : b ∉ held := (nodup_cons.mp hl.held_nodup).1
  have hrest : ∀ (pool'' : MemoryPool) (l : ListHead), pool''.blocks = pool'.blocks →
      SameOrders held pool (listPushBack pool'' l b) := by
    intro pool'' l hb j hj
    rw [listPushBack_blocks, if_neg (by rintro rfl; exact hnot hj), hb]
    exact hord j hj
  cases hw : (pool'.blocks b).isWaste
  · have hraise : Merged { pool' with
          maxOrderFree := if pool'.maxOrderFree > (pool'.blocks b).order then pool'.maxOrderFree
            else (pool'.blocks b).order } := by
      refine hm.congr rfl (fun _ => rfl) (fun _ => rfl) (fun _ => rfl) fun {k j} hj => ?_
      have := hm.free_le hj
      dsimp only
      split_ifs
      · exact this
      · omega
    refine ⟨hraise.push hbuddy (.inl ⟨_, rfl, ?_⟩), hc.1, hrest _ _ rfl⟩
    dsimp only
    split_ifs with hgt
    · exact hgt.le
    · exact le_rfl
  · exact ⟨hm.push hbuddy (.inr ⟨rfl, hw⟩), hc.1, hrest _ _ rfl⟩

theorem giveBlock (hspan : 2 ^ pool.maxOrder ≤ sizeAdd pool.pages pool.maxOrderWaste) : Merged (giveBlock pool i) ∧
      (Malloc.giveBlock pool i).freePages = sizeAdd pool.freePages (sizeShl (pool.blocks i).order) ∧
      SameOrders held pool (Malloc.giveBlock pool i) := by
  set counted : MemoryPool :=
    { pool with freePages := sizeAdd pool.freePages (sizeShl (pool.blocks i).order) } with hcounted
  have hpc := (hp.setCounts (sizeAdd pool.freePages (sizeShl (pool.blocks i).order))
    pool.maxOrderFree).setType i .free
  have hord : ∀ j, ((counted.setBlock i fun b => { b with type := .free }).blocks j).order =
      (pool.blocks j).order := fun j => counted.setBlock_field i j BuddyBlock.order fun _ => rfl
  have hmc : Merged (counted.setBlock i fun b => { b with type := .free }) :=
    h.congr rfl hord (fun j => counted.setBlock_field i j BuddyBlock.inList fun _ => rfl)
      (fun j => counted.setBlock_field i j BuddyBlock.isWaste fun _ => rfl) h.free_le
  obtain ⟨hm, hf, hrest⟩ := hmc.freeBlock hpc hspan
  exact ⟨hm, hf, fun j hj => (hrest j hj).trans (hord j)⟩

end

end Merged

/-! ## The invariant of a pool -/

/-- The number of pages of the blocks in `held`. -/
def MemoryPool.heldPages (pool : MemoryPool) (held : List ℕ) : ℕ :=
  (held.map fun i => 2 ^ (pool.blocks i).order).sum

theorem SameOrders.heldPages {pool pool' : MemoryPool} {held : List ℕ}
    (h : SameOrders held pool pool') : pool'.heldPages held = pool.heldPages held := by
  unfold MemoryPool.heldPages
  congr 1
  refine map_congr_left fun j hj => ?_
  rw [h j hj]

/-- A pool with block 0 marked as waste, which happens when exactly half of the managed
    pages are usable. All pages of the lower half are marked. -/
structure HalfMarked (pool : MemoryPool) : Prop where
  order_pos : 0 < pool.maxOrder
  maxOrderWaste : pool.maxOrderWaste = 2 ^ (pool.maxOrder - 1)
  lower : ∀ {j}, j < 2 ^ (pool.maxOrder - 1) → (pool.blocks j).isWaste = true

/-- The invariant behind `Coalesced`. -/
structure CoalesceInv (pool : MemoryPool) (held : List ℕ) : Prop where
  inv : PoolInv pool held
  merged : Merged pool
  span : 2 ^ pool.maxOrder ≤ sizeAdd pool.pages pool.maxOrderWaste
  freePages_lt : pool.freePages < 2 ^ 64
  count : (pool.freePages + pool.heldPages held) % 2 ^ 64 = pool.pages
  marked : (pool.blocks 0).isWaste = true → HalfMarked pool ∧ held = [] ∧
    ∀ {i l}, i ∈ pool.lists l → i = 0 ∧ l = .free pool.maxOrder

namespace CoalesceInv

variable {pool : MemoryPool} {held held' : List ℕ} {i k : ℕ}

theorem perm (h : CoalesceInv pool held) (hp : held.Perm held') : CoalesceInv pool held' where
  inv := h.inv.perm hp
  merged := h.merged
  span := h.span
  freePages_lt := h.freePages_lt
  count := by
    have : pool.heldPages held' = pool.heldPages held := (hp.map _).sum_eq.symm
    rw [this]
    exact h.count
  marked := by
    intro hw
    obtain ⟨hhalf, rfl, hlists⟩ := h.marked hw
    exact ⟨hhalf, hp.nil_eq.symm, hlists⟩

theorem only_block (h : CoalesceInv pool []) {l : ListHead} (hi : i ∈ pool.lists l) :
    i = 0 ∧ (pool.blocks i).order = pool.maxOrder := by
  have hlisted : ∀ {j k}, pool.tile [] j = some k →
      (pool.blocks j).inList = true ∧ (pool.blocks j).order = k := by
    intro j k hj
    unfold tile at hj
    split_ifs at hj with hc
    · exact ⟨hc.resolve_right not_mem_nil, Option.some.inj hj⟩
  refine h.inv.tiling.eq_single ?_ (PoolInv.tile_listed (h.inv.inList_iff.mpr ⟨l, hi⟩))
  intro j k hj hb
  obtain ⟨h1, rfl⟩ := hlisted hj
  obtain ⟨h2, heq⟩ := hlisted hb
  exact h.merged.apart h1 h2 heq

/-- A pool without held blocks is as `init_pool` left it. -/
theorem restored (h : CoalesceInv pool []) : pool.Initial := by
  obtain ⟨i, k, hi, -⟩ := h.inv.tiling.cover (Nat.two_pow_pos pool.maxOrder)
  obtain ⟨l, hl⟩ : ∃ l, i ∈ pool.lists l := by
    unfold tile at hi
    split_ifs at hi with hc
    exact h.inv.inList_iff.mp (hc.resolve_right not_mem_nil)
  obtain ⟨rfl, hord⟩ := h.only_block hl
  have hfree : l = .free pool.maxOrder := by
    cases l with
    | free k => rw [← h.inv.free_order hl, hord]
    | waste => cases ((h.marked (h.merged.waste_marked hl)).2.2 hl).2
  subst hfree
  constructor
  · have hall : ∀ j ∈ pool.lists (.free pool.maxOrder), j = 0 := fun j hj => (h.only_block hj).1
    have hnd := h.inv.lists_nodup (.free pool.maxOrder)
    cases hlist : pool.lists (.free pool.maxOrder) with
    | nil => rw [hlist] at hl; cases hl
    | cons a rest =>
      rw [hlist] at hall hnd
      obtain rfl := hall a mem_cons_self
      have hrest : rest = [] := by
        refine eq_nil_iff_forall_not_mem.mpr fun j hj => ?_
        obtain rfl := hall j (mem_cons_of_mem _ hj)
        exact (nodup_cons.mp hnd).1 hj
      rw [hrest]
  · intro l' hne
    refine eq_nil_iff_forall_not_mem.mpr fun j hj => ?_
    obtain ⟨rfl, -⟩ := h.only_block hj
    exact hne (h.inv.list_unique hj hl)
  · exact hord
  · have hcount := h.count
    have := h.freePages_lt
    simp only [MemoryPool.heldPages, map_nil, sum_nil, Nat.add_zero] at hcount
    omega

theorem coalesced (h : CoalesceInv pool held) : Coalesced pool held where
  apart := fun _ h1 h2 => h.merged.apart (h.inv.inList_iff.mpr h1) (h.inv.inList_iff.mpr h2)
  free_le := by
    intro k hne
    obtain ⟨j, hj⟩ := exists_mem_of_ne_nil _ hne
    exact h.merged.free_le hj
  restored := by
    rintro rfl
    exact h.restored

section

variable (h : CoalesceInv pool held) {size : ℕ} (hsize : size + (pageSize - 1) < 2 ^ 64)
  (hpos : size ≠ 0)
  (hfind : poolFindBlock pool (getOrder (requestPages size)) (requestPages size) = some i)
  (hc : ¬ (getOrder (requestPages size) = pool.maxOrder ∧
    size > uintSub (uintShl (getOrder (requestPages size))) pool.maxOrderWaste))

include h hsize hpos hfind hc

/-- Requests that do not wrap are refused by a pool with block 0 marked. -/
theorem not_marked : (pool.blocks 0).isWaste = false := by
  rw [← Bool.not_eq_true]
  intro hw
  obtain ⟨hhalf, -, hlists⟩ := h.marked hw
  obtain ⟨k, hle, -, hmem, hlast⟩ := poolFindBlock_some hfind
  obtain ⟨rfl, hk⟩ := hlists hmem
  cases hk
  have hreq := requestPages_eq hsize
  have h63 : requestPages size ≤ 2 ^ 63 := by
    unfold pageSize at hsize
    omega
  have hmax := h.inv.maxOrder_le
  obtain ⟨n, hn⟩ : ∃ n, pool.maxOrder = n + 1 := ⟨pool.maxOrder - 1, by have := hhalf.order_pos; omega⟩
  have hpow : 2 ^ pool.maxOrder = 2 * 2 ^ n := by rw [hn]; ring
  have hwaste : pool.maxOrderWaste = 2 ^ n := by rw [hhalf.maxOrderWaste, hn]; rfl
  have hlower : ∀ {j}, j < 2 ^ n → (pool.blocks j).isWaste = true := by
    intro j hj
    exact hhalf.lower (by rw [hn]; exact hj)
  have hbound : 2 ^ pool.maxOrder ≤ 2 ^ 30 := Nat.pow_le_pow_right (by norm_num) hmax
  -- a request for more than the lower half is refused for its size, any other one meets a mark
  by_cases hbig : 2 ^ n < requestPages size
  · have horder : getOrder (requestPages size) = pool.maxOrder := by
      refine le_antisymm hle ?_
      rw [hn]
      by_contra hlt
      have := (getOrder_le_iff h63).mp (show getOrder (requestPages size) ≤ n by omega)
      omega
    refine hc ⟨horder, ?_⟩
    rw [horder, uintShl_eq hmax, hwaste, uintSub_eq (by omega) (by omega)]
    omega
  · have hidx : sizeSub (sizeAdd 0 (requestPages size)) 1 = requestPages size - 1 := by
      rw [sizeAdd_eq (by omega), sizeSub_eq (by omega) (by omega)]
      omega
    rw [hidx, hlower (by omega)] at hlast
    cases hlast

theorem take {type : BlockType} :
    CoalesceInv (takeBlock pool i (getOrder (requestPages size)) type) (i :: held) := by
  have hclean := h.not_marked hsize hpos hfind hc
  obtain ⟨k, hk, hkM, hmem, -⟩ := poolFindBlock_some hfind
  generalize getOrder (requestPages size) = a at hk
  have hshape : SameShape pool (takeBlock pool i a type) := SameShape.takeBlock i a type
  obtain ⟨hinv, hord⟩ := h.inv.takeBlock (t := type) hmem hk
  obtain ⟨hm, hfree, horders⟩ := h.merged.takeBlock (t := type) h.inv hmem hk
  have ha : a ≤ 30 := hk.trans (hkM.trans h.inv.maxOrder_le)
  have hcount := h.count
  constructor
  · exact hinv
  · exact hm
  · rw [hshape.maxOrder, hshape.pages, hshape.maxOrderWaste]
    exact h.span
  · rw [hfree]
    exact sizeSub_lt _ _
  · have hsum : (takeBlock pool i a type).heldPages (i :: held) = 2 ^ a + pool.heldPages held := by
      rw [← horders.heldPages]
      simp only [MemoryPool.heldPages, map_cons, sum_cons, hord]
    have hlt : 2 ^ a ≤ 2 ^ 30 := Nat.pow_le_pow_right (by norm_num) ha
    rw [hfree, hsum, hshape.pages, sizeShl_eq ha, ← hcount, sizeSub]
    omega
  · rw [hshape.isWaste, hclean]
    nofun

end

theorem give (h : CoalesceInv pool (i :: held)) : CoalesceInv (giveBlock pool i) held := by
  have hshape : SameShape pool (giveBlock pool i) := SameShape.giveBlock i
  obtain ⟨hm, hfree, horders⟩ := h.merged.giveBlock h.inv h.span
  have ho : (pool.blocks i).order ≤ 30 :=
    (h.inv.order_le_of_held mem_cons_self).trans h.inv.maxOrder_le
  have hcount := h.count
  constructor
  · exact h.inv.giveBlock
  · exact hm
  · rw [hshape.maxOrder, hshape.pages, hshape.maxOrderWaste]
    exact h.span
  · rw [hfree]
    exact sizeAdd_lt _ _
  · have hsum : pool.heldPages (i :: held) = 2 ^ (pool.blocks i).order + pool.heldPages held := by
      simp only [MemoryPool.heldPages, map_cons, sum_cons]
    rw [hfree, horders.heldPages, hshape.pages, sizeShl_eq ho, ← hcount, hsum, sizeAdd]
    omega
  · rw [hshape.isWaste]
    intro hw
    cases (h.marked hw).2.1

end CoalesceInv

/-! ## A fresh pool -/

/-- The usable pages are at most all pages, unless the metadata does not fit into the
    range and their number wraps. -/
theorem poolPages_cases {memStart memEnd : ℕ} (hle : memStart ≤ memEnd) (hend : memEnd < 2 ^ 64)
    (hT : totalPages memStart memEnd ≤ 2 ^ 30) (hstart : memStart + 2 * pageSize ≤ 2 ^ 64) :
    poolPages memStart memEnd ≤ totalPages memStart memEnd ∨
      2 ^ 33 ≤ poolPages memStart memEnd ∧ poolPages memStart memEnd < 2 ^ 52 := by
  have horder : getOrder (totalPages memStart memEnd) ≤ 30 :=
    (getOrder_le_iff (hT.trans (by norm_num))).mpr hT
  have hS := poolPagesStart_eq hend hstart
  have hmeta := metadata_lt hend hstart
  have hT' : totalPages memStart memEnd = (memEnd - memStart) / 4096 := rfl
  have hE : poolPagesEnd memEnd = memEnd / 4096 * 4096 := rfl
  unfold poolPages
  generalize getOrder (totalPages memStart memEnd) = orders at *
  generalize poolPagesStart memStart memEnd = S at *
  generalize poolPagesEnd memEnd = E at *
  generalize totalPages memStart memEnd = total at *
  unfold pageSize at hstart ⊢
  by_cases hfit : S ≤ E
  · left
    rw [sizeSub_eq hfit (by omega)]
    omega
  · right
    rw [sizeSub, Nat.mod_eq_of_lt (show S < 2 ^ 64 by omega), Nat.mod_eq_of_lt (by omega)]
    omega

theorem newPool_coalesceInv {memStart memEnd : ℕ} (flags : ℕ) (hle : memStart ≤ memEnd)
    (hend : memEnd < 2 ^ 64) (hT : totalPages memStart memEnd ≤ 2 ^ 30)
    (hstart : memStart + 2 * pageSize ≤ 2 ^ 64) :
    CoalesceInv (newPool memStart memEnd flags) [] := by
  have hcases := poolPages_cases hle hend hT hstart
  have h63 : totalPages memStart memEnd ≤ 2 ^ 63 := hT.trans (by norm_num)
  have horder : getOrder (totalPages memStart memEnd) ≤ 30 := (getOrder_le_iff h63).mpr hT
  have htotal := le_two_pow_getOrder h63
  have hbound : 2 ^ getOrder (totalPages memStart memEnd) ≤ 2 ^ 30 :=
    Nat.pow_le_pow_right (by norm_num) horder
  have hlow : ∀ {n}, getOrder (totalPages memStart memEnd) = n + 1 →
      2 ^ n < totalPages memStart memEnd := fun hn => lt_of_getOrder_eq_succ h63 hn
  have hinv := newPool_inv flags horder
  have hwaste : poolMaxOrderWaste memStart memEnd =
      (2 ^ getOrder (totalPages memStart memEnd) + (2 ^ 64 - poolPages memStart memEnd)) %
        2 ^ 64 % 2 ^ 32 := by
    unfold poolMaxOrderWaste
    rw [sizeShl_eq horder, sizeSub,
      Nat.mod_eq_of_lt (show poolPages memStart memEnd < 2 ^ 64 by omega)]
  rw [newPool_eq] at hinv ⊢
  generalize totalPages memStart memEnd = total at *
  generalize getOrder total = orders at *
  generalize poolPages memStart memEnd = pages at *
  generalize poolMaxOrderWaste memStart memEnd = waste at *
  constructor
  · exact hinv
  · constructor
    · intro i h1 h2
      rw [decide_eq_true_eq] at h1 h2
      subst h1
      rw [Nat.zero_xor] at h2
      exact absurd h2 (Nat.two_pow_pos _).ne'
    · intro k i hi
      dsimp only at hi ⊢
      split_ifs at hi with hk
      · cases hk
        exact le_rfl
      · cases hi
    · intro i hi
      simp at hi
  · dsimp only
    rw [sizeAdd]
    omega
  · dsimp only
    omega
  · simp only [MemoryPool.heldPages, map_nil, sum_nil, Nat.add_zero]
    omega
  · intro hw
    rw [decide_eq_true_eq] at hw
    refine ⟨?_, rfl, ?_⟩
    · -- the marks start at page 0, so that exactly half of the pages are usable
      have hhalf : 2 * pages = 2 ^ orders ∧ waste = pages := by
        have := hw.1
        rw [sizeSub] at this
        omega
      obtain ⟨n, rfl⟩ : ∃ n, orders = n + 1 := by
        refine Nat.exists_eq_succ_of_ne_zero ?_
        rintro rfl
        omega
      have hpow : 2 ^ (n + 1) = 2 * 2 ^ n := by ring
      have hn := hlow rfl
      refine ⟨Nat.succ_pos n, ?_, ?_⟩
      · dsimp only
        rw [Nat.add_sub_cancel]
        omega
      · intro j hj
        dsimp only at hj ⊢
        rw [Nat.add_sub_cancel] at hj
        rw [decide_eq_true_eq]
        exact ⟨hw.1.trans (Nat.zero_le j), by omega⟩
    · intro i l hi
      dsimp only at hi ⊢
      split_ifs at hi with hl
      · exact ⟨mem_singleton.mp hi, hl⟩
      · cases hi

/-! ## Runs -/

/-- The calls for which freed blocks coalesce: ranges and deallocations as in
    `OwnPageCall`, and the size of a request can be rounded up to pages. -/
def CoalesceCall (s : BuddyState) : BuddyOp → Prop
  | .initPool memStart memEnd flags => OwnPageCall s (.initPool memStart memEnd flags)
  | .allocate size _ => size + (pageSize - 1) < 2 ^ 64
  | .deallocate p i => OwnPageCall s (.deallocate p i)

theorem CoalesceCall.ownPageCall {s : BuddyState} {o : BuddyOp} (h : CoalesceCall s o) : OwnPageCall s o := by
  cases o with
  | initPool memStart memEnd flags => exact h
  | allocate size type => trivial
  | deallocate p i => exact h

theorem CoalesceInv.step {s : BuddyState} {o : BuddyOp} {pool pool' : MemoryPool}
    {held held' : List ℕ} (h : CoalesceInv pool held) (hok : CoalesceCall s o)
    (hst : PoolStep o pool held pool' held') : CoalesceInv pool' held' := by
  cases hst with
  | kept hperm => exact h.perm hperm
  | taken hpos hfind hc => exact h.take hok hpos hfind hc
  | given hperm => exact (h.perm hperm).give

/-- The invariant of all pools. -/
structure HeapCoalesced (s : BuddyState) : Prop where
  inv : HeapInv s
  pool : ∀ {p}, p < s.heap.memoryPoolNum →
    CoalesceInv (s.heap.memoryPools p) (heldIn s.live p)

theorem HeapCoalesced.step {s t : BuddyState} {o : BuddyOp} (h : HeapCoalesced s)
    (hok : CoalesceCall s o) (hst : buddyStep s o = some t) : HeapCoalesced t where
  inv := h.inv.step hok.ownPageCall hst
  pool := by
    intro q hq
    rcases buddyStep_cases h.inv hok.ownPageCall hst hq with
      ⟨hq', hcase⟩ | ⟨memStart, memEnd, flags, rfl, -, hpool, hheld⟩
    · exact (h.pool hq').step hok hcase
    · obtain ⟨⟨hle, hend, -⟩, hT, hstart⟩ := hok
      rw [hpool, hheld]
      exact newPool_coalesceInv flags hle hend hT hstart

theorem heapCoalesced_run {ops : List BuddyOp} {s : BuddyState}
    (h : Run buddyStep CoalesceCall {} ops s) : HeapCoalesced s :=
  h.invariant HeapCoalesced.step ⟨HeapInv.init, fun hp => absurd hp (Nat.not_lt_zero _)⟩

/-- After every run whose deallocated blocks start at usable pages of their pools, every
    pool is fully coalesced. -/
theorem buddy_coalesced {ops : List BuddyOp} {s : BuddyState}
    (hrun : Run buddyStep CoalesceCall {} ops s) {p : ℕ} (hp : p < s.heap.memoryPoolNum) :
    Coalesced (s.heap.memoryPools p) (heldIn s.live p) := ((heapCoalesced_run hrun).pool hp).coalesced

/-- A pool of 64 pages after two blocks have been allocated and freed in the order of
    their allocation. -/
theorem buddy_coalesced_pool64 : ∃ ops s, Run buddyStep CoalesceCall {} ops s ∧
    ops.length = 5 ∧ 0 < s.heap.memoryPoolNum ∧ (s.heap.memoryPools 0).Initial := by
  have hrun : Run buddyStep CoalesceCall {}
      [.initPool 409600 671744 0, .allocate 12288 .page, .allocate 4096 .page,
        .deallocate 0 0, .deallocate 0 4] _ :=
    .cons ⟨⟨by decide, by decide, by decide⟩, by decide, by decide⟩ rfl <|
    .cons (show _ < _ by decide) rfl <| .cons (show _ < _ by decide) rfl <|
    .cons_get ⟨show (0, 0) ∈ _ by decide, show _ ∧ _ by decide⟩
      (by decide) <|
    .cons_get ⟨show (0, 4) ∈ _ by decide, show _ ∧ _ by decide⟩
      (by decide) <| .nil _
  exact ⟨_, _, hrun, rfl, by decide,
    (buddy_coalesced hrun (p := 0) (by decide)).restored (by decide)⟩

/-- A pool of 257 pages, none of them marked as waste, and a pool of 33 pages behind it. The
    second allocation is served with block 256 of the first pool, which lies in the second
    one. When both blocks have been freed, the first pool lacks a free page. -/
theorem buddy_not_coalesced : ¬ ∀ (ops : List BuddyOp) (s : BuddyState),
    Run buddyStep ValidCall {} ops s → ∀ p < s.heap.memoryPoolNum,
      Coalesced (s.heap.memoryPools p) (heldIn s.live p) := by
  intro hall
  have hrun : Run buddyStep ValidCall {}
      [.initPool 409600 1462272 0, .initPool 1462272 1597440 0, .allocate 1040384 .page,
        .allocate 4096 .page, .deallocate 0 256, .deallocate 0 0] _ :=
    .cons ⟨by decide, by decide, by decide⟩ rfl <|
    .cons ⟨by decide, by decide, by decide⟩ rfl <|
    .cons trivial rfl <| .cons trivial rfl <|
    .cons_get (show (0, 256) ∈ _ by decide) (by decide) <|
    .cons_get (show (0, 0) ∈ _ by decide) (by decide) <| .nil _
  have hpool := hall _ _ hrun 0 (by decide)
  exact absurd (hpool.restored (by decide)).freePages (by decide)

end BadgerOS.Malloc

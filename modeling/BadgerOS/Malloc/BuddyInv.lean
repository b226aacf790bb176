import BadgerOS.Lib.Dyadic
import BadgerOS.Lib.Run
import BadgerOS.Malloc.Buddy

/-!
# The blocks of a pool

The invariant of one pool of the buddy allocator. `held` lists the blocks that
are on no list: the allocated ones and, inside an operation, the block in hand.
Listed and held blocks together are a dyadic tiling of `[0, 2^max_order)`.

* `PoolInv`: the invariant.
* `PoolInv.remove`, `PoolInv.push`, `PoolInv.splitBlock`, `PoolInv.tryMergeBuddy`:
  one lemma for each list operation, for splitting and for merging.
* `PoolInv.takeBlock`, `PoolInv.giveBlock`, `newPool_inv`: what `buddy_allocate`,
  `buddy_deallocate` and `init_pool` do to a pool.
* `freeLoop_done`: the merge loop of `free_block` ends because no buddy is left
  to merge with.
-/

namespace BadgerOS.Malloc

open Function List MemoryPool

open Dyadic (Tiling)

/-! ## Field lemmas -/

namespace MemoryPool

variable (pool : MemoryPool) (i j : ℕ) (f : BuddyBlock → BuddyBlock)

theorem setBlock_blocks :
    (pool.setBlock i f).blocks j = if j = i then f (pool.blocks i) else pool.blocks j := by
  by_cases h : j = i
  · subst h; simp [setBlock]
  · simp [setBlock, h]

@[simp] theorem setBlock_self : (pool.setBlock i f).blocks i = f (pool.blocks i) := by
  rw [setBlock_blocks, if_pos rfl]

theorem setBlock_congr {i : ℕ} {f g : BuddyBlock → BuddyBlock}
    (h : f (pool.blocks i) = g (pool.blocks i)) : pool.setBlock i f = pool.setBlock i g := by
  simp [setBlock, h]

theorem setBlock_of_ne {i j : ℕ} (h : j ≠ i) : (pool.setBlock i f).blocks j = pool.blocks j := by
  rw [setBlock_blocks, if_neg h]

/-- The change leaves a field alone. -/
theorem setBlock_field {β : Type*} (g : BuddyBlock → β) {f : BuddyBlock → BuddyBlock}
    (hf : ∀ b, g (f b) = g b) : g ((pool.setBlock i f).blocks j) = g (pool.blocks j) := by
  rw [setBlock_blocks]
  split_ifs with h
  · rw [hf, h]
  · rfl

end MemoryPool

theorem listRemove_blocks (pool : MemoryPool) (i j : ℕ) : (listRemove pool i).blocks j =
    if j = i then { pool.blocks i with inList := false } else pool.blocks j :=
  pool.setBlock_blocks i j fun b => { b with inList := false }

theorem listPushBack_blocks (pool : MemoryPool) (l : ListHead) (i j : ℕ) :
    (listPushBack pool l i).blocks j =
      if j = i then { pool.blocks i with inList := true } else pool.blocks j :=
  pool.setBlock_blocks i j fun b => { b with inList := true }

theorem mem_listPushBack {pool : MemoryPool} {l l' : ListHead} {i j : ℕ} :
    j ∈ (listPushBack pool l i).lists l' ↔ (l' = l ∧ j = i) ∨ j ∈ pool.lists l' := by
  by_cases h : l' = l
  · subst h; simp [listPushBack]
  · simp [listPushBack, h]

/-! ## The loops -/

/-- What every merge keeps, the merge loop keeps. -/
theorem freeLoop_induct {P : MemoryPool → ℕ → Prop}
    (hstep : ∀ {pool pool' i m}, P pool i → tryMergeBuddy pool i = some (pool', m) → P pool' m) :
    ∀ (n : ℕ) {pool : MemoryPool} {i : ℕ}, P pool i →
      P (freeLoop n pool i).1 (freeLoop n pool i).2 := by
  intro n
  induction n with
  | zero => exact fun h => h
  | succ n ih =>
    intro pool i h
    rw [freeLoop]
    cases hm : tryMergeBuddy pool i with
    | none => exact h
    | some r => exact ih (hstep h hm)

/-- What every split keeps, the split loop keeps. -/
theorem splitLoop_induct {a i : ℕ} {P : ℕ → MemoryPool → Prop}
    (hstep : ∀ {n pool}, P (n + 1) pool → P n (splitBlock pool i)) :
    ∀ {n : ℕ} {pool : MemoryPool}, P n pool → ∃ m, P m (splitLoop a n pool i) := by
  intro n
  induction n with
  | zero => exact fun h => ⟨0, h⟩
  | succ n ih =>
    intro pool h
    rw [splitLoop]
    split_ifs
    · exact ih (hstep h)
    · exact ⟨n + 1, h⟩

/-! ## The invariant -/

/-- The blocks of `pool` as a partial map from first pages to orders. -/
def MemoryPool.tile (pool : MemoryPool) (held : List ℕ) (i : ℕ) : Option ℕ :=
  if (pool.blocks i).inList = true ∨ i ∈ held then some (pool.blocks i).order else none

/-- The invariant of a pool whose unlisted blocks are `held`. -/
structure PoolInv (pool : MemoryPool) (held : List ℕ) : Prop where
  maxOrder_le : pool.maxOrder ≤ 30
  tiling : Tiling pool.maxOrder (pool.tile held)
  free_order : ∀ {k i}, i ∈ pool.lists (.free k) → (pool.blocks i).order = k
  inList_iff : ∀ {i}, (pool.blocks i).inList = true ↔ ∃ l, i ∈ pool.lists l
  list_unique : ∀ {i l l'}, i ∈ pool.lists l → i ∈ pool.lists l' → l = l'
  lists_nodup : ∀ l, (pool.lists l).Nodup
  held_nodup : held.Nodup
  held_unlisted : ∀ {i}, i ∈ held → (pool.blocks i).inList = false

namespace PoolInv

variable {pool pool' : MemoryPool} {held held' : List ℕ} {i k : ℕ}

theorem tile_held (hi : i ∈ held) : pool.tile held i = some (pool.blocks i).order := by
  simp [tile, hi]

theorem tile_listed (hi : (pool.blocks i).inList = true) :
    pool.tile held i = some (pool.blocks i).order := by
  simp [tile, hi]

section

variable (h : PoolInv pool held)

include h

theorem order_le_of_held (hi : i ∈ held) : (pool.blocks i).order ≤ pool.maxOrder :=
  h.tiling.order_le (tile_held hi)

section

variable (hmax : pool'.maxOrder = pool.maxOrder) (hlists : pool'.lists = pool.lists)
  (hin : ∀ i, (pool'.blocks i).inList = (pool.blocks i).inList)

include hmax hlists hin

/-- The lists and the orders of their blocks stay, and the blocks in hand change. -/
theorem retile
      (horder : ∀ {i}, (pool.blocks i).inList = true → (pool'.blocks i).order = (pool.blocks i).order)
    (htiling : Tiling pool.maxOrder (pool'.tile held')) (hnodup : held'.Nodup)
    (hheld : ∀ {i}, i ∈ held' → (pool.blocks i).inList = false) : PoolInv pool' held' where
  maxOrder_le := hmax ▸ h.maxOrder_le
  tiling := hmax ▸ htiling
  free_order := by
    intro k i hi
    rw [hlists] at hi
    rw [horder (h.inList_iff.mpr ⟨_, hi⟩), h.free_order hi]
  inList_iff := by intro i; rw [hin, hlists]; exact h.inList_iff
  list_unique := by intro i l l' h1 h2; rw [hlists] at h1 h2; exact h.list_unique h1 h2
  lists_nodup := by intro l; rw [hlists]; exact h.lists_nodup l
  held_nodup := hnodup
  held_unlisted := by intro i hi; rw [hin]; exact hheld hi

/-- The invariant only reads orders, list membership and `max_order`. -/
theorem congr (horder : ∀ i, (pool'.blocks i).order = (pool.blocks i).order) :
    PoolInv pool' held := by
  refine h.retile hmax hlists hin (fun _ => horder _) (h.tiling.congr (funext fun j => ?_))
    h.held_nodup h.held_unlisted
  simp only [tile, horder, hin]

end

theorem setCounts (free maxFree : ℕ) :
    PoolInv { pool with freePages := free, maxOrderFree := maxFree } held :=
  h.congr rfl rfl (fun _ => rfl) (fun _ => rfl)

/-- The order in which the held blocks are listed does not matter. -/
theorem perm (hp : held.Perm held') : PoolInv pool held' := by
  refine h.retile rfl rfl (fun _ => rfl) (fun _ => rfl) (h.tiling.congr (funext fun j => ?_))
    (hp.nodup_iff.mp h.held_nodup) fun hi => h.held_unlisted (hp.mem_iff.mpr hi)
  simp only [tile, hp.mem_iff]

theorem remove (hi : (pool.blocks i).inList = true) : PoolInv (listRemove pool i) (i :: held) := by
  have hblk : ∀ {j}, j ≠ i → (listRemove pool i).blocks j = pool.blocks j := by
    intro j hj
    rw [listRemove_blocks, if_neg hj]
  have hself : (listRemove pool i).blocks i = { pool.blocks i with inList := false } := by
    rw [listRemove_blocks, if_pos rfl]
  have hmem : ∀ {j l}, j ∈ (listRemove pool i).lists l ↔ j ≠ i ∧ j ∈ pool.lists l := by
    intro j l
    exact (h.lists_nodup l).mem_erase_iff
  constructor
  · exact h.maxOrder_le
  · have : (listRemove pool i).tile (i :: held) = pool.tile held := by
      funext j
      by_cases hj : j = i
      · subst hj; simp [tile, hself, hi]
      · simp [tile, hblk hj, hj]
    rw [this]
    exact h.tiling
  · intro k j hj
    obtain ⟨hne, hj⟩ := hmem.mp hj
    rw [hblk hne]
    exact h.free_order hj
  · intro j
    by_cases hj : j = i
    · subst hj; simp [hself, hmem]
    · simp [hblk hj, hmem, hj, h.inList_iff]
  · intro j l l' h1 h2
    exact h.list_unique (hmem.mp h1).2 (hmem.mp h2).2
  · intro l
    exact (h.lists_nodup l).erase i
  · refine nodup_cons.mpr ⟨fun hheld => ?_, h.held_nodup⟩
    rw [h.held_unlisted hheld] at hi
    cases hi
  · intro j hj
    by_cases hji : j = i
    · subst hji; simp [hself]
    · rw [hblk hji]
      exact h.held_unlisted (by simpa [hji] using hj)

end

theorem push (h : PoolInv pool (i :: held)) {l : ListHead}
    (hl : l = .free (pool.blocks i).order ∨ l = .waste) : PoolInv (listPushBack pool l i) held := by
  obtain ⟨hnot, hnd⟩ := nodup_cons.mp h.held_nodup
  have hunl : ∀ l', i ∉ pool.lists l' := by
    intro l' hl'
    have := h.inList_iff.mpr ⟨l', hl'⟩
    rw [h.held_unlisted mem_cons_self] at this
    cases this
  have hblk : ∀ {j}, j ≠ i → (listPushBack pool l i).blocks j = pool.blocks j := by
    intro j hj
    rw [listPushBack_blocks, if_neg hj]
  have hself : (listPushBack pool l i).blocks i = { pool.blocks i with inList := true } := by
    rw [listPushBack_blocks, if_pos rfl]
  constructor
  · exact h.maxOrder_le
  · have : (listPushBack pool l i).tile held = pool.tile (i :: held) := by
      funext j
      by_cases hj : j = i
      · subst hj; simp [tile, hself]
      · simp [tile, hblk hj, hj]
    rw [this]
    exact h.tiling
  · intro k j hj
    rcases mem_listPushBack.mp hj with ⟨hll, rfl⟩ | hold
    · rw [hself]
      rcases hl with rfl | rfl
      · cases hll; rfl
      · cases hll
    · rw [hblk (by rintro rfl; exact hunl _ hold)]
      exact h.free_order hold
  · intro j
    by_cases hj : j = i
    · subst hj
      simp only [hself, true_iff]
      exact ⟨l, mem_listPushBack.mpr (.inl ⟨rfl, rfl⟩)⟩
    · simp [hblk hj, mem_listPushBack, hj, h.inList_iff]
  · intro j l1 l2 h1 h2
    rcases mem_listPushBack.mp h1 with ⟨e1, j1⟩ | o1 <;>
      rcases mem_listPushBack.mp h2 with ⟨e2, j2⟩ | o2
    · exact e1.trans e2.symm
    · exact absurd (j1 ▸ o2) (hunl _)
    · exact absurd (j2 ▸ o1) (hunl _)
    · exact h.list_unique o1 o2
  · intro l'
    by_cases hll : l' = l
    · subst hll
      simpa [listPushBack] using ⟨hunl l', h.lists_nodup l'⟩
    · simpa [listPushBack, hll] using h.lists_nodup l'
  · exact hnd
  · intro j hj
    rw [hblk (by rintro rfl; exact hnot hj)]
    exact h.held_unlisted (mem_cons_of_mem _ hj)

/-! ## Splitting -/

section

variable (h : PoolInv pool (i :: held)) (hk : (pool.blocks i).order = k + 1)

include h hk

/-- The block in hand loses an order and its right half comes into hand. -/
theorem halve : PoolInv ((pool.setBlock i fun b => { b with order := k }).setBlock (i + 2 ^ k)
      fun b => { b with order := k }) ((i + 2 ^ k) :: i :: held) := by
  have hpos := Nat.two_pow_pos k
  have hpow : 2 ^ (k + 1) = 2 ^ k + 2 ^ k := by ring
  have htile : pool.tile (i :: held) i = some (k + 1) := by
    rw [tile_held mem_cons_self, hk]
  -- the right half is no block of its own yet
  have hmid : pool.tile (i :: held) (i + 2 ^ k) = none :=
    h.tiling.none_inside htile (by omega) (by omega)
  obtain ⟨hmidIn, hmidHeld⟩ : (pool.blocks (i + 2 ^ k)).inList = false ∧
      i + 2 ^ k ∉ i :: held := by
    have := hmid
    unfold tile at this
    split_ifs at this with hc
    simp only [not_or, Bool.not_eq_true] at hc
    exact hc
  set pool' := (pool.setBlock i fun b => { b with order := k }).setBlock (i + 2 ^ k)
    fun b => { b with order := k } with hpool'
  have hin : ∀ j, (pool'.blocks j).inList = (pool.blocks j).inList := by
    intro j
    simp only [hpool', setBlock_blocks]
    split_ifs <;> simp_all
  have hord : ∀ j, (pool'.blocks j).order =
      if j = i ∨ j = i + 2 ^ k then k else (pool.blocks j).order := by
    intro j
    simp only [hpool', setBlock_blocks]
    split_ifs <;> simp_all
  refine h.retile rfl rfl hin ?_ ?_ (nodup_cons.mpr ⟨hmidHeld, h.held_nodup⟩) ?_
  · intro j hj
    rw [hord, if_neg]
    rintro (rfl | rfl)
    · rw [h.held_unlisted mem_cons_self] at hj; cases hj
    · rw [hmidIn] at hj; cases hj
  · refine (h.tiling.split htile).congr (funext fun j => ?_)
    by_cases h1 : j = i + 2 ^ k
    · subst h1
      simp [tile, hord]
    · by_cases h2 : j = i
      · subst h2
        rw [update_of_ne h1]
        simp [tile, hord]
      · rw [update_of_ne h1, update_of_ne h2]
        simp [tile, hord, hin, h1, h2]
  · intro j hj
    rcases mem_cons.mp hj with rfl | hj
    · exact hmidIn
    · exact h.held_unlisted hj

/-- `split_block`, read through `halve`: with a block of order `k + 1` in hand the
    new block is its right half. -/
theorem splitBlock_eq : splitBlock pool i =
      let half := (pool.setBlock i fun b => { b with order := k }).setBlock (i + 2 ^ k)
        fun b => { b with order := k }
      listPushBack half
        (if (pool.blocks (i + 2 ^ k)).isWaste = true then .waste else .free k) (i + 2 ^ k) := by
  have hle := h.order_le_of_held mem_cons_self
  have hmax := h.maxOrder_le
  have hpos := Nat.two_pow_pos k
  have horder : ((pool.blocks i).order + 255) % 256 = k := by omega
  have hal : 2 ^ (k + 1) ∣ i := by
    have htile : pool.tile (i :: held) i = some (pool.blocks i).order := tile_held mem_cons_self
    rw [hk] at htile
    exact h.tiling.aligned htile
  have hxor : i ^^^ 2 ^ k = i + 2 ^ k := Dyadic.xor_two_pow_of_dvd hal
  unfold Malloc.splitBlock
  simp only [horder, sizeShl_eq (show k ≤ 30 by omega), hxor]
  have hw : (((pool.setBlock i fun b => { b with order := k }).setBlock (i + 2 ^ k)
      fun b => { b with order := k }).blocks (i + 2 ^ k)).isWaste =
        (pool.blocks (i + 2 ^ k)).isWaste := by
    rw [setBlock_self, setBlock_of_ne _ _ (by omega)]
  rw [hw]
  cases (pool.blocks (i + 2 ^ k)).isWaste <;> rfl

theorem splitBlock : PoolInv (splitBlock pool i) (i :: held) ∧
      ((Malloc.splitBlock pool i).blocks i).order = k := by
  have hpos := Nat.two_pow_pos k
  rw [h.splitBlock_eq hk]
  refine ⟨(h.halve hk).push ?_, ?_⟩
  · rw [setBlock_self]
    split_ifs
    · exact .inr rfl
    · exact .inl rfl
  · simp only
    rw [listPushBack_blocks, if_neg (by omega), setBlock_of_ne _ _ (by omega),
      setBlock_self]

end

theorem splitLoop {a : ℕ} : ∀ {n : ℕ} {pool : MemoryPool}, PoolInv pool (i :: held) →
    (pool.blocks i).order = n → a ≤ n →
      PoolInv (splitLoop a n pool i) (i :: held) ∧
        ((Malloc.splitLoop a n pool i).blocks i).order = a := by
  intro n
  induction n with
  | zero =>
    intro pool h ho ha
    exact ⟨h, by rw [Malloc.splitLoop]; omega⟩
  | succ n ih =>
    intro pool h ho ha
    rw [Malloc.splitLoop]
    split_ifs with hgt
    · obtain ⟨h', ho'⟩ := h.splitBlock ho
      exact ih h' ho' (by omega)
    · exact ⟨h, by omega⟩

/-! ## Merging -/

theorem fuse (h : PoolInv pool ((i ^^^ 2 ^ k) :: i :: held)) (hi : (pool.blocks i).order = k)
    (hb : (pool.blocks (i ^^^ 2 ^ k)).order = k) :
    PoolInv (pool.setBlock (min i (i ^^^ 2 ^ k)) fun b => { b with order := k + 1 })
      (min i (i ^^^ 2 ^ k) :: held) := by
  set b := i ^^^ 2 ^ k with hbdef
  have hne : b ≠ i := Dyadic.xor_two_pow_ne i k
  obtain ⟨hb1, hnd⟩ := nodup_cons.mp h.held_nodup
  obtain ⟨hi1, hnd⟩ := nodup_cons.mp hnd
  have hb2 : b ∉ held := fun hm => hb1 (mem_cons_of_mem _ hm)
  have hti : pool.tile (b :: i :: held) i = some k := by rw [tile_held (by simp), hi]
  have htb : pool.tile (b :: i :: held) b = some k := by rw [tile_held (by simp), hb]
  have hui : (pool.blocks i).inList = false := h.held_unlisted (by simp)
  have hub : (pool.blocks b).inList = false := h.held_unlisted (by simp)
  -- `m` is the block that stays and `x` the one that is swallowed
  obtain ⟨m, x, hm, hx, hmx⟩ : ∃ m x, min i b = m ∧ max i b = x ∧
      ((m = i ∧ x = b) ∨ (m = b ∧ x = i)) := by
    rcases le_total i b with hle | hle
    · exact ⟨i, b, min_eq_left hle, max_eq_right hle, .inl ⟨rfl, rfl⟩⟩
    · exact ⟨b, i, min_eq_right hle, max_eq_left hle, .inr ⟨rfl, rfl⟩⟩
  have hxm : x ≠ m := by rcases hmx with ⟨rfl, rfl⟩ | ⟨rfl, rfl⟩ <;> [exact hne; exact hne.symm]
  have hum : (pool.blocks m).inList = false := by rcases hmx with ⟨rfl, -⟩ | ⟨rfl, -⟩ <;> assumption
  have hux : (pool.blocks x).inList = false := by rcases hmx with ⟨-, rfl⟩ | ⟨-, rfl⟩ <;> assumption
  have hmh : m ∉ held := by rcases hmx with ⟨rfl, -⟩ | ⟨rfl, -⟩ <;> assumption
  have hxh : x ∉ held := by rcases hmx with ⟨-, rfl⟩ | ⟨-, rfl⟩ <;> assumption
  have hmem : ∀ {j}, j ≠ m → j ≠ x → (j ∈ b :: i :: held ↔ j ∈ held) := by
    intro j h1 h2
    rcases hmx with ⟨rfl, rfl⟩ | ⟨rfl, rfl⟩ <;> simp [h1, h2]
  have htiling := h.tiling.merge hti htb
  rw [← hbdef, hm, hx] at htiling
  rw [hm]
  have hblk : ∀ {j}, j ≠ m → (pool.setBlock m fun b => { b with order := k + 1 }).blocks j =
      pool.blocks j := fun hj => pool.setBlock_of_ne _ hj
  have hin : ∀ j, ((pool.setBlock m fun b => { b with order := k + 1 }).blocks j).inList =
      (pool.blocks j).inList := fun j => pool.setBlock_field m j BuddyBlock.inList fun _ => rfl
  refine h.retile rfl rfl hin ?_ ?_ (nodup_cons.mpr ⟨hmh, hnd⟩) ?_
  · intro j hj
    rw [hblk]
    rintro rfl
    rw [hum] at hj
    cases hj
  · refine htiling.congr (funext fun j => ?_)
    by_cases h1 : j = m
    · subst h1
      simp [tile]
    · rw [update_of_ne h1]
      by_cases h2 : j = x
      · subst h2
        simp [tile, hblk h1, hux, hxh, h1]
      · rw [update_of_ne h2]
        simp only [tile, hblk h1, hmem h1 h2, mem_cons, h1, false_or]
  · intro j hj
    rcases mem_cons.mp hj with rfl | hj
    · exact hum
    · exact h.held_unlisted (by simp [hj])

section

variable {m : ℕ} (h : PoolInv pool (i :: held)) (hm : tryMergeBuddy pool i = some (pool', m))

include h hm

/-- What a successful `try_merge_buddy` does: the buddy was listed with the same
    order, it leaves its list, and the left one of the two grows by an order. -/
theorem tryMergeBuddy_eq_some :
    (pool.blocks (i ^^^ 2 ^ (pool.blocks i).order)).order = (pool.blocks i).order ∧
      (pool.blocks (i ^^^ 2 ^ (pool.blocks i).order)).inList = true ∧
      m = min i (i ^^^ 2 ^ (pool.blocks i).order) ∧
      pool' = (listRemove pool (i ^^^ 2 ^ (pool.blocks i).order)).setBlock m
        fun b => { b with order := (pool.blocks i).order + 1 } := by
  have hle := h.order_le_of_held mem_cons_self
  have hmax := h.maxOrder_le
  unfold Malloc.tryMergeBuddy at hm
  simp only [sizeShl_eq (show (pool.blocks i).order ≤ 30 by omega)] at hm
  -- `list_remove` of the buddy keeps both orders
  have hord : ∀ {j}, (pool.blocks j).order = (pool.blocks i).order →
      (((listRemove pool (i ^^^ 2 ^ (pool.blocks i).order)).blocks j).order + 1) % 256 =
        (pool.blocks i).order + 1 := by
    intro j hj
    rw [listRemove_blocks]
    split_ifs with he
    · rw [← he, hj]; omega
    · rw [hj]; omega
  split_ifs at hm with h1 h2 h3
  all_goals
    cases hm
    refine ⟨h2.1, h2.2, ?_, setBlock_congr _ ?_⟩
  · exact (min_eq_left h3).symm
  · rw [hord rfl]
  · exact (min_eq_right (not_le.mp h3).le).symm
  · rw [hord h2.1]

theorem tryMergeBuddy :
    PoolInv pool' (m :: held) ∧ (pool'.blocks m).order = (pool.blocks i).order + 1 ∧
      pool'.maxOrder = pool.maxOrder := by
  obtain ⟨hord, hin, rfl, rfl⟩ := h.tryMergeBuddy_eq_some hm
  have hne : i ≠ i ^^^ 2 ^ (pool.blocks i).order := (Dyadic.xor_two_pow_ne _ _).symm
  refine ⟨(h.remove hin).fuse ?_ ?_, ?_, rfl⟩
  · rw [listRemove_blocks, if_neg hne]
  · rw [listRemove_blocks, if_pos rfl]
    exact hord
  · rw [setBlock_self]

end

theorem freeLoop {n : ℕ} (h : PoolInv pool (i :: held)) :
    PoolInv (freeLoop n pool i).1 ((Malloc.freeLoop n pool i).2 :: held) :=
  freeLoop_induct (P := fun pool i => PoolInv pool (i :: held))
    (fun h hm => (h.tryMergeBuddy hm).1) n h

/-- The merge loop stops because nothing is left to merge with, not because the
    turns run out: every merge raises the order, which stays below `max_order`. -/
theorem freeLoop_done : ∀ {n : ℕ} {pool : MemoryPool} {i : ℕ}, PoolInv pool (i :: held) →
    pool.maxOrder < (pool.blocks i).order + n →
      Malloc.tryMergeBuddy (Malloc.freeLoop n pool i).1 (Malloc.freeLoop n pool i).2 = none := by
  intro n
  induction n with
  | zero =>
    intro pool i h hlt
    have := h.order_le_of_held mem_cons_self
    omega
  | succ n ih =>
    intro pool i h hlt
    rw [Malloc.freeLoop]
    cases hm : Malloc.tryMergeBuddy pool i with
    | none => exact hm
    | some r =>
      obtain ⟨h', hord, hmax⟩ := h.tryMergeBuddy hm
      exact ih h' (by rw [hmax, hord]; omega)

theorem freeBlock (h : PoolInv pool (i :: held)) : PoolInv (freeBlock pool i) held := by
  have hl := h.freeLoop (n := 256)
  unfold Malloc.freeBlock
  generalize Malloc.freeLoop 256 pool i = r at hl
  obtain ⟨pool', b⟩ := r
  dsimp only at hl ⊢
  cases (pool'.blocks b).isWaste
  · exact (hl.setCounts pool'.freePages _).push (.inl rfl)
  · exact hl.push (.inr rfl)

/-- Changing the `type` of a block is invisible to the invariant. -/
theorem setType (h : PoolInv pool held) (i : ℕ) (t : BlockType) :
    PoolInv (pool.setBlock i fun b => { b with type := t }) held := by
  refine h.congr rfl rfl (fun j => ?_) (fun j => ?_) <;>
  exact pool.setBlock_field i j _ fun _ => rfl

theorem giveBlock (h : PoolInv pool (i :: held)) : PoolInv (giveBlock pool i) held := by
  have hc := h.setCounts (sizeAdd pool.freePages (sizeShl (pool.blocks i).order)) pool.maxOrderFree
  exact (hc.setType i .free).freeBlock

/-- Allocation: a free block of order at least `a` is cut down to order `a` and comes into hand. -/
theorem takeBlock {a : ℕ} {t : BlockType} (h : PoolInv pool held) (hi : i ∈ pool.lists (.free k))
    (ha : a ≤ k) : PoolInv (takeBlock pool i a t) (i :: held) ∧
      ((Malloc.takeBlock pool i a t).blocks i).order = a := by
  have hrem := h.remove (h.inList_iff.mpr ⟨_, hi⟩)
  have hord : ((listRemove pool i).blocks i).order = k := by
    rw [listRemove_blocks, if_pos rfl]
    exact h.free_order hi
  obtain ⟨hs, ho⟩ := hrem.splitLoop (n := k) (a := a) hord ha
  unfold Malloc.takeBlock
  dsimp only
  rw [hord]
  refine ⟨(hs.setCounts _ _).setType i t, ?_⟩
  rw [setBlock_self]
  exact ho

end PoolInv

/-! ## What the operations leave alone -/

/-- `pool'` has the place, the size and the waste marks of `pool`. -/
structure SameShape (pool pool' : MemoryPool) : Prop where
  start : pool'.start = pool.start
  stop : pool'.stop = pool.stop
  pagesStart : pool'.pagesStart = pool.pagesStart
  pagesEnd : pool'.pagesEnd = pool.pagesEnd
  pages : pool'.pages = pool.pages
  maxOrder : pool'.maxOrder = pool.maxOrder
  maxOrderWaste : pool'.maxOrderWaste = pool.maxOrderWaste
  isWaste : ∀ i, (pool'.blocks i).isWaste = (pool.blocks i).isWaste

namespace SameShape

variable {pool pool' pool'' : MemoryPool}

theorem rfl' : SameShape pool pool := ⟨rfl, rfl, rfl, rfl, rfl, rfl, rfl, fun _ => rfl⟩

theorem trans (h : SameShape pool pool') (h' : SameShape pool' pool'') : SameShape pool pool'' :=
  ⟨h'.start.trans h.start, h'.stop.trans h.stop, h'.pagesStart.trans h.pagesStart,
    h'.pagesEnd.trans h.pagesEnd, h'.pages.trans h.pages, h'.maxOrder.trans h.maxOrder,
    h'.maxOrderWaste.trans h.maxOrderWaste, fun i => (h'.isWaste i).trans (h.isWaste i)⟩

theorem setBlock (i : ℕ) {f : BuddyBlock → BuddyBlock} (hf : ∀ b, (f b).isWaste = b.isWaste) :
    SameShape pool (pool.setBlock i f) :=
  ⟨rfl, rfl, rfl, rfl, rfl, rfl, rfl, fun j => pool.setBlock_field i j BuddyBlock.isWaste hf⟩

theorem push (l : ListHead) (i : ℕ) : SameShape pool (listPushBack pool l i) where
  __ := @setBlock pool i (fun b => { b with inList := true }) fun _ => rfl

theorem remove (i : ℕ) : SameShape pool (listRemove pool i) where
  __ := @setBlock pool i (fun b => { b with inList := false }) fun _ => rfl

theorem setOrder (i : ℕ) (f : BuddyBlock → ℕ) :
    SameShape pool (pool.setBlock i fun b => { b with order := f b }) :=
  setBlock i fun _ => rfl

theorem setType (i : ℕ) (t : BlockType) :
    SameShape pool (pool.setBlock i fun b => { b with type := t }) :=
  setBlock i fun _ => rfl

theorem splitBlock (i : ℕ) : SameShape pool (splitBlock pool i) := by
  unfold Malloc.splitBlock
  generalize ((pool.blocks i).order + 255) % 256 = k
  dsimp only
  have h : SameShape pool _ :=
    (setOrder i fun _ => k).trans (setOrder (i ^^^ sizeShl k) fun _ => k)
  generalize ((pool.setBlock i fun b => { b with order := k }).setBlock (i ^^^ sizeShl k)
    fun b => { b with order := k }) = pool' at h ⊢
  cases (pool'.blocks (i ^^^ sizeShl k)).isWaste
  · exact h.trans (push _ _)
  · exact h.trans (push _ _)

theorem splitLoop (a i n : ℕ) (pool : MemoryPool) : SameShape pool (splitLoop a n pool i) :=
  (splitLoop_induct (P := fun _ => SameShape pool) (fun h => h.trans (splitBlock i)) rfl').choose_spec

theorem tryMergeBuddy {i m : ℕ} (h : tryMergeBuddy pool i = some (pool', m)) :
    SameShape pool pool' := by
  unfold Malloc.tryMergeBuddy at h
  dsimp only at h
  split_ifs at h
  all_goals
    cases h
    exact (remove _).trans (setOrder _ _)

theorem freeLoop (n : ℕ) (pool : MemoryPool) (i : ℕ) : SameShape pool (freeLoop n pool i).1 :=
  freeLoop_induct (P := fun pool' _ => SameShape pool pool')
    (fun h hm => h.trans (tryMergeBuddy hm)) n rfl'

theorem counts (free maxFree : ℕ) :
    SameShape pool { pool with freePages := free, maxOrderFree := maxFree } :=
  ⟨rfl, rfl, rfl, rfl, rfl, rfl, rfl, fun _ => rfl⟩

theorem freeBlock (i : ℕ) : SameShape pool (freeBlock pool i) := by
  have hl := freeLoop 256 pool i
  unfold Malloc.freeBlock
  generalize Malloc.freeLoop 256 pool i = r at hl
  obtain ⟨pool', b⟩ := r
  dsimp only at hl ⊢
  cases (pool'.blocks b).isWaste
  · exact (hl.trans (counts pool'.freePages _)).trans (push _ _)
  · exact hl.trans (push _ _)

theorem giveBlock (i : ℕ) : SameShape pool (giveBlock pool i) := by
  have hc : SameShape pool _ :=
    counts (sizeAdd pool.freePages (sizeShl (pool.blocks i).order)) pool.maxOrderFree
  exact (hc.trans (setType i .free)).trans (freeBlock i)

theorem takeBlock (i a : ℕ) (t : BlockType) : SameShape pool (takeBlock pool i a t) := by
  unfold Malloc.takeBlock
  dsimp only
  exact (((remove i).trans (splitLoop a i _ _)).trans (counts _ _)).trans (setType i t)

end SameShape

/-! ## A fresh pool -/

/-- The marking loop sets `is_waste` on `[i, i + n)` and nothing else. -/
theorem markWaste_spec : ∀ (n i : ℕ) (pool : MemoryPool),
    ∃ blocks, markWaste n i pool = { pool with blocks := blocks } ∧
      ∀ j, blocks j = if i ≤ j ∧ j < i + n then { pool.blocks j with isWaste := true }
        else pool.blocks j := by
  intro n
  induction n with
  | zero =>
    intro i pool
    exact ⟨pool.blocks, rfl, fun j => by rw [if_neg (by omega)]⟩
  | succ n ih =>
    intro i pool
    obtain ⟨blocks, heq, hb⟩ := ih (i + 1) (pool.setBlock i fun b => { b with isWaste := true })
    refine ⟨blocks, by rw [markWaste, heq]; rfl, fun j => ?_⟩
    rw [hb, setBlock_blocks]
    by_cases hj : j = i
    · subst hj
      rw [if_neg (by omega), if_pos rfl, if_pos (by omega)]
    · rw [if_neg hj]
      by_cases hin : i + 1 ≤ j ∧ j < i + 1 + n
      · rw [if_pos hin, if_pos (by omega)]
      · rw [if_neg hin, if_neg (by omega)]

/-- The pool that `init_pool` builds: block 0 spans it and is alone on the topmost free list, and
    the pages from `pages - max_order_waste` up to `total_pages` are marked as waste. -/
theorem newPool_eq (memStart memEnd flags : ℕ) : newPool memStart memEnd flags =
    { flags := flags, start := memStart, stop := memEnd
      pagesStart := poolPagesStart memStart memEnd, pagesEnd := poolPagesEnd memEnd
      pages := poolPages memStart memEnd, freePages := poolPages memStart memEnd
      maxOrder := getOrder (totalPages memStart memEnd)
      maxOrderFree := getOrder (totalPages memStart memEnd)
      maxOrderWaste := poolMaxOrderWaste memStart memEnd
      lists := fun l => if l = .free (getOrder (totalPages memStart memEnd)) then [0] else []
      blocks := fun j =>
        { order := if j = 0 then getOrder (totalPages memStart memEnd) else 0
          inList := decide (j = 0)
          isWaste := decide (sizeSub (poolPages memStart memEnd)
            (poolMaxOrderWaste memStart memEnd) ≤ j ∧ j < totalPages memStart memEnd)
          type := .free } } := by
  unfold newPool
  dsimp only
  generalize sizeSub (poolPages memStart memEnd) (poolMaxOrderWaste memStart memEnd) = waste
  generalize totalPages memStart memEnd = total
  obtain ⟨blocks, heq, hb⟩ := markWaste_spec (total - waste) waste
    { flags := flags, start := memStart, stop := memEnd
      pagesStart := poolPagesStart memStart memEnd, pagesEnd := poolPagesEnd memEnd
      pages := poolPages memStart memEnd, freePages := poolPages memStart memEnd
      maxOrder := getOrder total, maxOrderWaste := poolMaxOrderWaste memStart memEnd }
  have hblocks : ∀ j, blocks j =
      { isWaste := decide (waste ≤ j ∧ j < total) } := by
    intro j
    rw [hb]
    by_cases h : waste ≤ j ∧ j < total
    · rw [if_pos (by omega), decide_eq_true h]
    · rw [if_neg (by omega), decide_eq_false h]
  rw [heq]
  simp only [listPushBack, setBlock, mk.injEq, true_and]
  refine ⟨funext fun l => ?_, funext fun j => ?_⟩
  · by_cases hl : l = .free (getOrder total)
    · subst hl; simp
    · simp [hl]
  · by_cases hj : j = 0
    · subst hj; simp [hblocks]
    · simp [hblocks, hj]

theorem newPool_inv {memStart memEnd : ℕ} (flags : ℕ)
    (h : getOrder (totalPages memStart memEnd) ≤ 30) : PoolInv (newPool memStart memEnd flags) [] := by
  rw [newPool_eq]
  generalize getOrder (totalPages memStart memEnd) = orders at h ⊢
  constructor
  · exact h
  · refine (Tiling.whole orders).congr (funext fun i => ?_)
    by_cases hi : i = 0 <;> simp [tile, hi]
  · intro k i hi
    dsimp only at hi ⊢
    split_ifs at hi with hk
    · cases hk
      rw [if_pos (mem_singleton.mp hi)]
    · cases hi
  · intro i
    dsimp only
    constructor
    · intro hi
      exact ⟨.free orders, by simpa using hi⟩
    · rintro ⟨l, hl⟩
      split_ifs at hl
      · simpa using hl
      · cases hl
  · intro i l l' h1 h2
    dsimp only at h1 h2
    split_ifs at h1 h2 with e1 e2
    · rw [e1, e2]
    all_goals simp at h1 h2
  · intro l
    dsimp only
    split_ifs <;> simp
  · exact nodup_nil
  · nofun

end BadgerOS.Malloc

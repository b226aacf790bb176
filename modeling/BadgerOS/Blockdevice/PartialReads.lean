import BadgerOS.Blockdevice.Flush

/-!
# Full and partial reads

`blkdev_read` and `blkdev_read_partial` look for a cache entry in the same way and deliver
bytes from the same places: an entry, the driver through a new entry, or the driver alone.

* `cache_cases`: the three cases; `blkdevRead_hit`, `blkdevReadPartial_hit` and so on: what each
  function does in them.
* `PartialReadExact`: a partial read stores as many bytes as it is asked for, the slice of what a
  full read delivers.
* `partialReadExact_iff`: when that is so.

**Deviation.** For an entry that is to be erased `blkdev_read_partial` fills `dev->block_size` bytes
of the buffer, where `readbuf_len` bytes are asked for (`readPartial_overruns`).
-/

namespace BadgerOS.Blockdevice

open Option List

variable {σ : Type} {n : ℕ} {D : BlkdevVtable σ n} {dev : Blkdev σ n} {c : BlkdevCache n}
  {clock : ℕ → ℤ} {block offset len i : ℕ} {j : ℕ} {now : ℤ}

/-! ## Where a read takes its bytes from -/

/-- The entry that `blkdev_alloc_cache` hands out for the block is present. -/
def CacheHit (c : BlkdevCache n) (now : ℤ) (block i : ℕ) : Prop :=
  blkdevAllocCache c now block = some i ∧ (c.blockFlags i).present = true

/-- The entry that it hands out is vacant, and reads are cached. -/
def CacheFill (dev : Blkdev σ n) (c : BlkdevCache n) (now : ℤ) (block i : ℕ) : Prop :=
  blkdevAllocCache c now block = some i ∧ (c.blockFlags i).present = false ∧ dev.cacheRead = true

/-- It hands out no entry, or a vacant one while reads are not cached. -/
def CacheBypass (dev : Blkdev σ n) (c : BlkdevCache n) (now : ℤ) (block : ℕ) : Prop :=
  ∀ i, blkdevAllocCache c now block = some i →
    (c.blockFlags i).present = false ∧ dev.cacheRead = false

theorem cache_cases (dev : Blkdev σ n) (c : BlkdevCache n) (now : ℤ) (block : ℕ) :
    (∃ i, CacheHit c now block i) ∨ (∃ i, CacheFill dev c now block i) ∨
      CacheBypass dev c now block := by
  cases hslot : blkdevAllocCache c now block with
  | none =>
    refine .inr (.inr fun i hi => ?_)
    rw [hslot] at hi
    cases hi
  | some i =>
    cases hp : (c.blockFlags i).present with
    | true => exact .inl ⟨i, hslot, hp⟩
    | false =>
      cases hr : dev.cacheRead with
      | true => exact .inr (.inl ⟨i, hslot, hp, hr⟩)
      | false =>
        refine .inr (.inr fun j hj => ?_)
        rw [hslot] at hj
        cases hj
        exact ⟨hp, hr⟩

/-- The device after a read has found an entry. -/
def Blkdev.touched (dev : Blkdev σ n) (c : BlkdevCache n) (i : ℕ) (now : ℤ) : Blkdev σ n :=
  { dev with cache := some (c.setFlags i (readFlags (c.blockFlags i) now)) }

/-- The device after the driver has read a block into a vacant entry. -/
def Blkdev.filled (dev : Blkdev σ n) (c : BlkdevCache n) (i block : ℕ) (now : ℤ)
    (r : Cause × Block n × σ) : Blkdev σ n :=
  { dev with
    cookie := r.2.2
    cache := some ((c.setFlags i (newFlags now block false)).setBlock i r.2.1) }

section

variable (hc : dev.cache = some c) (hb : block < dev.blocks)

include hc hb

theorem blkdevRead_hit (h : CacheHit c (clock 0) block i) : blkdevRead D dev clock block =
      some (.ok, ofFn (c.data i), dev.touched c i (clock 1)) := by
  rw [blkdevRead, if_neg (by omega), hc, map_some, h.1]
  simp only [h.2, if_true]
  rfl

theorem blkdevRead_fill (h : CacheFill dev c (clock 0) block i) :
    blkdevRead D dev clock block = some ((D.read dev.cookie block).1,
      if (D.read dev.cookie block).1 = .ok then ofFn (D.read dev.cookie block).2.1 else [],
      dev.filled c i block (clock 1) (D.read dev.cookie block)) := by
  rw [blkdevRead, if_neg (by omega), hc, map_some, h.1]
  show (some
    (if (c.blockFlags i).present = true then _ else if dev.cacheRead = true then _ else _) :
    Option (Cause × List UInt8 × Blkdev σ n)) = _
  rw [if_neg (by rw [h.2.1]; exact Bool.false_ne_true), if_pos h.2.2]
  rfl

theorem blkdevRead_bypass (h : CacheBypass dev c (clock 0) block) :
    blkdevRead D dev clock block = some ((D.read dev.cookie block).1,
      ofFn (D.read dev.cookie block).2.1,
      { dev with cookie := (D.read dev.cookie block).2.2 }) := by
  rw [blkdevRead, if_neg (by omega), hc, map_some]
  cases hslot : blkdevAllocCache c (clock 0) block with
  | none => rfl
  | some i =>
    obtain ⟨hp, hr⟩ := h i hslot
    simp [hp, hr]

variable (hin : ¬ outsideBlock n offset len) (hlen : len ≠ 0)

include hin hlen

theorem blkdevReadPartial_hit (h : CacheHit c (clock 0) block i) : blkdevReadPartial D dev clock block offset len = some (.ok,
      if (c.blockFlags i).erase then ofFn (erased n) else slice (c.blockCache i) offset len,
      dev.touched c i (clock 1)) := by
  rw [blkdevReadPartial, if_neg (by omega), if_neg hin, if_neg hlen, hc, map_some, h.1]
  simp only [h.2, if_true]
  rfl

theorem blkdevReadPartial_fill (h : CacheFill dev c (clock 0) block i) :
    blkdevReadPartial D dev clock block offset len = some ((D.read dev.cookie block).1,
      if (D.read dev.cookie block).1 = .ok then slice (D.read dev.cookie block).2.1 offset len
      else [],
      dev.filled c i block (clock 1) (D.read dev.cookie block)) := by
  rw [blkdevReadPartial, if_neg (by omega), if_neg hin, if_neg hlen, hc, map_some, h.1]
  show (some
    (if (c.blockFlags i).present = true then _ else if dev.cacheRead = true then _ else _) :
    Option (Cause × List UInt8 × Blkdev σ n)) = _
  rw [if_neg (by rw [h.2.1]; exact Bool.false_ne_true), if_pos h.2.2]
  rfl

theorem blkdevReadPartial_bypass (h : CacheBypass dev c (clock 0) block) : blkdevReadPartial D dev clock block offset len =
      some ((D.readPartial dev.cookie block offset len).1,
        (D.readPartial dev.cookie block offset len).2.1,
        { dev with cookie := (D.readPartial dev.cookie block offset len).2.2 }) := by
  rw [blkdevReadPartial, if_neg (by omega), if_neg hin, if_neg hlen, hc, map_some]
  cases hslot : blkdevAllocCache c (clock 0) block with
  | none => rfl
  | some i =>
    obtain ⟨hp, hr⟩ := h i hslot
    simp [hp, hr]

end

/-! ## Partial reads -/

/-- A partial read reports no error and stores `len` bytes, those from `offset` on of what a full
    read of the block would deliver. -/
def PartialReadExact (D : BlkdevVtable σ n) (dev : Blkdev σ n) (clock : ℕ → ℤ)
    (block offset len : ℕ) : Prop :=
  ∃ stored full dev₁ dev₂,
    blkdevReadPartial D dev clock block offset len = some (.ok, stored, dev₁) ∧
    blkdevRead D dev clock block = some (.ok, full, dev₂) ∧
    stored.length = len ∧ stored = (full.drop offset).take len

theorem length_slice {b : Block n} (h : ¬ outsideBlock n offset len) : (slice b offset len).length = len := by
  rw [slice, length_take, length_drop, length_ofFn]
  unfold outsideBlock at h
  omega

theorem CacheHit.unique (hi : CacheHit c now block i) (hj : CacheHit c now block j) : j = i :=
  some.inj (hj.1.symm.trans hi.1)

theorem CacheFill.not_hit (hi : CacheFill dev c now block i) : ¬ CacheHit c now block j := by
  rintro ⟨hj, hp⟩
  obtain rfl := some.inj (hj.symm.trans hi.1)
  rw [hi.2.1] at hp
  cases hp

theorem CacheFill.lt (hi : CacheFill dev c now block i) : i < c.cacheDepth := by
  have hslot := blkdevAllocCache_slot c now block
  rw [hi.1] at hslot
  cases hslot with
  | hit hi => exact hi.1
  | vacant hlt _ _ => exact hlt
  | reused hi _ _ _ => exact hi.1

theorem CacheBypass.not_hit (h : CacheBypass dev c now block) : ¬ CacheHit c now block j := by
  rintro ⟨hj, hp⟩
  rw [(h j hj).1] at hp
  cases hp

theorem partialReadExact_slice {b : Block n} {dev1 dev2 : Blkdev σ n} (hin : ¬ outsideBlock n offset len)
    (hslice : blkdevReadPartial D dev clock block offset len = some (.ok, slice b offset len, dev1))
    (hfull : blkdevRead D dev clock block = some (.ok, ofFn b, dev2)) :
    PartialReadExact D dev clock block offset len :=
  ⟨_, _, _, _, hslice, hfull, length_slice hin, rfl⟩

theorem blkdevRead_ok {content : σ → ℕ → Block n} (hD : ErrorFree D content dev.blocks)
    (hc : dev.cache = some c) (hb : block < dev.blocks) (clock : ℕ → ℤ) :
    ∃ (b : Block n) (dev' : Blkdev σ n),
      blkdevRead D dev clock block = some (.ok, ofFn b, dev') := by
  rcases cache_cases dev c (clock 0) block with ⟨i, h⟩ | ⟨i, h⟩ | h
  · exact ⟨_, _, blkdevRead_hit hc hb h⟩
  · have hread := blkdevRead_fill (D := D) hc hb h
    rw [(hD.read hb).1, if_pos rfl] at hread
    exact ⟨_, _, hread⟩
  · have hread := blkdevRead_bypass (D := D) hc hb h
    rw [(hD.read hb).1] at hread
    exact ⟨_, _, hread⟩

/-- A partial read is right unless the entry that is found is to be erased and neither nothing nor
    a whole block is asked for. -/
theorem partialReadExact_iff {content : σ → ℕ → Block n} (hD : ErrorFree D content dev.blocks)
    (hc : dev.cache = some c) (hb : block < dev.blocks) (hin : ¬ outsideBlock n offset len) :
    PartialReadExact D dev clock block offset len ↔
      len = 0 ∨ len = n ∨
        ∀ i, CacheHit c (clock 0) block i → (c.blockFlags i).erase = false := by
  have hbounds : offset + len ≤ n := by
    unfold outsideBlock at hin
    omega
  by_cases hlen : len = 0
  · refine iff_of_true ?_ (.inl hlen)
    obtain ⟨b, dev', hfull⟩ := blkdevRead_ok hD hc hb clock
    have hslice : blkdevReadPartial D dev clock block offset len = some (.ok, [], dev) := by
      rw [blkdevReadPartial, if_neg (by omega), if_neg hin, if_pos hlen]
    rw [← slice_zero b offset, ← hlen] at hslice
    exact partialReadExact_slice hin hslice hfull
  rcases cache_cases dev c (clock 0) block with ⟨i, h⟩ | ⟨i, h⟩ | h
  · have hfull := blkdevRead_hit (D := D) hc hb h
    have hslice := blkdevReadPartial_hit (D := D) hc hb hin hlen h
    by_cases herase : (c.blockFlags i).erase = true
    · -- the whole block is filled, whatever the length that is asked for
      rw [if_pos herase] at hslice
      rw [BlkdevCache.data, if_pos herase] at hfull
      constructor
      · rintro ⟨stored, full, dev₁, dev₂, hstored, _, hlength, _⟩
        rw [hslice] at hstored
        obtain rfl := (Prod.mk.inj (Prod.mk.inj (some.inj hstored)).2).1
        rw [length_ofFn] at hlength
        exact .inr (.inl hlength.symm)
      · rintro (hzero | hwhole | hall)
        · exact absurd hzero hlen
        · obtain rfl : offset = 0 := by omega
          refine ⟨_, _, _, _, hslice, hfull, ?_, ?_⟩
          · rw [length_ofFn, hwhole]
          · rw [drop_zero, take_of_length_le (by rw [length_ofFn, hwhole])]
        · rw [hall i h] at herase
          cases herase
    · rw [if_neg herase] at hslice
      rw [BlkdevCache.data, if_neg herase] at hfull
      refine iff_of_true (partialReadExact_slice hin hslice hfull) (.inr (.inr fun j hj => ?_))
      rw [h.unique hj]
      exact Bool.eq_false_iff.mpr herase
  · have hfull := blkdevRead_fill (D := D) hc hb h
    have hslice := blkdevReadPartial_fill (D := D) hc hb hin hlen h
    rw [(hD.read hb).1, if_pos rfl] at hfull hslice
    exact iff_of_true (partialReadExact_slice hin hslice hfull)
      (.inr (.inr fun j hj => absurd hj h.not_hit))
  · have hfull := blkdevRead_bypass (D := D) hc hb h
    have hslice := blkdevReadPartial_bypass (D := D) hc hb hin hlen h
    rw [(hD.read hb).1, (hD.read hb).2.1] at hfull
    rw [(hD.readPartial hb hin).1, (hD.readPartial hb hin).2.1] at hslice
    exact iff_of_true (partialReadExact_slice hin hslice hfull)
      (.inr (.inr fun j hj => absurd hj h.not_hit))

/-- A device with one block of two bytes, and a cache of one entry for it. -/
def halfDevice (erase : Bool) : Blkdev (ℕ → Block 2) 2 where
  blocks := 1
  cacheRead := true
  cache := some
    { blockCache := fun _ k => if k = 0 then 3 else 4
      blockFlags := fun _ =>
        { updateTime := 5, index := 0, present := true, erase := erase, dirty := !erase }
      cacheDepth := 1 }
  cookie := fun _ _ => 0

/-- The second byte of a block that has been written. -/
theorem partialReadExact_iff_second :
    PartialReadExact (memoryDriver 2) (halfDevice false) (fun _ => 7) 0 1 1 := by
  refine (partialReadExact_iff (memoryDriver_errorFree 2 1) rfl (by decide) (by decide)).mpr ?_
  exact .inr (.inr fun _ _ => rfl)

/-- A read of one byte of a block that is to be erased stores two bytes. -/
theorem readPartial_overruns : ¬ ∀ (σ : Type) (n : ℕ) (D : BlkdevVtable σ n)
    (content : σ → ℕ → Block n) (dev : Blkdev σ n) (c : BlkdevCache n) (clock : ℕ → ℤ)
    (block offset len : ℕ), ErrorFree D content dev.blocks → dev.cache = some c →
    block < dev.blocks → ¬ outsideBlock n offset len →
    PartialReadExact D dev clock block offset len := by
  intro hall
  obtain ⟨stored, full, dev₁, dev₂, hslice, _, hlength, _⟩ := hall _ 2 (memoryDriver 2) id
    (halfDevice true) _ (fun _ => 7) 0 1 1 (memoryDriver_errorFree 2 1) rfl (by decide) (by decide)
  have hstored : stored = [255, 255] := by
    have heval : blkdevReadPartial (memoryDriver 2) (halfDevice true) (fun _ => 7) 0 1 1 =
        some (.ok, [255, 255], _) := rfl
    rw [heval] at hslice
    exact (Prod.mk.inj (Prod.mk.inj (some.inj hslice)).2).1.symm
  rw [hstored] at hlength
  cases hlength

end BadgerOS.Blockdevice

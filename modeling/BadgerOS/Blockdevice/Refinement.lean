import BadgerOS.Blockdevice.Coherence

/-!
# A cached block device refines an array of blocks

* `arrayStep`: the array of blocks that a device stands for.
* `SafeCall`: the calls that the cache serves correctly. The functions do not look at
  the index of the entry that `blkdev_alloc_cache` hands out, so a clean entry of
  another block passes for a hit; `blkdev_erase` on a vacant entry sets `dirty` in
  place of `erase`; and `blkdev_write_partial` completes a vacant or an erased entry
  with whatever bytes it held.
* `blkdev_refines_array`: in every run of such calls, with any clock, any depth and
  with or without read caching, the device returns what the array returns.
* `blkdev_erase_lost`: a fresh device that is erased and read returns stale bytes.
-/

namespace BadgerOS.Blockdevice

open Function List

variable {σ : Type} {n : ℕ}

/-! ## Calls -/

/-- The operations on a device. -/
inductive BlkOp (n : ℕ)
  | read (block : ℕ)
  | write (block : ℕ) (buf : Block n)
  | readPartial (block offset len : ℕ)
  | writePartial (block offset : ℕ) (buf : List UInt8)
  | erase (block : ℕ)
  | flush
  | housekeeping

/-- An operation with the values that `time_us` returns during it. -/
structure BlkCall (n : ℕ) where
  op : BlkOp n
  clock : ℕ → ℤ

/-- One call: the cause it reports, the bytes that it stores in the part of the buffer
    that the caller asked for, and the device afterwards. -/
def blkStep (D : BlkdevVtable σ n) (dev : Blkdev σ n) (call : BlkCall n) :
    Option ((Cause × List UInt8) × Blkdev σ n) :=
  match call.op with
  | .read block =>
    (blkdevRead D dev call.clock block).map fun r => ((r.1, r.2.1), r.2.2)
  | .write block buf =>
    (blkdevWrite D dev call.clock block buf).map fun r => ((r.1, []), r.2)
  | .readPartial block offset len =>
    (blkdevReadPartial D dev call.clock block offset len).map fun r =>
      ((r.1, r.2.1.take len), r.2.2)
  | .writePartial block offset buf =>
    (blkdevWritePartial D dev call.clock block offset buf).map fun r => ((r.1, []), r.2)
  | .erase block => (blkdevErase D dev call.clock block).map fun r => ((r.1, []), r.2)
  | .flush => (blkdevFlush D dev call.clock .ok).map fun r => ((r.1, []), r.2)
  | .housekeeping => (blkdevHousekeeping D dev call.clock .ok).map fun r => ((r.1, []), r.2)

/-- The same call on an array of blocks. -/
def arrayStep (blocks : ℕ) (readonly : Bool) (a : ℕ → Block n) (call : BlkCall n) :
    (Cause × List UInt8) × (ℕ → Block n) :=
  match call.op with
  | .read block =>
    if block ≥ blocks then ((.range, []), a) else ((.ok, List.ofFn (a block)), a)
  | .write block buf =>
    if readonly then ((.readonly, []), a)
    else if block ≥ blocks then ((.range, []), a)
    else ((.ok, []), update a block buf)
  | .readPartial block offset len =>
    if block ≥ blocks ∨ outsideBlock n offset len then ((.range, []), a)
    else ((.ok, slice (a block) offset len), a)
  | .writePartial block offset buf =>
    if readonly then ((.readonly, []), a)
    else if block ≥ blocks ∨ outsideBlock n offset buf.length then ((.range, []), a)
    else ((.ok, []), update a block (patch (a block) offset buf))
  | .erase block =>
    if readonly then ((.readonly, []), a)
    else if block ≥ blocks then ((.range, []), a)
    else ((.ok, []), update a block (erased n))
  | .flush => ((if readonly then .readonly else .ok, []), a)
  | .housekeeping => ((.ok, []), a)

/-- The entry that `blkdev_alloc_cache` hands out for `block`, if it hands out one, is
    vacant or the entry of that block. -/
def OwnSlot (c : BlkdevCache n) (now : ℤ) (block : ℕ) : Prop :=
  ∀ i, blkdevAllocCache c now block = some i → (c.blockFlags i).present = true →
    (c.blockFlags i).index = block

/-- The calls that the cache serves correctly; a call that is rejected is one of them. -/
def SafeCall (dev : Blkdev σ n) (call : BlkCall n) : Prop :=
  ∀ c, dev.cache = some c →
  match call.op with
  | .read block => block < dev.blocks → OwnSlot c (call.clock 0) block
  | .write block _ =>
    dev.readonly = false → block < dev.blocks → OwnSlot c (call.clock 0) block
  | .readPartial block offset len =>
    block < dev.blocks → ¬ outsideBlock n offset len → len ≠ 0 → OwnSlot c (call.clock 0) block
  | .writePartial block offset buf =>
    dev.readonly = false → block < dev.blocks → ¬ outsideBlock n offset buf.length →
    buf.length ≠ 0 → OwnSlot c (call.clock 0) block ∧
      ∀ i, blkdevAllocCache c (call.clock 0) block = some i →
        ((c.blockFlags i).present = true ∧ (c.blockFlags i).erase = false) ∨
        (offset = 0 ∧ buf.length = n)
  | .erase block =>
    dev.readonly = false → block < dev.blocks → OwnSlot c (call.clock 0) block ∧
      ∀ i, blkdevAllocCache c (call.clock 0) block = some i → (c.blockFlags i).present = true
  | .flush => True
  | .housekeeping => True

/-! ## Slices -/

theorem take_slice (b : Block n) (offset len : ℕ) : (slice b offset len).take len = slice b offset len := by
  rw [slice, take_take, min_self]

theorem slice_zero (b : Block n) (offset : ℕ) : slice b offset 0 = [] := by
  rw [slice, take_zero]

theorem slice_erased {offset len : ℕ} (h : ¬ outsideBlock n offset len) :
    (ofFn (erased n)).take len = slice (erased n) offset len := by
  unfold outsideBlock at h
  have hrep : ofFn (erased n) = replicate n 255 := ofFn_const n 255
  rw [slice, hrep, drop_replicate, take_replicate, take_replicate]
  congr 1
  omega

theorem patch_nil (b : Block n) (offset : ℕ) {buf : List UInt8} (h : buf.length = 0) : patch b offset buf = b := by
  funext k
  rw [patch, if_neg (by omega)]

theorem patch_whole (b b' : Block n) {offset : ℕ} {buf : List UInt8}
    (h : offset = 0 ∧ buf.length = n) : patch b offset buf = patch b' offset buf := by
  funext k
  have hk : offset ≤ (k : ℕ) ∧ (k : ℕ) < offset + buf.length := by omega
  rw [patch, patch, if_pos hk, if_pos hk]

/-! ## Steps -/

/-- The device stands for the array. -/
structure CoherentDev (content : σ → ℕ → Block n) (blocks : ℕ) (readonly : Bool)
    (dev : Blkdev σ n) (a : ℕ → Block n) : Prop where
  blocks_eq : dev.blocks = blocks
  readonly_eq : dev.readonly = readonly
  cache : ∃ c, dev.cache = some c ∧ Coherent content blocks c dev.cookie a

section

variable {D : BlkdevVtable σ n} {content : σ → ℕ → Block n} {blocks : ℕ} {readonly : Bool}
  {dev : Blkdev σ n} {c : BlkdevCache n} {a : ℕ → Block n} {block : ℕ} {now : ℤ}

/-- The call does to the device what it does to the array. -/
def Matches (D : BlkdevVtable σ n) (content : σ → ℕ → Block n) (blocks : ℕ) (readonly : Bool)
    (dev : Blkdev σ n) (a : ℕ → Block n) (call : BlkCall n) : Prop :=
  ∃ dev', blkStep D dev call = some ((arrayStep blocks readonly a call).1, dev') ∧
    CoherentDev content blocks readonly dev' (arrayStep blocks readonly a call).2

theorem OwnSlot.cases (hown : OwnSlot c now block) : (blkdevAllocCache c now block = none ∧ ∀ j, ¬ c.Holds j block) ∨
    ∃ i, blkdevAllocCache c now block = some i ∧ i < c.cacheDepth ∧
      (c.Holds i block ∨ ((c.blockFlags i).present = false ∧ ∀ j, ¬ c.Holds j block)) := by
  have hslot := blkdevAllocCache_slot c now block
  unfold OwnSlot at hown
  generalize blkdevAllocCache c now block = slot at hslot hown ⊢
  cases hslot with
  | hit hi => exact .inr ⟨_, rfl, hi.1, .inl hi⟩
  | vacant hlt hp hno => exact .inr ⟨_, rfl, hlt, .inr ⟨hp, hno⟩⟩
  | reused hi hb hclean hno => exact absurd (hi.2.2.symm.trans (hown _ rfl hi.2.1)) hb
  | full hno => exact .inl ⟨rfl, hno⟩

theorem blkdevAllocCache_some {i : ℕ} (h : blkdevAllocCache c now block = some i) :
    ((c.blockFlags i).present = true ∧ c.Holds i (c.blockFlags i).index) ∨
    ((c.blockFlags i).present = false ∧ i < c.cacheDepth ∧ ∀ j, ¬ c.Holds j block) := by
  have hslot := blkdevAllocCache_slot c now block
  rw [h] at hslot
  cases hslot with
  | hit hi | reused hi hb hclean hno => exact .inl ⟨hi.2.1, hi.1, hi.2.1, rfl⟩
  | vacant hlt hp hno => exact .inr ⟨hp, hlt, hno⟩

theorem Coherent.of_content_eq {s s' : σ} (h : Coherent content blocks c s a)
    (hs : content s' = content s) : Coherent content blocks c s' a := by
  obtain ⟨h1, h2, h3, h4, h5, h6⟩ := h
  rw [← hs] at h5 h6
  exact ⟨h1, h2, h3, h4, h5, h6⟩

/-- Entry `i` may be used for `block`. -/
def Usable (c : BlkdevCache n) (i block : ℕ) : Prop :=
  c.Holds i block ∨ ((c.blockFlags i).present = false ∧ ∀ j, ¬ c.Holds j block)

theorem Coherent.write {s : σ} {i : ℕ} (h : Coherent content blocks c s a) (hb : block < blocks)
    (hi : i < c.cacheDepth) (hown : Usable c i block) (now : ℤ) (d : Block n) :
    Coherent content blocks ((c.setFlags i (writeFlags (c.blockFlags i) now block)).setBlock i d) s
      (update a block d) := by
  have hp : (writeFlags (c.blockFlags i) now block).present = true := by
    unfold writeFlags
    split_ifs with hpres
    · exact hpres
    · rfl
  have hx : (writeFlags (c.blockFlags i) now block).index = block := by
    unfold writeFlags
    rcases hown with hhit | ⟨hvac, -⟩
    · rw [if_pos hhit.2.1]
      exact hhit.2.2
    · rw [hvac]
      rfl
  have he : (writeFlags (c.blockFlags i) now block).erase = false := by
    unfold writeFlags
    split_ifs <;> rfl
  have hd : (writeFlags (c.blockFlags i) now block).dirty = true := by
    unfold writeFlags
    split_ifs <;> rfl
  have hput := h.put (d := d) hb hown hi hx (by simp [he]) hp (by simp [blkdevIsDirty, hp, hd])
  rwa [he] at hput

theorem Coherent.touch {s : σ} {i : ℕ} (h : Coherent content blocks c s a) (hi : c.Holds i block)
    (now : ℤ) : Coherent content blocks (c.setFlags i (readFlags (c.blockFlags i) now)) s a := by
  have hsame : ∃ t, readFlags (c.blockFlags i) now = { c.blockFlags i with updateTime := t } := by
    unfold readFlags
    split_ifs
    · exact ⟨now, rfl⟩
    · exact ⟨(c.blockFlags i).updateTime, rfl⟩
  obtain ⟨t, ht⟩ := hsame
  rw [ht, BlkdevCache.setFlags_eq_put]
  have hput := h.put (f := { c.blockFlags i with updateTime := t }) (d := c.blockCache i)
    (h.lt hi) (.inl hi) hi.1 hi.2.2 (h.exclusive hi) hi.2.1 (h.clean hi)
  rw [show (if (c.blockFlags i).erase then erased n else c.blockCache i) = a block from
    (h.cached hi).symm, update_eq_self] at hput
  exact hput

theorem Coherent.fill {s s' : σ} {i : ℕ} (h : Coherent content blocks c s a) (hb : block < blocks)
    (hi : i < c.cacheDepth) (hvac : (c.blockFlags i).present = false) (hno : ∀ j, ¬ c.Holds j block)
    (hs : content s' = content s) (now : ℤ) : Coherent content blocks
      ((c.setFlags i (newFlags now block false)).setBlock i (content s block)) s' a := by
  have hput := (h.of_content_eq hs).put (f := newFlags now block false) (d := content s block) hb
    (.inr ⟨hvac, hno⟩) hi rfl (by simp [newFlags]) rfl (fun _ => congrFun hs block)
  rw [show (if (newFlags now block false).erase then erased n else content s block) = a block from
    (h.uncached hb hno).symm, update_eq_self] at hput
  exact hput

section

variable {bl : ℕ} {ro cr : Bool} {s : σ} (hD : ErrorFree D content bl)
  (hco : Coherent content bl c s a)

include hD hco

theorem write_matches (buf : Block n) (clock : ℕ → ℤ)
    (hok : SafeCall ⟨bl, ro, cr, some c, s⟩ ⟨.write block buf, clock⟩) :
    Matches D content bl ro ⟨bl, ro, cr, some c, s⟩ a ⟨.write block buf, clock⟩ := by
  simp only [Matches, blkStep, blkdevWrite, arrayStep]
  split_ifs with hro hb
  · exact ⟨_, rfl, rfl, rfl, c, rfl, hco⟩
  · exact ⟨_, rfl, rfl, rfl, c, rfl, hco⟩
  have hlt : block < bl := not_le.mp hb
  rcases (hok c rfl (eq_false_of_ne_true hro) hlt).cases with ⟨hslot, hno⟩ | ⟨i, hslot, hi, hown⟩
  · obtain ⟨he, hs⟩ := hD.write (s := s) (d := buf) hlt
    simp only [Option.map_some, hslot, he]
    exact ⟨_, rfl, rfl, rfl, c, rfl, hco.through hno hs⟩
  · simp only [Option.map_some, hslot]
    exact ⟨_, rfl, rfl, rfl, _, rfl, hco.write hlt hi hown _ buf⟩

theorem erase_matches (clock : ℕ → ℤ)
    (hok : SafeCall ⟨bl, ro, cr, some c, s⟩ ⟨.erase block, clock⟩) :
    Matches D content bl ro ⟨bl, ro, cr, some c, s⟩ a ⟨.erase block, clock⟩ := by
  simp only [Matches, blkStep, blkdevErase, arrayStep]
  split_ifs with hro hb
  · exact ⟨_, rfl, rfl, rfl, c, rfl, hco⟩
  · exact ⟨_, rfl, rfl, rfl, c, rfl, hco⟩
  have hlt : block < bl := not_le.mp hb
  obtain ⟨hown, hpres⟩ := hok c rfl (eq_false_of_ne_true hro) hlt
  rcases hown.cases with ⟨hslot, hno⟩ | ⟨i, hslot, hi, huse⟩
  · obtain ⟨he, hs⟩ := hD.erase (s := s) hlt
    simp only [Option.map_some, hslot, he]
    exact ⟨_, rfl, rfl, rfl, c, rfl, hco.through hno hs⟩
  · have hp := hpres i hslot
    have hhit : c.Holds i block := ⟨hi, hp, hown i hslot hp⟩
    simp only [Option.map_some, hslot, hp, if_true]
    refine ⟨_, rfl, rfl, rfl, _, rfl, ?_⟩
    rw [BlkdevCache.setFlags_eq_put]
    exact hco.put (f := { c.blockFlags i with present := true, erase := true, dirty := false })
      (d := c.blockCache i) hlt (.inl hhit) hi hhit.2.2 (by simp) rfl (by simp [blkdevIsDirty])

theorem read_matches (clock : ℕ → ℤ)
    (hok : SafeCall ⟨bl, ro, cr, some c, s⟩ ⟨.read block, clock⟩) :
    Matches D content bl ro ⟨bl, ro, cr, some c, s⟩ a ⟨.read block, clock⟩ := by
  simp only [Matches, blkStep, blkdevRead, arrayStep]
  by_cases hb : block ≥ bl
  · simp only [hb, if_true]
    exact ⟨_, rfl, rfl, rfl, c, rfl, hco⟩
  simp only [hb, if_false, Option.map_some]
  have hlt : block < bl := not_le.mp hb
  obtain ⟨he, hdata, hs⟩ := hD.read (s := s) hlt
  rcases (hok c rfl hlt).cases with ⟨hslot, hno⟩ | ⟨i, hslot, hi, hhit | ⟨hvac, hno⟩⟩
  · simp only [hslot, he, hdata, hco.uncached hlt hno]
    exact ⟨_, rfl, rfl, rfl, c, rfl, hco.of_content_eq hs⟩
  · simp only [hslot, hhit.2.1, if_true, hco.cached hhit, BlkdevCache.data]
    exact ⟨_, rfl, rfl, rfl, _, rfl, hco.touch hhit _⟩
  · simp only [hslot, hvac, Bool.false_eq_true, if_false, he, hdata, hco.uncached hlt hno]
    cases cr with
    | true => exact ⟨_, rfl, rfl, rfl, _, rfl, hco.fill hlt hi hvac hno hs _⟩
    | false => exact ⟨_, rfl, rfl, rfl, c, rfl, hco.of_content_eq hs⟩

theorem readPartial_matches (offset len : ℕ) (clock : ℕ → ℤ)
    (hok : SafeCall ⟨bl, ro, cr, some c, s⟩ ⟨.readPartial block offset len, clock⟩) :
    Matches D content bl ro ⟨bl, ro, cr, some c, s⟩ a ⟨.readPartial block offset len, clock⟩ := by
  simp only [Matches, blkStep, blkdevReadPartial, arrayStep]
  by_cases hb : block ≥ bl
  · simp only [hb, if_true, true_or, Option.map_some, take_nil]
    exact ⟨_, rfl, rfl, rfl, c, rfl, hco⟩
  by_cases ho : outsideBlock n offset len
  · simp only [hb, ho, if_true, if_false, or_true, Option.map_some, take_nil]
    exact ⟨_, rfl, rfl, rfl, c, rfl, hco⟩
  by_cases h0 : len = 0
  · subst h0
    simp only [hb, ho, if_true, if_false, or_self, slice_zero]
    exact ⟨_, rfl, rfl, rfl, c, rfl, hco⟩
  simp only [hb, ho, h0, if_false, or_self, Option.map_some]
  have hlt : block < bl := not_le.mp hb
  obtain ⟨he, hdata, hs⟩ := hD.read (s := s) hlt
  obtain ⟨hep, hdatap, hsp⟩ := hD.readPartial (s := s) hlt ho
  rcases (hok c rfl hlt ho h0).cases with ⟨hslot, hno⟩ | ⟨i, hslot, hi, hhit | ⟨hvac, hno⟩⟩
  · simp only [hslot, hep, hdatap, take_slice, hco.uncached hlt hno]
    exact ⟨_, rfl, rfl, rfl, c, rfl, hco.of_content_eq hsp⟩
  · have hout : (if (c.blockFlags i).erase then ofFn (erased n)
        else slice (c.blockCache i) offset len).take len = slice (a block) offset len := by
      rw [hco.cached hhit, BlkdevCache.data]
      split_ifs
      · exact slice_erased ho
      · exact take_slice _ _ _
    simp only [hslot, hhit.2.1, if_true, hout]
    exact ⟨_, rfl, rfl, rfl, _, rfl, hco.touch hhit _⟩
  · simp only [hslot, hvac, Bool.false_eq_true, if_false, he, hdata, hep, hdatap,
      hco.uncached hlt hno]
    cases cr with
    | true =>
      simp only [if_true, take_slice]
      exact ⟨_, rfl, rfl, rfl, _, rfl, hco.fill hlt hi hvac hno hs _⟩
    | false =>
      simp only [Bool.false_eq_true, if_false, take_slice]
      exact ⟨_, rfl, rfl, rfl, c, rfl, hco.of_content_eq hsp⟩

theorem writePartial_matches (offset : ℕ) (buf : List UInt8) (clock : ℕ → ℤ)
    (hok : SafeCall ⟨bl, ro, cr, some c, s⟩ ⟨.writePartial block offset buf, clock⟩) :
    Matches D content bl ro ⟨bl, ro, cr, some c, s⟩ a ⟨.writePartial block offset buf, clock⟩ := by
  simp only [Matches, blkStep, blkdevWritePartial, arrayStep]
  by_cases hro : ro = true
  · simp only [hro, if_true]
    exact ⟨_, rfl, rfl, rfl, c, rfl, hco⟩
  by_cases hb : block ≥ bl
  · simp only [hro, hb, if_true, true_or]
    exact ⟨_, rfl, rfl, rfl, c, rfl, hco⟩
  by_cases ho : outsideBlock n offset buf.length
  · simp only [hro, hb, ho, if_true, if_false, or_true]
    exact ⟨_, rfl, rfl, rfl, c, rfl, hco⟩
  by_cases h0 : buf.length = 0
  · simp only [hro, hb, ho, if_false, or_self, if_pos h0, patch_nil _ _ h0, update_eq_self]
    exact ⟨_, rfl, rfl, rfl, c, rfl, hco⟩
  simp only [hro, hb, ho, h0, if_false, or_self, Option.map_some]
  have hlt : block < bl := not_le.mp hb
  obtain ⟨hown, hfull⟩ := hok c rfl (eq_false_of_ne_true hro) hlt ho h0
  rcases hown.cases with ⟨hslot, hno⟩ | ⟨i, hslot, hi, huse⟩
  · obtain ⟨he, hs⟩ := hD.writePartial (s := s) hlt ho
    simp only [hslot, he, hco.uncached hlt hno]
    exact ⟨_, rfl, rfl, rfl, c, rfl, hco.through hno hs⟩
  · -- the rest of the entry is the rest of the block, or nothing is left of it
    have hpatch : patch (c.blockCache i) offset buf = patch (a block) offset buf := by
      rcases hfull i hslot with ⟨hp, he⟩ | hwhole
      · have hhit : c.Holds i block := ⟨hi, hp, hown i hslot hp⟩
        rw [hco.cached hhit, BlkdevCache.data, he]
        rfl
      · exact patch_whole _ _ hwhole
    simp only [hslot, hpatch]
    exact ⟨_, rfl, rfl, rfl, _, rfl, hco.write hlt hi huse _ _⟩

theorem flush_matches (clock : ℕ → ℤ) : Matches D content bl ro ⟨bl, ro, cr, some c, s⟩ a ⟨.flush, clock⟩ := by
  unfold Matches
  simp only [blkStep, blkdevFlush, arrayStep]
  cases ro with
  | true => exact ⟨_, rfl, rfl, rfl, c, rfl, hco⟩
  | false =>
    obtain ⟨he, hco'⟩ := flushLoop_coherent cr clock c.cacheDepth 0 hD hco (by omega)
    simp only [Bool.false_eq_true, if_false, Option.map_some, he]
    exact ⟨_, rfl, rfl, rfl, _, rfl, hco'⟩

theorem housekeeping_matches (clock : ℕ → ℤ) : Matches D content bl ro ⟨bl, ro, cr, some c, s⟩ a ⟨.housekeeping, clock⟩ := by
  unfold Matches
  simp only [blkStep, blkdevHousekeeping, arrayStep, Option.map_some]
  obtain ⟨he, hco'⟩ := housekeepingLoop_coherent cr clock c.cacheDepth 0 hD
    hco (by omega) (clock 0 - writeCacheTimeout)
  simp only [he]
  exact ⟨_, rfl, rfl, rfl, _, rfl, hco'⟩

end

theorem step_matches (hD : ErrorFree D content blocks)
    (h : CoherentDev content blocks readonly dev a) {call : BlkCall n} (hok : SafeCall dev call) :
    Matches D content blocks readonly dev a call := by
  obtain ⟨bl, ro, cr, cache, s⟩ := dev
  obtain ⟨rfl, rfl, c, rfl, hco⟩ := h
  obtain ⟨op, clock⟩ := call
  cases op with
  | read block => exact read_matches hD hco clock hok
  | write block buf => exact write_matches hD hco buf clock hok
  | readPartial block offset len => exact readPartial_matches hD hco offset len clock hok
  | writePartial block offset buf => exact writePartial_matches hD hco offset buf clock hok
  | erase block => exact erase_matches hD hco clock hok
  | flush => exact flush_matches hD hco clock
  | housekeeping => exact housekeeping_matches hD hco clock

end

/-! ## Runs -/

/-- The arguments are in range. -/
def InRangeCall (dev : Blkdev σ n) (call : BlkCall n) : Prop :=
  match call.op with
  | .read block => block < dev.blocks
  | .write block _ => block < dev.blocks
  | .readPartial block offset len => block < dev.blocks ∧ ¬ outsideBlock n offset len
  | .writePartial block offset buf => block < dev.blocks ∧ ¬ outsideBlock n offset buf.length
  | .erase block => block < dev.blocks
  | .flush => True
  | .housekeeping => True

/-- The cache that `blkdev_create_cache` leaves: no entry is present. -/
def FreshCache (c : BlkdevCache n) : Prop := ∀ i, c.blockFlags i = {}

theorem FreshCache.coherent {c : BlkdevCache n} (hnew : FreshCache c) {content : σ → ℕ → Block n}
    {blocks : ℕ} {s : σ} {a : ℕ → Block n} (hs : ∀ b < blocks, content s b = a b) :
    Coherent content blocks c s a := by
  have hno : ∀ {i b}, ¬ c.Holds i b := by
    rintro i b ⟨-, hp, -⟩
    rw [hnew i] at hp
    cases hp
  exact ⟨fun h => absurd h hno, fun h => absurd h hno, fun h => absurd h hno,
    fun h => absurd h hno, fun h => absurd h hno, fun hb _ => (hs _ hb).symm⟩

/-- In every run of safe calls on a device with a new cache, each call returns what it
    returns on the array of the blocks that the driver held at the start. -/
theorem blkdev_refines_array {D : BlkdevVtable σ n} {content : σ → ℕ → Block n} {dev : Blkdev σ n}
    (hD : ErrorFree D content dev.blocks) {c : BlkdevCache n} (hc : dev.cache = some c)
    (hnew : FreshCache c) {calls : List (BlkCall n)} {outs : List (Cause × List UInt8)}
    {dev' : Blkdev σ n} (htrace : Trace (blkStep D) SafeCall dev calls outs dev') :
    outs = (replay (arrayStep dev.blocks dev.readonly) (content dev.cookie) calls).1 ∧
    ∀ call, SafeCall dev' call → (blkStep D dev' call).isSome := by
  have hstart : CoherentDev content dev.blocks dev.readonly dev (content dev.cookie) :=
    ⟨rfl, rfl, c, hc, hnew.coherent fun _ _ => rfl⟩
  have hstep : ∀ {d a call w d'}, CoherentDev content dev.blocks dev.readonly d a →
      SafeCall d call → blkStep D d call = some (w, d') →
      w = (arrayStep dev.blocks dev.readonly a call).1 ∧
        CoherentDev content dev.blocks dev.readonly d'
          (arrayStep dev.blocks dev.readonly a call).2 := by
    intro d a call w d' hco hok hst
    obtain ⟨d'', heq, hco'⟩ := step_matches hD hco hok
    rw [heq] at hst
    cases hst
    exact ⟨rfl, hco'⟩
  obtain ⟨houts, hend⟩ := htrace.simulates hstep hstart
  refine ⟨houts, fun call hok => ?_⟩
  obtain ⟨dev'', heq, -⟩ := step_matches hD hend hok
  rw [heq]
  rfl

/-! ## A device in memory -/

/-- A driver that keeps its blocks in memory and can erase them. -/
def memoryDriver (n : ℕ) : BlkdevVtable (ℕ → Block n) n where
  erase s b := (.ok, update s b (erased n))
  write s b d := (.ok, update s b d)
  read s b := (.ok, s b, s)
  writePartial s b offset buf := (.ok, update s b (patch (s b) offset buf))
  readPartial s b offset len := (.ok, slice (s b) offset len, s)

theorem memoryDriver_errorFree (n blocks : ℕ) : ErrorFree (memoryDriver n) id blocks :=
  ⟨fun _ => ⟨rfl, rfl⟩, fun _ => ⟨rfl, rfl⟩, fun _ => ⟨rfl, rfl, rfl⟩, fun _ _ => ⟨rfl, rfl⟩,
    fun _ _ => ⟨rfl, rfl, rfl⟩⟩

/-- Two blocks of one byte, all zero, with one cache entry. -/
def smallDevice : Blkdev (ℕ → Block 1) 1 where
  blocks := 2
  cacheRead := true
  cache := some { blockCache := fun _ _ => 0, blockFlags := fun _ => {}, cacheDepth := 1 }
  cookie := fun _ _ => 0

/-- A write to one block and an erase of the other one, which the full cache passes on. -/
def smallCalls : List (BlkCall 1) :=
  [⟨.write 0 fun _ => 7, fun _ => 5⟩, ⟨.erase 1, fun _ => 6⟩, ⟨.read 0, fun _ => 7⟩]

theorem blkdev_refines_array_small : ∃ outs dev',
    Trace (blkStep (memoryDriver 1)) SafeCall smallDevice smallCalls outs dev' ∧
    outs = (replay (arrayStep smallDevice.blocks smallDevice.readonly) (id smallDevice.cookie)
      smallCalls).1 := by
  obtain ⟨outs, dev', htrace⟩ : ∃ outs dev',
      Trace (blkStep (memoryDriver 1)) SafeCall smallDevice smallCalls outs dev' := by
    refine ⟨_, _, .cons ?_ rfl (.cons ?_ rfl (.cons ?_ rfl (.nil _)))⟩
    · rintro c ⟨⟩ - - i hi hp
      cases (show some 0 = some i from hi)
      exact absurd hp (by decide)
    · rintro c ⟨⟩ - -
      have hfull : ∀ i : ℕ, none ≠ some i := nofun
      exact ⟨fun i hi => absurd hi (hfull i), fun i hi => absurd hi (hfull i)⟩
    · rintro c ⟨⟩ - i hi -
      cases (show some 0 = some i from hi)
      rfl
  have hD : ErrorFree (memoryDriver 1) id smallDevice.blocks := memoryDriver_errorFree 1 2
  exact ⟨outs, dev', htrace, (blkdev_refines_array hD rfl (fun _ => rfl) htrace).1⟩

/-- On a new cache with one entry an erase of block 0 is cached as a write of the zeros
    that the entry held, and the read after it returns them. -/
theorem blkdev_erase_lost : ¬ ∀ (σ : Type) (n : ℕ) (D : BlkdevVtable σ n)
    (content : σ → ℕ → Block n) (dev : Blkdev σ n), ErrorFree D content dev.blocks →
    ∀ c, dev.cache = some c → FreshCache c → ∀ calls outs dev',
    Trace (blkStep D) InRangeCall dev calls outs dev' →
    outs = (replay (arrayStep dev.blocks dev.readonly) (content dev.cookie) calls).1 := by
  intro hall
  have htrace : Trace (blkStep (memoryDriver 1)) InRangeCall smallDevice
      [⟨.erase 0, fun _ => 5⟩, ⟨.read 0, fun _ => 6⟩] _ _ :=
    .cons (show 0 < 2 by decide) rfl (.cons (show 0 < 2 by decide) rfl (.nil _))
  have hout := hall _ _ (memoryDriver 1) id smallDevice (memoryDriver_errorFree 1 2) _ rfl
    (fun _ => rfl) _ _ _ htrace
  revert hout
  decide

end BadgerOS.Blockdevice

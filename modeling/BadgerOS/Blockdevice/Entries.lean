import BadgerOS.Blockdevice.PartialReads
import BadgerOS.Lib.Run

/-!
# Entries of the block device cache

What holds of the entries whatever the driver reports and the clock says, and what
`blkdev_housekeeping` does to the contents that they stand for.

* `EntriesOk`: at most one present entry a block, and none that is both dirty and to be
  erased. `EntriesOk.put` is the one way in which the functions change an entry.
* `devStep_entriesOk`, `entries_run`: every call keeps it, and so does every run; the entry
  that `blkdev_alloc_cache` selects is the block's own, a vacant one or a clean one.
* `logical`: the contents of a block, pending writes and erases included.
* `blkdevHousekeeping_logical`: housekeeping keeps the contents of every block and leaves no
  pending entry that is older than the timeout.
-/

namespace BadgerOS.Blockdevice

open Option List Function
open BlkdevCache (holds_put_of_ne put_blockFlags_of_ne setFlags_eq_put)

variable {σ : Type} {n : ℕ}

/-! ## Calls -/

/-- The calls on a device, with the values that `time_us` returns during a call and the error
    that is in `ec` before it. -/
inductive DevCall (n : ℕ)
  | io (op : BlkOp n) (clock : ℕ → ℤ) (ec : Cause)
  | createCache (clock : ℕ → ℤ) (ec : Cause) (cacheDepth : ℕ) (cacheReads : Bool)
      (mallocOk : ℕ → Bool) (memory : ℕ → Block n)
  | deleteCache (clock : ℕ → ℤ) (ec : Cause)

/-- The device after a call. -/
def devStep (D : BlkdevVtable σ n) (dev : Blkdev σ n) : DevCall n → Option (Blkdev σ n)
  | .io op clock ec =>
    match op with
    | .read block => (blkdevRead D dev clock block).map fun r => r.2.2
    | .write block buf => (blkdevWrite D dev clock block buf).map fun r => r.2
    | .readPartial block offset len =>
      (blkdevReadPartial D dev clock block offset len).map fun r => r.2.2
    | .writePartial block offset buf =>
      (blkdevWritePartial D dev clock block offset buf).map fun r => r.2
    | .erase block => (blkdevErase D dev clock block).map fun r => r.2
    | .flush => (blkdevFlush D dev clock ec).map fun r => r.2
    | .housekeeping => (blkdevHousekeeping D dev clock ec).map fun r => r.2
  | .createCache clock ec cacheDepth cacheReads mallocOk memory =>
    (blkdevCreateCache D dev clock ec cacheDepth cacheReads mallocOk memory).map fun r => r.2
  | .deleteCache clock ec => (blkdevDeleteCache D dev clock ec).map fun r => r.2

/-! ## The invariant -/

/-- At most one present entry a block, and no entry that is both dirty and to be erased. -/
structure EntriesOk (c : BlkdevCache n) : Prop where
  unique : ∀ {i j b}, c.Holds i b → c.Holds j b → i = j
  exclusive : ∀ {i}, i < c.cacheDepth →
    ¬ ((c.blockFlags i).dirty = true ∧ (c.blockFlags i).erase = true)

/-- What `blkdev_alloc_cache` selects for a block: its own entry, or a vacant or clean one. -/
structure SlotOk (c : BlkdevCache n) (now : ℤ) (block : ℕ) : Prop where
  own : ∀ {i}, c.Holds i block → blkdevAllocCache c now block = some i
  other : (∀ i, ¬ c.Holds i block) → ∀ {i}, blkdevAllocCache c now block = some i →
    i < c.cacheDepth ∧ blkdevIsDirty (c.blockFlags i) = false

/-- The invariant of a device, with or without a cache. -/
def DevEntriesOk (dev : Blkdev σ n) : Prop := ∀ c, dev.cache = some c → EntriesOk c

namespace EntriesOk

variable {c : BlkdevCache n} {i : ℕ} {f : BlkdevFlags} {d : Block n}

theorem fresh (h : FreshCache c) : EntriesOk c := by
  refine ⟨fun {i j b} hi _ => ?_, fun {i} _ => ?_⟩
  · have hp := hi.2.1
    rw [h i] at hp
    cases hp
  · rw [h i]
    simp

theorem slotOk (h : EntriesOk c) (now : ℤ) (block : ℕ) : SlotOk c now block := by
  have hslot := blkdevAllocCache_slot c now block
  constructor
  · intro i hi
    generalize blkdevAllocCache c now block = slot at hslot ⊢
    cases hslot with
    | hit hj => rw [h.unique hj hi]
    | vacant _ _ hno => exact absurd hi (hno i)
    | reused _ _ _ hno => exact absurd hi (hno i)
    | full hno => exact absurd hi (hno i)
  · intro hno i hi
    rw [hi] at hslot
    cases hslot with
    | hit hj => exact absurd hj (hno i)
    | vacant hlt hp _ => exact ⟨hlt, by simp [blkdevIsDirty, hp]⟩
    | reused hj _ hclean _ => exact ⟨hj.1, hclean⟩

section

variable (h : EntriesOk c) (hexcl : ¬ (f.dirty = true ∧ f.erase = true))
  (hslot : f.present = true → c.Holds i f.index ∨ ∀ j, ¬ c.Holds j f.index)

include h hexcl hslot

/-- An entry is written. If it is present afterwards, it was the entry of that block, or there
    was none. -/
theorem put : EntriesOk (c.put i f d) := by
  -- the entries besides `i` are for other blocks
  have hother : ∀ {j b}, j ≠ i → c.Holds j b → (c.put i f d).Holds i b → False := by
    intro j b hj hjb hib
    obtain ⟨hp, rfl⟩ := BlkdevCache.holds_put_self hib
    rcases hslot hp with hi | hno
    · exact hj (h.unique hjb hi)
    · exact hno j hjb
  constructor
  · intro j k b hj hk
    by_cases hji : j = i
    · subst hji
      by_cases hki : k = j
      · exact hki.symm
      · exact (hother hki ((holds_put_of_ne hki).mp hk) hj).elim
    · by_cases hki : k = i
      · subst hki
        exact (hother hji ((holds_put_of_ne hji).mp hj) hk).elim
      · exact h.unique ((holds_put_of_ne hji).mp hj) ((holds_put_of_ne hki).mp hk)
  · intro j hj
    by_cases hji : j = i
    · subst hji
      rw [BlkdevCache.put_blockFlags_self]
      exact hexcl
    · rw [put_blockFlags_of_ne hji]
      exact h.exclusive hj

theorem setFlags : EntriesOk (c.setFlags i f) := by
  rw [setFlags_eq_put]
  exact h.put hexcl hslot

end

end EntriesOk

/-! ## Every call keeps the invariant -/

section

variable {D : BlkdevVtable σ n} {dev dev' : Blkdev σ n} {c : BlkdevCache n} {block i : ℕ} {now : ℤ}

theorem writeFlags_exclusive (f : BlkdevFlags) (now : ℤ) (block : ℕ) :
    ¬ ((writeFlags f now block).dirty = true ∧ (writeFlags f now block).erase = true) := by
  unfold writeFlags
  split_ifs <;> simp [newFlags]

theorem writeFlags_index {f : BlkdevFlags} (now : ℤ) (block : ℕ) :
    (f.present = true → (writeFlags f now block).index = f.index) ∧
      (f.present = false → (writeFlags f now block).index = block) := by
  unfold writeFlags
  split_ifs with hp
  · exact ⟨fun _ => rfl, fun hp' => by rw [hp] at hp'; cases hp'⟩
  · exact ⟨fun hp' => absurd hp' hp, fun _ => rfl⟩

theorem readFlags_eq (f : BlkdevFlags) (now : ℤ) : (readFlags f now).index = f.index ∧
    (readFlags f now).dirty = f.dirty ∧ (readFlags f now).erase = f.erase := by
  unfold readFlags
  split_ifs <;> exact ⟨rfl, rfl, rfl⟩

section

variable (h : EntriesOk c) (hi : blkdevAllocCache c now block = some i)

include h hi

/-- The slot of a block is written: flags that keep the block of a present entry, and the block
    itself for a vacant one. -/
theorem EntriesOk.putSlot {f : BlkdevFlags} {d : Block n}
    (hexcl : ¬ (f.dirty = true ∧ f.erase = true))
    (hkept : (c.blockFlags i).present = true → f.index = (c.blockFlags i).index)
    (hnew : (c.blockFlags i).present = false → f.index = block) : EntriesOk (c.put i f d) := by
  apply h.put hexcl
  intro _
  rcases blkdevAllocCache_some hi with ⟨hp, hholds⟩ | ⟨hp, _, hno⟩
  · rw [hkept hp]
    exact .inl hholds
  · rw [hnew hp]
    exact .inr hno

theorem EntriesOk.writeSlot (t : ℤ) (d : Block n) :
    EntriesOk ((c.setFlags i (writeFlags (c.blockFlags i) t block)).setBlock i d) :=
  h.putSlot hi (writeFlags_exclusive _ t block) (writeFlags_index t block).1
    (writeFlags_index t block).2

theorem EntriesOk.touch (hp : (c.blockFlags i).present = true) (t : ℤ) :
    EntriesOk (c.setFlags i (readFlags (c.blockFlags i) t)) := by
  obtain ⟨hindex, hdirty, herase⟩ := readFlags_eq (c.blockFlags i) t
  have hlt : i < c.cacheDepth := by
    rcases blkdevAllocCache_some hi with ⟨_, hholds⟩ | ⟨_, hlt, _⟩
    · exact hholds.1
    · exact hlt
  rw [setFlags_eq_put]
  refine h.putSlot hi ?_ (fun _ => hindex) fun hp' => ?_
  · rw [hdirty, herase]
    exact h.exclusive hlt
  · rw [hp] at hp'
    cases hp'

theorem EntriesOk.fill (hp : (c.blockFlags i).present = false) (t : ℤ) (d : Block n) :
    EntriesOk ((c.setFlags i (newFlags t block false)).setBlock i d) := by
  refine h.putSlot hi (by simp [newFlags]) (fun hp' => ?_) fun _ => rfl
  rw [hp] at hp'
  cases hp'

end

theorem EntriesOk.flushCache (h : EntriesOk c) (hi : i < c.cacheDepth)
    (hp : (c.blockFlags i).present = true) (cacheRead : Bool) (ec : Cause) (s : σ) (now : ℤ) :
    EntriesOk (blkdevFlushCache D cacheRead ec s c i now).2.2 ∧
      (blkdevFlushCache D cacheRead ec s c i now).2.2.cacheDepth = c.cacheDepth := by
  have hholds : c.Holds i (c.blockFlags i).index := ⟨hi, hp, rfl⟩
  unfold blkdevFlushCache
  by_cases hd : (c.blockFlags i).dirty = true
  · simp only [hd, if_true]
    exact ⟨h.setFlags (by simp) fun _ => .inl hholds, rfl⟩
  · by_cases he : (c.blockFlags i).erase = true
    · simp only [hd, he, if_true]
      exact ⟨h.setFlags (by simp) fun _ => .inl hholds, rfl⟩
    · simp only [hd, he]
      exact ⟨h.setFlags (by simp) fun _ => .inl hholds, rfl⟩

theorem EntriesOk.flushLoop (h : EntriesOk c) (cacheRead : Bool) (clock : ℕ → ℤ) (ec : Cause)
    (s : σ) (k i : ℕ) (hk : i + k = c.cacheDepth) :
    EntriesOk (flushLoop D cacheRead clock ec s c k i).2.2 := by
  induction k generalizing i with
  | zero => exact h
  | succ k ih =>
    rw [Blockdevice.flushLoop]
    split_ifs with hpend
    · exact (h.flushCache (by omega) hpend.1 cacheRead ec s (clock i)).1
    · exact ih (i + 1) (by omega)

theorem EntriesOk.housekeepingLoop (h : EntriesOk c) (cacheRead : Bool) (clock : ℕ → ℤ)
    (timeout : ℤ) (ec : Cause) (s : σ) (k i : ℕ) (hk : i + k = c.cacheDepth) :
    EntriesOk (housekeepingLoop D cacheRead clock timeout k i ec s c).2.2 := by
  induction k generalizing i ec s c with
  | zero => exact h
  | succ k ih =>
    rw [Blockdevice.housekeepingLoop]
    split_ifs with hpend
    · obtain ⟨hok, hdepth⟩ := h.flushCache (D := D) (i := i) (by omega)
        ((blkdevIsDirty_iff _).mp hpend.1).1 cacheRead ec s (clock (i + 1))
      rcases hflush : blkdevFlushCache D cacheRead ec s c i (clock (i + 1)) with ⟨e, s', c'⟩
      rw [hflush] at hok hdepth
      simp only
      split_ifs
      · exact hok
      · exact ih hok e s' (i + 1) (by rw [hdepth]; omega)
    · exact ih h ec s (i + 1) (by omega)

variable {clock : ℕ → ℤ} {ec : Cause} {out : Cause × List UInt8 × Blkdev σ n}

theorem DevEntriesOk.of_cache (h : EntriesOk c) (hc : dev.cache = some c) : DevEntriesOk dev := by
  intro c' hc'
  rw [hc] at hc'
  cases hc'
  exact h

theorem DevEntriesOk.read (h : DevEntriesOk dev) (hst : blkdevRead D dev clock block = some out) : DevEntriesOk out.2.2 := by
  by_cases hb : block < dev.blocks
  · obtain ⟨c, hc⟩ : ∃ c, dev.cache = some c := by
      rw [blkdevRead, if_neg (by omega)] at hst
      obtain ⟨c, hc, _⟩ := map_eq_some_iff.mp hst
      exact ⟨c, hc⟩
    have hok := h c hc
    rcases cache_cases dev c (clock 0) block with ⟨i, hi⟩ | ⟨i, hi⟩ | hno
    · rw [blkdevRead_hit hc hb hi] at hst
      cases hst
      exact .of_cache (hok.touch hi.1 hi.2 _) rfl
    · rw [blkdevRead_fill hc hb hi] at hst
      cases hst
      exact .of_cache (hok.fill hi.1 hi.2.1 _ _) rfl
    · rw [blkdevRead_bypass hc hb hno] at hst
      cases hst
      exact .of_cache hok hc
  · rw [blkdevRead, if_pos (by omega)] at hst
    cases hst
    exact h

theorem DevEntriesOk.readPartial (h : DevEntriesOk dev) {offset len : ℕ}
    (hst : blkdevReadPartial D dev clock block offset len = some out) : DevEntriesOk out.2.2 := by
  by_cases hb : block ≥ dev.blocks
  · rw [blkdevReadPartial, if_pos hb] at hst
    rwa [← some.inj hst]
  by_cases hin : outsideBlock n offset len
  · rw [blkdevReadPartial, if_neg hb, if_pos hin] at hst
    rwa [← some.inj hst]
  by_cases hlen : len = 0
  · rw [blkdevReadPartial, if_neg hb, if_neg hin, if_pos hlen] at hst
    rwa [← some.inj hst]
  obtain ⟨c, hc⟩ : ∃ c, dev.cache = some c := by
    rw [blkdevReadPartial, if_neg hb, if_neg hin, if_neg hlen] at hst
    obtain ⟨c, hc, _⟩ := map_eq_some_iff.mp hst
    exact ⟨c, hc⟩
  have hb := not_le.mp hb
  have hok := h c hc
  rcases cache_cases dev c (clock 0) block with ⟨i, hi⟩ | ⟨i, hi⟩ | hno
  · rw [blkdevReadPartial_hit hc hb hin hlen hi] at hst
    cases hst
    exact .of_cache (hok.touch hi.1 hi.2 _) rfl
  · rw [blkdevReadPartial_fill hc hb hin hlen hi] at hst
    cases hst
    exact .of_cache (hok.fill hi.1 hi.2.1 _ _) rfl
  · rw [blkdevReadPartial_bypass hc hb hin hlen hno] at hst
    cases hst
    exact .of_cache hok hc

variable {out : Cause × Blkdev σ n}

section

variable (h : DevEntriesOk dev)

include h

theorem DevEntriesOk.write {buf : Block n} (hst : blkdevWrite D dev clock block buf = some out) : DevEntriesOk out.2 := by
  unfold blkdevWrite at hst
  split_ifs at hst
  · rwa [← some.inj hst]
  · rwa [← some.inj hst]
  · obtain ⟨c, hc, rfl⟩ := map_eq_some_iff.mp hst
    cases hslot : blkdevAllocCache c (clock 0) block with
    | none => exact .of_cache (h c hc) hc
    | some i => exact .of_cache ((h c hc).writeSlot hslot _ _) rfl

theorem DevEntriesOk.writePartial {offset : ℕ} {buf : List UInt8}
    (hst : blkdevWritePartial D dev clock block offset buf = some out) : DevEntriesOk out.2 := by
  unfold blkdevWritePartial at hst
  split_ifs at hst
  · rwa [← some.inj hst]
  · rwa [← some.inj hst]
  · rwa [← some.inj hst]
  · rwa [← some.inj hst]
  · obtain ⟨c, hc, rfl⟩ := map_eq_some_iff.mp hst
    cases hslot : blkdevAllocCache c (clock 0) block with
    | none => exact .of_cache (h c hc) hc
    | some i => exact .of_cache ((h c hc).writeSlot hslot _ _) rfl

theorem DevEntriesOk.erase (hst : blkdevErase D dev clock block = some out) : DevEntriesOk out.2 := by
  unfold blkdevErase at hst
  split_ifs at hst
  · rwa [← some.inj hst]
  · rwa [← some.inj hst]
  obtain ⟨c, hc, rfl⟩ := map_eq_some_iff.mp hst
  cases hslot : blkdevAllocCache c (clock 0) block with
  | none => exact .of_cache (h c hc) hc
  | some i =>
    refine .of_cache (c := c.setFlags i _) ?_ rfl
    rw [setFlags_eq_put]
    by_cases hp : (c.blockFlags i).present = true
    · rw [if_pos hp]
      refine (h c hc).putSlot hslot (by simp) (fun _ => rfl) fun hp' => ?_
      rw [hp] at hp'
      cases hp'
    · rw [if_neg hp]
      exact (h c hc).putSlot hslot (by simp [newFlags]) (fun hp' => absurd hp' hp) fun _ => rfl

theorem DevEntriesOk.flush (hst : blkdevFlush D dev clock ec = some out) : DevEntriesOk out.2 := by
  unfold blkdevFlush at hst
  split_ifs at hst with hro
  · cases hst
    exact h
  obtain ⟨c, hc, rfl⟩ := map_eq_some_iff.mp hst
  exact .of_cache ((h c hc).flushLoop dev.cacheRead clock ec dev.cookie c.cacheDepth 0
    (Nat.zero_add _)) rfl

theorem DevEntriesOk.housekeeping (hst : blkdevHousekeeping D dev clock ec = some out) : DevEntriesOk out.2 := by
  obtain ⟨c, hc, rfl⟩ := map_eq_some_iff.mp hst
  exact .of_cache ((h c hc).housekeepingLoop dev.cacheRead clock _ ec dev.cookie c.cacheDepth 0
    (Nat.zero_add _)) rfl

end

theorem DevEntriesOk.of_none (h : dev.cache = none) : DevEntriesOk dev := by
  intro c hc
  rw [h] at hc
  cases hc

theorem DevEntriesOk.createCache (h : DevEntriesOk dev) {cacheDepth : ℕ} {cacheReads : Bool}
    {mallocOk : ℕ → Bool} {memory : ℕ → Block n}
    (hst : blkdevCreateCache D dev clock ec cacheDepth cacheReads mallocOk memory = some out) :
    DevEntriesOk out.2 := by
  rw [blkdevCreateCache] at hst
  split at hst
  · rwa [← some.inj hst]
  obtain ⟨r, hr, rfl⟩ := map_eq_some_iff.mp hst
  have hflushed : DevEntriesOk r.2 := by
    split at hr
    · exact h.flush hr
    · rwa [← some.inj hr]
  split_ifs
  · exact hflushed
  · exact .of_cache (.fresh fun _ => rfl) rfl
  · exact .of_none rfl
  · exact .of_none rfl
  · exact .of_none rfl

theorem DevEntriesOk.deleteCache (h : DevEntriesOk dev)
    (hst : blkdevDeleteCache D dev clock ec = some out) : DevEntriesOk out.2 := by
  rw [blkdevDeleteCache] at hst
  split at hst
  · obtain ⟨r, hr, rfl⟩ := map_eq_some_iff.mp hst
    split_ifs
    · exact h.flush hr
    · exact .of_none rfl
  · rwa [← some.inj hst]

theorem devStep_entriesOk (h : DevEntriesOk dev) {call : DevCall n}
    (hst : devStep D dev call = some dev') : DevEntriesOk dev' := by
  cases call with
  | io op clock ec =>
    cases op with obtain ⟨out, hout, rfl⟩ := map_eq_some_iff.mp hst
    | read block => exact h.read hout
    | write block buf => exact h.write hout
    | readPartial block offset len => exact h.readPartial hout
    | writePartial block offset buf => exact h.writePartial hout
    | erase block => exact h.erase hout
    | flush => exact h.flush hout
    | housekeeping => exact h.housekeeping hout
  | createCache clock ec cacheDepth cacheReads mallocOk memory =>
    obtain ⟨out, hout, rfl⟩ := map_eq_some_iff.mp hst
    exact h.createCache hout
  | deleteCache clock ec =>
    obtain ⟨out, hout, rfl⟩ := map_eq_some_iff.mp hst
    exact h.deleteCache hout

/-- In every run from a device without a cache or with a new one, whatever the driver reports and
    the clock says. -/
theorem entries_run {calls : List (DevCall n)} (hnew : ∀ c, dev.cache = some c → FreshCache c)
    (hrun : Run (devStep D) (fun _ _ => True) dev calls dev') (hc : dev'.cache = some c) :
    EntriesOk c ∧ ∀ now block, SlotOk c now block := by
  have hstart : DevEntriesOk dev := fun c hc => .fresh (hnew c hc)
  have hok : EntriesOk c := hrun.invariant (fun h _ hst => devStep_entriesOk h hst) hstart c hc
  exact ⟨hok, hok.slotOk⟩

end

/-- A driver whose writes and erases fail. -/
def failingDriver (n : ℕ) : BlkdevVtable (ℕ → Block n) n where
  erase s _ := (.timeout, s)
  write s _ _ := (.timeout, s)
  read s b := (.ok, s b, s)
  writePartial s _ _ _ := (.timeout, s)
  readPartial s b offset len := (.ok, slice (s b) offset len, s)

/-- A block is written, the flush of it fails, and it is read again. -/
theorem entries_run_failing : ∃ dev' c,
    Run (devStep (failingDriver 1)) (fun _ _ => True) smallDevice
      [.io (.write 0 fun _ => 7) (fun _ => 5) .ok, .io .flush (fun _ => 6) .ok,
        .io (.read 0) (fun _ => 8) .ok] dev' ∧
    dev'.cache = some c ∧ EntriesOk c ∧ SlotOk c 9 1 := by
  have hrun : Run (devStep (failingDriver 1)) (fun _ _ => True) smallDevice
      [.io (.write 0 fun _ => 7) (fun _ => 5) .ok, .io .flush (fun _ => 6) .ok,
        .io (.read 0) (fun _ => 8) .ok] _ :=
    .cons trivial rfl (.cons trivial rfl (.cons trivial rfl (.nil _)))
  have hnew : ∀ c, smallDevice.cache = some c → FreshCache c := by
    intro c hc
    cases hc
    exact fun _ => rfl
  obtain ⟨hok, hslot⟩ := entries_run hnew hrun rfl
  exact ⟨_, _, hrun, rfl, hok, hslot 9 1⟩

/-! ## Housekeeping -/

/-- The contents of a block: those of its pending entry, or what the driver holds. -/
def logical (content : σ → ℕ → Block n) (c : BlkdevCache n) (s : σ) (b : ℕ) : Block n :=
  match (List.range c.cacheDepth).find? fun i =>
      blkdevIsDirty (c.blockFlags i) && (c.blockFlags i).index == b with
  | some i => c.data i
  | none => content s b

section

variable {D : BlkdevVtable σ n} {content : σ → ℕ → Block n} {c : BlkdevCache n} {s : σ} {b i : ℕ}

theorem Pending.holds (h : Pending c i) : c.Holds i (c.blockFlags i).index :=
  ⟨h.1, ((blkdevIsDirty_iff _).mp h.2).1, rfl⟩

theorem logical_of_pending (h : EntriesOk c) (hi : Pending c i) : logical content c s (c.blockFlags i).index = c.data i := by
  unfold logical
  cases hfind : (range c.cacheDepth).find? fun j =>
      blkdevIsDirty (c.blockFlags j) && (c.blockFlags j).index == (c.blockFlags i).index with
  | none =>
    have hnot := find?_eq_none.mp hfind i (mem_range.mpr hi.1)
    simp [hi.2] at hnot
  | some j =>
    have hj := find?_some hfind
    simp only [Bool.and_eq_true, beq_iff_eq] at hj
    have hpend : Pending c j := ⟨mem_range.mp (mem_of_find?_eq_some hfind), hj.1⟩
    have hholds : c.Holds j (c.blockFlags i).index := hj.2 ▸ hpend.holds
    rw [h.unique hholds hi.holds]

theorem logical_of_none (h : ∀ i, Pending c i → (c.blockFlags i).index ≠ b) : logical content c s b = content s b := by
  unfold logical
  have hfind : ((range c.cacheDepth).find? fun i =>
      blkdevIsDirty (c.blockFlags i) && (c.blockFlags i).index == b) = none := by
    apply find?_eq_none.mpr
    intro i hi
    simp only [Bool.and_eq_true, beq_iff_eq, not_and]
    exact fun hd => h i ⟨mem_range.mp hi, hd⟩
  rw [hfind]

theorem blkdevFlushCache_stored {blocks : ℕ} (hD : ErrorFree D content blocks) (h : EntriesOk c)
    (hi : Pending c i) (hb : (c.blockFlags i).index < blocks) (cacheRead : Bool) (ec : Cause)
    (now : ℤ) : ∃ s' f, blkdevFlushCache D cacheRead ec s c i now = (.ok, s', c.setFlags i f) ∧
      content s' = update (content s) (c.blockFlags i).index (c.data i) ∧
      f.index = (c.blockFlags i).index ∧ blkdevIsDirty f = false ∧
      ¬ (f.dirty = true ∧ f.erase = true) := by
  unfold blkdevFlushCache
  by_cases hd : (c.blockFlags i).dirty = true
  · have hdata : c.data i = c.blockCache i := by
      have he : ¬ (c.blockFlags i).erase = true := fun he => h.exclusive hi.1 ⟨hd, he⟩
      rw [BlkdevCache.data, if_neg he]
    obtain ⟨hok, hs⟩ := hD.write (s := s) (d := c.blockCache i) hb
    rcases hw : D.write s (c.blockFlags i).index (c.blockCache i) with ⟨e, s'⟩
    rw [hw] at hok hs
    simp only [hd, if_true, hw]
    obtain rfl : e = .ok := hok
    exact ⟨s', _, rfl, by rw [hs, hdata], rfl, by simp [blkdevIsDirty], by simp⟩
  · have he : (c.blockFlags i).erase = true := by
      have := ((blkdevIsDirty_iff _).mp hi.2).2
      exact this.resolve_left hd
    have hdata : c.data i = erased n := by
      rw [BlkdevCache.data, if_pos he]
    obtain ⟨hok, hs⟩ := hD.erase (s := s) hb
    rcases hw : D.erase s (c.blockFlags i).index with ⟨e, s'⟩
    rw [hw] at hok hs
    simp only [hd, he, if_true, hw]
    obtain rfl : e = .ok := hok
    exact ⟨s', _, rfl, by rw [hs, hdata], rfl, by simp [blkdevIsDirty], by simp⟩

theorem logical_stored {s' : σ} {f : BlkdevFlags} (h : EntriesOk c) (hi : Pending c i)
    (h' : EntriesOk (c.setFlags i f)) (hclean : blkdevIsDirty f = false)
    (hs : content s' = update (content s) (c.blockFlags i).index (c.data i)) (b : ℕ) :
    logical content (c.setFlags i f) s' b = logical content c s b := by
  have hflags : ∀ {j}, j ≠ i → (c.setFlags i f).blockFlags j = c.blockFlags j := by
    intro j hne
    rw [setFlags_eq_put, put_blockFlags_of_ne hne]
  have hother : ∀ {j}, Pending (c.setFlags i f) j → j ≠ i ∧ Pending c j := by
    intro j hj
    have hne : j ≠ i := by
      rintro rfl
      exact pending_setFlags_self hclean hj
    exact ⟨hne, (pending_setFlags_of_ne hne).mp hj⟩
  by_cases hb : b = (c.blockFlags i).index
  · -- the driver holds what the entry stood for, and no other entry is for this block
    subst hb
    rw [logical_of_pending h hi, logical_of_none, hs, update_self]
    intro j hj heq
    obtain ⟨hne, hpend⟩ := hother hj
    rw [hflags hne] at heq
    have hholds : c.Holds j (c.blockFlags i).index := heq ▸ hpend.holds
    exact hne (h.unique hholds hi.holds)
  · by_cases hpending : ∃ j, Pending c j ∧ (c.blockFlags j).index = b
    · obtain ⟨j, hj, rfl⟩ := hpending
      have hne : j ≠ i := by
        rintro rfl
        exact hb rfl
      have hlog : logical content (c.setFlags i f) s' _ = _ :=
        logical_of_pending h' ((pending_setFlags_of_ne hne).mpr hj)
      rw [hflags hne] at hlog
      rw [hlog, logical_of_pending h hj, setFlags_eq_put, BlkdevCache.put_data_of_ne hne]
    · rw [logical_of_none, logical_of_none, hs, update_of_ne hb]
      · exact fun j hj heq => hpending ⟨j, hj, heq⟩
      · intro j hj heq
        obtain ⟨hne, hpend⟩ := hother hj
        rw [hflags hne] at heq
        exact hpending ⟨j, hpend, heq⟩

/-- Entries before `i` are not both pending and older than `timeout`. -/
def YoungBefore (c : BlkdevCache n) (timeout : ℤ) (i : ℕ) : Prop :=
  ∀ j < i, Pending c j → timeout ≤ (c.blockFlags j).updateTime

theorem housekeepingLoop_logical {blocks : ℕ} (hD : ErrorFree D content blocks) (cacheRead : Bool)
    (clock : ℕ → ℤ) (timeout : ℤ) (k i : ℕ) (ec : Cause) (h : EntriesOk c)
    (hlt : ∀ {j b}, c.Holds j b → b < blocks) (hk : i + k = c.cacheDepth)
    (hyoung : YoungBefore c timeout i) :
    ∃ ec' s' c', housekeepingLoop D cacheRead clock timeout k i ec s c = (ec', s', c') ∧
      (∀ b, logical content c' s' b = logical content c s b) ∧
      ∀ j, Pending c' j → timeout ≤ (c'.blockFlags j).updateTime := by
  induction k generalizing i ec s c with
  | zero =>
    refine ⟨ec, s, c, rfl, fun _ => rfl, fun j hj => hyoung j ?_ hj⟩
    have := hj.1
    omega
  | succ k ih =>
    rw [housekeepingLoop]
    by_cases hold : blkdevIsDirty (c.blockFlags i) = true ∧ (c.blockFlags i).updateTime < timeout
    · have hi : Pending c i := ⟨by omega, hold.1⟩
      obtain ⟨s1, f, hflush, hs, hindex, hclean, hexcl⟩ := blkdevFlushCache_stored (s := s) hD h hi
        (hlt hi.holds) cacheRead ec (clock (i + 1))
      have h1 : EntriesOk (c.setFlags i f) := by
        apply h.setFlags hexcl
        intro _
        rw [hindex]
        exact .inl hi.holds
      have hlt1 : ∀ {j b}, (c.setFlags i f).Holds j b → b < blocks := by
        intro j b hj
        rw [setFlags_eq_put] at hj
        rcases eq_or_ne j i with rfl | hne
        · obtain ⟨_, rfl⟩ := BlkdevCache.holds_put_self hj
          rw [hindex]
          exact hlt hi.holds
        · exact hlt ((holds_put_of_ne hne).mp hj)
      have hyoung1 : YoungBefore (c.setFlags i f) timeout (i + 1) := by
        intro j hj hpend
        have hne : j ≠ i := by
          rintro rfl
          exact pending_setFlags_self hclean hpend
        rw [setFlags_eq_put, put_blockFlags_of_ne hne]
        exact hyoung j (by omega) ((pending_setFlags_of_ne hne).mp hpend)
      obtain ⟨ec', s', c', hloop, hlog, hdone⟩ :=
        ih (s := s1) (i + 1) .ok h1 hlt1 (show i + 1 + k = c.cacheDepth by omega) hyoung1
      refine ⟨ec', s', c', ?_, fun b => ?_, hdone⟩
      · rw [if_pos hold, hflush]
        exact hloop
      · rw [hlog b, logical_stored h hi h1 hclean hs b]
    · rw [if_neg hold]
      refine ih (i + 1) ec h hlt (by omega) ?_
      intro j hj hpend
      rcases Nat.lt_succ_iff_lt_or_eq.mp hj with hlt' | rfl
      · exact hyoung j hlt' hpend
      · exact not_lt.mp fun hlt' => hold ⟨hpend.2, hlt'⟩

/-- With a driver that does not fail, `blkdev_housekeeping` keeps the contents of every block, and
    no pending entry is left that is older than the timeout. -/
theorem blkdevHousekeeping_logical {dev : Blkdev σ n} {blocks : ℕ}
    (hD : ErrorFree D content blocks) (hc : dev.cache = some c) (h : EntriesOk c)
    (hlt : ∀ {i b}, c.Holds i b → b < blocks) (clock : ℕ → ℤ) (ec : Cause) :
    ∃ ec' s' c', blkdevHousekeeping D dev clock ec =
        some (ec', { dev with cookie := s', cache := some c' }) ∧
      (∀ b, logical content c' s' b = logical content c dev.cookie b) ∧
      ∀ i, Pending c' i → clock 0 - writeCacheTimeout ≤ (c'.blockFlags i).updateTime := by
  obtain ⟨ec', s', c', hloop, hlog, hdone⟩ := housekeepingLoop_logical (s := dev.cookie) hD
    dev.cacheRead clock (clock 0 - writeCacheTimeout) c.cacheDepth 0 ec h hlt (Nat.zero_add _)
    (fun j hj => absurd hj (Nat.not_lt_zero j))
  refine ⟨ec', s', c', ?_, hlog, hdone⟩
  rw [blkdevHousekeeping, hc, map_some, hloop]

theorem twoWritten_entriesOk : EntriesOk twoWritten where
  unique := twoWritten_coherent.unique
  exclusive := by
    intro i hi
    have hi : i < 2 := hi
    interval_cases i <;> decide

/-- Two written blocks are stored two seconds later. -/
theorem blkdevHousekeeping_logical_two : ∃ ec' s' c',
    blkdevHousekeeping (memoryDriver 1) (writtenDevice twoWritten) (fun _ => 2000000) .ok =
      some (ec', { writtenDevice twoWritten with cookie := s', cache := some c' }) ∧
    (∀ b, logical id c' s' b = logical id twoWritten (fun _ _ => 0) b) ∧
    ∀ i, Pending c' i → 2000000 - writeCacheTimeout ≤ (c'.blockFlags i).updateTime := blkdevHousekeeping_logical (memoryDriver_errorFree 1 2) rfl twoWritten_entriesOk
    twoWritten_coherent.lt (fun _ => 2000000) .ok

end

end BadgerOS.Blockdevice

import BadgerOS.Blockdevice.Blockdevice
import BadgerOS.Lib.Trace

/-!
# Coherence of the block device cache

A cached device stands for an array of blocks: what reads of the blocks return, pending
writes and erases included.

* `blkdevAllocCache_slot`: the slot for a block is its own entry, a vacant one, or a
  clean entry of another block.
* `Coherent`: how the cache, the driver and the array belong together;
  `Coherent.put`, `Coherent.through` and `Coherent.settle` are the three ways in which
  the functions change the cache and the driver.
* `blkdevFlushCache_spec`, `flushLoop_coherent`, `housekeepingLoop_coherent`: storing
  pending entries does not change what the device stands for.
-/

namespace BadgerOS.Blockdevice

open Function BlkdevCache

variable {σ : Type} {n : ℕ}

/-! ## Drivers -/

/-- What a write or an erase stores when it reports no error; `content` is what the state
    of the driver holds. -/
structure Honest (D : BlkdevVtable σ n) (content : σ → ℕ → Block n) (blocks : ℕ) : Prop where
  erase : ∀ {s b}, b < blocks → (D.erase s b).1 = .ok →
    content (D.erase s b).2 = update (content s) b (erased n)
  write : ∀ {s b d}, b < blocks → (D.write s b d).1 = .ok →
    content (D.write s b d).2 = update (content s) b d

/-- No operation on a block of the device reports an error. -/
structure ErrorFree (D : BlkdevVtable σ n) (content : σ → ℕ → Block n) (blocks : ℕ) : Prop where
  erase : ∀ {s b}, b < blocks → (D.erase s b).1 = .ok ∧
    content (D.erase s b).2 = update (content s) b (erased n)
  write : ∀ {s b d}, b < blocks → (D.write s b d).1 = .ok ∧
    content (D.write s b d).2 = update (content s) b d
  read : ∀ {s b}, b < blocks → (D.read s b).1 = .ok ∧ (D.read s b).2.1 = content s b ∧
    content (D.read s b).2.2 = content s
  writePartial : ∀ {s b offset buf}, b < blocks → ¬ outsideBlock n offset buf.length →
    (D.writePartial s b offset buf).1 = .ok ∧ content (D.writePartial s b offset buf).2 =
      update (content s) b (patch (content s b) offset buf)
  readPartial : ∀ {s b offset len}, b < blocks → ¬ outsideBlock n offset len →
    (D.readPartial s b offset len).1 = .ok ∧
    (D.readPartial s b offset len).2.1 = slice (content s b) offset len ∧
    content (D.readPartial s b offset len).2.2 = content s

theorem ErrorFree.honest {D : BlkdevVtable σ n} {content : σ → ℕ → Block n} {blocks : ℕ}
    (hD : ErrorFree D content blocks) : Honest D content blocks :=
  ⟨fun hb _ => (hD.erase hb).2, fun hb _ => (hD.write hb).2⟩

/-! ## Entries and slots -/

namespace BlkdevCache

/-- Entry `i` is the one for block `b`. -/
def Holds (c : BlkdevCache n) (i b : ℕ) : Prop :=
  i < c.cacheDepth ∧ (c.blockFlags i).present = true ∧ (c.blockFlags i).index = b

/-- The contents that entry `i` stands for. -/
def data (c : BlkdevCache n) (i : ℕ) : Block n :=
  if (c.blockFlags i).erase then erased n else c.blockCache i

/-- Store the flags and the block of entry `i`. -/
def put (c : BlkdevCache n) (i : ℕ) (f : BlkdevFlags) (d : Block n) : BlkdevCache n :=
  (c.setFlags i f).setBlock i d

variable {c : BlkdevCache n} {i j b : ℕ} {f : BlkdevFlags} {d : Block n}

theorem setFlags_eq_put (c : BlkdevCache n) (i : ℕ) (f : BlkdevFlags) : c.setFlags i f = c.put i f (c.blockCache i) := by
  simp [put, setBlock, setFlags, update_eq_self]

@[simp] theorem put_cacheDepth : (c.put i f d).cacheDepth = c.cacheDepth := rfl

theorem put_blockFlags_self : (c.put i f d).blockFlags i = f := update_self _ _ _

theorem put_blockFlags_of_ne (h : j ≠ i) : (c.put i f d).blockFlags j = c.blockFlags j := update_of_ne h _ _

theorem put_blockCache_self : (c.put i f d).blockCache i = d := update_self _ _ _

theorem put_blockCache_of_ne (h : j ≠ i) : (c.put i f d).blockCache j = c.blockCache j := update_of_ne h _ _

theorem put_data_self : (c.put i f d).data i = if f.erase then erased n else d := by
  rw [data, put_blockFlags_self, put_blockCache_self]

theorem put_data_of_ne (h : j ≠ i) : (c.put i f d).data j = c.data j := by
  rw [data, put_blockFlags_of_ne h, put_blockCache_of_ne h, data]

theorem holds_put_self (h : (c.put i f d).Holds i b) : f.present = true ∧ f.index = b := by
  obtain ⟨-, hp, hx⟩ := h
  rw [put_blockFlags_self] at hp hx
  exact ⟨hp, hx⟩

theorem holds_put_of_ne (h : j ≠ i) : (c.put i f d).Holds j b ↔ c.Holds j b := by
  unfold Holds
  rw [put_blockFlags_of_ne h, put_cacheDepth]

end BlkdevCache

/-- What `blkdev_alloc_cache` can find for a block. -/
inductive Slot (c : BlkdevCache n) (block : ℕ) : Option ℕ → Prop
  | hit {i : ℕ} (hi : c.Holds i block) : Slot c block (some i)
  | vacant {i : ℕ} (hlt : i < c.cacheDepth) (hp : (c.blockFlags i).present = false)
      (hno : ∀ j, ¬ c.Holds j block) : Slot c block (some i)
  | reused {i b : ℕ} (hi : c.Holds i b) (hb : b ≠ block)
      (hclean : blkdevIsDirty (c.blockFlags i) = false) (hno : ∀ j, ¬ c.Holds j block) :
      Slot c block (some i)
  | full (hno : ∀ j, ¬ c.Holds j block) : Slot c block none

/-- The loop: no entry before `i` is the one for the block, and the oldest one so far is
    not dirty. -/
theorem allocLoop_slot {c : BlkdevCache n} {block : ℕ} (k i : ℕ) (time : ℤ) (oldest : Option ℕ)
    (hk : i + k = c.cacheDepth) (hno : ∀ j < i, ¬ c.Holds j block)
    (hold : ∀ j, oldest = some j → j < i ∧ blkdevIsDirty (c.blockFlags j) = false) :
    Slot c block (allocLoop c.blockFlags block k i time oldest) := by
  induction k generalizing i time oldest with
  | zero =>
    have hno : ∀ j, ¬ c.Holds j block := fun j hj => hno j (by have := hj.1; omega) hj
    rw [allocLoop]
    cases oldest with
    | none => exact .full hno
    | some j =>
      obtain ⟨hlt, hclean⟩ := hold j rfl
      cases hp : (c.blockFlags j).present with
      | false => exact .vacant (by omega) hp hno
      | true =>
        have hj : c.Holds j (c.blockFlags j).index := ⟨by omega, hp, rfl⟩
        exact .reused hj (fun heq => hno j (heq ▸ hj)) hclean hno
  | succ k ih =>
    rw [allocLoop]
    by_cases hhit : (c.blockFlags i).present = true ∧ (c.blockFlags i).index = block
    · rw [if_pos hhit]
      exact .hit ⟨by omega, hhit.1, hhit.2⟩
    rw [if_neg hhit]
    have hno' : ∀ j < i + 1, ¬ c.Holds j block := by
      intro j hj hj'
      rcases Nat.lt_succ_iff_lt_or_eq.mp hj with hlt | rfl
      · exact hno j hlt hj'
      · exact hhit hj'.2
    -- whichever entry is the oldest one now, it is not dirty
    have hnew : blkdevIsDirty (c.blockFlags i) = false → ∀ j, some i = some j →
        j < i + 1 ∧ blkdevIsDirty (c.blockFlags j) = false := by
      rintro hd j ⟨⟩
      exact ⟨by omega, hd⟩
    by_cases hvacant : ¬ (c.blockFlags i).present = true
    · rw [if_pos hvacant]
      exact ih (i + 1) 0 (some i) (by omega) hno' (hnew (by simp [blkdevIsDirty, hvacant]))
    rw [if_neg hvacant]
    split_ifs with hclean
    · exact ih (i + 1) _ (some i) (by omega) hno' (hnew (by simpa using hclean.1))
    · refine ih (i + 1) time oldest (by omega) hno' fun j hj => ?_
      obtain ⟨hlt, hd⟩ := hold j hj
      exact ⟨by omega, hd⟩

theorem blkdevAllocCache_slot (c : BlkdevCache n) (now : ℤ) (block : ℕ) : Slot c block (blkdevAllocCache c now block) :=
  allocLoop_slot c.cacheDepth 0 _ none (by omega) (by intro j hj; omega) nofun

/-! ## Coherence -/

/-- The entries are those of different blocks of the device and stand for what the array holds;
    clean entries agree with the driver, and so does the array where there is no entry. -/
structure Coherent (content : σ → ℕ → Block n) (blocks : ℕ) (c : BlkdevCache n) (s : σ)
    (a : ℕ → Block n) : Prop where
  unique : ∀ {i j b}, c.Holds i b → c.Holds j b → i = j
  lt : ∀ {i b}, c.Holds i b → b < blocks
  exclusive : ∀ {i b}, c.Holds i b →
    ¬ ((c.blockFlags i).dirty = true ∧ (c.blockFlags i).erase = true)
  cached : ∀ {i b}, c.Holds i b → a b = c.data i
  clean : ∀ {i b}, c.Holds i b → blkdevIsDirty (c.blockFlags i) = false →
    content s b = c.blockCache i
  uncached : ∀ {b}, b < blocks → (∀ i, ¬ c.Holds i b) → a b = content s b

namespace Coherent

variable {content : σ → ℕ → Block n} {blocks : ℕ} {c : BlkdevCache n} {s s' : σ}
  {a : ℕ → Block n} {i b : ℕ} {f : BlkdevFlags} {d : Block n}

section

variable (h : Coherent content blocks c s a) (hb : b < blocks)
  (hslot : c.Holds i b ∨ ((c.blockFlags i).present = false ∧ ∀ j, ¬ c.Holds j b))
  (hi : i < c.cacheDepth) (hx : f.index = b) (hexcl : ¬ (f.dirty = true ∧ f.erase = true))

include h hb hslot hi hx hexcl

/-- The entry for `b`, or a vacant one if there is none, is replaced, and all that changes in the
    array and on the device is `b`. -/
theorem replace {a' : ℕ → Block n}
    (hothers : ∀ b' ≠ b, a' b' = a b' ∧ content s' b' = content s b')
    (hcached : f.present = true → a' b = if f.erase then erased n else d)
    (hclean : f.present = true → blkdevIsDirty f = false → content s' b = d)
    (hgone : f.present = false → a' b = content s' b) :
    Coherent content blocks (c.put i f d) s' a' := by
  -- the other entries are for other blocks
  have hcases : ∀ {j b'}, (c.put i f d).Holds j b' →
      (j = i ∧ b' = b ∧ f.present = true) ∨ (j ≠ i ∧ b' ≠ b ∧ c.Holds j b') := by
    intro j b' hj
    by_cases hji : j = i
    · subst hji
      obtain ⟨hp, hx'⟩ := holds_put_self hj
      exact .inl ⟨rfl, hx'.symm.trans hx, hp⟩
    · rw [holds_put_of_ne hji] at hj
      refine .inr ⟨hji, ?_, hj⟩
      rintro rfl
      rcases hslot with hhit | ⟨-, hno⟩
      · exact hji (h.unique hj hhit)
      · exact hno j hj
  constructor
  · intro j k b' hj hk
    rcases hcases hj with ⟨rfl, hjb, -⟩ | ⟨-, hjb, hj⟩ <;>
      rcases hcases hk with ⟨rfl, hkb, -⟩ | ⟨-, hkb, hk⟩
    · rfl
    · exact absurd hjb hkb
    · exact absurd hkb hjb
    · exact h.unique hj hk
  · intro j b' hj
    rcases hcases hj with ⟨-, rfl, -⟩ | ⟨-, -, hj⟩
    · exact hb
    · exact h.lt hj
  · intro j b' hj
    rcases hcases hj with ⟨rfl, -, -⟩ | ⟨hji, -, hj⟩
    · rw [put_blockFlags_self]
      exact hexcl
    · rw [put_blockFlags_of_ne hji]
      exact h.exclusive hj
  · intro j b' hj
    rcases hcases hj with ⟨rfl, rfl, hp⟩ | ⟨hji, hne, hj⟩
    · rw [put_data_self, hcached hp]
    · rw [put_data_of_ne hji, (hothers b' hne).1]
      exact h.cached hj
  · intro j b' hj
    rcases hcases hj with ⟨rfl, rfl, hp⟩ | ⟨hji, hne, hj⟩
    · rw [put_blockFlags_self, put_blockCache_self]
      exact hclean hp
    · rw [put_blockFlags_of_ne hji, put_blockCache_of_ne hji, (hothers b' hne).2]
      exact h.clean hj
  · intro b' hb' hno
    by_cases hbb : b' = b
    · subst hbb
      refine hgone (Bool.eq_false_iff.mpr fun hp => hno i ⟨hi, ?_, ?_⟩) <;>
        rw [put_blockFlags_self] <;> assumption
    · rw [(hothers b' hbb).1, (hothers b' hbb).2]
      refine h.uncached hb' fun j hj => ?_
      by_cases hji : j = i
      · subst hji
        rcases hslot with hhit | ⟨hvac, -⟩
        · exact hbb (hj.2.2.symm.trans hhit.2.2)
        · rw [hj.2.1] at hvac
          cases hvac
      · exact hno j ((holds_put_of_ne hji).mpr hj)

theorem put (hp : f.present = true) (hclean : blkdevIsDirty f = false → content s b = d) :
    Coherent content blocks (c.put i f d) s (update a b (if f.erase then erased n else d)) := by
  refine h.replace hb hslot hi hx hexcl (fun b' hne => ⟨update_of_ne hne _ _, rfl⟩)
    (fun _ => update_self _ _ _) (fun _ => hclean) fun hgone => ?_
  rw [hp] at hgone
  cases hgone

end

theorem through (h : Coherent content blocks c s a) (hno : ∀ i, ¬ c.Holds i b)
    (hs : content s' = update (content s) b d) : Coherent content blocks c s' (update a b d) := by
  have hne : ∀ {i b'}, c.Holds i b' → b' ≠ b := by
    rintro i b' hi rfl
    exact hno i hi
  refine ⟨h.unique, h.lt, h.exclusive, fun hi => ?_, fun hi hc => ?_, fun hb' hno' => ?_⟩
  · rw [update_of_ne (hne hi)]
    exact h.cached hi
  · rw [hs, update_of_ne (hne hi)]
    exact h.clean hi hc
  · rw [hs]
    unfold update
    split_ifs with heq
    · subst heq
      rfl
    · exact h.uncached hb' hno'

/-- The contents of an entry have been stored by the driver. The entry may stay if it is
    not one that was to be erased. -/
theorem settle (h : Coherent content blocks c s a) (hi : c.Holds i b)
    (hs : content s' = update (content s) b (c.data i)) (hx : f.index = b) (hd : f.dirty = false)
    (he : f.erase = false) (hkeep : f.present = true → (c.blockFlags i).erase = false) :
    Coherent content blocks (c.setFlags i f) s' a := by
  have hdata (hp : f.present = true) : c.data i = c.blockCache i := by
    rw [data, hkeep hp]
    rfl
  rw [setFlags_eq_put]
  refine h.replace (h.lt hi) (.inl hi) hi.1 hx (by simp [hd])
    (fun b' hne => ⟨rfl, by rw [hs, update_of_ne hne]⟩) (fun hp => ?_) (fun hp _ => ?_) fun _ => ?_
  · rw [he, h.cached hi, hdata hp]
    rfl
  · rw [hs, update_self, hdata hp]
  · rw [hs, update_self, h.cached hi]

end Coherent

/-! ## Flushing -/

section

variable {D : BlkdevVtable σ n} {content : σ → ℕ → Block n} {blocks : ℕ} {c : BlkdevCache n}
  {s : σ} {a : ℕ → Block n} {i b : ℕ}

/-- A pending entry is given to the driver. If that reports no error, the driver holds
    the contents of the entry, and the array is the same as before. -/
theorem blkdevFlushCache_spec (hD : Honest D content blocks) (h : Coherent content blocks c s a) (hi : c.Holds i b)
    (hpend : blkdevIsDirty (c.blockFlags i) = true) (cacheRead : Bool) (ec : Cause) (now : ℤ) :
    ∃ e s' f, blkdevFlushCache D cacheRead ec s c i now = (e, s', c.setFlags i f) ∧
      blkdevIsDirty f = false ∧
      (e = .ok → Coherent content blocks (c.setFlags i f) s' a) := by
  have hb := h.lt hi
  obtain ⟨hlt, hp, rfl⟩ := hi
  have hi : c.Holds i (c.blockFlags i).index := ⟨hlt, hp, rfl⟩
  unfold blkdevFlushCache
  by_cases hd : (c.blockFlags i).dirty = true
  · have he : (c.blockFlags i).erase = false := by
      simpa [hd] using h.exclusive hi
    have hdata : c.data i = c.blockCache i := by simp [data, he]
    have hs := hD.write (s := s) (d := c.blockCache i) hb
    rcases hw : D.write s (c.blockFlags i).index (c.blockCache i) with ⟨e, s'⟩
    rw [hw, ← hdata] at hs
    simp only [hd, if_true, hw]
    exact ⟨e, s', _, rfl, by simp [blkdevIsDirty],
      fun hok => h.settle hi (hs hok) rfl rfl rfl fun _ => he⟩
  · have he : (c.blockFlags i).erase = true := by
      simpa [blkdevIsDirty, hp, hd] using hpend
    have hdata : c.data i = erased n := by simp [data, he]
    have hs := hD.erase (s := s) hb
    rcases hw : D.erase s (c.blockFlags i).index with ⟨e, s'⟩
    rw [hw, ← hdata] at hs
    simp only [hd, he, if_true, hw]
    exact ⟨e, s', _, rfl, by simp [blkdevIsDirty],
      fun hok => h.settle hi (hs hok) rfl rfl rfl nofun⟩

theorem blkdevFlushCache_ok (hD : ErrorFree D content blocks) (hb : (c.blockFlags i).index < blocks)
    (cacheRead : Bool) (now : ℤ) : (blkdevFlushCache D cacheRead .ok s c i now).1 = .ok := by
  unfold blkdevFlushCache
  by_cases hd : (c.blockFlags i).dirty = true
  · simp only [hd, if_true]
    exact (hD.write hb).1
  · by_cases he : (c.blockFlags i).erase = true
    · simp only [hd, he, if_true]
      exact (hD.erase hb).1
    · simp only [hd, he]
      rfl

section

variable (cacheRead : Bool) (clock : ℕ → ℤ) (k i : ℕ) (hD : ErrorFree D content blocks)
  (h : Coherent content blocks c s a) (hk : i + k = c.cacheDepth)

include hD h hk

theorem flushLoop_coherent :
    (flushLoop D cacheRead clock .ok s c k i).1 = .ok ∧
    Coherent content blocks (flushLoop D cacheRead clock .ok s c k i).2.2
      (flushLoop D cacheRead clock .ok s c k i).2.1 a := by
  induction k generalizing i with
  | zero => exact ⟨rfl, h⟩
  | succ k ih =>
    rw [flushLoop]
    split_ifs with hpend
    · have hi : c.Holds i (c.blockFlags i).index := ⟨by omega, hpend.1, rfl⟩
      obtain ⟨e, s', f, heq, -, hco⟩ := blkdevFlushCache_spec hD.honest h hi
        (by rcases hpend with ⟨hp, hd | he⟩ <;> simp [blkdevIsDirty, *]) cacheRead .ok (clock i)
      have hok := blkdevFlushCache_ok (s := s) hD (h.lt hi) cacheRead (clock i)
      rw [heq] at hok ⊢
      exact ⟨hok, hco hok⟩
    · exact ih (i + 1) (by omega)

theorem housekeepingLoop_coherent (timeout : ℤ) :
    (housekeepingLoop D cacheRead clock timeout k i .ok s c).1 = .ok ∧
    Coherent content blocks (housekeepingLoop D cacheRead clock timeout k i .ok s c).2.2
      (housekeepingLoop D cacheRead clock timeout k i .ok s c).2.1 a := by
  induction k generalizing i s c with
  | zero => exact ⟨rfl, h⟩
  | succ k ih =>
    rw [housekeepingLoop]
    split_ifs with hold
    · have hp : (c.blockFlags i).present = true := by
        have := hold.1
        simp only [blkdevIsDirty, Bool.and_eq_true] at this
        exact this.1
      have hi : c.Holds i (c.blockFlags i).index := ⟨by omega, hp, rfl⟩
      obtain ⟨e, s', f, heq, -, hco⟩ := blkdevFlushCache_spec hD.honest h hi hold.1
        cacheRead .ok (clock (i + 1))
      have hok := blkdevFlushCache_ok (s := s) hD (h.lt hi) cacheRead (clock (i + 1))
      rw [heq] at hok
      dsimp only at hok
      subst hok
      simp only [heq, ne_eq, not_true_eq_false, if_false]
      exact ih (i + 1) (hco rfl) (show i + 1 + k = c.cacheDepth by omega)
    · exact ih (i + 1) h (by omega)

end

end

end BadgerOS.Blockdevice

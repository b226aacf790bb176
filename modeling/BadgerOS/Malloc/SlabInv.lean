import BadgerOS.Lib.Run
import BadgerOS.Malloc.Slab

/-!
# The pages of the slab allocator

The invariant of the slab allocator over runs of `slab_allocate` and
`slab_deallocate`. The page allocator below is arbitrary: it may fail, and it may
return any page that is not in use.

* `HeaderInv`: what holds of one header: `use_count` and the free slots add up to the
  capacity, and `use_count` lies in the range of its list.
* `InRange.promote`, `InRange.demote`: the thresholds move a page to a list whose
  range contains the new count.
* `SlabInv`: the headers together with the lists and the allocated slots.
* `SlabInv.allocate`, `SlabInv.deallocate`: the two operations keep it.
* `slab_pages_consistent`: the invariant of every reachable state; a page from
  `get_slab` has a free slot and `use_count` never wraps.
-/

namespace BadgerOS.Malloc.Slab

open Function List Option
open Finset (mem_erase mem_insert card_range)

/-! ## Free slots of a header -/

/-- Bit `i` of the bitmap: slot `i` is free. -/
def SlabHeader.bit (h : SlabHeader) (i : ℕ) : Bool := (h.bitmap (i / 32)).getLsbD (i % 32)

/-- The set bits of the bitmap. -/
def SlabHeader.freeSlots (h : SlabHeader) : Finset ℕ := (Finset.range 128).filter fun i => h.bit i = true

/-- The number of slots in a page. -/
def capacity : SlabSize → ℕ
  | .size32 => 126
  | .size64 => 63
  | .size128 => 31
  | .size256 => 15

theorem mem_freeSlots {h : SlabHeader} {i : ℕ} : i ∈ h.freeSlots ↔ i < 128 ∧ h.bit i = true := by
  simp [SlabHeader.freeSlots]

theorem getLsbD_one_shiftLeft {b i : ℕ} (hb : b < 32) : (1#32 <<< b).getLsbD i = decide (i = b) := by
  rw [← BitVec.twoPow_eq, BitVec.getLsbD_twoPow]
  simp [hb, eq_comm]

theorem bit_clear (h : SlabHeader) {w b : ℕ} (hb : b < 32) (i : ℕ) :
    ({ h with bitmap := update h.bitmap w (bitmapClearBit (h.bitmap w) b) } :
      SlabHeader).bit i = (h.bit i && decide (i ≠ w * 32 + b)) := by
  unfold SlabHeader.bit
  by_cases hw : i / 32 = w
  · subst hw
    have hlt : i % 32 < 32 := Nat.mod_lt _ (by norm_num)
    have hiff : (i % 32 = b) ↔ (i = i / 32 * 32 + b) := by omega
    simp only [update_self, bitmapClearBit, BitVec.getLsbD_and, BitVec.getLsbD_not,
      getLsbD_one_shiftLeft hb, hlt, decide_true, Bool.true_and, hiff, decide_not, ne_eq]
  · have hne : i ≠ w * 32 + b := by omega
    simp [hw, hne]

/-- The header after slot `i` has been returned. -/
def freed (h : SlabHeader) (i : ℕ) : SlabHeader :=
  { h with
    bitmap := update h.bitmap (i / 32) (bitmapSetBit (h.bitmap (i / 32)) (i % 32))
    useCount := h.useCount - 1 }

theorem bit_freed (h : SlabHeader) (i j : ℕ) : (freed h i).bit j = (h.bit j || decide (j = i)) := by
  unfold SlabHeader.bit freed
  have hb : i % 32 < 32 := Nat.mod_lt _ (by norm_num)
  by_cases hw : j / 32 = i / 32
  · have hiff : (j % 32 = i % 32) ↔ j = i := by omega
    simp only [hw, update_self, bitmapSetBit, BitVec.getLsbD_or, getLsbD_one_shiftLeft hb, hiff]
  · have hne : j ≠ i := by rintro rfl; exact hw rfl
    simp [hw, hne]

theorem freeSlots_clear (h : SlabHeader) {w b : ℕ} (hb : b < 32) :
    ({ h with bitmap := update h.bitmap w (bitmapClearBit (h.bitmap w) b) } :
      SlabHeader).freeSlots = h.freeSlots.erase (w * 32 + b) := by
  ext i
  rw [mem_freeSlots, mem_erase, mem_freeSlots, bit_clear h hb]
  simp only [Bool.and_eq_true, decide_eq_true_eq]
  tauto

theorem freeSlots_freed (h : SlabHeader) {i : ℕ} (hi : i < 128) : (freed h i).freeSlots = insert i h.freeSlots := by
  ext j
  rw [mem_freeSlots, mem_insert, mem_freeSlots, bit_freed]
  simp only [Bool.or_eq_true, decide_eq_true_eq]
  constructor
  · rintro ⟨hlt, hj | hj⟩
    · exact .inr ⟨hlt, hj⟩
    · exact .inl hj
  · rintro (hj | ⟨hlt, hj⟩)
    · exact ⟨by omega, .inr hj⟩
    · exact ⟨hlt, .inl hj⟩

/-- The header that `init_slab` writes. -/
def freshHeader (size : SlabSize) : SlabHeader :=
  { size := size, useCount := 1, slabUse := 1, bitmap := fun i => slabEmpty size i }

theorem freeSlots_freshHeader (size : SlabSize) : (freshHeader size).freeSlots = Finset.range (capacity size) := by
  ext i
  rw [mem_freeSlots, Finset.mem_range]
  have hall : ∀ size : SlabSize, ∀ i < 128,
      (slabEmpty size (i / 32)).getLsbD (i % 32) = decide (i < capacity size) := by
    intro size
    cases size <;> decide
  have hcap : capacity size < 128 := by cases size <;> decide
  constructor
  · rintro ⟨hlt, hbit⟩
    have := hall size i hlt
    rw [SlabHeader.bit, freshHeader] at hbit
    rw [hbit] at this
    exact of_decide_eq_true this.symm
  · intro hi
    exact ⟨by omega, by rw [SlabHeader.bit, freshHeader, hall size i (by omega), decide_eq_true hi]⟩

/-- A page with a free slot has a bitmap word that is not zero, and the slot that
    `slab_allocate` picks from it is free. -/
theorem findWord_of_nonempty {h : SlabHeader} (hne : h.freeSlots.Nonempty) :
    ∃ w, findWord h = some w ∧ w < 4 ∧ findFirstTrailingSetBit32 (h.bitmap w) < 32 ∧
      w * 32 + findFirstTrailingSetBit32 (h.bitmap w) ∈ h.freeSlots := by
  have hsome : (findWord h).isSome := by
    obtain ⟨i, hi⟩ := hne
    rw [mem_freeSlots] at hi
    rw [findWord, find?_isSome]
    refine ⟨i / 32, mem_range.mpr (by unfold bitmapWords; omega), ?_⟩
    simp only [ne_eq, decide_not, Bool.not_eq_eq_eq_not, Bool.not_true, decide_eq_false_iff_not]
    intro hz
    have hbit := hi.2
    rw [SlabHeader.bit, hz] at hbit
    simp at hbit
  obtain ⟨w, hw⟩ := isSome_iff_exists.mp hsome
  have hlt : w < 4 := mem_range.mp (mem_of_find?_eq_some hw)
  have hword : h.bitmap w ≠ 0#32 := by simpa using find?_some hw
  obtain ⟨hb, hbit⟩ := findFirstTrailingSetBit32_spec hword
  refine ⟨w, hw, hlt, hb, mem_freeSlots.mpr ⟨by omega, ?_⟩⟩
  rw [SlabHeader.bit, show (w * 32 + findFirstTrailingSetBit32 (h.bitmap w)) / 32 = w by omega,
    show (w * 32 + findFirstTrailingSetBit32 (h.bitmap w)) % 32 =
      findFirstTrailingSetBit32 (h.bitmap w) by omega]
  exact hbit

/-! ## Thresholds -/

/-- The possible values of `use_count` on list `use`. The ranges of neighbouring lists meet: a page
    moves up when it reaches a threshold and down when it comes back to it. -/
def InRange (size : SlabSize) : ℕ → ℕ → Prop
  | 0, count => count = 0
  | 1, count => 1 ≤ count ∧ count ≤ slabTresholds size 1
  | 2, count => slabTresholds size 1 ≤ count ∧ count ≤ slabTresholds size 2
  | 3, count => slabTresholds size 2 ≤ count ∧ count < capacity size
  | 4, count => count = capacity size
  | _, _ => False

theorem slabTresholds_order (size : SlabSize) : slabTresholds size 0 = 0 ∧ 2 ≤ slabTresholds size 1 ∧
      slabTresholds size 1 + 2 ≤ slabTresholds size 2 ∧
      slabTresholds size 2 + 2 ≤ slabTresholds size 3 ∧
      slabTresholds size 3 = capacity size ∧ capacity size ≤ 126 := by
  cases size <;> decide

namespace InRange

variable {size : SlabSize} {use count : ℕ}

theorem use_le (h : InRange size use count) : use ≤ 4 := by
  by_contra hlt
  obtain ⟨u, rfl⟩ : ∃ u, use = u + 5 := ⟨use - 5, by omega⟩
  exact h

theorem le_capacity (h : InRange size use count) : count ≤ capacity size := by
  obtain ⟨h0, h1, h2, h3, h4, -⟩ := slabTresholds_order size
  have hu := h.use_le
  interval_cases use <;> simp only [InRange] at h <;> omega

theorem promote (h : InRange size use count) (hu : use ≤ 3) :
    InRange size (if count + 1 ≥ slabTresholds size use then use + 1 else use) (count + 1) := by
  obtain ⟨h0, h1, h2, h3, h4, -⟩ := slabTresholds_order size
  interval_cases use <;> simp only [InRange] at h <;> split_ifs <;> simp only [InRange] <;> omega

theorem demote (h : InRange size (use + 1) (count + 1)) :
    InRange size (if count ≤ slabTresholds size use then use else use + 1) count := by
  obtain ⟨h0, h1, h2, h3, h4, -⟩ := slabTresholds_order size
  have hu : use ≤ 3 := by have := h.use_le; omega
  interval_cases use <;> simp only [InRange] at h <;> split_ifs <;> simp only [InRange] <;> omega

theorem pos_lt (h : InRange size use count) (h1 : 1 ≤ use) (h3 : use ≤ 3) :
    0 < count ∧ count < capacity size := by
  obtain ⟨-, t1, t2, t3, t4, -⟩ := slabTresholds_order size
  interval_cases use <;> simp only [InRange] at h <;> omega

end InRange

/-! ## One header -/

/-- The invariant of a header. Between `get_slab` and the clearing of a bit in
    `slab_allocate` the count is ahead by `extra = 1`. -/
structure HeaderInv (h : SlabHeader) (extra : ℕ) : Prop where
  count : h.useCount + h.freeSlots.card = capacity h.size + extra
  slots : h.freeSlots ⊆ Finset.range (capacity h.size)
  range : InRange h.size h.slabUse h.useCount

namespace HeaderInv

variable {h : SlabHeader} {w b : ℕ}

theorem useCount_le (hi : HeaderInv h w) : h.useCount ≤ 126 := by
  have h1 := hi.range.le_capacity
  obtain ⟨-, -, -, -, -, h2⟩ := slabTresholds_order h.size
  omega

theorem fresh (size : SlabSize) : HeaderInv (freshHeader size) 1 := by
  obtain ⟨-, h1, -⟩ := slabTresholds_order size
  refine ⟨?_, ?_, ?_⟩
  · rw [freeSlots_freshHeader, card_range]
    exact Nat.add_comm _ _
  · rw [freeSlots_freshHeader]
    exact Finset.Subset.refl _
  · show 1 ≤ 1 ∧ 1 ≤ slabTresholds size 1
    omega

theorem nonempty (hi : HeaderInv h 1) : h.freeSlots.Nonempty := by
  have h1 := hi.count
  have h2 := hi.range.le_capacity
  exact Finset.card_pos.mp (by omega)

theorem clear (hi : HeaderInv h 1) (hb : b < 32) (hmem : w * 32 + b ∈ h.freeSlots) :
    HeaderInv { h with bitmap := update h.bitmap w (bitmapClearBit (h.bitmap w) b) } 0 := by
  have hcard := Finset.card_erase_add_one hmem
  have hcount := hi.count
  refine ⟨?_, ?_, hi.range⟩
  · rw [freeSlots_clear h hb]
    dsimp only
    omega
  · rw [freeSlots_clear h hb]
    exact (Finset.erase_subset _ _).trans hi.slots

/-- `get_slab` takes a page from one of the lists 0 to 3. -/
theorem bump (hi : HeaderInv h 0) (hu : h.slabUse ≤ 3) : HeaderInv { h with
      useCount := (h.useCount + 1) % 256
      slabUse := if h.useCount + 1 ≥ slabTresholds h.size h.slabUse then h.slabUse + 1
        else h.slabUse } 1 := by
  have hle := hi.useCount_le
  have hcount := hi.count
  have hmod : (h.useCount + 1) % 256 = h.useCount + 1 := Nat.mod_eq_of_lt (by omega)
  refine ⟨?_, hi.slots, ?_⟩
  · show (h.useCount + 1) % 256 + h.freeSlots.card = _
    dsimp only
    omega
  · show InRange h.size _ ((h.useCount + 1) % 256)
    rw [hmod]
    exact hi.range.promote hu

/-- A used slot counts, so its page is neither empty nor on list 0. -/
theorem used (hi : HeaderInv h 0) {i : ℕ} (hlt : i < capacity h.size) (hnot : i ∉ h.freeSlots) :
    0 < h.useCount ∧ 0 < h.slabUse := by
  have hcount := hi.count
  have hss : h.freeSlots ⊂ Finset.range (capacity h.size) :=
    Finset.ssubset_iff_of_subset hi.slots |>.mpr ⟨i, Finset.mem_range.mpr hlt, hnot⟩
  have hcard := Finset.card_lt_card hss
  rw [card_range] at hcard
  have hpos : 0 < h.useCount := by omega
  refine ⟨hpos, Nat.pos_of_ne_zero fun h0 => ?_⟩
  have hr := hi.range
  rw [h0] at hr
  exact hpos.ne' hr

theorem slot_lt (hlt : w < capacity h.size) : w < 128 := by
  obtain ⟨-, -, -, -, -, hcap⟩ := slabTresholds_order h.size
  omega

/-- The header of a page whose slot `i` has been returned, on the list that
    `slab_deallocate` chooses. -/
theorem put (hi : HeaderInv h 0) {i u v : ℕ} (hlt : i < capacity h.size) (hnot : i ∉ h.freeSlots)
    (hu : h.slabUse = u + 1)
    (hv : v = if h.useCount - 1 ≤ slabTresholds h.size u then u else u + 1) :
    HeaderInv { freed h i with slabUse := v } 0 := by
  have hpos := (hi.used hlt hnot).1
  have hcount := hi.count
  have hslots := freeSlots_freed h (slot_lt hlt)
  refine ⟨?_, ?_, ?_⟩
  · show h.useCount - 1 + (freed h i).freeSlots.card = capacity h.size + 0
    rw [hslots, Finset.card_insert_of_notMem hnot]
    omega
  · show (freed h i).freeSlots ⊆ _
    rw [hslots]
    exact Finset.insert_subset (Finset.mem_range.mpr hlt) hi.slots
  · have hr := hi.range
    rw [hu, show h.useCount = h.useCount - 1 + 1 by omega] at hr
    rw [hv]
    exact hr.demote

end HeaderInv

/-! ## The lists -/

/-- Every page is on exactly the list of its size and use, once, and every class
    has at most one empty page. -/
structure ListInv (s : Slabs) (pages : Finset ℕ) : Prop where
  nodup : ∀ size use, (s.lists size use).Nodup
  mem_iff : ∀ {p size use}, p ∈ s.lists size use ↔
    p ∈ pages ∧ size = (s.headers p).size ∧ use = (s.headers p).slabUse
  one_empty : ∀ size, (s.lists size 0).length ≤ 1

namespace ListInv

variable {s : Slabs} {pages : Finset ℕ} {p : ℕ}

theorem setHeader (hl : ListInv s pages) {f : SlabHeader → SlabHeader}
    (hf : p ∈ pages → (f (s.headers p)).size = (s.headers p).size ∧ (f (s.headers p)).slabUse =
      (s.headers p).slabUse) : ListInv (s.setHeader p f) pages := by
  refine ⟨hl.nodup, ?_, hl.one_empty⟩
  intro q size use
  rw [show (s.setHeader p f).lists = s.lists from rfl, hl.mem_iff]
  by_cases hq : q = p
  · subst hq
    refine and_congr_right fun hp => ?_
    simp [Slabs.setHeader, hf hp]
  · simp [Slabs.setHeader, hq]

theorem mem_listRemove (hl : ListInv s pages) {q : ℕ} {size : SlabSize} {use : ℕ} :
    q ∈ (listRemove s p).lists size use ↔ q ≠ p ∧ q ∈ s.lists size use :=
  (hl.nodup size use).mem_erase_iff

theorem length_listRemove_le (s : Slabs) (p : ℕ) (size : SlabSize) (use : ℕ) :
    ((listRemove s p).lists size use).length ≤ (s.lists size use).length :=
  length_erase_le

/-- A page moves to the list of its new use. List 0 only takes a page when it has become empty. -/
theorem move (hl : ListInv s pages) (hp : p ∈ pages) {h : SlabHeader}
    (hempty : h.slabUse = 0 → (listRemove s p).lists h.size 0 = []) :
    ListInv { headers := update s.headers p h
              lists := (listPushBack (listRemove s p) h.size h.slabUse p).lists } pages := by
  have hlists : ∀ size use, (listPushBack (listRemove s p) h.size h.slabUse p).lists size use =
      if size = h.size ∧ use = h.slabUse then p :: (listRemove s p).lists size use
      else (listRemove s p).lists size use := fun _ _ => rfl
  have hnodup : ∀ size use, ((listRemove s p).lists size use).Nodup :=
    fun size use => (hl.nodup size use).erase p
  constructor
  · intro size use
    rw [hlists]
    split_ifs
    · refine nodup_cons.mpr ⟨fun hm => ?_, hnodup _ _⟩
      exact (hl.mem_listRemove.mp hm).1 rfl
    · exact hnodup _ _
  · intro q size use
    dsimp only
    rw [hlists]
    by_cases hq : q = p
    · subst hq
      rw [update_self]
      have hnot : q ∉ (listRemove s q).lists size use := fun hm => (hl.mem_listRemove.mp hm).1 rfl
      split_ifs with hc
      · simp [hc, hp]
      · simp [hnot, hc]
    · rw [update_of_ne hq, ← hl.mem_iff]
      split_ifs
      · rw [mem_cons, hl.mem_listRemove]
        simp [hq]
      · rw [hl.mem_listRemove]
        simp [hq]
  · intro size
    dsimp only
    rw [hlists]
    split_ifs with hc
    · obtain ⟨rfl, h0⟩ := hc
      rw [hempty h0.symm]
      exact le_rfl
    · exact (length_listRemove_le s p size 0).trans (hl.one_empty size)

theorem release (hl : ListInv s pages) : ListInv (listRemove s p) (pages.erase p) := by
  constructor
  · exact fun size use => (hl.nodup size use).erase p
  · intro q size use
    rw [hl.mem_listRemove, hl.mem_iff, mem_erase]
    tauto
  · exact fun size => (length_listRemove_le s p size 0).trans (hl.one_empty size)

theorem enter (hl : ListInv s pages) (hp : p ∉ pages) {h : SlabHeader} (huse : h.slabUse ≠ 0) :
    ListInv (listPushBack (s.setHeader p fun _ => h) h.size h.slabUse p) (insert p pages) := by
  have hlists : ∀ size use, (listPushBack (s.setHeader p fun _ => h) h.size h.slabUse p).lists size
      use = if size = h.size ∧ use = h.slabUse then p :: s.lists size use else s.lists size use :=
    fun _ _ => rfl
  have hheaders : (listPushBack (s.setHeader p fun _ => h) h.size h.slabUse p).headers =
      update s.headers p h := rfl
  have hnot : ∀ size use, p ∉ s.lists size use := fun size use hm => hp (hl.mem_iff.mp hm).1
  constructor
  · intro size use
    rw [hlists]
    split_ifs
    · exact nodup_cons.mpr ⟨hnot _ _, hl.nodup _ _⟩
    · exact hl.nodup _ _
  · intro q size use
    rw [hlists, hheaders]
    by_cases hq : q = p
    · subst hq
      rw [update_self]
      split_ifs with hc
      · simp [hc]
      · simp [hnot, hc]
    · rw [update_of_ne hq]
      split_ifs
      · rw [mem_cons, hl.mem_iff, mem_insert]
        simp [hq]
      · rw [hl.mem_iff, mem_insert]
        simp [hq]
  · intro size
    rw [hlists, if_neg (fun hc => huse hc.2.symm)]
    exact hl.one_empty size

end ListInv

/-! ## `get_slab` -/

/-- The header of a page that `get_slab` takes from a list. -/
def bumped (h : SlabHeader) : SlabHeader :=
  { h with
    useCount := (h.useCount + 1) % 256
    slabUse := if h.useCount + 1 ≥ slabTresholds h.size h.slabUse then h.slabUse + 1 else h.slabUse }

section GetSlab

variable {s : Slabs} {pages : Finset ℕ}

theorem bumpSlab_spec {size : SlabSize} (hl : ListInv s pages) {i p : ℕ} (hp : p ∈ s.lists size i)
    (hcount : (s.headers p).useCount ≤ 126) :
    (bumpSlab s size i p).headers = update s.headers p (bumped (s.headers p)) ∧
      ListInv (bumpSlab s size i p) pages := by
  obtain ⟨hpages, rfl, rfl⟩ := hl.mem_iff.mp hp
  have hmod : ((s.headers p).useCount + 1) % 256 = (s.headers p).useCount + 1 :=
    Nat.mod_eq_of_lt (by omega)
  unfold bumpSlab
  simp only [Slabs.setHeader, update_self, hmod]
  by_cases hc : (s.headers p).useCount + 1 ≥ slabTresholds (s.headers p).size (s.headers p).slabUse
  · have hb : bumped (s.headers p) = { s.headers p with
        useCount := (s.headers p).useCount + 1, slabUse := (s.headers p).slabUse + 1 } := by
      simp only [bumped, hmod, if_pos hc]
    rw [if_pos hc]
    refine ⟨by simp [listPushBack, listRemove, hb], ?_⟩
    have := hl.move hpages (h := bumped (s.headers p)) (by rw [hb]; intro h0; cases h0)
    rw [hb] at this
    simpa [listPushBack, listRemove] using this
  · have hb : bumped (s.headers p) = { s.headers p with
        useCount := (s.headers p).useCount + 1 } := by
      simp only [bumped, hmod, if_neg hc]
    rw [if_neg hc]
    refine ⟨by rw [hb], ?_⟩
    exact hl.setHeader (f := fun h => { h with useCount := (s.headers p).useCount + 1 })
      fun _ => ⟨rfl, rfl⟩

/-- The loop of `get_slab` takes a page from a list below `n`, or all of them are empty. -/
theorem getSlabLoop_cases (s : Slabs) (size : SlabSize) : ∀ n, (getSlabLoop s size n = none) ∨
      ∃ i p, i < n ∧ p ∈ s.lists size i ∧ getSlabLoop s size n = some (p, bumpSlab s size i p) := by
  intro n
  induction n with
  | zero => exact .inl rfl
  | succ n ih =>
    cases hlist : s.lists size n with
    | nil =>
      rcases ih with hnone | ⟨i, p, hi, hp, heq⟩
      · exact .inl (by rw [getSlabLoop, hlist]; exact hnone)
      · exact .inr ⟨i, p, by omega, hp, by rw [getSlabLoop, hlist]; exact heq⟩
    | cons p rest =>
      exact .inr ⟨n, p, Nat.lt_succ_self n, by rw [hlist]; exact mem_cons_self,
        by rw [getSlabLoop, hlist]⟩

/-- The page that `get_slab` returns is a page of the class, old or new, whose count
    is ahead by one. -/
theorem getSlab_cases (size : SlabSize) (hl : ListInv s pages) (hh : ∀ p ∈ pages, HeaderInv (s.headers p) 0)
    {allocation : Option ℕ} (hfresh : ∀ p, allocation = some p → p ∉ pages) :
    (getSlab s size allocation = (none, s) ∧ allocation = none) ∨
    ∃ p s', getSlab s size allocation = (some p, s') ∧ ListInv s' (insert p pages) ∧
      HeaderInv (s'.headers p) 1 ∧ (s'.headers p).size = size ∧
      (∀ q ≠ p, s'.headers q = s.headers q) ∧
      ((p ∈ pages ∧ (getSlabLoop s size 4).isSome ∧ s'.headers p = bumped (s.headers p)) ∨
        (allocation = some p ∧ (s'.headers p).freeSlots = Finset.range (capacity size))) := by
  rcases getSlabLoop_cases s size 4 with hnone | ⟨i, p, hi, hp, heq⟩
  · cases allocation with
    | none => exact .inl ⟨by rw [getSlab, hnone], rfl⟩
    | some p =>
      refine .inr ⟨p, listPushBack (initSlab s p size) size 1 p, by rw [getSlab, hnone], ?_⟩
      have hhead : (listPushBack (initSlab s p size) size 1 p).headers =
          update s.headers p (freshHeader size) := rfl
      refine ⟨hl.enter (hfresh p rfl) (h := freshHeader size) one_ne_zero, ?_, ?_, ?_,
        .inr ⟨rfl, ?_⟩⟩
      · rw [hhead, update_self]
        exact HeaderInv.fresh size
      · rw [hhead, update_self]
        rfl
      · intro q hq
        rw [hhead, update_of_ne hq]
      · rw [hhead, update_self]
        exact freeSlots_freshHeader size
  · obtain ⟨hpages, rfl, rfl⟩ := hl.mem_iff.mp hp
    have hinv := hh p hpages
    obtain ⟨hhead, hlist⟩ := bumpSlab_spec hl hp hinv.useCount_le
    refine .inr ⟨p, bumpSlab s (s.headers p).size (s.headers p).slabUse p,
      by unfold getSlab; rw [heq], ?_, ?_, ?_, ?_, .inl ⟨hpages, by rw [heq]; rfl, ?_⟩⟩
    · rw [Finset.insert_eq_self.mpr hpages]
      exact hlist
    · rw [hhead, update_self]
      exact hinv.bump (by omega)
    · rw [hhead, update_self]
      rfl
    · intro q hq
      rw [hhead, update_of_ne hq]
    · rw [hhead, update_self]

end GetSlab

/-! ## `slab_deallocate` -/

/-- The list changes of `slab_deallocate` for a page on list `use + 1`: the page
    stays, moves down, or leaves because it is empty and another page is too. -/
theorem dropSlab_cases {s : Slabs} {page u : ℕ} (hu : (s.headers page).slabUse = u + 1) :
    ((s.headers page).useCount > slabTresholds (s.headers page).size u ∧
      dropSlab s page = (.kept, s)) ∨
    ((s.headers page).useCount ≤ slabTresholds (s.headers page).size u ∧
      (u = 0 → (listRemove s page).lists (s.headers page).size 0 = []) ∧
      dropSlab s page =
        (.kept, { headers := update s.headers page { s.headers page with slabUse := u }
                  lists := (listPushBack (listRemove s page) (s.headers page).size u page).lists })) ∨
    ((s.headers page).useCount ≤ slabTresholds (s.headers page).size u ∧ u = 0 ∧ dropSlab s page =
        (.released page, listRemove (s.setHeader page fun h => { h with slabUse := 0 }) page)) := by
  unfold dropSlab
  rw [hu]
  dsimp only
  by_cases hc : (s.headers page).useCount ≤ slabTresholds (s.headers page).size u
  · rw [if_pos hc]
    by_cases hkeep : u > 0 ∨ listEmpty (listRemove (s.setHeader page fun h =>
        { h with slabUse := u }) page) (s.headers page).size u
    · rw [if_pos hkeep]
      refine .inr (.inl ⟨hc, fun h0 => ?_, rfl⟩)
      subst h0
      simpa [listEmpty, listRemove, Slabs.setHeader] using hkeep
    · rw [if_neg hkeep]
      have h0 : u = 0 := by
        rw [not_or] at hkeep
        omega
      subst h0
      exact .inr (.inr ⟨hc, rfl, rfl⟩)
  · rw [if_neg hc]
    exact .inl ⟨not_le.mp hc, rfl⟩

theorem bitmapSetBit_ne {h : SlabHeader} {i : ℕ} (hnot : h.bit i = false) :
    h.bitmap (i / 32) ≠ bitmapSetBit (h.bitmap (i / 32)) (i % 32) := by
  intro heq
  have hbit : h.bit i = true := by
    rw [SlabHeader.bit, heq, bitmapSetBit, BitVec.getLsbD_or,
      getLsbD_one_shiftLeft (Nat.mod_lt _ (by norm_num))]
    simp
  rw [hbit] at hnot
  cases hnot

/-! ## Runs -/

/-- The slab allocator, the pages that it has taken from the page allocator and the
    allocated slots, each as its page and its index. -/
structure SlabState where
  slabs : Slabs := {}
  pages : Finset ℕ := ∅
  live : Finset (ℕ × ℕ) := ∅

/-- The calls of a run. `allocation` is what `buddy_allocate` returns if the call
    needs a new page. -/
inductive SlabOp
  | allocate (size : ℕ) (allocation : Option ℕ)
  | deallocate (page index : ℕ)

/-- One call. -/
def slabStep (s : SlabState) : SlabOp → Option SlabState
  | .allocate size allocation =>
    match slabAllocate s.slabs size allocation with
    | (.slot page index, slabs) =>
      some { slabs := slabs, pages := insert page s.pages, live := insert (page, index) s.live }
    | (_, slabs) => some { s with slabs := slabs }
  | .deallocate page index =>
    match slabDeallocate s.slabs (slotAddress (s.slabs.headers page).size page index) with
    | (.released p, slabs) =>
      some { slabs := slabs, pages := s.pages.erase p, live := s.live.erase (page, index) }
    | (_, slabs) => some { s with slabs := slabs, live := s.live.erase (page, index) }

/-- The page allocator returns pages that are not in use; only allocated slots are deallocated. -/
def ValidSlabCall (s : SlabState) : SlabOp → Prop
  | .allocate _ allocation => ∀ p, allocation = some p →
      p ∉ s.pages ∧ pageSize ∣ p ∧ 0 < p ∧ p + pageSize ≤ 2 ^ 64
  | .deallocate page index => (page, index) ∈ s.live

/-- The invariant: the lists, the headers, the place of the pages, and that the used
    slots are the allocated ones. -/
structure SlabInv (s : SlabState) : Prop where
  lists : ListInv s.slabs s.pages
  header : ∀ p ∈ s.pages, HeaderInv (s.slabs.headers p) 0
  placed : ∀ p ∈ s.pages, pageSize ∣ p ∧ 0 < p ∧ p + pageSize ≤ 2 ^ 64
  live_iff : ∀ {p i}, (p, i) ∈ s.live ↔ p ∈ s.pages ∧ i < capacity (s.slabs.headers p).size ∧
    i ∉ (s.slabs.headers p).freeSlots

theorem slot_fits (size : SlabSize) {i : ℕ} (hi : i < capacity size) :
    dataOffset + (i + 1) * slabBytes size ≤ pageSize := by
  cases size <;> simp only [capacity, slabBytes, dataOffset, pageSize] at hi ⊢ <;> omega

theorem slabBytes_pos (size : SlabSize) : 0 < slabBytes size := by cases size <;> decide

/-- `slab_deallocate` finds the page and the slot of a pointer again. -/
theorem slotAddress_inv {s : Slabs} {page i : ℕ} (hpage : pageSize ∣ page)
    (htop : page + pageSize ≤ 2 ^ 64) (hi : i < capacity (s.headers page).size) :
    headerOf (slotAddress (s.headers page).size page i) = page ∧
      slotOf s (slotAddress (s.headers page).size page i) = i := by
  obtain ⟨k, rfl⟩ := hpage
  have hfits := slot_fits _ hi
  have hpos := slabBytes_pos (s.headers (pageSize * k)).size
  obtain ⟨-, -, -, -, -, hcap⟩ := slabTresholds_order (s.headers (pageSize * k)).size
  set size := (s.headers (pageSize * k)).size with hsize
  rw [Nat.add_mul, Nat.one_mul] at hfits
  have hheader : headerOf (slotAddress size (pageSize * k) i) = pageSize * k := by
    unfold headerOf alignDown slotAddress
    rw [Nat.add_assoc, Nat.mul_add_div (by decide), Nat.div_eq_of_lt (by omega)]
    ring
  refine ⟨hheader, ?_⟩
  unfold slotOf
  rw [hheader, ← hsize]
  unfold slotAddress
  have h1 : sizeSub (pageSize * k + dataOffset + i * slabBytes size) (pageSize * k) =
      dataOffset + i * slabBytes size := by
    rw [sizeSub_eq (by omega) (by omega)]
    omega
  have h2 : sizeSub (dataOffset + i * slabBytes size) dataOffset = i * slabBytes size := by
    have : pageSize < 2 ^ 64 := by decide
    rw [sizeSub_eq (by omega) (by omega)]
    omega
  rw [h1, h2, Nat.mul_div_cancel _ hpos, Nat.mod_eq_of_lt (by omega)]

namespace SlabInv

variable {s : SlabState}

theorem init : SlabInv {} where
  lists := by
    refine ⟨fun _ _ => nodup_nil, ?_, fun _ => Nat.zero_le _⟩
    intro p size use
    simp
  header := by intro p hp; simp at hp
  placed := by intro p hp; simp at hp
  live_iff := by intro p i; simp

/-- What `slab_allocate` does: it returns `NULL` and changes nothing, or it returns an
    unused slot of a page of the right class. -/
theorem allocate (h : SlabInv s) {size : ℕ} {allocation : Option ℕ}
    (hv : ValidSlabCall s (.allocate size allocation)) :
    (slabAllocate s.slabs size allocation = (.tooLarge, s.slabs) ∧ 256 < size) ∨
    (slabAllocate s.slabs size allocation = (.noPage, s.slabs) ∧ allocation = none) ∨
    ∃ page i slabs, slabAllocate s.slabs size allocation = (.slot page i, slabs) ∧
      size ≤ 256 ∧ (slabs.headers page).size = slabType size ∧ (page, i) ∉ s.live ∧
      SlabInv { slabs := slabs, pages := insert page s.pages, live := insert (page, i) s.live } ∧
      (∀ q ≠ page, slabs.headers q = s.slabs.headers q) ∧
      ((page ∈ s.pages ∧ (getSlabLoop s.slabs (slabType size) 4).isSome ∧
          (slabs.headers page).size = (s.slabs.headers page).size ∧
          (slabs.headers page).useCount = (s.slabs.headers page).useCount + 1) ∨
        (allocation = some page ∧ page ∉ s.pages ∧ (slabs.headers page).useCount = 1)) := by
  unfold slabAllocate
  split_ifs with hsize
  · exact .inl ⟨rfl, hsize⟩
  right
  have hfresh : ∀ p, allocation = some p → p ∉ s.pages := fun p hp => (hv p hp).1
  rcases getSlab_cases (slabType size) h.lists h.header hfresh with
    ⟨heq, hnone⟩ | ⟨page, slabs, heq, hl, hh, hsz, hother, hpage⟩
  · left
    rw [heq]
    exact ⟨rfl, hnone⟩
  right
  obtain ⟨w, hw, hw4, hb, hfree⟩ := findWord_of_nonempty hh.nonempty
  rw [heq]
  dsimp only
  rw [hw]
  set b := findFirstTrailingSetBit32 ((slabs.headers page).bitmap w) with hbdef
  set h' : SlabHeader := { slabs.headers page with
    bitmap := update (slabs.headers page).bitmap w
      (bitmapClearBit ((slabs.headers page).bitmap w) b) } with hh'
  have hclear : HeaderInv h' 0 := hh.clear hb hfree
  have hslots : h'.freeSlots = (slabs.headers page).freeSlots.erase (w * 32 + b) :=
    freeSlots_clear (slabs.headers page) hb
  have hsetl := hl.setHeader (p := page) (f := fun _ => h') fun _ => ⟨rfl, rfl⟩
  have hself : (slabs.setHeader page fun _ => h').headers page = h' := update_self _ _ _
  have hne : ∀ q ≠ page, (slabs.setHeader page fun _ => h').headers q = s.slabs.headers q := by
    intro q hq
    rw [← hother q hq]
    exact update_of_ne hq _ _
  have hlt : w * 32 + b < capacity (slabType size) := by
    rw [← hsz]
    exact Finset.mem_range.mp (hh.slots hfree)
  -- the used slots of the page before the call are the allocated ones
  have hold : ∀ j, (page, j) ∈ s.live ↔
      j < capacity (slabType size) ∧ j ∉ (slabs.headers page).freeSlots := by
    intro j
    rcases hpage with ⟨hp, -, hbump⟩ | ⟨hall, hfull⟩
    · rw [h.live_iff, ← hsz, hbump]
      simp only [hp, true_and]
      exact Iff.rfl
    · have hp := hfresh page hall
      rw [h.live_iff, hfull, Finset.mem_range]
      simp [hp]
  have hnew : (page, w * 32 + b) ∉ s.live := fun hm => ((hold _).mp hm).2 hfree
  refine ⟨page, w * 32 + b, slabs.setHeader page fun _ => h', rfl, by omega, ?_, hnew, ?_, hne, ?_⟩
  · rw [hself]
    exact hsz
  · refine ⟨hsetl, ?_, ?_, ?_⟩
    · intro p hp
      by_cases hpp : p = page
      · subst hpp; rw [hself]; exact hclear
      · dsimp only
        rw [hne p hpp]
        exact h.header p ((mem_insert.mp hp).resolve_left hpp)
    · intro p hp
      rcases mem_insert.mp hp with rfl | hp
      · rcases hpage with ⟨hp, -⟩ | ⟨hall, -⟩
        · exact h.placed p hp
        · exact (hv p hall).2
      · exact h.placed p hp
    · intro p j
      by_cases hpp : p = page
      · subst hpp
        dsimp only
        rw [hself, hslots, mem_insert, hold, Prod.mk.injEq, mem_erase]
        have hcap : capacity h'.size = capacity (slabType size) := congrArg capacity hsz
        rw [hcap]
        constructor
        · rintro (⟨-, rfl⟩ | ⟨h1, h2⟩)
          · exact ⟨Finset.mem_insert_self _ _, hlt, fun hc => hc.1 rfl⟩
          · exact ⟨Finset.mem_insert_self _ _, h1, fun hc => h2 hc.2⟩
        · rintro ⟨-, h1, h2⟩
          by_cases hj : j = w * 32 + b
          · exact .inl ⟨rfl, hj⟩
          · exact .inr ⟨h1, fun hc => h2 ⟨hj, hc⟩⟩
      · dsimp only
        rw [hne p hpp, mem_insert, h.live_iff, mem_insert]
        simp [hpp]
  · rw [hself]
    rcases hpage with ⟨hp, hloop, hbump⟩ | ⟨hall, hfull⟩
    · refine .inl ⟨hp, hloop, ?_, ?_⟩
      · rw [hh', hbump]; rfl
      · have hle := (h.header page hp).useCount_le
        rw [hh', hbump]
        exact Nat.mod_eq_of_lt (by omega)
    · refine .inr ⟨hall, hfresh page hall, ?_⟩
      have hcount := hh.count
      rw [hfull, card_range, hsz] at hcount
      show (slabs.headers page).useCount = 1
      omega

/-- Replacing the header of `page` by one whose free slots include `i` in addition. -/
theorem free (h : SlabInv s) {page i : ℕ} (hlive : (page, i) ∈ s.live) {slabs : Slabs}
    {h' : SlabHeader} (hhead : slabs.headers = update s.slabs.headers page h')
    (hl : ListInv slabs s.pages) (hinv : HeaderInv h' 0)
    (hsize : h'.size = (s.slabs.headers page).size)
    (hslots : h'.freeSlots = insert i (s.slabs.headers page).freeSlots) :
    SlabInv { s with slabs := slabs, live := s.live.erase (page, i) } := by
  obtain ⟨hpage, hlt, hnot⟩ := h.live_iff.mp hlive
  refine ⟨hl, ?_, h.placed, ?_⟩
  · intro p hp
    dsimp only
    rw [hhead]
    by_cases hpp : p = page
    · subst hpp; rw [update_self]; exact hinv
    · rw [update_of_ne hpp]; exact h.header p hp
  · intro p j
    dsimp only
    rw [hhead, mem_erase, h.live_iff]
    by_cases hpp : p = page
    · subst hpp
      rw [update_self, hsize, hslots, mem_insert, ne_eq, Prod.mk.injEq]
      tauto
    · rw [update_of_ne hpp, ne_eq, Prod.mk.injEq]
      tauto

/-- What `slab_deallocate` does with an allocated slot: the page stays, with one slot
    less in use, or it was the last slot of its page and the page goes back. -/
theorem deallocate (h : SlabInv s) {page i : ℕ} (hlive : (page, i) ∈ s.live) :
    (∃ slabs, slabDeallocate s.slabs (slotAddress (s.slabs.headers page).size page i) =
        (.kept, slabs) ∧
      SlabInv { s with slabs := slabs, live := s.live.erase (page, i) } ∧
      (∀ q ≠ page, slabs.headers q = s.slabs.headers q) ∧
      (slabs.headers page).size = (s.slabs.headers page).size ∧
      (slabs.headers page).useCount + 1 = (s.slabs.headers page).useCount) ∨
    (∃ slabs, slabDeallocate s.slabs (slotAddress (s.slabs.headers page).size page i) =
        (.released page, slabs) ∧
      SlabInv { slabs := slabs, pages := s.pages.erase page, live := s.live.erase (page, i) } ∧
      (∀ q ≠ page, slabs.headers q = s.slabs.headers q) ∧
      (slabs.headers page).useCount + 1 = (s.slabs.headers page).useCount ∧
      ∀ j, (page, j) ∈ s.live → j = i) := by
  obtain ⟨hpage, hlt, hnot⟩ := h.live_iff.mp hlive
  obtain ⟨hal, hpos, htop⟩ := h.placed page hpage
  obtain ⟨hheader, hslot⟩ := slotAddress_inv hal htop hlt
  have hinv := h.header page hpage
  obtain ⟨hcpos, hupos⟩ := hinv.used hlt hnot
  obtain ⟨u, hu⟩ : ∃ u, (s.slabs.headers page).slabUse = u + 1 :=
    Nat.exists_eq_succ_of_ne_zero hupos.ne'
  have hle := hinv.useCount_le
  have hbit : (s.slabs.headers page).bit i = false := by
    by_contra hc
    exact hnot (mem_freeSlots.mpr ⟨HeaderInv.slot_lt hlt, by simpa using hc⟩)
  have hslots := freeSlots_freed (s.slabs.headers page) (HeaderInv.slot_lt hlt)
  have hmod : ((s.slabs.headers page).useCount + 255) % 256 =
      (s.slabs.headers page).useCount - 1 := by omega
  have hptr : slotAddress (s.slabs.headers page).size page i ≠ 0 := by
    unfold slotAddress; omega
  have heq : slabDeallocate s.slabs (slotAddress (s.slabs.headers page).size page i) =
      dropSlab (s.slabs.setHeader page fun _ => freed (s.slabs.headers page) i) page := by
    unfold slabDeallocate
    rw [if_neg hptr]
    dsimp only
    rw [hheader, hslot, if_neg (bitmapSetBit_ne hbit)]
    congr 1
    simp only [Slabs.setHeader, freed, hmod]
  have hl1 := h.lists.setHeader (p := page) (f := fun _ => freed (s.slabs.headers page) i)
    fun _ => ⟨rfl, rfl⟩
  generalize hs1 : (s.slabs.setHeader page fun _ => freed (s.slabs.headers page) i) = s1 at heq hl1
  have hhead1 : s1.headers = update s.slabs.headers page (freed (s.slabs.headers page) i) := by
    rw [← hs1]; rfl
  have hself1 : s1.headers page = freed (s.slabs.headers page) i := by
    rw [hhead1, update_self]
  have hcount1 : (s.slabs.headers page).useCount - 1 + 1 = (s.slabs.headers page).useCount := by
    omega
  rw [heq]
  have hu1 : (s1.headers page).slabUse = u + 1 := by rw [hself1]; exact hu
  rcases dropSlab_cases hu1 with
    ⟨hc, hdrop⟩ | ⟨hc, hempty, hdrop⟩ | ⟨hc, rfl, hdrop⟩
  · -- the page stays on its list
    rw [hself1] at hc
    have hput := hinv.put hlt hnot hu (hu.trans (if_neg (not_le.mpr hc)).symm)
    refine .inl ⟨s1, hdrop, h.free hlive hhead1 hl1 hput rfl hslots, ?_, ?_, ?_⟩
    · intro q hq
      rw [hhead1, update_of_ne hq]
    · rw [hself1]; rfl
    · rw [hself1]; exact hcount1
  · -- the page moves down
    rw [hself1] at hc
    have hput := hinv.put hlt hnot hu (if_pos hc).symm
    have hl2 := hl1.move hpage (h := { s1.headers page with slabUse := u }) hempty
    rw [hhead1, update_idem, update_self] at hl2 hdrop
    refine .inl ⟨_, hdrop, h.free hlive rfl hl2 hput rfl hslots, ?_, ?_, ?_⟩
    · intro q hq
      exact update_of_ne hq _ _
    · dsimp only
      rw [update_self]; rfl
    · dsimp only
      rw [update_self]; exact hcount1
  · -- the page was the last one in use
    rw [hself1] at hc
    have hput := hinv.put hlt hnot hu (if_pos hc).symm
    have hlast : ∀ j, (page, j) ∈ s.live → j = i := by
      intro j hj
      obtain ⟨-, hjlt, hjnot⟩ := h.live_iff.mp hj
      have hcount : (s.slabs.headers page).useCount - 1 + (freed (s.slabs.headers page) i).freeSlots.card =
        capacity (s.slabs.headers page).size + 0 := hput.count
      have hrange : (s.slabs.headers page).useCount - 1 = 0 := hput.range
      have hfull : (freed (s.slabs.headers page) i).freeSlots =
          Finset.range (capacity (s.slabs.headers page).size) := by
        refine Finset.eq_of_subset_of_card_le hput.slots ?_
        rw [card_range]
        omega
      rw [hslots] at hfull
      have hjm : j ∈ insert i (s.slabs.headers page).freeSlots := by
        rw [hfull]; exact Finset.mem_range.mpr hjlt
      exact (mem_insert.mp hjm).resolve_right hjnot
    have hother : ∀ q ≠ page, (listRemove (s1.setHeader page fun h =>
        { h with slabUse := 0 }) page).headers q = s.slabs.headers q := by
      intro q hq
      show (update s1.headers page _) q = _
      rw [update_of_ne hq, hhead1, update_of_ne hq]
    refine .inr ⟨_, hdrop, ⟨?_, ?_, ?_, ?_⟩, hother, ?_, hlast⟩
    · exact hl1.release.setHeader (p := page) (f := fun h => { h with slabUse := 0 })
        fun hm => absurd rfl (mem_erase.mp hm).1
    · intro p hp
      obtain ⟨hne, hp⟩ := mem_erase.mp hp
      dsimp only
      rw [hother p hne]
      exact h.header p hp
    · intro p hp
      exact h.placed p (mem_erase.mp hp).2
    · intro p j
      dsimp only
      rw [mem_erase, mem_erase, ne_eq, Prod.mk.injEq]
      by_cases hpp : p = page
      · subst hpp
        constructor
        · rintro ⟨hne, hj⟩
          exact absurd ⟨rfl, hlast j hj⟩ hne
        · rintro ⟨⟨hne, -⟩, -⟩
          exact absurd rfl hne
      · rw [hother p hpp, h.live_iff]
        tauto
    · show ((update s1.headers page { s1.headers page with slabUse := 0 }) page).useCount + 1 = _
      rw [update_self, hself1]
      exact hcount1

theorem step {t : SlabState} {o : SlabOp} (h : SlabInv s) (hok : ValidSlabCall s o)
    (hst : slabStep s o = some t) : SlabInv t := by
  cases o with
  | allocate size allocation =>
    rcases h.allocate hok with ⟨heq, -⟩ | ⟨heq, -⟩ | ⟨page, i, slabs, heq, -, -, -, hinv, -⟩ <;>
      simp only [slabStep, heq, some.injEq] at hst
    · exact hst ▸ h
    · exact hst ▸ h
    · exact hst ▸ hinv
  | deallocate page index =>
    rcases h.deallocate hok with ⟨slabs, heq, hinv, -⟩ | ⟨slabs, heq, hinv, -⟩ <;>
      simp only [slabStep, heq, some.injEq] at hst <;>
      exact hst ▸ hinv

end SlabInv

theorem slabInv_run {ops : List SlabOp} {s : SlabState} (h : Run slabStep ValidSlabCall {} ops s) : SlabInv s :=
  h.invariant SlabInv.step SlabInv.init

/-- A slab page whose count, bitmap and list agree. -/
structure ConsistentPage (s : Slabs) (page : ℕ) : Prop where
  count : (s.headers page).useCount + (s.headers page).freeSlots.card =
    capacity (s.headers page).size
  listed : ∀ size use, page ∈ s.lists size use ↔
    size = (s.headers page).size ∧ use = (s.headers page).slabUse
  once : (s.lists (s.headers page).size (s.headers page).slabUse).count page = 1
  use_le : (s.headers page).slabUse ≤ 4
  empty : (s.headers page).slabUse = 0 → (s.headers page).useCount = 0
  full : (s.headers page).slabUse = 4 → (s.headers page).useCount = capacity (s.headers page).size
  between : 1 ≤ (s.headers page).slabUse → (s.headers page).slabUse ≤ 3 →
    0 < (s.headers page).useCount ∧ (s.headers page).useCount < capacity (s.headers page).size

theorem SlabInv.consistent {s : SlabState} (h : SlabInv s) {page : ℕ} (hp : page ∈ s.pages) :
    ConsistentPage s.slabs page := by
  have hinv := h.header page hp
  have hr := hinv.range
  refine ⟨hinv.count, fun size use => ?_, ?_, hr.use_le, ?_, ?_, hr.pos_lt⟩
  · rw [h.lists.mem_iff]
    simp [hp]
  · exact count_eq_one_of_mem (h.lists.nodup _ _) (h.lists.mem_iff.mpr ⟨hp, rfl, rfl⟩)
  · intro h0
    rw [h0] at hr
    exact hr
  · intro h4
    rw [h4] at hr
    exact hr

/-- In every reachable state every slab page is consistent, the lists hold only slab pages and every
    class has at most one empty page. The next call never finds a page without a free slot, never
    takes an allocated slot for a free one and moves `use_count` by exactly one. -/
theorem slab_pages_consistent {ops : List SlabOp} {s : SlabState}
    (hrun : Run slabStep ValidSlabCall {} ops s) :
    (∀ page ∈ s.pages, ConsistentPage s.slabs page) ∧
    (∀ size use, ∀ page ∈ s.slabs.lists size use, page ∈ s.pages) ∧
    (∀ size, (s.slabs.lists size 0).length ≤ 1) ∧
    (∀ size allocation, ValidSlabCall s (.allocate size allocation) →
      (slabAllocate s.slabs size allocation).1 ≠ .noFreeSlot ∧
      ∀ page i, (slabAllocate s.slabs size allocation).1 = .slot page i →
        ((slabAllocate s.slabs size allocation).2.headers page).useCount =
          if page ∈ s.pages then (s.slabs.headers page).useCount + 1 else 1) ∧
    (∀ page i, (page, i) ∈ s.live →
      let r := slabDeallocate s.slabs (slotAddress (s.slabs.headers page).size page i)
      (r.1 = .kept ∨ r.1 = .released page) ∧
        (r.2.headers page).useCount + 1 = (s.slabs.headers page).useCount) := by
  have h := slabInv_run hrun
  refine ⟨fun page hp => h.consistent hp, fun size use page hm => (h.lists.mem_iff.mp hm).1,
    h.lists.one_empty, ?_, ?_⟩
  · intro size allocation hv
    rcases h.allocate hv with ⟨heq, -⟩ | ⟨heq, -⟩ | ⟨page, i, slabs, heq, -, -, -, -, -, hcount⟩
    · rw [heq]
      exact ⟨by simp, by simp⟩
    · rw [heq]
      exact ⟨by simp, by simp⟩
    · rw [heq]
      refine ⟨by simp, ?_⟩
      rintro p j hpj
      cases hpj
      rcases hcount with ⟨hp, -, -, hc⟩ | ⟨-, hp, hc⟩
      · rw [if_pos hp]; exact hc
      · rw [if_neg hp]; exact hc
  · intro page i hlive
    rcases h.deallocate hlive with ⟨slabs, heq, -, -, -, hc⟩ | ⟨slabs, heq, -, -, hc, -⟩
    · rw [heq]
      exact ⟨.inl rfl, hc⟩
    · rw [heq]
      exact ⟨.inr rfl, hc⟩

/-- Two objects of 100 bytes are allocated in a new page and one of them is freed. -/
theorem slab_pages_consistent_two : ∃ s, Run slabStep ValidSlabCall {}
      [.allocate 100 (some 4096), .allocate 100 none, .deallocate 4096 0] s ∧
    s.pages = {4096} ∧ ConsistentPage s.slabs 4096 := by
  have hrun : Run slabStep ValidSlabCall {}
      [.allocate 100 (some 4096), .allocate 100 none, .deallocate 4096 0] _ :=
    .cons_get (by intro p hp; cases hp; decide) (by decide) <|
    .cons_get (by nofun) (by decide) <|
    .cons_get (show (4096, 0) ∈ _ by decide) (by decide) <| .nil _
  have hpages := (slab_pages_consistent hrun).1
  exact ⟨_, hrun, by decide, hpages 4096 (by decide)⟩

end BadgerOS.Malloc.Slab

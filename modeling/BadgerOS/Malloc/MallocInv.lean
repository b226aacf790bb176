import BadgerOS.Lib.Update
import BadgerOS.Malloc.Malloc
import BadgerOS.Malloc.SlabInv

/-!
# Objects of `malloc`

Composition of the slab allocator with a page allocator. The page allocator is
assumed to hand out disjoint, page aligned blocks that hold the requested pages
(`CorrectPages`); nothing else is known of it.

* `ObjectInv`: every object is a page block or a used slot of a slab page, and the
  blocks are disjoint.
* `ObjectInv.disjoint`, `ObjectInv.header_disjoint`, `ObjectInv.type_eq`: objects do
  not overlap each other or a slab header, and the type of the block at the page of
  a pointer names the allocator it came from.
* `malloc_spec`, `release_spec`, `realloc_spec`: one lemma a function.
* `heap_objects_safe`: what holds in every state that `malloc`, `free`, `realloc` and
  stores to objects reach, and what a `realloc` keeps unless its block has 2 GiB or more.
* `realloc_loses_contents`: `buddy_get_size` computes in `int`, so a block of 4 GiB
  has size 0 and `realloc` copies nothing.
-/

namespace BadgerOS.Malloc

open Function Option Slab Finset

/-! ## Page allocators -/

/-- A block of `2^order` pages fits at address `b`. -/
structure PlacedBlock (b order : ℕ) : Prop where
  aligned : pageSize ∣ b
  pos : 0 < b
  le : b + 2 ^ order * pageSize ≤ 2 ^ 64

/-- A correct page allocator: `blocks` are the allocated blocks, by address, with
    their order and type. An allocation adds a block that is disjoint from the others
    and holds the requested pages. -/
structure CorrectPages {σ : Type} (A : PageAllocator σ) (Inv : σ → Prop)
    (blocks : σ → ℕ → Option (ℕ × BlockType)) : Prop where
  lookup : ∀ {s b order type}, Inv s → blocks s b = some (order, type) →
    A.getBlock s b = .block order type
  null : ∀ {s size type}, Inv s → (A.allocate s size type).1 = none →
    Inv (A.allocate s size type).2 ∧ blocks (A.allocate s size type).2 = blocks s
  block : ∀ {s size type b}, Inv s → size + (pageSize - 1) < 2 ^ 64 →
    (A.allocate s size type).1 = some b → Inv (A.allocate s size type).2 ∧
      ∃ order, size ≤ 2 ^ order * pageSize ∧ PlacedBlock b order ∧
        blocks (A.allocate s size type).2 = update (blocks s) b (some (order, type)) ∧
        ∀ b' order' type', blocks s b' = some (order', type') →
          b + 2 ^ order * pageSize ≤ b' ∨ b' + 2 ^ order' * pageSize ≤ b
  free : ∀ {s b block}, Inv s → blocks s b = some block →
    ∃ s', A.deallocate s b = some s' ∧ Inv s' ∧ blocks s' = update (blocks s) b none

/-! ## Objects -/

/-- A live object: its requested size and the allocator that it came from. -/
structure Object where
  size : ℕ
  type : BlockType
  deriving DecidableEq, Repr

/-- The allocator that `malloc(size)` asks. -/
def mallocType (size : ℕ) : BlockType := if size ≤ maxSlabSize then .slab else .page

/-- `p` points to a page block or to a used slot that holds the object `x`. -/
def IsObject (blocks : ℕ → Option (ℕ × BlockType)) (slab : Slab.SlabState) (p : ℕ) (x : Object) :
    Prop :=
  (x.type = .page ∧ ∃ order, blocks p = some (order, .page) ∧ x.size ≤ 2 ^ order * pageSize) ∨
  (x.type = .slab ∧ ∃ page i, (page, i) ∈ slab.live ∧
    p = Slab.slotAddress (slab.slabs.headers page).size page i ∧
    x.size ≤ Slab.slabBytes (slab.slabs.headers page).size)

theorem IsObject.mono {blocks blocks' : ℕ → Option (ℕ × BlockType)} {slab slab' : Slab.SlabState}
    {p : ℕ} {x : Object} (hx : IsObject blocks slab p x)
    (hb : ∀ order, blocks p = some (order, .page) → blocks' p = some (order, .page))
    (hl : ∀ page i, (page, i) ∈ slab.live → p = slotAddress (slab.slabs.headers page).size
      page i → (page, i) ∈ slab'.live ∧ (slab'.slabs.headers page).size = (slab.slabs.headers
      page).size) : IsObject blocks' slab' p x := by
  rcases hx with ⟨ht, order, hblock, hsize⟩ | ⟨ht, page, i, hlive, hp, hsize⟩
  · exact .inl ⟨ht, order, hb order hblock, hsize⟩
  · obtain ⟨hlive', hsz⟩ := hl page i hlive hp
    exact .inr ⟨ht, page, i, hlive', by rw [hsz]; exact hp, by rw [hsz]; exact hsize⟩

/-- The allocated blocks, the slab allocator and the live objects belong together. -/
structure ObjectInv (blocks : ℕ → Option (ℕ × BlockType)) (slab : Slab.SlabState)
    (objects : ℕ → Option Object) : Prop where
  slabInv : Slab.SlabInv slab
  slab_page : ∀ {p}, p ∈ slab.pages ↔ ∃ order, blocks p = some (order, .slab)
  placed : ∀ {b order type}, blocks b = some (order, type) → PlacedBlock b order
  apart : ∀ {b order type b' order' type'}, blocks b = some (order, type) →
    blocks b' = some (order', type') → b ≠ b' →
    b + 2 ^ order * pageSize ≤ b' ∨ b' + 2 ^ order' * pageSize ≤ b
  object : ∀ {p x}, objects p = some x → IsObject blocks slab p x

namespace ObjectInv

variable {blocks : ℕ → Option (ℕ × BlockType)} {slab : Slab.SlabState}
  {objects : ℕ → Option Object} {p q : ℕ} {x y : Object}

variable {i page b order n : ℕ} {type : BlockType}

theorem alignDown_of_dvd (hb : pageSize ∣ b) : alignDown b pageSize = b := Nat.div_mul_cancel hb

theorem slots_apart (size : Slab.SlabSize) (page : ℕ) {j : ℕ} (hij : i < j) :
    slotAddress size page i + slabBytes size ≤ slotAddress size page j := by
  have := Nat.mul_le_mul_right (slabBytes size) (show i + 1 ≤ j from hij)
  rw [Nat.add_mul, Nat.one_mul] at this
  unfold slotAddress
  omega

/-- A block of `2^order` pages at `b` overlaps no allocated one. -/
def Clear (blocks : ℕ → Option (ℕ × BlockType)) (b order : ℕ) : Prop :=
  ∀ b' order' type', blocks b' = some (order', type') →
    b + 2 ^ order * pageSize ≤ b' ∨ b' + 2 ^ order' * pageSize ≤ b

theorem Clear.none (hnew : Clear blocks b order) : blocks b = none := by
  cases hb : blocks b with
  | none => rfl
  | some block =>
    obtain ⟨o, t⟩ := block
    have h1 := Nat.mul_pos (Nat.two_pow_pos order) (show 0 < pageSize by decide)
    have h2 := Nat.mul_pos (Nat.two_pow_pos o) (show 0 < pageSize by decide)
    rcases hnew _ _ _ hb with hle | hle <;> omega

variable (h : ObjectInv blocks slab objects)

include h

theorem slot_range (hlive : (page, i) ∈ slab.live) :
    ∃ order, blocks page = some (order, .slab) ∧ PlacedBlock page order ∧
      page + dataOffset ≤ slotAddress (slab.slabs.headers page).size page i ∧
      slotAddress (slab.slabs.headers page).size page i +
        slabBytes (slab.slabs.headers page).size ≤ page + pageSize ∧
      pageSize ≤ 2 ^ order * pageSize := by
  obtain ⟨hpage, hlt, -⟩ := h.slabInv.live_iff.mp hlive
  obtain ⟨order, hb⟩ := h.slab_page.mp hpage
  have hfits := slot_fits _ hlt
  rw [Nat.add_mul, Nat.one_mul] at hfits
  refine ⟨order, hb, h.placed hb, ?_, ?_, ?_⟩
  · unfold slotAddress; omega
  · unfold slotAddress; omega
  · exact Nat.le_mul_of_pos_left _ (Nat.two_pow_pos order)

theorem slot_page (hlive : (page, i) ∈ slab.live) :
    alignDown (slotAddress (slab.slabs.headers page).size page i) pageSize = page := by
  obtain ⟨hpage, hlt, -⟩ := h.slabInv.live_iff.mp hlive
  obtain ⟨hal, -, htop⟩ := h.slabInv.placed page hpage
  exact (slotAddress_inv hal htop hlt).1

/-- Every object lies in the block at the page of its pointer, and that block has the
    type of the object. -/
theorem in_block (hp : objects p = some x) : ∃ order, blocks (alignDown p pageSize) = some (order, x.type) ∧
      alignDown p pageSize ≤ p ∧ p + x.size ≤ alignDown p pageSize + 2 ^ order * pageSize ∧
      (x.type = .slab → alignDown p pageSize + dataOffset ≤ p ∧
        p + x.size ≤ alignDown p pageSize + pageSize) := by
  rcases h.object hp with ⟨ht, order, hb, hsize⟩ | ⟨ht, page, i, hlive, rfl, hsize⟩
  · have hal := alignDown_of_dvd (h.placed hb).aligned
    rw [hal, ht]
    exact ⟨order, hb, le_rfl, by omega, by intro hc; cases hc⟩
  · obtain ⟨order, hb, -, hlo, hhi, hle⟩ := h.slot_range hlive
    rw [h.slot_page hlive, ht]
    have : 0 < dataOffset := by decide
    exact ⟨order, hb, by omega, by omega, fun _ => ⟨hlo, by omega⟩⟩

theorem pos (hp : objects p = some x) : 0 < p := by
  obtain ⟨order, hb, hle, -⟩ := h.in_block hp
  have := (h.placed hb).pos
  omega

theorem disjoint (hp : objects p = some x)
    (hq : objects q = some y) (hne : p ≠ q) : p + x.size ≤ q ∨ q + y.size ≤ p := by
  obtain ⟨o, hb, hlo, hhi, -⟩ := h.in_block hp
  obtain ⟨o', hb', hlo', hhi', -⟩ := h.in_block hq
  by_cases hpage : alignDown p pageSize = alignDown q pageSize
  · -- the same block: both are slots of one page
    rcases h.object hp with ⟨ht, o1, hb1, -⟩ | ⟨ht, page, i, hlive, rfl, hsize⟩
    · rcases h.object hq with ⟨ht', o2, hb2, -⟩ | ⟨ht', page', j, hlive', rfl, hsize'⟩
      · rw [alignDown_of_dvd (h.placed hb1).aligned,
          alignDown_of_dvd (h.placed hb2).aligned] at hpage
        exact absurd hpage hne
      · rw [hpage, ht] at hb
        rw [hb, ht'] at hb'
        cases hb'
    · rcases h.object hq with ⟨ht', o2, hb2, -⟩ | ⟨ht', page', j, hlive', rfl, hsize'⟩
      · rw [hpage, ht] at hb
        rw [hb, ht'] at hb'
        cases hb'
      · rw [h.slot_page hlive, h.slot_page hlive'] at hpage
        subst hpage
        rcases Nat.lt_trichotomy i j with hij | rfl | hij
        · have := slots_apart (slab.slabs.headers page).size page hij
          omega
        · exact absurd rfl hne
        · have := slots_apart (slab.slabs.headers page).size page hij
          omega
  · rcases h.apart hb hb' hpage with ha | ha <;> omega

theorem header_disjoint (hp : objects p = some x) (hpage : blocks page = some (order, .slab)) :
    p + x.size ≤ page ∨ page + dataOffset ≤ p := by
  obtain ⟨o, hb, hlo, hhi, hslab⟩ := h.in_block hp
  by_cases heq : alignDown p pageSize = page
  · rw [heq, hpage] at hb
    obtain ⟨-, ht⟩ := Prod.mk.inj (some.inj hb)
    rw [heq] at hslab
    exact .inr (hslab ht.symm).1
  · have hle : pageSize ≤ 2 ^ order * pageSize := Nat.le_mul_of_pos_left _ (Nat.two_pow_pos order)
    have : dataOffset ≤ pageSize := by decide
    rcases h.apart hb hpage heq with ha | ha <;> omega

/-! ### Changes of the objects -/

theorem slot_not_aligned (hlive : (page, i) ∈ slab.live) :
    ¬ pageSize ∣ slotAddress (slab.slabs.headers page).size page i := by
  intro hdvd
  have h1 := h.slot_page hlive
  rw [alignDown_of_dvd hdvd] at h1
  obtain ⟨order, -, -, hlo, -⟩ := h.slot_range hlive
  have : 0 < dataOffset := by decide
  omega

theorem apart_update (hnew : Clear blocks b order) {b1 o1 b2 o2 : ℕ} {t1 t2 : BlockType}
    (h1 : update blocks b (some (order, type)) b1 = some (o1, t1))
    (h2 : update blocks b (some (order, type)) b2 = some (o2, t2)) (hne : b1 ≠ b2) :
    b1 + 2 ^ o1 * pageSize ≤ b2 ∨ b2 + 2 ^ o2 * pageSize ≤ b1 := by
  rcases update_cases h1 with ⟨rfl, heq⟩ | ⟨-, hold⟩
  · cases heq
    rw [update_of_ne hne.symm] at h2
    exact hnew _ _ _ h2
  · rcases update_cases h2 with ⟨rfl, heq⟩ | ⟨-, hold'⟩
    · cases heq
      exact (hnew _ _ _ hold).symm
    · exact h.apart hold hold' hne

theorem placed_update (hb : PlacedBlock b order) {b1 o1 : ℕ} {t1 : BlockType}
    (h1 : update blocks b (some (order, type)) b1 = some (o1, t1)) : PlacedBlock b1 o1 := by
  rcases update_cases h1 with ⟨rfl, heq⟩ | ⟨-, h1⟩
  · cases heq
    exact hb
  · exact h.placed h1

theorem add_page (hb : PlacedBlock b order) (hn : n ≤ 2 ^ order * pageSize) (hnew : Clear blocks b order) :
    objects b = none ∧ ObjectInv (update blocks b (some (order, .page))) slab
      (update objects b (some ⟨n, .page⟩)) := by
  have hnone := hnew.none
  constructor
  · cases hx : objects b with
    | none => rfl
    | some x =>
      rcases h.object hx with ⟨-, o, hblock, -⟩ | ⟨-, page, i, hlive, hp, -⟩
      · rw [hnone] at hblock; cases hblock
      · exact absurd (hp ▸ hb.aligned) (h.slot_not_aligned hlive)
  · refine ⟨h.slabInv, ?_, h.placed_update hb, h.apart_update hnew, ?_⟩
    · intro p
      rw [h.slab_page]
      by_cases hp : p = b
      · subst hp
        simp [hnone]
      · rw [update_of_ne hp]
    · intro p x hx
      rcases update_cases hx with ⟨rfl, heq⟩ | ⟨hp, hx⟩
      · cases heq
        exact .inl ⟨rfl, order, update_self _ _ _, hn⟩
      · exact (h.object hx).mono (fun o ho => by rw [update_of_ne hp]; exact ho)
          (fun page i hlive _ => ⟨hlive, rfl⟩)

theorem remove_page (hp : objects p = some x) (ht : x.type = .page) :
    ObjectInv (update blocks p none) slab (update objects p none) := by
  obtain ⟨order, hblock⟩ : ∃ order, blocks p = some (order, .page) := by
    rcases h.object hp with ⟨-, o, hb, -⟩ | ⟨hs, -⟩
    · exact ⟨o, hb⟩
    · rw [ht] at hs; cases hs
  refine ⟨h.slabInv, ?_, fun hb => h.placed (update_none_cases hb).2,
    fun h1 h2 => h.apart (update_none_cases h1).2 (update_none_cases h2).2, ?_⟩
  · intro q
    rw [h.slab_page]
    by_cases hq : q = p
    · subst hq
      simp [hblock]
    · rw [update_of_ne hq]
  · intro q y hy
    obtain ⟨hq, hy⟩ := update_none_cases hy
    exact (h.object hy).mono (fun o ho => by rw [update_of_ne hq]; exact ho)
      (fun page i hlive _ => ⟨hlive, rfl⟩)

theorem resize_page (hb : blocks p = some (order, .page)) (hn : n ≤ 2 ^ order * pageSize) :
    ObjectInv blocks slab (update objects p (some ⟨n, .page⟩)) := by
  refine ⟨h.slabInv, h.slab_page, h.placed, h.apart, ?_⟩
  intro q y hy
  rcases update_cases hy with ⟨rfl, heq⟩ | ⟨-, hy⟩
  · cases heq
    exact .inl ⟨rfl, order, hb, hn⟩
  · exact h.object hy

omit h in
theorem slot_unique {slab : Slab.SlabState} (h : Slab.SlabInv slab) {page' i' : ℕ}
    (h1 : (page, i) ∈ slab.live) (h2 : (page', i') ∈ slab.live)
    (heq : slotAddress (slab.slabs.headers page).size page i = slotAddress (slab.slabs.headers page').size page' i') :
    (page, i) = (page', i') := by
  obtain ⟨hp1, hlt1, -⟩ := h.live_iff.mp h1
  obtain ⟨hp2, hlt2, -⟩ := h.live_iff.mp h2
  obtain ⟨hal1, -, htop1⟩ := h.placed page hp1
  obtain ⟨hal2, -, htop2⟩ := h.placed page' hp2
  obtain ⟨e1, e2⟩ := slotAddress_inv hal1 htop1 hlt1
  obtain ⟨e3, e4⟩ := slotAddress_inv hal2 htop2 hlt2
  rw [heq] at e1 e2
  rw [← e1, ← e2, e3, e4]

/-- A new slot becomes an object. The page of the slot may be new, too. -/
theorem add_slot {slabs : Slab.Slabs} (blocks' : ℕ → Option (ℕ × BlockType))
    (hs : Slab.SlabInv ⟨slabs, insert page slab.pages, insert (page, i) slab.live⟩)
    (hslot : (page, i) ∉ slab.live)
    (hsizes : ∀ q ∈ slab.pages, (slabs.headers q).size = (slab.slabs.headers q).size)
    (hn : n ≤ slabBytes (slabs.headers page).size)
    (hpages : ∀ {p}, p ∈ insert page slab.pages ↔ ∃ order, blocks' p = some (order, .slab))
    (hplaced : ∀ {b order type}, blocks' b = some (order, type) → PlacedBlock b order)
    (hapart : ∀ {b order type b' order' type'}, blocks' b = some (order, type) → blocks' b' = some (order', type') → b ≠ b' → b + 2 ^ order * pageSize ≤ b' ∨ b' + 2 ^ order' * pageSize ≤ b)
    (hkeep : ∀ b order, blocks b = some (order, .page) → blocks' b = some (order, .page)) :
    objects (slotAddress (slabs.headers page).size page i) = none ∧
      ObjectInv blocks' ⟨slabs, insert page slab.pages, insert (page, i) slab.live⟩
        (update objects (slotAddress (slabs.headers page).size page i) (some ⟨n, .slab⟩)) := by
  have hmem : (page, i) ∈ insert (page, i) slab.live := mem_insert_self _ _
  have hold : ∀ page' i', (page', i') ∈ slab.live →
      (slabs.headers page').size = (slab.slabs.headers page').size :=
    fun page' i' hlive => hsizes page' (h.slabInv.live_iff.mp hlive).1
  have hinv : ObjectInv blocks' ⟨slabs, insert page slab.pages, insert (page, i) slab.live⟩
      (update objects (slotAddress (slabs.headers page).size page i) (some ⟨n, .slab⟩)) := by
    refine ⟨hs, hpages, hplaced, hapart, ?_⟩
    intro p x hx
    rcases update_cases hx with ⟨rfl, heq⟩ | ⟨hp, hx⟩
    · cases heq
      exact .inr ⟨rfl, page, i, hmem, rfl, hn⟩
    · exact (h.object hx).mono (hkeep p) fun page' i' hlive _ =>
        ⟨mem_insert_of_mem hlive, hold page' i' hlive⟩
  refine ⟨?_, hinv⟩
  cases hx : objects (slotAddress (slabs.headers page).size page i) with
  | none => rfl
  | some x =>
    rcases h.object hx with ⟨-, o, hblock, -⟩ | ⟨-, page', i', hlive, hp, -⟩
    · exact absurd (h.placed hblock).aligned (hinv.slot_not_aligned hmem)
    · rw [← hold page' i' hlive] at hp
      have := slot_unique hs hmem (mem_insert_of_mem hlive) hp
      rw [this] at hslot
      exact absurd hlive hslot

/-- A slot is given back, and with it the page if it was the last one in use. -/
theorem remove_slot {slabs : Slab.Slabs} {pages : Finset ℕ} {blocks' : ℕ → Option (ℕ × BlockType)}
    (hs : Slab.SlabInv ⟨slabs, pages, slab.live.erase (page, i)⟩)
    (hsizes : ∀ page' i', (page', i') ∈ slab.live → (page', i') ≠ (page, i) → (slabs.headers page').size = (slab.slabs.headers page').size)
    (hpages : ∀ {p}, p ∈ pages ↔ ∃ order, blocks' p = some (order, .slab))
    (hback : ∀ {b block}, blocks' b = some block → blocks b = some block)
    (hkeep : ∀ b order, blocks b = some (order, .page) → blocks' b = some (order, .page)) :
    ObjectInv blocks' ⟨slabs, pages, slab.live.erase (page, i)⟩
      (update objects (slotAddress (slab.slabs.headers page).size page i) none) := by
  refine ⟨hs, hpages, fun hb => h.placed (hback hb), fun h1 h2 => h.apart (hback h1) (hback h2), ?_⟩
  intro p x hx
  obtain ⟨hp, hx⟩ := update_none_cases hx
  refine (h.object hx).mono (hkeep p) fun page' i' hlive' hp' => ?_
  have hne : (page', i') ≠ (page, i) := by
    intro heq
    cases heq
    exact hp hp'
  exact ⟨mem_erase.mpr ⟨hne, hlive'⟩, hsizes page' i' hlive' hne⟩

end ObjectInv

/-! ## The functions -/

section

variable {σ : Type} {A : PageAllocator σ} {Inv : σ → Prop}
  {blocks : σ → ℕ → Option (ℕ × BlockType)}

/-- The invariant of the allocators with the live objects. -/
def MemInv (Inv : σ → Prop) (blocks : σ → ℕ → Option (ℕ × BlockType)) (m : Mem σ)
    (objects : ℕ → Option Object) : Prop :=
  Inv m.pages ∧ ∃ sp live, ObjectInv (blocks m.pages) ⟨m.slabs, sp, live⟩ objects

variable {m : Mem σ} {objects : ℕ → Option Object} {p size q : ℕ} {x : Object}

theorem MemInv.setBytes (h : MemInv Inv blocks m objects) (bytes : ℕ → UInt8) :
    MemInv Inv blocks { m with bytes := bytes } objects := h

theorem malloc_eq_slab (A : PageAllocator σ) (m : Mem σ) (hle : size ≤ maxSlabSize) :
    malloc A m size = slabAllocate A m (if size = 0 then 1 else size) := by
  have h1 : (if size = 0 then 1 else size) ≤ maxSlabSize := by
    unfold maxSlabSize at hle ⊢
    split_ifs <;> omega
  simp only [malloc, if_pos h1]

theorem malloc_eq_page (A : PageAllocator σ) (m : Mem σ) (hlt : maxSlabSize < size) :
    malloc A m size = ((A.allocate m.pages size .page).1,
      { m with pages := (A.allocate m.pages size .page).2 }) := by
  have hne : size ≠ 0 := by
    unfold maxSlabSize at hlt
    omega
  simp only [malloc, if_neg hne, if_neg (not_le.mpr hlt)]

section

variable (hA : CorrectPages A Inv blocks) (h : MemInv Inv blocks m objects)

include hA h

theorem allocate_page_spec {r : Option ℕ} {pages : σ} (hsize : size + (pageSize - 1) < 2 ^ 64)
    (hall : A.allocate m.pages size .page = (r, pages)) :
    (r = none ∧ MemInv Inv blocks { m with pages } objects) ∨ ∃ b, r = some b ∧ objects b = none ∧
      MemInv Inv blocks { m with pages } (update objects b (some ⟨size, .page⟩)) := by
  obtain ⟨hinv, sp, live, hobj⟩ := h
  cases r with
  | none =>
    obtain ⟨hinv', hblocks⟩ := hA.null hinv (congrArg Prod.fst hall)
    rw [hall] at hinv' hblocks
    exact .inl ⟨rfl, hinv', sp, live, by rw [hblocks]; exact hobj⟩
  | some b =>
    obtain ⟨hinv', order, hle, hplaced, hblocks, hnew⟩ :=
      hA.block hinv hsize (congrArg Prod.fst hall)
    rw [hall] at hinv' hblocks
    obtain ⟨hnone, hobj'⟩ := hobj.add_page hplaced hle hnew
    exact .inr ⟨b, rfl, hnone, hinv', sp, live, by rw [hblocks]; exact hobj'⟩

theorem slabAllocate_spec (hle : size ≤ 256) {n : ℕ} (hn : n ≤ size) :
    ∃ r m', slabAllocate A m size = (r, m') ∧ m'.bytes = m.bytes ∧
      (r = none → MemInv Inv blocks m' objects) ∧
      ∀ p, r = some p → objects p = none ∧
        MemInv Inv blocks m' (update objects p (some ⟨n, .slab⟩)) := by
  obtain ⟨hinv, sp, live, hobj⟩ := h
  have hclass : n ≤ slabBytes (slabType size) := by
    unfold slabType
    split_ifs <;> simp only [slabBytes] <;> omega
  unfold slabAllocate
  by_cases hneed : (getSlabLoop m.slabs (slabType size) 4).isNone
  · rw [if_pos ⟨hle, hneed⟩]
    cases hr : A.allocate m.pages pageSize .slab with
    | mk allocation pages =>
    dsimp only
    cases allocation with
    | none =>
      obtain ⟨hinv', hblocks⟩ := hA.null hinv (congrArg Prod.fst hr)
      rw [hr] at hinv' hblocks
      have hv : Slab.ValidSlabCall ⟨m.slabs, sp, live⟩ (.allocate size none) := by
        rintro _ ⟨⟩
      rcases hobj.slabInv.allocate hv with ⟨-, hlt⟩ | ⟨heq, -⟩ | ⟨page, i, slabs, -, -, -, -, -, -, hpage⟩
      · omega
      · rw [heq]
        exact ⟨none, _, rfl, rfl, fun _ => ⟨hinv', sp, live, by rw [hblocks]; exact hobj⟩,
          fun p hp => by cases hp⟩
      · rcases hpage with ⟨-, hsome, -⟩ | ⟨hc, -⟩
        · rw [isNone_iff_eq_none.mp hneed] at hsome
          cases hsome
        · cases hc
    | some b =>
      obtain ⟨hinv', order, -, hplaced, hblocks, hnew⟩ :=
        hA.block hinv (by decide) (congrArg Prod.fst hr)
      rw [hr] at hinv' hblocks
      have hbnone := ObjectInv.Clear.none hnew
      have hv : Slab.ValidSlabCall ⟨m.slabs, sp, live⟩ (.allocate size (some b)) := by
        intro p hp
        cases hp
        have hle1 : pageSize ≤ 2 ^ order * pageSize :=
          Nat.le_mul_of_pos_left _ (Nat.two_pow_pos order)
        refine ⟨fun hm => ?_, hplaced.aligned, hplaced.pos, by have := hplaced.le; omega⟩
        obtain ⟨o, ho⟩ := hobj.slab_page.mp hm
        rw [hbnone] at ho
        cases ho
      rcases hobj.slabInv.allocate hv with ⟨-, hlt⟩ | ⟨-, hc⟩ |
        ⟨page, i, slabs, heq, -, hsz, hslot, hs, hother, hpage⟩
      · omega
      · cases hc
      · rw [heq]
        obtain ⟨rfl, hfresh⟩ : b = page ∧ page ∉ sp := by
          rcases hpage with ⟨-, hsome, -⟩ | ⟨hc, hfresh, -⟩
          · rw [isNone_iff_eq_none.mp hneed] at hsome
            cases hsome
          · exact ⟨some.inj hc, hfresh⟩
        obtain ⟨hnone, hobj'⟩ := hobj.add_slot (n := n)
          (update (blocks m.pages) b (some (order, .slab))) hs hslot
          (fun q hq => by rw [hother q (by rintro rfl; exact hfresh hq)])
          (by rw [hsz]; exact hclass)
          (by
            intro p
            rw [mem_insert, hobj.slab_page]
            by_cases hp : p = b
            · subst hp; simp
            · simp [hp])
          (hobj.placed_update hplaced) (hobj.apart_update hnew)
          (fun q o hq => by
            rw [update_of_ne (by rintro rfl; rw [hbnone] at hq; cases hq)]
            exact hq)
        rw [hsz] at hnone hobj'
        refine ⟨_, _, rfl, rfl, by intros; contradiction, fun p hp => ?_⟩
        cases hp
        exact ⟨hnone, hinv', _, _, by rw [hblocks]; exact hobj'⟩
  · rw [if_neg (by simp [hneed])]
    dsimp only
    have hv : Slab.ValidSlabCall ⟨m.slabs, sp, live⟩ (.allocate size none) := by
      rintro _ ⟨⟩
    rcases hobj.slabInv.allocate hv with ⟨-, hlt⟩ | ⟨heq, -⟩ |
      ⟨page, i, slabs, heq, -, hsz, hslot, hs, hother, hpage⟩
    · omega
    · rw [heq]
      exact ⟨none, _, rfl, rfl, fun _ => ⟨hinv, sp, live, hobj⟩, fun p hp => by cases hp⟩
    · rw [heq]
      obtain ⟨hmem, hsame⟩ : page ∈ sp ∧ (slabs.headers page).size = (m.slabs.headers page).size := by
        rcases hpage with ⟨hmem, -, hsame, -⟩ | ⟨hc, -⟩
        · exact ⟨hmem, hsame⟩
        · cases hc
      obtain ⟨hnone, hobj'⟩ := hobj.add_slot (n := n) (blocks m.pages) hs hslot (fun q hq => by
          by_cases hqp : q = page
          · rw [hqp]; exact hsame
          · rw [hother q hqp])
        (by rw [hsz]; exact hclass)
        (by
          intro p
          rw [insert_eq_self.mpr hmem]
          exact hobj.slab_page)
        hobj.placed hobj.apart (fun q o hq => hq)
      rw [hsz] at hnone hobj'
      refine ⟨_, _, rfl, rfl, by intros; contradiction, fun p hp => ?_⟩
      cases hp
      exact ⟨hnone, hinv, _, _, hobj'⟩

theorem malloc_spec (hsize : size + (pageSize - 1) < 2 ^ 64) : ∃ r m', malloc A m size = (r, m') ∧ m'.bytes = m.bytes ∧
      (r = none → MemInv Inv blocks m' objects) ∧
      ∀ p, r = some p → objects p = none ∧
        MemInv Inv blocks m' (update objects p (some ⟨size, mallocType size⟩)) := by
  by_cases hslab : size ≤ maxSlabSize
  · have hle : (if size = 0 then 1 else size) ≤ 256 := by
      unfold maxSlabSize at hslab
      split_ifs <;> omega
    rw [malloc_eq_slab A m hslab, mallocType, if_pos hslab]
    exact slabAllocate_spec hA h hle (by split_ifs <;> omega)
  · rw [malloc_eq_page A m (not_le.mp hslab), mallocType, if_neg hslab]
    rcases hall : A.allocate m.pages size .page with ⟨r, pages⟩
    rcases allocate_page_spec hA h hsize hall with ⟨rfl, hinv⟩ | ⟨b, rfl, hnone, hinv⟩
    · exact ⟨none, _, rfl, rfl, fun _ => hinv, nofun⟩
    · refine ⟨some b, _, rfl, rfl, nofun, fun p hp => ?_⟩
      cases hp
      exact ⟨hnone, hinv⟩

theorem getType_spec (hp : objects p = some x) : buddyGetType A m.pages (alignDown p pageSize) = some x.type := by
  obtain ⟨hinv, sp, live, hobj⟩ := h
  obtain ⟨order, hb, -⟩ := hobj.in_block hp
  rw [buddyGetType, hA.lookup hinv hb]

theorem release_spec (hp : objects p = some x) : ∃ m', release A m p x.type = some m' ∧ m'.bytes = m.bytes ∧
      MemInv Inv blocks m' (update objects p none) := by
  obtain ⟨hinv, sp, live, hobj⟩ := h
  rcases hobj.object hp with ⟨ht, order, hb, -⟩ | ⟨ht, page, i, hlive, rfl, -⟩
  · obtain ⟨pages, hfree, hinv', hblocks⟩ := hA.free hinv hb
    rw [ht]
    refine ⟨{ m with pages := pages }, by simp only [release, hfree, map_some], rfl, hinv', sp,
      live, ?_⟩
    rw [hblocks]
    exact hobj.remove_page hp ht
  · rw [ht]
    simp only [release, slabDeallocate]
    obtain ⟨hpage, -⟩ := hobj.slabInv.live_iff.mp hlive
    rcases hobj.slabInv.deallocate hlive with ⟨slabs, heq, hs, hother, hsame, -⟩ |
      ⟨slabs, heq, hs, hother, -, hlast⟩
    · -- the page stays
      rw [heq]
      refine ⟨_, rfl, rfl, hinv, sp, live.erase (page, i), ?_⟩
      refine hobj.remove_slot hs (fun page' i' _ _ => ?_) hobj.slab_page id (fun _ _ hb => hb)
      by_cases hpp : page' = page
      · rw [hpp]; exact hsame
      · exact congrArg Slab.SlabHeader.size (hother page' hpp)
    · -- the page goes back to the page allocator
      rw [heq]
      obtain ⟨order, hb⟩ := hobj.slab_page.mp hpage
      obtain ⟨pages, hfree, hinv', hblocks⟩ := hA.free hinv hb
      refine ⟨{ m with pages := pages, slabs := slabs },
        by simp only [hfree, map_some], rfl, hinv', sp.erase page,
        live.erase (page, i), ?_⟩
      have hne : ∀ q o, blocks m.pages q = some (o, .page) → q ≠ page := by
        rintro q o hq rfl
        rw [hb] at hq
        cases hq
      refine hobj.remove_slot hs (fun page' i' hlive' hne' => ?_) ?_ ?_ ?_
      · by_cases hpp : page' = page
        · subst hpp
          exact absurd (by rw [hlast i' hlive']) hne'
        · exact congrArg Slab.SlabHeader.size (hother page' hpp)
      · intro q
        rw [hblocks, mem_erase]
        by_cases hq : q = page
        · simp [hq]
        · rw [update_of_ne hq]
          simp only [hq, ne_eq, not_false_eq_true, true_and]
          exact hobj.slab_page
      · intro q block hq
        rw [hblocks] at hq
        exact (update_none_cases hq).2
      · intro q o hq
        rw [hblocks, update_of_ne (hne q o hq)]
        exact hq

theorem free_spec (hp : objects p = some x) : ∃ m', free A m p = some m' ∧ m'.bytes = m.bytes ∧
      MemInv Inv blocks m' (update objects p none) := by
  have hpos : p ≠ 0 := by
    obtain ⟨-, sp, live, hobj⟩ := h
    exact (hobj.pos hp).ne'
  rw [free, if_neg hpos, getType_spec hA h hp]
  exact release_spec hA h hp

end

/-! ### `realloc` -/

theorem memcpy_inside {bytes : ℕ → UInt8} {dst src n k : ℕ} (hk : k < n) :
    memcpy bytes dst src n (dst + k) = bytes (src + k) := by
  unfold memcpy
  rw [if_pos (by omega), Nat.add_sub_cancel_left]

theorem memcpy_outside {bytes : ℕ → UInt8} {dst src n a : ℕ} (ha : a < dst ∨ dst + n ≤ a) :
    memcpy bytes dst src n a = bytes a := by
  unfold memcpy
  rw [if_neg (by omega)]

/-- What `realloc` owes its caller when it moves the object at `p` to `q`. -/
structure Moved (bytes bytes' : ℕ → UInt8) (objects : ℕ → Option Object) (p q size : ℕ)
    (x : Object) : Prop where
  contents : ∀ k, k < x.size → k < size → bytes' (q + k) = bytes (p + k)
  others : ∀ p' x', p' ≠ p → objects p' = some x' → ∀ k < x'.size, bytes' (p' + k) = bytes (p' + k)

theorem moved_memcpy {q n : ℕ} {type : BlockType} (h : MemInv Inv blocks m (update objects q (some ⟨size, type⟩)))
    (hq : objects q = none) (hn : n ≤ size) (hmin : ∀ k, k < x.size → k < size → k < n) :
    Moved m.bytes (memcpy m.bytes q p n) objects p q size x := by
  obtain ⟨-, sp, live, hobj⟩ := h
  refine ⟨fun k h1 h2 => memcpy_inside (hmin k h1 h2), fun p' x' _ hp' k hk => memcpy_outside ?_⟩
  have hne : p' ≠ q := by
    rintro rfl
    rw [hq] at hp'
    cases hp'
  have hd := hobj.disjoint (p := p') (q := q) (x := x') (y := ⟨size, type⟩)
    (by rw [update_of_ne hne]; exact hp') (update_self _ _ _) hne
  dsimp only at hd
  omega

/-- The size of a block of less than 2 GiB, computed in `int`. -/
theorem blockBytes_eq {order : ℕ} (ho : order ≤ 18) : blockBytes order = 2 ^ order * pageSize := by
  interval_cases order <;> rfl

/-- The block that `buddy_allocate` takes holds the request if its rounding to pages does
    not wrap. -/
theorem le_blockPages {size : ℕ} (hsize : size + (pageSize - 1) < 2 ^ 64) :
    size ≤ 2 ^ getOrder (requestPages size) * pageSize := by
  have hreq := requestPages_eq hsize
  unfold pageSize at hsize ⊢
  have hle := le_two_pow_getOrder (n := requestPages size) (by omega)
  have := Nat.mul_le_mul_right 4096 hle
  omega

/-- The outcomes of `realloc(p, size)` for a live object `x` and `size ≠ 0`. The contents
    are only known to move along where `copied` holds. -/
def ReallocOk (Inv : σ → Prop) (blocks : σ → ℕ → Option (ℕ × BlockType)) (m : Mem σ)
    (objects : ℕ → Option Object) (p size : ℕ) (x : Object) (copied : Prop) (r : Option ℕ)
    (m' : Mem σ) : Prop :=
  (r = none → m'.bytes = m.bytes ∧ MemInv Inv blocks m' objects) ∧
  ∀ q, r = some q → (q = p ∨ objects q = none) ∧
    MemInv Inv blocks m'
      (update (update objects p none) q (some ⟨size, mallocType size⟩)) ∧
    (copied → Moved m.bytes m'.bytes objects p q size x)

theorem ReallocOk.mono {copied copied' : Prop} {r : Option ℕ} {m' : Mem σ}
    (h : ReallocOk Inv blocks m objects p size x copied r m') (himp : copied' → copied) :
    ReallocOk Inv blocks m objects p size x copied' r m' := by
  refine ⟨h.1, fun q hq => ?_⟩
  obtain ⟨hfresh, hinv, hmoved⟩ := h.2 q hq
  exact ⟨hfresh, hinv, fun hc => hmoved (himp hc)⟩

/-- The common end of the moving paths: copy to the new object and release the old one,
    whose size is taken to be `old`. -/
theorem move_spec (hA : CorrectPages A Inv blocks) {m1 : Mem σ} {q : ℕ} (old : ℕ)
    (h : MemInv Inv blocks m1 (update objects q (some ⟨size, mallocType size⟩)))
    (hbytes : m1.bytes = m.bytes) (hp : objects p = some x) (hq : objects q = none) :
    ∃ m', release A { m1 with
        bytes := memcpy m1.bytes q p (if old < size then old else size) } p x.type = some m' ∧
      ReallocOk Inv blocks m objects p size x (x.size ≤ old) (some q) m' := by
  have hne : p ≠ q := by
    rintro rfl
    rw [hp] at hq
    cases hq
  have hp1 : update objects q (some ⟨size, mallocType size⟩) p = some x := by
    rw [update_of_ne hne]
    exact hp
  obtain ⟨m', hrel, hb, hinv⟩ := release_spec hA
    (h.setBytes (memcpy m1.bytes q p (if old < size then old else size))) hp1
  refine ⟨m', hrel, nofun, fun q' hq' => ?_⟩
  cases hq'
  rw [update_comm hne.symm] at hinv
  rw [hb, ← hbytes]
  refine ⟨.inr hq, hinv, fun hold => moved_memcpy h hq ?_ ?_⟩
  · split_ifs <;> omega
  · intro k h1 h2
    split_ifs <;> omega

section

variable (hA : CorrectPages A Inv blocks) (h : MemInv Inv blocks m objects)
  (hp : objects p = some x) (hsize : size + (pageSize - 1) < 2 ^ 64)

include hA h hp hsize

theorem buddyReallocate_spec (ht : x.type = .page) (hslab : maxSlabSize < size) {order : ℕ}
    (hb : blocks m.pages p = some (order, .page)) :
    ∃ r m', buddyReallocate A m p size = some (r, m') ∧
      ReallocOk Inv blocks m objects p size x (x.size ≤ blockBytes order) r m' := by
  have hmt : mallocType size = .page := if_neg (not_le.mpr hslab)
  obtain ⟨hinv, sp, live, hobj⟩ := h
  unfold buddyReallocate
  rw [hA.lookup hinv hb]
  dsimp only
  by_cases hsame : order = getOrder (requestPages size)
  · rw [if_pos hsame]
    refine ⟨some p, m, rfl, nofun, fun q hq => ?_⟩
    cases hq
    have hle := le_blockPages hsize
    rw [← hsame] at hle
    rw [update_idem, hmt]
    exact ⟨.inl rfl, ⟨hinv, sp, live, hobj.resize_page hb hle⟩, fun _ => ⟨fun _ _ _ => rfl,
      fun _ _ _ _ _ _ => rfl⟩⟩
  · rw [if_neg hsame]
    rcases hall : A.allocate m.pages size .page with ⟨r, pages⟩
    rcases allocate_page_spec hA ⟨hinv, sp, live, hobj⟩ hsize hall with ⟨rfl, hinv'⟩ | ⟨q, rfl, hq, hinv'⟩
    · exact ⟨none, _, rfl, fun _ => ⟨rfl, hinv'⟩, nofun⟩
    · rw [← hmt] at hinv'
      obtain ⟨m', hrel, hok⟩ := move_spec (m := m) hA (blockBytes order) hinv' rfl hp hq
      rw [ht] at hrel
      refine ⟨some q, m', ?_, hok⟩
      simp only [release, map_eq_some_iff] at hrel ⊢
      obtain ⟨pages', hd, rfl⟩ := hrel
      exact ⟨pages', hd, rfl⟩

theorem reallocFrom_move_spec (old : ℕ) (hcond : ¬ (old ≥ size ∧ old > maxSlabSize ∧ size > maxSlabSize)) :
    ∃ r m', reallocFrom A m p size x.type old = some (r, m') ∧
      ReallocOk Inv blocks m objects p size x (x.size ≤ old) r m' := by
  rw [reallocFrom, if_neg hcond]
  obtain ⟨r, m1, hm, hbytes, hnull, hptr⟩ := malloc_spec hA h hsize
  rw [hm]
  cases r with
  | none => exact ⟨none, m1, rfl, fun _ => ⟨hbytes, hnull rfl⟩, nofun⟩
  | some q =>
    obtain ⟨hq, hinv⟩ := hptr q rfl
    obtain ⟨m', hrel, hok⟩ := move_spec hA old hinv hbytes hp hq
    exact ⟨some q, m', by simp only [hrel, map_some], hok⟩

/-- `realloc` of a live object: it never reaches `panic_abort`; `NULL` leaves everything
    as it was; otherwise the object is a new one, the other objects keep their bytes and
    the contents move along if the block is smaller than 2 GiB. -/
theorem realloc_spec (h0 : size ≠ 0) : ∃ r m', realloc A m p size = some (r, m') ∧
      ReallocOk Inv blocks m objects p size x
        (∀ order, A.getBlock m.pages p = .block order .page → order ≤ 18) r m' := by
  have hpos : p ≠ 0 := by
    obtain ⟨-, sp, live, hobj⟩ := h
    exact (hobj.pos hp).ne'
  rw [realloc, if_neg hpos, if_neg h0, getType_spec hA h hp]
  obtain ⟨sp, live, hobj⟩ := h.2
  rcases hobj.object hp with ⟨ht, order, hb, hx⟩ | ⟨ht, page, i, hlive, hpe, hx⟩
  · have hlook := hA.lookup h.1 hb
    have hold : (∀ order, A.getBlock m.pages p = .block order .page → order ≤ 18) →
        x.size ≤ blockBytes order := fun hsmall => by
      rw [blockBytes_eq (hsmall order hlook)]
      exact hx
    have hget : buddyGetSize A m.pages p = some (blockBytes order) := by
      rw [buddyGetSize, hlook]
    rw [ht]
    simp only [hget, bind_some]
    by_cases hcond : blockBytes order ≥ size ∧ blockBytes order > maxSlabSize ∧ size > maxSlabSize
    · rw [reallocFrom, if_pos hcond]
      obtain ⟨r, m', heq, hok⟩ := buddyReallocate_spec hA h hp hsize ht hcond.2.2 hb
      exact ⟨r, m', heq, hok.mono hold⟩
    · obtain ⟨r, m', heq, hok⟩ := reallocFrom_move_spec hA h hp hsize _ hcond
      rw [ht] at heq
      exact ⟨r, m', heq, hok.mono hold⟩
  · have hold : slabGetSize m.slabs p = slabBytes (m.slabs.headers page).size := by
      have hpage : alignDown p pageSize = page := by rw [hpe]; exact hobj.slot_page hlive
      rw [slabGetSize, if_neg hpos, headerOf, hpage]
    have hle : slabBytes (m.slabs.headers page).size ≤ maxSlabSize := by
      cases (m.slabs.headers page).size <;> decide
    obtain ⟨r, m', heq, hok⟩ := reallocFrom_move_spec hA h hp hsize (slabGetSize m.slabs p)
      (fun hc => by omega)
    rw [ht] at heq ⊢
    exact ⟨r, m', heq, hok.mono fun _ => hold ▸ hx⟩

end

end

/-! ## Runs -/

/-- The allocators, the memory and the live objects by their pointers. -/
structure HeapState (σ : Type) where
  mem : Mem σ
  objects : ℕ → Option Object := fun _ => none

/-- The calls of a run, and stores to live objects between them. -/
inductive HeapOp
  | malloc (size : ℕ)
  | free (ptr : ℕ)
  | realloc (ptr size : ℕ)
  | store (addr : ℕ) (value : UInt8)

/-- The objects after an allocation of `size` bytes has returned `r`. -/
def grant (objects : ℕ → Option Object) (size : ℕ) : Option ℕ → ℕ → Option Object
  | none => objects
  | some p => update objects p (some ⟨size, mallocType size⟩)

/-- The objects after `realloc(ptr, size)` has returned `r`. -/
def afterRealloc (objects : ℕ → Option Object) (ptr size : ℕ) (r : Option ℕ) : ℕ → Option Object :=
  if ptr = 0 then grant objects size r
  else if size = 0 then update objects ptr none
  else match r with
    | none => objects
    | some q => grant (update objects ptr none) size (some q)

section

variable {σ : Type} (A : PageAllocator σ)

/-- One call or store. -/
def heapStep (s : HeapState σ) : HeapOp → Option (HeapState σ)
  | .malloc size =>
    let r := malloc A s.mem size
    some { mem := r.2, objects := grant s.objects size r.1 }
  | .free ptr => (free A s.mem ptr).map fun m =>
      { mem := m, objects := update s.objects ptr none }
  | .realloc ptr size => (realloc A s.mem ptr size).map fun r =>
      { mem := r.2, objects := afterRealloc s.objects ptr size r.1 }
  | .store addr value =>
    some { s with mem := { s.mem with bytes := update s.mem.bytes addr value } }

/-- What callers guarantee: sizes whose rounding to pages does not wrap, `free` and
    `realloc` on live pointers or `NULL`, and stores inside live objects. -/
def ValidHeapCall (s : HeapState σ) : HeapOp → Prop
  | .malloc size => size + (pageSize - 1) < 2 ^ 64
  | .free ptr => ptr = 0 ∨ (s.objects ptr).isSome
  | .realloc ptr size => size + (pageSize - 1) < 2 ^ 64 ∧ (ptr = 0 ∨ (s.objects ptr).isSome)
  | .store addr _ => ∃ p x, s.objects p = some x ∧ p ≤ addr ∧ addr < p + x.size

/-- A valid call that does not reallocate a block of 2 GiB or more, whose size does
    not fit into an `int`. -/
def SmallHeapCall (s : HeapState σ) : HeapOp → Prop
  | .realloc ptr size => ValidHeapCall s (.realloc ptr size) ∧
      (size ≠ 0 → ∀ order, A.getBlock s.mem.pages ptr = .block order .page → order ≤ 18)
  | o => ValidHeapCall s o

/-- The live objects overlap neither each other nor a slab header, and the type of the
    block at the page of a pointer names the allocator of its object. -/
structure HeapSafe (blocks : σ → ℕ → Option (ℕ × BlockType)) (s : HeapState σ) : Prop where
  disjoint : ∀ {p x q y}, s.objects p = some x → s.objects q = some y → p ≠ q →
    p + x.size ≤ q ∨ q + y.size ≤ p
  headers : ∀ {p x page order}, s.objects p = some x →
    blocks s.mem.pages page = some (order, .slab) →
    p + x.size ≤ page ∨ page + Slab.dataOffset ≤ p
  dispatch : ∀ {p x}, s.objects p = some x →
    buddyGetType A s.mem.pages (alignDown p pageSize) = some x.type

/-- `realloc(ptr, size)` of a live object keeps the first bytes of the object and the
    bytes of all others; if it returns `NULL`, nothing has changed. -/
def ReallocKeeps (s : HeapState σ) (ptr size : ℕ) : Prop :=
  ∀ x, s.objects ptr = some x → ∃ r t, realloc A s.mem ptr size = some (r, t.mem) ∧
    heapStep A s (.realloc ptr size) = some t ∧
    (r = none → t.mem.bytes = s.mem.bytes ∧ t.objects = s.objects) ∧
    ∀ q, r = some q →
      t.objects = update (update s.objects ptr none) q
        (some ⟨size, mallocType size⟩) ∧
      (∀ k, k < min x.size size → t.mem.bytes (q + k) = s.mem.bytes (ptr + k)) ∧
      ∀ p' x', p' ≠ ptr → s.objects p' = some x' →
        ∀ k < x'.size, t.mem.bytes (p' + k) = s.mem.bytes (p' + k)

variable {A} {Inv : σ → Prop} {blocks : σ → ℕ → Option (ℕ × BlockType)} {s t : HeapState σ}

theorem MemInv.objects_zero (h : MemInv Inv blocks s.mem s.objects) : s.objects 0 = none := by
  obtain ⟨-, sp, live, hobj⟩ := h
  cases hx : s.objects 0 with
  | none => rfl
  | some x => exact absurd (hobj.pos hx) (lt_irrefl 0)

section

variable {o : HeapOp} (hA : CorrectPages A Inv blocks) (h : MemInv Inv blocks s.mem s.objects)

include hA h

theorem MemInv.grant {size : ℕ} (hsize : size + (pageSize - 1) < 2 ^ 64) : MemInv Inv blocks (malloc A s.mem size).2
      (Malloc.grant s.objects size (malloc A s.mem size).1) := by
  obtain ⟨r, m', heq, -, hnull, hptr⟩ := malloc_spec hA h hsize
  rw [heq]
  cases r with
  | none => exact hnull rfl
  | some p => exact (hptr p rfl).2

theorem MemInv.returns (hok : ValidHeapCall s o) : ∃ t, heapStep A s o = some t ∧ MemInv Inv blocks t.mem t.objects := by
  cases o with
  | malloc size => exact ⟨_, rfl, h.grant hA hok⟩
  | free ptr =>
    rcases hok with rfl | hlive
    · refine ⟨_, rfl, ?_⟩
      rw [update_eq_self_iff.mpr h.objects_zero.symm]
      exact h
    · obtain ⟨x, hx⟩ := isSome_iff_exists.mp hlive
      obtain ⟨m', heq, -, hinv⟩ := free_spec hA h hx
      exact ⟨_, by simp only [heapStep, heq, map_some]; rfl, hinv⟩
  | realloc ptr size =>
    obtain ⟨hsize, hptr⟩ := hok
    by_cases hp0 : ptr = 0
    · subst hp0
      exact ⟨_, rfl, h.grant hA hsize⟩
    · obtain ⟨x, hx⟩ := isSome_iff_exists.mp (hptr.resolve_left hp0)
      by_cases hs0 : size = 0
      · subst hs0
        obtain ⟨m', heq, -, hinv⟩ := free_spec hA h hx
        refine ⟨⟨m', update s.objects ptr none⟩, ?_, hinv⟩
        simp [heapStep, Malloc.realloc, afterRealloc, hp0, heq]
      · obtain ⟨r, m', heq, hnull, hsome⟩ := realloc_spec hA h hx hsize hs0
        refine ⟨⟨m', afterRealloc s.objects ptr size r⟩, by simp [heapStep, heq], ?_⟩
        simp only [afterRealloc, if_neg hp0, if_neg hs0]
        cases r with
        | none => exact (hnull rfl).2
        | some q => exact (hsome q rfl).2.1
  | store addr value => exact ⟨_, rfl, h⟩

theorem MemInv.step (hok : ValidHeapCall s o) (hst : heapStep A s o = some t) : MemInv Inv blocks t.mem t.objects := by
  obtain ⟨u, heq, hinv⟩ := h.returns hA hok
  obtain rfl := some.inj (heq.symm.trans hst)
  exact hinv

theorem MemInv.safe : HeapSafe A blocks s := by
  have hall := h
  obtain ⟨-, sp, live, hobj⟩ := h
  exact ⟨hobj.disjoint, fun hp hpage => hobj.header_disjoint hp hpage, getType_spec hA hall⟩

theorem MemInv.reallocKeeps {ptr size : ℕ} (h0 : size ≠ 0)
    (hok : SmallHeapCall A s (.realloc ptr size)) : ReallocKeeps A s ptr size := by
  intro x hx
  obtain ⟨⟨hsize, -⟩, hsmall⟩ := hok
  have hp0 : ptr ≠ 0 := by
    rintro rfl
    rw [h.objects_zero] at hx
    cases hx
  obtain ⟨r, m', heq, hnull, hsome⟩ := realloc_spec hA h hx hsize h0
  refine ⟨r, ⟨m', afterRealloc s.objects ptr size r⟩, heq, by simp [heapStep, heq], ?_, ?_⟩
  · rintro rfl
    exact ⟨(hnull rfl).1, by simp [afterRealloc, hp0, h0]⟩
  · rintro q rfl
    obtain ⟨-, -, hmoved⟩ := hsome q rfl
    have hmoved := hmoved (hsmall h0)
    refine ⟨by simp [afterRealloc, hp0, h0, Malloc.grant], fun k hk => ?_, hmoved.others⟩
    exact hmoved.contents k (by omega) (by omega)

end

theorem MemInv.initial {s0 : σ} (h0 : Inv s0) (hempty : ∀ b, blocks s0 b = none) (bytes : ℕ → UInt8) :
    MemInv Inv blocks { pages := s0, bytes := bytes } (fun _ => none) := by
  refine ⟨h0, ∅, ∅, Slab.SlabInv.init, ?_, ?_, ?_, nofun⟩
  · intro p
    simp [hempty]
  · intro b order type hb
    rw [hempty] at hb
    cases hb
  · intro b order type b' order' type' hb
    rw [hempty] at hb
    cases hb

theorem memInv_run (hA : CorrectPages A Inv blocks) {s0 : σ} (h0 : Inv s0)
    (hempty : ∀ b, blocks s0 b = none) {bytes : ℕ → UInt8} {ops : List HeapOp} {s : HeapState σ}
    (hrun : Run (heapStep A) ValidHeapCall { mem := { pages := s0, bytes := bytes } } ops s) :
    MemInv Inv blocks s.mem s.objects :=
  hrun.invariant (P := fun s => MemInv Inv blocks s.mem s.objects) (MemInv.step hA)
    (MemInv.initial h0 hempty bytes)

/-- In every state that a run from an empty heap reaches, every allowed call returns and the objects
    are safe. A `realloc` of a slab object or of a block of less than 2 GiB keeps the contents. -/
theorem heap_objects_safe (hA : CorrectPages A Inv blocks) {s₀ : σ} (h₀ : Inv s₀)
    (hempty : ∀ b, blocks s₀ b = none) (bytes : ℕ → UInt8) {ops : List HeapOp} {s : HeapState σ}
    (hrun : Run (heapStep A) ValidHeapCall { mem := { pages := s₀, bytes := bytes } } ops s) : HeapSafe A blocks s ∧ (∀ o, ValidHeapCall s o → (heapStep A s o).isSome) ∧
      ∀ ptr size, size ≠ 0 → SmallHeapCall A s (.realloc ptr size) → ReallocKeeps A s ptr size := by
  have h := memInv_run hA h₀ hempty hrun
  refine ⟨h.safe hA, fun o hok => ?_, fun ptr size h0 hok => h.reallocKeeps hA h0 hok⟩
  obtain ⟨t, heq, -⟩ := h.returns hA hok
  exact isSome_of_eq_some heq

end

/-! ## A page allocator that never reuses memory -/

/-- The first address that is still free, and the allocated blocks. -/
structure Bump where
  next : ℕ := pageSize
  blocks : ℕ → Option (ℕ × BlockType) := fun _ => none

/-- Blocks are cut off one after the other. -/
def bumpPages : PageAllocator Bump where
  allocate s size type :=
    let order := getOrder (requestPages size)
    if size = 0 ∨ s.next + 2 ^ order * pageSize > 2 ^ 64 then (none, s)
    else (some s.next, { next := s.next + 2 ^ order * pageSize
                         blocks := update s.blocks s.next (some (order, type)) })
  deallocate s b := some { s with blocks := update s.blocks b none }
  getBlock s b :=
    match s.blocks b with
    | none => .panic
    | some (order, type) => .block order type

/-- The allocated blocks lie below the free memory. -/
structure Bump.Ok (s : Bump) : Prop where
  aligned : pageSize ∣ s.next
  pos : 0 < s.next
  below : ∀ {b order type}, s.blocks b = some (order, type) → b + 2 ^ order * pageSize ≤ s.next

theorem bumpPages_correct : CorrectPages bumpPages Bump.Ok Bump.blocks := by
  constructor
  · intro s b order type _ hb
    simp only [bumpPages, hb]
  · intro s size type hok hnone
    simp only [bumpPages] at hnone ⊢
    split_ifs at hnone ⊢
    exact ⟨hok, rfl⟩
  · intro s size type b hok hsize hsome
    simp only [bumpPages] at hsome ⊢
    split_ifs at hsome ⊢ with hfail
    cases hsome
    have hpos := Nat.mul_pos (Nat.two_pow_pos (getOrder (requestPages size)))
      (show 0 < pageSize by decide)
    refine ⟨⟨?_, ?_, ?_⟩, _, le_blockPages hsize, ⟨hok.aligned, hok.pos, by omega⟩, rfl, ?_⟩
    · exact dvd_add hok.aligned (Dvd.intro_left _ rfl)
    · dsimp only; omega
    · intro b order type' hb
      dsimp only at hb ⊢
      rcases update_cases hb with ⟨rfl, heq⟩ | ⟨-, hb⟩
      · cases heq
        exact le_rfl
      · have := hok.below hb
        omega
    · intro b' order' type' hb'
      exact .inr (hok.below hb')
  · intro s b block hok hb
    refine ⟨_, rfl, ⟨hok.aligned, hok.pos, ?_⟩, rfl⟩
    intro b' order type hb'
    exact hok.below (update_none_cases hb').2

theorem Bump.ok_init : Bump.Ok {} := ⟨dvd_rfl, by decide, nofun⟩

/-- Two objects, one of them moved from a slab to a page. -/
theorem heap_objects_safe_two : ∃ s, Run (heapStep bumpPages) ValidHeapCall
      { mem := { pages := {} } } [.malloc 100, .malloc 5000, .store 4160 7] s ∧
    (s.objects 8192).isSome ∧ HeapSafe bumpPages Bump.blocks s ∧
    ReallocKeeps bumpPages s 4160 300 := by
  have hrun : Run (heapStep bumpPages) ValidHeapCall { mem := { pages := {} } }
      [.malloc 100, .malloc 5000, .store 4160 7] _ :=
    .cons (show _ < _ by decide) rfl <| .cons (show _ < _ by decide) rfl <|
    .cons ⟨4160, ⟨100, .slab⟩, by decide, by decide, by decide⟩ rfl (.nil _)
  obtain ⟨hsafe, -, hkeeps⟩ :=
    heap_objects_safe bumpPages_correct Bump.ok_init (fun _ => rfl) _ hrun
  exact ⟨_, hrun, by decide, hsafe, hkeeps 4160 300 (by decide)
    ⟨⟨by decide, .inr (by decide)⟩, fun _ order hb =>
      absurd (hb.symm.trans (show _ = BlockLookup.panic by decide)) nofun⟩⟩

/-- An object of 4 GiB is a block of order 20, whose size `buddy_get_size` computes as
    0: `realloc` to a larger size copies nothing, and the byte 7 is lost. -/
theorem realloc_loses_contents : ¬ ∀ (σ : Type) (A : PageAllocator σ) (Inv : σ → Prop)
    (blocks : σ → ℕ → Option (ℕ × BlockType)), CorrectPages A Inv blocks → ∀ s₀, Inv s₀ →
    (∀ b, blocks s₀ b = none) → ∀ (bytes : ℕ → UInt8) (ops : List HeapOp) (s : HeapState σ),
    Run (heapStep A) ValidHeapCall { mem := { pages := s₀, bytes := bytes } } ops s →
      HeapSafe A blocks s ∧ ∀ ptr size, size ≠ 0 → ValidHeapCall s (.realloc ptr size) →
        ReallocKeeps A s ptr size := by
  intro hall
  have hrun : Run (heapStep bumpPages) ValidHeapCall { mem := { pages := {}, bytes := fun _ => 0 } }
      [.malloc 4294967296, .store 4096 7] _ :=
    .cons (show _ < _ by decide) rfl <|
    .cons ⟨4096, ⟨4294967296, .page⟩, by decide, by decide, by decide⟩ rfl (.nil _)
  have hkeeps := (hall Bump bumpPages Bump.Ok Bump.blocks bumpPages_correct {} Bump.ok_init
    (fun _ => rfl) _ _ _ hrun).2 4096 4294971392 (by decide) ⟨by decide, .inr (by decide)⟩
  obtain ⟨r, t, heq, -, -, hsome⟩ := hkeeps ⟨4294967296, .page⟩ (by decide)
  -- the new object starts at 4294971392 with the byte 0
  have hr := congrArg (Option.map fun r => (r.1, r.2.bytes 4294971392)) heq
  have hval : some (some 4294971392, (0 : UInt8)) = some (r, t.mem.bytes 4294971392) :=
    Eq.trans (by decide) hr
  rw [some.injEq, Prod.mk.injEq] at hval
  have hbyte := (hsome 4294971392 hval.1.symm).2.1 0 (by decide)
  rw [Nat.add_zero, ← hval.2] at hbyte
  exact absurd hbyte (by decide)

end BadgerOS.Malloc

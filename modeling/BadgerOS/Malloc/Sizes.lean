import BadgerOS.Malloc.MallocInv

/-!
# Sizes and alignments that the allocation functions honour

`malloc`, `calloc`, `realloc`, `reallocarray`, `aligned_alloc` and `posix_memalign`
(`kernel/src/malloc/malloc.c`) should return `NULL` or a pointer to as many bytes as
requested, with the requested alignment. Three things stand in the way:

* `nmemb * size` wraps in `calloc` and `reallocarray`;
* the rounding to pages in `buddy_allocate` wraps for the 4095 largest sizes, which
  then get one page;
* the alignment is ignored, so that a slot of a slab page or a page is all there is.

`alloc_serves_iff` says for which arguments the functions keep their promise on every
heap that a run reaches.
-/

namespace BadgerOS.Malloc

open Slab Nat

/-! ## The calls -/

/-- A call of an allocation function without its pointer argument. -/
inductive AllocCall
  | malloc (size : ℕ)
  | calloc (nmemb size : ℕ)
  | realloc (size : ℕ)
  | reallocarray (nmemb size : ℕ)
  | alignedAlloc (alignment size : ℕ)
  | posixMemalign (alignment size : ℕ)
  deriving DecidableEq, Repr

namespace AllocCall

/-- The bytes that the caller asks for, not reduced to 64 bits. -/
def requested : AllocCall → ℕ
  | malloc size => size
  | calloc nmemb size => nmemb * size
  | realloc size => size
  | reallocarray nmemb size => nmemb * size
  | alignedAlloc _ size => size
  | posixMemalign _ size => size

/-- The alignment that the caller asks for. -/
def alignment : AllocCall → ℕ
  | alignedAlloc alignment _ => alignment
  | posixMemalign alignment _ => alignment
  | _ => 1

/-- The arguments are values of `size_t`, and an alignment is a power of two. -/
def InRange : AllocCall → Prop
  | malloc size => size < 2 ^ 64
  | calloc nmemb size => nmemb < 2 ^ 64 ∧ size < 2 ^ 64
  | realloc size => size < 2 ^ 64
  | reallocarray nmemb size => nmemb < 2 ^ 64 ∧ size < 2 ^ 64
  | alignedAlloc alignment size => (∃ k < 64, alignment = 2 ^ k) ∧ size < 2 ^ 64
  | posixMemalign alignment size => (∃ k < 64, alignment = 2 ^ k) ∧ size < 2 ^ 64

/-- The size that reaches `_malloc`. -/
def sizeArg (call : AllocCall) : ℕ := call.requested % 2 ^ 64

/-- The call, with `ptr` for `realloc` and `reallocarray`. The result of
    `posix_memalign` is what it stores in `*memptr`. -/
def run {σ : Type} (A : PageAllocator σ) (m : Mem σ) (ptr : ℕ) :
    AllocCall → Option (Option ℕ × Mem σ)
  | malloc size => some (Malloc.malloc A m size)
  | calloc nmemb size => some (Malloc.calloc A m nmemb size)
  | realloc size => Malloc.realloc A m ptr size
  | reallocarray nmemb size => Malloc.reallocarray A m ptr nmemb size
  | alignedAlloc alignment size => some (Malloc.alignedAlloc A m alignment size)
  | posixMemalign alignment size => some (Malloc.posixMemalign A m alignment size).2

theorem InRange.alignment_eq {call : AllocCall} (h : call.InRange) : ∃ k, call.alignment = 2 ^ k := by
  cases call with
  | alignedAlloc a size | posixMemalign a size => exact ⟨h.1.choose, h.1.choose_spec.2⟩
  | _ => exact ⟨0, rfl⟩

end AllocCall

/-! ## Served calls -/

section

variable {σ : Type} (A : PageAllocator σ)

/-- The bytes from `ptr` to the end of its page block, or of its slot of a slab page. -/
def ownedBytes (m : Mem σ) (ptr : ℕ) : ℕ :=
  match A.getBlock m.pages (alignDown ptr pageSize) with
  | .block order .page => alignDown ptr pageSize + 2 ^ order * pageSize - ptr
  | .block _ .slab => Slab.slabBytes (m.slabs.headers (alignDown ptr pageSize)).size
  | _ => 0

/-- The call returns, and a pointer that it returns is aligned and owns the requested bytes. -/
def Serves (m : Mem σ) (ptr : ℕ) (call : AllocCall) : Prop :=
  ∃ r m', call.run A m ptr = some (r, m') ∧
    ∀ q, r = some q → call.requested ≤ ownedBytes A m' q ∧ call.alignment ∣ q

end

/-- The call is served on every heap that a run reaches, on top of any correct page
    allocator, for `NULL` and every live pointer. -/
def ServesAlways (call : AllocCall) : Prop :=
  ∀ (σ : Type) (A : PageAllocator σ) (Inv : σ → Prop) (blocks : σ → ℕ → Option (ℕ × BlockType)),
    CorrectPages A Inv blocks → ∀ s₀, Inv s₀ → (∀ b, blocks s₀ b = none) →
    ∀ (bytes : ℕ → UInt8) (ops : List HeapOp) (s : HeapState σ),
    Run (heapStep A) ValidHeapCall { mem := { pages := s₀, bytes := bytes } } ops s →
    ∀ ptr, ptr = 0 ∨ (s.objects ptr).isSome → Serves A s.mem ptr call

/-- The alignment of what `malloc(size)` returns: slots of 32 bytes begin at multiples of
    32, the larger ones behind a header of 64 bytes, and blocks at pages. -/
def slotAlignment (size : ℕ) : ℕ :=
  if size ≤ 32 then 32 else if size ≤ maxSlabSize then 64 else pageSize

/-- The requests that are honoured. From `2^63 + 1` bytes on the block would fill the
    address space, so that the result is `NULL`, until the rounding to pages wraps. -/
def Honoured (call : AllocCall) : Prop :=
  (call.requested ≤ 2 ^ 63 ∧ call.alignment ∣ slotAlignment call.requested) ∨
  (2 ^ 63 < call.sizeArg ∧ call.sizeArg ≤ 2 ^ 64 - pageSize)

/-! ## Objects own their bytes -/

section

variable {σ : Type} {A : PageAllocator σ} {Inv : σ → Prop}
  {blocks : σ → ℕ → Option (ℕ × BlockType)} {m : Mem σ} {objects : ℕ → Option Object}
  {p : ℕ} {x : Object}

/-- No object has more than half of the address space: a block has a power of two of
    pages and page 0 is never allocated. -/
theorem MemInv.size_le (h : MemInv Inv blocks m objects) (hp : objects p = some x) : x.size ≤ 2 ^ 63 := by
  obtain ⟨-, sp, live, hobj⟩ := h
  rcases hobj.object hp with ⟨ht, order, hb, hsize⟩ | ⟨ht, page, i, hlive, rfl, hsize⟩
  · have hplaced := hobj.placed hb
    have hpos := hplaced.pos
    have hle := hplaced.le
    have horder : order ≤ 51 := by
      by_contra hgt
      have := Nat.pow_le_pow_right (show 0 < 2 by decide) (show 52 ≤ order by omega)
      unfold pageSize at hle
      omega
    have := Nat.pow_le_pow_right (show 0 < 2 by decide) horder
    unfold pageSize at hsize
    omega
  · have hle : slabBytes (m.slabs.headers page).size ≤ maxSlabSize := by
      cases (m.slabs.headers page).size <;> decide
    have hsize : x.size ≤ slabBytes (m.slabs.headers page).size := hsize
    unfold maxSlabSize at hle
    omega

theorem slotAddress_dvd {class' : Slab.SlabSize} {page i size : ℕ} (hpage : pageSize ∣ page)
    (hsize : size ≤ slabBytes class') (hslab : size ≤ maxSlabSize) :
    slotAlignment size ∣ slotAddress class' page i := by
  obtain ⟨k, rfl⟩ := hpage
  unfold slotAlignment slotAddress pageSize dataOffset
  cases class' <;> simp only [slabBytes] at hsize ⊢ <;> split_ifs <;> omega

theorem MemInv.slotAlignment_dvd (h : MemInv Inv blocks m objects) {size : ℕ}
    (hp : objects p = some ⟨size, mallocType size⟩) : slotAlignment size ∣ p := by
  obtain ⟨-, sp, live, hobj⟩ := h
  by_cases hslab : size ≤ maxSlabSize
  · have ht : mallocType size = .slab := if_pos hslab
    rcases hobj.object hp with ⟨hpage, -⟩ | ⟨-, page, i, hlive, rfl, hsize⟩
    · exact absurd (ht.symm.trans hpage) nofun
    · obtain ⟨order, -, hplaced, -⟩ := hobj.slot_range hlive
      exact slotAddress_dvd hplaced.aligned hsize hslab
  · have ht : mallocType size = .page := if_neg hslab
    rcases hobj.object hp with ⟨-, order, hb, -⟩ | ⟨hpage, -⟩
    · have h32 : ¬ size ≤ 32 := by
        unfold maxSlabSize at hslab
        omega
      rw [slotAlignment, if_neg h32, if_neg hslab]
      exact (hobj.placed hb).aligned
    · exact absurd (ht.symm.trans hpage) nofun

section

variable (hA : CorrectPages A Inv blocks) (h : MemInv Inv blocks m objects)

include hA h

theorem MemInv.size_le_owned (hp : objects p = some x) : x.size ≤ ownedBytes A m p := by
  obtain ⟨hinv, sp, live, hobj⟩ := h
  rcases hobj.object hp with ⟨ht, order, hb, hsize⟩ | ⟨ht, page, i, hlive, rfl, hsize⟩
  · have hal := ObjectInv.alignDown_of_dvd (hobj.placed hb).aligned
    rw [ownedBytes, hal, hA.lookup hinv hb]
    dsimp only
    omega
  · obtain ⟨order, hb, -⟩ := hobj.slot_range hlive
    rw [ownedBytes, hobj.slot_page hlive, hA.lookup hinv hb]
    exact hsize

/-- A call whose size does not wrap in the rounding to pages returns `NULL` or an object
    of that size. -/
theorem run_spec {ptr : ℕ} (hptr : ptr = 0 ∨ (objects ptr).isSome) {call : AllocCall}
    (hr : call.InRange) (hsize : call.sizeArg + (pageSize - 1) < 2 ^ 64) :
    ∃ r m', call.run A m ptr = some (r, m') ∧ ∀ q, r = some q →
      ∃ objects', MemInv Inv blocks m' objects' ∧
        objects' q = some ⟨call.sizeArg, mallocType call.sizeArg⟩ := by
  obtain ⟨r, m1, hm, -, -, hgrant⟩ := malloc_spec hA h hsize
  have hnew : ∀ q, r = some q → ∃ objects', MemInv Inv blocks m1 objects' ∧
      objects' q = some ⟨call.sizeArg, mallocType call.sizeArg⟩ := fun q hq =>
    ⟨_, (hgrant q hq).2, Function.update_self _ _ _⟩
  -- `realloc` of the size that reaches it
  have hrealloc : ∃ r m', Malloc.realloc A m ptr call.sizeArg = some (r, m') ∧ ∀ q, r = some q →
      ∃ objects', MemInv Inv blocks m' objects' ∧
        objects' q = some ⟨call.sizeArg, mallocType call.sizeArg⟩ := by
    by_cases h0 : ptr = 0
    · exact ⟨r, m1, by rw [Malloc.realloc, if_pos h0, hm], hnew⟩
    · obtain ⟨x, hx⟩ := Option.isSome_iff_exists.mp (hptr.resolve_left h0)
      by_cases hs : call.sizeArg = 0
      · obtain ⟨m', heq, -⟩ := free_spec hA h hx
        exact ⟨none, m', by rw [Malloc.realloc, if_neg h0, if_pos hs, heq]; rfl,
          by intros; contradiction⟩
      · obtain ⟨r, m', heq, -, hsome⟩ := realloc_spec hA h hx hsize hs
        exact ⟨r, m', heq, fun q hq => ⟨_, (hsome q hq).2.1, Function.update_self _ _ _⟩⟩
  cases call with
  | malloc size =>
    rw [AllocCall.sizeArg, AllocCall.requested, mod_eq_of_lt hr] at hm hnew ⊢
    exact ⟨r, m1, congrArg some hm, hnew⟩
  | alignedAlloc a size =>
    rw [AllocCall.sizeArg, AllocCall.requested, mod_eq_of_lt hr.2] at hm hnew ⊢
    exact ⟨r, m1, congrArg some hm, hnew⟩
  | posixMemalign a size =>
    rw [AllocCall.sizeArg, AllocCall.requested, mod_eq_of_lt hr.2] at hm hnew ⊢
    refine ⟨r, m1, ?_, hnew⟩
    simp only [AllocCall.run, posixMemalign, hm]
  | calloc nmemb size =>
    have hm : malloc A m (sizeMul nmemb size) = (r, m1) := hm
    cases r with
    | none =>
      refine ⟨none, m1, ?_, by intros; contradiction⟩
      simp only [AllocCall.run, calloc, hm]
    | some q =>
      refine ⟨some q, { m1 with bytes := memset m1.bytes q 0 (sizeMul nmemb size) }, ?_, hnew⟩
      simp only [AllocCall.run, calloc, hm]
  | realloc size =>
    rw [AllocCall.sizeArg, AllocCall.requested, mod_eq_of_lt hr] at hrealloc ⊢
    exact hrealloc
  | reallocarray nmemb size => exact hrealloc

theorem Honoured.serves {call : AllocCall} (hc : Honoured call) (hr : call.InRange) {ptr : ℕ}
    (hptr : ptr = 0 ∨ (objects ptr).isSome) : Serves A m ptr call := by
  unfold Honoured at hc
  have hsize : call.sizeArg + (pageSize - 1) < 2 ^ 64 := by
    rcases hc with ⟨hle, -⟩ | ⟨-, hle⟩
    · have := mod_le call.requested (2 ^ 64)
      unfold AllocCall.sizeArg pageSize
      omega
    · unfold pageSize at hle ⊢
      omega
  obtain ⟨r, m', heq, hsome⟩ := run_spec hA h hptr hr hsize
  refine ⟨r, m', heq, fun q hq => ?_⟩
  obtain ⟨objects', hinv, hobj⟩ := hsome q hq
  rcases hc with ⟨hle, hal⟩ | ⟨hgt, -⟩
  · have hmod : call.sizeArg = call.requested := mod_eq_of_lt (by omega)
    rw [hmod] at hobj
    exact ⟨hinv.size_le_owned hA hobj, hal.trans (hinv.slotAlignment_dvd hobj)⟩
  · exact absurd (hinv.size_le hobj) (not_le.mpr hgt)

end

end

/-! ## Calls that are not honoured -/

variable {call : AllocCall} {σ : Type} {size : ℕ}

/-- With a `NULL` pointer every function is `malloc` of the size that reaches it, up to
    the bytes that `calloc` clears. -/
theorem run_null (A : PageAllocator σ) (m : Mem σ) (hr : call.InRange) :
    ∃ m', call.run A m 0 = some ((malloc A m call.sizeArg).1, m') ∧
      ∀ q, ownedBytes A m' q = ownedBytes A (malloc A m call.sizeArg).2 q := by
  cases call with
  | malloc size | realloc size =>
    rw [AllocCall.sizeArg, AllocCall.requested, mod_eq_of_lt hr]
    exact ⟨_, rfl, fun _ => rfl⟩
  | alignedAlloc a size | posixMemalign a size =>
    rw [AllocCall.sizeArg, AllocCall.requested, mod_eq_of_lt hr.2]
    exact ⟨_, rfl, fun _ => rfl⟩
  | reallocarray nmemb size => exact ⟨_, rfl, fun _ => rfl⟩
  | calloc nmemb size =>
    change ∃ m', some (calloc A m nmemb size) = some ((malloc A m (sizeMul nmemb size)).1, m') ∧
      ∀ q, ownedBytes A m' q = ownedBytes A (malloc A m (sizeMul nmemb size)).2 q
    unfold calloc
    rcases malloc A m (sizeMul nmemb size) with ⟨_ | q, m1⟩
    · exact ⟨_, rfl, fun _ => rfl⟩
    · exact ⟨_, rfl, fun _ => rfl⟩

theorem Serves.malloc {A : PageAllocator σ} {m : Mem σ} (h : Serves A m 0 call)
    (hr : call.InRange) {q : ℕ} (hq : (malloc A m call.sizeArg).1 = some q) :
    call.requested ≤ ownedBytes A (Malloc.malloc A m call.sizeArg).2 q ∧ call.alignment ∣ q := by
  obtain ⟨m', heq, howned⟩ := run_null A m hr
  obtain ⟨r, m'', heq', hsome⟩ := h
  rw [heq, hq] at heq'
  cases heq'
  rw [← howned]
  exact hsome q rfl

/-- The slab allocator only sees the class of a size. -/
theorem slabAllocate_slabBytes (A : PageAllocator σ) (m : Mem σ) (hle : size ≤ 256) :
    slabAllocate A m size = slabAllocate A m (slabBytes (slabType size)) := by
  have hclass : slabType (slabBytes (slabType size)) = slabType size := by
    generalize slabType size = c
    cases c <;> rfl
  have hbytes : slabBytes (slabType size) ≤ 256 := by
    generalize slabType size = c
    cases c <;> decide
  unfold slabAllocate Slab.slabAllocate
  simp only [hclass, hle, hbytes, gt_iff_lt, not_lt.mpr hle, not_lt.mpr hbytes]

theorem malloc_eq_class (A : PageAllocator σ) (m : Mem σ) (hle : size ≤ maxSlabSize) :
    malloc A m size = slabAllocate A m (slabBytes (slabType size)) := by
  rw [malloc_eq_slab A m hle]
  by_cases h0 : size = 0
  · subst h0
    exact slabAllocate_slabBytes A m (by decide)
  · rw [if_neg h0, slabAllocate_slabBytes A m hle]

/-- The heap that has not allocated anything. -/
def bumpStart : Mem Bump := { pages := {} }

theorem bumpStart_slab (c : Slab.SlabSize) : (slabAllocate bumpPages bumpStart (slabBytes c)).1 = some 4160 ∧
    ownedBytes bumpPages (slabAllocate bumpPages bumpStart (slabBytes c)).2 4160 = slabBytes c := by
  cases c <;> decide

theorem requestPages_wrap (hlt : size < 2 ^ 64) (hwrap : 2 ^ 64 - pageSize < size) : requestPages size = 0 := by
  unfold requestPages sizeAdd
  unfold pageSize at hwrap ⊢
  omega

/-- A request for up to half of the address space takes a block of order at most 51, and
    one that wraps takes a single page. -/
theorem getOrder_requestPages_le (hlt : size < 2 ^ 64)
    (h : size ≤ 2 ^ 63 ∨ 2 ^ 64 - pageSize < size) : getOrder (requestPages size) ≤ 51 := by
  rcases h with hle | hwrap
  · have hreq := @requestPages_eq size (by unfold pageSize; omega)
    rw [getOrder_le_iff (by omega), hreq]
    omega
  · rw [requestPages_wrap hlt hwrap]
    decide

theorem bumpStart_page (hlt : size < 2 ^ 64) (hslab : maxSlabSize < size) (h : size ≤ 2 ^ 63 ∨ 2 ^ 64 - pageSize < size) :
    (malloc bumpPages bumpStart size).1 = some pageSize ∧
    ownedBytes bumpPages (malloc bumpPages bumpStart size).2 pageSize =
      2 ^ getOrder (requestPages size) * pageSize := by
  have horder := Nat.pow_le_pow_right (show 0 < 2 by decide) (getOrder_requestPages_le hlt h)
  have hfits : ¬ (size = 0 ∨ pageSize + 2 ^ getOrder (requestPages size) * pageSize > 2 ^ 64) := by
    unfold maxSlabSize at hslab
    unfold pageSize
    omega
  rw [malloc_eq_page bumpPages bumpStart hslab]
  simp only [bumpPages, bumpStart, if_neg hfits, ownedBytes, true_and,
    ObjectInv.alignDown_of_dvd (dvd_refl pageSize), Function.update_self]
  omega

theorem bump_second_slot : (slabAllocate bumpPages (slabAllocate bumpPages bumpStart 32).2 32).1 = some 4192 := by
  decide

theorem slotAlignment_of_slab (hr : call.InRange) (hslab : call.sizeArg ≤ maxSlabSize)
    (hserve : ∀ ops s, Run (heapStep bumpPages) ValidHeapCall { mem := bumpStart } ops s → Serves bumpPages s.mem 0 call) :
    call.requested ≤ maxSlabSize ∧ call.alignment ∣ slotAlignment call.sizeArg := by
  obtain ⟨k, hk⟩ := hr.alignment_eq
  obtain ⟨hfirst, howned⟩ := bumpStart_slab (slabType call.sizeArg)
  have hclass := malloc_eq_class bumpPages bumpStart hslab
  rw [← hclass] at hfirst howned
  obtain ⟨hreq, hal⟩ := (hserve [] _ (.nil _)).malloc hr hfirst
  have hbytes : slabBytes (slabType call.sizeArg) ≤ maxSlabSize := by
    generalize slabType call.sizeArg = c
    cases c <;> decide
  refine ⟨(hreq.trans_eq howned).trans hbytes, ?_⟩
  by_cases h32 : call.sizeArg ≤ 32
  · -- the slot after the first one is only a multiple of 32
    have htype : slabBytes (slabType call.sizeArg) = 32 := by
      simp [slabType, slabBytes, show ¬ 128 < call.sizeArg by omega,
        show ¬ 64 < call.sizeArg by omega, show ¬ 32 < call.sizeArg by omega]
    have hrun : Run (heapStep bumpPages) ValidHeapCall { mem := bumpStart } [.malloc call.sizeArg]
        _ := .cons (show _ < _ by unfold maxSlabSize at hslab; unfold pageSize; omega) rfl (.nil _)
    have hsecond : (malloc bumpPages (malloc bumpPages bumpStart call.sizeArg).2 call.sizeArg).1 =
        some 4192 := by
      rw [malloc_eq_class bumpPages _ hslab, hclass, htype]
      exact bump_second_slot
    have hal' := ((hserve _ _ hrun).malloc hr hsecond).2
    rw [slotAlignment, if_pos h32, hk]
    rw [hk] at hal'
    exact Nat.Coprime.dvd_of_dvd_mul_right (n := 131) (Nat.Coprime.pow_left k (by decide)) hal'
  · rw [slotAlignment, if_neg h32, if_pos hslab, hk]
    rw [hk] at hal
    exact Nat.Coprime.dvd_of_dvd_mul_right (n := 65) (Nat.Coprime.pow_left k (by decide)) hal

theorem ServesAlways.honoured (h : ServesAlways call) (hr : call.InRange) : Honoured call := by
  have hserve : ∀ ops s, Run (heapStep bumpPages) ValidHeapCall { mem := bumpStart } ops s →
      Serves bumpPages s.mem 0 call := fun ops s hrun =>
    h Bump bumpPages Bump.Ok Bump.blocks bumpPages_correct {} Bump.ok_init (fun _ => rfl) _ ops s
      hrun 0 (.inl rfl)
  have hlt : call.sizeArg < 2 ^ 64 := mod_lt _ (by decide)
  have hle : call.sizeArg ≤ call.requested := mod_le _ _
  have heq : call.requested < 2 ^ 64 → call.sizeArg = call.requested := mod_eq_of_lt
  unfold Honoured
  by_cases hnull : 2 ^ 63 < call.sizeArg ∧ call.sizeArg ≤ 2 ^ 64 - pageSize
  · exact .inr hnull
  left
  by_cases hslab : call.sizeArg ≤ maxSlabSize
  · obtain ⟨hreq, hal⟩ := slotAlignment_of_slab hr hslab hserve
    unfold maxSlabSize at hreq
    rw [heq (by omega)] at hal
    exact ⟨by omega, hal⟩
  · have hsize : call.sizeArg ≤ 2 ^ 63 ∨ 2 ^ 64 - pageSize < call.sizeArg := by omega
    obtain ⟨hfirst, howned⟩ := bumpStart_page hlt (not_le.mp hslab) hsize
    obtain ⟨hreq, hal⟩ := (hserve [] _ (.nil _)).malloc hr hfirst
    have hreq := hreq.trans_eq howned
    rcases hsize with hhalf | hwrap
    · have horder := Nat.pow_le_pow_right (show 0 < 2 by decide)
        (getOrder_requestPages_le hlt (.inl hhalf))
      have h63 : call.requested ≤ 2 ^ 63 := by
        unfold pageSize at hreq
        omega
      refine ⟨h63, ?_⟩
      have h32 : ¬ call.sizeArg ≤ 32 := by
        unfold maxSlabSize at hslab
        omega
      rw [← heq (by omega), slotAlignment, if_neg h32, if_neg hslab]
      exact hal
    · -- the rounding wraps to no page at all, and the block has one
      rw [requestPages_wrap hlt hwrap, show getOrder 0 = 0 by decide] at hreq
      unfold pageSize at hreq hwrap
      omega

/-! ## Main results -/

end BadgerOS.Malloc

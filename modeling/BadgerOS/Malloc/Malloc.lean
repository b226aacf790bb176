import BadgerOS.Malloc.Slab

/-!
# `malloc`, `free` and `realloc`: model

Model of `kernel/src/malloc/malloc.c` and of the functions of `static-buddy.c` that
only it calls (`buddy_reallocate`, `buddy_get_type`, `buddy_get_size`).

* The buddy allocator enters through `PageAllocator`, the three functions that
  `malloc.c` and `slab-alloc.c` use. `buddyPages` is the allocator of
  `BadgerOS.Malloc.Buddy`.
* Memory is a function from addresses to bytes. The slab headers are kept apart, in
  `slabs`, as in `BadgerOS.Malloc.Slab`.
* `none` is `panic_abort` or an access outside a table. The spin lock and the log
  messages are left out.
-/

namespace BadgerOS.Malloc

/-! ## The page allocator -/

/-- What `buddy_get_block` finds for a pointer. -/
inductive BlockLookup
  | null
  | panic
  | block (order : ℕ) (type : BlockType)
  deriving DecidableEq, Repr

/-- `buddy_allocate`, `buddy_deallocate` and the metadata behind `buddy_get_block`. -/
structure PageAllocator (σ : Type) where
  allocate : σ → ℕ → BlockType → Option ℕ × σ
  deallocate : σ → ℕ → Option σ
  getBlock : σ → ℕ → BlockLookup

/-- The buddy allocator as a page allocator. -/
def buddyPages : PageAllocator Heap where
  allocate := buddyAllocate
  deallocate := buddyDeallocate
  getBlock heap ptr :=
    match buddyGetBlock heap ptr with
    | .null => .null
    | .panic => .panic
    | .block p i =>
      .block ((heap.memoryPools p).blocks i).order ((heap.memoryPools p).blocks i).type

/-- The state of the allocators and the memory. -/
structure Mem (σ : Type) where
  pages : σ
  slabs : Slab.Slabs := {}
  bytes : ℕ → UInt8 := fun _ => 0

/-- `MAX_SLAB_SIZE`. -/
def maxSlabSize : ℕ := 256

/-- `memcpy` of `n` bytes between ranges that do not overlap. -/
def memcpy (bytes : ℕ → UInt8) (dst src n : ℕ) : ℕ → UInt8 :=
  fun a => if dst ≤ a ∧ a < dst + n then bytes (src + (a - dst)) else bytes a

/-- `memset` of `n` bytes. -/
def memset (bytes : ℕ → UInt8) (dst : ℕ) (value : UInt8) (n : ℕ) : ℕ → UInt8 :=
  fun a => if dst ≤ a ∧ a < dst + n then value else bytes a

section

variable {σ : Type} (A : PageAllocator σ)

/-! ## The rest of `static-buddy.c` (lines 528–587) -/

/-- `(1 << order) * PAGE_SIZE`: an `int`, converted to `size_t`. -/
def blockBytes (order : ℕ) : ℕ := ((intShl order * 4096#32).signExtend 64).toNat

/-- `buddy_get_type` (lines 560–571). -/
def buddyGetType (pages : σ) (ptr : ℕ) : Option BlockType :=
  match A.getBlock pages ptr with
  | .null => some .error
  | .panic => none
  | .block _ type => some type

/-- `buddy_get_size` (lines 573–587). -/
def buddyGetSize (pages : σ) (ptr : ℕ) : Option ℕ :=
  match A.getBlock pages ptr with
  | .null => some 0
  | .panic => none
  | .block order _ => some (blockBytes order)

/-- `buddy_reallocate` (lines 528–558). -/
def buddyReallocate (m : Mem σ) (ptr size : ℕ) : Option (Option ℕ × Mem σ) :=
  match A.getBlock m.pages ptr with
  | .null => some (none, m)
  | .panic => none
  | .block order type =>
    let allocationOrder := getOrder (requestPages size)
    let oldSize := blockBytes order
    if order = allocationOrder then some (some ptr, m)
    else
      match A.allocate m.pages size type with
      | (none, pages) => some (none, { m with pages := pages })
      | (some newBlock, pages) =>
        let copySize := if oldSize < size then oldSize else size
        (A.deallocate pages ptr).map fun pages =>
          (some newBlock, { m with pages := pages, bytes := memcpy m.bytes newBlock ptr copySize })

/-! ## The slab allocator on top of the page allocator -/

/-- `slab_allocate`, with the call of `buddy_allocate` that `get_slab` makes when no
    page of the class has a free slot. -/
def slabAllocate (m : Mem σ) (size : ℕ) : Option ℕ × Mem σ :=
  let (allocation, pages) :=
    if size ≤ 256 ∧ (Slab.getSlabLoop m.slabs (Slab.slabType size) 4).isNone then
      A.allocate m.pages pageSize .slab
    else (none, m.pages)
  match Slab.slabAllocate m.slabs size allocation with
  | (.slot page index, slabs) =>
    (some (Slab.slotAddress (Slab.slabType size) page index),
      { m with pages := pages, slabs := slabs })
  | (_, slabs) => (none, { m with pages := pages, slabs := slabs })

/-- `slab_deallocate`, with its call of `buddy_deallocate`. -/
def slabDeallocate (m : Mem σ) (ptr : ℕ) : Option (Mem σ) :=
  match Slab.slabDeallocate m.slabs ptr with
  | (.badUse, _) => none
  | (.released page, slabs) =>
    (A.deallocate m.pages page).map fun pages => { m with pages := pages, slabs := slabs }
  | (_, slabs) => some { m with slabs := slabs }

/-! ## `malloc.c` -/

/-- `_malloc` (lines 89–98), which is `malloc` under the lock. -/
def malloc (m : Mem σ) (size : ℕ) : Option ℕ × Mem σ :=
  let size := if size = 0 then 1 else size
  if size ≤ maxSlabSize then slabAllocate A m size
  else
    let (ptr, pages) := A.allocate m.pages size .page
    (ptr, { m with pages := pages })

/-- `aligned_alloc` (lines 114–125). -/
def alignedAlloc (m : Mem σ) (_alignment size : ℕ) : Option ℕ × Mem σ := malloc A m size

/-- `posix_memalign` (lines 128–140): the result and what is stored in `*memptr`. -/
def posixMemalign (m : Mem σ) (_alignment size : ℕ) : ℕ × Option ℕ × Mem σ :=
  let (ptr, m) := malloc A m size
  (0, ptr, m)

/-- `nmemb * size` on `size_t`. -/
def sizeMul (nmemb size : ℕ) : ℕ := nmemb * size % 2 ^ 64

/-- `calloc` (lines 143–155). -/
def calloc (m : Mem σ) (nmemb size : ℕ) : Option ℕ × Mem σ :=
  match malloc A m (sizeMul nmemb size) with
  | (none, m) => (none, m)
  | (some ptr, m) => (some ptr, { m with bytes := memset m.bytes ptr 0 (sizeMul nmemb size) })

/-- The dispatch of `free` and `realloc` (lines 167–171, 233–237): give `ptr` back to
    the allocator that the type of its block names. -/
def release (m : Mem σ) (ptr : ℕ) : BlockType → Option (Mem σ)
  | .page => (A.deallocate m.pages ptr).map fun pages => { m with pages := pages }
  | .slab => slabDeallocate A m ptr
  | _ => some m

/-- `_free` (lines 158–172). -/
def free (m : Mem σ) (ptr : ℕ) : Option (Mem σ) :=
  if ptr = 0 then some m
  else
    match buddyGetType A m.pages (alignDown ptr pageSize) with
    | none => none
    | some type => release A m ptr type

/-- `realloc` from line 215 on, for an object of `oldSize` bytes. -/
def reallocFrom (m : Mem σ) (ptr size : ℕ) (type : BlockType) (oldSize : ℕ) :
    Option (Option ℕ × Mem σ) :=
  if oldSize ≥ size ∧ oldSize > maxSlabSize ∧ size > maxSlabSize then buddyReallocate A m ptr size
  else
    match malloc A m size with
    | (none, m) => some (none, m)
    | (some newPtr, m) =>
      let copySize := if oldSize < size then oldSize else size
      (release A { m with bytes := memcpy m.bytes newPtr ptr copySize } ptr type).map fun m =>
        (some newPtr, m)

/-- `realloc` (lines 186–241). -/
def realloc (m : Mem σ) (ptr size : ℕ) : Option (Option ℕ × Mem σ) :=
  if ptr = 0 then some (malloc A m size)
  else if size = 0 then (free A m ptr).map fun m => (none, m)
  else
    match buddyGetType A m.pages (alignDown ptr pageSize) with
    | none => none
    | some .page =>
      (buddyGetSize A m.pages ptr).bind fun oldSize => reallocFrom A m ptr size .page oldSize
    | some .slab => reallocFrom A m ptr size .slab (Slab.slabGetSize m.slabs ptr)
    | some _ => some (some ptr, m)

/-- `reallocarray` (lines 244–246). -/
def reallocarray (m : Mem σ) (ptr nmemb size : ℕ) : Option (Option ℕ × Mem σ) :=
  realloc A m ptr (sizeMul nmemb size)

end

end BadgerOS.Malloc

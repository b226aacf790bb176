import BadgerOS.Malloc.Buddy

/-!
# The slab allocator: model

Model of `kernel/src/malloc/slab-alloc.c`, one definition a function.

* The header at the start of a slab page is a record; `headers` maps the address of
  a page to it. `use_count` is a `uint8_t`.
* The circular lists `slabs[size].slabs[use]` are lists of page addresses in `prev`
  order: the head is `list->prev`, the page that `get_slab` looks at.
* `buddy_allocate` is called at most once by `slab_allocate`; what it returns is
  the argument `allocation`. The page that `slab_deallocate` passes to
  `buddy_deallocate` is part of its result.
* The result of `slab_allocate` names the page and the slot; `slotAddress` is the
  pointer that the C function returns for them.
-/

namespace BadgerOS.Malloc.Slab

/-- `enum slab_sizes_t`. -/
inductive SlabSize
  | size32 | size64 | size128 | size256
  deriving DecidableEq, Repr

/-- `slab_bytes`. -/
def slabBytes : SlabSize → ℕ
  | .size32 => 32
  | .size64 => 64
  | .size128 => 128
  | .size256 => 256

/-- `slab_tresholds[size][i]`. -/
def slabTresholds : SlabSize → ℕ → ℕ
  | .size32, i => [0, 32, 64, 126].getD i 0
  | .size64, i => [0, 16, 32, 63].getD i 0
  | .size128, i => [0, 8, 16, 31].getD i 0
  | .size256, i => [0, 4, 8, 15].getD i 0

/-- `slab_empty[size][i]`. -/
def slabEmpty : SlabSize → ℕ → BitVec 32
  | .size32, i => [0xFFFFFFFF#32, 0xFFFFFFFF#32, 0xFFFFFFFF#32, 0x3FFFFFFF#32].getD i 0#32
  | .size64, i => [0xFFFFFFFF#32, 0x7FFFFFFF#32, 0#32, 0#32].getD i 0#32
  | .size128, i => [0x7FFFFFFF#32, 0#32, 0#32, 0#32].getD i 0#32
  | .size256, i => [0x00007FFF#32, 0#32, 0#32, 0#32].getD i 0#32

/-- `DATA_OFFSET`. -/
def dataOffset : ℕ := 64

/-- `BITMAP_WORDS`. -/
def bitmapWords : ℕ := 4

/-- `slab_header_t` without the list pointers; `slab_use` runs from
    `SLAB_USE_EMPTY = 0` to `SLAB_USE_FULL = 4`. -/
structure SlabHeader where
  size : SlabSize := .size32
  useCount : ℕ := 0
  slabUse : ℕ := 0
  bitmap : ℕ → BitVec 32 := fun _ => 0#32

/-- The headers of all pages and the lists `slabs[size].slabs[use]`. -/
structure Slabs where
  headers : ℕ → SlabHeader := fun _ => {}
  lists : SlabSize → ℕ → List ℕ := fun _ _ => []

/-- Write the header of `page`. -/
def Slabs.setHeader (s : Slabs) (page : ℕ) (f : SlabHeader → SlabHeader) : Slabs :=
  { s with headers := Function.update s.headers page (f (s.headers page)) }

/-- `bitmap_clear_bit` (lines 79–82). -/
def bitmapClearBit (word : BitVec 32) (bitIndex : ℕ) : BitVec 32 := word &&& ~~~(1#32 <<< bitIndex)

/-- `bitmap_set_bit` (lines 84–87). -/
def bitmapSetBit (word : BitVec 32) (bitIndex : ℕ) : BitVec 32 := word ||| 1#32 <<< bitIndex

/-! ## Lists (lines 89–115) -/

/-- `list_push_back`. -/
def listPushBack (s : Slabs) (size : SlabSize) (use page : ℕ) : Slabs :=
  { s with lists := fun sz u => if sz = size ∧ u = use then page :: s.lists sz u else s.lists sz u }

/-- `list_remove`. -/
def listRemove (s : Slabs) (page : ℕ) : Slabs :=
  { s with lists := fun sz u => (s.lists sz u).erase page }

/-- `list_empty`. -/
def listEmpty (s : Slabs) (size : SlabSize) (use : ℕ) : Bool := (s.lists size use).isEmpty

/-! ## Finding a page (lines 118–170) -/

/-- `init_slab` (lines 118–126). -/
def initSlab (s : Slabs) (slab : ℕ) (size : SlabSize) : Slabs :=
  s.setHeader slab fun _ =>
    { size := size, useCount := 1, slabUse := 1, bitmap := fun i => slabEmpty size i }

/-- Lines 137–146: take the page `slab` from list `i`, and move it up when it has
    gone over the threshold. -/
def bumpSlab (s : Slabs) (size : SlabSize) (i slab : ℕ) : Slabs :=
  let s := s.setHeader slab fun h => { h with useCount := (h.useCount + 1) % 256 }
  if (s.headers slab).useCount ≥ slabTresholds size i then
    (listPushBack (listRemove s slab) size (i + 1) slab).setHeader slab fun h =>
      { h with slabUse := h.slabUse + 1 }
  else s

/-- The loop of `get_slab` (lines 135–151) over the lists `n - 1, …, 0`. -/
def getSlabLoop (s : Slabs) (size : SlabSize) : ℕ → Option (ℕ × Slabs)
  | 0 => none
  | i + 1 =>
    match s.lists size i with
    | [] => getSlabLoop s size i
    | slab :: _ => some (slab, bumpSlab s size i slab)

/-- `get_slab` (lines 131–170). -/
def getSlab (s : Slabs) (size : SlabSize) (allocation : Option ℕ) : Option ℕ × Slabs :=
  match getSlabLoop s size 4 with
  | some (slab, s) => (some slab, s)
  | none =>
    match allocation with
    | none => (none, s)
    | some slab => (some slab, listPushBack (initSlab s slab size) size 1 slab)

/-! ## Allocation (lines 182–220) -/

/-- The size class for `size` bytes (lines 189–196). -/
def slabType (size : ℕ) : SlabSize :=
  if size > 128 then .size256
  else if size > 64 then .size128
  else if size > 32 then .size64
  else .size32

/-- The outcomes of `slab_allocate`; all but the last return `NULL`. -/
inductive SlabResult
  | tooLarge
  | noPage
  | noFreeSlot
  | slot (page index : ℕ)
  deriving DecidableEq, Repr

/-- The first bitmap word that is not zero (lines 205–207). -/
def findWord (h : SlabHeader) : Option ℕ :=
  (List.range bitmapWords).find? fun i => h.bitmap i ≠ 0#32

/-- `slab_allocate` (lines 182–220). -/
def slabAllocate (s : Slabs) (size : ℕ) (allocation : Option ℕ) : SlabResult × Slabs :=
  if size > 256 then (.tooLarge, s)
  else
    match getSlab s (slabType size) allocation with
    | (none, s) => (.noPage, s)
    | (some page, s) =>
      match findWord (s.headers page) with
      | none => (.noFreeSlot, s)
      | some i =>
        let bitIndex := findFirstTrailingSetBit32 ((s.headers page).bitmap i)
        (.slot page (i * 32 + bitIndex),
          s.setHeader page fun h =>
            { h with bitmap :=
                Function.update h.bitmap i (bitmapClearBit (h.bitmap i) bitIndex) })

/-- The address of slot `index` in `page` (line 212). -/
def slotAddress (size : SlabSize) (page index : ℕ) : ℕ :=
  page + dataOffset + index * slabBytes size

/-! ## Deallocation (lines 222–257) -/

/-- The outcomes of `slab_deallocate`; `badUse` stands for the access `slab_tresholds[size][-1]`. -/
inductive FreeResult
  | null
  | doubleFree
  | badUse
  | kept
  | released (page : ℕ)
  deriving DecidableEq, Repr

/-- The header that belongs to `ptr` (line 229). -/
def headerOf (ptr : ℕ) : ℕ := alignDown ptr pageSize

/-- `total_bit_index` of `ptr` (lines 230–232). -/
def slotOf (s : Slabs) (ptr : ℕ) : ℕ :=
  sizeSub (sizeSub ptr (headerOf ptr)) dataOffset / slabBytes (s.headers (headerOf ptr)).size % 2 ^ 32

/-- Lines 246–256: move the page to an emptier list if it has come down to the
    threshold, or give it back. -/
def dropSlab (s : Slabs) (header : ℕ) : FreeResult × Slabs :=
  match (s.headers header).slabUse with
  | 0 => (.badUse, s)
  | use + 1 =>
    let size := (s.headers header).size
    if (s.headers header).useCount ≤ slabTresholds size use then
      let s := listRemove (s.setHeader header fun h => { h with slabUse := use }) header
      if use > 0 ∨ listEmpty s size use then (.kept, listPushBack s size use header)
      else (.released header, s)
    else (.kept, s)

/-- `slab_deallocate` (lines 222–257). -/
def slabDeallocate (s : Slabs) (ptr : ℕ) : FreeResult × Slabs :=
  if ptr = 0 then (.null, s)
  else
    let header := headerOf ptr
    let wordIndex := slotOf s ptr / 32
    let bitIndex := slotOf s ptr % 32
    let newBitmap := bitmapSetBit ((s.headers header).bitmap wordIndex) bitIndex
    if (s.headers header).bitmap wordIndex = newBitmap then (.doubleFree, s)
    else
      dropSlab (s.setHeader header fun h =>
        { h with
          bitmap := Function.update h.bitmap wordIndex newBitmap
          useCount := (h.useCount + 255) % 256 }) header

/-- `slab_get_size` (lines 259–269). -/
def slabGetSize (s : Slabs) (ptr : ℕ) : ℕ :=
  if ptr = 0 then 0 else slabBytes (s.headers (headerOf ptr)).size

end BadgerOS.Malloc.Slab

import BadgerOS.Malloc.Bitops

/-!
# The buddy allocator: model

Model of `kernel/src/malloc/static-buddy.c` (with the types of
`kernel/include/badgelib/static-buddy.h`), one definition a function.

* The metadata array `pool->blocks` is a total function of the page index. It
  reads as zero where nothing has been written, also outside the array that
  `init_pool` reserves.
* The circular lists threaded through `next`/`prev` are lists of page indices in
  `prev` order: the head of the Lean list is `list->prev`, the entry that was
  pushed last and that `pool_find_block` looks at first. `list_remove` takes an
  entry out of whichever list holds it.
* Addresses and sizes are natural numbers; `size_t`, `uint32_t` and `int`
  arithmetic is reduced as in `BadgerOS.Common.Word`.
* `pid`, which no function uses, and the log messages are left out.
-/

namespace BadgerOS.Malloc

/-- `PAGE_SIZE`. -/
def pageSize : ℕ := 4096

/-- `MAX_MEMORY_POOLS` (`CONFIG_TARGET_generic`). -/
def maxMemoryPools : ℕ := 16

/-- `sizeof(buddy_block_t)` on riscv64. -/
def sizeofBuddyBlock : ℕ := 24

/-- `ALIGN_UP(x, y)` for a power of two `y`. -/
def alignUp (x y : ℕ) : ℕ := sizeAdd x (y - 1) / y * y

/-- `ALIGN_DOWN(x, y)` for a power of two `y`. -/
def alignDown (x y : ℕ) : ℕ := x / y * y

/-- `enum block_type`. -/
inductive BlockType
  | free | user | page | slab | error
  deriving DecidableEq, Repr

/-- `buddy_block_t`. -/
structure BuddyBlock where
  order : ℕ := 0
  inList : Bool := false
  isWaste : Bool := false
  type : BlockType := .free
  deriving DecidableEq, Repr

/-- The list heads of a pool: `free_lists[k]` and `waste_list`. -/
inductive ListHead
  | free (k : ℕ)
  | waste
  deriving DecidableEq, Repr

/-- `memory_pool_t`. -/
structure MemoryPool where
  flags : ℕ := 0
  start : ℕ := 0
  stop : ℕ := 0
  pagesStart : ℕ := 0
  pagesEnd : ℕ := 0
  pages : ℕ := 0
  freePages : ℕ := 0
  maxOrder : ℕ := 0
  maxOrderFree : ℕ := 0
  maxOrderWaste : ℕ := 0
  lists : ListHead → List ℕ := fun _ => []
  blocks : ℕ → BuddyBlock := fun _ => {}

/-- `memory_pools` and `memory_pool_num`. -/
structure Heap where
  memoryPools : ℕ → MemoryPool := fun _ => {}
  memoryPoolNum : ℕ := 0

/-- Write one field set of `pool->blocks[i]`. -/
def MemoryPool.setBlock (pool : MemoryPool) (i : ℕ) (f : BuddyBlock → BuddyBlock) : MemoryPool :=
  { pool with blocks := Function.update pool.blocks i (f (pool.blocks i)) }

/-- Replace `memory_pools[p]`. -/
def Heap.setPool (heap : Heap) (p : ℕ) (pool : MemoryPool) : Heap :=
  { heap with memoryPools := Function.update heap.memoryPools p pool }

/-! ## Lists (lines 149–177) -/

/-- `list_push_back`. -/
def listPushBack (pool : MemoryPool) (list : ListHead) (entry : ℕ) : MemoryPool :=
  { pool.setBlock entry (fun b => { b with inList := true }) with
    lists := Function.update pool.lists list (entry :: pool.lists list) }

/-- `list_remove`. -/
def listRemove (pool : MemoryPool) (entry : ℕ) : MemoryPool :=
  { pool.setBlock entry (fun b => { b with inList := false }) with
    lists := fun l => (pool.lists l).erase entry }

/-- `list_empty`. -/
def listEmpty (pool : MemoryPool) (list : ListHead) : Bool := (pool.lists list).isEmpty

/-! ## Addresses (lines 77–120) -/

/-- `ptr_to_pool` (lines 77–88). -/
def ptrToPool (heap : Heap) (ptr : ℕ) : Option ℕ :=
  (List.range heap.memoryPoolNum).find? fun i =>
    ptr ≥ (heap.memoryPools i).pagesStart && ptr < (heap.memoryPools i).pagesEnd

/-- `find_pool` (lines 90–103). -/
def findPool (heap : Heap) (startPool order allocSize : ℕ) : Option ℕ :=
  (List.range' startPool (heap.memoryPoolNum - startPool)).find? fun i =>
    (heap.memoryPools i).maxOrderFree ≥ order && (heap.memoryPools i).freePages ≥ allocSize

/-- `block_to_address` (lines 113–116). -/
def blockToAddress (pool : MemoryPool) (block : ℕ) : ℕ :=
  sizeAdd pool.pagesStart (block * pageSize)

/-- `address_to_block` (lines 118–120), as an index. -/
def addressToBlock (pool : MemoryPool) (ptr : ℕ) : ℕ := sizeSub ptr pool.pagesStart / pageSize

/-! ## Splitting and merging (lines 185–261) -/

/-- `split_block` (lines 185–198). -/
def splitBlock (pool : MemoryPool) (block : ℕ) : MemoryPool :=
  let order := ((pool.blocks block).order + 255) % 256
  let pool := pool.setBlock block fun b => { b with order := order }
  let buddyIndex := block ^^^ sizeShl order
  let pool := pool.setBlock buddyIndex fun b => { b with order := order }
  if !(pool.blocks buddyIndex).isWaste then listPushBack pool (.free order) buddyIndex
  else listPushBack pool .waste buddyIndex

/-- `try_merge_buddy` (lines 217–238). -/
def tryMergeBuddy (pool : MemoryPool) (block : ℕ) : Option (MemoryPool × ℕ) :=
  let buddyIndex := block ^^^ sizeShl (pool.blocks block).order
  if buddyIndex > sizeAdd pool.pages pool.maxOrderWaste then none
  else if (pool.blocks buddyIndex).order = (pool.blocks block).order ∧
      (pool.blocks buddyIndex).inList = true then
    let pool := listRemove pool buddyIndex
    let mergedBlock := if block ≤ buddyIndex then block else buddyIndex
    some (pool.setBlock mergedBlock fun b => { b with order := (b.order + 1) % 256 }, mergedBlock)
  else none

/-- The loop `while ((block = try_merge_buddy(pool, block))) free_block = block;`
    (lines 251–253). Every turn raises the order of the block, a `uint8_t`;
    `freeLoop_done` shows that the loop ends by itself. -/
def freeLoop : ℕ → MemoryPool → ℕ → MemoryPool × ℕ
  | 0, pool, block => (pool, block)
  | turns + 1, pool, block =>
    match tryMergeBuddy pool block with
    | none => (pool, block)
    | some (pool, merged) => freeLoop turns pool merged

/-- `free_block` (lines 248–261). -/
def freeBlock (pool : MemoryPool) (block : ℕ) : MemoryPool :=
  let (pool, freeBlock) := freeLoop 256 pool block
  if !(pool.blocks freeBlock).isWaste then
    let order := (pool.blocks freeBlock).order
    listPushBack
      { pool with maxOrderFree := if pool.maxOrderFree > order then pool.maxOrderFree else order }
      (.free order) freeBlock
  else listPushBack pool .waste freeBlock

/-! ## `init_pool` (lines 263–332) -/

/-- `total_pages` of the range `[memStart, memEnd)`. -/
def totalPages (memStart memEnd : ℕ) : ℕ := (memEnd - memStart) / pageSize

/-- `pages_start`: the free list heads and the metadata array come first. The
    pointer `free_lists` has type `buddy_block_t *`, so adding
    `metadata_free_lists_size` to it advances by that many blocks, not bytes. -/
def poolPagesStart (memStart memEnd : ℕ) : ℕ :=
  let total := totalPages memStart memEnd
  let metadataBlockSize := sizeofBuddyBlock * total
  let metadataFreeListsSize := sizeofBuddyBlock * (getOrder total + 1)
  let blocks := alignUp (sizeAdd memStart (metadataFreeListsSize * sizeofBuddyBlock)) 8
  alignUp (sizeAdd blocks metadataBlockSize) pageSize

/-- `pages_end`. -/
def poolPagesEnd (memEnd : ℕ) : ℕ := alignDown memEnd pageSize

/-- `pages`, the number of usable pages. -/
def poolPages (memStart memEnd : ℕ) : ℕ :=
  sizeSub (poolPagesEnd memEnd) (poolPagesStart memStart memEnd) / pageSize

/-- `max_order_waste`, a `uint32_t`. -/
def poolMaxOrderWaste (memStart memEnd : ℕ) : ℕ :=
  sizeSub (sizeShl (getOrder (totalPages memStart memEnd))) (poolPages memStart memEnd) % 2 ^ 32

/-- The loop that marks waste pages (lines 319–321), `turns` pages from `i` on. -/
def markWaste : ℕ → ℕ → MemoryPool → MemoryPool
  | 0, _, pool => pool
  | turns + 1, i, pool =>
    markWaste turns (i + 1) (pool.setBlock i fun b => { b with isWaste := true })

/-- The new entry of `memory_pools` that `init_pool` builds. -/
def newPool (memStart memEnd flags : ℕ) : MemoryPool :=
  let total := totalPages memStart memEnd
  let orders := getOrder total
  let pages := poolPages memStart memEnd
  let maxOrderWaste := poolMaxOrderWaste memStart memEnd
  let pool : MemoryPool :=
    { flags := flags, start := memStart, stop := memEnd
      pagesStart := poolPagesStart memStart memEnd, pagesEnd := poolPagesEnd memEnd
      pages := pages, freePages := pages, maxOrder := orders, maxOrderWaste := maxOrderWaste }
  let waste := sizeSub pages maxOrderWaste
  let pool := markWaste (total - waste) waste pool
  let pool := pool.setBlock 0 fun b => { b with order := orders }
  { listPushBack pool (.free orders) 0 with maxOrderFree := orders }

/-- `init_pool` (lines 263–332). -/
def initPool (heap : Heap) (memStart memEnd flags : ℕ) : Heap :=
  if heap.memoryPoolNum ≥ maxMemoryPools then heap
  else
    { heap.setPool heap.memoryPoolNum (newPool memStart memEnd flags) with
      memoryPoolNum := heap.memoryPoolNum + 1 }

/-! ## Allocation (lines 384–477) -/

/-- `pool_find_block` (lines 384–402) without the final `list_remove`. -/
def poolFindBlock (pool : MemoryPool) (allocationOrder pages : ℕ) : Option ℕ :=
  (List.range' allocationOrder (pool.maxOrder + 1 - allocationOrder)).findSome? fun a =>
    (pool.lists (.free a)).find? fun block =>
      !(pool.blocks (sizeSub (sizeAdd block pages) 1)).isWaste

/-- The loop over the pools (lines 436–453), from pool `i` on: the pool and the block to use. -/
def findBlock (heap : Heap) (size pages allocationOrder : ℕ) : ℕ → ℕ → Option (ℕ × ℕ)
  | 0, _ => none
  | turns + 1, i =>
    match findPool heap i allocationOrder pages with
    | none => none
    | some p =>
      let pool := heap.memoryPools p
      if allocationOrder = pool.maxOrder ∧
          size > uintSub (uintShl allocationOrder) pool.maxOrderWaste then
        findBlock heap size pages allocationOrder turns (i + 1)
      else
        match poolFindBlock pool allocationOrder pages with
        | some block => some (p, block)
        | none => findBlock heap size pages allocationOrder turns (i + 1)

/-- `while (block->order > original_allocation_order) split_block(pool, block);`
    (lines 460–464); every turn lowers the order. -/
def splitLoop (allocationOrder : ℕ) : ℕ → MemoryPool → ℕ → MemoryPool
  | 0, pool, _ => pool
  | turns + 1, pool, block =>
    if (pool.blocks block).order > allocationOrder then
      splitLoop allocationOrder turns (splitBlock pool block) block
    else pool

/-- The loop that lowers `max_order_free` (lines 466–469). -/
def lowerMaxOrderFree (pool : MemoryPool) : ℕ → ℕ
  | 0 => 0
  | k + 1 => if listEmpty pool (.free (k + 1)) then lowerMaxOrderFree pool k else k + 1

/-- Lines 395 and 460–472: take `block` out of its list and cut it down. -/
def takeBlock (pool : MemoryPool) (block allocationOrder : ℕ) (type : BlockType) : MemoryPool :=
  let pool := listRemove pool block
  let pool := splitLoop allocationOrder (pool.blocks block).order pool block
  let pool := { pool with maxOrderFree := lowerMaxOrderFree pool pool.maxOrderFree }
  let pool := { pool with freePages := sizeSub pool.freePages (sizeShl (pool.blocks block).order) }
  pool.setBlock block fun b => { b with type := type }

/-- `pages` of line 423: the number of pages `buddy_allocate(size)` asks for. -/
def requestPages (size : ℕ) : ℕ := sizeAdd size (pageSize - 1) / pageSize

theorem requestPages_eq {size : ℕ} (hsize : size + (pageSize - 1) < 2 ^ 64) :
    requestPages size = (size + 4095) / 4096 := by
  rw [requestPages, sizeAdd_eq hsize]
  rfl

/-- `buddy_allocate` (lines 416–477); the result names the pool and the block. -/
def buddyAllocateBlock (heap : Heap) (size : ℕ) (type : BlockType) : Option (ℕ × ℕ) × Heap :=
  if size = 0 then (none, heap)
  else
    let pages := requestPages size
    let allocationOrder := getOrder pages
    match findBlock heap size pages allocationOrder heap.memoryPoolNum 0 with
    | none => (none, heap)
    | some (p, block) =>
      (some (p, block),
        heap.setPool p (takeBlock (heap.memoryPools p) block allocationOrder type))

/-- `buddy_allocate`: the address of the block, or `none` for `NULL`. -/
def buddyAllocate (heap : Heap) (size : ℕ) (type : BlockType) : Option ℕ × Heap :=
  let (r, heap') := buddyAllocateBlock heap size type
  (r.map fun pb => blockToAddress (heap'.memoryPools pb.1) pb.2, heap')

/-! ## Deallocation (lines 479–526) -/

/-- The outcomes of `buddy_get_block`. -/
inductive GetBlock
  | null
  | panic
  | block (p i : ℕ)
  deriving DecidableEq, Repr

/-- `buddy_get_block` (lines 479–501). -/
def buddyGetBlock (heap : Heap) (ptr : ℕ) : GetBlock :=
  if ptr = 0 then .null
  else if alignDown ptr pageSize ≠ ptr then .panic
  else
    match ptrToPool heap ptr with
    | none => .panic
    | some p => .block p (addressToBlock (heap.memoryPools p) ptr)

/-- Lines 523–525: give `block` back to `pool`. -/
def giveBlock (pool : MemoryPool) (block : ℕ) : MemoryPool :=
  let pool := { pool with freePages := sizeAdd pool.freePages (sizeShl (pool.blocks block).order) }
  freeBlock (pool.setBlock block fun b => { b with type := .free }) block

/-- `buddy_deallocate` (lines 513–526); `none` is `panic_abort`. -/
def buddyDeallocate (heap : Heap) (ptr : ℕ) : Option Heap :=
  match buddyGetBlock heap ptr with
  | .null => some heap
  | .panic => none
  | .block p i => some (heap.setPool p (giveBlock (heap.memoryPools p) i))

end BadgerOS.Malloc

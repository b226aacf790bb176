import BadgerOS.Common.Cause

/-!
# Block device cache: model

Model of `kernel/src/blockdevice/blockdevice.c`: the cache between the `blkdev_*`
functions and the driver of a device.

* The driver is a `BlkdevVtable` over a state of its own. `blkdev_write_raw` and
  `blkdev_erase_raw` call its `write` and `erase`.
* `clock` gives the values that `time_us` returns during a call, one an entry of the
  cache in the loops of `blkdev_flush` and `blkdev_housekeeping`. A timestamp is an
  integer.
* A read returns the bytes that it stores from the start of `readbuf` on.
* `none` is an access through the `NULL` pointer `dev->cache`. The checks for
  `dev == NULL` are left out, and block sizes are taken to be below `2^63`.
-/

namespace BadgerOS.Blockdevice

/-- The contents of a block of `n` bytes. -/
abbrev Block (n : ℕ) := Fin n → UInt8

/-- What an erased block reads as. -/
def erased (n : ℕ) : Block n := fun _ => 255

/-- The bytes of `block` from `offset` on, `len` of them. -/
def slice {n : ℕ} (block : Block n) (offset len : ℕ) : List UInt8 :=
  ((List.ofFn block).drop offset).take len

/-- `block` with the bytes of `buf` stored from `offset` on. -/
def patch {n : ℕ} (block : Block n) (offset : ℕ) (buf : List UInt8) : Block n := fun k =>
  if offset ≤ k ∧ k < offset + buf.length then buf.getD (k - offset) 0 else block k

/-! ## Data types -/

/-- `BLKDEV_WRITE_CACHE_TIMEOUT`. -/
def writeCacheTimeout : ℤ := 1000000

/-- `BLKDEV_READ_CACHE_TIMEOUT`. -/
def readCacheTimeout : ℤ := 1000000

/-- `blkdev_flags_t`. -/
structure BlkdevFlags where
  updateTime : ℤ := 0
  index : ℕ := 0
  present : Bool := false
  erase : Bool := false
  dirty : Bool := false
  deriving DecidableEq, Repr

/-- `blkdev_cache_t`. -/
structure BlkdevCache (n : ℕ) where
  blockCache : ℕ → Block n
  blockFlags : ℕ → BlkdevFlags
  cacheDepth : ℕ

/-- The part of `blkdev_vtable_t` that the cache calls. A read stores a block, or part
    of one, in the buffer of its caller, also when it reports an error. -/
structure BlkdevVtable (σ : Type) (n : ℕ) where
  erase : σ → ℕ → Cause × σ
  write : σ → ℕ → Block n → Cause × σ
  read : σ → ℕ → Cause × Block n × σ
  writePartial : σ → ℕ → ℕ → List UInt8 → Cause × σ
  readPartial : σ → ℕ → ℕ → ℕ → Cause × List UInt8 × σ

/-- `struct blkdev` with blocks of `n` bytes. -/
structure Blkdev (σ : Type) (n : ℕ) where
  blocks : ℕ
  readonly : Bool := false
  cacheRead : Bool
  cache : Option (BlkdevCache n)
  cookie : σ

namespace BlkdevCache

variable {n : ℕ}

/-- Store the flags of entry `i`. -/
def setFlags (c : BlkdevCache n) (i : ℕ) (f : BlkdevFlags) : BlkdevCache n :=
  { c with blockFlags := Function.update c.blockFlags i f }

/-- Store the block of entry `i`. -/
def setBlock (c : BlkdevCache n) (i : ℕ) (b : Block n) : BlkdevCache n :=
  { c with blockCache := Function.update c.blockCache i b }

end BlkdevCache

/-! ## Cache entries (lines 18–81) -/

/-- `blkdev_is_dirty` (lines 19–21). -/
def blkdevIsDirty (flags : BlkdevFlags) : Bool := flags.present && (flags.erase || flags.dirty)

/-- The loop of `blkdev_alloc_cache` over the last `k` entries, from entry `i` on. -/
def allocLoop (flags : ℕ → BlkdevFlags) (block : ℕ) : ℕ → ℕ → ℤ → Option ℕ → Option ℕ
  | 0, _, _, oldestReadIndex => oldestReadIndex
  | k + 1, i, oldestReadTime, oldestReadIndex =>
    if (flags i).present ∧ (flags i).index = block then some i
    else if ¬ (flags i).present then allocLoop flags block k (i + 1) 0 (some i)
    else if ¬ blkdevIsDirty (flags i) ∧ oldestReadTime > (flags i).updateTime then
      allocLoop flags block k (i + 1) (flags i).updateTime (some i)
    else allocLoop flags block k (i + 1) oldestReadTime oldestReadIndex

/-- `blkdev_alloc_cache` (lines 51–81); `none` is `-1`. -/
def blkdevAllocCache {n : ℕ} (c : BlkdevCache n) (now : ℤ) (block : ℕ) : Option ℕ :=
  allocLoop c.blockFlags block c.cacheDepth 0 (now - readCacheTimeout) none

/-- The flags of a new entry (for example lines 266–272). -/
def newFlags (now : ℤ) (block : ℕ) (dirty : Bool) : BlkdevFlags :=
  { updateTime := now, index := block, present := true, erase := false, dirty := dirty }

section

variable {σ : Type} {n : ℕ} (D : BlkdevVtable σ n)

/-- `blkdev_flush_cache` (lines 24–46), with the error that is in `ec` before. -/
def blkdevFlushCache (cacheRead : Bool) (ec : Cause) (cookie : σ) (c : BlkdevCache n) (i : ℕ)
    (now : ℤ) : Cause × σ × BlkdevCache n :=
  let flags := c.blockFlags i
  let clean := { flags with dirty := false, erase := false }
  if flags.dirty then
    let kept := { clean with present := cacheRead,
                             updateTime := if cacheRead then now else flags.updateTime }
    let (ec, cookie) := D.write cookie flags.index (c.blockCache i)
    (ec, cookie, c.setFlags i kept)
  else if flags.erase then
    let (ec, cookie) := D.erase cookie flags.index
    (ec, cookie, c.setFlags i { clean with present := false })
  else (ec, cookie, c.setFlags i clean)

/-! ## Reading and writing (lines 239–511) -/

variable (dev : Blkdev σ n) (clock : ℕ → ℤ)

/-- `blkdev_erase` (lines 239–280). -/
def blkdevErase (block : ℕ) : Option (Cause × Blkdev σ n) :=
  if dev.readonly then some (.readonly, dev)
  else if block ≥ dev.blocks then some (.range, dev)
  else
    dev.cache.map fun c =>
      match blkdevAllocCache c (clock 0) block with
      | some i =>
        let flags := c.blockFlags i
        let flags :=
          if flags.present then { flags with erase := true, dirty := false }
          else newFlags (clock 1) block true
        (.ok, { dev with cache := some (c.setFlags i flags) })
      | none =>
        let (ec, cookie) := D.erase dev.cookie block
        (ec, { dev with cookie := cookie })

/-- The flags of the entry that a write goes to (lines 306–319). -/
def writeFlags (flags : BlkdevFlags) (now : ℤ) (block : ℕ) : BlkdevFlags :=
  if flags.present then { flags with erase := false, dirty := true } else newFlags now block true

/-- `blkdev_write` (lines 284–327). -/
def blkdevWrite (block : ℕ) (writebuf : Block n) : Option (Cause × Blkdev σ n) :=
  if dev.readonly then some (.readonly, dev)
  else if block ≥ dev.blocks then some (.range, dev)
  else
    dev.cache.map fun c =>
      match blkdevAllocCache c (clock 0) block with
      | some i =>
        let flags := writeFlags (c.blockFlags i) (clock 1) block
        (.ok, { dev with cache := some ((c.setFlags i flags).setBlock i writebuf) })
      | none =>
        let (ec, cookie) := D.write dev.cookie block writebuf
        (ec, { dev with cookie := cookie })

/-- The flags of an entry after a read from it (lines 350–356). -/
def readFlags (flags : BlkdevFlags) (now : ℤ) : BlkdevFlags :=
  if ¬ flags.erase ∧ ¬ flags.dirty then { flags with updateTime := now } else flags

/-- `blkdev_read` (lines 331–382). -/
def blkdevRead (block : ℕ) : Option (Cause × List UInt8 × Blkdev σ n) :=
  if block ≥ dev.blocks then some (.range, [], dev)
  else
    dev.cache.map fun c =>
      match blkdevAllocCache c (clock 0) block with
      | some i =>
        let flags := c.blockFlags i
        if flags.present then
          let data := if flags.erase then erased n else c.blockCache i
          (.ok, List.ofFn data,
            { dev with cache := some (c.setFlags i (readFlags flags (clock 1))) })
        else if dev.cacheRead then
          let (ec, data, cookie) := D.read dev.cookie block
          (ec, if ec = .ok then List.ofFn data else [],
            { dev with cookie := cookie,
                       cache := some ((c.setFlags i (newFlags (clock 1) block false)).setBlock i data) })
        else
          let (ec, data, cookie) := D.read dev.cookie block
          (ec, List.ofFn data, { dev with cookie := cookie })
      | none =>
        let (ec, data, cookie) := D.read dev.cookie block
        (ec, List.ofFn data, { dev with cookie := cookie })

/-- The bounds check of the partial accesses (lines 408–412). -/
def outsideBlock (n offset len : ℕ) : Prop := offset ≥ n ∨ len > n ∨ offset + len > n

instance (n offset len : ℕ) : Decidable (outsideBlock n offset len) := by
  unfold outsideBlock
  infer_instance

/-- `blkdev_write_partial` (lines 386–445). -/
def blkdevWritePartial (block offset : ℕ) (writebuf : List UInt8) :
    Option (Cause × Blkdev σ n) :=
  if dev.readonly then some (.readonly, dev)
  else if block ≥ dev.blocks then some (.range, dev)
  else if outsideBlock n offset writebuf.length then some (.range, dev)
  else if writebuf.length = 0 then some (.ok, dev)
  else
    dev.cache.map fun c =>
      match blkdevAllocCache c (clock 0) block with
      | some i =>
        let flags := writeFlags (c.blockFlags i) (clock 1) block
        let data := patch (c.blockCache i) offset writebuf
        (.ok, { dev with cache := some ((c.setFlags i flags).setBlock i data) })
      | none =>
        let (ec, cookie) := D.writePartial dev.cookie block offset writebuf
        (ec, { dev with cookie := cookie })

/-- `blkdev_read_partial` (lines 449–511). An entry that is to be erased fills the whole
    length of a block in `readbuf`. -/
def blkdevReadPartial (block offset readbufLen : ℕ) : Option (Cause × List UInt8 × Blkdev σ n) :=
  if block ≥ dev.blocks then some (.range, [], dev)
  else if outsideBlock n offset readbufLen then some (.range, [], dev)
  else if readbufLen = 0 then some (.ok, [], dev)
  else
    dev.cache.map fun c =>
      match blkdevAllocCache c (clock 0) block with
      | some i =>
        let flags := c.blockFlags i
        if flags.present then
          let data :=
            if flags.erase then List.ofFn (erased n) else slice (c.blockCache i) offset readbufLen
          (.ok, data, { dev with cache := some (c.setFlags i (readFlags flags (clock 1))) })
        else if dev.cacheRead then
          let (ec, data, cookie) := D.read dev.cookie block
          (ec, if ec = .ok then slice data offset readbufLen else [],
            { dev with cookie := cookie,
                       cache := some ((c.setFlags i (newFlags (clock 1) block false)).setBlock i data) })
        else
          let (ec, data, cookie) := D.readPartial dev.cookie block offset readbufLen
          (ec, data, { dev with cookie := cookie })
      | none =>
        let (ec, data, cookie) := D.readPartial dev.cookie block offset readbufLen
        (ec, data, { dev with cookie := cookie })

/-! ## Flushing (lines 516–565) -/

/-- The loop of `blkdev_flush` over the last `k` entries, from entry `i` on. The test
    `if (ec)` behind the call of `blkdev_flush_cache` is about a pointer that is not
    `NULL` there, so that the loop returns. -/
def flushLoop (cacheRead : Bool) (clock : ℕ → ℤ) (ec : Cause) (cookie : σ) (c : BlkdevCache n) :
    ℕ → ℕ → Cause × σ × BlkdevCache n
  | 0, _ => (ec, cookie, c)
  | k + 1, i =>
    if (c.blockFlags i).present ∧ ((c.blockFlags i).dirty ∨ (c.blockFlags i).erase) then
      blkdevFlushCache D cacheRead ec cookie c i (clock i)
    else flushLoop cacheRead clock ec cookie c k (i + 1)

/-- `blkdev_flush` (lines 516–539), with the error that is in `ec` before. -/
def blkdevFlush (ec : Cause) : Option (Cause × Blkdev σ n) :=
  if dev.readonly then some (.readonly, dev)
  else
    dev.cache.map fun c =>
      let (ec, cookie, c) := flushLoop D dev.cacheRead clock ec dev.cookie c c.cacheDepth 0
      (ec, { dev with cookie := cookie, cache := some c })

/-- The loop of `blkdev_housekeeping` over the last `k` entries, from entry `i` on. -/
def housekeepingLoop (cacheRead : Bool) (clock : ℕ → ℤ) (timeout : ℤ) :
    ℕ → ℕ → Cause → σ → BlkdevCache n → Cause × σ × BlkdevCache n
  | 0, _, ec, cookie, c => (ec, cookie, c)
  | k + 1, i, ec, cookie, c =>
    if blkdevIsDirty (c.blockFlags i) ∧ (c.blockFlags i).updateTime < timeout then
      let (ec, cookie, c) := blkdevFlushCache D cacheRead ec cookie c i (clock (i + 1))
      if ec ≠ .ok then (ec, cookie, c)
      else housekeepingLoop cacheRead clock timeout k (i + 1) ec cookie c
    else housekeepingLoop cacheRead clock timeout k (i + 1) ec cookie c

/-- `blkdev_housekeeping` (lines 543–565), with the error that is in `ec` before. -/
def blkdevHousekeeping (ec : Cause) : Option (Cause × Blkdev σ n) :=
  dev.cache.map fun c =>
    let (ec, cookie, c) := housekeepingLoop D dev.cacheRead clock (clock 0 - writeCacheTimeout)
      c.cacheDepth 0 ec dev.cookie c
    (ec, { dev with cookie := cookie, cache := some c })

/-! ## Creating and deleting the cache (lines 567–637) -/

/-- `blkdev_create_cache` (lines 567–615), with the error that is in `ec` before. `mallocOk` says
    which of the three allocations succeed and `memory` is what the second one holds. -/
def blkdevCreateCache (ec : Cause) (cacheDepth : ℕ) (cacheReads : Bool) (mallocOk : ℕ → Bool)
    (memory : ℕ → Block n) : Option (Cause × Blkdev σ n) :=
  if dev.readonly ∧ ¬ dev.cacheRead then some (.readonly, dev)
  else
    (if dev.cache.isSome then blkdevFlush D dev clock ec else some (.ok, dev)).map fun r =>
      if r.1 ≠ .ok then r
      else if ¬ mallocOk 0 then (.nomem, { r.2 with cache := none })
      else if ¬ mallocOk 1 then (.nomem, { r.2 with cacheRead := cacheReads, cache := none })
      else if ¬ mallocOk 2 then (.nomem, { r.2 with cacheRead := cacheReads, cache := none })
      else
        (.ok, { r.2 with
                cacheRead := cacheReads
                cache := some { blockCache := memory, blockFlags := fun _ => {},
                                cacheDepth := cacheDepth } })

/-- `blkdev_delete_cache` (lines 618–637), with the error that is in `ec` before. -/
def blkdevDeleteCache (ec : Cause) : Option (Cause × Blkdev σ n) :=
  if dev.cache.isSome then
    (blkdevFlush D dev clock ec).map fun r =>
      if r.1 ≠ .ok then r else (.ok, { r.2 with cache := none })
  else some (.ok, dev)

end

end BadgerOS.Blockdevice

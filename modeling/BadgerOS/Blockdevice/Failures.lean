import BadgerOS.Blockdevice.Entries

/-!
# Driver errors

What is left in the cache when the driver reports an error during `blkdev_flush`,
`blkdev_housekeeping`, `blkdev_read` or `blkdev_read_partial`.

* `logged`: a driver that also records its calls, so that what it has reported during a call can be
  read off the device afterwards.
* `LosesNothing`: errors are reported, what has not been stored is still pending, and entries that
  are present hold what they held or what the driver has delivered.
* `losesNothing_iff`: when a driver call fails, that is so exactly when the call reads a block past
  the cache.

**Deviation.** `blkdev_flush_cache` clears `dirty` and `erase` before it calls the driver and does
not set them again, and the reads mark the entry as present before they look at the error: a failed
write or erase is forgotten (`failed_flush_forgets`), and a failed read leaves an entry with
whatever the driver left in its block.
-/

namespace BadgerOS.Blockdevice

open List Option Prod Function

variable {σ : Type} {n : ℕ}

/-! ## The calls of the driver -/

/-- What the driver is asked for, with the data that is given to it or delivered by it. -/
inductive DriverReq (n : ℕ)
  | erase (block : ℕ)
  | write (block : ℕ) (data : Block n)
  | read (block : ℕ) (data : Block n)
  | writePartial (block offset : ℕ) (data : List UInt8)
  | readPartial (block offset : ℕ) (data : List UInt8)

/-- A call of the driver and what it has reported. -/
structure DriverCall (n : ℕ) where
  req : DriverReq n
  cause : Cause

/-- The driver has stored or erased a block. -/
def DriverCall.stores (d : DriverCall n) : Bool :=
  match d.req with
  | .erase _ | .write _ _ | .writePartial _ _ _ => decide (d.cause = .ok)
  | _ => false

/-- The driver `D`, with its calls recorded. -/
def logged (D : BlkdevVtable σ n) : BlkdevVtable (σ × List (DriverCall n)) n where
  erase s b :=
    let r := D.erase s.1 b
    (r.1, r.2, s.2 ++ [⟨.erase b, r.1⟩])
  write s b data :=
    let r := D.write s.1 b data
    (r.1, r.2, s.2 ++ [⟨.write b data, r.1⟩])
  read s b :=
    let r := D.read s.1 b
    (r.1, r.2.1, r.2.2, s.2 ++ [⟨.read b r.2.1, r.1⟩])
  writePartial s b offset data :=
    let r := D.writePartial s.1 b offset data
    (r.1, r.2, s.2 ++ [⟨.writePartial b offset data, r.1⟩])
  readPartial s b offset len :=
    let r := D.readPartial s.1 b offset len
    (r.1, r.2.1, r.2.2, s.2 ++ [⟨.readPartial b offset r.2.1, r.1⟩])

/-- The device with an empty record. -/
def Blkdev.withLog (dev : Blkdev σ n) : Blkdev (σ × List (DriverCall n)) n where
  blocks := dev.blocks
  readonly := dev.readonly
  cacheRead := dev.cacheRead
  cache := dev.cache
  cookie := (dev.cookie, [])

/-- The calls on the device that this is about. -/
inductive CacheCall
  | flush
  | housekeeping
  | read (block : ℕ)
  | readPartial (block offset len : ℕ)

/-- The error that a call reports, and the device after it; `ec` is the error before. -/
def cacheCall (D : BlkdevVtable σ n) (dev : Blkdev σ n) (clock : ℕ → ℤ) (ec : Cause) :
    CacheCall → Option (Cause × Blkdev σ n)
  | .flush => blkdevFlush D dev clock ec
  | .housekeeping => blkdevHousekeeping D dev clock ec
  | .read block => (blkdevRead D dev clock block).map fun r => (r.1, r.2.2)
  | .readPartial block offset len =>
    (blkdevReadPartial D dev clock block offset len).map fun r => (r.1, r.2.2)

/-! ## Nothing is lost -/

/-- What stores a pending entry. -/
def BlkdevCache.storeReq (c : BlkdevCache n) (i : ℕ) : DriverReq n :=
  if (c.blockFlags i).dirty then .write (c.blockFlags i).index (c.blockCache i)
  else .erase (c.blockFlags i).index

/-- A call that turns the cache `c` into `c'` and reports `out`, with the calls of the driver during
    it: each error is reported, the pending entries are the same apart from those that the driver
    has stored, and each present entry is as before or holds what the driver has read. -/
structure LosesNothing (c c' : BlkdevCache n) (log : List (DriverCall n)) (out : Cause) : Prop where
  reported : ∀ d ∈ log, d.cause ≠ .ok → out = d.cause
  pending : ∃ stored : List ℕ,
    (log.filter DriverCall.stores).map DriverCall.req = stored.map c.storeReq ∧
    ∀ i, Pending c i → i ∉ stored →
      c'.blockFlags i = c.blockFlags i ∧ c'.blockCache i = c.blockCache i
  contents : ∀ i < c'.cacheDepth, (c'.blockFlags i).present = true →
    ((c.blockFlags i).present = true ∧ (c'.blockFlags i).index = (c.blockFlags i).index ∧
      c'.blockCache i = c.blockCache i) ∨
    ⟨.read (c'.blockFlags i).index (c'.blockCache i), .ok⟩ ∈ log

/-- The call reads a block past the cache. -/
def CacheCall.Bypasses (dev : Blkdev σ n) (c : BlkdevCache n) (now : ℤ) : CacheCall → Prop
  | .flush | .housekeeping => False
  | .read block | .readPartial block _ _ => CacheBypass dev c now block

/-! ## Flushing -/

section

variable {D : BlkdevVtable σ n} {c c' : BlkdevCache n} {i : ℕ} {log : List (DriverCall n)}

/-- The entries that are not pending any more outnumber what the driver has stored. -/
theorem not_losesNothing_of_lost {out : Cause} {lost : List ℕ} (hnodup : lost.Nodup)
    (hlost : ∀ j ∈ lost, Pending c j ∧ blkdevIsDirty (c'.blockFlags j) = false)
    (hlen : lost.length = log.length) (hfail : ∃ d ∈ log, d.cause ≠ .ok) :
    ¬ LosesNothing c c' log out := by
  intro h
  obtain ⟨stored, hstored, hkept⟩ := h.pending
  have hsub : lost ⊆ stored := by
    intro j hj
    obtain ⟨hpend, hclean⟩ := hlost j hj
    by_contra hnot
    rw [(hkept j hpend hnot).1, hpend.2] at hclean
    cases hclean
  have hle : lost.length ≤ stored.length := (hnodup.subperm hsub).length_le
  have hcount : stored.length = (log.filter DriverCall.stores).length := by
    rw [← length_map c.storeReq, ← hstored, length_map]
  have hlt : (log.filter DriverCall.stores).length < log.length := by
    obtain ⟨d, hd, herr⟩ := hfail
    refine length_filter_lt_length_iff_exists.mpr ⟨d, hd, ?_⟩
    rcases d with ⟨req, cause⟩
    cases req <;> simp_all [DriverCall.stores]
  omega

/-- `blkdev_flush_cache` calls the driver once for a pending entry, which is not pending after. -/
theorem blkdevFlushCache_logged (log : List (DriverCall n)) (hi : Pending c i) (cacheRead : Bool)
    (ec : Cause) (s : σ) (now : ℤ) : ∃ ec' s' d f,
      blkdevFlushCache (logged D) cacheRead ec (s, log) c i now =
        (ec', (s', log ++ [d]), c.setFlags i f) ∧ blkdevIsDirty f = false := by
  rw [blkdevFlushCache]
  by_cases hdirty : (c.blockFlags i).dirty = true
  · rw [if_pos hdirty]
    exact ⟨_, _, _, _, rfl, by simp [blkdevIsDirty]⟩
  · have herase : (c.blockFlags i).erase = true := by
      rcases ((blkdevIsDirty_iff _).mp hi.2).2 with h | h
      · exact absurd h hdirty
      · exact h
    rw [if_neg hdirty, if_pos herase]
    exact ⟨_, _, _, _, rfl, rfl⟩

/-- The loop of `blkdev_housekeeping` calls the driver once for each entry that it stores. -/
theorem housekeepingLoop_logged (cacheRead : Bool) (clock : ℕ → ℤ) (timeout : ℤ) (k i : ℕ)
    (ec : Cause) (s : σ) (log : List (DriverCall n)) (hk : i + k = c.cacheDepth) :
    ∃ ec' s' new c', ∃ lost : List ℕ,
      housekeepingLoop (logged D) cacheRead clock timeout k i ec (s, log) c =
        (ec', (s', log ++ new), c') ∧
      lost.Nodup ∧ (∀ j ∈ lost, i ≤ j ∧ Pending c j ∧ blkdevIsDirty (c'.blockFlags j) = false) ∧
      lost.length = new.length ∧ ∀ j < i, c'.blockFlags j = c.blockFlags j := by
  induction k generalizing i ec s c log with
  | zero =>
    refine ⟨ec, s, [], c, [], ?_, .nil, by simp, rfl, fun _ _ => rfl⟩
    rw [housekeepingLoop, append_nil]
  | succ k ih =>
    rw [housekeepingLoop]
    by_cases hold : blkdevIsDirty (c.blockFlags i) = true ∧ (c.blockFlags i).updateTime < timeout
    · have hi : Pending c i := ⟨by omega, hold.1⟩
      obtain ⟨ec1, s1, d, f, hflush, hclean⟩ :=
        blkdevFlushCache_logged (D := D) log hi cacheRead ec s (clock (i + 1))
      rw [if_pos hold, hflush]
      have hself : (c.setFlags i f).blockFlags i = f := update_self ..
      have hother : ∀ {j}, j ≠ i → (c.setFlags i f).blockFlags j = c.blockFlags j :=
        fun hne => update_of_ne hne ..
      show ∃ ec' s' new c', ∃ lost : List ℕ, (if ec1 ≠ .ok then _ else _) = _ ∧ _
      by_cases hok : ec1 ≠ .ok
      · rw [if_pos hok]
        refine ⟨ec1, s1, [d], c.setFlags i f, [i], rfl, nodup_singleton i, ?_, rfl, ?_⟩
        · intro j hj
          obtain rfl := mem_singleton.mp hj
          exact ⟨le_rfl, hi, hself.symm ▸ hclean⟩
        · exact fun j hj => hother hj.ne
      · rw [if_neg hok]
        obtain ⟨ec', s', new, c', lost, hloop, hnodup, hlost, hlen, hsame⟩ :=
          ih (c := c.setFlags i f) (i + 1) ec1 s1 (log ++ [d])
            (show i + 1 + k = c.cacheDepth by omega)
        refine ⟨ec', s', d :: new, c', i :: lost, ?_, ?_, ?_, ?_, ?_⟩
        · rw [hloop, append_assoc, singleton_append]
        · refine nodup_cons.mpr ⟨fun hmem => ?_, hnodup⟩
          exact absurd (hlost i hmem).1 (by omega)
        · intro j hj
          rcases mem_cons.mp hj with rfl | hj
          · refine ⟨le_rfl, hi, ?_⟩
            rw [hsame j (Nat.lt_succ_self j), hself]
            exact hclean
          · obtain ⟨hle, hpend, hnot⟩ := hlost j hj
            exact ⟨by omega, (pending_setFlags_of_ne (by omega)).mp hpend, hnot⟩
        · rw [length_cons, length_cons, hlen]
        · intro j hj
          rw [hsame j (by omega), hother hj.ne]
    · rw [if_neg hold]
      obtain ⟨ec', s', new, c', lost, hloop, hnodup, hlost, hlen, hsame⟩ :=
        ih (i + 1) ec s log (show i + 1 + k = c.cacheDepth by omega)
      refine ⟨ec', s', new, c', lost, hloop, hnodup, ?_, hlen, ?_⟩
      · intro j hj
        obtain ⟨hle, hrest⟩ := hlost j hj
        exact ⟨by omega, hrest⟩
      · exact fun j hj => hsame j (by omega)

end

/-! ## The four calls -/

section

variable {D : BlkdevVtable σ n} {dev : Blkdev σ n} {c c' : BlkdevCache n} {clock : ℕ → ℤ}
  {ec out : Cause} {dev' : Blkdev (σ × List (DriverCall n)) n}

section

variable (hc : dev.cache = some c) (hc' : dev'.cache = some c')
  (hfail : ∃ d ∈ dev'.cookie.2, d.cause ≠ .ok)

include hc hc' hfail

theorem blkdevFlush_loses (hcall : blkdevFlush (logged D) dev.withLog clock ec = some (out, dev')) :
    ¬ LosesNothing c c' dev'.cookie.2 out := by
  rw [blkdevFlush] at hcall
  split_ifs at hcall with hro
  · cases hcall
    obtain ⟨d, hd, _⟩ := hfail
    cases hd
  · rw [show dev.withLog.cache = some c from hc, map_some] at hcall
    rcases flushLoop_cases (logged D) dev.cacheRead clock ec (dev.cookie, []) c.cacheDepth 0
      (Nat.zero_add _) (c := c) (fun j hj => absurd hj (Nat.not_lt_zero j)) with
      ⟨hloop, _⟩ | ⟨j, hj, hloop⟩
    · rw [show flushLoop (logged D) dev.withLog.cacheRead clock ec dev.withLog.cookie c
        c.cacheDepth 0 = _ from hloop] at hcall
      cases hcall
      obtain ⟨d, hd, _⟩ := hfail
      cases hd
    · obtain ⟨ec', s', d, f, hflush, hclean⟩ :=
        blkdevFlushCache_logged (D := D) [] hj dev.cacheRead ec dev.cookie (clock j)
      rw [show flushLoop (logged D) dev.withLog.cacheRead clock ec dev.withLog.cookie c
        c.cacheDepth 0 = _ from hloop.trans hflush] at hcall
      cases hcall
      cases hc'
      refine not_losesNothing_of_lost (nodup_singleton j) ?_ rfl hfail
      intro i hi
      obtain rfl := mem_singleton.mp hi
      have hself : (c.setFlags i f).blockFlags i = f := update_self ..
      exact ⟨hj, hself.symm ▸ hclean⟩

theorem blkdevHousekeeping_loses
    (hcall : blkdevHousekeeping (logged D) dev.withLog clock ec = some (out, dev')) :
    ¬ LosesNothing c c' dev'.cookie.2 out := by
  rw [blkdevHousekeeping, show dev.withLog.cache = some c from hc, map_some] at hcall
  obtain ⟨ec', s', new, c1, lost, hloop, hnodup, hlost, hlen, _⟩ :=
    housekeepingLoop_logged (D := D) (c := c) dev.cacheRead clock
      (clock 0 - writeCacheTimeout) c.cacheDepth 0 ec dev.cookie [] (Nat.zero_add _)
  rw [show housekeepingLoop (logged D) dev.withLog.cacheRead clock (clock 0 - writeCacheTimeout)
    c.cacheDepth 0 ec dev.withLog.cookie c = _ from hloop] at hcall
  cases hcall
  cases hc'
  exact not_losesNothing_of_lost hnodup (fun j hj => (hlost j hj).2) hlen hfail

end

theorem not_losesNothing_filled {block i : ℕ} {r : Cause × Block n × (σ × List (DriverCall n))}
    {d : DriverCall n} (hi : i < c.cacheDepth) (hvacant : (c.blockFlags i).present = false)
    (now : ℤ) (hc' : (dev.withLog.filled c i block now r).cache = some c') (hlog : r.2.2.2 = [d])
    (hfail : ∃ d ∈ r.2.2.2, d.cause ≠ .ok) : ¬ LosesNothing c c' r.2.2.2 out := by
  intro h
  cases hc'
  have hflags : ((c.setFlags i (newFlags now block false)).setBlock i r.2.1).blockFlags i =
      newFlags now block false := update_self ..
  rcases h.contents i hi (by rw [hflags]; rfl) with ⟨hpresent, _⟩ | hread
  · rw [hvacant] at hpresent
    cases hpresent
  · obtain ⟨d', hd', herr⟩ := hfail
    rw [hlog] at hd' hread
    rw [mem_singleton.mp hd', ← mem_singleton.mp hread] at herr
    exact herr rfl

theorem losesNothing_bypass {d : DriverCall n} (hcause : d.cause = out) (herr : out ≠ .ok) : LosesNothing c c [d] out where
  reported := by
    intro d' hd' _
    rw [mem_singleton.mp hd', hcause]
  pending := by
    refine ⟨[], ?_, fun _ _ _ => ⟨rfl, rfl⟩⟩
    have hnot : d.stores = false := by
      rcases d with ⟨req, cause⟩
      cases req <;> simp_all [DriverCall.stores]
    rw [filter_cons_of_neg (by rw [hnot]; exact Bool.false_ne_true)]
    rfl
  contents := fun _ _ hp => .inl ⟨hp, rfl, rfl⟩

/-- What a read does to the device and its record: no call of the driver, a block read into a vacant
    entry, or a read past the cache. -/
inductive ReadOutcome (dev : Blkdev σ n) (c : BlkdevCache n) (now : ℤ) (block : ℕ) (out : Cause)
    (dev' : Blkdev (σ × List (DriverCall n)) n) : Prop
  | silent (hlog : dev'.cookie.2 = [])
  | fill {i : ℕ} {r : Cause × Block n × (σ × List (DriverCall n))} {d : DriverCall n} {later : ℤ}
      (h : CacheFill dev c now block i) (hlog : r.2.2.2 = [d])
      (hdev : dev' = dev.withLog.filled c i block later r)
  | bypass {d : DriverCall n} (h : CacheBypass dev c now block) (hcache : dev'.cache = some c)
      (hlog : dev'.cookie.2 = [d]) (hcause : d.cause = out)

theorem ReadOutcome.kept_iff {now : ℤ} {block : ℕ}
    (h : ReadOutcome dev c now block out dev') (hfail : ∃ d ∈ dev'.cookie.2, d.cause ≠ .ok) :
    (∃ c', dev'.cache = some c' ∧ LosesNothing c c' dev'.cookie.2 out) ↔
      CacheBypass dev c now block := by
  cases h with
  | silent hlog =>
    rw [hlog] at hfail
    obtain ⟨d, hd, _⟩ := hfail
    cases hd
  | @fill i _ _ later h hlog hdev =>
    subst hdev
    refine iff_of_false ?_ fun hby => ?_
    · rintro ⟨c', hc', hnothing⟩
      exact not_losesNothing_filled h.lt h.2.1 later hc' hlog hfail hnothing
    · exact absurd (h.2.2.symm.trans (hby i h.1).2) (by decide)
  | bypass h hcache hlog hcause =>
    rw [hlog] at hfail ⊢
    refine iff_of_true ⟨c, hcache, losesNothing_bypass hcause ?_⟩ h
    obtain ⟨d', hd', herr⟩ := hfail
    rw [mem_singleton.mp hd', hcause] at herr
    exact herr

theorem blkdevRead_outcome {block : ℕ} (hc : dev.cache = some c)
    (hcall : (blkdevRead (logged D) dev.withLog clock block).map (fun r => (r.1, r.2.2)) =
      some (out, dev')) : ReadOutcome dev c (clock 0) block out dev' := by
  have hc1 : dev.withLog.cache = some c := hc
  by_cases hb : block < dev.withLog.blocks
  · rcases cache_cases dev.withLog c (clock 0) block with ⟨i, h⟩ | ⟨i, h⟩ | h
    · rw [blkdevRead_hit hc1 hb h] at hcall
      cases hcall
      exact .silent rfl
    · rw [blkdevRead_fill hc1 hb h] at hcall
      cases hcall
      exact .fill h rfl rfl
    · rw [blkdevRead_bypass hc1 hb h] at hcall
      cases hcall
      exact .bypass h hc rfl rfl
  · rw [blkdevRead, if_pos (not_lt.mp hb)] at hcall
    cases hcall
    exact .silent rfl

theorem blkdevReadPartial_outcome {block offset len : ℕ} (hc : dev.cache = some c)
    (hcall : (blkdevReadPartial (logged D) dev.withLog clock block offset len).map (fun r => (r.1,
      r.2.2)) = some (out, dev')) : ReadOutcome dev c (clock 0) block out dev' := by
  have hc1 : dev.withLog.cache = some c := hc
  by_cases hb : block < dev.withLog.blocks
  · by_cases hin : outsideBlock n offset len
    · rw [blkdevReadPartial, if_neg (not_le.mpr hb), if_pos hin] at hcall
      cases hcall
      exact .silent rfl
    · by_cases hlen : len = 0
      · rw [blkdevReadPartial, if_neg (not_le.mpr hb), if_neg hin, if_pos hlen] at hcall
        cases hcall
        exact .silent rfl
      · rcases cache_cases dev.withLog c (clock 0) block with ⟨i, h⟩ | ⟨i, h⟩ | h
        · rw [blkdevReadPartial_hit hc1 hb hin hlen h] at hcall
          cases hcall
          exact .silent rfl
        · rw [blkdevReadPartial_fill hc1 hb hin hlen h] at hcall
          cases hcall
          exact .fill h rfl rfl
        · rw [blkdevReadPartial_bypass hc1 hb hin hlen h] at hcall
          cases hcall
          exact .bypass h hc rfl rfl
  · rw [blkdevReadPartial, if_pos (not_lt.mp hb)] at hcall
    cases hcall
    exact .silent rfl

/-- When the driver reports an error during a call, nothing is lost exactly when the call reads a
    block past the cache. -/
theorem losesNothing_iff {call : CacheCall} (hc : dev.cache = some c)
    (hcall : cacheCall (logged D) dev.withLog clock ec call = some (out, dev'))
    (hfail : ∃ d ∈ dev'.cookie.2, d.cause ≠ .ok) :
    (∃ c', dev'.cache = some c' ∧ LosesNothing c c' dev'.cookie.2 out) ↔
      call.Bypasses dev c (clock 0) := by
  cases call with
  | flush =>
    refine iff_of_false ?_ id
    rintro ⟨c', hc', h⟩
    exact blkdevFlush_loses hc hc' hfail hcall h
  | housekeeping =>
    refine iff_of_false ?_ id
    rintro ⟨c', hc', h⟩
    exact blkdevHousekeeping_loses hc hc' hfail hcall h
  | read block => exact (blkdevRead_outcome hc hcall).kept_iff hfail
  | readPartial block offset len =>
    exact (blkdevReadPartial_outcome hc hcall).kept_iff hfail

end

/-- A driver that never answers. -/
def deadDriver (n : ℕ) : BlkdevVtable (ℕ → Block n) n where
  erase s _ := (.timeout, s)
  write s _ _ := (.timeout, s)
  read s _ := (.timeout, fun _ => 0, s)
  writePartial s _ _ _ := (.timeout, s)
  readPartial s _ _ _ := (.timeout, [], s)

/-- A device with a pending write to block 0 that does not cache reads. -/
def uncachedDevice : Blkdev (ℕ → Block 1) 1 :=
  { writtenDevice oneWritten with cacheRead := false }

/-- A failed read of block 1 leaves the pending block 0 alone. -/
theorem losesNothing_iff_dead : ∃ out dev' c',
    cacheCall (logged (deadDriver 1)) uncachedDevice.withLog (fun _ => 9) .ok (.read 1) =
      some (out, dev') ∧
    dev'.cache = some c' ∧ LosesNothing oneWritten c' dev'.cookie.2 out := by
  have hbypass : CacheBypass uncachedDevice oneWritten 9 1 := by
    intro i hi
    obtain rfl : (1 : ℕ) = i := some.inj hi
    exact ⟨rfl, rfl⟩
  have hcall : cacheCall (logged (deadDriver 1)) uncachedDevice.withLog (fun _ => 9) .ok
      (.read 1) = some (.timeout, _) := rfl
  obtain ⟨c', hc', h⟩ := (losesNothing_iff rfl hcall
    ⟨_, mem_singleton_self _, by decide⟩).mpr hbypass
  exact ⟨_, _, c', hcall, hc', h⟩

/-- The driver refuses a write during `blkdev_flush`, and the entry is not pending any more. -/
theorem failed_flush_forgets : ¬ ∀ (σ : Type) (n : ℕ) (D : BlkdevVtable σ n) (dev : Blkdev σ n)
    (c : BlkdevCache n) (clock : ℕ → ℤ) (ec out : Cause) (call : CacheCall)
    (dev' : Blkdev (σ × List (DriverCall n)) n), dev.cache = some c →
    cacheCall (logged D) dev.withLog clock ec call = some (out, dev') →
    (∃ d ∈ dev'.cookie.2, d.cause ≠ .ok) →
    ∃ c', dev'.cache = some c' ∧ LosesNothing c c' dev'.cookie.2 out := by
  intro hall
  have hfail : ∃ d ∈ [(⟨.write 0 fun _ => 7, .timeout⟩ : DriverCall 1)], d.cause ≠ .ok :=
    ⟨_, mem_singleton_self _, by decide⟩
  obtain ⟨c', hc', h⟩ := hall _ 1 (deadDriver 1) (writtenDevice oneWritten) oneWritten (fun _ => 9)
    .ok .timeout .flush _ rfl rfl hfail
  have hcall : blkdevFlush (logged (deadDriver 1)) (writtenDevice oneWritten).withLog (fun _ => 9)
      .ok = some (.timeout, _) := rfl
  exact blkdevFlush_loses rfl hc' hfail hcall h

end BadgerOS.Blockdevice

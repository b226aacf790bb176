import BadgerOS.Memprotect.Mmu
import BadgerOS.Lib.Align

/-!
# The address of a new mapping

Model of the first part of `proc_map_raw` for targets with virtual memory
(`kernel/src/process/proc_memmap.c` lines 50–78), which turns the arguments of
`syscall_mem_alloc` into the address and the size to map.

**Deviation.** The address should be page aligned, aligned as requested, not
below 65536, and the mapping should end inside the lower half; where there is no
such address the request should be refused. None of the steps checks for
overflow:

* rounding an address or a size near `2 ^ 64` up wraps to `0`;
* the test whether the mapping ends in the lower half adds modulo `2 ^ 64`;
* a size beyond the lower half makes the address moved down wrap to the top;
* the alignment `0` passes the test for powers of two, and its mask `0 - 1` clears
  every bit of the address.

`requestHonoured_iff` gives the requests that are treated correctly. Reading the
arguments as natural numbers, these are the ones whose rounded address and size
add up to less than `2 ^ 64` with a size that fits and a non-zero alignment, and a
few of those with a size that cannot fit.
-/

namespace BadgerOS.Process

open Memprotect
open Align (ceil ceil_eq_self floor ceil_le ceil_spec floor_spec)

/-! ## Model -/

/-- An alignment that is no power of two is ignored (lines 51–54). -/
def correctAlign (minAlign : ℕ) : ℕ :=
  if minAlign &&& sizeSub minAlign 1 ≠ 0 then 1 else minAlign

/-- Round up to pages (lines 57–59 and 63–65). -/
def roundPage (n : ℕ) : ℕ :=
  if n % 4096 ≠ 0 then sizeAdd n (4096 - n % 4096) else n

/-- The requested address, moved up to the first allowed page (lines 55–59). -/
def firstVaddr (vaddrReq : ℕ) : ℕ :=
  if vaddrReq < 65536 ∨ vaddrReq < 4096 then 65536 else roundPage vaddrReq

/-- Round up to the alignment (lines 60–62). -/
def alignVaddr (vaddr minAlign : ℕ) : ℕ :=
  if vaddr &&& sizeSub minAlign 1 ≠ 0 then
    sizeAdd vaddr (sizeSub minAlign (vaddr &&& sizeSub minAlign 1))
  else vaddr

/-- Round down to the alignment (lines 68–70). -/
def alignVaddrDown (vaddr minAlign : ℕ) : ℕ :=
  if vaddr &&& sizeSub minAlign 1 ≠ 0 then
    sizeSub vaddr (vaddr &&& sizeSub minAlign 1)
  else vaddr

/-- The address and the size that `proc_map_raw` settles on (lines 50–78), or
    `none` where it refuses the request with `NOMEM`. -/
def settle (pg : Paging) (vaddrReq minSize minAlign : ℕ) : Option (ℕ × ℕ) :=
  let align := correctAlign minAlign
  let vaddr := alignVaddr (firstVaddr vaddrReq) align
  let size := roundPage minSize
  if pg.halfSize < sizeAdd vaddr size then
    let vaddr := alignVaddrDown (sizeSub pg.halfSize size) align
    if vaddr < 65536 ∨ vaddr < 4096 then none else some (vaddr, size)
  else some (vaddr, size)

/-! ## What a request asks for -/

/-- `addr` is an address as `minSize` and `minAlign` ask for it. -/
structure Admissible (pg : Paging) (minSize minAlign addr : ℕ) : Prop where
  page : 4096 ∣ addr
  align : ∀ k, minAlign = 2 ^ k → minAlign ∣ addr
  low : 65536 ≤ addr
  fits : addr + ceil 4096 minSize ≤ pg.halfSize

/-- The request is treated correctly: the address settled on is admissible, and
    without any admissible address the request is refused. -/
structure RequestHonoured (pg : Paging) (vaddrReq minSize minAlign : ℕ) : Prop where
  settled : ∀ addr size, settle pg vaddrReq minSize minAlign = some (addr, size) →
    Admissible pg minSize minAlign addr
  refused : (¬ ∃ addr, Admissible pg minSize minAlign addr) →
    settle pg vaddrReq minSize minAlign = none

/-! ## The steps modulo `2 ^ 64` -/

theorem roundPage_eq {n : ℕ} (hn : n < 2 ^ 64) : roundPage n = ceil 4096 n % 2 ^ 64 := by
  unfold roundPage
  by_cases h : n % 4096 = 0
  · rw [if_neg (by simpa using h), ceil_eq_self (by norm_num) (Nat.dvd_of_mod_eq_zero h),
      Nat.mod_eq_of_lt hn]
  · rw [if_pos h, Align.ceil_eq_add (by norm_num) h, sizeAdd]

theorem firstVaddr_eq {v : ℕ} (hv : v < 2 ^ 64) : firstVaddr v = ceil 4096 (max v 65536) % 2 ^ 64 := by
  unfold firstVaddr
  by_cases h : v < 65536
  · rw [if_pos (.inl h), max_eq_right (by omega)]
    rfl
  · rw [if_neg (by omega), max_eq_left (by omega), roundPage_eq hv]

theorem correctAlign_zero : correctAlign 0 = 0 := by decide

theorem correctAlign_two_pow (k : ℕ) (hk : k < 64) : correctAlign (2 ^ k) = 2 ^ k := by
  have hlt : 2 ^ k < 2 ^ 64 := Nat.pow_lt_pow_right (by norm_num) hk
  have hpos : 0 < 2 ^ k := by positivity
  unfold correctAlign
  rw [sizeSub_eq (by omega) hlt, Nat.and_two_pow_sub_one_eq_mod, Nat.mod_self]
  simp

/-- The corrected alignment is `0` or a power of two, and it is the requested one
    if that was a power of two. -/
theorem correctAlign_cases {a : ℕ} (ha : a < 2 ^ 64) : (a = 0 ∧ correctAlign a = 0) ∨
      ∃ k < 64, correctAlign a = 2 ^ k ∧ ∀ j, a = 2 ^ j → a = 2 ^ k := by
  by_cases h0 : a = 0
  · exact .inl ⟨h0, by rw [h0]; exact correctAlign_zero⟩
  · right
    by_cases hp : ∃ k, a = 2 ^ k
    · obtain ⟨k, rfl⟩ := hp
      have hk : k < 64 := (Nat.pow_lt_pow_iff_right (by norm_num)).mp ha
      exact ⟨k, hk, correctAlign_two_pow k hk, fun _ _ => rfl⟩
    · refine ⟨0, by norm_num, ?_, fun j hj => absurd ⟨j, hj⟩ hp⟩
      unfold correctAlign
      rw [sizeSub_eq (by omega) ha, if_pos]
      · rfl
      · exact (Nat.and_sub_one_eq_zero_iff_isPowerOfTwo h0).not.mpr hp

theorem two_pow_mask {k : ℕ} (hk : k < 64) (v : ℕ) : v &&& sizeSub (2 ^ k) 1 = v % 2 ^ k := by
  have hlt : 2 ^ k < 2 ^ 64 := Nat.pow_lt_pow_right (by norm_num) hk
  have hpos : 0 < 2 ^ k := by positivity
  rw [sizeSub_eq (by omega) hlt, Nat.and_two_pow_sub_one_eq_mod]

theorem zero_mask {v : ℕ} (hv : v < 2 ^ 64) : v &&& sizeSub 0 1 = v := by
  rw [show sizeSub 0 1 = 2 ^ 64 - 1 by decide, Nat.and_two_pow_sub_one_eq_mod, Nat.mod_eq_of_lt hv]

theorem alignVaddr_two_pow {k v : ℕ} (hk : k < 64) (hv : v < 2 ^ 64) : alignVaddr v (2 ^ k) = ceil (2 ^ k) v % 2 ^ 64 := by
  have hlt : 2 ^ k < 2 ^ 64 := Nat.pow_lt_pow_right (by norm_num) hk
  have hpos : 0 < 2 ^ k := by positivity
  have hmod := Nat.mod_lt v hpos
  unfold alignVaddr
  rw [two_pow_mask hk]
  by_cases h : v % 2 ^ k = 0
  · rw [if_neg (by simpa using h), ceil_eq_self hpos (Nat.dvd_of_mod_eq_zero h),
      Nat.mod_eq_of_lt hv]
  · rw [if_pos h, Align.ceil_eq_add hpos h, sizeSub_eq (by omega) hlt, sizeAdd]

/-- Rounding a wrapped address up is rounding up and wrapping: the alignment divides `2 ^ 64`. -/
theorem ceil_mod {k n : ℕ} (hk : k < 64) (hn : n ≤ 2 ^ 64) :
    ceil (2 ^ k) (n % 2 ^ 64) % 2 ^ 64 = ceil (2 ^ k) n % 2 ^ 64 := by
  rcases hn.lt_or_eq with hlt | rfl
  · rw [Nat.mod_eq_of_lt hlt]
  · have hpos : 0 < 2 ^ k := by positivity
    rw [Nat.mod_self, ceil_eq_self hpos (dvd_zero _),
      ceil_eq_self hpos (pow_dvd_pow 2 hk.le), Nat.mod_self, Nat.zero_mod]

theorem alignVaddrDown_two_pow {k v : ℕ} (hk : k < 64) (hv : v < 2 ^ 64) : alignVaddrDown v (2 ^ k) = floor (2 ^ k) v := by
  have hle := Nat.mod_le v (2 ^ k)
  unfold alignVaddrDown
  rw [two_pow_mask hk, Align.floor_eq_sub_mod]
  by_cases h : v % 2 ^ k = 0
  · rw [if_neg (by simpa using h), h, Nat.sub_zero]
  · rw [if_pos h, sizeSub_eq hle hv]

theorem alignVaddr_zero {v : ℕ} (hv : v < 2 ^ 64) : alignVaddr v 0 = 0 := by
  unfold alignVaddr
  rw [zero_mask hv]
  by_cases h : v = 0
  · simp [h]
  · rw [if_pos h]
    unfold sizeAdd sizeSub
    omega

theorem alignVaddrDown_zero {v : ℕ} (hv : v < 2 ^ 64) : alignVaddrDown v 0 = 0 := by
  unfold alignVaddrDown
  rw [zero_mask hv]
  by_cases h : v = 0
  · simp [h]
  · rw [if_pos h, sizeSub_eq le_rfl hv, Nat.sub_self]

/-! ## The request as natural numbers -/

/-- The requested address rounded up, as a natural number. -/
def wantedAddr (vaddrReq align : ℕ) : ℕ :=
  ceil align (ceil 4096 (max vaddrReq 65536))

/-- The alignment asked for: an alignment that is neither `0` nor a power of two counts as none. -/
def wantedAlign (minAlign : ℕ) : ℕ :=
  if minAlign = 0 ∨ minAlign = 2 ^ Nat.log2 minAlign then minAlign else 1

theorem correctAlign_eq_wantedAlign {a : ℕ} (ha : a < 2 ^ 64) : correctAlign a = wantedAlign a := by
  unfold wantedAlign
  by_cases h0 : a = 0
  · rw [if_pos (.inl h0), h0]
    exact correctAlign_zero
  · by_cases hp : a = 2 ^ Nat.log2 a
    · rw [if_pos (.inr hp)]
      have hk : Nat.log2 a < 64 := (Nat.log2_lt h0).mpr ha
      rw [hp]
      exact correctAlign_two_pow _ hk
    · rw [if_neg (by tauto), correctAlign, sizeSub_eq (by omega) ha, if_pos]
      rw [Ne, Nat.and_sub_one_eq_zero_iff_isPowerOfTwo h0]
      rintro ⟨k, rfl⟩
      exact hp (by rw [Nat.log2_two_pow])

/-- The requested size rounded up, as a natural number. -/
def wantedSize (minSize : ℕ) : ℕ := ceil 4096 minSize

section Wanted

variable {pg : Paging} {v s a k : ℕ}

theorem wantedSize_le (hs : s < 2 ^ 64) : wantedSize s ≤ 2 ^ 64 := ceil_le (by norm_num) (by norm_num) hs.le

theorem wantedSize_dvd (s : ℕ) : 4096 ∣ wantedSize s := (ceil_spec (by norm_num) s).1

theorem wantedPage_le (hv : v < 2 ^ 64) : ceil 4096 (max v 65536) ≤ 2 ^ 64 :=
  ceil_le (by norm_num) (by norm_num) (by omega)

theorem wantedAddr_le (hk : k < 64) (hv : v < 2 ^ 64) : wantedAddr v (2 ^ k) ≤ 2 ^ 64 :=
  ceil_le (by positivity) (pow_dvd_pow 2 hk.le) (wantedPage_le hv)

theorem le_wantedAddr (v k : ℕ) : 65536 ≤ wantedAddr v (2 ^ k) := by
  have h1 := (ceil_spec (show 0 < 4096 by norm_num) (max v 65536)).2.1
  have h2 := (ceil_spec (show 0 < 2 ^ k by positivity) (ceil 4096 (max v 65536))).2.1
  unfold wantedAddr
  omega

theorem wantedAddr_dvd (v k : ℕ) : 2 ^ k ∣ wantedAddr v (2 ^ k) := (ceil_spec (by positivity) _).1

theorem page_dvd_cases (k : ℕ) : 4096 ∣ 2 ^ k ∨ 2 ^ k ∣ 4096 := by
  rw [show 4096 = 2 ^ 12 by norm_num]
  rcases le_total 12 k with h | h
  · exact .inl (pow_dvd_pow 2 h)
  · exact .inr (pow_dvd_pow 2 h)

theorem page_dvd_ceil {n : ℕ} (hn : 4096 ∣ n) (k : ℕ) : 4096 ∣ ceil (2 ^ k) n := by
  rcases page_dvd_cases k with h | h
  · exact h.trans (ceil_spec (by positivity) n).1
  · rwa [ceil_eq_self (by positivity) (h.trans hn)]

theorem page_dvd_floor {n : ℕ} (hn : 4096 ∣ n) (k : ℕ) : 4096 ∣ floor (2 ^ k) n := by
  rcases page_dvd_cases k with h | h
  · exact h.trans (floor_spec (by positivity) n).1
  · rw [Align.floor_eq_sub_mod, Nat.mod_eq_zero_of_dvd (h.trans hn), Nat.sub_zero]
    exact hn

theorem half_dvd (pg : Paging) : 4096 ∣ pg.halfSize := by
  rcases pg.sizes with h | h | h <;> rw [h.1] <;> norm_num

theorem settle_two_pow (hk : k < 64) (ha : correctAlign a = 2 ^ k) (hv : v < 2 ^ 64) (hs : s < 2 ^ 64) : settle pg v s a =
      if pg.halfSize < (wantedAddr v (2 ^ k) % 2 ^ 64 + wantedSize s % 2 ^ 64) % 2 ^ 64 then
        if floor (2 ^ k) ((pg.halfSize + (2 ^ 64 - wantedSize s % 2 ^ 64)) % 2 ^ 64) < 65536
        then none
        else some (floor (2 ^ k) ((pg.halfSize + (2 ^ 64 - wantedSize s % 2 ^ 64)) % 2 ^ 64),
          wantedSize s % 2 ^ 64)
      else some (wantedAddr v (2 ^ k) % 2 ^ 64, wantedSize s % 2 ^ 64) := by
  have haddr : alignVaddr (firstVaddr v) (2 ^ k) = wantedAddr v (2 ^ k) % 2 ^ 64 := by
    rw [firstVaddr_eq hv, alignVaddr_two_pow hk (Nat.mod_lt _ (by norm_num)),
      ceil_mod hk (wantedPage_le hv), wantedAddr]
  have hsize : roundPage s = wantedSize s % 2 ^ 64 := roundPage_eq hs
  have hsub : sizeSub pg.halfSize (wantedSize s % 2 ^ 64) =
      (pg.halfSize + (2 ^ 64 - wantedSize s % 2 ^ 64)) % 2 ^ 64 := by
    rw [sizeSub, Nat.mod_mod]
  rw [settle, ha, haddr, hsize, hsub, alignVaddrDown_two_pow hk (Nat.mod_lt _ (by norm_num)), sizeAdd]
  simp only [show ∀ n : ℕ, (n < 65536 ∨ n < 4096) = (n < 65536) from
    fun n => propext ⟨fun h => by omega, .inl⟩]

/-- `settle` for the alignment `0`: the address becomes `0`. -/
theorem settle_zero (hv : v < 2 ^ 64) (hs : s < 2 ^ 64) : settle pg v s 0 =
      if pg.halfSize < wantedSize s % 2 ^ 64 then none else some (0, wantedSize s % 2 ^ 64) := by
  have hfirst : firstVaddr v < 2 ^ 64 := by
    rw [firstVaddr_eq hv]
    exact Nat.mod_lt _ (by norm_num)
  have hsize : roundPage s = wantedSize s % 2 ^ 64 := roundPage_eq hs
  have hadd : sizeAdd 0 (wantedSize s % 2 ^ 64) = wantedSize s % 2 ^ 64 := by
    rw [sizeAdd, Nat.zero_add, Nat.mod_mod]
  rw [settle, correctAlign_zero, alignVaddr_zero hfirst, hsize, hadd,
    alignVaddrDown_zero (sizeSub_lt _ _)]
  simp

/-- Whatever `settle` decides on consists of whole pages, and the size is the requested one
    modulo `2 ^ 64`. -/
theorem settle_pages (hv : v < 2 ^ 64) (hs : s < 2 ^ 64) (ha : a < 2 ^ 64) {addr size : ℕ}
    (h : settle pg v s a = some (addr, size)) :
    4096 ∣ addr ∧ size = wantedSize s % 2 ^ 64 ∧ 4096 ∣ size := by
  have hword : 4096 ∣ 2 ^ 64 := by norm_num
  have hsize : 4096 ∣ wantedSize s % 2 ^ 64 :=
    (Nat.dvd_mod_iff hword).mpr (ceil_spec (by norm_num) s).1
  have hfirst : 4096 ∣ ceil 4096 (max v 65536) := (ceil_spec (by norm_num) _).1
  suffices 4096 ∣ addr ∧ size = wantedSize s % 2 ^ 64 from ⟨this.1, this.2, this.2 ▸ hsize⟩
  rcases correctAlign_cases ha with ⟨rfl, -⟩ | ⟨k, hk, hak, -⟩
  · rw [settle_zero hv hs] at h
    split_ifs at h
    cases h
    exact ⟨dvd_zero _, rfl⟩
  · rw [settle_two_pow hk hak hv hs] at h
    split_ifs at h
    · cases h
      refine ⟨page_dvd_floor ?_ k, rfl⟩
      exact (Nat.dvd_mod_iff hword).mpr ((half_dvd pg).add (Nat.dvd_sub hword hsize))
    · cases h
      exact ⟨(Nat.dvd_mod_iff hword).mpr (page_dvd_ceil hfirst k), rfl⟩

end Wanted

/-! ## Which requests are treated correctly -/

section Honoured

variable {pg : Paging} {v s a k : ℕ}

theorem requestHonoured_of_settled
    (h : ∀ addr size, settle pg v s a = some (addr, size) → Admissible pg s a addr) :
    RequestHonoured pg v s a := by
  refine ⟨h, fun hnone => ?_⟩
  cases hset : settle pg v s a with
  | none => rfl
  | some r => exact absurd ⟨r.1, h r.1 r.2 hset⟩ hnone

theorem requestHonoured_iff_refused (hbig : pg.halfSize < wantedSize s) : RequestHonoured pg v s a ↔ settle pg v s a = none := by
  have hno : ¬ ∃ addr, Admissible pg s a addr := by
    rintro ⟨addr, h⟩
    have := h.fits
    unfold wantedSize at hbig
    omega
  exact ⟨fun h => h.refused hno,
    fun h => requestHonoured_of_settled fun _ _ hs => by rw [h] at hs; exact absurd hs (by simp)⟩

theorem floor_low_iff {n : ℕ} (hn : 2 ^ 17 ≤ n) : floor (2 ^ k) n < 65536 ↔ n < 2 ^ k := by
  have hpos : 0 < 2 ^ k := by positivity
  constructor
  · intro hlow
    by_contra hle
    have hfloor := (floor_spec hpos n).2.2
    have hge : 2 ^ k ≤ floor (2 ^ k) n := Align.le_floor hpos dvd_rfl (not_lt.mp hle)
    omega
  · intro hlt
    rw [floor, Nat.div_eq_of_lt hlt, Nat.zero_mul]
    norm_num

section

variable (hk : k < 64) (ha : correctAlign a = 2 ^ k)

include hk ha

/-- A size that fits: the request is treated correctly unless the sum wraps. -/
theorem requestHonoured_fits (hak : ∀ j, a = 2 ^ j → a = 2 ^ k) (hv : v < 2 ^ 64) (hs : s < 2 ^ 64)
    (hfit : wantedSize s ≤ pg.halfSize) :
    RequestHonoured pg v s a ↔ wantedAddr v (2 ^ k) + wantedSize s < 2 ^ 64 := by
  have hsizes := pg.sizes
  have hVle := wantedAddr_le hk hv
  have hVge := le_wantedAddr v k
  have hS : wantedSize s % 2 ^ 64 = wantedSize s := Nat.mod_eq_of_lt (by omega)
  have hset := @settle_two_pow pg v s a k hk ha hv hs
  rw [hS] at hset
  constructor
  · intro h
    by_contra hwrap
    -- the wrapped sum passes the test, and the address is `0` or near the top
    have hsum : ¬ pg.halfSize < (wantedAddr v (2 ^ k) % 2 ^ 64 + wantedSize s) % 2 ^ 64 := by
      omega
    rw [if_neg hsum] at hset
    have hadm := h.settled _ _ hset
    have hlow := hadm.low
    have hfits : wantedAddr v (2 ^ k) % 2 ^ 64 + wantedSize s ≤ pg.halfSize := hadm.fits
    omega
  · intro hsum
    have hV : wantedAddr v (2 ^ k) % 2 ^ 64 = wantedAddr v (2 ^ k) := Nat.mod_eq_of_lt (by omega)
    have hadd : (wantedAddr v (2 ^ k) + wantedSize s) % 2 ^ 64 =
        wantedAddr v (2 ^ k) + wantedSize s := Nat.mod_eq_of_lt hsum
    have hsub : (pg.halfSize + (2 ^ 64 - wantedSize s)) % 2 ^ 64 = pg.halfSize - wantedSize s := by
      omega
    rw [hV, hadd, hsub] at hset
    refine requestHonoured_of_settled fun addr size hsome => ?_
    rw [hset] at hsome
    split_ifs at hsome with h1 h2
    · -- moved down to the end of the lower half
      cases hsome
      have hfloor := floor_spec (show 0 < 2 ^ k by positivity) (pg.halfSize - wantedSize s)
      have hpage : 4096 ∣ pg.halfSize - wantedSize s := Nat.dvd_sub (half_dvd pg) (wantedSize_dvd s)
      refine ⟨page_dvd_floor hpage k, fun j hj => ?_, by omega, ?_⟩
      · rw [hak j hj]
        exact hfloor.1
      · show _ + wantedSize s ≤ _
        omega
    · -- the rounded address
      cases hsome
      refine ⟨page_dvd_ceil (ceil_spec (by norm_num) _).1 k, fun j hj => ?_, hVge, ?_⟩
      · rw [hak j hj]
        exact wantedAddr_dvd v k
      · show _ + wantedSize s ≤ _
        omega

/-- A size beyond the lower half: the request is refused only if rounding down takes the address
    to `0`. Below `2 ^ 64` the address wraps to the top; `2 ^ 64` itself becomes `0`. -/
theorem settle_none_iff (hv : v < 2 ^ 64) (hs : s < 2 ^ 64) (hbig : pg.halfSize < wantedSize s) : settle pg v s a = none ↔
      if wantedSize s < 2 ^ 64 then 2 ^ 64 + pg.halfSize < 2 ^ k + wantedSize s
      else pg.halfSize < 2 ^ k ∧ wantedAddr v (2 ^ k) < 2 ^ 64 := by
  have hsizes := pg.sizes
  have hSle := wantedSize_le hs
  have hVle := wantedAddr_le hk hv
  have hVge := le_wantedAddr v k
  have hVk : 2 ^ k ≤ wantedAddr v (2 ^ k) := Nat.le_of_dvd (by omega) (wantedAddr_dvd v k)
  have hnone : settle pg v s a = none ↔
      pg.halfSize < (wantedAddr v (2 ^ k) % 2 ^ 64 + wantedSize s % 2 ^ 64) % 2 ^ 64 ∧
        (pg.halfSize + (2 ^ 64 - wantedSize s % 2 ^ 64)) % 2 ^ 64 < 2 ^ k := by
    rw [settle_two_pow hk ha hv hs, ← floor_low_iff (by omega)]
    split_ifs with hsum hlow
    · exact iff_of_true rfl ⟨hsum, hlow⟩
    · exact iff_of_false nofun fun h => hlow h.2
    · exact iff_of_false nofun fun h => hsum h.1
  rw [hnone]
  split_ifs <;> omega

end

end Honoured

/-- The requests that are treated correctly. With a size that fits, they are those with a non-zero
    alignment whose rounded address and size do not add up to `2 ^ 64`. With a size that cannot fit,
    they are those that an overflow does not keep from being refused. -/
theorem requestHonoured_iff (pg : Paging) (vaddrReq minSize minAlign : ℕ)
    (hv : vaddrReq < 2 ^ 64) (hs : minSize < 2 ^ 64) (ha : minAlign < 2 ^ 64) :
    RequestHonoured pg vaddrReq minSize minAlign ↔
      if wantedSize minSize ≤ pg.halfSize then
        minAlign ≠ 0 ∧
          wantedAddr vaddrReq (wantedAlign minAlign) + wantedSize minSize < 2 ^ 64
      else if wantedSize minSize < 2 ^ 64 then
        minAlign = 0 ∨
          2 ^ 64 + pg.halfSize < wantedAlign minAlign + wantedSize minSize
      else
        pg.halfSize < wantedAlign minAlign ∧
          wantedAddr vaddrReq (wantedAlign minAlign) < 2 ^ 64 := by
  have hSle := wantedSize_le hs
  rw [← correctAlign_eq_wantedAlign ha]
  rcases correctAlign_cases ha with ⟨rfl, hz⟩ | ⟨k, hk, hak, hpow⟩
  · have hset := @settle_zero pg _ _ hv hs
    rw [hz]
    split_ifs with hfit hlt
    · -- the address becomes `0`
      rw [Nat.mod_eq_of_lt (by rcases pg.sizes with h | h | h <;> omega), if_neg (by omega)] at hset
      refine ⟨fun h => ?_, fun h => absurd rfl h.1⟩
      exact absurd (h.settled _ _ hset).low (by norm_num)
    · rw [Nat.mod_eq_of_lt hlt, if_pos (by omega)] at hset
      rw [requestHonoured_iff_refused (by omega), hset]
      simp
    · rw [show wantedSize minSize % 2 ^ 64 = 0 by omega, if_neg (by omega)] at hset
      rw [requestHonoured_iff_refused (by omega), hset]
      simp
  · have h0 : minAlign ≠ 0 := by
      rintro rfl
      rw [correctAlign_zero] at hak
      exact absurd hak.symm (by positivity)
    rw [hak]
    split_ifs with hfit hlt
    · rw [requestHonoured_fits hk hak hpow hv hs hfit]
      exact ⟨fun h => ⟨h0, h⟩, fun h => h.2⟩
    · rw [requestHonoured_iff_refused (by omega), settle_none_iff hk hak hv hs (by omega),
        if_pos hlt]
      exact ⟨.inr, fun h => h.resolve_left h0⟩
    · rw [requestHonoured_iff_refused (by omega), settle_none_iff hk hak hv hs (by omega),
        if_neg hlt]

theorem requestHonoured_twoPages : RequestHonoured Paging.sv39 0x200000 8000 4096 := (requestHonoured_iff Paging.sv39 0x200000 8000 4096 (by norm_num) (by norm_num)
    (by norm_num)).mpr (by decide)

/-- The alignment `0` moves the mapping to address `0`. -/
theorem not_requestHonoured_align_zero : ¬ RequestHonoured Paging.sv39 0x200000 8000 0 := by
  intro h
  have hset : settle Paging.sv39 0x200000 8000 0 = some (0, 8192) := by decide
  exact absurd (h.settled _ _ hset).low (by norm_num)

/-- Of the other ways to go wrong: an address near `2 ^ 64`, a size that rounds to
    `2 ^ 64`, and a size beyond the lower half. -/
example :
    settle Paging.sv39 (2 ^ 64 - 4096) 8192 4096 = some (2 ^ 64 - 4096, 8192) ∧
      settle Paging.sv39 0 (2 ^ 64 - 1) 4096 = some (65536, 0) ∧
      settle Paging.sv39 0 (2 ^ 38 + 4096) 4096 = some (2 ^ 64 - 4096, 2 ^ 38 + 4096) := by
  decide

end BadgerOS.Process

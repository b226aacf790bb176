import BadgerOS.Common.Word
import Mathlib.Data.Nat.Log

/-!
# Bit operations of the allocator

Models of the helpers in `kernel/src/malloc/bitops.h` and of
`next_power_of_two` and `get_order` (`kernel/src/malloc/static-buddy.c`,
lines 122–147).

* `nextPowerOfTwo_eq`, `getOrder_eq`: for `n ≤ 2^63` the two functions compute
  `2^⌈log₂ n⌉` and `⌈log₂ n⌉`.
* `ffs32_spec`: `ffs32` of a non-zero word is one plus the index of a set bit.
-/

namespace BadgerOS.Malloc

open Nat

/-! ## `next_power_of_two` and `get_order` -/

/-- `next_power_of_two` (static-buddy.c, lines 122–137) with `__SIZEOF_SIZE_T__ == 8`. -/
def nextPowerOfTwo (x : ℕ) : ℕ :=
  if x ≤ 1 then 1
  else
    let x := x - 1
    let x := x ||| x >>> 1
    let x := x ||| x >>> 2
    let x := x ||| x >>> 4
    let x := x ||| x >>> 8
    let x := x ||| x >>> 16
    let x := x ||| x >>> 32
    sizeAdd x 1

/-- `count_leading_unset_bits64` (bitops.h): `__builtin_clzll`, or 64 for zero. -/
def countLeadingUnsetBits64 (x : ℕ) : ℕ := if x = 0 then 64 else 63 - Nat.log2 x

/-- `get_order` (static-buddy.c, lines 139–147) with `sizeof(size_t) == 8`. -/
def getOrder (size : ℕ) : ℕ :=
  let size := nextPowerOfTwo size
  if size > 0 then 63 - countLeadingUnsetBits64 size else 0

/-- `y` is `x` with every set bit copied to the `k - 1` positions below it. -/
def Smeared (x k y : ℕ) : Prop := ∀ i, y.testBit i = true ↔ ∃ j, i ≤ j ∧ j < i + k ∧ x.testBit j = true

theorem Smeared.one (x : ℕ) : Smeared x 1 x := by
  intro i
  constructor
  · intro h; exact ⟨i, le_rfl, by omega, h⟩
  · rintro ⟨j, h1, h2, h3⟩
    rwa [show i = j by omega]

/-- One line `x |= x >> k` doubles the length of the smear. -/
theorem Smeared.step {x k y : ℕ} (h : Smeared x k y) : Smeared x (2 * k) (y ||| y >>> k) := by
  intro i
  rw [testBit_or, testBit_shiftRight, Bool.or_eq_true, h i, h (k + i)]
  constructor
  · rintro (⟨j, h1, h2, h3⟩ | ⟨j, h1, h2, h3⟩)
    · exact ⟨j, h1, by omega, h3⟩
    · exact ⟨j, by omega, by omega, h3⟩
  · rintro ⟨j, h1, h2, h3⟩
    by_cases hj : j < i + k
    · exact .inl ⟨j, h1, hj, h3⟩
    · exact .inr ⟨j, by omega, by omega, h3⟩

/-- A full smear of a 64-bit number is all ones up to its highest set bit. -/
theorem Smeared.eq_ones {x y : ℕ} (h : Smeared x 64 y) (hx : x ≠ 0) (hlt : x < 2 ^ 64) : y = 2 ^ (Nat.log2 x + 1) - 1 := by
  apply eq_of_testBit_eq
  intro i
  rw [testBit_two_pow_sub_one, Bool.eq_iff_iff, decide_eq_true_iff, h i]
  have hlog : Nat.log2 x < 64 := (log2_lt hx).mpr hlt
  constructor
  · rintro ⟨j, h1, -, h3⟩
    have hj : j ≤ Nat.log2 x := (le_log2 hx).mpr (ge_two_pow_of_testBit h3)
    omega
  · intro hi
    exact ⟨Nat.log2 x, by omega, by omega, testBit_log2 hx⟩

theorem clog_eq_log2 {n : ℕ} (hn : 2 ≤ n) : Nat.clog 2 n = Nat.log2 (n - 1) + 1 := by
  have hx : n - 1 ≠ 0 := by omega
  apply le_antisymm
  · rw [clog_le_iff_le_pow (by norm_num)]
    have := (log2_lt hx).mp (lt_succ_self (Nat.log2 (n - 1)))
    simp only [succ_eq_add_one] at this
    omega
  · by_contra hlt
    have hle : n ≤ 2 ^ Nat.log2 (n - 1) := (clog_le_iff_le_pow (by norm_num)).mp (by omega)
    have := log2_self_le hx
    omega

/-- `next_power_of_two n` is `2^⌈log₂ n⌉`, as long as that fits in `size_t`. -/
theorem nextPowerOfTwo_eq {n : ℕ} (hn : n ≤ 2 ^ 63) : nextPowerOfTwo n = 2 ^ Nat.clog 2 n := by
  unfold nextPowerOfTwo
  split_ifs with h
  · rw [clog_of_right_le_one h, pow_zero]
  · have hx : n - 1 ≠ 0 := by omega
    have hs := (((((Smeared.one (n - 1)).step).step).step).step).step.step
    have hones := hs.eq_ones hx (by omega)
    have hlog : Nat.log2 (n - 1) < 63 := (log2_lt hx).mpr (by omega)
    have hpow : 2 ^ (Nat.log2 (n - 1) + 1) ≤ 2 ^ 63 := Nat.pow_le_pow_right (by norm_num) (by omega)
    have hpos : 1 ≤ 2 ^ (Nat.log2 (n - 1) + 1) := Nat.one_le_two_pow
    simp only [Nat.mul_one, reduceMul] at hones
    simp only [hones]
    rw [sizeAdd_eq (by omega), clog_eq_log2 (by omega)]
    omega

/-- `get_order n` is `⌈log₂ n⌉` for `n ≤ 2^63`. -/
theorem getOrder_eq {n : ℕ} (hn : n ≤ 2 ^ 63) : getOrder n = Nat.clog 2 n := by
  have hlt : Nat.clog 2 n ≤ 63 := (clog_le_iff_le_pow (by norm_num)).mpr hn
  have hpos : 0 < 2 ^ Nat.clog 2 n := Nat.two_pow_pos _
  simp only [getOrder, countLeadingUnsetBits64, nextPowerOfTwo_eq hn]
  rw [if_pos hpos, if_neg (by omega), log2_two_pow]
  omega

/-- `get_order n` is the least `k` with `n ≤ 2^k`. -/
theorem getOrder_le_iff {n k : ℕ} (hn : n ≤ 2 ^ 63) : getOrder n ≤ k ↔ n ≤ 2 ^ k := by
  rw [getOrder_eq hn, clog_le_iff_le_pow (by norm_num)]

theorem le_two_pow_getOrder {n : ℕ} (hn : n ≤ 2 ^ 63) : n ≤ 2 ^ getOrder n := (getOrder_le_iff hn).mp le_rfl

/-- A block of the next smaller order is too small for `n` pages. -/
theorem lt_of_getOrder_eq_succ {n k : ℕ} (hn : n ≤ 2 ^ 63) (h : getOrder n = k + 1) : 2 ^ k < n := by
  by_contra hle
  have := (getOrder_le_iff hn).mpr (not_lt.mp hle)
  omega

/-- A test of the software `clz64` (bitops.h, lines 104–127): the upper `k` bits of `x` are clear. -/
def clzTest (k : ℕ) : ℕ × ℕ → ℕ × ℕ
  | (x, n) => if x < 2 ^ (64 - k) then ((x <<< k) % 2 ^ 64, n + k) else (x, n)

/-- `clz64` (bitops.h, lines 100–130) without `__builtin_clzll`. -/
def softClz64 (x : ℕ) : ℕ :=
  if x = 0 then 64
  else (clzTest 1 (clzTest 2 (clzTest 4 (clzTest 8 (clzTest 16 (clzTest 32 (x, 0))))))).2

/-- `get_order` with the software `clz64`. -/
def softGetOrder (size : ℕ) : ℕ :=
  let size := nextPowerOfTwo size
  if size > 0 then 63 - softClz64 size else 0

-- `get_order` only counts the bits of powers of two
theorem softClz64_two_pow : ∀ k : Fin 64, softClz64 (2 ^ k.val) = 63 - k := by
  decide

/-- The order is the least one that fits, with either `clz64`. -/
theorem getOrder_isLeast {n : ℕ} (hn : n ≤ 2 ^ 63) : IsLeast {k | n ≤ 2 ^ k} (getOrder n) ∧
    nextPowerOfTwo n = 2 ^ getOrder n ∧ softGetOrder n = getOrder n := by
  have hlt : clog 2 n < 64 := lt_succ_of_le ((clog_le_iff_le_pow one_lt_two).mpr hn)
  refine ⟨⟨le_two_pow_getOrder hn, fun k hk => (getOrder_le_iff hn).mpr hk⟩, ?_, ?_⟩
  · rw [nextPowerOfTwo_eq hn, getOrder_eq hn]
  · have hclz := softClz64_two_pow ⟨clog 2 n, hlt⟩
    rw [getOrder_eq hn, softGetOrder, nextPowerOfTwo_eq hn, if_pos (Nat.two_pow_pos _), hclz]
    exact Nat.sub_sub_self (le_of_lt_succ hlt)

theorem getOrder_isLeast_five : IsLeast {k | 5 ≤ 2 ^ k} (getOrder 5) :=
  (getOrder_isLeast (n := 5) (by decide)).1

/-! ## `ffs32` -/

/-- The `while (x != 0)` loop of the software `ffs32` (bitops.h); a 32-bit word
    is shifted out after at most 32 turns. -/
def ffs32Loop : ℕ → BitVec 32 → ℕ → ℕ
  | 0, _, _ => 0
  | turns + 1, x, position =>
    if x = 0#32 then 0
    else if x &&& 1#32 ≠ 0#32 then position
    else ffs32Loop turns (x >>> 1) (position + 1)

/-- `ffs32` (bitops.h): one plus the index of the least significant set bit, or zero. -/
def ffs32 (x : BitVec 32) : ℕ := if x = 0#32 then 0 else ffs32Loop 32 x 1

/-- `find_first_trailing_set_bit32` (bitops.h). -/
def findFirstTrailingSetBit32 (word : BitVec 32) : ℕ := ffs32 word - 1

theorem ffs32Loop_spec (word : BitVec 32) : ∀ turns k, k + turns = 32 → word >>> k ≠ 0#32 →
      ∃ i, ffs32Loop turns (word >>> k) (k + 1) = i + 1 ∧ i < 32 ∧ word.getLsbD i = true := by
  intro turns
  induction turns with
  | zero =>
    intro k hk hne
    exfalso
    apply hne
    ext i hi
    simp only [BitVec.getElem_ushiftRight, BitVec.getElem_zero]
    exact BitVec.getLsbD_of_ge _ _ (by omega)
  | succ turns ih =>
    intro k hk hne
    rw [ffs32Loop, if_neg hne]
    split_ifs with hbit
    · refine ⟨k, rfl, by omega, ?_⟩
      by_contra hk0
      apply hbit
      ext i hi
      simp only [BitVec.getElem_and, BitVec.getElem_ushiftRight, BitVec.getElem_one,
        BitVec.getElem_zero]
      rcases Nat.eq_zero_or_pos i with rfl | hpos
      · simpa using hk0
      · simp; omega
    · -- the tested bit is clear, so a set bit remains above it
      have hbit0 : word.getLsbD k = false := by
        have := congrArg (fun v : BitVec 32 => v.getLsbD 0) (not_not.mp hbit)
        simpa using this
      rw [← BitVec.shiftRight_add]
      refine ih (k + 1) (by omega) fun hzero => hne ?_
      ext i hi
      simp only [BitVec.getElem_ushiftRight, BitVec.getElem_zero]
      rcases Nat.eq_zero_or_pos i with rfl | hpos
      · exact hbit0
      · have := congrArg (fun v : BitVec 32 => v.getLsbD (i - 1)) hzero
        simp only [BitVec.getLsbD_ushiftRight, BitVec.getLsbD_zero] at this
        rwa [show k + 1 + (i - 1) = k + i by omega] at this

/-- `ffs32` of a non-zero word points one past a set bit. -/
theorem findFirstTrailingSetBit32_spec {word : BitVec 32} (h : word ≠ 0#32) :
    findFirstTrailingSetBit32 word < 32 ∧ word.getLsbD (findFirstTrailingSetBit32 word) = true := by
  obtain ⟨i, h1, h2, h3⟩ := ffs32Loop_spec word 32 0 rfl (by simpa using h)
  simp only [BitVec.ushiftRight_zero, Nat.zero_add] at h1
  simp only [findFirstTrailingSetBit32, ffs32, if_neg h, h1, Nat.add_sub_cancel]
  exact ⟨h2, h3⟩

end BadgerOS.Malloc

import Mathlib.Tactic

/-!
# Memory copy and fill

Models of `memmove` and `memset` (`kernel/src/freestanding/string.c` lines 24–93) on a memory of
bytes. The width of the accesses is the lowest bit that is set in an address or in the size.

**Deviation.** `memset` stores the byte as a number of 2, 4 or 8 bytes, so that only the first
byte of each access gets the value, and the others become zero.
-/

namespace BadgerOS.Memory

open List

/-- Lines 49–56 and 82–89. -/
def accessWidth (alignDetector : ℕ) : ℕ :=
  if alignDetector &&& 1 ≠ 0 then 1
  else if alignDetector &&& 2 ≠ 0 then 2
  else if alignDetector &&& 4 ≠ 0 then 4
  else 8

/-- `len` bytes are stored at `addr`. -/
def store (mem : ℕ → UInt8) (addr len : ℕ) (bytes : ℕ → UInt8) : ℕ → UInt8 :=
  fun a => if addr ≤ a ∧ a < addr + len then bytes (a - addr) else mem a

/-- `dest_ptr[i] = src_ptr[i]`. -/
def copyOne (dest src width : ℕ) (mem : ℕ → UInt8) (i : ℕ) : ℕ → UInt8 :=
  store mem (dest + width * i) width fun k => mem (src + width * i + k)

/-- `MEM_COPY_IMPL`. -/
def memCopyImpl (mem : ℕ → UInt8) (width dest src size : ℕ) : ℕ → UInt8 :=
  if dest < src then (range (size / width)).foldl (copyOne dest src width) mem
  else if src < dest then (range (size / width)).reverse.foldl (copyOne dest src width) mem
  else mem

/-- The memory after `memmove`, and what it returns. -/
def memmove (mem : ℕ → UInt8) (dest src size : ℕ) : (ℕ → UInt8) × ℕ :=
  (memCopyImpl mem (accessWidth (dest ||| src ||| size)) dest src size, dest)

/-- `MEM_SET_IMPL`. The low byte of a number comes first in memory. -/
def memSetImpl (mem : ℕ → UInt8) (width dest : ℕ) (value : UInt8) (size : ℕ) : ℕ → UInt8 :=
  (range (size / width)).foldl (fun mem i =>
    store mem (dest + width * i) width fun k => if k = 0 then value else 0) mem

/-- The memory after `memset`, and what it returns. -/
def memset (mem : ℕ → UInt8) (dest : ℕ) (value : UInt8) (size : ℕ) : (ℕ → UInt8) × ℕ :=
  (memSetImpl mem (accessWidth (dest ||| size)) dest value size, dest)

theorem accessWidth_pos (x : ℕ) : 0 < accessWidth x := by
  unfold accessWidth
  split_ifs <;> omega

theorem accessWidth_dvd (x size : ℕ) : accessWidth (x ||| size) ∣ size := by
  have hbit (i : ℕ) (h : ¬ (x ||| size) &&& 2 ^ i ≠ 0) : size / 2 ^ i % 2 = 0 := by
    have hand := congrArg (Nat.testBit · i) (not_not.mp h)
    simp only [Nat.testBit_and, Nat.testBit_or, Nat.testBit_two_pow_self, Bool.and_true,
      Nat.zero_testBit, Bool.or_eq_false_iff] at hand
    simpa [Nat.testBit_eq_decide_div_mod_eq] using hand.2
  unfold accessWidth
  split_ifs with h0 h1 h2
  · exact one_dvd size
  · have := hbit 0 h0
    omega
  · have := hbit 0 h0
    have := hbit 1 h1
    omega
  · have := hbit 0 h0
    have := hbit 1 h1
    have := hbit 2 h2
    omega

variable {mem bytes : ℕ → UInt8} {dest src width : ℕ}

theorem store_zero : store mem dest 0 bytes = mem := funext fun _ => if_neg (by omega)

/-- Forwards, a store does not reach what is still to be read. -/
theorem foldl_copyOne (h : dest ≤ src) (n : ℕ) : (range n).foldl (copyOne dest src width) mem =
    store mem dest (width * n) fun k => mem (src + k) := by
  induction n with
  | zero => exact store_zero.symm
  | succ n ih =>
    rw [range_succ, foldl_append, ih]
    funext a
    simp only [foldl_cons, foldl_nil, copyOne, store, Nat.mul_succ]
    split_ifs <;> first | rfl | omega | congr 1; omega

theorem foldl_copyOne_reverse (h : src ≤ dest) (n : ℕ) :
    (range n).reverse.foldl (copyOne dest src width) mem =
      store mem dest (width * n) fun k => mem (src + k) := by
  induction n generalizing mem with
  | zero => exact store_zero.symm
  | succ n ih =>
    rw [range_succ, reverse_append, foldl_append, ih]
    funext a
    simp only [reverse_singleton, foldl_cons, foldl_nil, copyOne, store, Nat.mul_succ]
    split_ifs <;> first | rfl | omega | congr 1; omega

/-- `memmove` copies what the source held, changes nothing else and returns the destination. -/
theorem memmove_spec (mem : ℕ → UInt8) (dest src size : ℕ) :
    memmove mem dest src size = (store mem dest size fun k => mem (src + k), dest) := by
  have hsize := Nat.mul_div_cancel' (accessWidth_dvd (dest ||| src) size)
  rw [memmove, memCopyImpl]
  rcases lt_trichotomy dest src with hlt | rfl | hlt
  · rw [if_pos hlt, foldl_copyOne hlt.le, hsize]
  · rw [if_neg (lt_irrefl dest), if_neg (lt_irrefl dest)]
    refine Prod.ext (funext fun a => ?_) rfl
    simp only [store]
    split_ifs with h
    · rw [Nat.add_sub_of_le h.1]
    · rfl
  · rw [if_neg hlt.not_gt, if_pos hlt, foldl_copyOne_reverse hlt.le, hsize]

theorem memSetImpl_eq (hwidth : 0 < width) (value : UInt8) (size : ℕ) :
    memSetImpl mem width dest value size =
      store mem dest (width * (size / width)) fun k => if k % width = 0 then value else 0 := by
  unfold memSetImpl
  induction size / width with
  | zero => exact store_zero.symm
  | succ n ih =>
    rw [range_succ, foldl_append, ih]
    funext a
    simp only [foldl_cons, foldl_nil, store, Nat.mul_succ]
    by_cases hnew : dest + width * n ≤ a ∧ a < dest + width * n + width
    · have hmod : (a - dest) % width = a - (dest + width * n) := by
        rw [show a - dest = width * n + (a - (dest + width * n)) by omega, Nat.mul_add_mod,
          Nat.mod_eq_of_lt (by omega)]
      rw [if_pos hnew, hmod]
      exact (if_pos (by omega)).symm
    · rw [if_neg hnew]
      exact if_congr (by omega) rfl rfl

/-- Where `memset` fills the destination and changes nothing else. -/
theorem memset_fills_iff (mem : ℕ → UInt8) (dest : ℕ) (value : UInt8) (size : ℕ) :
    memset mem dest value size = (store mem dest size fun _ => value, dest) ↔
      value = 0 ∨ size = 0 ∨ dest % 2 = 1 ∨ size % 2 = 1 := by
  have hdvd := accessWidth_dvd dest size
  have hpos := accessWidth_pos (dest ||| size)
  have hodd : dest % 2 = 1 ∨ size % 2 = 1 ↔ accessWidth (dest ||| size) = 1 := by
    rw [← Nat.or_mod_two_eq_one, accessWidth, Nat.and_one_is_mod]
    split_ifs <;> omega
  rw [memset, memSetImpl_eq hpos, Nat.mul_div_cancel' hdvd, hodd]
  constructor
  · intro h
    by_contra! hno
    obtain ⟨hvalue, hsize, hwidth⟩ := hno
    have hle := Nat.le_of_dvd (by omega) hdvd
    -- the second byte of the destination
    have hin : dest ≤ dest + 1 ∧ dest + 1 < dest + size := by omega
    have hbyte := congrFun (congrArg Prod.fst h) (dest + 1)
    simp only [store] at hbyte
    rw [if_pos hin, if_pos hin, Nat.add_sub_cancel_left, Nat.mod_eq_of_lt (by omega),
      if_neg one_ne_zero] at hbyte
    exact hvalue hbyte.symm
  · rintro (rfl | rfl | hwidth)
    · simp only [ite_self]
    · rw [store_zero, store_zero]
    · simp only [hwidth, Nat.mod_one, if_true]

/-- Two bytes that are to become 1. -/
theorem not_memset_fills_two : memset (fun _ => 7) 4096 1 2 ≠
    (store (fun _ => 7) 4096 2 fun _ => 1, 4096) := by
  intro h
  exact absurd (congrFun (congrArg Prod.fst h) 4097) (by decide)

end BadgerOS.Memory

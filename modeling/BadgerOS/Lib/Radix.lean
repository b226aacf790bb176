import Mathlib.Tactic

/-!
# Digits and prefixes

A key `n` of a radix tree in base `b` is read from its most significant digit
down. At depth `k` (digits below `k` still to be read) its prefix is `n / b ^ k`
and the next digit is `digit b k n`.

* `div_pow_eq` and `same_iff`: a prefix is the shorter prefix with one digit
  appended, so two keys share a prefix when they share the shorter one and the
  digit.
* `same_mono`: keys that share a prefix share every shorter one.
* `repdigit`: the key whose digits are all equal.
-/

namespace Radix

/-- The digit of `n` with weight `b ^ k`. -/
def digit (b k n : ℕ) : ℕ := n / b ^ k % b

theorem digit_lt {b : ℕ} (hb : 0 < b) (k n : ℕ) : digit b k n < b := Nat.mod_lt _ hb

theorem div_pow_succ (b k n : ℕ) : n / b ^ (k + 1) = n / b ^ k / b := by
  rw [Nat.div_div_eq_div_mul, pow_succ]

/-- Appending the next digit to a prefix gives the longer prefix. -/
theorem div_pow_eq (b k n : ℕ) : n / b ^ k = n / b ^ (k + 1) * b + digit b k n := by
  rw [div_pow_succ, digit, Nat.mul_comm]
  exact (Nat.div_add_mod _ _).symm

/-- Two keys share a prefix iff they share the shorter prefix and the digit. -/
theorem same_iff (b k n m : ℕ) : n / b ^ k = m / b ^ k ↔
      n / b ^ (k + 1) = m / b ^ (k + 1) ∧ digit b k n = digit b k m := by
  constructor
  · intro h
    exact ⟨by rw [div_pow_succ, div_pow_succ, h], by rw [digit, digit, h]⟩
  · rintro ⟨hp, hd⟩
    rw [div_pow_eq b k n, div_pow_eq b k m, hp, hd]

theorem same_mono {b j k n m : ℕ} (hjk : j ≤ k) (h : n / b ^ j = m / b ^ j) : n / b ^ k = m / b ^ k := by
  induction hjk with
  | refl => exact h
  | step _ ih => exact ((same_iff b _ n m).mp ih).1

/-- Keys that share the prefix of depth `j` have the digits from `j` on in common. -/
theorem digit_eq_of_same {b j k n m : ℕ} (hjk : j ≤ k) (h : n / b ^ j = m / b ^ j) : digit b k n = digit b k m :=
  ((same_iff b k n m).mp (same_mono hjk h)).2

theorem mod_pow_succ (b k n : ℕ) : n % b ^ (k + 1) = n % b ^ k + digit b k n * b ^ k := by
  rw [Nat.mod_pow_succ, digit, Nat.mul_comm]

/-- `c` digits, all equal to `i`. -/
def repdigit (b i : ℕ) : ℕ → ℕ
  | 0 => 0
  | c + 1 => repdigit b i c * b + i

theorem repdigit_lt {b i : ℕ} (hi : i < b) (c : ℕ) : repdigit b i c < b ^ c := by
  induction c with
  | zero => simp [repdigit]
  | succ c ih =>
    rw [repdigit, pow_succ]
    calc repdigit b i c * b + i < repdigit b i c * b + b := by omega
      _ = (repdigit b i c + 1) * b := by ring
      _ ≤ b ^ c * b := Nat.mul_le_mul_right b ih

theorem digit_repdigit {b i : ℕ} (hi : i < b) {c k : ℕ} (hk : k < c) : digit b k (repdigit b i c) = i := by
  induction c generalizing k with
  | zero => omega
  | succ c ih =>
    have hb : 0 < b := by omega
    cases k with
    | zero =>
      rw [digit, repdigit, pow_zero, Nat.div_one, Nat.mul_add_mod_self_right, Nat.mod_eq_of_lt hi]
    | succ k =>
      have hdiv : repdigit b i (c + 1) / b ^ (k + 1) = repdigit b i c / b ^ k := by
        rw [repdigit, pow_succ', ← Nat.div_div_eq_div_mul, Nat.mul_comm, Nat.mul_add_div hb,
          Nat.div_eq_of_lt hi, Nat.add_zero]
      rw [digit, hdiv]
      exact ih (by omega)

/-- The lower part of a key, digit by digit. -/
theorem mod_pow_eq_sum {b j k : ℕ} (hjk : j ≤ k) (n : ℕ) :
    n % b ^ k = n % b ^ j + ∑ i ∈ Finset.Ico j k, digit b i n * b ^ i := by
  induction k, hjk using Nat.le_induction with
  | base => simp
  | succ k hle ih => rw [mod_pow_succ, ih, Finset.sum_Ico_succ_top hle, Nat.add_assoc]

/-- The low digits do not depend on what is added above them. -/
theorem digit_mul_pow_add {b j k : ℕ} (hjk : j < k) (m r : ℕ) : digit b j (b ^ k * m + r) = digit b j r := by
  rcases Nat.eq_zero_or_pos b with rfl | hb
  · rcases Nat.eq_zero_or_pos j with rfl | hj
    · simp [digit, Nat.zero_pow (by omega : 0 < k)]
    · simp [digit, Nat.zero_pow hj]
  · have hsplit : b ^ k * m = b ^ j * (b * (b ^ (k - j - 1) * m)) := by
      rw [← Nat.mul_assoc b, ← pow_succ', ← Nat.mul_assoc, ← pow_add]
      congr 2
      omega
    rw [digit, digit, hsplit, Nat.mul_add_div (by positivity), Nat.mul_add_mod]

end Radix

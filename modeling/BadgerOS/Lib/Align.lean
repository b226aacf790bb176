import Mathlib.Data.Nat.Bitwise
import Mathlib.Tactic

/-!
# Alignment

Rounding to multiples, and the mask expressions by which C code computes it for
powers of two.

* `ceil d n` and `floor d n`: the multiples of `d` around `n`, each with its
  three properties (`ceil_spec`, `floor_spec`) and its universal property
  (`ceil_le`, `le_floor`).
* `ceil_eq_add`: the form in which the distance to the next multiple is added.
-/

namespace Align

/-- The least multiple of `d` that is not below `n`. -/
def ceil (d n : ℕ) : ℕ := (n + (d - 1)) / d * d

/-- The greatest multiple of `d` that is not above `n`. -/
def floor (d n : ℕ) : ℕ := n / d * d

theorem ceil_spec {d : ℕ} (hd : 0 < d) (n : ℕ) : d ∣ ceil d n ∧ n ≤ ceil d n ∧ ceil d n < n + d := by
  have hdiv := Nat.div_add_mod (n + (d - 1)) d
  have hmod := Nat.mod_lt (n + (d - 1)) hd
  have hcomm : (n + (d - 1)) / d * d = d * ((n + (d - 1)) / d) := Nat.mul_comm _ _
  refine ⟨Dvd.intro_left _ rfl, ?_, ?_⟩ <;> unfold ceil <;> omega

theorem ceil_le {d n m : ℕ} (hd : 0 < d) (hm : d ∣ m) (h : n ≤ m) : ceil d n ≤ m := by
  obtain ⟨q, rfl⟩ := hm
  have hq : (n + (d - 1)) / d ≤ q := by
    rw [← Nat.lt_succ_iff, Nat.div_lt_iff_lt_mul hd, Nat.succ_mul, Nat.mul_comm q d]
    omega
  rw [ceil, Nat.mul_comm d q]
  exact Nat.mul_le_mul_right d hq

theorem ceil_eq_self {d n : ℕ} (hd : 0 < d) (h : d ∣ n) : ceil d n = n :=
  le_antisymm (ceil_le hd h le_rfl) (ceil_spec hd n).2.1

/-- The next multiple is reached by adding what the remainder leaves over. -/
theorem ceil_eq_add {d n : ℕ} (hd : 0 < d) (h : n % d ≠ 0) : ceil d n = n + (d - n % d) := by
  obtain ⟨hdvd, hle, hlt⟩ := ceil_spec hd n
  have hmod := Nat.mod_lt n hd
  have hup : d ∣ n + (d - n % d) := by
    have hself := Nat.div_add_mod n d
    refine ⟨n / d + 1, ?_⟩
    rw [Nat.mul_add, Nat.mul_one]
    omega
  -- both are multiples of `d` in the same half-open window of length `d`
  exact le_antisymm (ceil_le hd hup (by omega)) (Nat.le_of_lt_add_of_dvd (by omega) hup hdvd)

theorem floor_spec {d : ℕ} (hd : 0 < d) (n : ℕ) : d ∣ floor d n ∧ floor d n ≤ n ∧ n < floor d n + d := by
  have hdiv := Nat.div_add_mod n d
  have hmod := Nat.mod_lt n hd
  have hcomm : n / d * d = d * (n / d) := Nat.mul_comm _ _
  refine ⟨Dvd.intro_left _ rfl, ?_, ?_⟩ <;> unfold floor <;> omega

theorem le_floor {d n m : ℕ} (hd : 0 < d) (hm : d ∣ m) (h : m ≤ n) : m ≤ floor d n := by
  obtain ⟨q, rfl⟩ := hm
  rw [floor, Nat.mul_comm d q]
  exact Nat.mul_le_mul_right d ((Nat.le_div_iff_mul_le hd).mpr (by rwa [Nat.mul_comm]))

theorem floor_eq_sub_mod (d n : ℕ) : floor d n = n - n % d := by
  have := Nat.div_add_mod n d
  have hcomm : n / d * d = d * (n / d) := Nat.mul_comm _ _
  unfold floor
  omega

end Align

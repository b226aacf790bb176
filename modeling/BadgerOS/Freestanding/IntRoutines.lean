import Mathlib.Data.BitVec
import Mathlib.Tactic

/-!
# Integer routines

Models of the multiplications and shifts of `kernel/src/freestanding/int_routines.c` for operands
of `w` bits.
-/

namespace BadgerOS.IntRoutines

open BitVec

variable {w : ℕ}

/-- The second operand of the routines of `FAKE_OPER`. -/
def masked (b : BitVec w) : BitVec w :=
  b &&& BitVec.ofNat w (w - 1)

/-- `__ashl*`. -/
def ashl (a b : BitVec w) : BitVec w :=
  a <<< masked b

/-- `__ashr*`. -/
def ashr (a b : BitVec w) : BitVec w :=
  a.sshiftRight' (masked b)

/-- `__lshr*`: the operand is signed here too. -/
def lshr (a b : BitVec w) : BitVec w :=
  a.sshiftRight' (masked b)

/-- `__muldi3` and `__multi3`. -/
def mul (a b : BitVec w) : BitVec w :=
  a * masked b

/-- The rounds of `__mulsi3`. -/
def mulLoop : ℕ → BitVec w → BitVec w → BitVec w → BitVec w
  | 0, _, _, res => res
  | n + 1, a, b, res =>
    mulLoop n (a <<< 1) (b.sshiftRight 1) (if b &&& 1 ≠ 0 then res + a else res)

/-- `__mulsi3`. -/
def mulsi3 (a b : BitVec 32) : BitVec 32 :=
  mulLoop 32 a b 0

theorem sshiftRight_shiftLeft_add (b : BitVec 32) :
    b.sshiftRight 1 <<< 1 + (b &&& 1) = b := by
  rw [add_eq_or_of_and_eq_zero]
  · ext i hi
    rcases i with _ | i
    · simp
    · simp [getElem_sshiftRight, getElem_one, Nat.add_comm, hi]
  · ext i hi
    rcases i with _ | i
    · simp
    · simp [getElem_one]

theorem mulLoop_eq {n : ℕ} {a b res : BitVec 32} (h : a <<< n = 0) :
    mulLoop n a b res = res + a * b := by
  induction n generalizing a b res with
  | zero => simp [mulLoop, show a = 0 by simpa using h]
  | succ n ih =>
    have hb := sshiftRight_shiftLeft_add b
    have hbit : b &&& 1 = if b.getLsbD 0 then 1 else 0 := by
      refine and_one_eq_setWidth_ofBool_getLsbD.trans ?_
      rcases b.getLsbD 0 <;> rfl
    rw [mulLoop, ih (by rw [← shiftLeft_add, Nat.add_comm, h])]
    rw [shiftLeft_eq_mul_twoPow] at hb ⊢
    split_ifs at hbit <;> rw [hbit] at hb ⊢
    · rw [if_pos (by decide)]
      linear_combination a * hb
    · rw [if_neg (by decide)]
      linear_combination a * hb

theorem masked_of_lt {k : ℕ} (hw : w = 2 ^ k) {b : BitVec w} (hb : b.toNat < w) :
    masked b = b := by
  refine eq_of_toNat_eq ?_
  rw [masked, toNat_and, toNat_ofNat, Nat.mod_eq_of_lt (by have := @Nat.lt_two_pow_self w; omega)]
  subst hw
  rw [Nat.and_two_pow_sub_one_eq_mod, Nat.mod_eq_of_lt hb]

end BadgerOS.IntRoutines

import Mathlib.Tactic

/-!
# Machine integers

The kernel is modelled for riscv64 (LP64): `size_t` is 64 bits wide, `int` and
`uint32_t` are 32 bits wide. A `size_t` is a natural number and the operations
that can leave its range are reduced explicitly.

The buddy allocator computes block sizes with the expression `1 << order`. The
literal `1` is an `int`, so the shift is a 32-bit shift that is then converted
(sign-extended) to `size_t`. C leaves the result undefined from `order = 31` on;
the model takes what the `sllw` instruction of the target computes. For
`order ≤ 30` all readings agree (`sizeShl_eq`).
-/

namespace BadgerOS

/-- `a + b` on `size_t`. -/
def sizeAdd (a b : ℕ) : ℕ := (a + b) % 2 ^ 64

/-- `a - b` on `size_t`. -/
def sizeSub (a b : ℕ) : ℕ := (a + (2 ^ 64 - b % 2 ^ 64)) % 2 ^ 64

/-- The `int` value of `1 << k`. -/
def intShl (k : ℕ) : BitVec 32 := 1#32 <<< (k % 32)

/-- `(size_t)(1 << k)`. -/
def sizeShl (k : ℕ) : ℕ := ((intShl k).signExtend 64).toNat

/-- `(uint32_t)(1 << k)`. -/
def uintShl (k : ℕ) : ℕ := (intShl k).toNat

/-- `a - b` on `uint32_t`. -/
def uintSub (a b : ℕ) : ℕ := (a + (2 ^ 32 - b % 2 ^ 32)) % 2 ^ 32

theorem sizeAdd_lt (a b : ℕ) : sizeAdd a b < 2 ^ 64 := Nat.mod_lt _ (by norm_num)

theorem sizeSub_lt (a b : ℕ) : sizeSub a b < 2 ^ 64 := Nat.mod_lt _ (by norm_num)

theorem sizeAdd_eq {a b : ℕ} (h : a + b < 2 ^ 64) : sizeAdd a b = a + b := Nat.mod_eq_of_lt h

theorem sizeSub_eq {a b : ℕ} (hb : b ≤ a) (ha : a < 2 ^ 64) : sizeSub a b = a - b := by
  unfold sizeSub
  omega

theorem uintSub_eq {a b : ℕ} (hb : b ≤ a) (ha : a < 2 ^ 32) : uintSub a b = a - b := by
  unfold uintSub
  omega

/-- `1 << k` is `2^k` as long as the shift is defined in C. -/
theorem sizeShl_eq {k : ℕ} (hk : k ≤ 30) : sizeShl k = 2 ^ k := by
  interval_cases k <;> rfl

theorem uintShl_eq {k : ℕ} (hk : k ≤ 30) : uintShl k = 2 ^ k := by
  interval_cases k <;> rfl

/-- The first shift that C leaves undefined: the target produces a number
    far above every page index. -/
example : sizeShl 31 = 2 ^ 64 - 2 ^ 31 ∧ sizeShl 32 = 1 := by decide

end BadgerOS

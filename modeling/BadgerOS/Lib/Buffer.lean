import Mathlib.Tactic

/-!
# Buffers

A buffer is a list of fixed length that is read and written at offsets.

* `store`, `load`: writing and reading part of a buffer. What falls outside is
  dropped.
* `length_store`, `take_store`, `load_take`: a write inside the first `len` elements is
  a write to those.
* `toLE`, `ofLE`: numbers of a fixed number of bytes, least significant byte first.
-/

namespace Buffer

open List

section

variable {α : Type*}

/-- `buf` with `xs` stored from `off` on. -/
def store (buf : List α) (off : ℕ) (xs : List α) : List α :=
  buf.take off ++ (xs.take (buf.length - off) ++ buf.drop (off + xs.length))

/-- The `n` elements of `buf` from `off` on. -/
def load (buf : List α) (off n : ℕ) : List α := (buf.drop off).take n

variable {buf xs : List α} {off n len : ℕ}

theorem store_eq (h : off + xs.length ≤ buf.length) :
    store buf off xs = buf.take off ++ (xs ++ buf.drop (off + xs.length)) := by
  have hxs : xs.take (buf.length - off) = xs := take_of_length_le (by omega)
  rw [store, hxs]

@[simp] theorem length_store (h : off ≤ buf.length) : (store buf off xs).length = buf.length := by
  simp only [store, length_append, length_take, length_drop]
  omega

theorem store_nil (buf : List α) (off : ℕ) : store buf off [] = buf := by
  simp [store]

theorem take_store (h : off + xs.length ≤ len) (hlen : len ≤ buf.length) :
    (store buf off xs).take len = store (buf.take len) off xs := by
  have hlen' : (buf.take len).length = len := by
    rw [length_take]
    omega
  have hpre : (buf.take off).length = off := by
    rw [length_take]
    omega
  -- the write ends before `len`, so cutting at `len` only shortens the last part
  have hcut : ((buf.take off ++ xs) ++ buf.drop (off + xs.length)).take len =
      (buf.take off ++ xs) ++ (buf.drop (off + xs.length)).take (len - (off + xs.length)) := by
    rw [take_append, length_append, hpre, take_of_length_le (by rw [length_append, hpre]; exact h)]
  rw [store_eq (by omega), store_eq (by omega), take_take, min_eq_left (by omega),
    ← append_assoc, ← append_assoc, hcut, drop_take]

theorem take_store_add (h : off + n ≤ buf.length) (hn : n ≤ xs.length) :
    (store buf off xs).take (off + n) = buf.take off ++ xs.take n := by
  have hpre : (buf.take off).length = off := by
    rw [length_take]
    omega
  have hwritten : n ≤ (xs.take (buf.length - off)).length := by
    rw [length_take]
    omega
  rw [store, take_append, hpre, Nat.add_sub_cancel_left, take_take,
    min_eq_right (by omega), take_append_of_le_length hwritten, take_take,
    min_eq_left (by omega)]

theorem take_store_end (h : off + xs.length ≤ buf.length) :
    (store buf off xs).take (off + xs.length) = buf.take off ++ xs := by
  rw [take_store_add h le_rfl, take_length]

theorem load_take (h : off + n ≤ len) : load (buf.take len) off n = load buf off n := by
  rw [load, load, drop_take, take_take, min_eq_left (by omega)]

end

/-! ## Numbers in bytes -/

/-- The `w` bytes of `n`, least significant byte first. -/
def toLE : ℕ → ℕ → List UInt8
  | 0, _ => []
  | w + 1, n => UInt8.ofNat n :: toLE w (n / 256)

/-- The number with the given bytes, least significant byte first. -/
def ofLE : List UInt8 → ℕ
  | [] => 0
  | b :: bs => b.toNat + 256 * ofLE bs

@[simp] theorem length_toLE (w n : ℕ) : (toLE w n).length = w := by
  induction w generalizing n with
  | zero => rfl
  | succ w ih => simp [toLE, ih]

theorem ofLE_toLE {w n : ℕ} (h : n < 256 ^ w) : ofLE (toLE w n) = n := by
  induction w generalizing n with
  | zero =>
    have : n = 0 := by simpa using h
    rw [this]
    rfl
  | succ w ih =>
    have hdiv : n / 256 < 256 ^ w := by
      rw [Nat.div_lt_iff_lt_mul (by norm_num), ← pow_succ]
      exact h
    rw [toLE, ofLE, ih hdiv, UInt8.toNat_ofNat']
    omega

end Buffer

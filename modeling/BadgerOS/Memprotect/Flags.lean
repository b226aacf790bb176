import Mathlib.Tactic

/-!
# Protection flags

The flags of `kernel/include/memprotect.h`, and the accesses that the access bits
among them allow.
-/

namespace BadgerOS.Memprotect

/-- The access bits of a mapping (`MEMPROTECT_FLAG_R`, `_W` and `_X`). -/
structure Rwx where
  r : Bool
  w : Bool
  x : Bool
deriving DecidableEq, Repr

/-- The protection flags (`kernel/include/memprotect.h` lines 9–22). The bits of
    the flag word that no macro names are read by no function. -/
structure Flags extends Rwx where
  global : Bool
  kernel : Bool
  io : Bool
  nc : Bool
deriving DecidableEq, Repr

/-- The kinds of access that the access bits allow. -/
inductive Access
  | read
  | write
  | exec
deriving DecidableEq, Repr

namespace Rwx

/-- No access. -/
def zero : Rwx := ⟨false, false, false⟩

/-- `MEMPROTECT_FLAG_RWX`. -/
def all : Rwx := ⟨true, true, true⟩

/-- `flags & MEMPROTECT_FLAG_RWX` as a condition. -/
def any (a : Rwx) : Bool := a.r || a.w || a.x

/-- `a & b`. -/
def inter (a b : Rwx) : Rwx := ⟨a.r && b.r, a.w && b.w, a.x && b.x⟩

def allows (a : Rwx) : Access → Bool
  | .read => a.r
  | .write => a.w
  | .exec => a.x

theorem ext_allows {a b : Rwx} (h : ∀ k, a.allows k = b.allows k) : a = b := by
  obtain ⟨ar, aw, ax⟩ := a
  obtain ⟨br, bw, bx⟩ := b
  have hr : ar = br := h .read
  have hw : aw = bw := h .write
  have hx : ax = bx := h .exec
  rw [hr, hw, hx]

@[simp] theorem allows_inter (a b : Rwx) (k : Access) :
    (a.inter b).allows k = (a.allows k && b.allows k) := by
  cases k <;> rfl

@[simp] theorem allows_zero (k : Access) : zero.allows k = false := by cases k <;> rfl

@[simp] theorem allows_all (k : Access) : all.allows k = true := by cases k <;> rfl

theorem any_eq_true_iff (a : Rwx) : a.any = true ↔ ∃ k, a.allows k = true := by
  constructor
  · intro h
    rcases (by simpa [any] using h : (a.r = true ∨ a.w = true) ∨ a.x = true) with (h | h) | h
    · exact ⟨.read, h⟩
    · exact ⟨.write, h⟩
    · exact ⟨.exec, h⟩
  · rintro ⟨k, hk⟩
    cases k <;> simp_all [any, allows]

theorem eq_zero_of_any {a : Rwx} (h : a.any = false) : a = zero := by
  obtain ⟨r, w, x⟩ := a
  revert h
  cases r <;> cases w <;> cases x <;> decide

end Rwx

/-- The flag word `0`. -/
def Flags.zero : Flags := ⟨Rwx.zero, false, false, false, false⟩

end BadgerOS.Memprotect

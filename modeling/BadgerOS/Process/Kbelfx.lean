import Mathlib.Tactic

/-!
# Loading a program

Model of `kbelfx_load` (`kernel/src/process/kbelfx.c` lines 170–188) for a length that is not
negative and a regular file that is open for reading. `malloc` returns a buffer with any contents.

**Deviation.** A chunk is copied to the process in full, however few bytes `fs_read` has read.
Behind the end of the file the process gets what was in the heap of the kernel.
-/

namespace BadgerOS.Kbelfx

/-- What the loop works on: the bytes of the file from the offset on, the buffer, the memory of the
    process, and the two variables. -/
structure Load where
  rest : List UInt8
  tmp : ℕ → UInt8
  mem : ℕ → UInt8
  laddr : ℕ
  total : ℕ

variable (access : ℕ → Bool) (cap : ℕ)

/-- `fs_read` and `copy_to_user_raw` (lines 179–181, 184–185). Nothing is copied if the process
    may not access all of the addresses. -/
def copyChunk (s : Load) (len : ℕ) : Load :=
  let tmp := fun i => (s.rest.take len).getD i (s.tmp i)
  { rest := s.rest.drop len
    tmp
    mem := fun a => if (∀ i < len, access (s.laddr + i)) ∧ s.laddr ≤ a ∧ a < s.laddr + len then
      tmp (a - s.laddr) else s.mem a
    laddr := s.laddr + len
    total := s.total + (s.rest.take len).length }

/-- Lines 178–185. A round takes a unit of fuel, and at least one byte of `len`. -/
def loadLoop : ℕ → ℕ → Load → Load
  | fuel + 1, len, s =>
    if len > cap then loadLoop fuel (len - cap) (copyChunk access s cap)
    else copyChunk access s len
  | 0, len, s => copyChunk access s len

def kbelfxLoad (memmapVmem : Bool) (len : ℕ) (s : Load) : Load :=
  loadLoop access (min (if memmapVmem then 2097152 else 16384) len) len len s

/-- From `s` to `t` the process gets the next `n` bytes of the file and nothing else. -/
structure Stores (s : Load) (n : ℕ) (t : Load) : Prop where
  le : n ≤ s.rest.length
  total : t.total = s.total + n
  mem : ∀ a, t.mem a =
    if s.laddr ≤ a ∧ a < s.laddr + n then s.rest.getD (a - s.laddr) 0 else s.mem a

variable {access cap} {s t : Load} {len : ℕ}

theorem stores_copyChunk (haccess : ∀ i < len, access (s.laddr + i)) (hlen : len ≤ s.rest.length) :
    Stores s len (copyChunk access s len) := by
  refine ⟨hlen, by simp [copyChunk, hlen], fun a => ?_⟩
  simp only [copyChunk, and_iff_right haccess]
  refine if_ctx_congr .rfl (fun ha => ?_) fun _ => rfl
  have hlt : a - s.laddr < len ∧ a - s.laddr < s.rest.length := by omega
  simp [hlt]

theorem Stores.append {n : ℕ} (h : Stores s cap (copyChunk access s cap)) (hn : cap + n = len)
    (h' : Stores (copyChunk access s cap) n t) : Stores s len t := by
  subst hn
  have hle := h.le
  have hle' : n ≤ s.rest.length - cap := by simpa [copyChunk] using h'.le
  refine ⟨by omega, by rw [h'.total, h.total, Nat.add_assoc], fun a => ?_⟩
  rw [h'.mem, h.mem]
  simp only [copyChunk, List.getD_eq_getElem?_getD, List.getElem?_drop]
  split_ifs <;> first | rfl | omega | skip
  congr 3
  omega

theorem stores_loadLoop (fuel : ℕ) (haccess : ∀ i < len, access (s.laddr + i))
    (hlen : len ≤ s.rest.length) : Stores s len (loadLoop access cap fuel len s) := by
  induction fuel generalizing len s with
  | zero => exact stores_copyChunk haccess hlen
  | succ fuel ih =>
    rw [loadLoop]
    split_ifs with hlt
    · have hchunk : Stores s cap (copyChunk access s cap) :=
        stores_copyChunk (fun i hi => haccess i (by omega)) (by omega)
      refine hchunk.append (by omega) (ih (fun i hi => ?_) ?_)
      · rw [copyChunk, Nat.add_assoc]
        exact haccess _ (by omega)
      · rw [copyChunk, List.length_drop]
        omega
    · exact stores_copyChunk haccess hlen

end BadgerOS.Kbelfx

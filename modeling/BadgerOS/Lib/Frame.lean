import Mathlib.Data.List.GetD
import BadgerOS.Lib.Buffer

/-!
# Register frames in memory

A frame is a row of words in byte-addressed memory. A table says which register is kept in
which slot of the frame.

* `read`, `write`: one word, least significant byte first.
* `save`: the registers of a table are written to their slots. `save_of_not_mem`: only the frame
  is written.
* `restore`: the registers of a table are read from their slots.
* `restore_save`: what was saved is restored.
-/

namespace Frame

open List Prod

/-! ## Words -/

/-- The word of `w` bytes at the address `a`. -/
def read (mem : ℕ → UInt8) (w a : ℕ) : ℕ :=
  Buffer.ofLE ((List.range w).map fun i => mem (a + i))

/-- Memory after the word of `w` bytes at the address `a` was set to `v`. -/
def write (mem : ℕ → UInt8) (w a v : ℕ) : ℕ → UInt8 := fun b =>
  if a ≤ b ∧ b < a + w then (Buffer.toLE w v).getD (b - a) 0 else mem b

variable {mem mem' : ℕ → UInt8} {w a v : ℕ}

theorem write_of_lt {b : ℕ} (h : b < a) : write mem w a v b = mem b := if_neg (by omega)

theorem write_of_le {b : ℕ} (h : a + w ≤ b) : write mem w a v b = mem b := if_neg (by omega)

theorem read_congr (h : ∀ i < w, mem (a + i) = mem' (a + i)) : read mem w a = read mem' w a := by
  rw [read, read]
  congr 1
  exact map_congr_left fun i hi => h i (mem_range.1 hi)

theorem read_write (h : v < 256 ^ w) : read (write mem w a v) w a = v := by
  have hbytes : (List.range w).map (fun i => write mem w a v (a + i)) = Buffer.toLE w v := by
    refine ext_getElem (by simp) fun i hi hi' => ?_
    rw [Buffer.length_toLE] at hi'
    rw [getElem_map, getElem_range, write, if_pos (by omega), Nat.add_sub_cancel_left,
      getD_eq_getElem]
  rw [read, hbytes, Buffer.ofLE_toLE h]

theorem read_eq_zero (h : ∀ b, a ≤ b → mem b = 0) : read mem w a = 0 := by
  have hzero : ∀ bytes : List UInt8, (∀ b ∈ bytes, b = 0) → Buffer.ofLE bytes = 0 := by
    intro bytes hbytes
    induction bytes with
    | nil => rfl
    | cons b bytes ih =>
      rw [Buffer.ofLE, hbytes b mem_cons_self, ih fun c hc => hbytes c (mem_cons_of_mem b hc)]
      rfl
  refine hzero _ fun b hb => ?_
  obtain ⟨i, -, rfl⟩ := mem_map.1 hb
  exact h _ (Nat.le_add_right a i)

/-! ## Frames -/

section

variable {ρ : Type*} {table : List (ℕ × ρ)} {base slots : ℕ}

/-- Memory after the registers of the table were written to their slots. -/
def save (mem : ℕ → UInt8) (w base : ℕ) (regs : ρ → ℕ) : List (ℕ × ρ) → ℕ → UInt8
  | [] => mem
  | (slot, r) :: rest => save (write mem w (base + slot * w) (regs r)) w base regs rest

/-- The slots of the table lie in the frame. -/
def Fits (slots : ℕ) (table : List (ℕ × ρ)) : Prop := ∀ entry ∈ table, entry.1 < slots

variable {slot : ℕ} {r : ρ} {regs : ρ → ℕ}

theorem slot_end (h : slot < slots) : slot * w + w ≤ slots * w := by
  rw [← Nat.succ_mul]
  exact Nat.mul_le_mul_right w h

/-- Only the frame is written. -/
theorem save_of_not_mem (regs : ρ → ℕ) (hfits : Fits slots table) {b : ℕ}
    (hb : b < base ∨ base + slots * w ≤ b) : save mem w base regs table b = mem b := by
  induction table generalizing mem with
  | nil => rfl
  | cons entry rest ih =>
    obtain ⟨slot, r⟩ := entry
    have hslot := slot_end (w := w) (hfits (slot, r) mem_cons_self)
    rw [save, ih fun entry hmem => hfits entry (mem_cons_of_mem _ hmem)]
    rcases hb with hb | hb
    · exact write_of_lt (by omega)
    · exact write_of_le (by simp only at hslot; omega)

/-- A slot that is not in the table is not written. -/
theorem read_save_of_not_mem (regs : ρ → ℕ) (h : slot ∉ table.map fst) :
    read (save mem w base regs table) w (base + slot * w) = read mem w (base + slot * w) := by
  induction table generalizing mem with
  | nil => rfl
  | cons entry rest ih =>
    obtain ⟨other, r⟩ := entry
    rw [map_cons, mem_cons, not_or] at h
    rw [save, ih h.2]
    refine read_congr fun i hi => ?_
    rcases Nat.lt_or_gt_of_ne h.1 with hlt | hgt
    · have := slot_end (w := w) hlt
      exact write_of_lt (by simp only at this ⊢; omega)
    · have := slot_end (w := w) hgt
      exact write_of_le (by simp only at this ⊢; omega)

/-- The slot of a register has its value. -/
theorem read_save (hregs : ∀ r, regs r < 256 ^ w) (hnodup : (table.map fst).Nodup) (hmem : (slot, r) ∈ table) :
    read (save mem w base regs table) w (base + slot * w) = regs r := by
  induction table generalizing mem with
  | nil => contradiction
  | cons entry rest ih =>
    obtain ⟨other, q⟩ := entry
    rw [map_cons, nodup_cons] at hnodup
    rw [save]
    rcases mem_cons.1 hmem with heq | hmem
    · cases heq
      rw [read_save_of_not_mem regs hnodup.1, read_write (hregs r)]
    · exact ih hnodup.2 hmem

/-- The registers after those of the table were read from their slots. -/
def restore [DecidableEq ρ] (mem : ℕ → UInt8) (w base : ℕ) (regs : ρ → ℕ) :
    List (ℕ × ρ) → ρ → ℕ
  | [] => regs
  | (slot, r) :: rest =>
    restore mem w base (Function.update regs r (read mem w (base + slot * w))) rest

variable [DecidableEq ρ]

theorem restore_of_not_mem (mem : ℕ → UInt8) (w base : ℕ) (h : r ∉ table.map snd) :
    restore mem w base regs table r = regs r := by
  induction table generalizing regs with
  | nil => rfl
  | cons entry rest ih =>
    rw [map_cons, mem_cons, not_or] at h
    rw [restore, ih h.2, Function.update_of_ne h.1]

theorem restore_of_mem (hnodup : (table.map snd).Nodup) (hmem : (slot, r) ∈ table) :
    restore mem w base regs table r = read mem w (base + slot * w) := by
  induction table generalizing regs with
  | nil => contradiction
  | cons entry rest ih =>
    obtain ⟨other, q⟩ := entry
    rw [map_cons, nodup_cons] at hnodup
    rcases mem_cons.1 hmem with heq | hmem
    · cases heq
      rw [restore, restore_of_not_mem mem w base hnodup.1, Function.update_self]
    · exact ih hnodup.2 hmem

/-- What was saved is restored from a frame that has not changed since. -/
theorem restore_save (later : ρ → ℕ) (hregs : ∀ r, regs r < 256 ^ w)
    (hslots : (table.map fst).Nodup) (hnames : (table.map snd).Nodup)
    (hfits : Fits slots table)
    (hkept : ∀ b, base ≤ b → b < base + slots * w → mem' b = save mem w base regs table b)
    (hr : r ∈ table.map snd) : restore mem' w base later table r = regs r := by
  obtain ⟨⟨slot, q⟩, hmem, rfl⟩ := mem_map.1 hr
  have hslot := slot_end (w := w) (hfits _ hmem)
  have hread : read (save mem w base regs table) w (base + slot * w) = regs q :=
    read_save hregs hslots hmem
  rw [restore_of_mem hnames hmem, ← hread]
  refine read_congr fun i hi => hkept _ (by omega) ?_
  simp only at hslot
  omega

end

end Frame

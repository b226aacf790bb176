import BadgerOS.Lib.Frame
import BadgerOS.Memprotect.Flags

/-!
# Entering and leaving a signal handler

Models of `sched_signal_enter` and `sched_signal_exit` (`kernel/cpu/riscv/src/scheduler.c`
lines 92–192), for both register widths. The first one saves the registers that a function call
may change in a frame of 20 words below the stack pointer of the user, the second one restores
them.

User memory is addressed by virtual addresses, and the accesses that the process has to each
byte are given. `proc_map_contains_raw` is taken to be exact: it returns the accesses that the
process has to all bytes of the range, and none for a range that leaves the address space.

* `schedSignal_roundTrip`: the frame lies in memory that the process may read and write, nothing
  else is written, and after a handler that respects the calling convention all registers have
  their old values. If the handler cannot be entered, nothing changes.
-/

namespace BadgerOS.Signal

open Function BitVec

open Memprotect (Rwx)

/-! ## Model -/

/-- The width of `size_t`. -/
inductive Xlen
  | rv32
  | rv64
  deriving DecidableEq, Repr

/-- `sizeof(size_t)`. -/
def Xlen.bytes : Xlen → ℕ
  | .rv32 => 4
  | .rv64 => 8

def Xlen.bits (x : Xlen) : ℕ := 8 * x.bytes

/-- The registers of `cpu_regs_t` (`kernel/cpu/riscv/include/cpu/regs.h` lines 151–185). -/
inductive Reg
  | pc | ra | sp | gp | tp | t0 | t1 | t2 | s0 | s1 | a0 | a1 | a2 | a3 | a4 | a5 | a6 | a7
  | s2 | s3 | s4 | s5 | s6 | s7 | s8 | s9 | s10 | s11 | t3 | t4 | t5 | t6
  deriving DecidableEq, Repr

/-- A user thread: its registers, its flags and the memory of its process. -/
structure Thread (x : Xlen) where
  regs : Reg → BitVec x.bits
  /-- `THREAD_SIGHANDLER`. -/
  sighandler : Bool
  /-- The other flags. -/
  flags : ℕ
  mem : ℕ → UInt8
  /-- The accesses that the process has to each byte. -/
  rights : ℕ → Rwx

/-- `proc_map_contains_raw`, as an exact check. -/
def procMapContainsRaw (x : Xlen) (rights : ℕ → Rwx) (vaddr size : ℕ) : Rwx :=
  if vaddr + size ≤ 2 ^ x.bits then
    (List.range size).foldl (fun flags i => flags.inter (rights (vaddr + i))) Rwx.all
  else Rwx.zero

/-- `(flags & MEMPROTECT_FLAG_RW) == MEMPROTECT_FLAG_RW`. -/
def isRw (flags : Rwx) : Bool := flags.r && flags.w

/-- The words of the frame. -/
def frameWords : ℕ := 20

/-- `usize` (lines 99 and 153). -/
def usize (x : Xlen) : ℕ := x.bytes * frameWords

/-- What `sched_signal_enter` writes to the frame (lines 111–128). -/
def enterTable : List (ℕ × Reg) :=
  [(0, .t0), (1, .t1), (2, .t2), (3, .a0), (4, .a1), (5, .a2), (6, .a3), (7, .a4), (8, .a5),
    (9, .a6), (10, .a7), (11, .t3), (12, .t4), (13, .t5), (14, .t6), (17, .pc), (18, .s0),
    (19, .ra)]

/-- What `sched_signal_exit` reads from the frame (lines 164–181). -/
def exitTable : List (ℕ × Reg) :=
  [(0, .t0), (1, .t1), (2, .t2), (3, .a0), (4, .a1), (5, .a2), (6, .a3), (7, .a4), (8, .a5),
    (9, .a6), (10, .a7), (11, .t3), (12, .t4), (13, .t5), (14, .t6), (17, .pc), (18, .s0),
    (19, .ra)]

/-- The registers outside of the frame, apart from the stack pointer: a function returns them
    unchanged. -/
def keptRegs : List Reg := [.s1, .s2, .s3, .s4, .s5, .s6, .s7, .s8, .s9, .s10, .s11, .gp, .tp]

section

variable {x : Xlen} {r : Reg} {t e : Thread x}
variable {handlerVaddr returnVaddr : BitVec x.bits} {signum : ℤ}

/-- `sched_signal_enter` (lines 92–142). -/
def schedSignalEnter (t : Thread x) (handlerVaddr returnVaddr : BitVec x.bits) (signum : ℤ) :
    Bool × Thread x :=
  let usp := t.regs .sp
  let frame := usp - BitVec.ofNat _ (usize x)
  if isRw (procMapContainsRaw x t.rights frame.toNat (usize x)) then
    let regs := update t.regs .sp frame
    let mem := Frame.save t.mem x.bytes frame.toNat (fun r => (regs r).toNat) enterTable
    let regs := update regs .s0 (frame + BitVec.ofNat _ (usize x))
    let regs := update regs .ra returnVaddr
    let regs := update regs .pc handlerVaddr
    let regs := update regs .a0 (BitVec.ofInt _ signum)
    (true, { t with regs, mem, sighandler := true })
  else (false, t)

/-- `sched_signal_exit` (lines 144–192). -/
def schedSignalExit (t : Thread x) : Bool × Thread x :=
  let cleared := { t with sighandler := false }
  if t.sighandler then
    let usp := t.regs .sp
    if isRw (procMapContainsRaw x t.rights usp.toNat (usize x)) then
      let restored := Frame.restore t.mem x.bytes usp.toNat (fun r => (t.regs r).toNat) exitTable
      let regs := fun r => BitVec.ofNat x.bits (restored r)
      let regs := update regs .sp (usp + BitVec.ofNat _ (usize x))
      (true, { cleared with regs })
    else (false, cleared)
  else (false, cleared)

/-! ## The property -/

/-- The handler returns as the calling convention demands, from the thread `t` that has entered it:
    the frame, the stack pointer and the registers that a function has to keep are as they were. -/
structure Returns (t u : Thread x) : Prop where
  frame : ∀ a, (t.regs .sp).toNat ≤ a → a < (t.regs .sp).toNat + usize x → u.mem a = t.mem a
  sp : u.regs .sp = t.regs .sp
  kept : ∀ r ∈ keptRegs, u.regs r = t.regs r

/-- The words directly below the stack pointer: where the frame starts. -/
def Thread.frame (t : Thread x) : ℕ := (t.regs .sp - BitVec.ofNat _ (usize x)).toNat

/-- The signal handler has been entered: the frame lies below the stack pointer in memory of the
    process, and no other memory has changed. -/
structure Entered (t u : Thread x) : Prop where
  inside : t.frame + usize x ≤ 2 ^ x.bits
  owned : ∀ i < usize x, (t.rights (t.frame + i)).r = true ∧ (t.rights (t.frame + i)).w = true
  others : ∀ a, a < t.frame ∨ t.frame + usize x ≤ a → u.mem a = t.mem a

/-! ## The range check -/

theorem foldl_inter_allows (rights : ℕ → Rwx) (vaddr size : ℕ) (k : Memprotect.Access) :
    ((List.range size).foldl (fun flags i => flags.inter (rights (vaddr + i)))
      Rwx.all).allows k = true ↔ ∀ i < size, (rights (vaddr + i)).allows k = true := by
  induction size with
  | zero => simp
  | succ size ih =>
    rw [List.range_succ, List.foldl_append, List.foldl_cons, List.foldl_nil, Rwx.allows_inter,
      Bool.and_eq_true, ih, Nat.forall_lt_succ_right]

theorem isRw_contains {rights : ℕ → Rwx} {vaddr size : ℕ} (h : isRw (procMapContainsRaw x rights
    vaddr size) = true) : vaddr + size ≤ 2 ^ x.bits ∧
      ∀ i < size, (rights (vaddr + i)).r = true ∧ (rights (vaddr + i)).w = true := by
  unfold procMapContainsRaw at h
  split at h
  · rename_i hle
    rw [isRw, Bool.and_eq_true] at h
    refine ⟨hle, fun i hi => ⟨?_, ?_⟩⟩
    · exact (foldl_inter_allows rights vaddr size .read).1 h.1 i hi
    · exact (foldl_inter_allows rights vaddr size .write).1 h.2 i hi
  · simp [isRw, Rwx.zero] at h

/-! ## The frame -/

theorem two_pow_bits (x : Xlen) : 2 ^ x.bits = 256 ^ x.bytes := by
  rw [Xlen.bits, pow_mul]
  rfl

theorem usize_eq (x : Xlen) : usize x = frameWords * x.bytes := Nat.mul_comm _ _

theorem enterTable_fits : Frame.Fits frameWords enterTable := by
  unfold Frame.Fits
  decide

theorem exitTable_eq : exitTable = enterTable := rfl

/-- Every register is in the tables, or it is the stack pointer, or a function keeps it. -/
theorem reg_cases (r : Reg) : r ∈ enterTable.map Prod.snd ∨ r = .sp ∨ r ∈ keptRegs := by
  cases r <;> decide

theorem not_mem_exitTable (h : r ∈ keptRegs) : r ∉ exitTable.map Prod.snd := by
  revert h
  cases r <;> decide

theorem ne_of_mem_keptRegs (h : r ∈ keptRegs) : r ≠ .sp ∧ r ≠ .s0 ∧ r ≠ .ra ∧ r ≠ .pc ∧ r ≠ .a0 := by
  revert h
  cases r <;> decide

theorem ne_sp_of_mem_enterTable (h : r ∈ enterTable.map Prod.snd) : r ≠ .sp := by
  revert h
  cases r <;> decide

theorem enter_eq_true (h : schedSignalEnter t handlerVaddr returnVaddr signum = (true, e)) :
    isRw (procMapContainsRaw x t.rights t.frame (usize x)) = true ∧
      e.mem = Frame.save t.mem x.bytes t.frame
        (fun r => (update t.regs .sp (t.regs .sp - BitVec.ofNat _ (usize x)) r).toNat)
        enterTable ∧
      e.regs .sp = t.regs .sp - BitVec.ofNat _ (usize x) ∧ ∀ r ∈ keptRegs, e.regs r = t.regs r := by
  unfold schedSignalEnter at h
  simp only at h
  split at h
  · rename_i hcheck
    obtain rfl := (Prod.mk.inj h).2
    refine ⟨hcheck, rfl, rfl, fun r hr => ?_⟩
    obtain ⟨hsp, hs0, hra, hpc, ha0⟩ := ne_of_mem_keptRegs hr
    simp only [update_of_ne ha0, update_of_ne hpc, update_of_ne hra,
      update_of_ne hs0, update_of_ne hsp]
  · cases h

theorem exit_eq_true {u : Thread x} (h : (schedSignalExit u).1 = true) :
    (schedSignalExit u).2.regs .sp = u.regs .sp + BitVec.ofNat _ (usize x) ∧
      ∀ r ≠ .sp, (schedSignalExit u).2.regs r = BitVec.ofNat x.bits (Frame.restore u.mem x.bytes
        (u.regs .sp).toNat (fun r => (u.regs r).toNat) exitTable r) := by
  unfold schedSignalExit at h ⊢
  simp only at h ⊢
  split at h
  · split at h
    · rename_i hhandler hcheck
      rw [if_pos hhandler, if_pos hcheck]
      refine ⟨?_, fun r hne => ?_⟩
      · simp only [update_self]
      · simp only [update_of_ne hne]
    · contradiction
  · contradiction

theorem exit_enter_regs {u : Thread x}
    (henter : schedSignalEnter t handlerVaddr returnVaddr signum = (true, e))
    (hreturns : Returns e u) (hexit : (schedSignalExit u).1 = true) :
    (schedSignalExit u).2.regs = t.regs := by
  obtain ⟨-, hmem, hsp, hkept⟩ := enter_eq_true henter
  obtain ⟨hsp', hregs'⟩ := exit_eq_true hexit
  have hframe : (u.regs .sp).toNat = t.frame := by rw [hreturns.sp, hsp]; rfl
  funext r
  rcases reg_cases r with hr | rfl | hr
  · -- The register was saved in the frame.
    have hne := ne_sp_of_mem_enterTable hr
    have hsame : ∀ b, t.frame ≤ b → b < t.frame + frameWords * x.bytes →
        u.mem b = Frame.save t.mem x.bytes t.frame
          (fun r => (update t.regs .sp (t.regs .sp - BitVec.ofNat _ (usize x)) r).toNat)
          enterTable b := by
      intro b hle hlt
      rw [← hmem]
      refine hreturns.frame b (hsp ▸ hle) ?_
      rw [hsp]
      show b < t.frame + usize x
      rw [usize_eq]
      exact hlt
    have hrestored := Frame.restore_save (fun r => (u.regs r).toNat)
      (fun r => two_pow_bits x ▸ isLt _) (by decide : (enterTable.map Prod.fst).Nodup)
      (by decide) enterTable_fits hsame hr
    rw [hregs' r hne, hframe, exitTable_eq, hrestored, update_of_ne hne, ofNat_toNat, setWidth_eq]
  · rw [hsp', hreturns.sp, hsp, BitVec.sub_add_cancel]
  · have hne := (ne_of_mem_keptRegs hr).1
    rw [hregs' r hne, Frame.restore_of_not_mem _ _ _ (not_mem_exitTable hr), hreturns.kept r hr,
      hkept r hr, ofNat_toNat, setWidth_eq]

theorem enter_entered (h : schedSignalEnter t handlerVaddr returnVaddr signum = (true, e)) :
    Entered t e := by
  obtain ⟨hcheck, hmem, -, -⟩ := enter_eq_true h
  obtain ⟨hinside, howned⟩ := isRw_contains hcheck
  refine ⟨hinside, howned, fun a ha => ?_⟩
  rw [hmem]
  refine Frame.save_of_not_mem _ enterTable_fits ?_
  rwa [usize_eq] at ha

/-- Entering a signal handler saves all that its return restores, in memory of the process that
    lies below the stack pointer. If the handler cannot be entered, then nothing changes. -/
theorem schedSignal_roundTrip (t : Thread x) (handlerVaddr returnVaddr : BitVec x.bits)
    (signum : ℤ) :
    ((schedSignalEnter t handlerVaddr returnVaddr signum).1 = false →
      (schedSignalEnter t handlerVaddr returnVaddr signum).2 = t) ∧
    ((schedSignalEnter t handlerVaddr returnVaddr signum).1 = true →
      Entered t (schedSignalEnter t handlerVaddr returnVaddr signum).2 ∧
      ∀ u, Returns (schedSignalEnter t handlerVaddr returnVaddr signum).2 u →
        (schedSignalExit u).1 = true → (schedSignalExit u).2.regs = t.regs) := by
  constructor
  · intro h
    unfold schedSignalEnter at h ⊢
    simp only at h ⊢
    split at h
    · contradiction
    · rename_i hcheck
      rw [if_neg hcheck]
  · intro h
    have h : schedSignalEnter t handlerVaddr returnVaddr signum = (true, _) := Prod.ext h rfl
    exact ⟨enter_entered h, fun u hreturns hexit => exit_enter_regs h hreturns hexit⟩

end

/-- A thread that has its stack below the address 4096, where the process may read and write. -/
def stackThread : Thread .rv64 where
  regs r := if r = .sp then 4096 else 7
  sighandler := false
  flags := 1
  mem _ := 0
  rights a := if a < 4096 then ⟨true, true, false⟩ else Rwx.zero

/-- The thread enters a handler that changes `a0` and `ra`, and returns from it. -/
theorem stackThread_roundTrip :
    (schedSignalEnter stackThread 64 128 9).1 = true ∧
    ∃ u : Thread .rv64, u.regs .a0 = 1 ∧ u.regs .ra = 2 ∧
      Returns (schedSignalEnter stackThread 64 128 9).2 u ∧ (schedSignalExit u).1 = true ∧
      (schedSignalExit u).2.regs = stackThread.regs := by
  have henter : (schedSignalEnter stackThread 64 128 9).1 = true := by decide +kernel
  let u : Thread .rv64 := { (schedSignalEnter stackThread 64 128 9).2 with
    regs := update (update (schedSignalEnter stackThread 64 128 9).2.regs .a0 1) .ra 2 }
  have hexit : (schedSignalExit u).1 = true := by decide +kernel
  have hregs : ∀ r, r ≠ .ra → r ≠ .a0 →
      u.regs r = (schedSignalEnter stackThread 64 128 9).2.regs r := by
    intro r hra ha0
    simp only [u, update_of_ne hra, update_of_ne ha0]
  have hreturns : Returns (schedSignalEnter stackThread 64 128 9).2 u := by
    refine ⟨fun a _ _ => by simp only [u], hregs .sp (by decide) (by decide), fun r hr => ?_⟩
    obtain ⟨-, -, hra, -, ha0⟩ := ne_of_mem_keptRegs hr
    exact hregs r hra ha0
  exact ⟨henter, u, by simp [u], by simp [u], hreturns, hexit,
    ((schedSignal_roundTrip stackThread 64 128 9).2 henter).2 u hreturns hexit⟩

end BadgerOS.Signal

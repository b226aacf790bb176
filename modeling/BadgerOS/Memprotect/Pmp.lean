import BadgerOS.Lib.Align
import BadgerOS.Memprotect.Flags

/-!
# Physical memory protection

Model of `riscv_pmp_memprotect` (`kernel/cpu/riscv/src/memprotect/riscv_pmp.c` lines
302–385), which turns the regions of a process into entries of the RISC-V PMP, and
of the rules by which the PMP judges accesses of user code.

A region becomes one NA4 or NAPOT entry, or a TOR entry ("top of range") whose lower
bound is the address register of the entry before it. A region that starts where
the one before it ended always becomes a TOR entry without an extra base. If the
region before it was an NA4 or NAPOT entry, the register that serves as lower bound
then holds a start or a mask and not an end. It points into that region, so the two
entries overlap, and the lower-numbered one, which is the region's own, decides
(`EntriesFor.append`).

* `riscvPmpMemprotect_spec`: what the entries allow, when the call fails, and that
  failing leaves the context alone.
* `riscvPmpMemprotect_firstRegion`: for a first region at address 0 no base entry is
  needed if the entries start at PMP 0, whose lower bound is 0.
* `unmap_succeeds`: taking a region away never makes the call fail.

The regions must end below the end of the address space: the end of a TOR region is
computed modulo `2 ^ xlen`.
-/

namespace BadgerOS.Memprotect.Pmp

open Function Option List Nat

/-! ## Model -/

/-- What the port and the hardware fix: the first PMP entry for processes and their
    number (`PROC_RISCV_PMP_START`, `PROC_RISCV_PMP_COUNT`), the granularity that
    `riscv_pmp_init` finds (`grain`), and the width of `size_t`. -/
structure Config where
  start : ℕ
  count : ℕ
  grain : ℕ
  xlen : ℕ
  two_le_count : 2 ≤ count
  grain_pow : ∃ k, grain = 2 ^ (k + 2)
  two_le_xlen : 2 ≤ xlen

/-- A region of a process (`proc_memmap_ent_t`). -/
structure Region where
  paddr : ℕ
  size : ℕ
  write : Bool
  exec : Bool
deriving DecidableEq, Repr

/-- `riscv_pmpcfg_addr_t` (`riscv_pmp.h` lines 306–315). -/
inductive Mode
  | off
  | tor
  | na4
  | napot
deriving DecidableEq, Repr

/-- `riscv_pmpcfg_t` (`riscv_pmp.h` lines 318–336). -/
structure PmpCfg where
  read : Bool
  write : Bool
  exec : Bool
  mode : Mode
  lock : Bool
deriving DecidableEq, Repr

/-- An entry whose `value` is 0. -/
def PmpCfg.zero : PmpCfg := ⟨false, false, false, .off, false⟩

/-- `riscv_pmp_ctx_t` (`riscv_pmp.h` lines 338–343), entry by entry. -/
structure PmpCtx where
  pmpcfg : ℕ → PmpCfg
  pmpaddr : ℕ → ℕ

/-- Setting entry `i`. -/
def PmpCtx.set (ctx : PmpCtx) (i : ℕ) (cfg : PmpCfg) (addr : ℕ) : PmpCtx :=
  ⟨update ctx.pmpcfg i cfg, update ctx.pmpaddr i addr⟩

/-- `riscv_pmpaddr_is_napot` (`riscv_pmp.h` lines 368–376). -/
def riscvPmpaddrIsNapot (base size : ℕ) : Bool :=
  if size < 8 || size &&& (size - 1) ≠ 0 then false else base &&& (size - 1) = 0

/-- `riscv_pmpaddr_calc_napot` (`riscv_pmp.h` lines 380–383). -/
def riscvPmpaddrCalcNapot (base size : ℕ) : ℕ := (base >>> 2) ||| ((size >>> 3) - 1)

/-- The configuration of a region's entry. -/
def Region.cfg (r : Region) (mode : Mode) : PmpCfg := ⟨true, r.write, r.exec, mode, false⟩

/-- The state of the loop: the next entry, where the region before ended, and the entries so far. -/
structure LoopState where
  pmp : ℕ
  prevAddr : ℕ
  tmp : PmpCtx

/-- The test for misaligned regions (line 319). -/
def Region.misaligned (c : Config) (r : Region) : Bool :=
  (r.paddr ||| r.size) &&& (c.grain - 1) ≠ 0

/-- The body of the loop (lines 316–375). `none` is `return false`. -/
def loopBody (c : Config) (s : LoopState) (r : Region) : Option LoopState :=
  if r.misaligned c then none
  else if c.count ≤ s.pmp then none
  else
    let prevAddr := (r.paddr + r.size) % 2 ^ c.xlen
    if r.paddr ≠ s.prevAddr ∧ r.size = 4 then
      some ⟨s.pmp + 1, prevAddr, s.tmp.set s.pmp (r.cfg .na4) (r.paddr >>> 2)⟩
    else if r.paddr ≠ s.prevAddr ∧ riscvPmpaddrIsNapot r.paddr r.size then
      some ⟨s.pmp + 1, prevAddr,
        s.tmp.set s.pmp (r.cfg .napot) (riscvPmpaddrCalcNapot r.paddr r.size)⟩
    else if r.paddr ≠ s.prevAddr then
      if c.count - 2 < s.pmp then none
      else
        some ⟨s.pmp + 2, prevAddr,
          (s.tmp.set s.pmp PmpCfg.zero (r.paddr >>> 2)).set (s.pmp + 1) (r.cfg .tor)
            (prevAddr >>> 2)⟩
    else some ⟨s.pmp + 1, prevAddr, s.tmp.set s.pmp (r.cfg .tor) (prevAddr >>> 2)⟩

/-- The loop over the regions (line 316). -/
def loop (c : Config) : LoopState → List Region → Option LoopState
  | s, [] => some s
  | s, r :: rs =>
    match loopBody c s r with
    | none => none
    | some s => loop c s rs

/-- The state before the loop (lines 309–314); `tmp` is uninitialised memory. -/
def loopStart (c : Config) (tmp : PmpCtx) : LoopState :=
  ⟨0, if c.start ≠ 0 then 2 ^ c.xlen - 1 else 0, tmp⟩

/-- Clearing the remaining entries (lines 378–380). -/
def clearRest (c : Config) (s : LoopState) : PmpCtx :=
  ⟨fun i => if s.pmp ≤ i ∧ i < c.count then PmpCfg.zero else s.tmp.pmpcfg i, s.tmp.pmpaddr⟩

/-- `riscv_pmp_memprotect` (lines 304–385): what it returns, and the context after. -/
def riscvPmpMemprotect (c : Config) (tmp : PmpCtx) (regions : List Region) (ctx : PmpCtx) :
    Bool × PmpCtx :=
  match loop c (loopStart c tmp) regions with
  | none => (false, ctx)
  | some s => (true, clearRest c s)

/-! ## The rules of the PMP -/

/-- The number of low bits that are one. -/
def trailingOnes (n : ℕ) : ℕ := if n % 2 = 1 then trailingOnes (n / 2) + 1 else 0
decreasing_by omega

/-- The lower bound of a TOR entry: the address register before it, and 0 for PMP 0.
    Address bits below the granularity do not take part. `below` is the register
    before the first entry of the context. -/
def torBase (c : Config) (below : ℕ) (ctx : PmpCtx) (i : ℕ) : ℕ :=
  if i = 0 then if c.start = 0 then 0 else Align.floor c.grain (4 * below)
  else Align.floor c.grain (4 * ctx.pmpaddr (i - 1))

/-- Entry `i` matches the byte at `a`. A NAPOT register with `t` trailing ones stands
    for a block of `2 ^ (t + 3)` bytes. -/
def entryMatches (c : Config) (below : ℕ) (ctx : PmpCtx) (i a : ℕ) : Prop :=
  match (ctx.pmpcfg i).mode with
  | .off => False
  | .tor => torBase c below ctx i ≤ a ∧ a < Align.floor c.grain (4 * ctx.pmpaddr i)
  | .na4 => a / 4 = ctx.pmpaddr i
  | .napot =>
    a / 2 ^ (trailingOnes (ctx.pmpaddr i) + 3) =
      ctx.pmpaddr i / 2 ^ (trailingOnes (ctx.pmpaddr i) + 1)

instance (c : Config) (below : ℕ) (ctx : PmpCtx) (i a : ℕ) :
    Decidable (entryMatches c below ctx i a) := by
  unfold entryMatches
  cases (ctx.pmpcfg i).mode <;> exact inferInstance

def PmpCfg.allows (cfg : PmpCfg) : Access → Bool
  | .read => cfg.read
  | .write => cfg.write
  | .exec => cfg.exec

/-- The lowest-numbered entry that matches, among the first `n`. -/
def firstMatch (c : Config) (below : ℕ) (ctx : PmpCtx) (n a : ℕ) : Option ℕ :=
  (List.range n).find? fun i => entryMatches c below ctx i a

/-- User code may make the access: the first entry that matches allows it. -/
def userAllows (c : Config) (below : ℕ) (ctx : PmpCtx) (a : ℕ) (k : Access) : Bool :=
  match firstMatch c below ctx c.count a with
  | none => false
  | some i => (ctx.pmpcfg i).allows k

/-! ## The encodings -/

/-- The byte at `a` lies in the region. -/
def Region.Has (r : Region) (a : ℕ) : Prop := r.paddr ≤ a ∧ a < r.paddr + r.size

def Region.allows (r : Region) : Access → Bool
  | .read => true
  | .write => r.write
  | .exec => r.exec

/-- Encodable as a single NA4 or NAPOT entry. -/
def Region.single (r : Region) : Bool := r.size = 4 || riscvPmpaddrIsNapot r.paddr r.size

@[simp] theorem Region.allows_cfg (r : Region) (mode : Mode) (k : Access) :
    (r.cfg mode).allows k = r.allows k := by
  cases k <;> rfl

section Encodings

variable {c : Config} {r : Region}

theorem Config.four_dvd_grain (c : Config) : 4 ∣ c.grain := by
  obtain ⟨k, hk⟩ := c.grain_pow
  rw [hk, pow_add]
  exact Dvd.intro_left _ rfl

theorem Config.grain_pos (c : Config) : 0 < c.grain := by
  obtain ⟨k, hk⟩ := c.grain_pow
  rw [hk]
  positivity

theorem misaligned_eq_false : r.misaligned c = false ↔ c.grain ∣ r.paddr ∧ c.grain ∣ r.size := by
  obtain ⟨k, hk⟩ := c.grain_pow
  rw [Region.misaligned, hk, and_or_distrib_right, and_two_pow_sub_one_eq_mod,
    and_two_pow_sub_one_eq_mod]
  simp [or_eq_zero_iff, dvd_iff_mod_eq_zero]

theorem four_mul_shiftRight {n : ℕ} (h : 4 ∣ n) : 4 * (n >>> 2) = n := by
  rw [shiftRight_eq_div_pow]
  exact Nat.mul_div_cancel' h

theorem floor_grain {n : ℕ} (h : c.grain ∣ n) : Align.floor c.grain n = n := by
  rw [Align.floor_eq_sub_mod, mod_eq_zero_of_dvd h, Nat.sub_zero]

theorem floor_shiftRight {n : ℕ} (h : c.grain ∣ n) : Align.floor c.grain (4 * (n >>> 2)) = n := by
  rw [four_mul_shiftRight (c.four_dvd_grain.trans h), floor_grain h]

theorem trailingOnes_mask (q t : ℕ) : trailingOnes (q * 2 ^ (t + 1) + (2 ^ t - 1)) = t := by
  induction t with
  | zero =>
    rw [trailingOnes, if_neg]
    omega
  | succ t ih =>
    have hpos : 0 < 2 ^ t := by positivity
    have h1 : 2 ^ (t + 1) = 2 * 2 ^ t := by rw [pow_succ, Nat.mul_comm]
    have h2 : q * 2 ^ (t + 1 + 1) = 2 * (q * 2 ^ (t + 1)) := by rw [pow_succ]; ring
    rw [trailingOnes, h2, h1, if_pos (by omega)]
    have hdiv : (2 * (q * (2 * 2 ^ t)) + (2 * 2 ^ t - 1)) / 2 = q * 2 ^ (t + 1) + (2 ^ t - 1) := by
      rw [h1]
      omega
    rw [hdiv, ih]

/-- A NAPOT region is a block of `2 ^ (t + 3)` bytes, and its register ends in `t` ones. -/
theorem napot_encoding (h : riscvPmpaddrIsNapot r.paddr r.size = true) :
    ∃ q t, r.paddr = q * 2 ^ (t + 3) ∧ r.size = 2 ^ (t + 3) ∧
      riscvPmpaddrCalcNapot r.paddr r.size = q * 2 ^ (t + 1) + (2 ^ t - 1) := by
  unfold riscvPmpaddrIsNapot at h
  split_ifs at h with hbad
  simp only [Bool.or_eq_true, decide_eq_true_eq, not_or, not_lt, ne_eq, not_not] at hbad
  simp only [decide_eq_true_eq] at h
  obtain ⟨hsize, hpow⟩ := hbad
  obtain ⟨k, hk⟩ := (and_sub_one_eq_zero_iff_isPowerOfTwo (by omega)).mp hpow
  have hk3 : 3 ≤ k := by
    by_contra hlt
    have : 2 ^ k ≤ 2 ^ 2 := Nat.pow_le_pow_right (by norm_num) (by omega)
    omega
  obtain ⟨t, rfl⟩ := Nat.exists_eq_add_of_le' hk3
  rw [hk, and_two_pow_sub_one_eq_mod] at h
  obtain ⟨q, hq⟩ := dvd_of_mod_eq_zero h
  refine ⟨q, t, by rw [hq, Nat.mul_comm], hk, ?_⟩
  have hpos : 0 < 2 ^ t := by positivity
  have hbase : r.paddr >>> 2 = q * 2 ^ (t + 1) := by
    rw [shiftRight_eq_div_pow, hq, show t + 3 = t + 1 + 2 by omega, pow_add, Nat.mul_assoc,
      Nat.mul_comm (2 ^ 2), ← Nat.mul_assoc, Nat.mul_div_cancel _ (by norm_num), Nat.mul_comm]
  have hmask : r.size >>> 3 = 2 ^ t := by
    rw [shiftRight_eq_div_pow, hk, pow_add, Nat.mul_div_cancel _ (by norm_num)]
  have hlt : 2 ^ t - 1 < 2 ^ (t + 1) := by
    rw [pow_succ]
    omega
  rw [riscvPmpaddrCalcNapot, hbase, hmask, Nat.mul_comm, ← two_pow_add_eq_or_of_lt hlt]

end Encodings

/-! ## Entries for a list of regions -/

section Entries

variable {c : Config} {below : ℕ} {ctx ctx' : PmpCtx} {n : ℕ} {rs : List Region} {r : Region}

/-- The two contexts have the first `n` entries in common. -/
def Agree (ctx ctx' : PmpCtx) (n : ℕ) : Prop :=
  ∀ i < n, ctx'.pmpcfg i = ctx.pmpcfg i ∧ ctx'.pmpaddr i = ctx.pmpaddr i

/-- The first `n` entries judge the bytes of the regions `rs` as those demand, and no other byte. -/
def EntriesFor (c : Config) (below : ℕ) (ctx : PmpCtx) (n : ℕ) (rs : List Region) : Prop :=
  ∀ a, match firstMatch c below ctx n a with
    | none => ∀ r ∈ rs, ¬ r.Has a
    | some i => i < n ∧ ∃ r ∈ rs, r.Has a ∧ ∃ mode, ctx.pmpcfg i = r.cfg mode

theorem Agree.entryMatches (h : Agree ctx ctx' n) {i : ℕ} (hi : i < n) (a : ℕ) :
    entryMatches c below ctx' i a ↔ entryMatches c below ctx i a := by
  have hbase : torBase c below ctx' i = torBase c below ctx i := by
    unfold torBase
    by_cases h0 : i = 0
    · rw [if_pos h0, if_pos h0]
    · rw [if_neg h0, if_neg h0, (h (i - 1) (by omega)).2]
  unfold Pmp.entryMatches
  rw [(h i hi).1, (h i hi).2, hbase]

theorem Agree.firstMatch (h : Agree ctx ctx' n) (a : ℕ) :
    firstMatch c below ctx' n a = firstMatch c below ctx n a := by
  unfold Pmp.firstMatch
  refine find?_congr fun i hi => ?_
  rw [decide_eq_decide]
  exact h.entryMatches (mem_range.mp hi) a

theorem firstMatch_succ (c : Config) (below : ℕ) (ctx : PmpCtx) (n a : ℕ) :
    firstMatch c below ctx (n + 1) a =
      (firstMatch c below ctx n a).or (if entryMatches c below ctx n a then some n else none) := by
  unfold firstMatch
  rw [range_succ, find?_append]
  by_cases h : entryMatches c below ctx n a <;> simp [h]

theorem EntriesFor.off (h : EntriesFor c below ctx n rs) (hag : Agree ctx ctx' n)
    (hoff : (ctx'.pmpcfg n).mode = .off) : EntriesFor c below ctx' (n + 1) rs := by
  intro a
  have hno : ¬ entryMatches c below ctx' n a := by
    unfold entryMatches
    rw [hoff]
    exact not_false
  have ha := h a
  rw [firstMatch_succ, if_neg hno, or_none, hag.firstMatch]
  cases hm : firstMatch c below ctx n a with
  | none => simpa [hm] using ha
  | some i =>
    simp only [hm] at ha
    obtain ⟨hi, r, hr, hhas, mode, hcfg⟩ := ha
    exact ⟨by omega, r, hr, hhas, mode, by rw [(hag i hi).1, hcfg]⟩

/-- An entry for a further region. It may match bytes of the earlier regions as well:
    those are decided by an earlier entry. -/
theorem EntriesFor.append (h : EntriesFor c below ctx n rs) (hag : Agree ctx ctx' n) {mode : Mode}
    (hcfg : ctx'.pmpcfg n = r.cfg mode) (hhas : ∀ a, r.Has a → entryMatches c below ctx' n a)
    (hmatch : ∀ a, entryMatches c below ctx' n a → r.Has a ∨ ∃ r' ∈ rs, r'.Has a) :
    EntriesFor c below ctx' (n + 1) (rs ++ [r]) := by
  intro a
  have ha := h a
  rw [firstMatch_succ, hag.firstMatch]
  cases hm : firstMatch c below ctx n a with
  | some i =>
    simp only [hm] at ha
    obtain ⟨hi, r', hr', hhas', mode', hcfg'⟩ := ha
    exact ⟨by omega, r', mem_append_left _ hr', hhas', mode', by rw [(hag i hi).1, hcfg']⟩
  | none =>
    simp only [hm] at ha
    by_cases hnew : entryMatches c below ctx' n a
    · rw [if_pos hnew, none_or]
      have hr : r.Has a := by
        rcases hmatch a hnew with hr | ⟨r', hr', hhas'⟩
        · exact hr
        · exact absurd hhas' (ha r' hr')
      exact ⟨by omega, r, by simp, hr, mode, hcfg⟩
    · rw [if_neg hnew, none_or]
      intro r' hr' hhas'
      rcases mem_append.mp hr' with hr' | hr'
      · exact ha r' hr' hhas'
      · rw [mem_singleton.mp hr'] at hhas'
        exact hnew (hhas a hhas')

theorem Agree.set (ctx : PmpCtx) (n : ℕ) (cfg : PmpCfg) (addr : ℕ) :
    Agree ctx (ctx.set n cfg addr) n := by
  intro i hi
  exact ⟨update_of_ne (by omega) _ _, update_of_ne (by omega) _ _⟩

@[simp] theorem PmpCtx.set_pmpcfg (ctx : PmpCtx) (n : ℕ) (cfg : PmpCfg) (addr : ℕ) :
    (ctx.set n cfg addr).pmpcfg n = cfg := update_self ..

@[simp] theorem PmpCtx.set_pmpaddr (ctx : PmpCtx) (n : ℕ) (cfg : PmpCfg) (addr : ℕ) :
    (ctx.set n cfg addr).pmpaddr n = addr := update_self ..

theorem entryMatches_na4 (h4 : 4 ∣ r.paddr) (hsize : r.size = 4) (a : ℕ) :
    entryMatches c below (ctx.set n (r.cfg .na4) (r.paddr >>> 2)) n a ↔ r.Has a := by
  unfold entryMatches Region.Has
  rw [PmpCtx.set_pmpcfg, PmpCtx.set_pmpaddr, shiftRight_eq_div_pow, hsize]
  show a / 4 = r.paddr / 2 ^ 2 ↔ _
  omega

theorem entryMatches_napot (h : riscvPmpaddrIsNapot r.paddr r.size = true) (a : ℕ) :
    entryMatches c below
      (ctx.set n (r.cfg .napot) (riscvPmpaddrCalcNapot r.paddr r.size)) n a ↔ r.Has a := by
  obtain ⟨q, t, hq, hs, hcalc⟩ := napot_encoding h
  have hpos : 0 < 2 ^ t := by positivity
  have hdiv : (q * 2 ^ (t + 1) + (2 ^ t - 1)) / 2 ^ (t + 1) = q := by
    rw [Nat.mul_comm, mul_add_div (by positivity), div_eq_of_lt, Nat.add_zero]
    rw [pow_succ]
    omega
  unfold entryMatches Region.Has
  rw [PmpCtx.set_pmpcfg, PmpCtx.set_pmpaddr, hcalc]
  show a / 2 ^ (trailingOnes _ + 3) = _ / 2 ^ (trailingOnes _ + 1) ↔ _
  rw [trailingOnes_mask, hdiv, hq, hs, Nat.div_eq_iff (by positivity)]
  have hblock : 0 < 2 ^ (t + 3) := by positivity
  rw [Nat.mul_comm q]
  omega

/-- Matches of a TOR entry whose region ends at a multiple of the granularity. -/
theorem entryMatches_tor {last : ℕ} (hend : c.grain ∣ last) (a : ℕ) :
    entryMatches c below (ctx.set n (r.cfg .tor) (last >>> 2)) n a ↔
      torBase c below ctx n ≤ a ∧ a < last := by
  have hbase : torBase c below (ctx.set n (r.cfg .tor) (last >>> 2)) n = torBase c below ctx n := by
    unfold torBase
    by_cases h0 : n = 0
    · rw [if_pos h0, if_pos h0]
    · rw [if_neg h0, if_neg h0, (Agree.set ctx n _ _ (n - 1) (by omega)).2]
  unfold entryMatches
  rw [PmpCtx.set_pmpcfg, PmpCtx.set_pmpaddr, hbase]
  show _ ∧ a < Align.floor c.grain (4 * (last >>> 2)) ↔ _
  rw [floor_shiftRight hend]

end Entries

/-! ## The loop -/

/-- The number of entries for a region after one that ended at `prev`. -/
def Region.cost (prev : Option ℕ) (r : Region) : ℕ :=
  if prev ≠ some r.paddr ∧ r.single = false then 2 else 1

/-- The number of entries that a list of regions needs: one for each region, and a base
    entry for each one that neither starts where the one before it ended (`prev`) nor is
    a single NA4 or NAPOT entry. -/
def entriesNeeded : Option ℕ → List Region → ℕ
  | _, [] => 0
  | prev, r :: rs =>
    r.cost prev + entriesNeeded (some (r.paddr + r.size)) rs

/-- Where the entry before the first one ends: PMP 0 has the lower bound 0. -/
def startEnd (c : Config) : Option ℕ := if c.start = 0 then some 0 else none

/-- What holds when the regions `rs` have been processed. -/
structure LoopInv (c : Config) (below : ℕ) (rs : List Region) (prev : Option ℕ) (s : LoopState) :
    Prop where
  entries : EntriesFor c below s.tmp s.pmp rs
  pmp_le : s.pmp ≤ c.count
  /-- `prev_addr` stands for the end of the region before. -/
  prev_iff : ∀ addr, c.grain ∣ addr → addr < 2 ^ c.xlen → (addr = s.prevAddr ↔ prev = some addr)
  /-- A TOR entry that follows begins inside the region before or right behind it. -/
  base : ∀ addr, prev = some addr →
    torBase c below s.tmp s.pmp ≤ addr ∧
      ∀ a, torBase c below s.tmp s.pmp ≤ a → a < addr → ∃ r ∈ rs, r.Has a

theorem loopStart_inv (c : Config) (below : ℕ) (tmp : PmpCtx) :
    LoopInv c below [] (startEnd c) (loopStart c tmp) := by
  refine ⟨fun a => ?_, Nat.zero_le _, fun addr hdvd hlt => ?_, fun addr h => ?_⟩
  · simp [loopStart, firstMatch]
  · unfold loopStart startEnd
    by_cases h0 : c.start = 0
    · simp [h0, eq_comm]
    · -- an odd number is no multiple of the granularity
      have hodd : addr ≠ 2 ^ c.xlen - 1 := by
        have h4 : 4 ∣ addr := c.four_dvd_grain.trans hdvd
        have hx : 4 ∣ 2 ^ c.xlen := pow_dvd_pow 2 c.two_le_xlen
        have hpos : 0 < 2 ^ c.xlen := by positivity
        omega
      simp [h0, hodd]
  · unfold startEnd at h
    split_ifs at h with h0
    cases h
    have hbase : torBase c below (loopStart c tmp).tmp (loopStart c tmp).pmp = 0 := by
      simp [torBase, loopStart, h0]
    rw [hbase]
    exact ⟨le_rfl, fun a _ ha => absurd ha (by omega)⟩

section Step

variable {c : Config} {below : ℕ} {rs : List Region} {prev : Option ℕ} {s s' : LoopState}
  {r : Region}

/-- The state after an entry for `r`, the lower bound of a following TOR entry being a
    multiple of the granularity inside `r` or its end. -/
theorem LoopInv.next (hentries : EntriesFor c below s'.tmp s'.pmp (rs ++ [r]))
    (hcount : s'.pmp ≤ c.count) (hfit : r.paddr + r.size < 2 ^ c.xlen)
    (hprev : s'.prevAddr = (r.paddr + r.size) % 2 ^ c.xlen)
    (hlow : r.paddr ≤ torBase c below s'.tmp s'.pmp)
    (hhigh : torBase c below s'.tmp s'.pmp ≤ r.paddr + r.size) :
    LoopInv c below (rs ++ [r]) (some (r.paddr + r.size)) s' := by
  refine ⟨hentries, hcount, fun addr _ _ => ?_, fun addr h => ?_⟩
  · rw [hprev, mod_eq_of_lt hfit, some.injEq, eq_comm]
  · cases h
    exact ⟨hhigh, fun a h1 h2 => ⟨r, by simp, by omega, h2⟩⟩

theorem torBase_succ (c : Config) (below : ℕ) (ctx : PmpCtx) (n : ℕ) :
    torBase c below ctx (n + 1) = Align.floor c.grain (4 * ctx.pmpaddr n) := by
  simp [torBase]

/-- A region that starts where the one before it ended: a TOR entry without base. -/
theorem LoopInv.tor (h : LoopInv c below rs (some r.paddr) s) (hlt : s.pmp < c.count)
    (hfit : r.paddr + r.size < 2 ^ c.xlen) (hend : c.grain ∣ r.paddr + r.size) :
    LoopInv c below (rs ++ [r]) (some (r.paddr + r.size))
      ⟨s.pmp + 1, (r.paddr + r.size) % 2 ^ c.xlen,
        s.tmp.set s.pmp (r.cfg .tor) (((r.paddr + r.size) % 2 ^ c.xlen) >>> 2)⟩ := by
  obtain ⟨hbase, hbefore⟩ := h.base r.paddr rfl
  have htop : torBase c below (s.tmp.set s.pmp (r.cfg .tor) ((r.paddr + r.size) >>> 2)) (s.pmp + 1) =
      r.paddr + r.size := by
    rw [torBase_succ, PmpCtx.set_pmpaddr, floor_shiftRight hend]
  rw [mod_eq_of_lt hfit]
  refine LoopInv.next ?_ hlt hfit (mod_eq_of_lt hfit).symm (by rw [htop]; omega) htop.le
  refine h.entries.append (Agree.set _ _ _ _) (PmpCtx.set_pmpcfg _ _ _ _) (fun a ha => ?_)
    fun a ha => ?_
  · exact (entryMatches_tor hend a).mpr ⟨hbase.trans ha.1, ha.2⟩
  · obtain ⟨hlow, hhigh⟩ := (entryMatches_tor hend a).mp ha
    by_cases hin : r.paddr ≤ a
    · exact .inl ⟨hin, hhigh⟩
    · exact .inr (hbefore a hlow (by omega))

section

variable (h : LoopInv c below rs prev s) (hlt : s.pmp < c.count)
  (hfit : r.paddr + r.size < 2 ^ c.xlen) (hal : c.grain ∣ r.paddr)

include h hlt hfit hal

theorem LoopInv.single {mode : Mode} {addr : ℕ} (hmatch : ∀ a, entryMatches c below
      (s.tmp.set s.pmp (r.cfg mode) addr) s.pmp a ↔ r.Has a)
    (hlow : r.paddr ≤ 4 * addr) (hhigh : 4 * addr ≤ r.paddr + r.size) :
    LoopInv c below (rs ++ [r]) (some (r.paddr + r.size))
      ⟨s.pmp + 1, (r.paddr + r.size) % 2 ^ c.xlen, s.tmp.set s.pmp (r.cfg mode) addr⟩ := by
  have hbase : torBase c below (s.tmp.set s.pmp (r.cfg mode) addr) (s.pmp + 1) =
      Align.floor c.grain (4 * addr) := by
    rw [torBase_succ, PmpCtx.set_pmpaddr]
  refine LoopInv.next ?_ hlt hfit rfl (hbase ▸ Align.le_floor c.grain_pos hal hlow)
    (hbase ▸ (Align.floor_spec c.grain_pos _).2.1.trans hhigh)
  exact h.entries.append (Agree.set _ _ _ _) (PmpCtx.set_pmpcfg _ _ _ _)
    (fun a => (hmatch a).mpr) fun a ha => .inl ((hmatch a).mp ha)

theorem LoopInv.na4 (hsize : r.size = 4) : LoopInv c below (rs ++ [r]) (some (r.paddr + r.size))
      ⟨s.pmp + 1, (r.paddr + r.size) % 2 ^ c.xlen,
        s.tmp.set s.pmp (r.cfg .na4) (r.paddr >>> 2)⟩ := by
  have h4 := c.four_dvd_grain.trans hal
  have hreg : 4 * (r.paddr >>> 2) = r.paddr := by
    rw [shiftRight_eq_div_pow]
    omega
  exact h.single hlt hfit hal (entryMatches_na4 h4 hsize) hreg.ge (by omega)

theorem LoopInv.napot (hnapot : riscvPmpaddrIsNapot r.paddr r.size = true) :
    LoopInv c below (rs ++ [r]) (some (r.paddr + r.size))
      ⟨s.pmp + 1, (r.paddr + r.size) % 2 ^ c.xlen,
        s.tmp.set s.pmp (r.cfg .napot) (riscvPmpaddrCalcNapot r.paddr r.size)⟩ := by
  obtain ⟨q, t, hq, hs, hcalc⟩ := napot_encoding hnapot
  have hreg : 4 * riscvPmpaddrCalcNapot r.paddr r.size = r.paddr + (4 * 2 ^ t - 4) := by
    rw [hcalc, hq, pow_add, pow_add]
    ring_nf
    omega
  have hsize : r.size = 8 * 2 ^ t := by
    rw [hs, pow_add]
    ring
  exact h.single hlt hfit hal (entryMatches_napot hnapot) (by omega) (by omega)

end

/-- A base entry, which is off: what follows is as after a region that ended at `r.paddr`. -/
theorem LoopInv.off (h : LoopInv c below rs prev s) (hlt : s.pmp < c.count)
    (hal : c.grain ∣ r.paddr) : LoopInv c below rs (some r.paddr)
      ⟨s.pmp + 1, r.paddr, s.tmp.set s.pmp PmpCfg.zero (r.paddr >>> 2)⟩ := by
  have hbase : torBase c below (s.tmp.set s.pmp PmpCfg.zero (r.paddr >>> 2)) (s.pmp + 1) =
      r.paddr := by
    rw [torBase_succ, PmpCtx.set_pmpaddr, floor_shiftRight hal]
  refine ⟨h.entries.off (Agree.set _ _ _ _) (by rw [PmpCtx.set_pmpcfg]; rfl), hlt,
    fun addr _ _ => ?_, fun addr haddr => ?_⟩
  · rw [some.injEq, eq_comm]
  · cases haddr
    exact ⟨hbase.le, fun a hlow hhigh => absurd (hbase.ge.trans hlow) (not_le.mpr hhigh)⟩

/-- Whether a round succeeds, and what it tells the next one of the entries before: their
    number and `prev_addr`. -/
theorem loopBody_map (c : Config) (s : LoopState) (r : Region) :
    (loopBody c s r).map (fun s' => (s'.pmp, s'.prevAddr)) =
      if r.misaligned c = false ∧ s.pmp + r.cost (some s.prevAddr) ≤ c.count then
        some (s.pmp + r.cost (some s.prevAddr), (r.paddr + r.size) % 2 ^ c.xlen)
      else none := by
  have htwo := c.two_le_count
  unfold loopBody Region.cost Region.single
  split_ifs <;> simp_all <;> omega

theorem LoopInv.cost_eq (h : LoopInv c below rs prev s) (hfit : r.paddr + r.size < 2 ^ c.xlen)
    (hmis : r.misaligned c = false) : r.cost (some s.prevAddr) = r.cost prev := by
  have hprev := h.prev_iff r.paddr (misaligned_eq_false.mp hmis).1 (by omega)
  simp only [Region.cost, ne_eq, some.injEq, ← hprev, eq_comm (a := r.paddr)]

theorem LoopInv.loopBody (h : LoopInv c below rs prev s) (hfit : r.paddr + r.size < 2 ^ c.xlen)
    (hbody : Pmp.loopBody c s r = some s') :
    LoopInv c below (rs ++ [r]) (some (r.paddr + r.size)) s' := by
  have htwo := c.two_le_count
  unfold Pmp.loopBody at hbody
  split_ifs at hbody with hmis hfull hna4 hnapot hadj hroom
  all_goals
    obtain ⟨hal, hals⟩ := misaligned_eq_false.mp (Bool.not_eq_true _ ▸ hmis)
    have hend : c.grain ∣ r.paddr + r.size := Nat.dvd_add hal hals
    cases hbody
  · exact h.na4 (by omega) hfit hal hna4.2
  · exact h.napot (by omega) hfit hal hnapot.2
  · -- any other region takes a base entry and a TOR entry
    exact (h.off (by omega) hal).tor (by simp only; omega) hfit hend
  · obtain rfl := (h.prev_iff r.paddr hal (by omega)).mp (not_not.mp hadj)
    exact h.tor (by omega) hfit hend

end Step

/-- A run of the loop. It fails if and only if a region is misaligned or the entries do
    not suffice. -/
theorem loop_spec {c : Config} {below : ℕ} {rs regions : List Region} {prev : Option ℕ}
    {s : LoopState} (h : LoopInv c below rs prev s)
    (hfit : ∀ r ∈ regions, r.paddr + r.size < 2 ^ c.xlen) :
    (loop c s regions = none ↔ (∃ r ∈ regions, r.misaligned c = true) ∨
        c.count < s.pmp + entriesNeeded prev regions) ∧
      ∀ s', loop c s regions = some s' → ∃ prev', LoopInv c below (rs ++ regions) prev' s' := by
  induction regions generalizing rs prev s with
  | nil =>
    refine ⟨iff_of_false nofun ?_, fun s' hs' => ⟨prev, ?_⟩⟩
    · simpa [entriesNeeded] using h.pmp_le
    · cases hs'
      rwa [append_nil]
  | cons r regions ih =>
    rw [forall_mem_cons] at hfit
    have hmap := loopBody_map c s r
    simp only [loop, entriesNeeded, mem_cons, exists_eq_or_imp]
    cases hbody : loopBody c s r with
    | none =>
      refine ⟨iff_of_true rfl ?_, nofun⟩
      by_cases hmis : r.misaligned c = true
      · exact .inl (.inl hmis)
      rw [Bool.not_eq_true] at hmis
      rw [hbody, h.cost_eq hfit.1 hmis] at hmap
      have hfull : ¬ s.pmp + r.cost prev ≤ c.count := fun hle => by simp [hmis, hle] at hmap
      exact .inr (by omega)
    | some s' =>
      rw [hbody, map_some] at hmap
      split_ifs at hmap with hok
      obtain ⟨hpmp, -⟩ := Prod.mk.inj (some.inj hmap)
      rw [h.cost_eq hfit.1 hok.1] at hpmp
      obtain ⟨hnone, hinv⟩ := ih (h.loopBody hfit.1 hbody) hfit.2
      refine ⟨?_, fun s'' hs'' => ?_⟩
      · rw [hnone, hpmp, Nat.add_assoc, hok.1]
        simp
      · obtain ⟨prev', hinv⟩ := hinv s'' hs''
        exact ⟨prev', by simpa using hinv⟩

/-! ## The result -/

theorem clearRest_entries {c : Config} {below : ℕ} {rs : List Region} {s : LoopState}
    (h : EntriesFor c below s.tmp s.pmp rs) {n : ℕ} (hn : s.pmp ≤ n) (hle : n ≤ c.count) :
    EntriesFor c below (clearRest c s) n rs := by
  induction n, hn using le_induction with
  | base =>
    have hag : Agree s.tmp (clearRest c s) s.pmp := fun i hi =>
      ⟨by simp only [clearRest]; rw [if_neg (by omega)], rfl⟩
    intro a
    have ha := h a
    rw [hag.firstMatch]
    cases hm : firstMatch c below s.tmp s.pmp a with
    | none => simpa [hm] using ha
    | some i =>
      simp only [hm] at ha
      obtain ⟨hi, r, hr, hhas, mode, hcfg⟩ := ha
      exact ⟨hi, r, hr, hhas, mode, by rw [(hag i hi).1, hcfg]⟩
  | succ n hn ih =>
    refine (ih (by omega)).off (fun i hi => ⟨rfl, rfl⟩) ?_
    simp only [clearRest]
    rw [if_pos (by omega)]
    rfl

theorem EntriesFor.userAllows {c : Config} {below : ℕ} {ctx : PmpCtx} {rs : List Region}
    (h : EntriesFor c below ctx c.count rs)
    (hdisj : ∀ r ∈ rs, ∀ r' ∈ rs, ∀ a, r.Has a → r'.Has a → r = r') (a : ℕ) (k : Access) :
    userAllows c below ctx a k = true ↔ ∃ r ∈ rs, r.Has a ∧ r.allows k = true := by
  have ha := h a
  unfold Pmp.userAllows
  cases hm : firstMatch c below ctx c.count a with
  | none =>
    simp only [hm] at ha
    simp only [Bool.false_eq_true, false_iff, not_exists, not_and]
    intro r hr hhas
    exact absurd hhas (ha r hr)
  | some i =>
    simp only [hm] at ha
    obtain ⟨-, r, hr, hhas, mode, hcfg⟩ := ha
    simp only [hcfg, Region.allows_cfg]
    constructor
    · intro hk
      exact ⟨r, hr, hhas, hk⟩
    · rintro ⟨r', hr', hhas', hk⟩
      rwa [hdisj r hr r' hr' a hhas hhas']

/-- The regions have no byte in common. -/
def Region.Apart (r r' : Region) : Prop :=
  r.paddr + r.size ≤ r'.paddr ∨ r'.paddr + r'.size ≤ r.paddr

instance (r r' : Region) : Decidable (r.Apart r') := inferInstanceAs (Decidable (_ ∨ _))

/-- The call turns the regions into entries correctly: if it returns true, user code may access
    exactly the bytes of the regions, as each region says; if it returns false, the context is as
    before; and it returns false exactly if a region is misaligned or more entries are needed than
    there are, where `prev` is where the entry before the first one ends. -/
structure PmpExact (c : Config) (below : ℕ) (prev : Option ℕ) (tmp : PmpCtx)
    (regions : List Region) (ctx : PmpCtx) : Prop where
  allows : (riscvPmpMemprotect c tmp regions ctx).1 = true → ∀ a k,
    userAllows c below (riscvPmpMemprotect c tmp regions ctx).2 a k = true ↔
      ∃ r ∈ regions, r.Has a ∧ r.allows k = true
  unchanged : (riscvPmpMemprotect c tmp regions ctx).1 = false →
    (riscvPmpMemprotect c tmp regions ctx).2 = ctx
  fails_iff : (riscvPmpMemprotect c tmp regions ctx).1 = false ↔
    (∃ r ∈ regions, r.misaligned c = true) ∨ c.count < entriesNeeded prev regions

theorem riscvPmpMemprotect_spec (c : Config) (below : ℕ) (tmp : PmpCtx) (regions : List Region)
    (ctx : PmpCtx) (hdisj : regions.Pairwise Region.Apart)
    (hfit : ∀ r ∈ regions, r.paddr + r.size < 2 ^ c.xlen) :
    PmpExact c below (startEnd c) tmp regions ctx := by
  have hsame : ∀ r ∈ regions, ∀ r' ∈ regions, ∀ a, r.Has a → r'.Has a → r = r' := by
    intro r hr r' hr' a ha ha'
    by_contra hne
    have : Std.Symm Region.Apart := ⟨fun _ _ h => h.symm⟩
    have hapart := hdisj.forall hr hr' hne
    unfold Region.Apart at hapart
    unfold Region.Has at ha ha'
    omega
  obtain ⟨hnone, hinv⟩ := loop_spec (loopStart_inv c below tmp) hfit
  have hzero : (loopStart c tmp).pmp = 0 := rfl
  rw [hzero, Nat.zero_add] at hnone
  cases hrun : loop c (loopStart c tmp) regions with
  | none =>
    constructor <;> rw [riscvPmpMemprotect, hrun]
    · nofun
    · exact fun _ => rfl
    · exact iff_of_true rfl (hnone.mp hrun)
  | some s =>
    obtain ⟨prev, hinv⟩ := hinv s hrun
    constructor <;> rw [riscvPmpMemprotect, hrun]
    · exact fun _ => (clearRest_entries hinv.entries hinv.pmp_le le_rfl).userAllows hsame
    · nofun
    · exact iff_of_false nofun fun hbad => nomatch (hnone.mpr hbad).symm.trans hrun

/-- The configuration of the ESP32-C6 and ESP32-P4 ports. -/
def esp32 : Config :=
  ⟨0, 8, 4, 32, by norm_num, ⟨0, by norm_num⟩, by norm_num⟩

/-- A region of three pages at address 0 and seven single pages. -/
def eightRegions : List Region :=
  [⟨0, 0x3000, true, false⟩, ⟨0x10000, 0x1000, true, false⟩, ⟨0x20000, 0x1000, true, false⟩,
    ⟨0x30000, 0x1000, true, false⟩, ⟨0x40000, 0x1000, true, false⟩,
    ⟨0x50000, 0x1000, true, false⟩, ⟨0x60000, 0x1000, true, false⟩,
    ⟨0x70000, 0x1000, true, false⟩]

/-- A context without any entry. -/
def emptyCtx : PmpCtx := ⟨fun _ => PmpCfg.zero, fun _ => 0⟩

theorem riscvPmpMemprotect_spec_eightRegions :
    PmpExact esp32 0 (some 0) emptyCtx eightRegions emptyCtx :=
  riscvPmpMemprotect_spec esp32 0 emptyCtx eightRegions emptyCtx (by decide) (by decide)

/-- The first region has no predecessor and is no power of two in size, but starting at
    address 0 it needs no base entry: eight entries suffice. -/
theorem riscvPmpMemprotect_firstRegion :
    eightRegions.Pairwise Region.Apart ∧
      (∀ r ∈ eightRegions, 0 < r.size ∧ r.misaligned esp32 = false ∧
        r.paddr + r.size < 2 ^ esp32.xlen) ∧
      ¬ ∃ tmp ctx, PmpExact esp32 0 none tmp eightRegions ctx := by
  refine ⟨by decide, by decide, ?_⟩
  rintro ⟨tmp, ctx, h⟩
  have htrue : (riscvPmpMemprotect esp32 tmp eightRegions ctx).1 = true := rfl
  have hfalse := h.fails_iff.mpr (.inr (by decide))
  rw [htrue] at hfalse
  exact absurd hfalse.symm Bool.false_ne_true

/-! ## Revoking regions -/

/-- The regions of a process (`proc_memmap_t`) and its entries. -/
structure MemMap where
  regions : List Region
  ctx : PmpCtx

/-- `proc_unmap_raw` for ports with a PMP (`kernel/src/process/proc_memmap.c` lines 277–294).
    `none` is the failed assertion. -/
def procUnmapRaw (c : Config) (tmp : PmpCtx) (base : ℕ) (m : MemMap) : Option MemMap :=
  if ∃ r ∈ m.regions, r.paddr = base then
    let regions := m.regions.eraseP (·.paddr = base)
    let (ok, ctx) := riscvPmpMemprotect c tmp regions m.ctx
    if ok then some ⟨regions, ctx⟩ else none
  else some m

/-- The map of a process: `proc_map_raw` keeps a list only if the call succeeds for it, and
    `proc_unmap_raw` takes regions out. -/
inductive Granted (c : Config) : MemMap → Prop
  | map {tmp rs ctx} : (riscvPmpMemprotect c tmp rs ctx).1 = true →
      Granted c ⟨rs, (riscvPmpMemprotect c tmp rs ctx).2⟩
  | unmap {m m' tmp base} : Granted c m → procUnmapRaw c tmp base m = some m' → Granted c m'

/-- The call succeeds, whatever `tmp` holds. -/
def Accepts (c : Config) (rs : List Region) : Prop :=
  ∀ tmp ctx, (riscvPmpMemprotect c tmp rs ctx).1 = true

section Revoke

variable {c : Config} {s t t' : LoopState} {r : Region} {rs rs' : List Region}
  {tmp ctx : PmpCtx}

/-- A round that succeeds does so with fewer entries before it, or with as many and the same
    `prev_addr`, and is not ahead then. -/
theorem loopBody_of_le (h : s.pmp < t.pmp ∨ s.pmp ≤ t.pmp ∧ s.prevAddr = t.prevAddr)
    (ht : loopBody c t r = some t') :
    s.pmp < t'.pmp ∧
      ∃ s', loopBody c s r = some s' ∧ s'.pmp ≤ t'.pmp ∧ s'.prevAddr = t'.prevAddr := by
  have hcost (prev : Option ℕ) : 1 ≤ r.cost prev ∧ r.cost prev ≤ 2 := by
    unfold Region.cost
    split_ifs <;> omega
  have hmap := loopBody_map c t r
  rw [ht, map_some] at hmap
  split_ifs at hmap with hok
  obtain ⟨hpmp, hprev⟩ := Prod.mk.inj (some.inj hmap)
  have htcost := hcost (some t.prevAddr)
  have hle : s.pmp + r.cost (some s.prevAddr) ≤ t'.pmp := by
    rcases h with hlt | ⟨hle, heq⟩
    · have hscost := hcost (some s.prevAddr)
      omega
    · rw [heq]
      omega
  have hsome := loopBody_map c s r
  rw [if_pos ⟨hok.1, by omega⟩] at hsome
  obtain ⟨s', hs, heq⟩ := map_eq_some_iff.mp hsome
  obtain ⟨hpmp', hprev'⟩ := Prod.mk.inj heq
  exact ⟨by omega, s', hs, by omega, hprev'.trans hprev.symm⟩

theorem loop_cons : (loop c s (r :: rs)).isSome = true ↔
    ∃ s', loopBody c s r = some s' ∧ (loop c s' rs).isSome = true := by
  rw [loop]
  cases loopBody c s r <;> simp

/-- With regions left out the loop is never ahead. -/
theorem loop_of_sublist (hsub : rs'.Sublist rs)
    (h : s.pmp < t.pmp ∨ s.pmp ≤ t.pmp ∧ s.prevAddr = t.prevAddr)
    (ht : (loop c t rs).isSome = true) : (loop c s rs').isSome = true := by
  induction hsub generalizing s t with
  | slnil => rfl
  | cons r _ ih =>
    obtain ⟨t', hbody, ht⟩ := loop_cons.mp ht
    exact ih (.inl (loopBody_of_le h hbody).1) ht
  | cons_cons r _ ih =>
    obtain ⟨t', hbody, ht⟩ := loop_cons.mp ht
    obtain ⟨-, s', hs, hle⟩ := loopBody_of_le h hbody
    exact loop_cons.mpr ⟨s', hs, ih (.inr hle) ht⟩

theorem riscvPmpMemprotect_eq :
    (riscvPmpMemprotect c tmp rs ctx).1 = (loop c (loopStart c tmp) rs).isSome := by
  rw [riscvPmpMemprotect]
  cases loop c (loopStart c tmp) rs <;> rfl

theorem accepts_of_sublist (h : (riscvPmpMemprotect c tmp rs ctx).1 = true)
    (hsub : rs'.Sublist rs) : Accepts c rs' := by
  intro tmp' ctx'
  rw [riscvPmpMemprotect_eq] at h ⊢
  exact loop_of_sublist (t := loopStart c tmp) hsub (.inr ⟨le_rfl, rfl⟩) h

theorem Accepts.unmap {m : MemMap} (h : Accepts c m.regions) (tmp : PmpCtx) (base : ℕ) :
    ∃ m', procUnmapRaw c tmp base m = some m' ∧ Accepts c m'.regions := by
  unfold procUnmapRaw
  split_ifs with hmem
  · have herase := accepts_of_sublist (h tmp m.ctx) (eraseP_sublist (p := (·.paddr = base)))
    exact ⟨_, if_pos (herase tmp m.ctx), herase⟩
  · exact ⟨m, rfl, h⟩

theorem Granted.accepts {m : MemMap} (h : Granted c m) : Accepts c m.regions := by
  induction h with
  | map hok => exact accepts_of_sublist hok (.refl _)
  | @unmap m m' tmp base _ hstep ih =>
    obtain ⟨m₁, hm, haccepts⟩ := ih.unmap tmp base
    obtain rfl := some.inj (hm.symm.trans hstep)
    exact haccepts

/-- A list for which the call succeeds is one for which it succeeds without any one of the
    regions. So the assertion of `proc_unmap_raw` holds whatever a process has mapped. -/
theorem unmap_succeeds (c : Config) :
    (∀ {tmp rs ctx}, (riscvPmpMemprotect c tmp rs ctx).1 = true → ∀ i, Accepts c (rs.eraseIdx i)) ∧
      ∀ {m}, Granted c m → ∀ tmp base, (procUnmapRaw c tmp base m).isSome = true := by
  refine ⟨fun h _ => accepts_of_sublist h (eraseIdx_sublist ..), fun h tmp base => ?_⟩
  obtain ⟨m', hm, -⟩ := h.accepts.unmap tmp base
  rw [hm]
  rfl

end Revoke

/-- Eight regions, one of which is deleted or unmapped. -/
theorem unmap_succeeds_esp32 : Accepts esp32 eightRegions.tail ∧ ∃ ctx,
    (procUnmapRaw esp32 emptyCtx 0x10000 ⟨eightRegions, ctx⟩).isSome = true := by
  have hok : (riscvPmpMemprotect esp32 emptyCtx eightRegions emptyCtx).1 = true := by decide
  exact ⟨(unmap_succeeds esp32).1 hok 0, _, (unmap_succeeds esp32).2 (.map hok) ..⟩

end BadgerOS.Memprotect.Pmp

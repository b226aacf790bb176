import BadgerOS.Common.Word
import BadgerOS.Lib.Radix
import BadgerOS.Memprotect.Flags

/-!
# The RISC-V MMU and page-table walks

Models of the page-table entries of `kernel/cpu/riscv/include/cpu/mmu.h` and of
the lookups of `kernel/port/generic/src/memprotect.c`:

* `Paging` holds what `mmu_early_init` and `mmu_init` find out about the MMU:
  the number of levels (Sv39, Sv48 or Sv57) and whether Svpbmt is there.
* A page-table entry is the 64-bit word of `mmu_pte_t`; `mmuPteNewLeaf` and
  `mmuPteNew` build it and the accessors read its bit fields back.
* `ptWalk` and `memprotectVirt2phys` look a page and an address up. Their result
  is `none` where the source calls `panic_abort`.

`Pmem` is the physical memory as 64-bit words: every access of these functions is
to an aligned word. The log messages are left out, and so are the assertions
`assert_dev_drop`, which only development builds check.

`ptLookup` is the walk reduced to what it finds. `ptWalkLoop_eq` and
`memprotectVirt2phys_eq` express both source functions by it, and
`ptLookup_congr` says that it only depends on the digits of the page number that
it has read.
-/

namespace BadgerOS.Memprotect

/-! ## Geometry -/

/-- What the kernel knows of the MMU (`mmu_levels` and `mmu_svpbmt`,
    `cpu/riscv/src/memprotect/mmu.c` lines 25–29). `mmu_early_init` computes the
    levels from the `satp` mode, one of Sv39, Sv48 and Sv57. -/
structure Paging where
  levels : ℕ
  svpbmt : Bool
  three_le : 3 ≤ levels
  le_five : levels ≤ 5

namespace Paging

/-- Three levels, without Svpbmt. -/
def sv39 : Paging := ⟨3, false, by decide, by decide⟩

/-- `mmu_half_size` (`mmu.c` line 67). -/
def halfSize (pg : Paging) : ℕ := 2 ^ (11 + 9 * pg.levels)

/-- `mmu_high_vaddr = -mmu_half_size` (`mmu.c` line 68). -/
def highVaddr (pg : Paging) : ℕ := 2 ^ 64 - pg.halfSize

/-- `mmu_half_pages` (`mmu.h` line 124). -/
def halfPages (pg : Paging) : ℕ := pg.halfSize / 4096

/-- `mmu_high_vpn` (`mmu.h` line 122). -/
def highVpn (pg : Paging) : ℕ := pg.highVaddr / 4096

theorem levels_cases (pg : Paging) : pg.levels = 3 ∨ pg.levels = 4 ∨ pg.levels = 5 := by
  have := pg.three_le
  have := pg.le_five
  omega

theorem sizes (pg : Paging) : (pg.halfSize = 2 ^ 38 ∧ pg.highVaddr = 2 ^ 64 - 2 ^ 38 ∧ pg.halfPages = 2 ^ 26 ∧
        pg.highVpn = 2 ^ 52 - 2 ^ 26 ∧ 512 ^ pg.levels = 2 ^ 27) ∨
      (pg.halfSize = 2 ^ 47 ∧ pg.highVaddr = 2 ^ 64 - 2 ^ 47 ∧ pg.halfPages = 2 ^ 35 ∧
        pg.highVpn = 2 ^ 52 - 2 ^ 35 ∧ 512 ^ pg.levels = 2 ^ 36) ∨
      (pg.halfSize = 2 ^ 56 ∧ pg.highVaddr = 2 ^ 64 - 2 ^ 56 ∧ pg.halfPages = 2 ^ 44 ∧
        pg.highVpn = 2 ^ 52 - 2 ^ 44 ∧ 512 ^ pg.levels = 2 ^ 45) := by
  unfold highVpn halfPages highVaddr halfSize
  rcases pg.levels_cases with h | h | h <;> rw [h] <;> norm_num

end Paging

/-! ## Page-table entries -/

/-! A page-table entry is the word `val` of `mmu_pte_t` (`mmu.h` lines 39–73). -/

/-- `MMU_PTE_NULL`. -/
def mmuPteNull : ℕ := 0

/-- The field `pbmt` that `mmu_pte_new_leaf` chooses (`mmu.h` lines 152–156). -/
def pbmtOf (pg : Paging) (flags : Flags) : ℕ :=
  if pg.svpbmt && flags.io then 2 else if pg.svpbmt && flags.nc then 1 else 0

/-- `mmu_pte_new_leaf` (`mmu.h` lines 144–159). The field `ppn` has 44 bits. -/
def mmuPteNewLeaf (pg : Paging) (ppn : ℕ) (flags : Flags) : ℕ :=
  flags.any.toNat + 2 * flags.r.toNat + 4 * flags.w.toNat + 8 * flags.x.toNat +
    16 * (!flags.kernel).toNat + 32 * flags.global.toNat + 64 + 128 +
    2 ^ 10 * (ppn % 2 ^ 44) + 2 ^ 61 * pbmtOf pg flags

/-- `mmu_pte_new` (`mmu.h` lines 161–166). -/
def mmuPteNew (ppn : ℕ) : ℕ := 1 + 2 ^ 10 * (ppn % 2 ^ 44)

/-- `mmu_pte_is_valid` (`mmu.h` lines 171–173). -/
def mmuPteIsValid (pte : ℕ) : Bool := pte % 2 = 1

/-- `mmu_pte_is_leaf` (`mmu.h` lines 175–177). -/
def mmuPteIsLeaf (pte : ℕ) : Bool := pte / 2 % 8 ≠ 0

/-- `mmu_pte_get_flags` (`mmu.h` lines 179–181). -/
def mmuPteGetFlags (pte : ℕ) : Flags where
  r := pte / 2 % 2 = 1
  w := pte / 4 % 2 = 1
  x := pte / 8 % 2 = 1
  global := pte / 32 % 2 = 1
  kernel := !decide (pte / 16 % 2 = 1)
  io := false
  nc := false

/-- `mmu_pte_get_ppn` (`mmu.h` lines 183–185). -/
def mmuPteGetPpn (pte : ℕ) : ℕ := pte / 2 ^ 10 % 2 ^ 44

/-- The bit fields of an entry do not overlap. -/
theorem pteFields {v r w x u g ppn pbmt n : ℕ} (hv : v ≤ 1) (hr : r ≤ 1) (hw : w ≤ 1)
    (hx : x ≤ 1) (hu : u ≤ 1) (hg : g ≤ 1) (hppn : ppn < 2 ^ 44)
    (hn : n = v + 2 * r + 4 * w + 8 * x + 16 * u + 32 * g + 64 + 128 + 2 ^ 10 * ppn +
      2 ^ 61 * pbmt) :
    n % 2 = v ∧ n / 2 % 2 = r ∧ n / 4 % 2 = w ∧ n / 8 % 2 = x ∧ n / 16 % 2 = u ∧
      n / 32 % 2 = g ∧ n / 2 ^ 10 % 2 ^ 44 = ppn := by
  obtain ⟨k, hk⟩ : ∃ k, k = 3 + 16 * ppn + 2 ^ 55 * pbmt := ⟨_, rfl⟩
  have hbits : n = v + 2 * (r + 2 * (w + 2 * (x + 2 * (u + 2 * (g + 2 * k))))) := by omega
  obtain ⟨low, hlow, hlt⟩ : ∃ low, n = low + 2 ^ 10 * (ppn + 2 ^ 51 * pbmt) ∧ low < 2 ^ 10 :=
    ⟨v + 2 * r + 4 * w + 8 * x + 16 * u + 32 * g + 64 + 128, by omega, by omega⟩
  exact ⟨by omega, by omega, by omega, by omega, by omega, by omega, by omega⟩

/-- The combined field `rwx` consists of the three access bits. -/
theorem rwxField (n : ℕ) : n / 2 % 8 = n / 2 % 2 + 2 * (n / 4 % 2) + 4 * (n / 8 % 2) := by
  have h4 : n / 4 = n / 2 / 2 := by rw [Nat.div_div_eq_div_mul]
  have h8 : n / 8 = n / 2 / 2 / 2 := by rw [Nat.div_div_eq_div_mul, Nat.div_div_eq_div_mul]
  rw [h4, h8]
  omega

section Fields

variable (pg : Paging) (ppn : ℕ) (flags : Flags)

theorem mmuPteNewLeaf_fields : mmuPteNewLeaf pg ppn flags % 2 = flags.any.toNat ∧
      mmuPteNewLeaf pg ppn flags / 2 % 2 = flags.r.toNat ∧
      mmuPteNewLeaf pg ppn flags / 4 % 2 = flags.w.toNat ∧
      mmuPteNewLeaf pg ppn flags / 8 % 2 = flags.x.toNat ∧
      mmuPteNewLeaf pg ppn flags / 16 % 2 = (!flags.kernel).toNat ∧
      mmuPteNewLeaf pg ppn flags / 32 % 2 = flags.global.toNat ∧
      mmuPteNewLeaf pg ppn flags / 2 ^ 10 % 2 ^ 44 = ppn % 2 ^ 44 :=
  pteFields flags.any.toNat_le flags.r.toNat_le flags.w.toNat_le flags.x.toNat_le
    (!flags.kernel).toNat_le flags.global.toNat_le (Nat.mod_lt _ (by norm_num)) rfl

@[simp] theorem mmuPteIsValid_newLeaf : mmuPteIsValid (mmuPteNewLeaf pg ppn flags) = flags.any := by
  rw [mmuPteIsValid, (mmuPteNewLeaf_fields pg ppn flags).1]
  cases flags.any <;> rfl

@[simp] theorem mmuPteIsLeaf_newLeaf : mmuPteIsLeaf (mmuPteNewLeaf pg ppn flags) = flags.any := by
  obtain ⟨-, hr, hw, hx, -⟩ := mmuPteNewLeaf_fields pg ppn flags
  rw [mmuPteIsLeaf, rwxField, hr, hw, hx, Rwx.any]
  cases flags.r <;> cases flags.w <;> cases flags.x <;> rfl

@[simp] theorem mmuPteGetPpn_newLeaf :
    mmuPteGetPpn (mmuPteNewLeaf pg ppn flags) = ppn % 2 ^ 44 :=
  (mmuPteNewLeaf_fields pg ppn flags).2.2.2.2.2.2

/-- The flags come back without the memory type, which `mmu_pte_get_flags` does not report. -/
@[simp] theorem mmuPteGetFlags_newLeaf :
    mmuPteGetFlags (mmuPteNewLeaf pg ppn flags) = { flags with io := false, nc := false } := by
  obtain ⟨-, hr, hw, hx, hu, hg, -⟩ := mmuPteNewLeaf_fields pg ppn flags
  unfold mmuPteGetFlags
  rw [hr, hw, hx, hu, hg]
  obtain ⟨⟨r, w, x⟩, g, k, io, nc⟩ := flags
  cases r <;> cases w <;> cases x <;> cases g <;> cases k <;> rfl

@[simp] theorem mmuPteIsValid_new : mmuPteIsValid (mmuPteNew ppn) = true := by
  unfold mmuPteIsValid mmuPteNew
  rw [decide_eq_true_iff]
  generalize ppn % 2 ^ 44 = field
  omega

@[simp] theorem mmuPteIsLeaf_new : mmuPteIsLeaf (mmuPteNew ppn) = false := by
  unfold mmuPteIsLeaf mmuPteNew
  rw [decide_eq_false_iff_not, not_not]
  generalize ppn % 2 ^ 44 = field
  omega

@[simp] theorem mmuPteGetPpn_new : mmuPteGetPpn (mmuPteNew ppn) = ppn % 2 ^ 44 := by
  have hlt : ppn % 2 ^ 44 < 2 ^ 44 := Nat.mod_lt _ (by norm_num)
  unfold mmuPteGetPpn mmuPteNew
  generalize ppn % 2 ^ 44 = field at *
  omega

end Fields

theorem mmuPteIsLeaf_eq_any (pte : ℕ) : mmuPteIsLeaf pte = (mmuPteGetFlags pte).any := by
  unfold mmuPteIsLeaf mmuPteGetFlags Rwx.any
  rw [rwxField]
  rcases Nat.mod_two_eq_zero_or_one (pte / 2) with hr | hr <;>
    rcases Nat.mod_two_eq_zero_or_one (pte / 4) with hw | hw <;>
    rcases Nat.mod_two_eq_zero_or_one (pte / 8) with hx | hx <;>
    simp [hr, hw, hx]

/-! ## Physical memory -/

/-- Physical memory by word number (`paddr / 8`). -/
abbrev Pmem := ℕ → ℕ

/-- `mmu_read_pte` (`mmu.c` lines 92–94). -/
def mmuReadPte (mem : Pmem) (paddr : ℕ) : ℕ := mem (paddr / 8)

/-- `mmu_write_pte` (`mmu.c` lines 97–99). -/
def mmuWritePte (mem : Pmem) (paddr : ℕ) (pte : ℕ) : Pmem :=
  Function.update mem (paddr / 8) pte

/-- The address of entry `index` of the table in page `pt`, in the source
    `pt * MMU_PAGE_SIZE + index * sizeof(mmu_pte_t)`. -/
def ptePaddr (pt index : ℕ) : ℕ := pt * 4096 + index * 8

/-- The word number of an entry. -/
def pteWord (pt index : ℕ) : ℕ := pt * 512 + index

theorem ptePaddr_div (pt index : ℕ) : ptePaddr pt index / 8 = pteWord pt index := by
  unfold ptePaddr pteWord
  omega

theorem mmuReadPte_ptePaddr (mem : Pmem) (pt index : ℕ) : mmuReadPte mem (ptePaddr pt index) = mem (pteWord pt index) := by
  rw [mmuReadPte, ptePaddr_div]

theorem mmuWritePte_ptePaddr (mem : Pmem) (pt index : ℕ) (pte : ℕ) :
    mmuWritePte mem (ptePaddr pt index) pte = Function.update mem (pteWord pt index) pte := by
  rw [mmuWritePte, ptePaddr_div]

theorem pteWord_inj {pt pt' i i' : ℕ} (hi : i < 512) (hi' : i' < 512)
    (h : pteWord pt i = pteWord pt' i') : pt = pt' ∧ i = i' := by
  unfold pteWord at h
  omega

/-! ## Page-table walks -/

/-- `mmu_vpn_part` (`mmu.h` lines 136–138). -/
def mmuVpnPart (vpn level : ℕ) : ℕ := vpn >>> (9 * level) &&& 0x1ff

theorem mmuVpnPart_eq (vpn level : ℕ) : mmuVpnPart vpn level = Radix.digit 512 level vpn := by
  have hpow : (2 : ℕ) ^ (9 * level) = 512 ^ level := by rw [pow_mul]; norm_num
  rw [mmuVpnPart, Radix.digit, Nat.shiftRight_eq_div_pow, hpow]
  exact Nat.and_two_pow_sub_one_eq_mod _ 9

theorem mmuVpnPart_lt (vpn level : ℕ) : mmuVpnPart vpn level < 512 := by
  rw [mmuVpnPart_eq]
  exact Radix.digit_lt (by norm_num) _ _

/-- The result of a walk (`pt_walk_t`, `mmu.h` lines 90–102). -/
structure PtWalk where
  paddr : ℕ
  pte : ℕ
  level : ℕ
  found : Bool
  vaddrValid : Bool
deriving DecidableEq, Repr

/-- The test for a misaligned superpage (line 112). The shift is one of `int`; at
    the level 4 of Sv57 C leaves it undefined and the target shifts by 36 - 32. -/
def superpageMisaligned (level : ℕ) (pte : ℕ) : Bool :=
  level ≠ 0 && mmuPteGetPpn pte &&& sizeSub (sizeShl (9 * level)) 1 ≠ 0

/-- The loop of `pt_walk` (lines 96–136) from `level` down, `pt` being the table
    to read next. `none` is one of the two `panic_abort` calls. -/
def ptWalkLoop (mem : Pmem) (vpn : ℕ) : ℕ → ℕ → Option PtWalk
  | level, pt =>
    let pteAddr := ptePaddr pt (mmuVpnPart vpn level)
    let pte := mmuReadPte mem pteAddr
    if !mmuPteIsValid pte then
      some ⟨pteAddr, pte, level, false, true⟩
    else if mmuPteIsLeaf pte then
      if superpageMisaligned level pte then none else some ⟨pteAddr, pte, level, true, true⟩
    else
      match level with
      | 0 => none
      | level + 1 => ptWalkLoop mem vpn level (mmuPteGetPpn pte)

/-- `pt_walk` (`port/generic/src/memprotect.c` lines 87–142). -/
def ptWalk (pg : Paging) (mem : Pmem) (ptPpn vpn : ℕ) : Option PtWalk :=
  if pg.halfPages ≤ vpn ∧ vpn < pg.highVpn then some ⟨0, 0, 0, false, false⟩
  else ptWalkLoop mem vpn (pg.levels - 1) ptPpn

/-- The result of a lookup (`virt2phys_t`, `kernel/include/memprotect.h` lines 33–44). -/
structure Virt2phys where
  flags : Flags
  paddr : ℕ
  pageVaddr : ℕ
  pagePaddr : ℕ
  pageSize : ℕ
deriving DecidableEq, Repr

/-- `(virt2phys_t){0}`. -/
def Virt2phys.zero : Virt2phys := ⟨Flags.zero, 0, 0, 0, 0⟩

/-- The result for a page that was found (lines 333–341). -/
def Virt2phys.ofLeaf (level pte vaddr : ℕ) : Virt2phys :=
  let pageSize := 4096 <<< (9 * level)
  let pagePaddr := mmuPteGetPpn pte * 4096
  ⟨mmuPteGetFlags pte, pagePaddr + (vaddr &&& (pageSize - 1)),
    vaddr - (vaddr &&& (pageSize - 1)), pagePaddr, pageSize⟩

/-- `memprotect_virt2phys` (lines 323–344) in the context with root table `root`. -/
def memprotectVirt2phys (pg : Paging) (mem : Pmem) (root vaddr : ℕ) : Option Virt2phys :=
  if pg.halfSize ≤ vaddr ∧ vaddr < pg.highVaddr then some Virt2phys.zero
  else
    match ptWalk pg mem root (vaddr / 4096) with
    | none => none
    | some walk =>
      if walk.found then some (Virt2phys.ofLeaf walk.level walk.pte vaddr)
      else some Virt2phys.zero

/-! ## What a walk finds -/

/-- What the tables hold for a page: a leaf entry of some level, nothing, or a
    table entry at level 0. -/
inductive Lookup
  | leaf (level : ℕ) (pte : ℕ)
  | hole
  | broken
deriving DecidableEq, Repr

/-- The walk of `pt_walk` without its alignment check. -/
def ptLookup (mem : Pmem) (vpn : ℕ) : ℕ → ℕ → Lookup
  | level, pt =>
    let pte := mem (pteWord pt (mmuVpnPart vpn level))
    if mmuPteIsValid pte = false then .hole
    else if mmuPteIsLeaf pte then .leaf level pte
    else
      match level with
      | 0 => .broken
      | level + 1 => ptLookup mem vpn level (mmuPteGetPpn pte)

section LookupSteps

variable {mem : Pmem} {vpn level pt : ℕ}

attribute [local simp] ptLookup

theorem ptLookup_hole (h : mmuPteIsValid (mem (pteWord pt (mmuVpnPart vpn level))) = false) :
    ptLookup mem vpn level pt = .hole := by
  cases level <;> simp [h]

theorem ptLookup_leaf (hv : mmuPteIsValid (mem (pteWord pt (mmuVpnPart vpn level))) = true)
    (hl : mmuPteIsLeaf (mem (pteWord pt (mmuVpnPart vpn level))) = true) :
    ptLookup mem vpn level pt = .leaf level (mem (pteWord pt (mmuVpnPart vpn level))) := by
  cases level <;> simp [hv, hl]

theorem ptLookup_table (hv : mmuPteIsValid (mem (pteWord pt (mmuVpnPart vpn (level + 1)))) = true)
    (hl : mmuPteIsLeaf (mem (pteWord pt (mmuVpnPart vpn (level + 1)))) = false) :
    ptLookup mem vpn (level + 1) pt =
      ptLookup mem vpn level (mmuPteGetPpn (mem (pteWord pt (mmuVpnPart vpn (level + 1))))) := by
  rw [ptLookup]
  simp [hv, hl]

end LookupSteps

/-- The walk of the source in terms of what it finds. -/
theorem ptWalkLoop_eq (mem : Pmem) (vpn level pt : ℕ) : match ptLookup mem vpn level pt with
    | .leaf k pte =>
      if superpageMisaligned k pte then ptWalkLoop mem vpn level pt = none
      else ∃ paddr, ptWalkLoop mem vpn level pt = some ⟨paddr, pte, k, true, true⟩
    | .hole => ∃ paddr pte k, ptWalkLoop mem vpn level pt = some ⟨paddr, pte, k, false, true⟩
    | .broken => ptWalkLoop mem vpn level pt = none := by
  induction level generalizing pt with
  | zero =>
    rw [ptLookup, ptWalkLoop]
    simp only [mmuReadPte_ptePaddr]
    by_cases hv : mmuPteIsValid (mem (pteWord pt (mmuVpnPart vpn 0))) = true
    · by_cases hl : mmuPteIsLeaf (mem (pteWord pt (mmuVpnPart vpn 0))) = true
      · by_cases hs : superpageMisaligned 0 (mem (pteWord pt (mmuVpnPart vpn 0))) = true
        · simp [hv, hl, hs]
        · simp [hv, hl, hs]
      · simp [hv, hl]
    · simp [hv]
  | succ level ih =>
    rw [ptLookup, ptWalkLoop]
    simp only [mmuReadPte_ptePaddr]
    by_cases hv : mmuPteIsValid (mem (pteWord pt (mmuVpnPart vpn (level + 1)))) = true
    · by_cases hl : mmuPteIsLeaf (mem (pteWord pt (mmuVpnPart vpn (level + 1)))) = true
      · by_cases hs :
          superpageMisaligned (level + 1) (mem (pteWord pt (mmuVpnPart vpn (level + 1)))) = true
        · simp [hv, hl, hs]
        · simp [hv, hl, hs]
      · simp only [hv, hl, Bool.not_true, Bool.false_eq_true, if_false]
        exact ih _
    · simp [hv]

/-- The lookup of an address outside the hole between the two halves, in terms of
    what the walk finds. -/
theorem memprotectVirt2phys_eq {pg : Paging} {vaddr : ℕ} (mem : Pmem) (root : ℕ)
    (hv : ¬ (pg.halfSize ≤ vaddr ∧ vaddr < pg.highVaddr)) : memprotectVirt2phys pg mem root vaddr =
      match ptLookup mem (vaddr / 4096) (pg.levels - 1) root with
      | .leaf k pte =>
        if superpageMisaligned k pte then none else some (Virt2phys.ofLeaf k pte vaddr)
      | .hole => some Virt2phys.zero
      | .broken => none := by
  have hvpn : ¬ (pg.halfPages ≤ vaddr / 4096 ∧ vaddr / 4096 < pg.highVpn) := by
    rcases pg.sizes with h | h | h <;> omega
  have hwalk := ptWalkLoop_eq mem (vaddr / 4096) (pg.levels - 1) root
  rw [memprotectVirt2phys, if_neg hv, ptWalk, if_neg hvpn]
  cases hl : ptLookup mem (vaddr / 4096) (pg.levels - 1) root with rw [hl] at hwalk
  | leaf k pte =>
    by_cases hs : superpageMisaligned k pte = true
    · simp only [hs, if_true] at hwalk ⊢
      rw [hwalk]
    · simp only [hs] at hwalk ⊢
      obtain ⟨paddr, hwalk⟩ := hwalk
      rw [hwalk]
      rfl
  | hole =>
    obtain ⟨paddr, pte, k, hwalk⟩ := hwalk
    rw [hwalk]
    rfl
  | broken =>
    simp only at hwalk
    rw [hwalk]

/-- The words that a lookup reads. -/
def ptReads (mem : Pmem) (vpn : ℕ) : ℕ → ℕ → List ℕ
  | level, pt =>
    let word := pteWord pt (mmuVpnPart vpn level)
    if mmuPteIsValid (mem word) && !mmuPteIsLeaf (mem word) then
      match level with
      | 0 => [word]
      | level + 1 => word :: ptReads mem vpn level (mmuPteGetPpn (mem word))
    else [word]

/-- Memory that holds the same words where a lookup reads gives the same result. -/
theorem ptLookup_of_reads {mem mem' : Pmem} {vpn level pt : ℕ}
    (h : ∀ word ∈ ptReads mem vpn level pt, mem' word = mem word) :
    ptLookup mem' vpn level pt = ptLookup mem vpn level pt := by
  induction level generalizing pt with
  | zero =>
    have hword := h (pteWord pt (mmuVpnPart vpn 0)) (by rw [ptReads]; split_ifs <;> simp)
    rw [ptLookup, ptLookup, hword]
  | succ level ih =>
    have hword := h (pteWord pt (mmuVpnPart vpn (level + 1))) (by rw [ptReads]; split_ifs <;> simp)
    by_cases hv : mmuPteIsValid (mem (pteWord pt (mmuVpnPart vpn (level + 1)))) = true
    · by_cases hl : mmuPteIsLeaf (mem (pteWord pt (mmuVpnPart vpn (level + 1)))) = true
      · rw [ptLookup_leaf (by rw [hword, hv]) (by rw [hword, hl]), hword, ptLookup_leaf hv hl]
      · rw [Bool.not_eq_true] at hl
        rw [ptLookup_table (by rw [hword, hv]) (by rw [hword, hl]), hword, ptLookup_table hv hl]
        refine ih fun word hmem => h word ?_
        rw [ptReads]
        simp [hv, hl, hmem]
    · rw [Bool.not_eq_true] at hv
      rw [ptLookup_hole (by rw [hword, hv]), ptLookup_hole hv]

theorem ptLookup_level_le {mem : Pmem} {vpn level pt k pte : ℕ}
    (h : ptLookup mem vpn level pt = .leaf k pte) : k ≤ level := by
  induction level generalizing pt with
  | zero =>
    rw [ptLookup] at h
    split_ifs at h
    simp only [Lookup.leaf.injEq] at h
    omega
  | succ level ih =>
    rw [ptLookup] at h
    split_ifs at h
    · simp only [Lookup.leaf.injEq] at h
      omega
    · exact (ih h).trans (Nat.le_succ level)

theorem ptLookup_isLeaf {mem : Pmem} {vpn level pt k pte : ℕ}
    (h : ptLookup mem vpn level pt = .leaf k pte) : mmuPteIsLeaf pte = true := by
  induction level generalizing pt with
  | zero =>
    rw [ptLookup] at h
    split_ifs at h with hv hl
    simp only [Lookup.leaf.injEq] at h
    rw [← h.2, hl]
  | succ level ih =>
    rw [ptLookup] at h
    split_ifs at h with hv hl
    · simp only [Lookup.leaf.injEq] at h
      rw [← h.2, hl]
    · exact ih h

/-- A lookup only depends on the digits that it reads: the leaf of a block serves
    every page of the block. -/
theorem ptLookup_congr {mem : Pmem} {vpn vpn' level pt k pte : ℕ}
    (h : ptLookup mem vpn level pt = .leaf k pte) (hsame : vpn / 512 ^ k = vpn' / 512 ^ k) :
    ptLookup mem vpn' level pt = .leaf k pte := by
  induction level generalizing pt with
  | zero =>
    have hk : k = 0 := by
      have := ptLookup_level_le h
      omega
    have hvpn : vpn' = vpn := by simpa [hk] using hsame.symm
    rw [hvpn, h]
  | succ level ih =>
    have hpart (hk : k ≤ level + 1) : mmuVpnPart vpn' (level + 1) = mmuVpnPart vpn (level + 1) := by
      rw [mmuVpnPart_eq, mmuVpnPart_eq]
      exact (Radix.digit_eq_of_same hk hsame).symm
    rw [ptLookup] at h
    split_ifs at h with hv hl
    · cases h
      rw [← hpart le_rfl] at hv hl ⊢
      exact ptLookup_leaf (by simpa using hv) hl
    · have hk : k ≤ level := ptLookup_level_le h
      rw [← hpart (by omega)] at hv hl h
      rw [ptLookup_table (by simpa using hv) (by simpa using hl)]
      exact ih h

end BadgerOS.Memprotect

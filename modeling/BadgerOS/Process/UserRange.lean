import BadgerOS.Memprotect.Mmu

/-!
# Range checks on user memory

Model of `proc_map_contains_raw` for targets with virtual memory
(`kernel/src/process/proc_memmap.c` lines 175–195), the check that every system
call makes on a user pointer, and what it computes.

The loop advances by the rest of the page or superpage that it has just looked
up. The model gives it one unit of fuel per byte and one for the last round.
`containsLoop_spec` shows that this suffices: each round either returns or moves
on by at least one byte.

A *user table* is one whose lower half can be walked without meeting a corrupt
entry (`UserTable`).
-/

namespace BadgerOS.Process

open Memprotect Rwx

/-! ## Model -/

/-- The loop of `proc_map_contains_raw` (lines 180–194). `none` stands for a panic
    of the page-table walk, or for fuel that has run out. -/
def containsLoop (pg : Paging) (mem : Pmem) (root : ℕ) : ℕ → ℕ → ℕ → Rwx → Option Rwx
  | 0, _, _, _ => none
  | fuel + 1, vaddr, size, flags =>
    match memprotectVirt2phys pg mem root vaddr with
    | none => none
    | some info =>
      let flags := flags.inter info.flags.toRwx
      if flags.any = false then some Rwx.zero
      else
        let inc := sizeSub info.pageSize (vaddr &&& sizeSub info.pageSize 1)
        if size ≤ inc then some flags
        else containsLoop pg mem root fuel (sizeAdd vaddr inc) (sizeSub size inc) flags

/-- `proc_map_contains_raw` (lines 175–195) for the process whose page table has the root `root`. -/
def procMapContainsRaw (pg : Paging) (mem : Pmem) (root vaddr size : ℕ) : Option Rwx :=
  if pg.highVaddr ≤ vaddr ∨ pg.highVaddr < sizeAdd vaddr size then some Rwx.zero
  else containsLoop pg mem root (size + 1) vaddr size Rwx.all

/-! ## Pages of user memory -/

/-- The lower half can be walked without a panic. -/
def UserTable (pg : Paging) (mem : Pmem) (root : ℕ) : Prop :=
  ∀ vpn < pg.halfPages, ptWalk pg mem root vpn ≠ none

/-- The byte at `vaddr` lies in the lower half and a leaf entry maps it. -/
def UserMapped (pg : Paging) (mem : Pmem) (root vaddr : ℕ) : Prop :=
  vaddr < pg.halfSize ∧ ∃ k pte, ptLookup mem (vaddr / 4096) (pg.levels - 1) root = .leaf k pte

/-- The access bits of the leaf entry that maps `vaddr`. -/
def pageRwx (pg : Paging) (mem : Pmem) (root vaddr : ℕ) : Rwx :=
  match ptLookup mem (vaddr / 4096) (pg.levels - 1) root with
  | .leaf _ pte => (mmuPteGetFlags pte).toRwx
  | _ => Rwx.zero

section Leaf

variable {pg : Paging} {mem : Pmem} {root : ℕ}

/-- In a user table the lookup of a byte in the lower half returns, with the leaf
    that maps the byte or with nothing. -/
theorem UserTable.virt2phys (h : UserTable pg mem root) {vaddr : ℕ} (hv : vaddr < pg.halfSize) :
    (∃ k pte, ptLookup mem (vaddr / 4096) (pg.levels - 1) root = .leaf k pte ∧
        k < pg.levels ∧ (mmuPteGetFlags pte).any = true ∧
        memprotectVirt2phys pg mem root vaddr = some (Virt2phys.ofLeaf k pte vaddr)) ∨
      (ptLookup mem (vaddr / 4096) (pg.levels - 1) root = .hole ∧
        memprotectVirt2phys pg mem root vaddr = some Virt2phys.zero) := by
  have hvpn : vaddr / 4096 < pg.halfPages := by rcases pg.sizes with h | h | h <;> omega
  have hwalk := ptWalkLoop_eq mem (vaddr / 4096) (pg.levels - 1) root
  have hok := h _ hvpn
  rw [ptWalk, if_neg (by omega)] at hok
  have hv2p := memprotectVirt2phys_eq mem root
    (show ¬ (pg.halfSize ≤ vaddr ∧ vaddr < pg.highVaddr) by omega)
  cases hl : ptLookup mem (vaddr / 4096) (pg.levels - 1) root with
  | leaf k pte =>
    rw [hl] at hwalk hv2p
    have hs : superpageMisaligned k pte = false := by
      by_contra hs
      simp only [Bool.not_eq_false] at hs
      simp only [hs, if_true] at hwalk
      exact hok hwalk
    have hk := ptLookup_level_le hl
    have := pg.three_le
    refine .inl ⟨k, pte, rfl, by omega, ?_, by simpa [hs] using hv2p⟩
    rw [← mmuPteIsLeaf_eq_any]
    exact ptLookup_isLeaf hl
  | hole =>
    rw [hl] at hv2p
    exact .inr ⟨rfl, hv2p⟩
  | broken =>
    rw [hl] at hwalk
    exact absurd hwalk hok

/-- The bytes from `vaddr` to the end of the block of level `k` around it. -/
def blockRest (k vaddr : ℕ) : ℕ := 4096 * 512 ^ k - vaddr % (4096 * 512 ^ k)

theorem blockSize_eq (k : ℕ) : 4096 * 512 ^ k = 2 ^ (12 + 9 * k) := by
  rw [pow_add, pow_mul]
  norm_num

theorem blockRest_pos (k vaddr : ℕ) : 0 < blockRest k vaddr := by
  have := Nat.mod_lt vaddr (show 0 < 4096 * 512 ^ k by positivity)
  unfold blockRest
  omega

theorem add_blockRest_le {k vaddr : ℕ} (hk : k < pg.levels) (hv : vaddr < pg.halfSize) :
    vaddr + blockRest k vaddr ≤ pg.halfSize := by
  have hpos : 0 < 4096 * 512 ^ k := by positivity
  obtain ⟨q, hq⟩ : 4096 * 512 ^ k ∣ pg.halfSize := by
    rw [blockSize_eq]
    exact pow_dvd_pow 2 (by omega)
  have hdiv : vaddr / (4096 * 512 ^ k) < q := by
    rw [Nat.div_lt_iff_lt_mul hpos, Nat.mul_comm, ← hq]
    exact hv
  calc vaddr + blockRest k vaddr
      = 4096 * 512 ^ k * (vaddr / (4096 * 512 ^ k) + 1) := by
        have h1 := Nat.div_add_mod vaddr (4096 * 512 ^ k)
        have h2 := Nat.mod_lt vaddr hpos
        rw [Nat.mul_add, Nat.mul_one]
        unfold blockRest
        omega
    _ ≤ pg.halfSize := by
        rw [hq]
        exact Nat.mul_le_mul_left _ hdiv

theorem add_div_block {k vaddr i : ℕ} (hi : i < blockRest k vaddr) :
    vaddr / 4096 / 512 ^ k = (vaddr + i) / 4096 / 512 ^ k := by
  have hpos : 0 < 4096 * 512 ^ k := by positivity
  rw [Nat.div_div_eq_div_mul, Nat.div_div_eq_div_mul]
  have h1 := Nat.div_add_mod vaddr (4096 * 512 ^ k)
  have h2 := Nat.mod_lt vaddr hpos
  symm
  apply Nat.div_eq_of_lt_le
  · rw [Nat.mul_comm]
    omega
  · rw [Nat.succ_mul, Nat.mul_comm]
    unfold blockRest at hi
    omega

theorem ofLeaf_pageSize (k pte vaddr : ℕ) : (Virt2phys.ofLeaf k pte vaddr).pageSize = 4096 * 512 ^ k := by
  show 4096 <<< (9 * k) = _
  rw [Nat.shiftLeft_eq, pow_mul]
  norm_num

/-- The advance that the loops compute from a lookup. -/
theorem ofLeaf_rest {k pte vaddr : ℕ} (hk : k < pg.levels) : sizeSub (Virt2phys.ofLeaf k pte vaddr).pageSize
        (vaddr &&& sizeSub (Virt2phys.ofLeaf k pte vaddr).pageSize 1) = blockRest k vaddr := by
  have hle : 2 ^ (12 + 9 * k) ≤ 2 ^ 48 := Nat.pow_le_pow_right (by norm_num) (by
    have := pg.le_five
    omega)
  have hpos : 0 < 2 ^ (12 + 9 * k) := by positivity
  have hmod := Nat.mod_lt vaddr hpos
  have hmask : sizeSub (2 ^ (12 + 9 * k)) 1 = 2 ^ (12 + 9 * k) - 1 :=
    sizeSub_eq (by omega) (by omega)
  rw [ofLeaf_pageSize, blockSize_eq, hmask, Nat.and_two_pow_sub_one_eq_mod,
    sizeSub_eq (by omega) (by omega), blockRest, blockSize_eq]

theorem pageRwx_block {k pte vaddr i : ℕ} (hl : ptLookup mem (vaddr / 4096) (pg.levels - 1) root = .leaf k pte)
    (hi : i < blockRest k vaddr) :
    pageRwx pg mem root (vaddr + i) = (mmuPteGetFlags pte).toRwx := by
  rw [pageRwx, ptLookup_congr hl (add_div_block hi)]

end Leaf

/-! ## The result of the check -/

/-- The access bits that user code has at a byte: those of its page, and none
    outside the lower half. -/
def userRwx (pg : Paging) (mem : Pmem) (root vaddr : ℕ) : Rwx :=
  if vaddr < pg.halfSize then pageRwx pg mem root vaddr else Rwx.zero

theorem userRwx_of_not_mapped {pg : Paging} {mem : Pmem} {root vaddr : ℕ}
    (h : ¬ UserMapped pg mem root vaddr) : userRwx pg mem root vaddr = zero := by
  rw [userRwx]
  split_ifs with hv
  · rw [pageRwx]
    cases hl : ptLookup mem (vaddr / 4096) (pg.levels - 1) root with
    | leaf k pte => exact absurd ⟨hv, k, pte, hl⟩ h
    | hole => rfl
    | broken => rfl
  · rfl

/-- `flags` is the bitwise AND of `init` and of the access bits at all bytes of the range. -/
def IsMeet (pg : Paging) (mem : Pmem) (root vaddr size : ℕ) (init flags : Rwx) : Prop :=
  ∀ k, flags.allows k = true ↔
    init.allows k = true ∧
      ∀ i < size, (userRwx pg mem root ((vaddr + i) % 2 ^ 64)).allows k = true

section Meet

variable {pg : Paging} {mem : Pmem} {root vaddr size : ℕ} {init : Rwx}

/-- One byte without access in common with `init` makes the AND zero. -/
theorem IsMeet.zero_of_byte {i : ℕ} (hi : i < size)
    (h : (init.inter (userRwx pg mem root ((vaddr + i) % 2 ^ 64))).any = false) :
    IsMeet pg mem root vaddr size init zero := by
  intro k
  constructor
  · intro hk
    simp at hk
  · rintro ⟨hinit, hall⟩
    have hz : (init.inter (userRwx pg mem root ((vaddr + i) % 2 ^ 64))).allows k = true := by
      rw [allows_inter, hinit, hall i hi, Bool.and_self]
    rw [eq_zero_of_any h] at hz
    simp at hz

theorem IsMeet.zero_of_hole {i : ℕ} (hi : i < size) (h : userRwx pg mem root ((vaddr + i) % 2 ^ 64) = zero) :
    IsMeet pg mem root vaddr size init zero := by
  refine IsMeet.zero_of_byte hi ?_
  rw [h, inter, any]
  simp [zero]

theorem IsMeet.block {k pte : ℕ} (hv : vaddr + size ≤ pg.halfSize) (hs : 1 ≤ size)
    (hl : ptLookup mem (vaddr / 4096) (pg.levels - 1) root = .leaf k pte)
    (hle : size ≤ blockRest k vaddr) :
    IsMeet pg mem root vaddr size init (init.inter (mmuPteGetFlags pte).toRwx) := by
  have hbyte : ∀ i < size, userRwx pg mem root ((vaddr + i) % 2 ^ 64) =
      (mmuPteGetFlags pte).toRwx := by
    intro i hi
    rw [Nat.mod_eq_of_lt (by rcases pg.sizes with h | h | h <;> omega), userRwx,
      if_pos (by omega), pageRwx_block hl (by omega)]
  intro a
  rw [allows_inter, Bool.and_eq_true]
  constructor
  · rintro ⟨hinit, hflags⟩
    exact ⟨hinit, fun i hi => by rw [hbyte i hi]; exact hflags⟩
  · rintro ⟨hinit, hall⟩
    have := hall 0 (by omega)
    rw [hbyte 0 (by omega)] at this
    exact ⟨hinit, this⟩

theorem IsMeet.append {k pte : ℕ} {flags : Rwx} (hk : k < pg.levels) (hv : vaddr < pg.halfSize)
    (hl : ptLookup mem (vaddr / 4096) (pg.levels - 1) root = .leaf k pte)
    (hlt : blockRest k vaddr < size)
    (h : IsMeet pg mem root (vaddr + blockRest k vaddr) (size - blockRest k vaddr) (init.inter
      (mmuPteGetFlags pte).toRwx) flags) : IsMeet pg mem root vaddr size init flags := by
  have hend := add_blockRest_le hk hv
  have hfirst : IsMeet pg mem root vaddr (blockRest k vaddr) init
      (init.inter (mmuPteGetFlags pte).toRwx) :=
    IsMeet.block hend (blockRest_pos k vaddr) hl le_rfl
  intro a
  rw [h a, hfirst a]
  constructor
  · rintro ⟨⟨hinit, hlow⟩, hhigh⟩
    refine ⟨hinit, fun i hi => ?_⟩
    by_cases hi' : i < blockRest k vaddr
    · exact hlow i hi'
    · have := hhigh (i - blockRest k vaddr) (by omega)
      rwa [show vaddr + blockRest k vaddr + (i - blockRest k vaddr) = vaddr + i by omega] at this
  · rintro ⟨hinit, hall⟩
    refine ⟨⟨hinit, fun i hi => hall i (by omega)⟩, fun i hi => ?_⟩
    have := hall (blockRest k vaddr + i) (by omega)
    rwa [← Nat.add_assoc] at this

theorem containsLoop_unmapped (fuel : ℕ) (h : memprotectVirt2phys pg mem root vaddr = some Virt2phys.zero) :
    containsLoop pg mem root (fuel + 1) vaddr size init = some zero := by
  have hz : (init.inter zero).any = false := by
    rw [inter, any]
    simp [zero]
  rw [containsLoop, h]
  exact if_pos hz

/-- The loop returns the AND over the range, with a unit of fuel for each byte and
    one for the round that returns. -/
theorem containsLoop_spec (hwf : UserTable pg mem root) {fuel : ℕ} (hfuel : size < fuel)
    (hv : vaddr ≤ pg.halfSize) (hs : 1 ≤ size) (hs' : size < 2 ^ 64) :
    ∃ flags, containsLoop pg mem root fuel vaddr size init = some flags ∧
      IsMeet pg mem root vaddr size init flags := by
  induction fuel generalizing vaddr size init with
  | zero => omega
  | succ fuel ih =>
    have hsizes := pg.sizes
    have hvaddr : vaddr % 2 ^ 64 = vaddr := Nat.mod_eq_of_lt (by omega)
    by_cases hlow : vaddr < pg.halfSize
    · rcases hwf.virt2phys hlow with ⟨k, pte, hl, hk, hany, hinfo⟩ | ⟨hl, hinfo⟩
      · have hend := add_blockRest_le hk hlow
        have hbyte : userRwx pg mem root ((vaddr + 0) % 2 ^ 64) = (mmuPteGetFlags pte).toRwx := by
          rw [Nat.add_zero, hvaddr, userRwx, if_pos hlow]
          exact pageRwx_block hl (blockRest_pos k vaddr)
        rw [containsLoop, hinfo]
        simp only [ofLeaf_rest hk]
        show ∃ flags, (if (init.inter (mmuPteGetFlags pte).toRwx).any = false then _ else _) = _ ∧ _
        by_cases hz : (init.inter (mmuPteGetFlags pte).toRwx).any = false
        · rw [if_pos hz]
          exact ⟨_, rfl, IsMeet.zero_of_byte (i := 0) (by omega) (by rw [hbyte]; exact hz)⟩
        · rw [if_neg hz]
          by_cases hle : size ≤ blockRest k vaddr
          · rw [if_pos hle]
            exact ⟨_, rfl, IsMeet.block (by omega) hs hl hle⟩
          · have hpos := blockRest_pos k vaddr
            rw [if_neg hle, sizeAdd_eq (by omega), sizeSub_eq (by omega) hs']
            obtain ⟨flags, hloop, hmeet⟩ := @ih (vaddr + blockRest k vaddr)
              (size - blockRest k vaddr) (init.inter (mmuPteGetFlags pte).toRwx)
              (by omega) hend (by omega) (by omega)
            exact ⟨flags, hloop, IsMeet.append hk hlow hl (by omega) hmeet⟩
      · have hbyte : userRwx pg mem root ((vaddr + 0) % 2 ^ 64) = zero := by
          rw [Nat.add_zero, hvaddr, userRwx, if_pos hlow, pageRwx, hl]
        exact ⟨_, containsLoop_unmapped fuel hinfo, IsMeet.zero_of_hole (by omega) hbyte⟩
    · -- the lower half has been passed: the next byte is not canonical
      have hbyte : userRwx pg mem root ((vaddr + 0) % 2 ^ 64) = zero := by
        rw [Nat.add_zero, hvaddr, userRwx, if_neg hlow]
      have hinfo : memprotectVirt2phys pg mem root vaddr = some Virt2phys.zero := by
        rw [memprotectVirt2phys, if_pos (by omega)]
      exact ⟨_, containsLoop_unmapped fuel hinfo, IsMeet.zero_of_hole (by omega) hbyte⟩

/-- The check returns the AND of the access bits at all bytes of the range. -/
theorem procMapContainsRaw_meet (hwf : UserTable pg mem root) (hv : vaddr < 2 ^ 64) (hs : 1 ≤ size)
    (hs' : size < 2 ^ 64) : ∃ flags, procMapContainsRaw pg mem root vaddr size = some flags ∧
      IsMeet pg mem root vaddr size all flags := by
  have hsizes := pg.sizes
  -- a byte outside the lower half has no access
  have hout {i : ℕ} (hi : i < size) (h : pg.halfSize ≤ (vaddr + i) % 2 ^ 64) :
      IsMeet pg mem root vaddr size all zero :=
    IsMeet.zero_of_hole hi (by rw [userRwx, if_neg (by omega)])
  rw [procMapContainsRaw]
  by_cases hhigh : pg.highVaddr ≤ vaddr ∨ pg.highVaddr < sizeAdd vaddr size
  · rw [if_pos hhigh]
    refine ⟨_, rfl, ?_⟩
    rcases hhigh with hhigh | hhigh
    · exact hout (i := 0) (by omega) (by rw [Nat.add_zero, Nat.mod_eq_of_lt hv]; omega)
    · refine hout (i := size - 1) (by omega) ?_
      unfold sizeAdd at hhigh
      omega
  · rw [if_neg hhigh]
    by_cases hlow : vaddr ≤ pg.halfSize
    · exact containsLoop_spec hwf (by omega) hlow hs hs'
    · have hinfo : memprotectVirt2phys pg mem root vaddr = some Virt2phys.zero := by
        rw [memprotectVirt2phys, if_pos (by omega)]
      exact ⟨_, containsLoop_unmapped _ hinfo,
        hout (i := 0) (by omega) (by rw [Nat.add_zero, Nat.mod_eq_of_lt hv]; omega)⟩

end Meet

/-- The check terminates. It returns no access if a byte of the range (addresses
    wrap at `2 ^ 64`) is unmapped, not canonical or in the kernel half. Otherwise
    it returns exactly the accesses that the pages of all bytes have in common. -/
theorem procMapContainsRaw_spec (pg : Paging) (mem : Pmem) (root vaddr size : ℕ)
    (hwf : UserTable pg mem root) (hv : vaddr < 2 ^ 64) (hs : 1 ≤ size) (hs' : size < 2 ^ 64) :
    ∃ flags, procMapContainsRaw pg mem root vaddr size = some flags ∧
      ((∃ i < size, ¬ UserMapped pg mem root ((vaddr + i) % 2 ^ 64)) → flags = Rwx.zero) ∧
      ((∀ i < size, UserMapped pg mem root ((vaddr + i) % 2 ^ 64)) →
        ∀ k, flags.allows k = true ↔
          ∀ i < size, (pageRwx pg mem root ((vaddr + i) % 2 ^ 64)).allows k = true) := by
  obtain ⟨flags, hrun, hmeet⟩ := procMapContainsRaw_meet hwf hv hs hs'
  refine ⟨flags, hrun, ?_, ?_⟩
  · rintro ⟨i, hi, hun⟩
    refine ext_allows fun k => ?_
    rw [allows_zero, Bool.eq_false_iff]
    intro hk
    have hbyte := ((hmeet k).mp hk).2 i hi
    rw [userRwx_of_not_mapped hun] at hbyte
    simp at hbyte
  · intro hall k
    rw [hmeet k]
    simp only [allows_all, true_and]
    refine forall₂_congr fun i hi => ?_
    rw [userRwx, if_pos (hall i hi).1]

/-- A table in page 1 whose only entry maps the first gibibyte to the second gibibyte
    of physical memory. -/
def gibibyteTable (flags : Flags) : Pmem :=
  Function.update (fun _ => 0) (pteWord 1 0) (mmuPteNewLeaf Paging.sv39 (2 ^ 18) flags)

theorem gibibyteTable_entry (flags : Flags) {i : ℕ} (hi : i ≠ 0) : gibibyteTable flags (pteWord 1 i) = 0 := by
  rw [gibibyteTable, Function.update_of_ne]
  unfold pteWord
  omega

theorem gibibyteTable_lookup {flags : Flags} (h : flags.any = true) (vpn : ℕ) : ptLookup (gibibyteTable flags) vpn 2 1 =
      if mmuVpnPart vpn 2 = 0 then .leaf 2 (mmuPteNewLeaf Paging.sv39 (2 ^ 18) flags)
      else .hole := by
  have hfirst : gibibyteTable flags (pteWord 1 0) = mmuPteNewLeaf Paging.sv39 (2 ^ 18) flags :=
    Function.update_self ..
  by_cases hpart : mmuVpnPart vpn 2 = 0
  · rw [if_pos hpart, ptLookup_leaf] <;> simp [hpart, hfirst, h]
  · rw [if_neg hpart]
    refine ptLookup_hole ?_
    rw [gibibyteTable_entry flags hpart]
    rfl

theorem gibibyteTable_userTable {flags : Flags} (h : flags.any = true) : UserTable Paging.sv39 (gibibyteTable flags) 1 := by
  intro vpn hvpn
  have hwalk := ptWalkLoop_eq (gibibyteTable flags) vpn 2 1
  have hs : superpageMisaligned 2 (mmuPteNewLeaf Paging.sv39 (2 ^ 18) flags) = false := by
    rw [superpageMisaligned, mmuPteGetPpn_newLeaf]
    decide
  rw [ptWalk, if_neg (by omega)]
  show ptWalkLoop (gibibyteTable flags) vpn 2 1 ≠ none
  rw [gibibyteTable_lookup h] at hwalk
  by_cases hpart : mmuVpnPart vpn 2 = 0
  · simp only [hpart, if_true, hs] at hwalk
    obtain ⟨paddr, hwalk⟩ := hwalk
    simp [hwalk]
  · simp only [hpart, if_false] at hwalk
    obtain ⟨paddr, pte, k, hwalk⟩ := hwalk
    simp [hwalk]

/-- Readable and writable. -/
def flagsRw : Flags := ⟨⟨true, true, false⟩, false, false, false, false⟩

theorem procMapContainsRaw_spec_gibibyte :
    UserTable Paging.sv39 (gibibyteTable flagsRw) 1 ∧
      ∃ flags, procMapContainsRaw Paging.sv39 (gibibyteTable flagsRw) 1 4096 8192 = some flags ∧
        ((∃ i < 8192, ¬ UserMapped Paging.sv39 (gibibyteTable flagsRw) 1 ((4096 + i) % 2 ^ 64)) →
          flags = Rwx.zero) ∧
        ((∀ i < 8192, UserMapped Paging.sv39 (gibibyteTable flagsRw) 1 ((4096 + i) % 2 ^ 64)) →
          ∀ k, flags.allows k = true ↔
            ∀ i < 8192, (pageRwx Paging.sv39 (gibibyteTable flagsRw) 1
              ((4096 + i) % 2 ^ 64)).allows k = true) := ⟨gibibyteTable_userTable rfl, procMapContainsRaw_spec Paging.sv39 (gibibyteTable flagsRw) 1
    4096 8192 (gibibyteTable_userTable rfl) (by norm_num) (by norm_num) (by norm_num)⟩

end BadgerOS.Process

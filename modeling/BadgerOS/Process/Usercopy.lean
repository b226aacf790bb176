import BadgerOS.Process.UserRange

/-!
# Copies between user and kernel memory

Models of `copy_from_user_raw` and `copy_to_user_raw`
(`kernel/cpu/riscv/src/usercopy.c` lines 65–108) for the S-mode kernel with
virtual memory, and which accesses of the process they respect.

**Deviation.** Both functions only test that `proc_map_contains_raw` is not zero:
that the pages of the range have *some* access in common. `copy_to_user_raw` then
writes through the direct map of physical memory, where no page protection
applies, and `copy_from_user_raw` reads with `MXR` set, which makes executable
pages readable. So a buffer of read-only pages can be written, and a buffer of
execute-only pages both read and written. `copies_respect_access_iff` says that
this is the only way in which the copies exceed the rights of the process.

The kernel's buffer is a list of bytes outside the memory that the process maps.
The assertion on the flag `KERNEL` is one of development builds and left out.
-/

namespace BadgerOS.Process

open Memprotect List Nat

/-! ## Bytes of physical memory -/

/-- The byte at physical address `a`. -/
def byteAt (mem : Pmem) (a : ℕ) : ℕ := mem (a / 8) / 256 ^ (a % 8) % 256

/-- Memory after the byte at physical address `a` was set to `b`. -/
def setByte (mem : Pmem) (a b : ℕ) : Pmem :=
  Function.update mem (a / 8)
    (mem (a / 8) / 256 ^ (a % 8 + 1) * 256 ^ (a % 8 + 1) + b % 256 * 256 ^ (a % 8) +
      mem (a / 8) % 256 ^ (a % 8))

/-- `mem_copy` to physical address `a` through the direct map. -/
def storeBytes (mem : Pmem) : ℕ → List ℕ → Pmem
  | _, [] => mem
  | a, b :: bytes => storeBytes (setByte mem a b) (a + 1) bytes

theorem storeBytes_of_ne {mem : Pmem} {a word : ℕ} {bytes : List ℕ}
    (h : ∀ i < bytes.length, word ≠ (a + i) / 8) : storeBytes mem a bytes word = mem word := by
  induction bytes generalizing mem a with
  | nil => rfl
  | cons b bytes ih =>
    rw [storeBytes, ih, setByte, Function.update_of_ne]
    · exact h 0 (by simp)
    · intro i hi
      have := h (i + 1) (by simpa using hi)
      rwa [show a + (i + 1) = a + 1 + i by omega] at this

/-! ## Model -/

/-- The loop of `copy_to_user_raw` (lines 95–105), with a unit of fuel for each
    round. The page tables are read from the memory that the copy writes to. -/
def copyToLoop (pg : Paging) (root : ℕ) : ℕ → Pmem → ℕ → List ℕ → Option Pmem
  | 0, mem, _, src => if src = [] then some mem else none
  | fuel + 1, mem, vaddr, src =>
    if src = [] then some mem
    else
      match memprotectVirt2phys pg mem root vaddr with
      | none => none
      | some info =>
        let maxLen := sizeSub info.pageSize (vaddr &&& sizeSub info.pageSize 1)
        let maxLen := if src.length < maxLen then src.length else maxLen
        copyToLoop pg root fuel (storeBytes mem info.paddr (src.take maxLen))
          (sizeAdd vaddr maxLen) (src.drop maxLen)

/-- `copy_to_user_raw` (lines 88–108): what it returns and the memory it leaves. -/
def copyToUserRaw (pg : Paging) (mem : Pmem) (root vaddr : ℕ) (src : List ℕ) :
    Option (Bool × Pmem) :=
  match procMapContainsRaw pg mem root vaddr src.length with
  | none => none
  | some flags =>
    if flags.any = false then some (false, mem)
    else (copyToLoop pg root src.length mem vaddr src).map fun mem => (true, mem)

/-- A load of the kernel from user memory, with `SUM` and `MXR` set: it needs a page
    that is readable or executable. -/
def userLoad (pg : Paging) (mem : Pmem) (root vaddr : ℕ) : Option ℕ :=
  match memprotectVirt2phys pg mem root vaddr with
  | none => none
  | some info => if info.flags.r || info.flags.x then some (byteAt mem info.paddr) else none

/-- The loads of `mem_copy` in `copy_from_user_raw`. -/
def loadBytes (pg : Paging) (mem : Pmem) (root : ℕ) : ℕ → ℕ → Option (List ℕ)
  | _, 0 => some []
  | vaddr, len + 1 =>
    match userLoad pg mem root vaddr with
    | none => none
    | some b => (loadBytes pg mem root (sizeAdd vaddr 1) len).map (b :: ·)

/-- `copy_from_user_raw` (lines 65–83): what it returns and the kernel buffer it leaves. -/
def copyFromUserRaw (pg : Paging) (mem : Pmem) (root vaddr len : ℕ) (buf : List ℕ) :
    Option (Bool × List ℕ) :=
  match procMapContainsRaw pg mem root vaddr len with
  | none => none
  | some flags =>
    if flags.any = false then some (false, buf)
    else (loadBytes pg mem root vaddr len).map fun bytes => (true, bytes ++ buf.drop len)

/-! ## Address spaces of processes -/

/-- The lower half of a page table as `memprotect_u` maintains it: it can be walked,
    its pages are user pages, none is writable without being readable, and none of
    its pages is a page of the table. -/
structure UserSpace (pg : Paging) (mem : Pmem) (root : ℕ) : Prop where
  table : UserTable pg mem root
  user : ∀ {vpn k pte}, vpn < pg.halfPages →
    ptLookup mem vpn (pg.levels - 1) root = .leaf k pte → (mmuPteGetFlags pte).kernel = false
  readable : ∀ {vpn k pte}, vpn < pg.halfPages →
    ptLookup mem vpn (pg.levels - 1) root = .leaf k pte →
      (mmuPteGetFlags pte).w = true → (mmuPteGetFlags pte).r = true
  apart : ∀ {vaddr k pte}, vaddr < pg.halfSize →
    ptLookup mem (vaddr / 4096) (pg.levels - 1) root = .leaf k pte →
      ∀ vpn < pg.halfPages, ∀ word ∈ ptReads mem vpn (pg.levels - 1) root,
        word ≠ (Virt2phys.ofLeaf k pte vaddr).paddr / 8

/-- User code may make the access `k` at `vaddr`. -/
def UserAllows (pg : Paging) (mem : Pmem) (root vaddr : ℕ) (k : Access) : Prop :=
  vaddr < pg.halfSize ∧ ∃ level pte,
    ptLookup mem (vaddr / 4096) (pg.levels - 1) root = .leaf level pte ∧
      (mmuPteGetFlags pte).kernel = false ∧ (mmuPteGetFlags pte).allows k = true

section UserSpace

variable {pg : Paging} {mem : Pmem} {root vaddr len : ℕ}

theorem UserSpace.allows_iff (h : UserSpace pg mem root) (k : Access) :
    (userRwx pg mem root vaddr).allows k = true ↔ UserAllows pg mem root vaddr k := by
  have hvpn (hv : vaddr < pg.halfSize) : vaddr / 4096 < pg.halfPages := by
    rcases pg.sizes with h | h | h <;> omega
  unfold userRwx UserAllows
  by_cases hv : vaddr < pg.halfSize
  · rw [if_pos hv, pageRwx]
    constructor
    · intro hk
      cases hl : ptLookup mem (vaddr / 4096) (pg.levels - 1) root with
      | leaf level pte =>
        rw [hl] at hk
        exact ⟨hv, level, pte, rfl, h.user (hvpn hv) hl, hk⟩
      | hole => simp [hl] at hk
      | broken => simp [hl] at hk
    · rintro ⟨-, level, pte, hl, -, hk⟩
      rw [hl]
      exact hk
  · rw [if_neg hv]
    simp [hv]

theorem UserSpace.read_of_write (h : UserSpace pg mem root)
    (hw : UserAllows pg mem root vaddr .write) : UserAllows pg mem root vaddr .read := by
  obtain ⟨hv, level, pte, hl, hk, hpte⟩ := hw
  have hvpn : vaddr / 4096 < pg.halfPages := by rcases pg.sizes with h | h | h <;> omega
  exact ⟨hv, level, pte, hl, hk, h.readable hvpn hl hpte⟩

/-- The check of a non-empty range passes exactly where all bytes have an access in common. -/
theorem UserSpace.contains_any (h : UserSpace pg mem root) (hv : vaddr < 2 ^ 64) (hl : 1 ≤ len) (hlen : len < 2 ^ 64) :
    ∃ flags, procMapContainsRaw pg mem root vaddr len = some flags ∧
      (flags.any = true ↔ ∃ k, ∀ i < len, UserAllows pg mem root ((vaddr + i) % 2 ^ 64) k) := by
  obtain ⟨flags, hrun, hmeet⟩ := procMapContainsRaw_meet h.table hv hl hlen
  refine ⟨flags, hrun, ?_⟩
  rw [Rwx.any_eq_true_iff]
  refine exists_congr fun k => ?_
  rw [hmeet k]
  simp only [Rwx.allows_all, true_and, h.allows_iff]

theorem range_le_half {P : ℕ → Prop} (hP : ∀ a, P a → a < pg.halfSize) (hv : vaddr < 2 ^ 64)
    (h : ∀ i < len, P ((vaddr + i) % 2 ^ 64)) (hl : 1 ≤ len) : vaddr + len ≤ pg.halfSize := by
  have hsizes := pg.sizes
  have h0 := hP _ (h 0 (by omega))
  rw [Nat.add_zero, mod_eq_of_lt hv] at h0
  by_contra hlt
  -- the first byte beyond the lower half is in the range
  have hbyte := hP _ (h (pg.halfSize - vaddr) (by omega))
  rw [show vaddr + (pg.halfSize - vaddr) = pg.halfSize by omega, mod_eq_of_lt (by omega)] at hbyte
  omega

end UserSpace

/-- The copies to and from the `len` bytes at `vaddr` respect the rights of the
    process: they succeed only where user code could have made the accesses itself,
    and change nothing where they fail. -/
structure CopiesRespectAccess (pg : Paging) (mem : Pmem) (root vaddr len : ℕ) : Prop where
  to_user : ∀ src mem', src.length = len →
    copyToUserRaw pg mem root vaddr src = some (true, mem') →
      ∀ i < len, UserAllows pg mem root ((vaddr + i) % 2 ^ 64) .write
  from_user : ∀ buf buf', copyFromUserRaw pg mem root vaddr len buf = some (true, buf') →
    ∀ i < len, UserAllows pg mem root ((vaddr + i) % 2 ^ 64) .read
  to_user_fails : ∀ src mem', src.length = len →
    copyToUserRaw pg mem root vaddr src = some (false, mem') → mem' = mem
  from_user_fails : ∀ buf buf',
    copyFromUserRaw pg mem root vaddr len buf = some (false, buf') → buf' = buf

/-- The answer of a copy is that of its check; a refused copy leaves the target alone. -/
theorem guarded_eq_some {α β : Type} {check : Option Rwx} {run : Option α} {f : α → β} {old new : β} {ok : Bool}
    (h : (match check with
      | none => none
      | some flags =>
        if flags.any = false then some (false, old) else run.map fun x => (true, f x)) =
      some (ok, new)) :
    ∃ flags, check = some flags ∧ flags.any = ok ∧ (ok = false → new = old) := by
  cases check with
  | none => contradiction
  | some flags =>
    cases hany : flags.any with
    | false =>
      simp only [hany, if_true, Option.some.injEq, Prod.mk.injEq] at h
      obtain ⟨rfl, rfl⟩ := h
      exact ⟨flags, rfl, hany, fun _ => rfl⟩
    | true =>
      simp only [hany, Bool.true_eq_false, if_false, Option.map_eq_some_iff, Prod.mk.injEq] at h
      obtain ⟨-, -, rfl, -⟩ := h
      exact ⟨flags, rfl, hany, fun hf => absurd hf (by simp)⟩

theorem copyToUserRaw_eq_some {pg : Paging} {mem mem' : Pmem} {root vaddr : ℕ} {src : List ℕ}
    {ok : Bool} (h : copyToUserRaw pg mem root vaddr src = some (ok, mem')) :
    ∃ flags, procMapContainsRaw pg mem root vaddr src.length = some flags ∧ flags.any = ok ∧
      (ok = false → mem' = mem) := by
  unfold copyToUserRaw at h
  exact guarded_eq_some h

theorem copyFromUserRaw_eq_some {pg : Paging} {mem : Pmem} {root vaddr len : ℕ} {buf buf' : List ℕ} {ok : Bool}
    (h : copyFromUserRaw pg mem root vaddr len buf = some (ok, buf')) :
    ∃ flags, procMapContainsRaw pg mem root vaddr len = some flags ∧ flags.any = ok ∧
      (ok = false → buf' = buf) := by
  unfold copyFromUserRaw at h
  exact guarded_eq_some h

/-! ## The copies return -/

section Returns

variable {pg : Paging} {mem mem' : Pmem} {root vaddr : ℕ}

/-- `mem'` holds the words of the lower half's tables as `mem` does. -/
def SameTables (pg : Paging) (root : ℕ) (mem mem' : Pmem) : Prop :=
  ∀ vpn < pg.halfPages, ∀ word ∈ ptReads mem vpn (pg.levels - 1) root, mem' word = mem word

theorem SameTables.virt2phys (h : SameTables pg root mem mem') (hv : vaddr < pg.halfSize) :
    memprotectVirt2phys pg mem' root vaddr = memprotectVirt2phys pg mem root vaddr := by
  have hvpn : vaddr / 4096 < pg.halfPages := by rcases pg.sizes with h | h | h <;> omega
  rw [memprotectVirt2phys_eq mem' root (by omega), memprotectVirt2phys_eq mem root (by omega),
    ptLookup_of_reads (h _ hvpn)]

theorem ofLeaf_paddr_add {k pte i : ℕ} (hi : i < blockRest k vaddr) :
    (Virt2phys.ofLeaf k pte (vaddr + i)).paddr = (Virt2phys.ofLeaf k pte vaddr).paddr + i := by
  have hpos : 0 < 4096 * 512 ^ k := by positivity
  have hmod : (vaddr + i) % (4096 * 512 ^ k) = vaddr % (4096 * 512 ^ k) + i := by
    unfold blockRest at hi
    rw [add_mod, mod_eq_of_lt (show i < 4096 * 512 ^ k by omega), mod_eq_of_lt (by omega)]
  have hsize : 4096 <<< (9 * k) = 2 ^ (12 + 9 * k) := by
    rw [Nat.shiftLeft_eq, pow_add]
    norm_num
  show mmuPteGetPpn pte * 4096 + (vaddr + i &&& (4096 <<< (9 * k) - 1)) =
    mmuPteGetPpn pte * 4096 + (vaddr &&& (4096 <<< (9 * k) - 1)) + i
  rw [hsize, and_two_pow_sub_one_eq_mod, and_two_pow_sub_one_eq_mod, ← blockSize_eq, hmod]
  omega

theorem SameTables.storeBytes (hsp : UserSpace pg mem root) (h : SameTables pg root mem mem')
    {k pte : ℕ} {bytes : List ℕ} (hk : k < pg.levels) (hv : vaddr < pg.halfSize)
    (hl : ptLookup mem (vaddr / 4096) (pg.levels - 1) root = .leaf k pte)
    (hlen : bytes.length ≤ blockRest k vaddr) :
    SameTables pg root mem (storeBytes mem' (Virt2phys.ofLeaf k pte vaddr).paddr bytes) := by
  intro vpn hvpn word hword
  rw [storeBytes_of_ne, h vpn hvpn word hword]
  intro i hi
  have hend := add_blockRest_le hk hv
  have hli := ptLookup_congr hl (add_div_block (show i < blockRest k vaddr by omega))
  rw [← ofLeaf_paddr_add (by omega)]
  exact hsp.apart (by omega) hli vpn hvpn word hword

theorem copyToLoop_returns (hsp : UserSpace pg mem root) {fuel : ℕ} {src : List ℕ}
    (h : SameTables pg root mem mem') (hfuel : src.length ≤ fuel)
    (hend : vaddr + src.length ≤ pg.halfSize)
    (hmap : ∀ i < src.length, UserMapped pg mem root (vaddr + i)) :
    ∃ mem'', copyToLoop pg root fuel mem' vaddr src = some mem'' := by
  induction fuel generalizing mem' vaddr src with
  | zero =>
    have hnil : src = [] := eq_nil_of_length_eq_zero (by omega)
    exact ⟨mem', by rw [copyToLoop, if_pos hnil]⟩
  | succ fuel ih =>
    by_cases hnil : src = []
    · exact ⟨mem', by rw [copyToLoop, if_pos hnil]⟩
    · have hpos : 0 < src.length := length_pos_of_ne_nil hnil
      have hsizes := pg.sizes
      obtain ⟨hv, -⟩ := hmap 0 hpos
      rw [Nat.add_zero] at hv
      rcases hsp.table.virt2phys hv with ⟨k, pte, hl, hk, -, hinfo⟩ | ⟨hl, -⟩
      · have hrest := blockRest_pos k vaddr
        rw [copyToLoop, if_neg hnil, h.virt2phys hv, hinfo]
        simp only [ofLeaf_rest hk]
        obtain ⟨n, hn⟩ : ∃ n, n = (if src.length < blockRest k vaddr then src.length
          else blockRest k vaddr) := ⟨_, rfl⟩
        have hn1 : 1 ≤ n ∧ n ≤ src.length ∧ n ≤ blockRest k vaddr := by
          split_ifs at hn <;> omega
        rw [← hn, sizeAdd_eq (by omega)]
        refine ih (h.storeBytes hsp hk hv hl ?_) ?_ ?_ ?_
        · rw [length_take]
          omega
        · rw [length_drop]
          omega
        · rw [length_drop]
          omega
        · intro i hi
          rw [length_drop] at hi
          rw [Nat.add_assoc]
          exact hmap (n + i) (by omega)
      · obtain ⟨-, k, pte, hl'⟩ := hmap 0 hpos
        rw [Nat.add_zero, hl] at hl'
        exact absurd hl' (by simp)

end Returns

/-! ## Which copies respect the rights of the process -/

/-- The copies respect the rights of the process exactly for those ranges where
    having any access in common means being writable. -/
theorem copies_respect_access_iff (pg : Paging) (mem : Pmem) (root vaddr len : ℕ)
    (hsp : UserSpace pg mem root) (hv : vaddr < 2 ^ 64) (hlen : len < 2 ^ 64) :
    CopiesRespectAccess pg mem root vaddr len ↔
      ((∃ k, ∀ i < len, UserAllows pg mem root ((vaddr + i) % 2 ^ 64) k) →
        ∀ i < len, UserAllows pg mem root ((vaddr + i) % 2 ^ 64) .write) := by
  constructor
  · rintro h ⟨k, hk⟩ i hi
    obtain ⟨flags, hrun, hany⟩ := hsp.contains_any hv (show 1 ≤ len by omega) hlen
    have hend := range_le_half (P := fun a => UserAllows pg mem root a k) (fun _ ha => ha.1) hv hk
      (by omega)
    have hmap : ∀ j < len, (vaddr + j) % 2 ^ 64 = vaddr + j := fun j hj =>
      mod_eq_of_lt (by rcases pg.sizes with h | h | h <;> omega)
    -- a buffer of zeros is copied, so the property says that the range is writable
    obtain ⟨mem', hloop⟩ : ∃ mem', copyToLoop pg root len mem vaddr (replicate len 0) =
        some mem' := by
      refine copyToLoop_returns hsp (fun _ _ _ _ => rfl) (by simp) (by simpa using hend)
        fun j hj => ?_
      rw [length_replicate] at hj
      obtain ⟨hlow, level, pte, hleaf, -⟩ := hk j hj
      rw [hmap j hj] at hlow hleaf
      exact ⟨hlow, level, pte, hleaf⟩
    refine h.to_user (replicate len 0) mem' (by simp) ?_ i hi
    rw [copyToUserRaw, length_replicate, hrun]
    simp [hany.mpr ⟨k, hk⟩, hloop]
  · intro h
    -- a copy that succeeds has found an access in common, so the range is writable
    have hwrite {flags : Rwx} (hrun : procMapContainsRaw pg mem root vaddr len = some flags)
        (hany : flags.any = true) :
        ∀ i < len, UserAllows pg mem root ((vaddr + i) % 2 ^ 64) .write := by
      intro i hi
      obtain ⟨flags', hrun', hiff⟩ := hsp.contains_any hv (show 1 ≤ len by omega) hlen
      obtain rfl : flags = flags' := Option.some.inj (hrun.symm.trans hrun')
      exact h (hiff.mp hany) i hi
    constructor
    · rintro src mem' rfl hcopy
      obtain ⟨flags, hrun, hany, -⟩ := copyToUserRaw_eq_some hcopy
      exact hwrite hrun hany
    · intro buf buf' hcopy i hi
      obtain ⟨flags, hrun, hany, -⟩ := copyFromUserRaw_eq_some hcopy
      exact hsp.read_of_write (hwrite hrun hany i hi)
    · intro src mem' _ hcopy
      exact (copyToUserRaw_eq_some hcopy).choose_spec.2.2 rfl
    · intro buf buf' hcopy
      exact (copyFromUserRaw_eq_some hcopy).choose_spec.2.2 rfl

theorem gibibyteTable_reads {flags : Flags} (h : flags.any = true) (vpn : ℕ) :
    ptReads (gibibyteTable flags) vpn 2 1 = [pteWord 1 (mmuVpnPart vpn 2)] := by
  rw [ptReads]
  refine if_neg ?_
  by_cases hpart : mmuVpnPart vpn 2 = 0
  · have hfirst : gibibyteTable flags (pteWord 1 0) = mmuPteNewLeaf Paging.sv39 (2 ^ 18) flags :=
      Function.update_self ..
    simp [hpart, hfirst, h]
  · simp [gibibyteTable_entry flags hpart, mmuPteIsValid]

/-- The table that maps one gibibyte is one of a process. -/
theorem gibibyteTable_userSpace {flags : Flags} (h : flags.any = true)
    (hk : flags.kernel = false) (hr : flags.w = true → flags.r = true) :
    UserSpace Paging.sv39 (gibibyteTable flags) 1 := by
  have hleaf {vpn k pte : ℕ} (hl : ptLookup (gibibyteTable flags) vpn 2 1 = .leaf k pte) :
      pte = mmuPteNewLeaf Paging.sv39 (2 ^ 18) flags := by
    rw [gibibyteTable_lookup h] at hl
    split_ifs at hl
    simp only [Lookup.leaf.injEq] at hl
    exact hl.2.symm
  refine ⟨gibibyteTable_userTable h, fun _ hl => ?_, fun _ hl => ?_, fun {vaddr k pte} _ hl => ?_⟩
  · rw [hleaf hl, mmuPteGetFlags_newLeaf]
    exact hk
  · rw [hleaf hl, mmuPteGetFlags_newLeaf]
    exact hr
  · intro vpn _ word hword
    have hlt := mmuVpnPart_lt vpn 2
    have hmem : word = pteWord 1 (mmuVpnPart vpn 2) := by
      have : word ∈ ptReads (gibibyteTable flags) vpn 2 1 := hword
      rw [gibibyteTable_reads h] at this
      exact mem_singleton.mp this
    have hpaddr : 2 ^ 30 ≤ (Virt2phys.ofLeaf k pte vaddr).paddr := by
      show 2 ^ 30 ≤ mmuPteGetPpn pte * 4096 + _
      rw [hleaf hl, mmuPteGetPpn_newLeaf]
      omega
    rw [hmem]
    unfold pteWord
    omega

theorem copies_respect_access_readWrite :
    CopiesRespectAccess Paging.sv39 (gibibyteTable flagsRw) 1 4096 8192 := by
  have hsp : UserSpace Paging.sv39 (gibibyteTable flagsRw) 1 :=
    gibibyteTable_userSpace rfl rfl fun _ => rfl
  refine (copies_respect_access_iff Paging.sv39 (gibibyteTable flagsRw) 1 4096 8192 hsp
    (by norm_num) (by norm_num)).mpr fun _ i hi => ?_
  have hlow : (4096 + i) % 2 ^ 64 < 2 ^ 14 := by omega
  have hpart : mmuVpnPart ((4096 + i) % 2 ^ 64 / 4096) 2 = 0 := by
    rw [mmuVpnPart_eq, Radix.digit, div_eq_of_lt (by omega)]
  refine ⟨by rw [show Paging.sv39.halfSize = 2 ^ 38 from rfl]; omega, 2,
    mmuPteNewLeaf Paging.sv39 (2 ^ 18) flagsRw, ?_, by simp [flagsRw], by simp [flagsRw, Rwx.allows]⟩
  show ptLookup (gibibyteTable flagsRw) ((4096 + i) % 2 ^ 64 / 4096) 2 1 = _
  rw [gibibyteTable_lookup rfl, if_pos hpart]

/-- Read only. -/
def flagsR : Flags := ⟨⟨true, false, false⟩, false, false, false, false⟩

/-- A byte of a read-only page is overwritten. -/
theorem not_copies_respect_access_readOnly :
    UserSpace Paging.sv39 (gibibyteTable flagsR) 1 ∧
      ¬ CopiesRespectAccess Paging.sv39 (gibibyteTable flagsR) 1 0 1 := by
  refine ⟨gibibyteTable_userSpace rfl rfl fun h => absurd h (by decide), fun h => ?_⟩
  have hcopy : copyToUserRaw Paging.sv39 (gibibyteTable flagsR) 1 0 [7] =
      some (true, storeBytes (gibibyteTable flagsR) (2 ^ 30) [7]) := rfl
  obtain ⟨-, level, pte, hl, -, hw⟩ := h.to_user [7] _ rfl hcopy 0 (by omega)
  have hl' : ptLookup (gibibyteTable flagsR) 0 2 1 = .leaf level pte := hl
  rw [gibibyteTable_lookup rfl, if_pos (by decide)] at hl'
  simp only [Lookup.leaf.injEq] at hl'
  rw [← hl'.2, mmuPteGetFlags_newLeaf] at hw
  exact absurd hw (by decide)

end BadgerOS.Process

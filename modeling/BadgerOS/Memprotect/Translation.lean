import BadgerOS.Lib.Dyadic
import BadgerOS.Memprotect.Tiles

/-!
# Translations

What `memprotect_virt2phys` says about an address (`translate`), and how edits of the page
tables change it.

The page of a search result is `pageOf`. A superpage that `pt_split` cuts keeps its
translation for some pages only: part `i` of a superpage of level `k + 1` gets the physical
page `ppn + i`, whatever the level, where it should get `ppn + i * 512 ^ k`. By
`pageOf_cut_iff` a page survives iff its index is 0 in each of the new tables except those
of level 0. By `splitExact_iff` a split that changes nothing makes pages of 4 KiB, of normal
memory.
-/

namespace BadgerOS.Memprotect

open RadixTree Finset Nat

/-! ## Translations of addresses and pages -/

/-- The flags and the physical address that `memprotect_virt2phys` reports, `some none` if
    nothing is mapped, and `none` for a panic. -/
def translate (pg : Paging) (mem : Pmem) (root vaddr : ℕ) : Option (Option (Flags × ℕ)) :=
  (memprotectVirt2phys pg mem root vaddr).map fun info =>
    if info.flags.any then some (info.flags, info.paddr) else none

/-- The flags that a lookup reports for a page mapped with `flags`: all but the memory type. -/
def Flags.reported (flags : Flags) : Flags := { flags with io := false, nc := false }

/-- The flags and the physical page for page `p`, given what a search for it has found. -/
def pageOf (p : ℕ) : Found ℕ → Option (Option (Flags × ℕ))
  | .leaf level pte =>
    if superpageMisaligned level pte then none
    else some (some (mmuPteGetFlags pte, mmuPteGetPpn pte + p % 512 ^ level))
  | .hole => some none
  | .broken => none

/-- What the tables hold for page `p`. -/
def foundAt (pg : Paging) (mem : Pmem) (root p : ℕ) : Found ℕ :=
  find (tables mem) (vpnKey p) (pg.levels - 1) root

section Translate

variable {pg : Paging} {mem : Pmem} {root : ℕ} {vaddr : ℕ}

theorem Canonical.not_between (h : Canonical pg (vaddr / 4096)) : ¬ (pg.halfSize ≤ vaddr ∧ vaddr < pg.highVaddr) := by
  unfold Canonical at h
  rcases pg.sizes with hs | hs | hs <;> omega

theorem between_of_not_canonical (hv : vaddr < 2 ^ 64) (h : ¬ Canonical pg (vaddr / 4096)) :
    pg.halfSize ≤ vaddr ∧ vaddr < pg.highVaddr := by
  unfold Canonical at h
  rcases pg.sizes with hs | hs | hs <;> omega

theorem foundAt_leaf {p level pte : ℕ} (h : foundAt pg mem root p = .leaf level pte) :
    level < pg.levels ∧ (mmuPteGetFlags pte).any = true := by
  have hlookup : ptLookup mem p (pg.levels - 1) root = .leaf level pte := by
    rw [ptLookup_eq_find]
    exact congrArg Lookup.ofFound h
  have := ptLookup_level_le hlookup
  have := pg.three_le
  rw [← mmuPteIsLeaf_eq_any]
  exact ⟨by omega, ptLookup_isLeaf hlookup⟩

theorem mod_page (vaddr k : ℕ) : vaddr % (4096 * 512 ^ k) = vaddr / 4096 % 512 ^ k * 4096 + vaddr % 4096 := by
  rw [mod_mul, Nat.mul_comm 4096, Nat.add_comm]

theorem translate_eq (h : Canonical pg (vaddr / 4096)) : translate pg mem root vaddr =
      (pageOf (vaddr / 4096) (foundAt pg mem root (vaddr / 4096))).map
        (Option.map fun page => (page.1, page.2 * 4096 + vaddr % 4096)) := by
  have hv2p := memprotectVirt2phys_eq mem root h.not_between
  rw [ptLookup_eq_find] at hv2p
  rw [← foundAt] at hv2p
  rw [translate, hv2p]
  cases hf : foundAt pg mem root (vaddr / 4096) with
  | leaf level pte =>
    obtain ⟨-, hany⟩ := foundAt_leaf hf
    have hsize : 4096 <<< (9 * level) = 4096 * 512 ^ level := by
      rw [Nat.shiftLeft_eq, pow_mul]
      norm_num
    have hmask : vaddr &&& (4096 <<< (9 * level) - 1) = vaddr % (4096 * 512 ^ level) := by
      have hpow : 4096 * 512 ^ level = 2 ^ (12 + 9 * level) := by rw [pow_add, pow_mul]; norm_num
      rw [hsize, hpow, and_two_pow_sub_one_eq_mod]
    simp only [Lookup.ofFound, pageOf]
    by_cases hs : superpageMisaligned level pte = true
    · rw [if_pos hs, if_pos hs]
      rfl
    · rw [if_neg hs, if_neg hs]
      simp only [Option.map_some, Virt2phys.ofLeaf, hany, if_true, hmask, mod_page]
      rw [← Nat.add_assoc, ← Nat.add_mul]
  | hole => rfl
  | broken => rfl

theorem translate_of_not_canonical (hv : vaddr < 2 ^ 64) (h : ¬ Canonical pg (vaddr / 4096)) :
    translate pg mem root vaddr = some none := by
  rw [translate, memprotectVirt2phys, if_pos (between_of_not_canonical hv h)]
  rfl

theorem translate_eq_iff {mem' : Pmem} {root' vaddr : ℕ} (h : Canonical pg (vaddr / 4096)) :
    translate pg mem' root' vaddr = translate pg mem root vaddr ↔
      pageOf (vaddr / 4096) (foundAt pg mem' root' (vaddr / 4096)) =
        pageOf (vaddr / 4096) (foundAt pg mem root (vaddr / 4096)) := by
  rw [translate_eq h, translate_eq h]
  refine (Option.map_injective (Option.map_injective ?_)).eq_iff
  rintro ⟨flags, ppn⟩ ⟨flags', ppn'⟩ heq
  simp only [Prod.mk.injEq] at heq
  exact Prod.ext heq.1 (by omega)

end Translate

/-! ## Splitting superpages -/

theorem superpageMisaligned_of_dvd {level pte : ℕ} (hlevel : level ≤ 4)
    (hdvd : 512 ^ level ∣ mmuPteGetPpn pte) : superpageMisaligned level pte = false := by
  have hmask (k : ℕ) (hk : 2 ^ k ∣ mmuPteGetPpn pte) : mmuPteGetPpn pte &&& (2 ^ k - 1) = 0 := by
    rw [and_two_pow_sub_one_eq_mod]
    exact mod_eq_zero_of_dvd hk
  have hpow : 512 ^ level = 2 ^ (9 * level) := by rw [pow_mul]; norm_num
  rw [hpow] at hdvd
  unfold superpageMisaligned
  rcases Nat.lt_or_ge level 4 with hlt | hge
  · have hshift : sizeSub (sizeShl (9 * level)) 1 = 2 ^ (9 * level) - 1 := by
      rw [sizeShl_eq (by omega), sizeSub_eq Nat.one_le_two_pow]
      exact Nat.pow_lt_pow_right (by norm_num) (by omega)
    rw [hshift, hmask _ hdvd]
    simp
  · -- At level 4 the mask of the source has four bits.
    obtain rfl : level = 4 := by omega
    have hshift : sizeSub (sizeShl (9 * 4)) 1 = 2 ^ 4 - 1 := by decide
    rw [hshift, hmask 4 ((pow_dvd_pow 2 (by norm_num)).trans hdvd)]
    simp

theorem mmuPteGetPpn_lt (pte : ℕ) : mmuPteGetPpn pte < 2 ^ 44 := mod_lt _ (by norm_num)

theorem pow_dvd_two_pow {level : ℕ} (hlevel : level ≤ 4) : 512 ^ level ∣ 2 ^ 44 := by
  have hpow : 512 ^ level = 2 ^ (9 * level) := by rw [pow_mul]; norm_num
  rw [hpow]
  exact pow_dvd_pow 2 (by omega)

section Cut

variable {pg : Paging} {p : ℕ} {S : ℕ → Prop}

/-- The piece of a superpage that serves `p` after splits: its level, its flags and its
    physical page. -/
theorem cut_leafPart {level pte : ℕ} (hany : (mmuPteGetFlags pte).any = true) :
    ∃ level' ≤ level, ∃ pte', cut (leafPart pg) (vpnKey p) S level pte = .leaf level' pte' ∧
      mmuPteGetFlags pte' = mmuPteGetFlags pte ∧
      mmuPteGetPpn pte' =
        (mmuPteGetPpn pte + ∑ j ∈ Finset.Ico level' level, Radix.digit 512 j p) % 2 ^ 44 ∧
      (∀ j, level' ≤ j → j < level → S (j + 1)) ∧ (0 < level' → ¬ S level') := by
  induction level generalizing pte with
  | zero =>
    refine ⟨0, le_rfl, pte, rfl, rfl, ?_, fun j _ h => by omega, fun h => by omega⟩
    rw [Finset.Ico_self, sum_empty, Nat.add_zero, mod_eq_of_lt (mmuPteGetPpn_lt pte)]
  | succ k ih =>
    by_cases hS : S (k + 1)
    · have hflags : mmuPteGetFlags (leafPart pg pte (vpnKey p k)) = mmuPteGetFlags pte := by
        rw [leafPart, mmuPteGetFlags_newLeaf]
        rfl
      have hppn : mmuPteGetPpn (leafPart pg pte (vpnKey p k)) =
          (mmuPteGetPpn pte + Radix.digit 512 k p) % 2 ^ 44 := by
        rw [leafPart, mmuPteGetPpn_newLeaf, vpnKey, ← mmuVpnPart_eq]
      obtain ⟨level', hle, pte', hcut, hflags', hppn', hsplit, hstop⟩ := ih (hflags ▸ hany)
      refine ⟨level', by omega, pte', ?_, hflags'.trans hflags, ?_, fun j h1 h2 => ?_, hstop⟩
      · rw [cut_of_mem hS, hcut]
      · rw [hppn', hppn, sum_Ico_succ_top hle, mod_add_mod]
        congr 1
        ring
      · rcases Nat.lt_or_ge j k with hlt | hge
        · exact hsplit j h1 hlt
        · obtain rfl : j = k := by omega
          exact hS
    · refine ⟨k + 1, le_rfl, pte, cut_of_not hS pte, rfl, ?_, fun j h1 h2 => by omega, fun _ => hS⟩
      rw [Finset.Ico_self, sum_empty, Nat.add_zero, mod_eq_of_lt (mmuPteGetPpn_lt pte)]

/-- The parts of the page number that splitting adds and those that it should add. -/
theorem sum_digits_eq_iff (p a b : ℕ) :
    ∑ j ∈ Finset.Ico a b, Radix.digit 512 j p = ∑ j ∈ Finset.Ico a b, Radix.digit 512 j p * 512 ^ j ↔
      ∀ j, a ≤ j → j < b → 1 ≤ j → Radix.digit 512 j p = 0 := by
  have hle (j : ℕ) (_ : j ∈ Finset.Ico a b) :
      Radix.digit 512 j p ≤ Radix.digit 512 j p * 512 ^ j := Nat.le_mul_of_pos_right _ (by positivity)
  rw [sum_eq_sum_iff_of_le hle]
  refine forall_congr' fun j => ?_
  rw [mem_Ico]
  constructor
  · intro h h1 h2 hj
    by_contra hne
    have hpow : 512 ^ 1 ≤ 512 ^ j := Nat.pow_le_pow_right (by norm_num) hj
    have hmul := Nat.mul_le_mul_left (Radix.digit 512 j p) hpow
    have := h ⟨h1, h2⟩
    omega
  · rintro h ⟨h1, h2⟩
    rcases Nat.eq_zero_or_pos j with rfl | hj
    · simp
    · rw [h h1 h2 hj, zero_mul]

variable {level pte : ℕ} (hany : (mmuPteGetFlags pte).any = true) (hlevel : level ≤ 4)
  (hdvd : 512 ^ level ∣ mmuPteGetPpn pte)

include hany hlevel hdvd

omit hany in
/-- The sum of the indices is no carry away from the page number of an aligned superpage. -/
theorem ppn_add_digits_lt {level' : ℕ} (hle : level' ≤ level) :
    mmuPteGetPpn pte + ∑ j ∈ Finset.Ico level' level, Radix.digit 512 j p < 2 ^ 44 := by
  have hmod := Radix.mod_pow_eq_sum (b := 512) hle p
  have hsum : ∑ j ∈ Finset.Ico level' level, Radix.digit 512 j p ≤
      ∑ j ∈ Finset.Ico level' level, Radix.digit 512 j p * 512 ^ j :=
    sum_le_sum fun j _ => Nat.le_mul_of_pos_right _ (by positivity)
  have hroom : mmuPteGetPpn pte + 512 ^ level ≤ 2 ^ 44 :=
    Dyadic.add_le_of_dvd_of_lt hdvd (pow_dvd_two_pow hlevel) (mmuPteGetPpn_lt pte)
  have hlt := mod_lt p (show 0 < 512 ^ level by positivity)
  omega

/-- A page with index 0 in all new tables above level 0 keeps its translation, in an aligned
    superpage. -/
theorem pageOf_cut (h : ∀ j, 1 ≤ j → j < level → S (j + 1) → mmuVpnPart p j = 0) :
    ∃ level' pte', cut (leafPart pg) (vpnKey p) S level pte = .leaf level' pte' ∧
      512 ^ level' ∣ mmuPteGetPpn pte' ∧
      pageOf p (.leaf level' pte') = pageOf p (.leaf level pte) := by
  obtain ⟨level', hle, pte', hcut, hflags, hppn, hsplit, -⟩ := @cut_leafPart pg p S level pte hany
  rw [mod_eq_of_lt (ppn_add_digits_lt hlevel hdvd hle)] at hppn
  have heq := (sum_digits_eq_iff p level' level).mpr fun j h1 h2 hj => by
    rw [← mmuVpnPart_eq]
    exact h j hj h2 (hsplit j h1 h2)
  have haligned : 512 ^ level' ∣ mmuPteGetPpn pte' := by
    rw [hppn, heq]
    refine Nat.dvd_add ((pow_dvd_pow 512 hle).trans hdvd) (dvd_sum fun j hj => ?_)
    exact (pow_dvd_pow 512 (mem_Ico.mp hj).1).mul_left _
  refine ⟨level', pte', hcut, haligned, ?_⟩
  rw [pageOf, pageOf, superpageMisaligned_of_dvd hlevel hdvd,
    superpageMisaligned_of_dvd (hle.trans hlevel) haligned, if_neg Bool.false_ne_true,
    if_neg Bool.false_ne_true, hflags, hppn, heq, Radix.mod_pow_eq_sum (b := 512) hle p]
  congr 3
  omega

/-- A page keeps its translation when its superpage is split iff it has index 0 in all new
    tables above level 0. -/
theorem pageOf_cut_iff (hS : ∀ {i j}, S i → i ≤ j → S j) :
    pageOf p (cut (leafPart pg) (vpnKey p) S level pte) = pageOf p (.leaf level pte) ↔
      ∀ j, 1 ≤ j → j < level → S (j + 1) → mmuVpnPart p j = 0 := by
  constructor
  · intro heq j h1 h2 hj
    obtain ⟨level', hle, pte', hcut, hflags, hppn, -, hstop⟩ := @cut_leafPart pg p S level pte hany
    rw [mod_eq_of_lt (ppn_add_digits_lt hlevel hdvd hle)] at hppn
    have hfrom : level' ≤ j := by
      by_contra hcon
      exact hstop (by omega) (hS hj (by omega))
    rw [hcut, pageOf, pageOf, superpageMisaligned_of_dvd hlevel hdvd, if_neg Bool.false_ne_true,
      hflags, hppn, Radix.mod_pow_eq_sum (b := 512) hle p] at heq
    split_ifs at heq
    simp only [Option.some.injEq, Prod.mk.injEq, true_and] at heq
    rw [mmuVpnPart_eq]
    exact (sum_digits_eq_iff p level' level).mp (by omega) j hfrom h2 h1
  · intro h
    obtain ⟨level', pte', hcut, -, hpage⟩ := @pageOf_cut pg p S level pte hany hlevel hdvd h
    rw [hcut, hpage]

end Cut

/-! ## One split -/

/-- The memory type of an entry, its field `pbmt`. -/
def mmuPtePbmt (pte : ℕ) : ℕ := pte / 2 ^ 61 % 4

/-- Every page under entry `i` of table `pt`, which was the superpage `pte` of level `level + 1`,
    has the translation, the permissions and the memory type that it had, and its leaf is
    aligned. -/
def SplitExact (mem : Pmem) (pt : ℕ) (i : Fin 512) (level pte : ℕ) : Prop :=
  ∀ p, vpnKey p (level + 1) = i → ∃ level' pte',
    find (tables mem) (vpnKey p) (level + 1) pt = .leaf level' pte' ∧
      512 ^ level' ∣ mmuPteGetPpn pte' ∧
      pageOf p (.leaf level' pte') = pageOf p (.leaf (level + 1) pte) ∧
      mmuPtePbmt pte' = mmuPtePbmt pte

section Split

variable {pg : Paging} {st st' : MmuState} {pt level pte next : ℕ} {i : Fin 512}

/-- The flags that `pt_split` reads do not hold the memory type. -/
theorem mmuPtePbmt_leafPart (pg : Paging) (pte : ℕ) (k : Fin 512) : mmuPtePbmt (leafPart pg pte k) = 0 := by
  have hpbmt : pbmtOf pg (mmuPteGetFlags pte) = 0 := by simp [pbmtOf, mmuPteGetFlags]
  have hlt : leafPart pg pte k < 2 ^ 61 := by
    have hppn := mod_lt (mmuPteGetPpn pte + k) (show 0 < 2 ^ 44 by norm_num)
    have hbits : ∀ b : Bool, b.toNat ≤ 1 := Bool.toNat_le
    rw [leafPart, mmuPteNewLeaf, hpbmt]
    linarith [hbits (mmuPteGetFlags pte).any, hbits (mmuPteGetFlags pte).r,
      hbits (mmuPteGetFlags pte).w, hbits (mmuPteGetFlags pte).x,
      hbits (!(mmuPteGetFlags pte).kernel), hbits (mmuPteGetFlags pte).global]
  rw [mmuPtePbmt, div_eq_of_lt hlt]

variable (hpages : ∀ page ∈ st.pages, page < 2 ^ 44) (hfresh : pt ∉ st.pages)
  (hpte : tables st.mem pt i = .leaf pte)
  (h : ptSplit pg st (ptePaddr pt i) pte = some (next, st'))

include hpages hfresh hpte h

theorem find_split {p : ℕ} (hp : vpnKey p (level + 1) = i) : find (tables st'.mem) (vpnKey p) (level + 1) pt =
      .leaf level (leafPart pg pte (vpnKey p level)) := by
  have hattach := (store_split hpages hpte).symm.trans (congrArg _ h)
  have hne : next ≠ pt := by
    rintro rfl
    exact hfresh (ptSplit_pages h ▸ List.mem_cons_self)
  have hnode : tables st'.mem pt (vpnKey p (level + 1)) = .node next := by
    rw [hp]
    exact attach_link hattach
  have hleaf : tables st'.mem next (vpnKey p level) = .leaf (leafPart pg pte (vpnKey p level)) := by
    refine (attach_new hattach hne _).trans ?_
    rw [show st.store.heap pt i = .leaf pte from hpte]
    rfl
  rw [find_node hnode, find_leaf hleaf]

/-- A split changes nothing exactly when it makes pages of 4 KiB and the memory is normal. -/
theorem splitExact_iff (hlevel : level + 1 < pg.levels)
    (hdvd : 512 ^ (level + 1) ∣ mmuPteGetPpn pte) :
    SplitExact st'.mem pt i level pte ↔ level = 0 ∧ mmuPtePbmt pte = 0 := by
  have hany : (mmuPteGetFlags pte).any = true := by
    obtain ⟨rfl, -, hleaf⟩ := decode_eq_leaf hpte
    rw [← mmuPteIsLeaf_eq_any, hleaf]
  have hle := pg.le_five
  have hcut (p : ℕ) : cut (leafPart pg) (vpnKey p) (level + 1 ≤ ·) (level + 1) pte =
      .leaf level (leafPart pg pte (vpnKey p level)) := by
    rw [cut_of_mem le_rfl, cut_of_not (by omega)]
  constructor
  · intro hexact
    -- the second part of the superpage
    obtain ⟨p, hp⟩ : ∃ p, p / 512 ^ level = i.val * 512 + 1 :=
      ⟨(i.val * 512 + 1) * 512 ^ level, Nat.mul_div_cancel _ (by positivity)⟩
    have hpart : mmuVpnPart p level = 1 := by
      rw [mmuVpnPart_eq, Radix.digit, hp]
      omega
    have hkey : vpnKey p (level + 1) = i := by
      refine Fin.ext ?_
      rw [vpnKey_val, mmuVpnPart_eq, Radix.digit, Radix.div_pow_succ, hp]
      omega
    obtain ⟨level', pte', hfind, -, hpage, hpbmt⟩ := hexact p hkey
    rw [find_split hpages hfresh hpte h hkey] at hfind
    cases hfind
    rw [← hcut, pageOf_cut_iff hany (by omega) hdvd fun hi hij => hi.trans hij] at hpage
    rw [mmuPtePbmt_leafPart] at hpbmt
    refine ⟨?_, hpbmt.symm⟩
    by_contra hne
    have hzero := hpage level (by omega) (by omega) le_rfl
    omega
  · rintro ⟨rfl, hpbmt⟩ p hp
    obtain ⟨level', pte', heq, haligned, hpage⟩ :=
      @pageOf_cut pg p (0 + 1 ≤ ·) 1 pte hany (by omega) hdvd fun j h1 h2 => by omega
    rw [hcut p] at heq
    cases heq
    exact ⟨_, _, find_split hpages hfresh hpte h hp, haligned, hpage,
      (mmuPtePbmt_leafPart pg pte _).trans hpbmt.symm⟩

end Split

/-- A memory of leaves, and one free page. -/
def leafMem (pte : ℕ) : MmuState := ⟨fun _ => pte, [1], 0⟩

/-- A superpage of 2 MiB. -/
theorem splitExact_iff_small : ∃ next st', ptSplit .sv39 (leafMem 195) 0 195 = some (next, st') ∧
    SplitExact st'.mem 0 0 0 195 := ⟨_, _, rfl, (@splitExact_iff .sv39 (leafMem 195) _ 0 0 195 _ 0 (by decide) (by decide) rfl rfl
    (by decide) (by decide)).mpr ⟨rfl, by decide⟩⟩

/-- The second part of a superpage of 1 GiB is not aligned. -/
theorem split_misaligns : ∃ next st', ptSplit .sv39 (leafMem 195) 0 195 = some (next, st') ∧
    ¬ SplitExact st'.mem 0 0 1 195 := by
  refine ⟨_, _, rfl, fun h => ?_⟩
  obtain ⟨_, _, hfind, hdvd, -⟩ := h 512 (by decide)
  cases (@find_split .sv39 (leafMem 195) _ 0 1 195 _ 0 (by decide) (by decide) rfl rfl 512
    (by decide)).symm.trans hfind
  exact absurd hdvd (by decide)

/-! ## Tiles of a mapping -/

theorem pageOf_mapTile (pg : Paging) {t : Tile} {flags : Flags} {p : ℕ} (hlevel : t.level ≤ 4)
    (hvpn : 512 ^ t.level ∣ t.vpn) (hppn : 512 ^ t.level ∣ t.ppn) (hp : t.Covers p) :
    pageOf p (.leaf t.level (mmuPteNewLeaf pg t.ppn flags)) =
      some (some (flags.reported, (t.ppn + (p - t.vpn)) % 2 ^ 44)) := by
  have hpow : 512 ^ t.level ∣ 2 ^ 44 := pow_dvd_two_pow hlevel
  have hfield : 512 ^ t.level ∣ t.ppn % 2 ^ 44 := (dvd_mod_iff hpow).mpr hppn
  have hroom := Dyadic.add_le_of_dvd_of_lt hfield hpow (mod_lt _ (by norm_num))
  obtain ⟨hle, hlt⟩ := hp
  have hmod : p % 512 ^ t.level = p - t.vpn := by
    obtain ⟨q, hq⟩ := hvpn
    have hsplit : p = p - t.vpn + 512 ^ t.level * q := by omega
    rw [hsplit, add_mul_mod_self_left, ← hsplit]
    exact mod_eq_of_lt (by omega)
  have hsum : (t.ppn + (p - t.vpn)) % 2 ^ 44 = t.ppn % 2 ^ 44 + (p - t.vpn) := by
    rw [add_mod, mod_eq_of_lt (show p - t.vpn < 2 ^ 44 by omega)]
    exact mod_eq_of_lt (by omega)
  rw [pageOf, superpageMisaligned_of_dvd hlevel (by rwa [mmuPteGetPpn_newLeaf]),
    if_neg Bool.false_ne_true, mmuPteGetFlags_newLeaf, mmuPteGetPpn_newLeaf, hmod, hsum]
  rfl

/-- Edits of superpages without a common page do not meet. -/
theorem Tile.apart {pg : Paging} {flags flags' : Flags} {t t' : Tile} (ht : Canonical pg t.vpn)
    (ht' : Canonical pg t'.vpn) (hlevel : t.level < pg.levels) (hlevel' : t'.level < pg.levels)
    (hvpn : 512 ^ t.level ∣ t.vpn) (hvpn' : 512 ^ t'.level ∣ t'.vpn)
    (hdisjoint : ∀ p, t.Covers p → ¬ t'.Covers p) :
    Edit.Apart (pg.levels - 1) (t.mapEdit pg flags) (t'.mapEdit pg flags') := by
  have hself (t : Tile) : t.Covers t.vpn := ⟨le_rfl, by simp⟩
  intro q hq hq'
  -- The larger of the two superpages would contain the start of the other one.
  rcases Nat.le_total t.level t'.level with hle | hle
  · refine hdisjoint t.vpn (hself t) ((Tile.covers_iff ht ht' hlevel' hvpn').mp ?_)
    exact fun i h1 h2 => (hq i (hle.trans h1) h2).symm.trans (hq' i h1 h2)
  · refine hdisjoint t'.vpn ((Tile.covers_iff ht' ht hlevel hvpn).mp ?_) (hself t')
    exact fun i h1 h2 => (hq' i (hle.trans h1) h2).symm.trans (hq i h1 h2)

end BadgerOS.Memprotect

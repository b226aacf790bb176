import BadgerOS.Memprotect.PageTable

/-!
# The superpages of a range

`pt_map` and `pt_unmap` cover a range of pages with superpages, each as large as the
alignment and the rest of the range allow. This module collects them in a list (`tiles`).

* `tiles_spec`: the tiles are aligned and cover the range without overlap.
* `ptLoop_eq`: the loops of the source are the edits of the tiles, one after the other.
* `agree_iff`: two pages of the address space use the same entries down to a level iff they
  lie in the same superpage of that level.
-/

namespace BadgerOS.Memprotect

open RadixTree List Nat

/-! ## Tiles -/

/-- A superpage of the given level at a virtual and a physical page. -/
structure Tile where
  vpn : ℕ
  ppn : ℕ
  level : ℕ
deriving DecidableEq, Repr

/-- The superpages that `ptLoop` takes. -/
def tiles (next : ℕ → ℕ → ℕ) (ptLevel : ℕ) : ℕ → ℕ → ℕ → ℕ → List Tile
  | 0, _, _, _ => []
  | fuel + 1, vpn, ppn, pages =>
    if pages = 0 then []
    else
      let pteLevel := ptCalcSuperpage vpn ppn pages ptLevel
      let superLen := 1 <<< (9 * pteLevel)
      ⟨vpn, ppn, pteLevel⟩ :: tiles next ptLevel fuel (sizeAdd vpn superLen) (next ppn superLen)
        (sizeSub pages superLen)

/-- The superpages of `pt_map`. -/
def mapTiles (ptLevel vpn ppn pages : ℕ) : List Tile := tiles sizeAdd ptLevel (pages + 1) vpn ppn pages

/-- The superpages of `pt_unmap`. -/
def unmapTiles (ptLevel vpn pages : ℕ) : List Tile :=
  tiles (fun ppn _ => ppn) ptLevel (pages + 1) vpn 0 pages

theorem shiftLeft_eq (k : ℕ) : 1 <<< (9 * k) = 512 ^ k := by
  rw [one_shiftLeft, pow_mul]
  norm_num

theorem land_eq_zero_iff (n k : ℕ) : n &&& (512 ^ k - 1) = 0 ↔ 512 ^ k ∣ n := by
  have hpow : 512 ^ k = 2 ^ (9 * k) := by rw [pow_mul]; norm_num
  rw [hpow, and_two_pow_sub_one_eq_mod, dvd_iff_mod_eq_zero]

theorem ptCalcSuperpage_spec (vpn ppn : ℕ) {pages : ℕ} (hpages : 0 < pages) (maxLevel : ℕ) :
    let level := ptCalcSuperpage vpn ppn pages maxLevel
    level ≤ maxLevel ∧ 512 ^ level ∣ vpn ∧ 512 ^ level ∣ ppn ∧ 512 ^ level ≤ pages := by
  induction maxLevel with
  | zero =>
    refine ⟨le_rfl, ?_, ?_, ?_⟩ <;> simp [ptCalcSuperpage]
    omega
  | succ i ih =>
    rw [ptCalcSuperpage]
    simp only [shiftLeft_eq, land_eq_zero_iff]
    split_ifs with h
    · exact ⟨le_rfl, h⟩
    · exact ⟨ih.1.trans (le_succ i), ih.2⟩

theorem tiles_succ (next : ℕ → ℕ → ℕ) (ptLevel fuel ppn : ℕ) {vpn pages : ℕ} (hpages : 0 < pages)
    (hrange : vpn + pages < 2 ^ 64) :
    ∃ level, level ≤ ptLevel ∧ 512 ^ level ∣ vpn ∧ 512 ^ level ∣ ppn ∧ 512 ^ level ≤ pages ∧
      level = ptCalcSuperpage vpn ppn pages ptLevel ∧
      sizeAdd vpn (512 ^ level) = vpn + 512 ^ level ∧
      sizeSub pages (512 ^ level) = pages - 512 ^ level ∧
      tiles next ptLevel (fuel + 1) vpn ppn pages =
        ⟨vpn, ppn, level⟩ :: tiles next ptLevel fuel (vpn + 512 ^ level)
          (next ppn (512 ^ level)) (pages - 512 ^ level) := by
  obtain ⟨hlevel, hvpn, hppn, hle⟩ := ptCalcSuperpage_spec vpn ppn hpages ptLevel
  refine ⟨_, hlevel, hvpn, hppn, hle, rfl, ?_, ?_, ?_⟩
  · rw [sizeAdd_eq (by omega)]
  · rw [sizeSub_eq hle (by omega)]
  · rw [tiles, if_neg (by omega)]
    simp only
    rw [shiftLeft_eq, sizeAdd_eq (by omega), sizeSub_eq hle (by omega)]

/-- The pages of a tile. -/
def Tile.Covers (t : Tile) (p : ℕ) : Prop := t.vpn ≤ p ∧ p < t.vpn + 512 ^ t.level

/-- What holds of the tiles of a range. -/
structure Tiling (ptLevel vpn pages : ℕ) (ts : List Tile) : Prop where
  level_le : ∀ t ∈ ts, t.level ≤ ptLevel
  dvd_vpn : ∀ t ∈ ts, 512 ^ t.level ∣ t.vpn
  dvd_ppn : ∀ t ∈ ts, 512 ^ t.level ∣ t.ppn
  covers_iff : ∀ p, (∃ t ∈ ts, t.Covers p) ↔ vpn ≤ p ∧ p < vpn + pages
  ordered : ts.Pairwise fun t t' => t.vpn + 512 ^ t.level ≤ t'.vpn

theorem tiles_spec (next : ℕ → ℕ → ℕ) (ptLevel : ℕ) {fuel vpn ppn pages : ℕ} (hfuel : pages < fuel)
    (hrange : vpn + pages < 2 ^ 64) :
    Tiling ptLevel vpn pages (tiles next ptLevel fuel vpn ppn pages) := by
  induction fuel generalizing vpn ppn pages with
  | zero => omega
  | succ fuel ih =>
    rcases Nat.eq_zero_or_pos pages with rfl | hpages
    · rw [tiles, if_pos rfl]
      refine ⟨?_, ?_, ?_, fun p => ?_, ?_⟩ <;> simp
    · obtain ⟨level, hlevel, hvpn, hppn, hle, -, -, -, heq⟩ :=
        tiles_succ next ptLevel fuel ppn hpages hrange
      have hpos : 0 < 512 ^ level := by positivity
      have hrest : Tiling ptLevel (vpn + 512 ^ level) (pages - 512 ^ level)
          (tiles next ptLevel fuel (vpn + 512 ^ level) (next ppn (512 ^ level))
            (pages - 512 ^ level)) := ih (by omega) (by omega)
      rw [heq]
      refine ⟨?_, ?_, ?_, fun p => ?_, ?_⟩
      · exact forall_mem_cons.mpr ⟨hlevel, hrest.level_le⟩
      · exact forall_mem_cons.mpr ⟨hvpn, hrest.dvd_vpn⟩
      · exact forall_mem_cons.mpr ⟨hppn, hrest.dvd_ppn⟩
      · simp only [mem_cons, exists_eq_or_imp]
        rw [hrest.covers_iff p, Tile.Covers]
        simp only
        omega
      · refine pairwise_cons.mpr ⟨fun t ht => ?_, hrest.ordered⟩
        have hcovers : t.Covers t.vpn := ⟨le_rfl, by simp⟩
        exact ((hrest.covers_iff t.vpn).mp ⟨t, ht, hcovers⟩).1

/-- The physical pages of `pt_map` advance with the virtual ones. -/
theorem mapTiles_ppn {ptLevel fuel vpn ppn pages : ℕ} (hrange : vpn + pages < 2 ^ 64)
    (hphys : ppn + pages < 2 ^ 64) {t : Tile}
    (ht : t ∈ tiles sizeAdd ptLevel fuel vpn ppn pages) : t.ppn + vpn = ppn + t.vpn := by
  induction fuel generalizing vpn ppn pages with
  | zero => simp [tiles] at ht
  | succ fuel ih =>
    rcases Nat.eq_zero_or_pos pages with rfl | hpages
    · simp [tiles] at ht
    · obtain ⟨level, -, -, -, hle, -, -, -, heq⟩ :=
        tiles_succ sizeAdd ptLevel fuel ppn hpages hrange
      rw [heq, sizeAdd_eq (by omega)] at ht
      rcases mem_cons.mp ht with rfl | ht
      · rfl
      · have := ih (by omega) (by omega) ht
        omega

theorem length_tiles_le (next : ℕ → ℕ → ℕ) (ptLevel fuel : ℕ) {vpn pages : ℕ} (ppn : ℕ)
    (hrange : vpn + pages < 2 ^ 64) : (tiles next ptLevel fuel vpn ppn pages).length ≤ pages := by
  induction fuel generalizing vpn ppn pages with
  | zero => simp [tiles]
  | succ fuel ih =>
    rcases Nat.eq_zero_or_pos pages with rfl | hpages
    · simp [tiles]
    · obtain ⟨level, -, -, -, hle, -, -, -, heq⟩ := tiles_succ next ptLevel fuel ppn hpages hrange
      have hpos : 0 < 512 ^ level := by positivity
      have hrec : (tiles next ptLevel fuel (vpn + 512 ^ level) (next ppn (512 ^ level))
          (pages - 512 ^ level)).length ≤ pages - 512 ^ level := ih _ (by omega)
      rw [heq, length_cons]
      omega

/-! ## The loops as edits -/

/-- The edit of `pt_map_1`. -/
def Tile.mapEdit (pg : Paging) (flags : Flags) (t : Tile) : Edit ℕ ℕ (Fin 512) :=
  ⟨vpnKey t.vpn, t.level, decode (mmuPteNewLeaf pg t.ppn flags), true⟩

/-- The edit of `pt_unmap_1`, with the same index at all levels. -/
def Tile.unmapEdit (t : Tile) : Edit ℕ ℕ (Fin 512) :=
  ⟨fun _ => vpnKey t.vpn t.level, t.level, .hole, false⟩

theorem Tile.mapEdit_proper (pg : Paging) {flags : Flags} (hany : flags.any = true) (t : Tile) :
    (t.mapEdit pg flags).Proper := by
  refine ⟨?_, fun h => by contradiction⟩
  rw [mapEdit, decode_newLeaf _ _ hany]
  rfl

theorem Tile.unmapEdit_proper (t : Tile) : t.unmapEdit.Proper := ⟨rfl, fun _ => rfl⟩

section Loop

variable {pg : Paging} {pt ptLevel : ℕ} {st : MmuState}

theorem ptLoop_eq {step : ℕ → ℕ → ℕ → MmuState → Option (Bool × MmuState)} {next : ℕ → ℕ → ℕ}
    {toEdit : Tile → Edit ℕ ℕ (Fin 512)} (htarget : ∀ t, (toEdit t).target = t.level)
    (hstep : ∀ vpn ppn level st, (∀ page ∈ st.pages, page < 2 ^ 44) → (step vpn ppn level st).map
      (fun r => r.2.store) = edit (leafPart pg) (toEdit ⟨vpn, ppn, level⟩) (ptLevel - level) pt
      st.store)
    {fuel vpn ppn pages : ℕ} {top : Bool} (hfuel : pages < fuel) (hrange : vpn + pages < 2 ^ 64)
    (hpages : ∀ page ∈ st.pages, page < 2 ^ 44) :
    (ptLoop step next ptLevel fuel vpn ppn pages top st).map (fun r => r.2.store) =
      edits (leafPart pg) ptLevel pt ((tiles next ptLevel fuel vpn ppn pages).map toEdit)
        st.store := by
  induction fuel generalizing vpn ppn pages top st with
  | zero => omega
  | succ fuel ih =>
    rcases Nat.eq_zero_or_pos pages with rfl | hpos
    · simp [ptLoop, tiles, edits]
    · obtain ⟨level, -, -, -, hle, hcalc, hadd, hsub, heq⟩ :=
        tiles_succ next ptLevel fuel ppn hpos hrange
      have hlen : 0 < 512 ^ level := by positivity
      have hfirst := hstep vpn ppn level st hpages
      rw [ptLoop, if_neg (by omega), heq, map_cons, edits, htarget, ← hfirst]
      simp only [← hcalc, shiftLeft_eq, hadd, hsub]
      cases hone : step vpn ppn level st with
      | none => rfl
      | some r =>
        obtain ⟨topEdit, mid⟩ := r
        rw [hone] at hfirst
        have hfree := (edit_free hfirst.symm).1
        exact ih (by omega) (by omega) fun page hmem => hpages page (hfree.mem hmem)

section

variable (hpages : ∀ page ∈ st.pages, page < 2 ^ 44)

include hpages

theorem ptMap1_eq (vpn ppn pteLevel : ℕ) (flags : Flags) :
    (ptMap1 pg pt ptLevel vpn ppn pteLevel flags st).map (fun r => r.2.store) =
      edit (leafPart pg) (Tile.mapEdit pg flags ⟨vpn, ppn, pteLevel⟩) (ptLevel - pteLevel) pt
        st.store :=
  ptDescend_eq (vpnKey vpn) (fun _ => rfl) hpages

theorem ptUnmap1_eq (vpn ppn pteLevel : ℕ) :
    (ptUnmap1 pg pt ptLevel vpn pteLevel st).map (fun r => r.2.store) =
      edit (leafPart pg) (Tile.unmapEdit ⟨vpn, ppn, pteLevel⟩) (ptLevel - pteLevel) pt st.store :=
  ptDescend_eq (fun _ => vpnKey vpn pteLevel) (fun _ => rfl) hpages

theorem ptMap_eq (vpn ppn pages : ℕ) (flags : Flags) (hrange : vpn + pages < 2 ^ 64) :
    (ptMap pg pt ptLevel vpn ppn pages flags st).map (fun r => r.2.store) =
      edits (leafPart pg) ptLevel pt
        ((mapTiles ptLevel vpn ppn pages).map (Tile.mapEdit pg flags)) st.store :=
  ptLoop_eq (fun _ => rfl) (fun vpn ppn level _ h => ptMap1_eq h vpn ppn level flags)
    (lt_succ_self pages) hrange hpages

theorem ptUnmap_eq (vpn pages : ℕ) (hrange : vpn + pages < 2 ^ 64) :
    (ptUnmap pg pt ptLevel vpn pages st).map (fun r => r.2.store) =
      edits (leafPart pg) ptLevel pt ((unmapTiles ptLevel vpn pages).map Tile.unmapEdit) st.store :=
  ptLoop_eq (fun _ => rfl) (fun vpn ppn level _ h => ptUnmap1_eq h vpn ppn level)
    (lt_succ_self pages) hrange hpages

end

end Loop

/-! ## Pages of the address space -/

/-- The pages that have virtual addresses: those of the two halves. -/
def Canonical (pg : Paging) (p : ℕ) : Prop :=
  p < pg.halfPages ∨ pg.highVpn ≤ p ∧ p < pg.highVpn + pg.halfPages

/-- Pages with the same digits from `level` on, and the same page number above the tables. -/
theorem div_pow_eq_of_digits {p q level top : ℕ} (hlevel : level ≤ top) (htop : p / 512 ^ top = q / 512 ^ top)
    (hdigits : ∀ i, level ≤ i → i < top → Radix.digit 512 i p = Radix.digit 512 i q) :
    p / 512 ^ level = q / 512 ^ level := by
  induction top, hlevel using le_induction with
  | base => exact htop
  | succ top hle ih =>
    refine ih ((Radix.same_iff 512 top p q).mpr ⟨htop, hdigits top hle (lt_succ_self top)⟩) ?_
    exact fun i h1 h2 => hdigits i h1 (by omega)

/-- The index in the root table tells the two halves apart. -/
theorem Canonical.div_pow_levels {pg : Paging} {p : ℕ} (h : Canonical pg p) :
    (p < pg.halfPages ↔ mmuVpnPart p (pg.levels - 1) < 256) ∧ p / 512 ^ pg.levels =
        if mmuVpnPart p (pg.levels - 1) < 256 then 0 else pg.highVpn / 512 ^ pg.levels := by
  have hdigit : mmuVpnPart p (pg.levels - 1) = p / 512 ^ (pg.levels - 1) % 512 := mmuVpnPart_eq _ _
  rw [hdigit]
  unfold Canonical at h
  have hsizes := pg.sizes
  rcases pg.levels_cases with hl | hl | hl <;> rw [hl] at hsizes ⊢ <;> norm_num at hsizes ⊢ <;>
    split_ifs <;> omega

/-- Two pages use the same entries from the root down to a level iff they lie in the same
    superpage of that level. -/
theorem agree_iff {pg : Paging} {p q level : ℕ} (hp : Canonical pg p) (hq : Canonical pg q)
    (hlevel : level < pg.levels) :
    Agree (pg.levels - 1) level (vpnKey p) (vpnKey q) ↔ p / 512 ^ level = q / 512 ^ level := by
  have hkey (i : ℕ) : vpnKey p i = vpnKey q i ↔ Radix.digit 512 i p = Radix.digit 512 i q := by
    rw [vpnKey, vpnKey, Fin.mk.injEq, mmuVpnPart_eq, mmuVpnPart_eq]
  constructor
  · intro h
    refine div_pow_eq_of_digits hlevel.le ?_ fun i h1 h2 => (hkey i).mp (h i h1 (by omega))
    have htop : mmuVpnPart p (pg.levels - 1) = mmuVpnPart q (pg.levels - 1) := by
      simpa [vpnKey] using h (pg.levels - 1) (by omega) le_rfl
    rw [hp.div_pow_levels.2, hq.div_pow_levels.2, htop]
  · intro h i h1 h2
    exact (hkey i).mpr (Radix.digit_eq_of_same h1 h)

theorem Tile.covers_iff {pg : Paging} {t : Tile} {p : ℕ} (hp : Canonical pg p)
    (ht : Canonical pg t.vpn) (hlevel : t.level < pg.levels) (hdvd : 512 ^ t.level ∣ t.vpn) :
    Agree (pg.levels - 1) t.level (vpnKey p) (vpnKey t.vpn) ↔ t.Covers p := by
  have hpos : 0 < 512 ^ t.level := by positivity
  obtain ⟨q, hq⟩ := hdvd
  rw [agree_iff hp ht hlevel, Tile.Covers, hq, Nat.mul_div_cancel_left _ hpos, Nat.div_eq_iff hpos]
  have hcomm : q * 512 ^ t.level = 512 ^ t.level * q := Nat.mul_comm _ _
  omega

end BadgerOS.Memprotect

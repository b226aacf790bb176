import BadgerOS.Memprotect.Translation

/-!
# Calls of `pt_map`

The superpages of a call of `pt_map` whose range lies in one half of the address space, as
edits of the page table.

* `edits_pairwise`: calls with disjoint ranges have edits that do not meet.
* `pageOf_inside`: after such calls the pages of a range are translated as requested, up to
  the 44 bits that an entry has for the physical page.
* `MapCall.Ok.writes_iff`: a call writes the entries of the pages of its range.
-/

namespace BadgerOS.Memprotect

open RadixTree List

/-- The arguments of a call of `pt_map`. -/
structure MapCall where
  vpn : ℕ
  ppn : ℕ
  pages : ℕ
  flags : Flags

/-- The range of the call lies in one half and its flags can be entered. -/
structure MapCall.Ok (pg : Paging) (c : MapCall) : Prop where
  half : c.vpn + c.pages ≤ pg.halfPages ∨
    pg.highVpn ≤ c.vpn ∧ c.vpn + c.pages ≤ pg.highVpn + pg.halfPages
  any : c.flags.any = true
  read : c.flags.w = true → c.flags.r = true

def MapCall.Disjoint (c c' : MapCall) : Prop :=
  c.vpn + c.pages ≤ c'.vpn ∨ c'.vpn + c'.pages ≤ c.vpn

/-! ## The edits of the calls -/

/-- The edits of one call. -/
def MapCall.edits (pg : Paging) (c : MapCall) : List (Edit ℕ ℕ (Fin 512)) :=
  (mapTiles (pg.levels - 1) c.vpn c.ppn c.pages).map (Tile.mapEdit pg c.flags)

section Call

variable {pg : Paging} {c c' : MapCall}

section

variable (h : c.Ok pg)

include h

theorem MapCall.Ok.range_lt : c.vpn + c.pages < 2 ^ 64 := by
  have := h.half
  rcases pg.sizes with hs | hs | hs <;> omega

theorem MapCall.Ok.tiling : Tiling (pg.levels - 1) c.vpn c.pages (mapTiles (pg.levels - 1) c.vpn c.ppn c.pages) :=
  tiles_spec _ _ (Nat.lt_succ_self _) h.range_lt

theorem MapCall.Ok.canonical {p : ℕ} (hle : c.vpn ≤ p) (hlt : p < c.vpn + c.pages) : Canonical pg p := by
  have := h.half
  unfold Canonical
  omega

theorem MapCall.Ok.tile_canonical {t : Tile} (ht : t ∈ mapTiles (pg.levels - 1) c.vpn c.ppn c.pages) : Canonical pg t.vpn := by
  have hself : t.Covers t.vpn := ⟨le_rfl, by simp⟩
  obtain ⟨hle, hlt⟩ := (h.tiling.covers_iff t.vpn).mp ⟨t, ht, hself⟩
  exact h.canonical hle hlt

theorem MapCall.Ok.level_lt {t : Tile} (ht : t ∈ mapTiles (pg.levels - 1) c.vpn c.ppn c.pages) : t.level < pg.levels := by
  have := h.tiling.level_le t ht
  have := pg.three_le
  omega

theorem MapCall.Ok.fit : Fit (pg.levels - 1) (c.edits pg) := by
  intro e he
  obtain ⟨t, ht, rfl⟩ := mem_map.mp he
  exact ⟨t.mapEdit_proper pg h.any, h.tiling.level_le t ht⟩

theorem MapCall.Ok.apart (h' : c'.Ok pg) {t t' : Tile} (ht : t ∈ mapTiles (pg.levels - 1) c.vpn c.ppn c.pages)
    (ht' : t' ∈ mapTiles (pg.levels - 1) c'.vpn c'.ppn c'.pages)
    (hdisjoint : ∀ p, t.Covers p → ¬ t'.Covers p) :
    Edit.Apart (pg.levels - 1) (t.mapEdit pg c.flags) (t'.mapEdit pg c'.flags) :=
  Tile.apart (h.tile_canonical ht) (h'.tile_canonical ht') (h.level_lt ht) (h'.level_lt ht')
    (h.tiling.dvd_vpn t ht) (h'.tiling.dvd_vpn t' ht') hdisjoint

theorem MapCall.Ok.pairwise : (c.edits pg).Pairwise (Edit.Apart (pg.levels - 1)) := by
  refine pairwise_map.mpr (List.Pairwise.imp_of_mem ?_ h.tiling.ordered)
  intro t t' ht ht' hlt
  refine h.apart h ht ht' fun p hp hp' => ?_
  have := hp.2
  have := hp'.1
  omega

end

theorem edits_pairwise {calls : List MapCall} (hok : ∀ c ∈ calls, c.Ok pg) (hdisjoint : calls.Pairwise MapCall.Disjoint) :
    (calls.flatMap (MapCall.edits pg)).Pairwise (Edit.Apart (pg.levels - 1)) := by
  refine pairwise_flatMap.mpr ⟨fun c hc => (hok c hc).pairwise, ?_⟩
  refine List.Pairwise.imp_of_mem ?_ hdisjoint
  intro c c' hc hc' hcc e he e' he'
  obtain ⟨t, ht, rfl⟩ := mem_map.mp he
  obtain ⟨t', ht', rfl⟩ := mem_map.mp he'
  refine (hok c hc).apart (hok c' hc') ht ht' fun p hp hp' => ?_
  obtain ⟨h1, h2⟩ := ((hok c hc).tiling.covers_iff p).mp ⟨t, ht, hp⟩
  obtain ⟨h3, h4⟩ := ((hok c' hc').tiling.covers_iff p).mp ⟨t', ht', hp'⟩
  unfold MapCall.Disjoint at hcc
  omega

theorem MapCall.Ok.length_edits_le (h : c.Ok pg) : (c.edits pg).length ≤ c.pages := by
  rw [MapCall.edits, length_map]
  exact length_tiles_le _ _ _ _ h.range_lt

theorem MapCall.Ok.writes_iff (h : c.Ok pg) {p : ℕ} (hp : Canonical pg p) :
    (∃ e ∈ c.edits pg, Agree (pg.levels - 1) e.target (vpnKey p) e.key) ↔
      c.vpn ≤ p ∧ p < c.vpn + c.pages := by
  rw [← h.tiling.covers_iff p]
  constructor
  · rintro ⟨e, he, hin⟩
    obtain ⟨t, ht, rfl⟩ := mem_map.mp he
    exact ⟨t, ht, (Tile.covers_iff hp (h.tile_canonical ht) (h.level_lt ht)
      (h.tiling.dvd_vpn t ht)).mp hin⟩
  · rintro ⟨t, ht, hcovers⟩
    exact ⟨_, mem_map_of_mem ht, (Tile.covers_iff hp (h.tile_canonical ht) (h.level_lt ht)
      (h.tiling.dvd_vpn t ht)).mpr hcovers⟩

/-- What a page of the range is mapped to, after edits that include those of the call and
    do not meet. -/
theorem MapCall.Ok.pageOf_inside (h : c.Ok pg) {es : List (Edit ℕ ℕ (Fin 512))}
    (hes : es.Pairwise (Edit.Apart (pg.levels - 1))) (hsub : c.edits pg ⊆ es)
    (hphys : c.ppn + c.pages < 2 ^ 64) {p : ℕ} (hle : c.vpn ≤ p) (hlt : p < c.vpn + c.pages)
    (f : Found ℕ) : pageOf p (es.foldl (Edit.effect (leafPart pg) (pg.levels - 1) (vpnKey p)) f) =
      some (some (c.flags.reported, (c.ppn + (p - c.vpn)) % 2 ^ 44)) := by
  obtain ⟨t, ht, hcovers⟩ := (h.tiling.covers_iff p).mpr ⟨hle, hlt⟩
  have hvpn := h.tiling.dvd_vpn t ht
  have hlevel := h.level_lt ht
  have hin : Agree (pg.levels - 1) t.level (vpnKey p) (vpnKey t.vpn) :=
    (Tile.covers_iff (h.canonical hle hlt) (h.tile_canonical ht) hlevel hvpn).mpr hcovers
  have hmem : t.mapEdit pg c.flags ∈ es := hsub (mem_map_of_mem ht)
  have hppn := mapTiles_ppn h.range_lt hphys ht
  have hfive := pg.le_five
  have hstart := hcovers.1
  have hpage : t.ppn + (p - t.vpn) = c.ppn + (p - c.vpn) := by omega
  rw [foldl_effect_inside hes hmem hin, ← hpage]
  simp only [Tile.mapEdit, decode_newLeaf _ _ h.any, Slot.found]
  exact pageOf_mapTile pg (by omega) hvpn (h.tiling.dvd_ppn t ht) hcovers

end Call


end BadgerOS.Memprotect

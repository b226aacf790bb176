import BadgerOS.Memprotect.Calls

/-!
# Changing a range of pages

What `memprotect_impl` does to the translations of one context (`port/generic/src/memprotect.c`
lines 585–612), for any table and any range inside one half.

The changes of a request are edits of the page table (`MapCall.changes`). A request is
*exact* if the pages of its range are translated as requested and all others as before.
`exact_iff_safe` says when it is:

* the physical pages fit the entries;
* of the mapped pages, those whose entries are written are those of the range. For a
  mapping this is always so. `pt_unmap_1` uses the index of the target level in the tables
  of all levels, so the entry that it clears belongs to other pages in general;
* no page outside is left with a wrong physical page by `pt_split`.
-/

namespace BadgerOS.Memprotect

open RadixTree MapCall

/-! ## Requests -/

/-- The edits that a request makes: `pt_map` if some access is granted, else `pt_unmap`. -/
def MapCall.changes (pg : Paging) (c : MapCall) : List (Edit ℕ ℕ (Fin 512)) :=
  if c.flags.any then c.edits pg
  else (unmapTiles (pg.levels - 1) c.vpn c.pages).map Tile.unmapEdit

/-- The range lies in one half. -/
def MapCall.InHalf (pg : Paging) (c : MapCall) : Prop :=
  c.vpn + c.pages ≤ pg.halfPages ∨
    pg.highVpn ≤ c.vpn ∧ c.vpn + c.pages ≤ pg.highVpn + pg.halfPages

/-- The page lies in the range. -/
def MapCall.Has (c : MapCall) (p : ℕ) : Prop := c.vpn ≤ p ∧ p < c.vpn + c.pages

/-- The request writes an entry that page `p` uses. -/
def MapCall.Writes (pg : Paging) (c : MapCall) (p : ℕ) : Prop :=
  ∃ e ∈ c.changes pg, Agree (pg.levels - 1) e.target (vpnKey p) e.key

/-- The walks of the request come through the entry of level `j` that page `p` uses. -/
def MapCall.Passes (pg : Paging) (c : MapCall) (j p : ℕ) : Prop :=
  ∃ e ∈ c.changes pg, Agree (pg.levels - 1) j (vpnKey p) e.key

/-- The pages of the range are translated as requested, all others as before. -/
structure Exact (pg : Paging) (mem mem' : Pmem) (root : ℕ) (c : MapCall) : Prop where
  inside : ∀ p, Canonical pg p → c.Has p → pageOf p (foundAt pg mem' root p) =
    some (if c.flags.any then some (c.flags.reported, c.ppn + (p - c.vpn)) else none)
  outside : ∀ p, Canonical pg p → ¬ c.Has p →
    pageOf p (foundAt pg mem' root p) = pageOf p (foundAt pg mem root p)

/-- The condition on a request in a given table. -/
structure Safe (pg : Paging) (mem : Pmem) (root : ℕ) (c : MapCall) : Prop where
  frames : c.flags.any = true → 0 < c.pages → c.ppn + c.pages ≤ 2 ^ 44
  writes : ∀ p, Canonical pg p → ∀ level pte, foundAt pg mem root p = .leaf level pte →
    (c.Writes pg p ↔ c.Has p)
  splits : ∀ p, Canonical pg p → ∀ level pte, foundAt pg mem root p = .leaf level pte →
    ¬ c.Writes pg p → ∀ j, 1 ≤ j → j < level → c.Passes pg (j + 1) p → mmuVpnPart p j = 0

/-- The superpages of the table are aligned. -/
def Aligned (pg : Paging) (mem : Pmem) (root : ℕ) : Prop :=
  ∀ p, Canonical pg p → ∀ level pte, foundAt pg mem root p = .leaf level pte →
    512 ^ level ∣ mmuPteGetPpn pte

section Request

variable {pg : Paging} {c : MapCall} {mem : Pmem} {root : ℕ} {es : List (Edit ℕ ℕ (Fin 512))}

theorem MapCall.InHalf.range_lt (h : c.InHalf pg) : c.vpn + c.pages < 2 ^ 64 := by
  unfold MapCall.InHalf at h
  rcases pg.sizes with hs | hs | hs <;> omega

theorem MapCall.changes_map (hany : c.flags.any = true) : c.changes pg = c.edits pg := if_pos hany

theorem MapCall.changes_unmap (hany : c.flags.any = false) :
    c.changes pg = (unmapTiles (pg.levels - 1) c.vpn c.pages).map Tile.unmapEdit := by
  rw [changes, if_neg (by simp [hany])]

theorem MapCall.slot_unmap (hany : c.flags.any = false) {e : Edit ℕ ℕ (Fin 512)}
    (he : e ∈ c.changes pg) : e.slot = .hole := by
  rw [changes_unmap hany] at he
  obtain ⟨t, -, rfl⟩ := List.mem_map.mp he
  rfl

theorem MapCall.InHalf.fit (h : c.InHalf pg) (hread : c.flags.w = true → c.flags.r = true) :
    Fit (pg.levels - 1) (c.changes pg) := by
  cases hany : c.flags.any with
  | true =>
    rw [changes_map hany]
    exact MapCall.Ok.fit ⟨h, hany, hread⟩
  | false =>
    rw [changes_unmap hany]
    intro e he
    obtain ⟨t, ht, rfl⟩ := List.mem_map.mp he
    have htiling : Tiling (pg.levels - 1) c.vpn c.pages (unmapTiles (pg.levels - 1) c.vpn c.pages) :=
      tiles_spec _ _ (Nat.lt_succ_self _) h.range_lt
    exact ⟨t.unmapEdit_proper, htiling.level_le t ht⟩

/-! ## Pages outside the range -/

/-- A mapped page whose entries are not written keeps its translation iff the superpages
    around it are split at index 0 only. -/
theorem pageOf_outside_iff (hal : Aligned pg mem root) {p level pte : ℕ} (hp : Canonical pg p)
    (hleaf : foundAt pg mem root p = .leaf level pte)
    (hout : ∀ e ∈ es, ¬ Agree (pg.levels - 1) e.target (vpnKey p) e.key) :
    pageOf p (es.foldl (Edit.effect (leafPart pg) (pg.levels - 1) (vpnKey p)) (.leaf level pte)) =
        pageOf p (.leaf level pte) ↔
      ∀ j, 1 ≤ j → j < level →
        (∃ e ∈ es, Agree (pg.levels - 1) (j + 1) (vpnKey p) e.key) → mmuVpnPart p j = 0 := by
  obtain ⟨hlevel, hany⟩ := foundAt_leaf hleaf
  have := pg.le_five
  rw [foldl_effect_outside hout]
  refine pageOf_cut_iff hany (by omega) (hal p hp level pte hleaf) ?_
  rintro i j ⟨e, he, hagree⟩ hij
  exact ⟨e, he, hagree.mono hij⟩

/-- A mapped page whose entries are not written stays mapped, rightly or wrongly. -/
theorem pageOf_outside_ne {p level pte : ℕ} (hleaf : foundAt pg mem root p = .leaf level pte)
    (hout : ∀ e ∈ es, ¬ Agree (pg.levels - 1) e.target (vpnKey p) e.key) :
    pageOf p (es.foldl (Edit.effect (leafPart pg) (pg.levels - 1) (vpnKey p)) (.leaf level pte)) ≠
      some none := by
  obtain ⟨-, hany⟩ := foundAt_leaf hleaf
  rw [foldl_effect_outside hout]
  obtain ⟨level', -, pte', hcut, -⟩ := @cut_leafPart pg p
    (fun k => ∃ e ∈ es, Agree (pg.levels - 1) k (vpnKey p) e.key) level pte hany
  rw [Found.cut, hcut, pageOf]
  split_ifs <;> simp

/-- A safe request keeps the translations of the pages outside at every moment: after any
    initial part of its changes. -/
theorem Safe.initial_outside (h : Safe pg mem root c) (hal : Aligned pg mem root)
    (hhalf : c.InHalf pg) (hread : c.flags.w = true → c.flags.r = true) {p : ℕ}
    (hp : Canonical pg p) (hout : ¬ c.Has p) (hbroken : foundAt pg mem root p ≠ .broken)
    (hes : es ⊆ c.changes pg) :
    pageOf p (es.foldl (Edit.effect (leafPart pg) (pg.levels - 1) (vpnKey p))
      (foundAt pg mem root p)) = pageOf p (foundAt pg mem root p) := by
  cases hf : foundAt pg mem root p with
  | leaf level pte =>
    have hwrites : ¬ c.Writes pg p := fun hw => hout ((h.writes p hp level pte hf).mp hw)
    have hnot : ∀ e ∈ es, ¬ Agree (pg.levels - 1) e.target (vpnKey p) e.key :=
      fun e he hagree => hwrites ⟨e, hes he, hagree⟩
    refine (pageOf_outside_iff hal hp hf hnot).mpr fun j h1 h2 ⟨e, he, hagree⟩ => ?_
    exact h.splits p hp level pte hf hwrites j h1 h2 ⟨e, hes he, hagree⟩
  | hole =>
    cases hany : c.flags.any with
    | true =>
      have hok : c.Ok pg := ⟨hhalf, hany, hread⟩
      rw [foldl_effect_outside]
      · rfl
      · intro e he hagree
        have hmem := hes he
        rw [changes_map hany] at hmem
        exact hout ((hok.writes_iff hp).mp ⟨e, hmem, hagree⟩)
    | false => rw [foldl_effect_hole (fun e he => slot_unmap hany (hes he)) (.inl rfl)]
  | broken => exact absurd hf hbroken

/-- Mapping a range without mapped pages is safe. -/
theorem safe_of_unmapped (hhalf : c.InHalf pg) (hany : c.flags.any = true)
    (hread : c.flags.w = true → c.flags.r = true) (hframes : c.ppn + c.pages ≤ 2 ^ 44)
    (hnone : ∀ p, c.Has p → foundAt pg mem root p = .hole) : Safe pg mem root c := by
  have hok : c.Ok pg := ⟨hhalf, hany, hread⟩
  refine ⟨fun _ _ => hframes, fun p hp level pte _ => ?_, fun p hp level pte hleaf _ j _ hj => ?_⟩
  · rw [MapCall.Writes, changes_map hany, hok.writes_iff hp, MapCall.Has]
  · -- A walk that comes to a superpage would belong to a mapped page of the range.
    rintro ⟨e, he, hagree⟩
    rw [changes_map hany] at he
    obtain ⟨t, ht, rfl⟩ := List.mem_map.mp he
    have hself : t.Covers t.vpn := ⟨le_rfl, by simp⟩
    have hhole := hnone _ ((hok.tiling.covers_iff t.vpn).mp ⟨t, ht, hself⟩)
    have hsame : foundAt pg mem root t.vpn = .leaf level pte :=
      find_agree hleaf fun i hlo hhi => hagree i (by omega) hhi
    rw [hhole] at hsame
    contradiction

/-! ## Exact requests -/

theorem pageOf_leaf_ne (p level pte : ℕ) : pageOf p (.leaf level pte) ≠ some none := by
  rw [pageOf]
  split_ifs <;> simp

section Exact

variable {mem' : Pmem} (hal : Aligned pg mem root) (hhalf : c.InHalf pg)
  (hread : c.flags.w = true → c.flags.r = true) (hphys : c.ppn + c.pages < 2 ^ 64)
  (hbroken : ∀ p, foundAt pg mem root p ≠ .broken)
  (hfound : ∀ p, foundAt pg mem' root p = (c.changes pg).foldl
    (Edit.effect (leafPart pg) (pg.levels - 1) (vpnKey p)) (foundAt pg mem root p))

include hhalf hread hphys hfound in
theorem pageOf_mapped (hany : c.flags.any = true) {p : ℕ} (hin : c.Has p) : pageOf p (foundAt pg mem' root p) =
      some (some (c.flags.reported, (c.ppn + (p - c.vpn)) % 2 ^ 44)) := by
  have hok : c.Ok pg := ⟨hhalf, hany, hread⟩
  rw [hfound, changes_map hany]
  exact hok.pageOf_inside hok.pairwise (List.Subset.refl _) hphys hin.1 hin.2 _

include hfound in
theorem pageOf_cleared (hany : c.flags.any = false) {p : ℕ} (h : foundAt pg mem root p = .hole ∨ c.Writes pg p) :
    pageOf p (foundAt pg mem' root p) = some none := by
  rw [hfound, foldl_effect_hole (fun e he => slot_unmap hany he) h]
  rfl

include hhalf hread hfound in
theorem Exact.writes_iff (h : Exact pg mem mem' root c) {p level pte : ℕ} (hp : Canonical pg p)
    (hleaf : foundAt pg mem root p = .leaf level pte) : c.Writes pg p ↔ c.Has p := by
  cases hany : c.flags.any with
  | true =>
    have hok : c.Ok pg := ⟨hhalf, hany, hread⟩
    rw [MapCall.Writes, changes_map hany, hok.writes_iff hp, MapCall.Has]
  | false =>
    constructor
    · intro hw
      by_contra hout
      have hsame := h.outside p hp hout
      rw [pageOf_cleared hfound hany (.inr hw), hleaf] at hsame
      exact pageOf_leaf_ne p level pte hsame.symm
    · intro hin
      by_contra hw
      have hgone := h.inside p hp hin
      rw [hfound, hleaf, hany, if_neg Bool.false_ne_true] at hgone
      exact pageOf_outside_ne hleaf (fun e he hagree => hw ⟨e, he, hagree⟩) hgone

include hal hhalf hread hphys hbroken hfound in
theorem exact_iff_safe : Exact pg mem mem' root c ↔ Safe pg mem root c := by
  constructor
  · intro h
    have hwrites : ∀ p, Canonical pg p → ∀ level pte, foundAt pg mem root p = .leaf level pte →
        (c.Writes pg p ↔ c.Has p) :=
      fun p hp level pte hleaf => h.writes_iff hhalf hread hfound hp hleaf
    refine ⟨fun hany hpos => ?_, hwrites, fun p hp level pte hleaf hw => ?_⟩
    · -- The last page of the range is the one that may not fit.
      have hok : c.Ok pg := ⟨hhalf, hany, hread⟩
      have hin : c.Has (c.vpn + (c.pages - 1)) := ⟨by omega, by omega⟩
      have hlast := h.inside _ (hok.canonical hin.1 hin.2) hin
      rw [pageOf_mapped hhalf hread hphys hfound hany hin, hany, if_pos rfl] at hlast
      simp only [Option.some.injEq, Prod.mk.injEq, true_and, Nat.add_sub_cancel_left] at hlast
      have := Nat.mod_lt (c.ppn + (c.pages - 1)) (show 0 < 2 ^ 44 by norm_num)
      omega
    · have hout : ¬ c.Has p := fun hin => hw ((hwrites p hp level pte hleaf).mpr hin)
      have hsame := h.outside p hp hout
      rw [hfound, hleaf] at hsame
      exact (pageOf_outside_iff hal hp hleaf fun e he hagree => hw ⟨e, he, hagree⟩).mp hsame
  · intro h
    refine ⟨fun p hp hin => ?_, fun p hp hout => ?_⟩
    · cases hany : c.flags.any with
      | true =>
        have hle := hin.1
        have hlt := hin.2
        have hframes := h.frames hany (by omega)
        rw [pageOf_mapped hhalf hread hphys hfound hany hin, if_pos rfl,
          Nat.mod_eq_of_lt (by omega)]
      | false =>
        rw [if_neg Bool.false_ne_true]
        refine pageOf_cleared hfound hany ?_
        cases hf : foundAt pg mem root p with
        | leaf level pte => exact .inr ((h.writes p hp level pte hf).mpr hin)
        | hole => exact .inl rfl
        | broken => exact absurd hf (hbroken p)
    · rw [hfound]
      exact h.initial_outside hal hhalf hread hp hout (hbroken p) (List.Subset.refl _)

include hal hhalf hread hbroken hfound in
theorem Safe.aligned (h : Safe pg mem root c) : Aligned pg mem' root := by
  intro p hp level pte hleaf
  rw [hfound] at hleaf
  by_cases hw : c.Writes pg p
  · cases hany : c.flags.any with
    | true =>
      have hok : c.Ok pg := ⟨hhalf, hany, hread⟩
      obtain ⟨e, he, hagree⟩ := hw
      rw [changes_map hany] at he hleaf
      rw [foldl_effect_inside hok.pairwise he hagree] at hleaf
      obtain ⟨t, ht, rfl⟩ := List.mem_map.mp he
      simp only [Tile.mapEdit, decode_newLeaf _ _ hany, Slot.found] at hleaf
      cases hleaf
      rw [mmuPteGetPpn_newLeaf]
      have := hok.level_lt ht
      have := pg.le_five
      exact (Nat.dvd_mod_iff (pow_dvd_two_pow (by omega))).mpr (hok.tiling.dvd_ppn t ht)
    | false =>
      rw [foldl_effect_hole (fun e he => slot_unmap hany he) (.inr hw)] at hleaf
      contradiction
  · rw [foldl_effect_outside fun e he hagree => hw ⟨e, he, hagree⟩] at hleaf
    cases hf : foundAt pg mem root p with
    | leaf k x =>
      obtain ⟨hk, hany⟩ := foundAt_leaf hf
      have := pg.le_five
      obtain ⟨level', pte', hcut, hdvd, -⟩ := @pageOf_cut pg p (fun j => c.Passes pg j p) k x hany
        (by omega) (hal p hp k x hf) (h.splits p hp k x hf hw)
      rw [hf] at hleaf
      have heq := hcut.symm.trans hleaf
      rw [Found.leaf.injEq] at heq
      rwa [heq.1, heq.2] at hdvd
    | hole =>
      rw [hf] at hleaf
      contradiction
    | broken => exact absurd hf (hbroken p)

end Exact

end Request

end BadgerOS.Memprotect

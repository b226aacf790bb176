import BadgerOS.Memprotect.RangeEdit

/-!
# Changing user memory

What `memprotect_u` does to the translations of the context that it is called for and to
those of all others (`port/generic/src/memprotect.c` lines 614–631).

The tables of a context are its own, except that the tables below the upper half of the
root tables may be shared. `WellFormed` expresses this by a label for each table.

**Deviation.** The call is not exact in general. `pt_unmap_1` walks with the index of the
target level at all levels, so it misses the entry that it should clear: page 1 stays
mapped when it is unmapped (`not_userEditExact_unmap`). Splitting a superpage of level 2 or
higher gives wrong physical pages to the parts, mapping write-only memory makes it readable,
and physical page numbers are cut to 44 bits. `userEditExact_iff` is the exact condition.
-/

namespace BadgerOS.Memprotect

open RadixTree Option Prod

/-! ## Contexts -/

/-- The owner of the table below an entry: no one in particular for the upper half of a root
    table, else the owner of the table with the entry. -/
def space (pg : Paging) (owner : Option ℕ) (level : ℕ) (i : Fin 512) : Option ℕ :=
  if level + 1 = pg.levels ∧ 256 ≤ i.val then none else owner

/-- The label of a root table. -/
def rootLabel (pg : Paging) (root : ℕ) : Label (Option ℕ) (Fin 512) :=
  ⟨some root, pg.levels - 1, []⟩

/-- The tables of the contexts are where their labels say. -/
structure Separate (pg : Paging) (sys : Contexts) (own : ℕ → Option (Label (Option ℕ) (Fin 512))) :
    Prop where
  owned : Owned (space pg) (tables sys.mem) own sys.pages
  roots : ∀ root ∈ sys.global :: sys.ctxs, own root = some (rootLabel pg root)
  lt : ∀ page ∈ sys.pages, page < 2 ^ 44

/-- The tables of different contexts do not overlap except in the upper half, and the pages
    for new tables are free. -/
def WellFormed (pg : Paging) (sys : Contexts) : Prop := ∃ own, Separate pg sys own

/-- A walk in the lower half stays in tables of the same owner. -/
theorem space_down {pg : Paging} {key : ℕ → Fin 512} (hkey : (key (pg.levels - 1)).val < 256)
    (n : Label (Option ℕ) (Fin 512)) (k : ℕ) : (n.down (space pg) key k).space = n.space := by
  induction k generalizing n with
  | zero => rfl
  | succ k ih =>
    rw [Label.down, ih, Label.child, space, if_neg]
    rintro ⟨hlevel, hge⟩
    have : n.level = pg.levels - 1 := by omega
    rw [this] at hge
    omega

/-! ## The call as edits -/

/-- The flags that `memprotect_impl` maps with: readable if writable. -/
def Flags.granted (flags : Flags) : Flags := { flags with r := flags.r || flags.w }

theorem Flags.granted_read (flags : Flags) (h : flags.granted.w = true) : flags.granted.r = true := by
  have hw : flags.w = true := h
  simp [Flags.granted, hw]

theorem Flags.any_granted (flags : Flags) : flags.granted.any = flags.any := by
  simp only [Flags.granted, Rwx.any]
  cases flags.r <;> cases flags.w <;> rfl

/-- What `memprotect_impl` does before it broadcasts. -/
def rangeEdit (pg : Paging) (root : ℕ) (c : MapCall) (st : MmuState) : Option (Bool × MmuState) :=
  if c.flags.any then ptMap pg root (pg.levels - 1) c.vpn c.ppn c.pages c.flags st
  else ptUnmap pg root (pg.levels - 1) c.vpn c.pages st

section Impl

variable {pg : Paging} {root : ℕ}

theorem rangeEdit_eq {c : MapCall} {st : MmuState} (hhalf : c.InHalf pg)
    (hpages : ∀ page ∈ st.pages, page < 2 ^ 44) :
    (rangeEdit pg root c st).map (fun r => r.2.store) =
      edits (leafPart pg) (pg.levels - 1) root (c.changes pg) st.store := by
  unfold rangeEdit MapCall.changes
  split_ifs
  · exact ptMap_eq hpages _ _ _ _ hhalf.range_lt
  · exact ptUnmap_eq hpages _ _ hhalf.range_lt

theorem memprotectImpl_inv {vpn ppn pages : ℕ} {flags : Flags} {sys sys' : Contexts}
    (h : memprotectImpl pg root vpn ppn pages flags sys = some sys') :
    ∃ topMod st, rangeEdit pg root ⟨vpn, ppn, pages, flags.granted⟩ sys.toMmuState =
        some (topMod, st) ∧
      sys' = { sys with toMmuState := { st with
        mem := if topMod && flags.global then broadcastGlobal sys st.mem else st.mem } } := by
  unfold memprotectImpl at h
  simp only at h
  split at h
  · contradiction
  · rename_i topMod st hst
    exact ⟨topMod, st, hst, (some.inj h).symm⟩

theorem memprotectImpl_edits {vpn ppn pages : ℕ} {flags : Flags} {sys sys' : Contexts}
    (hglobal : flags.global = false) (hpages : ∀ page ∈ sys.pages, page < 2 ^ 44)
    (hhalf : MapCall.InHalf pg ⟨vpn, ppn, pages, flags.granted⟩)
    (h : memprotectImpl pg root vpn ppn pages flags sys = some sys') :
    edits (leafPart pg) (pg.levels - 1) root
        (MapCall.changes pg ⟨vpn, ppn, pages, flags.granted⟩) sys.toMmuState.store =
      some sys'.toMmuState.store := by
  obtain ⟨topMod, st, hst, rfl⟩ := memprotectImpl_inv h
  rw [← rangeEdit_eq hhalf hpages, hst]
  simp [hglobal]

end Impl

/-! ## The effect on the contexts -/

section Effect

variable {pg : Paging} {sys sys' : Contexts} {own : ℕ → Option (Label (Option ℕ) (Fin 512))}
  {root : ℕ} {c : MapCall}

section

variable (h : Separate pg sys own) (hroot : root ∈ sys.global :: sys.ctxs)

include h hroot

theorem Separate.ne_broken (p : ℕ) : foundAt pg sys.mem root p ≠ .broken :=
  h.owned.find_ne_broken (h.roots root hroot) rfl

/-- The changes keep the tables of the contexts apart, and their effects on the context add up. -/
theorem Separate.edits (hfit : Fit (pg.levels - 1) (c.changes pg))
    (hedits : RadixTree.edits (leafPart pg) (pg.levels - 1) root (c.changes pg)
      sys.toMmuState.store = some sys'.toMmuState.store)
    (hglobal : sys'.global = sys.global) (hctxs : sys'.ctxs = sys.ctxs) :
    WellFormed pg sys' ∧ ∀ p, foundAt pg sys'.mem root p = (c.changes pg).foldl
      (Edit.effect (leafPart pg) (pg.levels - 1) (vpnKey p)) (foundAt pg sys.mem root p) := by
  obtain ⟨⟨own', howned, hkeep⟩, hfind⟩ :=
    Owned.edits h.owned hfit (h.roots root hroot) rfl hedits
  have hfree := edits_free hedits
  refine ⟨⟨own', howned, fun r hr => hkeep _ _ (h.roots r ?_), fun page hmem => ?_⟩,
    fun p => hfind (vpnKey p)⟩
  · rwa [hglobal, hctxs] at hr
  · exact h.lt page (hfree.mem hmem)

/-- A safe change of a range in the lower half of one context leaves the others alone. In
    the lower half they have no table in common with it, and in the upper half the context
    itself is not affected. -/
theorem Separate.others (hread : c.flags.w = true → c.flags.r = true)
    (hlower : c.vpn + c.pages ≤ pg.halfPages) (hal : Aligned pg sys.mem root)
    (hsafe : Safe pg sys.mem root c)
    (hedits : RadixTree.edits (leafPart pg) (pg.levels - 1) root (c.changes pg)
      sys.toMmuState.store = some sys'.toMmuState.store)
    {root' : ℕ} (hroot' : root' ∈ sys.global :: sys.ctxs) (hne : root' ≠ root) {p : ℕ}
    (hp : Canonical pg p) :
    pageOf p (foundAt pg sys'.mem root' p) = pageOf p (foundAt pg sys.mem root' p) := by
  have hhalf : c.InHalf pg := .inl hlower
  have hfit := hhalf.fit hread
  by_cases hp' : p < pg.halfPages
  · have hkey : (vpnKey p (pg.levels - 1)).val < 256 := hp.div_pow_levels.1.mp hp'
    refine congrArg (pageOf p) (find_edits_apart h.owned hfit (h.roots root hroot) rfl
      (h.roots root' hroot') rfl rfl hedits fun j _ heq => hne ?_)
    have hspace := congrArg Label.space heq
    rw [space_down hkey, space_down hkey] at hspace
    exact (some.inj hspace).symm
  · refine find_edits_other h.owned hfit (h.roots root hroot) rfl (h.roots root' hroot') rfl rfl
      hedits fun es hes => ?_
    refine hsafe.initial_outside hal hhalf hread hp (fun hin => ?_) (h.ne_broken hroot p) hes.subset
    have := hin.2
    omega

end

end Effect

/-! ## The call -/

/-- What `memprotect_u` should do: the addresses of the range are translated as requested,
    all other addresses of the context and all addresses of other contexts as before. -/
structure UserEditExact (pg : Paging) (sys sys' : Contexts) (root vaddr paddr length : ℕ)
    (flags : Flags) : Prop where
  inside : ∀ a, vaddr ≤ a → a < vaddr + length → translate pg sys'.mem root a =
    some (if flags.any then
      some (⟨flags.toRwx, false, false, false, false⟩, paddr + (a - vaddr)) else none)
  outside : ∀ a < 2 ^ 64, ¬ (vaddr ≤ a ∧ a < vaddr + length) →
    translate pg sys'.mem root a = translate pg sys.mem root a
  others : ∀ root' ∈ sys.global :: sys.ctxs, root' ≠ root → ∀ a < 2 ^ 64,
    translate pg sys'.mem root' a = translate pg sys.mem root' a

/-- The request that `memprotect_u` makes for a range of user memory. -/
def userCall (vaddr paddr length : ℕ) (flags : Flags) : MapCall :=
  ⟨vaddr / 4096, paddr / 4096, length / 4096,
    Flags.granted { flags with global := false, kernel := false }⟩

/-- The condition on a call: it is safe, and it does not ask for write-only memory. -/
structure UserSafe (pg : Paging) (mem : Pmem) (root vaddr paddr length : ℕ) (flags : Flags) :
    Prop where
  safe : Safe pg mem root (userCall vaddr paddr length flags)
  read : 0 < length → flags.w = true → flags.r = true

theorem or_mod_eq_zero {a b : ℕ} : (a ||| b) % 4096 = 0 ↔ a % 4096 = 0 ∧ b % 4096 = 0 := by
  rw [show 4096 = 2 ^ 12 by norm_num, Nat.or_mod_two_pow, Nat.or_eq_zero_iff]

/-! ### Addresses and pages -/

section Pages

variable {pg : Paging} {mem mem' : Pmem} {root root' : ℕ}

theorem translate_congr
    (h : ∀ p, Canonical pg p → pageOf p (foundAt pg mem' root' p) = pageOf p (foundAt pg mem root p))
    {a : ℕ} (ha : a < 2 ^ 64) : translate pg mem' root' a = translate pg mem root a := by
  by_cases hp : Canonical pg (a / 4096)
  · exact (translate_eq_iff hp).mpr (h _ hp)
  · rw [translate_of_not_canonical ha hp, translate_of_not_canonical ha hp]

theorem translate_page {p : ℕ} (hp : Canonical pg p) {a : ℕ} (ha : a / 4096 = p)
    {page : Option (Flags × ℕ)} : translate pg mem root a =
        some (page.map fun page => (page.1, page.2 * 4096 + a % 4096)) ↔
      pageOf p (foundAt pg mem root p) = some page := by
  subst ha
  rw [translate_eq hp, ← map_some]
  refine (map_injective (map_injective ?_)).eq_iff
  rintro ⟨flags, ppn⟩ ⟨flags', ppn'⟩ heq
  simp only [mk.injEq] at heq
  exact Prod.ext heq.1 (by omega)

theorem translate_none {a : ℕ} (hp : Canonical pg (a / 4096)) :
    translate pg mem root a = some none ↔
      pageOf (a / 4096) (foundAt pg mem root (a / 4096)) = some none := by
  rw [← translate_page hp rfl]
  rfl

end Pages

section UserCall

variable {vaddr paddr length : ℕ} {flags : Flags}

theorem any_userCall (vaddr paddr length : ℕ) (flags : Flags) :
    (userCall vaddr paddr length flags).flags.any = flags.any :=
  Flags.any_granted _

theorem reported_userCall (vaddr paddr length : ℕ) (flags : Flags) :
    (userCall vaddr paddr length flags).flags.reported = ⟨flags.toRwx, false, false, false, false⟩ ↔
      (flags.w = true → flags.r = true) := by
  obtain ⟨⟨r, w, x⟩, g, k, io, nc⟩ := flags
  cases r <;> cases w <;> simp [userCall, Flags.granted, Flags.reported]

variable {pg : Paging} {mem mem' : Pmem} {root : ℕ}

theorem userCall_has_iff (hv : vaddr % 4096 = 0) (hl : length % 4096 = 0) (a : ℕ) :
    (userCall vaddr paddr length flags).Has (a / 4096) ↔ vaddr ≤ a ∧ a < vaddr + length := by
  simp only [userCall, MapCall.Has]
  omega

theorem inside_iff_pages (hv : vaddr % 4096 = 0) (hp : paddr % 4096 = 0) (hl : length % 4096 = 0)
    (hlower : vaddr / 4096 + length / 4096 ≤ pg.halfPages) (want : Flags) :
    (∀ a, vaddr ≤ a → a < vaddr + length → translate pg mem' root a =
        some (if flags.any then some (want, paddr + (a - vaddr)) else none)) ↔
      ∀ p, (userCall vaddr paddr length flags).Has p → pageOf p (foundAt pg mem' root p) =
        some (if flags.any then some (want, paddr / 4096 + (p - vaddr / 4096)) else none) := by
  have hcanonical {p : ℕ} (hp : (userCall vaddr paddr length flags).Has p) : Canonical pg p :=
    .inl (by have := hp.2; simp only [userCall] at this; omega)
  -- The two forms of the translation of an address agree.
  have hform (a : ℕ) (ha : vaddr ≤ a) :
      (if flags.any then some (want, paddr + (a - vaddr)) else none) =
        (if flags.any then some (want, paddr / 4096 + (a / 4096 - vaddr / 4096)) else none).map
          fun page : Flags × ℕ => (page.1, page.2 * 4096 + a % 4096) := by
    have haddr : (paddr / 4096 + (a / 4096 - vaddr / 4096)) * 4096 + a % 4096 =
        paddr + (a - vaddr) := by omega
    split_ifs
    · rw [map_some, haddr]
    · rfl
  constructor
  · intro h p hin
    have hdiv : p * 4096 / 4096 = p := Nat.mul_div_cancel _ (by norm_num)
    obtain ⟨h1, h2⟩ := (userCall_has_iff hv hl (p * 4096)).mp (by rwa [hdiv])
    have ha := h _ h1 h2
    rw [hform _ h1, hdiv] at ha
    exact (translate_page (hcanonical hin) hdiv).mp ha
  · intro h a h1 h2
    have hin : (userCall vaddr paddr length flags).Has (a / 4096) :=
      (userCall_has_iff hv hl a).mpr ⟨h1, h2⟩
    rw [hform a h1]
    exact (translate_page (hcanonical hin) rfl).mpr (h _ hin)

theorem outside_iff_pages (hv : vaddr % 4096 = 0) (hl : length % 4096 = 0) :
    (∀ a < 2 ^ 64, ¬ (vaddr ≤ a ∧ a < vaddr + length) →
        translate pg mem' root a = translate pg mem root a) ↔
      ∀ p, Canonical pg p → ¬ (userCall vaddr paddr length flags).Has p →
        pageOf p (foundAt pg mem' root p) = pageOf p (foundAt pg mem root p) := by
  constructor
  · intro h p hp hout
    have hdiv : p * 4096 / 4096 = p := Nat.mul_div_cancel _ (by norm_num)
    have hlt : p * 4096 < 2 ^ 64 := by
      unfold Canonical at hp
      rcases pg.sizes with hs | hs | hs <;> omega
    have hsame := h (p * 4096) hlt fun hin => hout
      (by rw [← hdiv]; exact (userCall_has_iff hv hl _).mpr hin)
    rw [translate_eq_iff (by rwa [hdiv]), hdiv] at hsame
    exact hsame
  · intro h a ha hout
    by_cases hp : Canonical pg (a / 4096)
    · exact (translate_eq_iff hp).mpr (h _ hp fun hin => hout ((userCall_has_iff hv hl a).mp hin))
    · rw [translate_of_not_canonical ha hp, translate_of_not_canonical ha hp]

end UserCall

section Call

variable {pg : Paging} {sys sys' : Contexts} {root vaddr paddr length : ℕ} {flags : Flags}

theorem userCall_read (vaddr paddr length : ℕ) (flags : Flags)
    (hw : (userCall vaddr paddr length flags).flags.w = true) :
    (userCall vaddr paddr length flags).flags.r = true := Flags.granted_read _ hw

/-- A call that returns false has changed nothing. With aligned arguments it does so only
    for ranges that leave the lower half. -/
theorem memprotectU_false
    (h : memprotectU pg root vaddr paddr length flags sys = some (false, sys')) :
    sys' = sys ∧ (vaddr % 4096 = 0 → paddr % 4096 = 0 → length % 4096 = 0 →
      pg.halfPages < vaddr / 4096 + length / 4096) := by
  unfold memprotectU at h
  split_ifs at h with halign hrange
  · rw [Ne, or_mod_eq_zero, or_mod_eq_zero] at halign
    simp only [some.injEq, mk.injEq, true_and] at h
    exact ⟨h.symm, fun hv hp hl => absurd ⟨⟨hv, hp⟩, hl⟩ halign⟩
  · simp only [some.injEq, mk.injEq, true_and] at h
    exact ⟨h.symm, fun _ _ _ => hrange⟩
  · obtain ⟨r, -, heq⟩ := map_eq_some_iff.mp h
    simp at heq

section

variable (h : memprotectU pg root vaddr paddr length flags sys = some (true, sys'))

include h

theorem memprotectU_inv : vaddr % 4096 = 0 ∧ paddr % 4096 = 0 ∧ length % 4096 = 0 ∧
      vaddr / 4096 + length / 4096 ≤ pg.halfPages ∧
      memprotectImpl pg root (vaddr / 4096) (paddr / 4096) (length / 4096)
        { flags with global := false, kernel := false } sys = some sys' := by
  unfold memprotectU at h
  split_ifs at h with halign hrange
  · simp at h
  · simp at h
  · rw [not_not, or_mod_eq_zero, or_mod_eq_zero] at halign
    obtain ⟨r, hr, heq⟩ := map_eq_some_iff.mp h
    obtain rfl := (mk.inj heq).2
    exact ⟨halign.1.1, halign.1.2, halign.2, by omega, hr⟩

theorem memprotectU_edits (hpages : ∀ page ∈ sys.pages, page < 2 ^ 44) :
    edits (leafPart pg) (pg.levels - 1) root ((userCall vaddr paddr length flags).changes pg)
        sys.toMmuState.store = some sys'.toMmuState.store ∧
      sys'.global = sys.global ∧ sys'.ctxs = sys.ctxs := by
  obtain ⟨-, -, -, hlower, himpl⟩ := memprotectU_inv h
  refine ⟨memprotectImpl_edits rfl hpages (.inl hlower) himpl, ?_⟩
  obtain ⟨topMod, st, -, rfl⟩ := memprotectImpl_inv himpl
  exact ⟨rfl, rfl⟩

theorem userCall_phys (hpaddr : paddr < 2 ^ 64) :
    (userCall vaddr paddr length flags).ppn + (userCall vaddr paddr length flags).pages < 2 ^ 64 := by
  obtain ⟨-, -, -, hlower, -⟩ := memprotectU_inv h
  simp only [userCall]
  rcases pg.sizes with hs | hs | hs <;> omega

theorem memprotectU_found {own : ℕ → Option (Label (Option ℕ) (Fin 512))}
    (hsep : Separate pg sys own) (hroot : root ∈ sys.global :: sys.ctxs) :
    WellFormed pg sys' ∧ ∀ p, foundAt pg sys'.mem root p =
      ((userCall vaddr paddr length flags).changes pg).foldl
        (Edit.effect (leafPart pg) (pg.levels - 1) (vpnKey p)) (foundAt pg sys.mem root p) := by
  obtain ⟨hedits, hglobal, hctxs⟩ := memprotectU_edits h hsep.lt
  have hhalf : (userCall vaddr paddr length flags).InHalf pg := .inl (memprotectU_inv h).2.2.2.1
  exact hsep.edits hroot (hhalf.fit (userCall_read _ _ _ _)) hedits hglobal hctxs

theorem memprotectU_keeps (hsys : WellFormed pg sys) (hroot : root ∈ sys.ctxs)
    (hal : Aligned pg sys.mem root)
    (hsafe : Safe pg sys.mem root (userCall vaddr paddr length flags)) :
    WellFormed pg sys' ∧ Aligned pg sys'.mem root := by
  obtain ⟨own, hsep⟩ := hsys
  have hroot' : root ∈ sys.global :: sys.ctxs := List.mem_cons_of_mem _ hroot
  obtain ⟨hwf, hfound⟩ := memprotectU_found h hsep hroot'
  exact ⟨hwf, hsafe.aligned hal (.inl (memprotectU_inv h).2.2.2.1) (userCall_read _ _ _ _)
    (hsep.ne_broken hroot') hfound⟩

end

/-- `memprotect_u` does what it should exactly under the condition. -/
theorem userEditExact_iff (hsys : WellFormed pg sys) (hroot : root ∈ sys.ctxs)
    (hal : Aligned pg sys.mem root) (hpaddr : paddr < 2 ^ 64)
    (h : memprotectU pg root vaddr paddr length flags sys = some (true, sys')) :
    UserEditExact pg sys sys' root vaddr paddr length flags ↔
      UserSafe pg sys.mem root vaddr paddr length flags := by
  obtain ⟨own, hsep⟩ := hsys
  obtain ⟨hv, hp, hl, hlower, -⟩ := memprotectU_inv h
  have hroot' : root ∈ sys.global :: sys.ctxs := List.mem_cons_of_mem _ hroot
  have hedits := (memprotectU_edits h hsep.lt).1
  have hfound := (memprotectU_found h hsep hroot').2
  have hread := userCall_read vaddr paddr length flags
  have hphys := userCall_phys h hpaddr
  have hany := any_userCall vaddr paddr length flags
  obtain ⟨c, hc⟩ : ∃ c, c = userCall vaddr paddr length flags := ⟨_, rfl⟩
  rw [← hc] at hedits hfound hread hphys hany
  have hlow : c.vpn + c.pages ≤ pg.halfPages := by rw [hc]; exact hlower
  have hhalf : c.InHalf pg := .inl hlow
  have hiff := exact_iff_safe hal hhalf hread hphys (hsep.ne_broken hroot') hfound
  have hin {p : ℕ} (hin : c.Has p) : Canonical pg p := .inl (by have := hin.2; omega)
  have hlength : 0 < length ↔ 0 < c.pages := by
    simp only [hc, userCall]
    omega
  -- The request of the source and the one of the caller have the same flags.
  have hpages {p : ℕ} (hhas : c.Has p) (hwr : 0 < length → flags.w = true → flags.r = true) :
      (if flags.any then some (c.flags.reported, c.ppn + (p - c.vpn)) else none) =
        if flags.any then some (⟨flags.toRwx, false, false, false, false⟩,
          paddr / 4096 + (p - vaddr / 4096)) else none := by
    have hpos : 0 < length := hlength.mpr (by have := hhas.1; have := hhas.2; omega)
    have hrep := (reported_userCall vaddr paddr length flags).mpr (hwr hpos)
    rw [← hc] at hrep
    rw [hrep, hc]
    rfl
  constructor
  · intro hexact
    have hinside := (inside_iff_pages hv hp hl hlower _).mp hexact.inside
    rw [← hc] at hinside
    have hwr : 0 < length → flags.w = true → flags.r = true := by
      intro hpos
      by_cases hw : flags.w = true
      · have hany' : flags.any = true := by simp [Rwx.any, hw]
        have hfirst : c.Has c.vpn := ⟨le_rfl, by omega⟩
        have hpage := hinside _ hfirst
        rw [pageOf_mapped hhalf hread hphys hfound (hany.trans hany') hfirst, if_pos hany'] at hpage
        simp only [some.injEq, mk.injEq] at hpage
        exact (reported_userCall vaddr paddr length flags).mp (hc ▸ hpage.1)
      · exact fun h => absurd h hw
    refine ⟨?_, hwr⟩
    rw [← hc]
    refine hiff.mp ⟨fun p _ hhas => ?_, ?_⟩
    · rw [hinside p hhas, hany, hpages hhas hwr]
    · have houtside := (@outside_iff_pages vaddr paddr length flags pg sys.mem sys'.mem root hv hl).mp
        hexact.outside
      rwa [← hc] at houtside
  · rintro ⟨hsafe, hwr⟩
    rw [← hc] at hsafe
    have hexact := hiff.mpr hsafe
    refine ⟨?_, ?_, ?_⟩
    · refine (inside_iff_pages hv hp hl hlower _).mpr fun p hhas => ?_
      rw [← hc] at hhas
      rw [hexact.inside p (hin hhas) hhas, hany, hpages hhas hwr]
    · refine (@outside_iff_pages vaddr paddr length flags pg sys.mem sys'.mem root hv hl).mpr ?_
      rw [← hc]
      exact hexact.outside
    · intro r hr hne a ha
      exact translate_congr (fun p hp' =>
        hsep.others hroot' hread hlow hal hsafe hedits hr hne hp') ha

end Call

/-! ### Examples of calls -/

/-- Empty tables: the global root table in page 1 and the one of a user context in page 2. -/
def emptyContexts : Contexts := ⟨⟨fun _ => 0, [3, 4, 5, 6], 0⟩, 1, [2]⟩

def userRw : Flags := ⟨⟨true, true, false⟩, false, false, false, false⟩

theorem wellFormed_emptyContexts (pg : Paging) : WellFormed pg emptyContexts := by
  refine ⟨fun a => if a = 1 ∨ a = 2 then some (rootLabel pg a) else none, ⟨?_, ?_, by decide⟩, ?_, ?_⟩
  · intro a n i c _ hs
    contradiction
  · intro a ha
    rw [if_neg]
    have : a = 3 ∨ a = 4 ∨ a = 5 ∨ a = 6 := by simpa [emptyContexts] using ha
    omega
  · intro root hroot
    have : root = 1 ∨ root = 2 := by simpa [emptyContexts] using hroot
    exact if_pos this
  · decide

theorem foundAt_emptyContexts (pg : Paging) (root p : ℕ) :
    foundAt pg emptyContexts.mem root p = .hole := find_hole rfl

theorem aligned_emptyContexts (pg : Paging) (root : ℕ) : Aligned pg emptyContexts.mem root := by
  intro p _ level pte hleaf
  rw [foundAt_emptyContexts] at hleaf
  contradiction

theorem safe_emptyContexts (pg : Paging) (root : ℕ) {c : MapCall} (h : c.ppn + c.pages ≤ 2 ^ 44) :
    Safe pg emptyContexts.mem root c := by
  refine ⟨fun _ _ => h, fun p _ level pte hleaf => ?_, fun p _ level pte hleaf => ?_⟩
  all_goals
    rw [foundAt_emptyContexts] at hleaf
    contradiction

/-- Mapping page 1 in an empty context. -/
theorem userEditExact_iff_firstMap :
    ∃ sys', memprotectU Paging.sv39 2 4096 28672 4096 userRw emptyContexts = some (true, sys') ∧
      UserEditExact Paging.sv39 emptyContexts sys' 2 4096 28672 4096 userRw := by
  have hcall : (memprotectU Paging.sv39 2 4096 28672 4096 userRw emptyContexts).map fst =
      some true := by decide
  obtain ⟨⟨result, sys'⟩, hsys', rfl⟩ := map_eq_some_iff.mp hcall
  refine ⟨sys', hsys', (userEditExact_iff (wellFormed_emptyContexts _) (by decide)
    (aligned_emptyContexts _ _) (by norm_num) hsys').mpr ⟨?_, fun _ _ => rfl⟩⟩
  exact safe_emptyContexts _ _ (by decide)

/-- Page 1, once mapped, cannot be unmapped: the walk uses index 1 in the root table, where
    there is nothing. -/
theorem not_userEditExact_unmap :
    ∃ sys sys', WellFormed Paging.sv39 sys ∧ 2 ∈ sys.ctxs ∧ Aligned Paging.sv39 sys.mem 2 ∧
      memprotectU Paging.sv39 2 4096 0 4096 Flags.zero sys = some (true, sys') ∧
      translate Paging.sv39 sys'.mem 2 4096 = some (some (userRw, 28672)) ∧
      ¬ UserEditExact Paging.sv39 sys sys' 2 4096 0 4096 Flags.zero := by
  have hcalls : ((memprotectU Paging.sv39 2 4096 28672 4096 userRw emptyContexts).bind fun r =>
      (memprotectU Paging.sv39 2 4096 0 4096 Flags.zero r.2).map fun r' =>
        (r.2.ctxs, r.1 && r'.1, translate Paging.sv39 r'.2.mem 2 4096)) =
      some ([2], true, some (some (userRw, 28672))) := by decide
  obtain ⟨⟨result, sys⟩, hmap, hrest⟩ := bind_eq_some_iff.mp hcalls
  obtain ⟨⟨result', sys'⟩, hunmap, heq⟩ := map_eq_some_iff.mp hrest
  simp only [mk.injEq, Bool.and_eq_true] at heq
  obtain ⟨hctxs, ⟨rfl, rfl⟩, htrans⟩ := heq
  obtain ⟨hwf, hal⟩ := memprotectU_keeps hmap (wellFormed_emptyContexts _) (by decide)
    (aligned_emptyContexts _ _) (safe_emptyContexts _ _ (by decide))
  refine ⟨sys, sys', hwf, by rw [hctxs]; decide, hal, hunmap, htrans, fun h => ?_⟩
  have hgone := h.inside 4096 le_rfl (by norm_num)
  rw [htrans] at hgone
  revert hgone
  decide

end BadgerOS.Memprotect

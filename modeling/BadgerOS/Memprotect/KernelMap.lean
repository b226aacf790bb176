import BadgerOS.Lib.Run
import BadgerOS.Memprotect.UserEdit

/-!
# The kernel half of all contexts

The global context and all user contexts should have the same mappings in the upper half of
the address space, namely those that `memprotect_k` has made
(`port/generic/src/memprotect.c` lines 311–319, 568–577 and 585–649). This module follows
sequences of `memprotect_create`, `memprotect_u` and `memprotect_k`.

The contexts share the tables below the upper half of their root tables. A change below the
root is therefore seen by all of them. A change in the root table has to be copied.

**Deviation.** `memprotect_impl` calls `broadcast_to` with the arguments exchanged: it copies
the entries of each context to the global root table, and invalid entries not at all. So
a kernel mapping that needs a new entry in the root table is not seen by the contexts that
exist already (`kernelAgree_broken`). Besides, an unmapping of user memory with the wrong
index can hit the kernel half, and the changes of `memprotect_k` are only exact under the
conditions of `exact_iff_safe`.

`kernelAgree_run` shows that the contexts agree as long as `memprotect_k` makes safe changes,
which do not change the root table once there are user contexts, and `memprotect_u` unmaps
no kernel page.
-/

namespace BadgerOS.Memprotect

open RadixTree Function List Option Paging

/-! ## Runs -/

/-- The memory protection driver, and as a ghost what the calls of `memprotect_k` have
    mapped: the flags and the physical page for each page of the upper half. -/
structure KernelState where
  sys : Contexts
  spec : ℕ → Option (Flags × ℕ)

/-- The calls, with arguments of type `size_t`. -/
inductive KernelOp
  | create
  | user (root vaddr paddr length : ℕ) (flags : Flags)
  | kernel (vaddr paddr length : ℕ) (flags : Flags)

/-- The request that `memprotect_k` makes. -/
def kernelRequest (vaddr paddr length : ℕ) (flags : Flags) : MapCall :=
  ⟨vaddr / 4096, paddr / 4096, length / 4096,
    Flags.granted { flags with global := true, kernel := true }⟩

/-- What a request makes of the mappings. -/
def MapCall.update (c : MapCall) (spec : ℕ → Option (Flags × ℕ)) (p : ℕ) : Option (Flags × ℕ) :=
  if c.vpn ≤ p ∧ p < c.vpn + c.pages then
    if c.flags.any then some (c.flags.reported, c.ppn + (p - c.vpn)) else none
  else spec p

def kernelStep (pg : Paging) (s : KernelState) : KernelOp → Option KernelState
  | .create => (memprotectCreate s.sys).map fun r => { s with sys := r.2 }
  | .user root vaddr paddr length flags =>
    if root ∈ s.sys.ctxs ∧ paddr < 2 ^ 64 then
      (memprotectU pg root vaddr paddr length flags s.sys).map fun r => { s with sys := r.2 }
    else none
  | .kernel vaddr paddr length flags =>
    if paddr < 2 ^ 64 then
      (memprotectK pg vaddr paddr length flags s.sys).map fun r =>
        ⟨r.2, if r.1 then (kernelRequest vaddr paddr length flags).update s.spec else s.spec⟩
    else none

/-- Every context translates the addresses of the upper half as `memprotect_k` has mapped them. -/
def KernelAgree (pg : Paging) (s : KernelState) : Prop :=
  ∀ a < 2 ^ 64, pg.highVaddr ≤ a →
    (∀ root ∈ s.sys.ctxs,
      translate pg s.sys.mem root a = translate pg s.sys.mem s.sys.global a) ∧
    translate pg s.sys.mem s.sys.global a =
      some ((s.spec (a / 4096)).map fun page => (page.1, page.2 * 4096 + a % 4096))

/-- The pages of the upper half. -/
def Upper (pg : Paging) (p : ℕ) : Prop := pg.highVpn ≤ p ∧ p < pg.highVpn + pg.halfPages

/-- The request leaves the root table alone: its walks find links there, or for an unmapping
    nothing. -/
def NoRootEdit (pg : Paging) (mem : Pmem) (root : ℕ) (c : MapCall) : Prop :=
  ∀ e ∈ c.changes pg, e.target < pg.levels - 1 ∧
    ((tables mem root (e.key (pg.levels - 1))).isNode = true ∨
      tables mem root (e.key (pg.levels - 1)) = .hole ∧ e.create = false)

/-- The condition on the calls. -/
def Careful (pg : Paging) (s : KernelState) : KernelOp → Prop
  | .create => True
  | .user root vaddr paddr length flags =>
    flags.any = false → ∀ p, Upper pg p → ∀ level pte,
      foundAt pg s.sys.mem root p = .leaf level pte →
        ¬ (userCall vaddr paddr length flags).Writes pg p
  | .kernel vaddr paddr length flags =>
    Safe pg s.sys.mem s.sys.global (kernelRequest vaddr paddr length flags) ∧
      (s.sys.ctxs = [] ∨
        NoRootEdit pg s.sys.mem s.sys.global (kernelRequest vaddr paddr length flags))

/-- A global context without user contexts, whose mappings in the upper half are the ones
    that are recorded. -/
structure KernelInit (pg : Paging) (s : KernelState) : Prop where
  wellFormed : WellFormed pg s.sys
  ctxs : s.sys.ctxs = []
  lower : ∀ i : Fin 512, i.val < 256 → tables s.sys.mem s.sys.global i = .hole
  aligned : Aligned pg s.sys.mem s.sys.global
  spec : ∀ p, Upper pg p → pageOf p (foundAt pg s.sys.mem s.sys.global p) = some (s.spec p)

/-- The invariant of the runs. -/
structure KernelInv (pg : Paging) (s : KernelState)
    (own : ℕ → Option (Label (Option ℕ) (Fin 512))) : Prop where
  separate : Separate pg s.sys own
  distinct : s.sys.global ∉ s.sys.ctxs
  shared : ∀ root ∈ s.sys.ctxs, ∀ i : Fin 512, 256 ≤ i.val →
    tables s.sys.mem root i = tables s.sys.mem s.sys.global i
  lower : ∀ i : Fin 512, i.val < 256 → tables s.sys.mem s.sys.global i = .hole
  aligned : Aligned pg s.sys.mem s.sys.global
  spec : ∀ p, Upper pg p → pageOf p (foundAt pg s.sys.mem s.sys.global p) = some (s.spec p)

section Upper

variable {pg : Paging} {p : ℕ}

theorem Upper.canonical (h : Upper pg p) : Canonical pg p := .inr h

theorem Upper.key (h : Upper pg p) : 256 ≤ (vpnKey p (pg.levels - 1)).val := by
  have hiff := h.canonical.div_pow_levels.1
  have hnot : ¬ p < pg.halfPages := by
    unfold Upper at h
    rcases pg.sizes with hs | hs | hs <;> omega
  exact not_lt.mp fun hlt => hnot (hiff.mpr hlt)

theorem lower_key (h : p < pg.halfPages) : (vpnKey p (pg.levels - 1)).val < 256 :=
  (Canonical.div_pow_levels (.inl h)).1.mp h

theorem exists_diagonal (pg : Paging) {i : Fin 512} (hi : 256 ≤ i.val) :
    ∃ q, Upper pg q ∧ ∀ j < pg.levels, vpnKey q j = i := by
  obtain ⟨r, hr⟩ : ∃ r, r = Radix.repdigit 512 i.val pg.levels := ⟨_, rfl⟩
  have hlt : r < 512 ^ pg.levels := hr ▸ Radix.repdigit_lt i.isLt _
  have htop : r / 512 ^ (pg.levels - 1) % 512 = i.val := by
    have := pg.three_le
    rw [hr]
    exact Radix.digit_repdigit i.isLt (by omega)
  refine ⟨512 ^ pg.levels * (pg.highVpn / 512 ^ pg.levels) + r, ?_, fun j hj => ?_⟩
  · unfold Upper
    have hsizes := pg.sizes
    rcases pg.levels_cases with hl | hl | hl <;> rw [hl] at hsizes hlt htop ⊢ <;>
      norm_num at hsizes hlt htop ⊢ <;> omega
  · refine Fin.ext ?_
    rw [vpnKey_val, mmuVpnPart_eq, Radix.digit_mul_pow_add hj, hr, Radix.digit_repdigit i.isLt hj]

end Upper

/-! ## The walks of a request -/

/-- Where the edits of a request come from: a tile of its range. An unmapping uses the
    index of the tile at all levels. -/
theorem MapCall.changes_cases {pg : Paging} {c : MapCall} (h : c.InHalf pg) {e : Edit ℕ ℕ (Fin 512)}
    (he : e ∈ c.changes pg) : ∃ v, c.Has v ∧ e.target ≤ pg.levels - 1 ∧
      (c.flags.any = true ∧ e.key = vpnKey v ∨
        c.flags.any = false ∧ (e.key = fun _ => vpnKey v e.target) ∧ e.create = false) := by
  have htile {ts : List Tile} (hts : Tiling (pg.levels - 1) c.vpn c.pages ts) {t : Tile}
      (ht : t ∈ ts) : c.Has t.vpn ∧ t.level ≤ pg.levels - 1 :=
    ⟨(hts.covers_iff _).mp ⟨t, ht, le_rfl, by simp⟩, hts.level_le t ht⟩
  cases hany : c.flags.any with
  | true =>
    rw [MapCall.changes_map hany] at he
    obtain ⟨t, ht, rfl⟩ := mem_map.mp he
    obtain ⟨hhas, hlevel⟩ := htile (tiles_spec _ _ (Nat.lt_succ_self _) h.range_lt) ht
    exact ⟨t.vpn, hhas, hlevel, .inl ⟨rfl, rfl⟩⟩
  | false =>
    rw [MapCall.changes_unmap hany] at he
    obtain ⟨t, ht, rfl⟩ := mem_map.mp he
    obtain ⟨hhas, hlevel⟩ := htile (tiles_spec _ _ (Nat.lt_succ_self _) h.range_lt) ht
    exact ⟨t.vpn, hhas, hlevel, .inr ⟨rfl, rfl, rfl⟩⟩

section User

variable {pg : Paging} {c : MapCall} {mem : Pmem} {root : ℕ}
  (hlower : c.vpn + c.pages ≤ pg.halfPages)
  (hcareful : c.flags.any = false → ∀ p, Upper pg p → ∀ level pte,
    foundAt pg mem root p = .leaf level pte → ¬ c.Writes pg p) {e : Edit ℕ ℕ (Fin 512)}

include hlower in
theorem map_key_lt (hany : c.flags.any = true) (he : e ∈ c.changes pg) : (e.key (pg.levels - 1)).val < 256 := by
  obtain ⟨v, hv, -, ⟨-, hmap⟩ | ⟨hno, -, -⟩⟩ := MapCall.changes_cases (.inl hlower) he
  · rw [hmap]
    exact lower_key (by have := hv.2; omega)
  · rw [hany] at hno
    contradiction

include hlower in
theorem not_agree_of_map (hany : c.flags.any = true) (he : e ∈ c.changes pg) {p : ℕ}
    (hp : Upper pg p) : ¬ Agree (pg.levels - 1) e.target (vpnKey p) e.key := by
  intro hagree
  obtain ⟨-, -, htarget, -⟩ := MapCall.changes_cases (.inl hlower) he
  have htop := hagree (pg.levels - 1) htarget le_rfl
  have hlt := map_key_lt hlower hany he
  have hge := hp.key
  rw [htop] at hge
  omega

include hlower hcareful in
/-- A walk of the request that has an index of the upper half belongs to an unmapping and
    meets no leaf. -/
theorem upper_walk (he : e ∈ c.changes pg) (hkey : 256 ≤ (e.key (pg.levels - 1)).val) :
    e.target < pg.levels - 1 ∧ e.create = false ∧
      ∃ q, Upper pg q ∧ (∀ j < pg.levels, vpnKey q j = e.key j) ∧
        ∀ level pte, foundAt pg mem root q ≠ .leaf level pte := by
  obtain ⟨v, hv, htarget, ⟨hany, -⟩ | ⟨hany, hunmap, hcreate⟩⟩ :=
    MapCall.changes_cases (.inl hlower) he
  · have := map_key_lt hlower hany he
    omega
  · obtain ⟨q, hq, hdigits⟩ := exists_diagonal pg hkey
    have hsame (j : ℕ) : e.key j = e.key (pg.levels - 1) := by rw [hunmap]
    have hagree : ∀ j < pg.levels, vpnKey q j = e.key j := fun j hj => by
      rw [hdigits j hj, hsame j]
    refine ⟨?_, hcreate, q, hq, hagree, fun level pte hleaf => ?_⟩
    · by_contra hge
      have heq : e.target = pg.levels - 1 := by omega
      have hlt : (vpnKey v (pg.levels - 1)).val < 256 := lower_key (by have := hv.2; omega)
      rw [hunmap, heq] at hkey
      exact absurd hkey (not_le.mpr hlt)
    · have := pg.three_le
      exact hcareful hany q hq level pte hleaf ⟨e, he, fun j _ hj => hagree j (by omega)⟩

include hlower hcareful in
/-- The request leaves what the upper half of the context holds as it is, at every moment. -/
theorem foldl_upper {p : ℕ} (hp : Upper pg p) (hbroken : foundAt pg mem root p ≠ .broken)
    {es : List (Edit ℕ ℕ (Fin 512))} (hes : es ⊆ c.changes pg) :
    es.foldl (Edit.effect (leafPart pg) (pg.levels - 1) (vpnKey p)) (foundAt pg mem root p) =
      foundAt pg mem root p := by
  have hpkey := hp.key
  -- Where a walk agrees with `p` down to its leaf, it meets that leaf.
  have hmiss {level pte : ℕ} (hf : foundAt pg mem root p = .leaf level pte)
      {e : Edit ℕ ℕ (Fin 512)} (he : e ∈ es) : ¬ Agree (pg.levels - 1) level (vpnKey p) e.key := by
    intro hagree
    have hlevel := (foundAt_leaf hf).1
    have htop := hagree (pg.levels - 1) (by omega) le_rfl
    obtain ⟨-, -, q, -, hq, hnone⟩ := upper_walk hlower hcareful (hes he) (by rw [← htop]; exact hpkey)
    refine hnone level pte (find_agree hf fun i h1 h2 => ?_)
    rw [hq i (by omega), hagree i h1 h2]
  cases hf : foundAt pg mem root p with
  | leaf level pte =>
    have hnot : ∀ e ∈ es, ¬ Agree (pg.levels - 1) e.target (vpnKey p) e.key := by
      intro e he hagree
      cases hany : c.flags.any with
      | true => exact not_agree_of_map hlower hany (hes he) hp hagree
      | false => exact hcareful hany p hp level pte hf ⟨e, hes he, hagree⟩
    rw [foldl_effect_outside hnot]
    exact cut_of_not (fun ⟨e, he, hagree⟩ => hmiss hf he hagree) pte
  | hole =>
    cases hany : c.flags.any with
    | false => exact foldl_effect_hole (fun e he => MapCall.slot_unmap hany (hes he)) (.inl rfl)
    | true =>
      rw [foldl_effect_outside fun e he => not_agree_of_map hlower hany (hes he) hp]
      rfl
  | broken => exact absurd hf hbroken

include hlower hcareful in
theorem keeps_upper (he : e ∈ c.changes pg) {i : Fin 512} (hi : 256 ≤ i.val) :
    e.Keeps (pg.levels - 1) i (tables mem root i) := by
  intro hkey
  obtain ⟨htarget, hcreate, q, -, hq, hnone⟩ := upper_walk hlower hcareful he (by rwa [hkey])
  refine ⟨htarget, ?_⟩
  cases hs : tables mem root i with
  | node c => exact .inl rfl
  | hole => exact .inr ⟨rfl, hcreate⟩
  | leaf x =>
    have := pg.three_le
    refine absurd (find_leaf ?_) (hnone (pg.levels - 1) x)
    rw [hq _ (by omega), hkey, hs]

end User

/-! ## Steps -/

section Steps

variable {pg : Paging} {s : KernelState} {own : ℕ → Option (Label (Option ℕ) (Fin 512))}

variable {mem : Pmem} {root : ℕ} {flags : Flags} {result : Bool} {sys' sys : Contexts}
  {vaddr paddr length : ℕ}

theorem foundAt_congr {mem' : Pmem} (h : tables mem' = tables mem) (root p : ℕ) :
    foundAt pg mem' root p = foundAt pg mem root p := by
  rw [foundAt, foundAt, h]

theorem foundAt_lower (h : ∀ i : Fin 512, i.val < 256 → tables mem root i = .hole) {p : ℕ}
    (hp : p < pg.halfPages) : foundAt pg mem root p = .hole :=
  find_hole (h _ (lower_key hp))

theorem aligned_of_upper (hlower : ∀ i : Fin 512, i.val < 256 → tables mem root i = .hole)
    (h : ∀ p, Upper pg p → ∀ level pte, foundAt pg mem root p = .leaf level pte → 512 ^ level ∣ mmuPteGetPpn pte) :
    Aligned pg mem root := by
  intro p hp level pte hleaf
  rcases hp with hp | hp
  · rw [foundAt_lower hlower hp] at hleaf
    contradiction
  · exact h p hp level pte hleaf

theorem KernelInv.user (h : KernelInv pg s own) (hroot : root ∈ s.sys.ctxs)
    (hcareful : Careful pg s (.user root vaddr paddr length flags))
    (hcall : memprotectU pg root vaddr paddr length flags s.sys = some (result, sys')) :
    ∃ own', KernelInv pg { s with sys := sys' } own' := by
  cases result with
  | false =>
    obtain rfl := (memprotectU_false hcall).1
    exact ⟨own, h⟩
  | true =>
    have hsep := h.separate
    have hroots : root ∈ s.sys.global :: s.sys.ctxs := mem_cons_of_mem _ hroot
    have hglobalRoot : s.sys.global ≠ root := fun heq => h.distinct (heq ▸ hroot)
    obtain ⟨hedits, hglobal, hctxs⟩ := memprotectU_edits hcall hsep.lt
    obtain ⟨⟨own', hsep'⟩, -⟩ := memprotectU_found hcall hsep hroots
    have hlower := (memprotectU_inv hcall).2.2.2.1
    obtain ⟨c, hc⟩ : ∃ c, c = userCall vaddr paddr length flags := ⟨_, rfl⟩
    have hfit : Fit (pg.levels - 1) (c.changes pg) :=
      MapCall.InHalf.fit (.inl (hc ▸ hlower)) (hc ▸ userCall_read vaddr paddr length flags)
    have hcare : c.flags.any = false → ∀ p, Upper pg p → ∀ level pte,
        foundAt pg s.sys.mem root p = .leaf level pte → ¬ c.Writes pg p := by
      rw [hc, any_userCall]
      exact hcareful
    rw [← hc] at hedits
    have hlow : c.vpn + c.pages ≤ pg.halfPages := hc ▸ hlower
    have hslot (r : ℕ) (hr : r ∈ s.sys.global :: s.sys.ctxs) (i : Fin 512)
        (hkeep : r = root → 256 ≤ i.val) : tables sys'.mem r i = tables s.sys.mem r i := by
      rcases eq_or_ne r root with rfl | hne
      · exact edits_root_slot hsep.owned hfit (hsep.roots r hroots) rfl hedits
          fun e he => keeps_upper hlow hcare he (hkeep rfl)
      · exact edits_other_slot hsep.owned hfit (hsep.roots root hroots) rfl hedits (hsep.roots r hr)
          rfl hne i
    have hfound (p : ℕ) (hp : Upper pg p) :
        foundAt pg sys'.mem s.sys.global p = foundAt pg s.sys.mem s.sys.global p :=
      find_edits_other (τ := id) hsep.owned hfit (hsep.roots root hroots) rfl
        (hsep.roots _ mem_cons_self) rfl rfl hedits fun es hes =>
          foldl_upper hlow hcare hp (hsep.ne_broken hroots p) hes.subset
    have hempty (i : Fin 512) (hi : i.val < 256) : tables sys'.mem s.sys.global i = .hole := by
      rw [hslot _ mem_cons_self i fun heq => absurd heq hglobalRoot, h.lower i hi]
    refine ⟨own', hsep', ?_, fun r hr i hi => ?_, ?_, ?_, fun p hp => ?_⟩
    · rw [hglobal, hctxs]
      exact h.distinct
    · rw [hctxs] at hr
      rw [hglobal, hslot r (mem_cons_of_mem _ hr) i fun _ => hi,
        hslot _ mem_cons_self i fun _ => hi, h.shared r hr i hi]
    · rw [hglobal]
      exact hempty
    · rw [hglobal]
      refine aligned_of_upper hempty fun p hp level pte hleaf => ?_
      rw [hfound p hp] at hleaf
      exact h.aligned p hp.canonical level pte hleaf
    · rw [hglobal, hfound p hp]
      exact h.spec p hp

/-! ### `memprotect_k` -/

/-- Copying an entry over one that says the same changes nothing. -/
theorem tables_broadcastTo {dest src : ℕ} (h : ∀ i : Fin 512, 256 ≤ i.val → tables mem src i = tables mem dest i) :
    tables (broadcastTo mem dest src) = tables mem := by
  refine foldlRecOn (motive := fun mem1 => tables mem1 = tables mem) _ _ rfl fun mem1 heq i hi => ?_
  obtain ⟨hge, hlt⟩ : 256 ≤ i ∧ i < 512 := by
    rw [mem_range'_1] at hi
    omega
  simp only
  split_ifs
  · have hwrite := tables_write mem1 dest ⟨i, hlt⟩ (mmuReadPte mem1 (ptePaddr src i))
    have hentry : decode (mmuReadPte mem1 (ptePaddr src i)) = tables mem dest ⟨i, hlt⟩ := by
      rw [mmuReadPte_ptePaddr, ← h ⟨i, hlt⟩ hge, ← heq]
      rfl
    rw [hentry, heq] at hwrite
    exact hwrite.trans (write_same _ _ _)
  · exact heq

theorem tables_broadcastGlobal
    (h : ∀ ctx ∈ sys.ctxs, ∀ i : Fin 512, 256 ≤ i.val → tables mem ctx i = tables mem sys.global i) :
    tables (broadcastGlobal sys mem) = tables mem := by
  refine foldlRecOn (motive := fun mem1 => tables mem1 = tables mem) _ _ rfl
    fun mem1 heq ctx hctx => ?_
  rw [tables_broadcastTo, heq]
  intro i hi
  rw [heq]
  exact h ctx hctx i hi

theorem memprotectK_inv (h : memprotectK pg vaddr paddr length flags sys = some (result, sys')) :
    result = false ∧ sys' = sys ∨ result = true ∧ pg.highVpn ≤ vaddr / 4096 ∧
        vaddr / 4096 + length / 4096 ≤ pg.highVpn + pg.halfPages ∧
        memprotectImpl pg sys.global (vaddr / 4096) (paddr / 4096) (length / 4096)
          { flags with global := true, kernel := true } sys = some sys' := by
  unfold memprotectK at h
  split_ifs at h with halign hrange
  · simp only [some.injEq, Prod.mk.injEq] at h
    exact .inl ⟨h.1.symm, h.2.symm⟩
  · simp only [some.injEq, Prod.mk.injEq] at h
    exact .inl ⟨h.1.symm, h.2.symm⟩
  · obtain ⟨r, hr, heq⟩ := map_eq_some_iff.mp h
    cases heq
    exact .inr ⟨rfl, by omega, by omega, hr⟩

theorem keeps_lower {c : MapCall} (hupper : pg.highVpn ≤ c.vpn ∧ c.vpn + c.pages ≤ pg.highVpn + pg.halfPages)
    (hempty : ∀ i : Fin 512, i.val < 256 → tables mem root i = .hole) {e : Edit ℕ ℕ (Fin 512)}
    (he : e ∈ c.changes pg) {i : Fin 512} (hi : i.val < 256) :
    e.Keeps (pg.levels - 1) i (tables mem root i) := by
  intro hkey
  obtain ⟨v, hv, htarget, hcases⟩ := MapCall.changes_cases (.inr hupper) he
  have hvkey : 256 ≤ (vpnKey v (pg.levels - 1)).val :=
    Upper.key ⟨hupper.1.trans hv.1, by have := hv.2; omega⟩
  rcases hcases with ⟨-, hmap⟩ | ⟨-, hunmap, hcreate⟩
  · rw [← hkey, hmap] at hi
    omega
  · refine ⟨lt_of_le_of_ne htarget fun heq => ?_, .inr ⟨hempty i hi, hcreate⟩⟩
    rw [← hkey, hunmap, heq] at hi
    exact absurd hvkey (not_le.mpr hi)

/-- A safe `memprotect_k` that leaves the root table alone, if there are user contexts,
    keeps the invariant. -/
theorem KernelInv.kernel (h : KernelInv pg s own) (hpaddr : paddr < 2 ^ 64)
    (hcareful : Careful pg s (.kernel vaddr paddr length flags))
    (hcall : memprotectK pg vaddr paddr length flags s.sys = some (result, sys')) :
    ∃ own', KernelInv pg ⟨sys', if result then
      (kernelRequest vaddr paddr length flags).update s.spec else s.spec⟩ own' := by
  rcases memprotectK_inv hcall with ⟨rfl, rfl⟩ | ⟨rfl, hge, hle, himpl⟩
  · exact ⟨own, h⟩
  obtain ⟨hsafe, hroot⟩ := hcareful
  have hsep := h.separate
  have hmem : s.sys.global ∈ s.sys.global :: s.sys.ctxs := mem_cons_self
  obtain ⟨topMod, st, hst, rfl⟩ := memprotectImpl_inv himpl
  obtain ⟨c, hc⟩ : ∃ c, c = kernelRequest vaddr paddr length flags := ⟨_, rfl⟩
  rw [← hc] at hsafe hroot ⊢
  have hupper : pg.highVpn ≤ c.vpn ∧ c.vpn + c.pages ≤ pg.highVpn + pg.halfPages := by
    rw [hc]
    exact ⟨hge, hle⟩
  have hhalf : c.InHalf pg := .inr hupper
  have hread : c.flags.w = true → c.flags.r = true := by
    rw [hc]
    exact Flags.granted_read _
  have hphys : c.ppn + c.pages < 2 ^ 64 := by
    have : c.ppn = paddr / 4096 := by rw [hc]; rfl
    rcases pg.sizes with hs | hs | hs <;> omega
  have hfit := hhalf.fit hread
  have hedits := @rangeEdit_eq pg s.sys.global c s.sys.toMmuState hhalf hsep.lt
  rw [hc, kernelRequest, hst, ← kernelRequest, ← hc] at hedits
  -- The tables before the broadcast.
  obtain ⟨mid, hmid⟩ : ∃ mid : Contexts, mid = { s.sys with toMmuState := st } := ⟨_, rfl⟩
  have hedits' : RadixTree.edits (leafPart pg) (pg.levels - 1) s.sys.global (c.changes pg)
      s.sys.toMmuState.store = some mid.toMmuState.store := by
    rw [← hedits, hmid]
    rfl
  obtain ⟨⟨own', hsep'⟩, hfound⟩ := hsep.edits hmem hfit hedits' (by rw [hmid]) (by rw [hmid])
  have hexact := (exact_iff_safe h.aligned hhalf hread hphys (hsep.ne_broken hmem) hfound).mpr hsafe
  have haligned := hsafe.aligned h.aligned hhalf hread (hsep.ne_broken hmem) hfound
  have hlow (i : Fin 512) (hi : i.val < 256) : tables mid.mem s.sys.global i = .hole := by
    rw [← h.lower i hi]
    exact edits_root_slot hsep.owned hfit (hsep.roots _ hmem) rfl hedits'
      fun e he => keeps_lower hupper h.lower he hi
  have hshared : ∀ ctx ∈ s.sys.ctxs, ∀ i : Fin 512, 256 ≤ i.val →
      tables mid.mem ctx i = tables mid.mem s.sys.global i := by
    intro ctx hctx i hi
    have hne : ctx ≠ s.sys.global := fun heq => h.distinct (heq ▸ hctx)
    have hkeep : NoRootEdit pg s.sys.mem s.sys.global c :=
      hroot.resolve_left fun hnil => by simp [hnil] at hctx
    have hctx' : tables mid.mem ctx i = tables s.sys.mem ctx i :=
      edits_other_slot hsep.owned hfit (hsep.roots _ hmem) rfl hedits'
        (hsep.roots ctx (mem_cons_of_mem _ hctx)) rfl hne i
    have hglobal' : tables mid.mem s.sys.global i = tables s.sys.mem s.sys.global i :=
      edits_root_slot hsep.owned hfit (hsep.roots _ hmem) rfl hedits'
        fun e he hkey => hkey ▸ hkeep e he
    rw [hctx', hglobal', h.shared ctx hctx i hi]
  -- The broadcast copies entries that are there already.
  have htables : tables (if topMod && (Flags.global { flags with global := true, kernel := true })
      then broadcastGlobal s.sys st.mem else st.mem) = tables mid.mem := by
    rw [hmid] at hshared ⊢
    split_ifs
    · exact tables_broadcastGlobal hshared
    · rfl
  subst hmid
  refine ⟨own', ⟨?_, hsep'.roots, hsep'.lt⟩, h.distinct, ?_, ?_, ?_, ?_⟩
  · simp only [htables]
    exact hsep'.owned
  · simp only [htables]
    exact hshared
  · simp only [htables]
    exact hlow
  · intro p hp level pte hleaf
    rw [foundAt_congr htables] at hleaf
    exact haligned p hp level pte hleaf
  · intro p hp
    simp only [foundAt_congr htables, if_true, MapCall.update]
    split_ifs with hin hany
    · rw [hexact.inside p hp.canonical hin, if_pos hany]
    · rw [hexact.inside p hp.canonical hin, if_neg hany]
    · rw [hexact.outside p hp.canonical hin]
      exact h.spec p hp

/-! ### `memprotect_create` -/

/-- The new context gets the first free page, with a copy of the global root table. -/
theorem memprotectCreate_inv (hglobal : sys.global ∉ sys.pages) (h : memprotectCreate sys = some (root, sys')) :
    sys.pages = root :: sys'.pages ∧ sys'.global = sys.global ∧ sys'.ctxs = sys.ctxs ++ [root] ∧
      tables sys'.mem = update (tables sys.mem) root (tables sys.mem sys.global) := by
  unfold memprotectCreate physPageAlloc at h
  cases hpages : sys.pages with
  | nil => simp [hpages] at h
  | cons page pages =>
    simp only [hpages, some.injEq, Prod.mk.injEq] at h
    obtain ⟨rfl, rfl⟩ := h
    refine ⟨rfl, rfl, rfl, ?_⟩
    have hne : sys.global ≠ page := fun heq => hglobal (by simp [hpages, heq])
    have hsame (i : Fin 512) : decode (setPage sys.mem page (fun _ => 0) (pteWord sys.global i)) =
        tables sys.mem sys.global i := by
      change tables (setPage sys.mem page fun _ => 0) sys.global i = _
      rw [tables_setPage, update_of_ne hne]
    simp only [tables_setPage, hsame, update_idem]

theorem KernelInv.create (h : KernelInv pg s own) (hcall : memprotectCreate s.sys = some (root, sys')) :
    ∃ own', KernelInv pg { s with sys := sys' } own' := by
  have hsep := h.separate
  have hlabel := hsep.roots _ mem_cons_self
  have hnone {r : ℕ} (hr : r ∈ s.sys.global :: s.sys.ctxs) : r ∉ s.sys.pages := fun hmem => by
    have hroot := hsep.roots r hr
    rw [hsep.owned.fresh hmem] at hroot
    contradiction
  obtain ⟨hpages, hglobal, hctxs, htables⟩ := memprotectCreate_inv (hnone mem_cons_self) hcall
  have howned := hsep.owned
  rw [hpages] at howned
  have hfree : own root = none := howned.fresh mem_cons_self
  have hne {r : ℕ} (hr : r ∈ s.sys.global :: s.sys.ctxs) : r ≠ root := fun heq =>
    hnone hr (by rw [hpages, heq]; exact mem_cons_self)
  have hmem : s.sys.global ∈ s.sys.global :: s.sys.ctxs := mem_cons_self
  have hfound (p : ℕ) :
      foundAt pg sys'.mem s.sys.global p = foundAt pg s.sys.mem s.sys.global p := by
    rw [foundAt, htables]
    refine howned.find_congr hlabel rfl fun {c n} hc => update_of_ne ?_ _ _
    rintro rfl
    rw [hfree] at hc
    contradiction
  -- Only entries of the upper half of the global root table are links.
  have hchild (i : Fin 512) (d : ℕ) (hlink : tables s.sys.mem s.sys.global i = .node d) :
      (rootLabel pg root).child (space pg) i = (rootLabel pg s.sys.global).child (space pg) i := by
    have hi : 256 ≤ i.val := by
      by_contra hlt
      rw [h.lower i (by omega)] at hlink
      contradiction
    have hlevel : pg.levels - 1 + 1 = pg.levels := by have := pg.three_le; omega
    simp [Label.child, rootLabel, space, hi, hlevel]
  refine ⟨update own root (some (rootLabel pg root)), ⟨?_, ?_, ?_⟩, ?_, ?_, ?_, ?_, ?_⟩
  · simp only [htables]
    exact howned.copy hlabel rfl hchild
  · intro r hr
    rw [hglobal, hctxs, ← cons_append, mem_append, mem_singleton] at hr
    rcases hr with hr | rfl
    · rw [update_of_ne (hne hr)]
      exact hsep.roots r hr
    · rw [update_self]
  · intro page hp
    exact hsep.lt page (by rw [hpages]; exact mem_cons_of_mem _ hp)
  · simp only [hglobal, hctxs, mem_append, mem_singleton, not_or]
    exact ⟨h.distinct, hne hmem⟩
  · intro r hr i hi
    simp only [hctxs, mem_append, mem_singleton] at hr
    simp only [hglobal, htables, update_of_ne (hne hmem)]
    rcases hr with hr | rfl
    · rw [update_of_ne (hne (mem_cons_of_mem _ hr)), h.shared r hr i hi]
    · rw [update_self]
  · intro i hi
    simp only [hglobal, htables, update_of_ne (hne hmem)]
    exact h.lower i hi
  · simp only [hglobal]
    intro p hp level pte hleaf
    rw [hfound p] at hleaf
    exact h.aligned p hp level pte hleaf
  · intro p hp
    simp only [hglobal, hfound p]
    exact h.spec p hp

theorem KernelInv.step (h : KernelInv pg s own) {o : KernelOp} {t : KernelState}
    (hcareful : Careful pg s o) (hstep : kernelStep pg s o = some t) :
    ∃ own', KernelInv pg t own' := by
  cases o with
  | create =>
    obtain ⟨⟨root, sys'⟩, hcall, rfl⟩ := map_eq_some_iff.mp hstep
    exact h.create hcall
  | user root vaddr paddr length flags =>
    simp only [kernelStep] at hstep
    split_ifs at hstep with hroot
    obtain ⟨⟨result, sys'⟩, hcall, rfl⟩ := map_eq_some_iff.mp hstep
    exact h.user hroot.1 hcareful hcall
  | kernel vaddr paddr length flags =>
    simp only [kernelStep] at hstep
    split_ifs at hstep with hpaddr
    obtain ⟨⟨result, sys'⟩, hcall, rfl⟩ := map_eq_some_iff.mp hstep
    exact h.kernel hpaddr hcareful hcall

/-! ## Agreement -/

theorem KernelInit.inv (h : KernelInit pg s) : ∃ own, KernelInv pg s own := by
  obtain ⟨own, hsep⟩ := h.wellFormed
  refine ⟨own, hsep, ?_, ?_, h.lower, h.aligned, h.spec⟩
  · simp [h.ctxs]
  · simp [h.ctxs]

theorem foundAt_shared {root' : ℕ} (h : ∀ i : Fin 512, 256 ≤ i.val → tables mem root i = tables mem root' i) {p : ℕ}
    (hp : Upper pg p) : foundAt pg mem root p = foundAt pg mem root' p := by
  have hlevel : pg.levels - 1 = pg.levels - 2 + 1 := by have := pg.three_le; omega
  have hslot := h _ hp.key
  rw [hlevel] at hslot
  rw [foundAt, foundAt, hlevel, find, find, hslot]

theorem KernelInv.agree (h : KernelInv pg s own) : KernelAgree pg s := by
  intro a ha hge
  have hp : Upper pg (a / 4096) := by
    unfold Upper
    rcases pg.sizes with hs | hs | hs <;> omega
  refine ⟨fun root hroot => ?_, ?_⟩
  · rw [translate_eq hp.canonical, translate_eq hp.canonical,
      foundAt_shared (h.shared root hroot) hp]
  · rw [translate_eq hp.canonical, h.spec _ hp]
    rfl

/-- In every run of careful calls all contexts have the mappings that `memprotect_k` made. -/
theorem kernelAgree_run {t : KernelState} {os : List KernelOp} (hinit : KernelInit pg s)
    (hrun : Run (kernelStep pg) (Careful pg) s os t) : KernelAgree pg t := by
  obtain ⟨own', hinv⟩ := hrun.invariant (P := fun s => ∃ own, KernelInv pg s own)
    (fun ⟨_, h⟩ hcareful hstep => h.step hcareful hstep) hinit.inv
  exact hinv.agree

end Steps

/-! ### Examples of runs -/

/-- An empty global context. -/
def emptyKernel : KernelState := ⟨{ emptyContexts with ctxs := [] }, fun _ => none⟩

/-- One kernel page at the start of the upper half. -/
def firstKernelMap : KernelOp := .kernel Paging.sv39.highVaddr 28672 4096 userRw

theorem kernelInit_emptyKernel (pg : Paging) : KernelInit pg emptyKernel := by
  obtain ⟨own, hsep⟩ := wellFormed_emptyContexts pg
  refine ⟨⟨own, hsep.owned, fun root hroot => hsep.roots root ?_, hsep.lt⟩, rfl, fun _ _ => rfl,
    aligned_emptyContexts pg _, fun p _ => ?_⟩
  · obtain rfl : root = 1 := by simpa [emptyKernel, emptyContexts] using hroot
    exact mem_cons_self
  · exact congrArg (pageOf p) (foundAt_emptyContexts pg _ p)

/-- A kernel page that is mapped before the first context is created is in that context. -/
theorem kernelAgree_run_mapCreate : ∃ t, Run (kernelStep Paging.sv39) (Careful Paging.sv39)
    emptyKernel [firstKernelMap, .create] t ∧ KernelAgree Paging.sv39 t := by
  have hsteps : ((kernelStep sv39 emptyKernel firstKernelMap).bind fun s =>
      kernelStep sv39 s .create).isSome = true := by decide
  obtain ⟨t, ht⟩ := isSome_iff_exists.mp hsteps
  obtain ⟨s, hmap, hcreate⟩ := bind_eq_some_iff.mp ht
  have hcareful : Careful sv39 emptyKernel firstKernelMap :=
    ⟨safe_emptyContexts _ _ (by decide), .inl rfl⟩
  have hrun : Run (kernelStep sv39) (Careful sv39) emptyKernel
      [firstKernelMap, .create] t := .cons hcareful hmap (.cons trivial hcreate (.nil _))
  exact ⟨t, hrun, kernelAgree_run (kernelInit_emptyKernel _) hrun⟩

/-- A kernel page that is mapped after a context has been created is missing in that context. -/
theorem kernelAgree_broken : ∃ t, KernelInit Paging.sv39 emptyKernel ∧
    Run (kernelStep Paging.sv39) (fun _ _ => True) emptyKernel [.create, firstKernelMap] t ∧
    ¬ KernelAgree Paging.sv39 t := by
  have hsteps : ((kernelStep sv39 emptyKernel .create).bind fun s =>
      (kernelStep sv39 s firstKernelMap).map fun t =>
        decide (3 ∈ t.sys.ctxs ∧ translate sv39 t.sys.mem 3 sv39.highVaddr ≠
          translate sv39 t.sys.mem t.sys.global sv39.highVaddr)) = some true := by
    decide +kernel
  obtain ⟨s, hcreate, hrest⟩ := bind_eq_some_iff.mp hsteps
  obtain ⟨t, hmap, hdiffer⟩ := map_eq_some_iff.mp hrest
  obtain ⟨hmem, hne⟩ := of_decide_eq_true hdiffer
  refine ⟨t, kernelInit_emptyKernel _, .cons trivial hcreate (.cons trivial hmap (.nil _)),
    fun hagree => hne ?_⟩
  exact (hagree _ (by decide) le_rfl).1 3 hmem

end BadgerOS.Memprotect

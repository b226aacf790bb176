import BadgerOS.Lib.RadixEdit
import BadgerOS.Memprotect.Mmu

/-!
# Editing page tables

Model of the functions of `kernel/port/generic/src/memprotect.c` that change page tables
(lines 144–319 and 568–649), for a CPU with superpages.

* `ptMap1` and `ptUnmap1` walk from a table to the entry of a given level. They differ in
  the index that they use on the way and in what they do at an invalid entry;
  `ptDescend` is the walk with both as parameters.
* `ptMap` and `ptUnmap` tile a range of pages with superpages.
* `memprotectU` and `memprotectK` are the entry points, `memprotectCreate` makes a context.

`none` stands for a panic: `phys_page_alloc` has no page left for a table. The allocator is
represented by the list of the pages that it will hand out. The fence instructions are left
out.

`ptDescend_eq` is the refinement to the library: memory holds a radix tree of page tables
(`tables`), and both walks are edits of it.
-/

namespace BadgerOS.Memprotect

open RadixTree Function Option List

/-! ## Model -/

/-- The state that the page-table code works on. -/
structure MmuState where
  mem : Pmem
  /-- The pages that `phys_page_alloc(1, false)` returns next. -/
  pages : List ℕ
  /-- Ghost: the number of calls of `pt_split` so far. -/
  splits : ℕ

/-- `mem_set` and `mem_copy` of whole pages: page `page` gets the words `f`. -/
def setPage (mem : Pmem) (page : ℕ) (f : ℕ → ℕ) : Pmem :=
  fun word => if word / 512 = page then f (word % 512) else mem word

/-- `phys_page_alloc(1, false)` with the assertion that it succeeds
    (`kernel/src/page_alloc.c` lines 17–28). -/
def physPageAlloc (st : MmuState) : Option (ℕ × MmuState) :=
  match st.pages with
  | [] => none
  | page :: pages => some (page, { st with mem := setPage st.mem page fun _ => 0, pages })

/-- `pt_split` (lines 144–181). -/
def ptSplit (pg : Paging) (st : MmuState) (paddr pte : ℕ) : Option (ℕ × MmuState) :=
  match physPageAlloc st with
  | none => none
  | some (next, st) =>
    let ppn := mmuPteGetPpn pte
    let flags := mmuPteGetFlags pte
    let mem := (List.range 512).foldl (fun mem i =>
      mmuWritePte mem (ptePaddr next i) (mmuPteNewLeaf pg (sizeAdd ppn i) flags)) st.mem
    some (next, ⟨mmuWritePte mem paddr (mmuPteNew next), st.pages, st.splits + 1⟩)

/-- The walk of `pt_map_1` and `pt_unmap_1` from table `pt`, which lies `d` levels above
    `pteLevel`, to the entry that receives `leaf`. `index` is the index at each level,
    `create` says whether an invalid entry gets a new table, `orig` is the level where the
    walk started and `top` the flag `top_edit`. -/
def ptDescend (pg : Paging) (index : ℕ → ℕ) (create : Bool) (leaf pteLevel orig : ℕ) :
    ℕ → ℕ → Bool → MmuState → Option (Bool × MmuState)
  | 0, pt, top, st =>
    some (top, { st with mem := mmuWritePte st.mem (ptePaddr pt (index pteLevel)) leaf })
  | d + 1, pt, top, st =>
    let ptLevel := pteLevel + d + 1
    let paddr := ptePaddr pt (index ptLevel)
    let pte := mmuReadPte st.mem paddr
    if mmuPteIsValid pte = false then
      if create then
        match physPageAlloc st with
        | none => none
        | some (next, st) =>
          ptDescend pg index create leaf pteLevel orig d next (top || orig = ptLevel)
            { st with mem := mmuWritePte st.mem paddr (mmuPteNew next) }
      else some (top, st)
    else if mmuPteIsLeaf pte then
      match ptSplit pg st paddr pte with
      | none => none
      | some (next, st) =>
        ptDescend pg index create leaf pteLevel orig d next (top || orig = ptLevel) st
    else ptDescend pg index create leaf pteLevel orig d (mmuPteGetPpn pte) top st

/-- `pt_map_1` (lines 183–227). -/
def ptMap1 (pg : Paging) (pt ptLevel vpn ppn pteLevel : ℕ) (flags : Flags) (st : MmuState) :
    Option (Bool × MmuState) :=
  ptDescend pg (mmuVpnPart vpn) true (mmuPteNewLeaf pg ppn flags) pteLevel ptLevel
    (ptLevel - pteLevel) pt (ptLevel = pteLevel) st

/-- `pt_unmap_1` (lines 229–267). On the way down it uses the index for `pte_level` in the
    tables of every level (line 247). -/
def ptUnmap1 (pg : Paging) (pt ptLevel vpn pteLevel : ℕ) (st : MmuState) :
    Option (Bool × MmuState) :=
  ptDescend pg (fun _ => mmuVpnPart vpn pteLevel) false mmuPteNull pteLevel ptLevel
    (ptLevel - pteLevel) pt (ptLevel = pteLevel) st

/-- `pt_calc_superpage` (lines 269–280). -/
def ptCalcSuperpage (vpn ppn maxLen : ℕ) : ℕ → ℕ
  | 0 => 0
  | i + 1 =>
    let superLen := 1 <<< (9 * (i + 1))
    if vpn &&& (superLen - 1) = 0 ∧ ppn &&& (superLen - 1) = 0 ∧ superLen ≤ maxLen then i + 1
    else ptCalcSuperpage vpn ppn maxLen i

/-- The loop of `pt_map` and `pt_unmap` (lines 284–294 and 299–308): `step` edits one entry
    and `next` gives the physical page after a superpage. It does not take more rounds than
    there are pages. -/
def ptLoop (step : ℕ → ℕ → ℕ → MmuState → Option (Bool × MmuState)) (next : ℕ → ℕ → ℕ)
    (ptLevel : ℕ) : ℕ → ℕ → ℕ → ℕ → Bool → MmuState → Option (Bool × MmuState)
  | 0, _, _, _, _, _ => none
  | fuel + 1, vpn, ppn, pages, top, st =>
    if pages = 0 then some (top, st)
    else
      let pteLevel := ptCalcSuperpage vpn ppn pages ptLevel
      match step vpn ppn pteLevel st with
      | none => none
      | some (edit, st) =>
        let superLen := 1 <<< (9 * pteLevel)
        ptLoop step next ptLevel fuel (sizeAdd vpn superLen) (next ppn superLen)
          (sizeSub pages superLen) (top || edit) st

/-- `pt_map` (lines 282–295). -/
def ptMap (pg : Paging) (pt ptLevel vpn ppn pages : ℕ) (flags : Flags) (st : MmuState) :
    Option (Bool × MmuState) :=
  ptLoop (fun vpn ppn pteLevel => ptMap1 pg pt ptLevel vpn ppn pteLevel flags) sizeAdd ptLevel
    (pages + 1) vpn ppn pages false st

/-- `pt_unmap` (lines 297–309). -/
def ptUnmap (pg : Paging) (pt ptLevel vpn pages : ℕ) (st : MmuState) :
    Option (Bool × MmuState) :=
  ptLoop (fun vpn _ pteLevel => ptUnmap1 pg pt ptLevel vpn pteLevel) (fun ppn _ => ppn) ptLevel
    (pages + 1) vpn 0 pages false st

/-- `broadcast_to` (lines 311–319). -/
def broadcastTo (mem : Pmem) (dest src : ℕ) : Pmem :=
  (List.range' 256 256).foldl (fun mem i =>
    let pte := mmuReadPte mem (ptePaddr src i)
    if mmuPteIsValid pte then mmuWritePte mem (ptePaddr dest i) pte else mem) mem

/-- The state of the memory protection driver: the root table of the global context
    (`mpu_global_ctx`) and those of the contexts in `ctx_list`. -/
structure Contexts extends MmuState where
  global : ℕ
  ctxs : List ℕ

/-- `memprotect_create` (lines 568–577). It copies the whole root table of the global context. -/
def memprotectCreate (sys : Contexts) : Option (ℕ × Contexts) :=
  match physPageAlloc sys.toMmuState with
  | none => none
  | some (root, st) =>
    let mem := setPage st.mem root fun i => st.mem (pteWord sys.global i)
    some (root, { sys with toMmuState := { st with mem }, ctxs := sys.ctxs ++ [root] })

/-- The loop over `ctx_list` in `memprotect_impl` (lines 602–607). -/
def broadcastGlobal (sys : Contexts) (mem : Pmem) : Pmem :=
  sys.ctxs.foldl (fun mem ctx => broadcastTo mem sys.global ctx) mem

/-- `memprotect_impl` (lines 585–612) for the context with the given root table. -/
def memprotectImpl (pg : Paging) (root vpn ppn pages : ℕ) (flags : Flags) (sys : Contexts) :
    Option Contexts :=
  let flags := { flags with r := flags.r || flags.w }
  let result :=
    if flags.any then ptMap pg root (pg.levels - 1) vpn ppn pages flags sys.toMmuState
    else ptUnmap pg root (pg.levels - 1) vpn pages sys.toMmuState
  match result with
  | none => none
  | some (topMod, st) =>
    let mem := if topMod && flags.global then broadcastGlobal sys st.mem else st.mem
    some { sys with toMmuState := { st with mem } }

/-- `memprotect_u` (lines 614–631). The result is the one of the source and the state. -/
def memprotectU (pg : Paging) (root vaddr paddr length : ℕ) (flags : Flags) (sys : Contexts) :
    Option (Bool × Contexts) :=
  if (vaddr ||| paddr ||| length) % 4096 ≠ 0 then some (false, sys)
  else if pg.halfPages < vaddr / 4096 + length / 4096 then some (false, sys)
  else
    (memprotectImpl pg root (vaddr / 4096) (paddr / 4096) (length / 4096)
      { flags with global := false, kernel := false } sys).map (true, ·)

/-- `memprotect_k` (lines 633–649). -/
def memprotectK (pg : Paging) (vaddr paddr length : ℕ) (flags : Flags) (sys : Contexts) :
    Option (Bool × Contexts) :=
  if (vaddr ||| paddr ||| length) % 4096 ≠ 0 then some (false, sys)
  else if vaddr / 4096 < pg.highVpn ∨
      pg.highVpn + pg.halfPages < vaddr / 4096 + length / 4096 then some (false, sys)
  else
    (memprotectImpl pg sys.global (vaddr / 4096) (paddr / 4096) (length / 4096)
      { flags with global := true, kernel := true } sys).map (true, ·)

/-! ## The radix tree in memory -/

/-- What an entry says. -/
def decode (pte : ℕ) : Slot ℕ ℕ :=
  if mmuPteIsValid pte = false then .hole
  else if mmuPteIsLeaf pte then .leaf pte
  else .node (mmuPteGetPpn pte)

/-- The tables in memory, by page and index. -/
def tables (mem : Pmem) : Heap ℕ ℕ (Fin 512) := fun pt i => decode (mem (pteWord pt i))

/-- The entry that `pt_split` makes for part `i` of a superpage. -/
def leafPart (pg : Paging) (pte : ℕ) (i : Fin 512) : ℕ :=
  mmuPteNewLeaf pg (mmuPteGetPpn pte + i) (mmuPteGetFlags pte)

def MmuState.store (st : MmuState) : Store ℕ ℕ (Fin 512) := ⟨tables st.mem, st.pages, st.splits⟩

theorem store_heap (st : MmuState) (pt : ℕ) (i : Fin 512) : st.store.heap pt i = decode (st.mem (pteWord pt i)) := rfl

/-- The indices of a page in the tables. -/
def vpnKey (vpn : ℕ) : ℕ → Fin 512 := fun level => ⟨mmuVpnPart vpn level, mmuVpnPart_lt vpn level⟩

section Decode

theorem decode_new {page : ℕ} (h : page < 2 ^ 44) : decode (mmuPteNew page) = .node page := by
  rw [decode, mmuPteIsValid_new, mmuPteIsLeaf_new, mmuPteGetPpn_new, Nat.mod_eq_of_lt h]
  rfl

theorem decode_newLeaf (pg : Paging) (ppn : ℕ) {flags : Flags} (h : flags.any = true) :
    decode (mmuPteNewLeaf pg ppn flags) = .leaf (mmuPteNewLeaf pg ppn flags) := by
  simp [decode, h]

theorem decode_eq_leaf {pte x : ℕ} (h : decode pte = .leaf x) :
    x = pte ∧ mmuPteIsValid pte = true ∧ mmuPteIsLeaf pte = true := by
  unfold decode at h
  split_ifs at h with hv hl
  exact ⟨(Slot.leaf.inj h).symm, by simpa using hv, hl⟩

end Decode

/-- A search of the tables is a lookup. -/
def Lookup.ofFound : Found ℕ → Lookup
  | .leaf level pte => .leaf level pte
  | .hole => .hole
  | .broken => .broken

theorem vpnKey_val (vpn level : ℕ) : (vpnKey vpn level).val = mmuVpnPart vpn level := rfl

theorem ptLookup_eq_find (mem : Pmem) (vpn level pt : ℕ) :
    ptLookup mem vpn level pt = .ofFound (find (tables mem) (vpnKey vpn) level pt) := by
  induction level generalizing pt with
  | zero =>
    rw [ptLookup, find, tables, decode, vpnKey]
    split_ifs <;> rfl
  | succ level ih =>
    rw [ptLookup, find, tables, decode, vpnKey]
    simp only
    split_ifs
    · rfl
    · rfl
    · exact ih _

/-! ### Writes -/

section Writes

variable (mem : Pmem)

theorem tables_write (pt : ℕ) (i : Fin 512) (pte : ℕ) :
    tables (mmuWritePte mem (ptePaddr pt i) pte) = write (tables mem) pt i (decode pte) := by
  funext pt' i'
  rw [tables, mmuWritePte_ptePaddr]
  by_cases h : pt' = pt ∧ i' = i
  · obtain ⟨rfl, rfl⟩ := h
    rw [update_self, write_self]
  · rw [write_of_ne _ (by tauto), update_of_ne, tables]
    intro heq
    obtain ⟨hpt, hi⟩ := pteWord_inj i'.isLt i.isLt heq
    exact h ⟨hpt, Fin.ext hi⟩

theorem tables_setPage (page : ℕ) (f : ℕ → ℕ) :
    tables (setPage mem page f) = update (tables mem) page fun i => decode (f i) := by
  funext pt i
  have hdiv : pteWord pt i / 512 = pt := by unfold pteWord; omega
  have hmod : pteWord pt i % 512 = i := by unfold pteWord; omega
  rw [tables, setPage, hdiv, hmod]
  by_cases h : pt = page
  · subst h
    rw [if_pos rfl, update_self]
  · rw [if_neg h, update_of_ne h, tables]

theorem foldl_write (pt : ℕ) (f : ℕ → ℕ) {len : ℕ} (hlen : len ≤ 512) :
    (range len).foldl (fun mem i => mmuWritePte mem (ptePaddr pt i) (f i)) mem =
      fun word => if word / 512 = pt ∧ word % 512 < len then f (word % 512) else mem word := by
  induction len with
  | zero => simp
  | succ len ih =>
    rw [range_succ, foldl_append, ih (by omega), foldl_cons, foldl_nil, mmuWritePte_ptePaddr]
    funext word
    by_cases hword : word = pteWord pt len
    · subst hword
      have hdiv : pteWord pt len / 512 = pt := by unfold pteWord; omega
      have hmod : pteWord pt len % 512 = len := by unfold pteWord; omega
      rw [update_self, hdiv, hmod, if_pos ⟨rfl, Nat.lt_succ_self len⟩]
    · rw [update_of_ne hword]
      have hne : ¬ (word / 512 = pt ∧ word % 512 = len) := by
        unfold pteWord at hword
        omega
      refine if_congr ?_ rfl rfl
      omega

end Writes

/-! ### Walks are edits -/

section Refinement

variable {pg : Paging} {st : MmuState}

theorem store_alloc {pt : ℕ} {i : Fin 512} (hpages : ∀ page ∈ st.pages, page < 2 ^ 44)
    (hpte : tables st.mem pt i = .hole) : (physPageAlloc st).map (fun r => (r.1, MmuState.store
        { r.2 with mem := mmuWritePte r.2.mem (ptePaddr pt i) (mmuPteNew r.1) })) =
      st.store.attach (leafPart pg) pt i := by
  unfold physPageAlloc Store.attach MmuState.store
  cases hlist : st.pages with
  | nil => rfl
  | cons page pages =>
    have hpage : page < 2 ^ 44 := hpages page (by rw [hlist]; exact mem_cons_self)
    simp only [map_some, tables_write, tables_setPage, decode_new hpage, hpte]
    rfl

theorem store_split {pt pte : ℕ} {i : Fin 512} (hpages : ∀ page ∈ st.pages, page < 2 ^ 44)
    (hpte : tables st.mem pt i = .leaf pte) :
    (ptSplit pg st (ptePaddr pt i) pte).map (fun r => (r.1, r.2.store)) =
      st.store.attach (leafPart pg) pt i := by
  obtain ⟨hword, -, hleaf⟩ := decode_eq_leaf hpte
  have hany : (mmuPteGetFlags pte).any = true := by
    rw [← mmuPteIsLeaf_eq_any, hword, hleaf]
  unfold ptSplit physPageAlloc Store.attach MmuState.store
  cases hlist : st.pages with
  | nil => rfl
  | cons page pages =>
    have hpage : page < 2 ^ 44 := hpages page (by rw [hlist]; exact mem_cons_self)
    simp only [map_some, tables_write, decode_new hpage, hpte]
    rw [foldl_write _ page _ le_rfl]
    have hfill : (fun word => if word / 512 = page ∧ word % 512 < 512 then
          mmuPteNewLeaf pg (sizeAdd (mmuPteGetPpn pte) (word % 512))
            (mmuPteGetFlags pte)
        else setPage st.mem page (fun _ => 0) word) =
        setPage st.mem page fun k =>
          mmuPteNewLeaf pg (sizeAdd (mmuPteGetPpn pte) k)
            (mmuPteGetFlags pte) := by
      funext word
      have : word % 512 < 512 := Nat.mod_lt _ (by norm_num)
      unfold setPage
      split_ifs <;> simp_all
    rw [hfill, tables_setPage]
    have hparts : (fun k : Fin 512 => decode (mmuPteNewLeaf pg
          (sizeAdd (mmuPteGetPpn pte) k)
          (mmuPteGetFlags pte))) =
        (Slot.leaf pte : Slot ℕ ℕ).expand (leafPart pg) := by
      funext k
      have hppn : mmuPteGetPpn pte < 2 ^ 44 := Nat.mod_lt _ (by norm_num)
      have hk := k.isLt
      rw [decode_newLeaf _ _ hany, sizeAdd_eq (by omega)]
      rfl
    rw [hparts]
    rfl

theorem physPageAlloc_pages {page : ℕ} {st' : MmuState} (h : physPageAlloc st = some (page, st')) :
    st.pages = page :: st'.pages := by
  unfold physPageAlloc at h
  split at h
  · contradiction
  · rename_i page' pages hlist
    simp only [some.injEq, Prod.mk.injEq] at h
    rw [hlist, ← h.1, ← h.2]

theorem ptSplit_pages {paddr pte page : ℕ} {st' : MmuState}
    (h : ptSplit pg st paddr pte = some (page, st')) : st.pages = page :: st'.pages := by
  unfold ptSplit at h
  split at h
  · contradiction
  · rename_i next mid halloc
    simp only [some.injEq, Prod.mk.injEq] at h
    rw [physPageAlloc_pages halloc, ← h.1, ← h.2]

/-- Both walks are edits of the tree of tables. -/
theorem ptDescend_eq {index : ℕ → ℕ} (key : ℕ → Fin 512) (hindex : ∀ l, (key l : ℕ) = index l)
    {create : Bool} {leaf pteLevel orig : ℕ} {d pt : ℕ} {top : Bool}
    (hpages : ∀ page ∈ st.pages, page < 2 ^ 44) :
    (ptDescend pg index create leaf pteLevel orig d pt top st).map (fun r => r.2.store) =
      edit (leafPart pg) ⟨key, pteLevel, decode leaf, create⟩ d pt st.store := by
  induction d generalizing pt top st with
  | zero =>
    rw [ptDescend, edit, ← hindex, map_some, MmuState.store, tables_write]
    rfl
  | succ d ih =>
    obtain ⟨i, hi⟩ : ∃ i, i = key (pteLevel + d + 1) := ⟨_, rfl⟩
    have hheap : st.store.heap = tables st.mem := rfl
    rw [ptDescend, edit]
    simp only [← hindex, ← hi, mmuReadPte_ptePaddr, hheap]
    by_cases hv : mmuPteIsValid (st.mem (pteWord pt i)) = false
    · have hpte : tables st.mem pt i = .hole := by rw [tables, decode, if_pos hv]
      rw [if_pos hv, hpte]
      simp only [Slot.isLeaf, true_and]
      cases create with
      | false => rfl
      | true =>
        rw [if_pos rfl, if_neg (by simp), ← store_alloc hpages hpte]
        cases halloc : physPageAlloc st with
        | none => rfl
        | some r =>
          obtain ⟨next, mid⟩ := r
          refine ih fun page hmem => hpages page ?_
          rw [physPageAlloc_pages halloc]
          exact mem_cons_of_mem _ hmem
    · rw [if_neg hv]
      by_cases hl : mmuPteIsLeaf (st.mem (pteWord pt i)) = true
      · have hpte : tables st.mem pt i = .leaf (st.mem (pteWord pt i)) := by
          rw [tables, decode, if_neg hv, if_pos hl]
        rw [if_pos hl, hpte]
        simp only [Slot.isLeaf, Bool.true_eq_false, false_and, if_false]
        rw [← store_split hpages hpte]
        cases hsplit : ptSplit pg st (ptePaddr pt i) (st.mem (pteWord pt i)) with
        | none => rfl
        | some r =>
          obtain ⟨next, mid⟩ := r
          refine ih fun page hmem => hpages page ?_
          rw [ptSplit_pages hsplit]
          exact mem_cons_of_mem _ hmem
      · have hpte : tables st.mem pt i = .node (mmuPteGetPpn (st.mem (pteWord pt i))) := by
          rw [tables, decode, if_neg hv, if_neg hl]
        rw [if_neg hl, hpte]
        exact ih hpages

end Refinement

end BadgerOS.Memprotect

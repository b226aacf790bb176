import BadgerOS.Filesystem.VfsFollow

/-!
# Opening a file

The parts of `fs_open`: the flags about creating a file, the handle for the walk, and the
new handle.

* `createTarget_found`, `createTarget_missing`, `createTarget_new`: what the flags do.
* `rootOpen_new`, `rootOpen_existing`: the handle for the walk.
* `openTarget_new`, `openTarget_existing`, `openTarget_mismatch`: behind the walk.
-/

namespace BadgerOS.Filesystem

open Function List Option Vfs
open Option (bind_eq_bind bind_some)

/-! ## Creating -/

section

variable {fs : Ramfs} {dir : VfsFileShared} {d j : ℕ} {name : List UInt8} {es : List Entry}

theorem findInode_spec (h : findInode fs = some j) : 2 ≤ j ∧ j < fs.inodeListLen := by
  have hmem := mem_of_find?_eq_some h
  rw [mem_range', inodeFirst] at hmem
  obtain ⟨i, hi, rfl⟩ := hmem
  omega

/-- The filesystem after inode `j` was created under a name in directory `d`. -/
structure Created (fs : Ramfs) (d : ℕ) (name : List UInt8) (j : ℕ) (isDir : Bool) (fs' : Ramfs) :
    Prop where
  find : ∃ off, findDirent (fs'.inodeList d) name = some (some off) ∧
    direntInode (fs'.inodeList d).buf off = j
  inode_eq : (fs'.inodeList j).inode = j
  hasType_eq : (fs'.inodeList j).hasType .dir = isDir
  others : ∀ k, k ≠ d → k ≠ j → fs'.inodeList k = fs.inodeList k

theorem HoldsEntries.find_first {inode : Inode} {e : Entry} {es1 es2 : List Entry}
    (h : HoldsEntries inode (es1 ++ e :: es2)) (hmem : e.name ∉ es1.map Entry.name) :
    ∃ off, findDirent inode e.name = some (some off) ∧ direntInode inode.buf off = e.inode := by
  rcases h.findDirent_spec e.name with ⟨_, hno⟩ | ⟨es₁', e', es₂', heq, hname, hmem', hfind⟩
  · exact absurd (mem_map_of_mem (mem_append_right _ mem_cons_self)) hno
  · rw [heq] at h
    have hfirst := find_name_eq es2 hmem
    have hfirst' := find_name_eq es₂' (hname.symm ▸ hmem')
    rw [heq, ← hname, hfirst', some.injEq] at hfirst
    exact ⟨_, hfind, hfirst ▸ h.direntInode_mid⟩

theorem sameFile_new {type : FileType} {dir' : Inode}
    (hsame : SameFile ((fs.setInode j (newInode j type)).inodeList d) dir') :
    SameFile (newInode j type)
      (((fs.setInode j (newInode j type)).setInode d dir').inodeList j) := by
  by_cases hdj : j = d
  · subst hdj
    rw [setInode_same] at hsame ⊢
    exact hsame
  · rw [setInode_of_ne _ _ hdj, setInode_same]
    exact ⟨rfl, rfl, rfl⟩

variable (hfile : dir.ramfsFile = some d) (hdir : HoldsEntries (fs.inodeList d) es)
  (hname : ValidName name) (hmem : name ∉ es.map Entry.name)
  (hfind : findDirent (fs.inodeList d) name = some none) (hj : findInode fs = some j)
  (hjlt : j < 2 ^ 64) (hlen : (fs.inodeList d).len < 2 ^ 62)

include hfile hdir hname hmem hfind hj hjlt hlen

theorem vfsRamfsCreateFile_new (fill : ℕ → UInt8) : ∃ fs', vfsRamfsCreateFile fs dir name (some fill) = some (.ok, fs') ∧
      Created fs d name j false fs' := by
  obtain ⟨dir', hholds, hsame, hcreate⟩ :=
    createFile_new .reg hfile hfind fill hdir hname hj hjlt hlen
  have hnew := sameFile_new hsame
  have heq : vfsRamfsCreateFile fs dir name (some fill) =
      some (.ok, ((fs.setInode j (newInode j .reg)).setInode d dir').setUsage j true) := by
    rw [vfsRamfsCreateFile, hcreate, map_some]
  refine ⟨_, heq, ?_, hnew.inode_eq, ?_, ?_⟩
  · rw [inodeList_setUsage, setInode_same]
    refine hholds.find_first ?_
    split_ifs
    · exact not_mem_nil
    · exact hmem
  · rw [inodeList_setUsage, hnew.hasType_eq, hasType_newInode]
    rfl
  · intro k hkd hkj
    rw [inodeList_setUsage, setInode_of_ne _ _ hkd, setInode_of_ne _ _ hkj]

theorem vfsRamfsCreateDir_new (fills : ℕ → ℕ → UInt8) (hdlt : dir.inode < 2 ^ 64) :
    ∃ fs', vfsRamfsCreateDir fs dir name (fun k => some (fills k)) = some (.ok, fs') ∧
      Created fs d name j true fs' := by
  obtain ⟨dir', hholds, hsame, hcreate⟩ :=
    createFile_new .dir hfile hfind (fills 0) hdir hname hj hjlt hlen
  have hnew := sameFile_new hsame
  -- the new directory is empty, unless it is its own parent
  obtain ⟨es', hes', hfirst⟩ : ∃ es', HoldsEntries
      (((fs.setInode j (newInode j .dir)).setInode d dir').inodeList j) es' ∧
        (d = j ∧ es' = [⟨name, j⟩] ∨ d ≠ j ∧ es' = []) := by
    by_cases hdj : d = j
    · subst hdj
      rw [if_pos rfl] at hholds
      rw [setInode_same]
      exact ⟨_, hholds, .inl ⟨rfl, rfl⟩⟩
    · rw [setInode_of_ne _ _ (Ne.symm hdj), setInode_same]
      exact ⟨_, holdsEntries_newInode j .dir, .inr ⟨hdj, rfl⟩⟩
  have hshort : (((fs.setInode j (newInode j .dir)).setInode d dir').inodeList j).len < 2 ^ 61 := by
    have hbytes := length_encodeAll_le hes'.valid
    have hcount : es'.length ≤ 1 := by
      rcases hfirst with ⟨_, rfl⟩ | ⟨_, rfl⟩ <;> simp
    rw [hes'.length_eq] at hbytes
    omega
  obtain ⟨n1, n2, heq, hdots, hsame2⟩ :=
    hes'.createDir_spec fills hcreate rfl hnew.inode_eq hshort hjlt hdlt
  refine ⟨_, heq, ?_, ?_, ?_, ?_⟩
  · rcases hfirst with ⟨rfl, rfl⟩ | ⟨hdj, rfl⟩
    · rw [setInode_same]
      have hdots' : HoldsEntries n2 ([] ++ ⟨name, d⟩ :: [⟨dot, d⟩, ⟨dotdot, dir.inode⟩]) := hdots
      exact hdots'.find_first not_mem_nil
    · rw [if_neg hdj] at hholds
      rw [setInode_of_ne _ _ hdj, setInode_of_ne _ _ hdj, inodeList_setUsage,
        setInode_same]
      exact hholds.find_first hmem
  · rw [setInode_same, hsame2.inode_eq, hnew.inode_eq]
    rfl
  · rw [setInode_same, hsame2.hasType_eq, hnew.hasType_eq, hasType_newInode]
    rfl
  · intro k hkd hkj
    rw [setInode_of_ne _ _ hkj, setInode_of_ne _ _ hkj, inodeList_setUsage,
      setInode_of_ne _ _ hkd, setInode_of_ne _ _ hkj]

end

section

variable {v : Vfs} {c d j off : ℕ} {name : List UInt8} {oflags : UInt32} {es : List Entry}

theorem vfsRamfsExists_eq {dir : VfsFileShared} {fs : Ramfs} {found : Option ℕ}
    (hfile : dir.ramfsFile = some d) (hfind : findDirent (fs.inodeList d) name = some found) :
    vfsRamfsExists fs dir name = some found.isSome := by
  simp only [vfsRamfsExists, hfile, bind_eq_bind, bind_some, hfind, Option.pure_def]

theorem hasFlag_or (oflags a b : UInt32) : hasFlag oflags (a ||| b) = (hasFlag oflags a || hasFlag oflags b) := by
  have hand : oflags &&& (a ||| b) = oflags &&& a ||| oflags &&& b := by
    refine UInt32.toBitVec_inj.mp ?_
    simp only [UInt32.toBitVec_and, UInt32.toBitVec_or]
    exact BitVec.and_or_distrib_left
  rw [Bool.eq_iff_iff, Bool.or_eq_true, hasFlag, hasFlag, hasFlag, hand]
  simp only [bne_iff_ne, ne_eq, UInt32.or_eq_zero_iff]
  exact not_and_or

theorem createTarget_found (hfile : (v.heap c).ramfsFile = some d) (hexcl : hasFlag oflags oflagsExclusive = false)
    (hfind : findDirent (v.fs.inodeList d) name = some (some off)) :
    ∃ v', createTarget v c name oflags = some (.ok, v') ∧ SameTables v v' := by
  unfold createTarget
  rw [hasFlag_or, hexcl, Bool.false_or, vfsRamfsExists_eq hfile hfind]
  by_cases hcreate : hasFlag oflags oflagsCreate = true
  · simp only [hcreate, if_true, bind_eq_bind, bind_some, isSome_some,
      Bool.false_and, Bool.false_eq_true, if_false, Bool.not_true]
    by_cases hdir : hasFlag oflags oflagsDirectory = true
    · have heq : vfsRamfsCreateDir v.fs (v.heap c) name v.mem = some (.exists, v.fs) := by
        simp [vfsRamfsCreateDir, createFile_exists .dir (v.mem 0) hfile hfind]
      rw [if_pos hdir, heq, map_some]
      exact ⟨_, rfl, rfl, rfl, rfl, rfl, rfl, rfl, fun h k => h (k + 4)⟩
    · rw [if_neg hdir, vfsRamfsCreateFile, createFile_exists .reg (v.mem 0) hfile hfind,
        map_some, map_some]
      exact ⟨_, rfl, rfl, rfl, rfl, rfl, rfl, rfl, fun h k => h (k + 1)⟩
  · rw [if_neg hcreate]
    exact ⟨v, rfl, .refl v⟩

theorem createTarget_new (hmem : v.MemOk) (hc : Opened (v.heap c) d) (hdlt : d < 2 ^ 64)
    (hcreate : hasFlag oflags oflagsCreate = true) (hdir : HoldsEntries (v.fs.inodeList d) es)
    (hname : ValidName name) (hno : name ∉ es.map Entry.name)
    (hfind : findDirent (v.fs.inodeList d) name = some none) (hj : findInode v.fs = some j)
    (hjlt : j < 2 ^ 64) (hlen : (v.fs.inodeList d).len < 2 ^ 62) :
    ∃ fs' v', createTarget v c name oflags = some (.ok, v') ∧ SameTables (v.setFs fs') v' ∧
      Created v.fs d name j (hasFlag oflags oflagsDirectory) fs' := by
  have hfills : ∀ k, ∃ fill, v.mem k = some fill := fun k => isSome_iff_exists.mp (hmem k)
  choose fills hfills using hfills
  have hmems : v.mem = fun k => some (fills k) := funext hfills
  have hexists := vfsRamfsExists_eq hc.ramfsFile hfind
  unfold createTarget
  simp only [hasFlag_or, hcreate, Bool.or_true, if_true, hexists, bind_eq_bind,
    bind_some, isSome_none, Bool.and_false, Bool.false_eq_true, if_false,
    Bool.not_true, Bool.false_and]
  by_cases hd : hasFlag oflags oflagsDirectory = true
  · obtain ⟨fs', heq, hcreated⟩ := vfsRamfsCreateDir_new hc.ramfsFile hdir hname hno
      hfind hj hjlt hlen fills (hc.inode.symm ▸ hdlt)
    rw [if_pos hd, hmems, heq, map_some]
    refine ⟨fs', _, rfl, ⟨rfl, rfl, rfl, rfl, rfl, rfl, fun h k => ?_⟩, hd ▸ hcreated⟩
    exact hmems ▸ h (k + 4)
  · obtain ⟨fs', heq, hcreated⟩ := vfsRamfsCreateFile_new hc.ramfsFile hdir hname hno
      hfind hj hjlt hlen (fills 0)
    rw [if_neg hd, hfills, heq, map_some]
    refine ⟨fs', _, rfl, ⟨rfl, rfl, rfl, rfl, rfl, rfl, fun h k => h (k + 1)⟩, ?_⟩
    rw [Bool.eq_false_iff.mpr hd]
    exact hcreated

end

/-! ## The handle for the walk -/

/-- The handle that `root_open` makes. -/
def parentHandle (v : Vfs) (p : ℕ) : VfsFileHandle :=
  { newHandle v p with write := false, read := true, isDir := true }

/-- The tables with the handle for the walk, but without what it points to. -/
@[simps]
def walkTables (v : Vfs) (p : ℕ) : Vfs :=
  { v with handleList := v.handleList ++ [parentHandle v p], handleNo := v.handleNo + 1 }

theorem set_concat {α : Type*} (l : List α) (x y : α) : (l ++ [x]).set l.length y = l ++ [y] := by
  rw [set_append_right _ _ le_rfl, Nat.sub_self, set_cons_zero]

section

variable {v : Vfs} {ec : Cause} {c k p : ℕ}

/-- The shared table at the start of the walk of `fs_open`. -/
def startTable (v : Vfs) : WalkTable :=
  match sharedOn v inodeRoot with
  | none => ⟨heldSlots v ++ [.own inodeRoot], some v.sharedList.length⟩
  | some c => tableAt v c

/-- The handle for the walk on shared handle `c` is made; `v0` are the tables without its
    reference. -/
structure Started (v : Vfs) (c : ℕ) (v0 v1 : Vfs) : Prop where
  walking : Walking v0 v.handleList.length (parentHandle v c) c inodeRoot (startTable v) v1
  fs : v0.fs = v.fs
  handles : v0.handleList = v.handleList ++ [parentHandle v c]
  mem : ∀ {b}, v.MemIs b → v0.MemIs b

theorem walkBase_walkTables (h : WalkBase v) (p : ℕ) : WalkBase (walkTables v p) := ⟨h.lt_next, h.opened, h.refcount_ne⟩

theorem rootOpen_none (ec : Cause) (h : (vfsFileCreateHandle v (vfsSharedByInode v (some rootVfs) inodeRoot)).1 = none) :
    rootOpen v ec = none := by
  rcases hresult : vfsFileCreateHandle v (vfsSharedByInode v (some rootVfs) inodeRoot) with
    ⟨_ | handle, v1⟩
  · simp only [rootOpen, hresult]
  · rw [hresult] at h
    cases h

theorem rootOpen_reused {v1 : Vfs} (ec : Cause) (hk : vfsSharedByInode v (some rootVfs) inodeRoot = some k)
    (hcreate : vfsFileCreateHandle v (some k) = (some v.handleList.length, v1))
    (hsame : SameTables (withHandle v c) v1) :
    ∃ v', rootOpen v ec = some (ec, v.handleList.length, v') ∧ SameTables (walkTables v c) v' := by
  have hslot := hsame.slot
  refine ⟨v1.setHandle v.handleList.length (parentHandle v c), ?_, hsame.fs, hsame.heap,
    hsame.heapNext, hsame.sharedList, ?_, hsame.handleNo, hsame.mem⟩
  · simp only [rootOpen, hk, hcreate, hslot, bind_eq_bind, bind_some,
      Option.isNone_some, Bool.false_eq_true, if_false, Option.pure_def]
    rfl
  · rw [setHandle_handleList, hsame.handleList]
    exact set_concat ..

theorem rootOpen_existing (ec : Cause) (hroom : v.MemOk ∨ v.handleList.length < v.handleCap)
    (hroot : sharedOn v inodeRoot = some c) :
    ∃ v', rootOpen v ec = some (ec, v.handleList.length, v') ∧ SameTables (walkTables v c) v' := by
  obtain ⟨k, hk, hget⟩ := sharedByInode_of_sharedOn hroot
  obtain ⟨v1, hcreate, hsame⟩ := vfsFileCreateHandle_existing hroom hget
  exact rootOpen_reused ec hk hcreate hsame

theorem next_startTable (hbase : WalkBase v) : (startTable v).next inodeRoot =
    some (startTable v) ∧ (startTable v).find inodeRoot ≠ none := by
  have hvfs : ∀ q ∈ v.sharedList, (v.heap q).vfs = some rootVfs := fun q hq => (hbase.opened q hq).vfs
  unfold startTable
  cases hroot : sharedOn v inodeRoot with
  | none =>
    have hfind : (heldSlots v).find? (fun s => s.inode = inodeRoot) = none := by
      rw [sharedOn, find?_eq_none] at hroot
      rw [heldSlots, find?_eq_none]
      intro s hs
      obtain ⟨q, hq, rfl⟩ := mem_map.mp hs
      exact fun h => hroot q hq (decide_eq_true ⟨hvfs q hq, of_decide_eq_true h⟩)
    have hfound : (heldSlots v ++ [Slot.own inodeRoot]).find? (fun s => s.inode = inodeRoot) =
        some (.own inodeRoot) := by
      rw [find?_append, hfind, none_or]
      rfl
    simp only [WalkTable.next, WalkTable.find, hfound, ne_eq, reduceCtorEq, not_false_iff, and_self]
  | some c => exact next_tableAt hvfs hroot

theorem clean_startTable (hroot : isOpen v inodeRoot = false) : (startTable v).Clean v.sharedList.length := by
  rw [startTable, sharedOn_eq_none_iff.mpr hroot]
  refine ⟨?_, by simp [heldSlots]⟩
  intro slot hslot j hj
  rw [hj, mem_append, heldSlots] at hslot
  simp at hslot

theorem Started.searchable {v0 v1 : Vfs} {dirs : ℕ → Bool} {tree : DirTree}
    (h : Started v c v0 v1) (htree : Searchable v.fs dirs tree) : Searchable v0.fs dirs tree :=
  h.fs ▸ htree

theorem sharedOn_isOpen {j : ℕ} (h : sharedOn v j = some c) : isOpen v j = true := by
  rw [← Bool.not_eq_false, ← sharedOn_eq_none_iff, h]
  exact some_ne_none c

theorem exists_sharedOn {j : ℕ} (h : isOpen v j = true) : ∃ c, sharedOn v j = some c := ne_none_iff_exists'.mp fun hnone =>
    Bool.false_ne_true ((sharedOn_eq_none_iff.mp hnone).symm.trans h)

variable (hbase : WalkBase v) (hnodup : v.sharedList.Nodup)

include hbase hnodup

theorem rootOpen_created {v1 : Vfs} (ec : Cause)
    (hcreate : vfsFileCreateHandle v none = (some v.handleList.length, v1))
    (hsame : SameTables (withHandle (withShared v) v.heapNext) v1)
    (hroot : isOpen v inodeRoot = false) :
    ∃ v', rootOpen v ec = some (.ok, v.handleList.length, v') ∧
      Started v v.heapNext (walkTables v v.heapNext) v' := by
  have hnone : vfsSharedByInode v (some rootVfs) inodeRoot = none :=
    not_isSome_iff_eq_none.mp (by rw [← isOpen, hroot]; exact Bool.false_ne_true)
  have hslot : v1.handleList[v.handleList.length]? = some (newHandle v v.heapNext) := hsame.slot
  have hother : ∀ q, q ≠ v.heapNext → v1.heap q = v.heap q := fun q hq => by
    rw [hsame.heap, withHandle_heap, withShared_heap, update_of_ne hq]
  have hnew : v1.heap v.heapNext = emptyShared v.sharedList.length := by
    rw [hsame.heap, withHandle_heap, withShared_heap, update_self]
  have hopen : vfsRootOpen v1 v.heapNext = (v1.setShared v.heapNext
      { emptyShared v.sharedList.length with
        ramfsFile := some inodeRoot, inode := inodeRoot, vfs := some rootVfs, refcount := 1 }).setFs
      (v1.fs.setInode inodeRoot (v1.fs.inodeList inodeRoot).link) := by
    rw [← hnew]
    rfl
  have heq : rootOpen v ec = some (.ok, v.handleList.length,
      (vfsRootOpen v1 v.heapNext).setHandle v.handleList.length (parentHandle v v.heapNext)) := by
    simp only [rootOpen, hnone, hcreate, hslot, bind_eq_bind, bind_some,
      Option.isNone_none, if_true, Option.pure_def]
    rfl
  have hfresh : v.heapNext ∉ v.sharedList := fun h => lt_irrefl _ (hbase.lt_next _ h)
  have hnext : v1.heapNext = v.heapNext + 1 := hsame.heapNext
  have hlist : v1.sharedList = v.sharedList ++ [v.heapNext] := hsame.sharedList
  have hmem_list : ∀ q ∈ v1.sharedList, q ∈ v.sharedList ∨ q = v.heapNext := fun q hq => by
    rwa [hlist, mem_append, mem_singleton] at hq
  rw [hopen] at heq
  refine ⟨_, heq, ⟨?_, rfl, rfl, id⟩⟩
  rw [startTable, sharedOn_eq_none_iff.mpr hroot]
  refine ⟨walkBase_walkTables hbase _, ?_, ?_, ?_, hsame.handleNo, ?_, hsame.mem, ?_, ?_, ?_, ?_, ?_,
    ?_, ?_, ?_⟩
  · simp
  · rw [setHandle_fs, setFs_fs, hsame.fs]
    exact FsSame.link v.fs inodeRoot
  · rw [setHandle_handleList, setFs_handleList, setShared_handleList, hsame.handleList,
      withHandle_handleList, walkTables_handleList, set_concat]
    exact set_concat ..
  · exact (Nat.le_succ _).trans_eq hnext.symm
  · rw [setHandle_heap, setFs_heap, setShared_heap, update_self]
    exact ⟨rfl, rfl, rfl⟩
  · exact (Nat.lt_succ_self _).trans_eq hnext.symm
  · refine .own hfresh ?_ ?_
    · rw [setHandle_heap, setFs_heap, setShared_heap, update_self]
    · rw [setHandle_heap, setFs_heap, setShared_heap, update_self]
      rfl
  · intro q hq hne
    rw [setHandle_heap, setFs_heap, setShared_heap, update_of_ne hne, hother q hne]
    rfl
  · show v1.sharedList.Nodup
    rw [hlist, nodup_append_comm, singleton_append, nodup_cons]
    exact ⟨hfresh, hnodup⟩
  · intro q hq
    show q < v1.heapNext
    rw [hnext]
    rcases hmem_list q hq with hq | rfl
    · exact (hbase.lt_next q hq).trans (Nat.lt_succ_self _)
    · exact Nat.lt_succ_self _
  · intro q hq hq' hne
    exact absurd ((hmem_list q hq).resolve_right hne) hq'
  · show v1.sharedList.map _ = _
    rw [hlist, map_append, map_singleton]
    congr 1
    · refine map_congr_left fun q hq => ?_
      have hne : q ≠ v.heapNext := fun h => hfresh (h ▸ hq)
      rw [slotOf, walkTables_sharedList, if_pos hq, setHandle_heap, setFs_heap, setShared_heap,
        update_of_ne hne, hother q hne]
    · rw [slotOf, walkTables_sharedList, if_neg hfresh, if_pos rfl, setHandle_heap, setFs_heap,
        setShared_heap, update_self]

theorem rootOpen_new (ec : Cause) (hmem : v.MemOk) (hroot : isOpen v inodeRoot = false) :
    ∃ v', rootOpen v ec = some (.ok, v.handleList.length, v') ∧
      Started v v.heapNext (walkTables v v.heapNext) v' := by
  obtain ⟨v1, hcreate, hsame⟩ := vfsFileCreateHandle_new hmem
  exact rootOpen_created hbase hnodup ec hcreate hsame hroot

/-- The handle that `root_open` makes on a root directory that is open may walk. -/
theorem WalkBase.walking_existing {v1 : Vfs} (hroot : sharedOn v inodeRoot = some c)
    (hsame : SameTables (walkTables v c) v1) :
    Walking (withoutRef v1 c) v.handleList.length (parentHandle v c) c inodeRoot (startTable v)
      v1 := by
  obtain ⟨hlist, hon⟩ := mem_of_sharedOn hroot
  have hheap : v1.heap = v.heap := hsame.heap
  have hlist1 : v1.sharedList = v.sharedList := hsame.sharedList
  have hbase1 : WalkBase v1 := by
    refine ⟨?_, ?_, ?_⟩
    · rw [hlist1, hsame.heapNext]
      exact hbase.lt_next
    · rw [hlist1, hheap]
      exact hbase.opened
    · rw [hlist1, hheap]
      exact hbase.refcount_ne
  have hdir : v1.handleList[v.handleList.length]? = some (parentHandle v c) := by
    rw [hsame.handleList]
    exact getElem?_concat_length
  have htable : tableAt v1 c = startTable v := by
    simp only [startTable, hroot, tableAt, heldTable, heldSlots, hlist1, hheap]
  have hw := hbase1.walking (hlist1 ▸ hnodup) hdir (hlist1 ▸ hlist)
  have hinode : (v1.heap (parentHandle v c).shared).inode = inodeRoot := hheap ▸ hon.2
  rw [hinode, show (parentHandle v c).shared = c from rfl, htable] at hw
  exact hw

theorem SameTables.started {v1 : Vfs} (hsame : SameTables (walkTables v c) v1)
    (hroot : sharedOn v inodeRoot = some c) : Started v c (withoutRef v1 c) v1 where
  walking := hbase.walking_existing hnodup hroot hsame
  fs := by
    rw [withoutRef_fs, hsame.fs]
    rfl
  handles := by
    rw [withoutRef_handleList, hsame.handleList]
    rfl
  mem h := withoutRef_memIs.mpr (hsame.mem h)

theorem rootOpen_cases (ec : Cause) :
    (∃ v0 c v', rootOpen v ec =
        some (if isOpen v inodeRoot then ec else .ok, v.handleList.length, v') ∧
      Started v c v0 v') ∨
    rootOpen v ec = none ∧ ¬ v.MemOk ∧
      ¬ (isOpen v inodeRoot = true ∧ v.handleList.length < v.handleCap) := by
  cases hroot : sharedOn v inodeRoot with
  | none =>
    have hclosed := sharedOn_eq_none_iff.mp hroot
    have hnone : vfsSharedByInode v (some rootVfs) inodeRoot = none :=
      not_isSome_iff_eq_none.mp (by rw [← isOpen, hclosed]; exact Bool.false_ne_true)
    rw [hclosed]
    rcases vfsFileCreateHandle_new_cases v with ⟨v1, hcreate, hsame⟩ | ⟨hfail, hmem⟩
    · obtain ⟨v', hopen, hstart⟩ := rootOpen_created hbase hnodup ec hcreate hsame hclosed
      exact .inl ⟨_, _, v', hopen, hstart⟩
    · exact .inr ⟨rootOpen_none ec (hnone.symm ▸ hfail), hmem, fun h => Bool.false_ne_true h.1⟩
  | some c =>
    rw [sharedOn_isOpen hroot, if_pos rfl]
    obtain ⟨k, hk, hget⟩ := sharedByInode_of_sharedOn hroot
    rcases vfsFileCreateHandle_existing_cases hget with
      ⟨v1, hcreate, hsame⟩ | ⟨hfail, hmem, hfull⟩
    · obtain ⟨v', hrootOpen, hsame⟩ := rootOpen_reused ec hk hcreate hsame
      exact .inl ⟨_, c, v', hrootOpen, hsame.started hbase hnodup hroot⟩
    · exact .inr ⟨rootOpen_none ec (hk.symm ▸ hfail), hmem, fun h => absurd h.2 (not_lt.mpr hfull)⟩

theorem rootOpen_spec (ec : Cause) (hmem : v.MemOk) :
    ∃ v0 c v', rootOpen v ec =
        some (if isOpen v inodeRoot then ec else .ok, v.handleList.length, v') ∧
      Started v c v0 v' :=
  (rootOpen_cases hbase hnodup ec).resolve_right fun h => h.2.1 hmem

end

/-! ## Behind the walk -/

theorem fsOpen_eq {v v1 : Vfs} {ec : Cause} {path : List UInt8} {oflags : UInt32} {parent : ℕ}
    (hflags : rejectsOflags oflags = false)
    (hlen : ¬ path.length > pathMax) (hroot : rootOpen v ec = some (.ok, parent, v1)) :
    fsOpen v ec path oflags = (walk v1 .ok parent path).bind fun r =>
      if r.1 ≠ .ok then some (fileNone, r.1, r.2.2.2.2)
      else openTarget r.2.2.2.2 parent r.2.2.1 (walkFilename r.2.2.2.1 r.2.1) oflags := by
  simp only [fsOpen, hflags, Bool.false_eq_true, if_false, if_neg hlen, hroot, bind_eq_bind,
    bind_some, ne_eq, not_true_eq_false, Option.pure_def]

/-- The handle that `fs_open` returns. -/
def targetHandle (v : Vfs) (p : ℕ) (oflags : UInt32) : VfsFileHandle :=
  { newHandle v p with
    read := hasFlag oflags oflagsReadonly
    write := hasFlag oflags oflagsWriteonly
    isDir := hasFlag oflags oflagsDirectory }

/-- The tables with the handle that `fs_open` returns and a new shared handle for it. -/
@[simps]
def targetTables (v : Vfs) (oflags : UInt32) : Vfs :=
  { withShared v with
    handleList := v.handleList ++ [targetHandle v v.heapNext oflags]
    handleNo := v.handleNo + 1 }

/-- The entry is not there, or its type is the one that is asked for. -/
def TypeOk (ent : DirentT) (oflags : UInt32) : Prop :=
  ent.inode = 0 ∨ ent.isDir = hasFlag oflags oflagsDirectory

section

variable {v : Vfs} {parent k p : ℕ} {ent : DirentT} {filename : List UInt8} {oflags : UInt32}
  {handle : VfsFileHandle}

theorem openTarget_mismatch (hparent : v.handleList[parent]? = some handle)
    (htype : ¬ TypeOk ent oflags) : openTarget v parent ent filename oflags =
      openError v parent (if ent.isDir then .isDir else .isFile) := by
  rw [TypeOk, not_or] at htype
  obtain ⟨hfound, hdir⟩ := htype
  rcases hent : ent.isDir with _ | _
  · have hflag : hasFlag oflags oflagsDirectory = true := by
      rw [hent] at hdir
      exact Bool.eq_true_of_not_eq_false fun h => hdir h.symm
    simp only [openTarget, hparent, bind_eq_bind, bind_some, hfound, hent, hflag,
      ne_eq, not_false_eq_true, decide_true, Bool.and_false, Bool.false_and, Bool.false_eq_true,
      if_false, Bool.not_false, Bool.and_self, if_true]
  · have hflag : hasFlag oflags oflagsDirectory = false := by
      rw [hent] at hdir
      exact Bool.eq_false_of_not_eq_true fun h => hdir h.symm
    simp only [openTarget, hparent, bind_eq_bind, bind_some, hfound, hent, hflag,
      ne_eq, not_false_eq_true, decide_true, Bool.and_self, if_true, Bool.not_false]

theorem typeOk_cond (htype : TypeOk ent oflags) :
    (decide (ent.inode ≠ 0) && ent.isDir && !hasFlag oflags oflagsDirectory) = false ∧
      (decide (ent.inode ≠ 0) && !ent.isDir && hasFlag oflags oflagsDirectory) = false ∧
      (if ent.inode ≠ 0 then ent.isDir else hasFlag oflags oflagsDirectory) =
        hasFlag oflags oflagsDirectory := by
  rcases htype with h | h
  · simp [h]
  · rw [h]
    cases hasFlag oflags oflagsDirectory <;> simp

section

variable (filename : List UInt8) (hmem : v.MemOk) (hparent : v.handleList[parent]? = some handle)
  (htype : TypeOk ent oflags)

include hmem hparent htype

theorem openTarget_new
    (hnone : ent.inode ≠ 0 → vfsSharedByInode v (v.heap handle.shared).vfs ent.inode = none) :
    ∃ v2, SameTables (targetTables v oflags) v2 ∧ openTarget v parent ent filename oflags =
        (vfsFileOpen v2 handle.shared v.heapNext filename oflags).bind fun r =>
          if r.1 ≠ .ok then
            (vfsFileDestroyHandle r.2 v.handleList.length).bind fun v' => openError v' parent r.1
          else some (v.handleNo, r.1,
            r.2.setShared v.heapNext { r.2.heap v.heapNext with refcount := 1 }) := by
  obtain ⟨hc1, hc2, hisDir⟩ := typeOk_cond htype
  have hexisting : (if ent.inode ≠ 0 then vfsSharedByInode v (v.heap handle.shared).vfs ent.inode
      else none) = none := by
    by_cases h : ent.inode ≠ 0
    · rw [if_pos h, hnone h]
    · rw [if_neg h]
  obtain ⟨v1, hcreate, hsame⟩ := vfsFileCreateHandle_new hmem
  have hslot : v1.handleList[v.handleList.length]? = some (newHandle v v.heapNext) := hsame.slot
  refine ⟨v1.setHandle v.handleList.length (targetHandle v v.heapNext oflags), ?_, ?_⟩
  · refine ⟨hsame.fs, hsame.heap, hsame.heapNext, hsame.sharedList, ?_, hsame.handleNo, hsame.mem⟩
    rw [setHandle_handleList, hsame.handleList, withHandle_handleList]
    exact set_concat ..
  · simp only [openTarget, hparent, bind_eq_bind, bind_some, hc1, hc2,
      Bool.false_eq_true, if_false, hexisting, hcreate, hslot, hisDir, isNone_none, if_true]
    rfl

/-- A target that has a shared handle. Its reference count stays as it is. -/
theorem openTarget_existing (hfound : ent.inode ≠ 0)
    (hk : vfsSharedByInode v (v.heap handle.shared).vfs ent.inode = some k)
    (hp : v.sharedList[k]? = some p) :
    ∃ v', openTarget v parent ent filename oflags = some (v.handleNo, .ok, v') ∧ SameTables { v with
        handleList := v.handleList ++ [targetHandle v p oflags], handleNo := v.handleNo + 1 } v' := by
  obtain ⟨hc1, hc2, _⟩ := typeOk_cond htype
  obtain ⟨v1, hcreate, hsame⟩ := vfsFileCreateHandle_existing (.inl hmem) hp
  have hslot := hsame.slot
  refine ⟨v1.setHandle v.handleList.length (targetHandle v p oflags), ?_, ?_⟩
  · simp only [openTarget, hparent, bind_eq_bind, bind_some, hc1, hc2,
      Bool.false_eq_true, if_false, if_pos hfound, hk, hcreate, hslot, isNone_some,
      Option.pure_def]
    rw [htype.resolve_left hfound]
    rfl
  · refine ⟨hsame.fs, hsame.heap, hsame.heapNext, hsame.sharedList, ?_, hsame.handleNo, hsame.mem⟩
    rw [setHandle_handleList, hsame.handleList, withHandle_handleList]
    exact set_concat ..

end

end

end BadgerOS.Filesystem

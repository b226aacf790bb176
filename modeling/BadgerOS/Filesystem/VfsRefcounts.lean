import BadgerOS.Filesystem.VfsOpen
import BadgerOS.Lib.Trace

/-!
# Reference counts of open files

`fs_open` takes an existing shared handle without counting the new reference, so the
reference counts are right in runs that never open a file that is open, with the root
directory closed before every `fs_open`.

* `VfsInv`: the reference counts are right, and the shared handles of the table are open.
* `SafeOpen`: the calls of `fs_open` that keep it.
* `fsOpen_inv`: what they keep.
* `refcounts_right`: every run of such calls.
-/

namespace BadgerOS.Filesystem

open Function List Option Prod

/-- The reference counts are right, and the shared handles of the table are open. -/
structure VfsInv (v : Vfs) : Prop where
  tables : TableInv v
  opened : ∀ q ∈ v.sharedList, Opened (v.heap q) (v.heap q).inode

section

variable {v v' : Vfs} {k p : ℕ}

theorem VfsInv.walkBase (h : VfsInv v) : WalkBase v where
  lt_next := h.tables.lt_next
  opened := h.opened
  refcount_ne _ hq := (h.tables.refcounted.count_pos hq).ne'

theorem Opened.congr {file : VfsFileShared} {i : ℕ} (h : Opened file i) (refcount : ℕ) :
    Opened { file with refcount := refcount } i := ⟨h.vfs, h.ramfsFile, h.inode⟩

theorem VfsInv.destroyHandle (h : VfsInv v) (hdestroy : vfsFileDestroyHandle v k = some v') : VfsInv v' := by
  refine ⟨vfsFileDestroyHandle_inv h.tables hdestroy, fun q hq => ?_⟩
  obtain ⟨hmem, refcount, hheap⟩ := h.tables.destroyHandle_heap hdestroy hq
  rw [hheap]
  exact (h.opened q hmem).congr refcount

theorem VfsInv.close {file : Int32} {ec : Cause} (h : VfsInv v)
    (hclose : fsClose v file = some (ec, v')) : VfsInv v' := by
  unfold fsClose at hclose
  rcases hfind : vfsFileByHandle v file with _ | index
  · rw [hfind] at hclose
    cases hclose
    exact h
  · simp only [hfind, map_eq_some_iff, mk.injEq] at hclose
    obtain ⟨v₁, hdestroy, _, rfl⟩ := hclose
    exact h.destroyHandle hdestroy

theorem VfsInv.of_openError {parent : ℕ} {ec ec' : Cause} {file : Int32} (h : VfsInv v)
    (herror : openError v parent ec = some (file, ec', v')) : VfsInv v' := by
  simp only [openError, Option.bind_eq_bind, Option.bind_eq_some_iff, Option.pure_def,
    Option.some.injEq, mk.injEq] at herror
  obtain ⟨_, _, index, _, v₁, hdestroy, _, _, rfl⟩ := herror
  exact h.destroyHandle hdestroy

theorem Walking.vfsInv {v₁ : Vfs} {c d : ℕ} {t : WalkTable} (h : VfsInv v)
    (hw : Walking (walkTables v p) v.handleList.length (parentHandle v p) c d t v₁)
    (hclean : t.Clean v.sharedList.length) : VfsInv v₁ := by
  have hrefs : (c :: v.targets).Perm v₁.targets := by
    have htargets : v₁.targets = v.targets ++ [c] := by
      have hlist := hw.handles
      rw [walkTables_handleList, set_concat] at hlist
      rw [Vfs.targets, hlist, map_append]
      rfl
    rw [htargets]
    exact (perm_append_singleton c v.targets).symm
  have hother : ∀ q ∈ v.sharedList, q ≠ c → v₁.heap q = v.heap q := hw.others
  have hopened : ∀ q, q = c ∨ q ∈ v.sharedList → Opened (v₁.heap q) (v₁.heap q).inode := by
    intro q hq
    by_cases hne : q = c
    · rw [hne, hw.current.inode]
      exact hw.current
    · rw [hother q (hq.resolve_left hne) hne]
      exact h.opened q (hq.resolve_left hne)
  rcases hw.perm_of_clean hclean with ⟨hindex, hperm⟩ | ⟨hindex, hperm⟩
  · obtain ⟨_, hmem, hheap⟩ := hw.placed.cases.resolve_right (by
      rintro ⟨k, hk, _⟩
      exact some_ne_none k (hk.symm.trans hindex))
    refine ⟨⟨?_, hw.lt_next⟩, fun q hq => hopened q (.inr (hperm.mem_iff.mp hq))⟩
    refine Refcounted.congr (h.tables.refcounted.push hmem (by rw [hheap]; rfl) fun q hq hne => ?_)
      hperm hrefs.symm fun _ _ => rfl
    rw [hother q hq hne]
  · obtain ⟨k, _, hmem, hcount, _⟩ := hw.placed.cases.resolve_left fun h => hindex h.1
    refine ⟨⟨?_, hw.lt_next⟩, fun q hq => hopened q (mem_cons.mp (hperm.mem_iff.mp hq))⟩
    refine Refcounted.congr (h.tables.refcounted.add hmem hcount fun q hq => ?_) hperm
      hrefs.symm fun _ _ => rfl
    rw [hother q hq fun heq => hmem (heq ▸ hq)]

/-! ## A new file handle -/

theorem VfsInv.add {w : Vfs} {file : VfsFileShared} {j : ℕ} (oflags : UInt32) (h : VfsInv v)
    (hlist : w.sharedList = v.sharedList ++ [v.heapNext])
    (hhandles : w.handleList = v.handleList ++ [targetHandle v v.heapNext oflags])
    (hnext : w.heapNext = v.heapNext + 1) (hother : ∀ q, q ≠ v.heapNext → w.heap q = v.heap q)
    (hself : w.heap v.heapNext = { file with refcount := 1 }) (hopened : Opened file j) :
    VfsInv w := by
  have hp : v.heapNext ∉ v.sharedList := fun hmem => lt_irrefl _ (h.tables.lt_next _ hmem)
  have hold : ∀ q ∈ v.sharedList, w.heap q = v.heap q := fun q hq =>
    hother q fun heq => hp (heq ▸ hq)
  have hperm : w.sharedList.Perm (v.heapNext :: v.sharedList) := by
    rw [hlist]
    exact perm_append_singleton ..
  have hrefs : w.targets.Perm (v.heapNext :: v.targets) := by
    have heq : w.targets = v.targets ++ [v.heapNext] := by
      rw [Vfs.targets, hhandles, map_append]
      rfl
    rw [heq]
    exact perm_append_singleton ..
  refine ⟨⟨?_, ?_⟩, ?_⟩
  · refine Refcounted.congr (h.tables.refcounted.add hp (by rw [hself]) fun q hq => ?_) hperm hrefs
      fun _ _ => rfl
    rw [hold q hq]
  · intro q hq
    rw [hnext]
    rcases mem_cons.mp (hperm.mem_iff.mp hq) with rfl | hq
    · exact Nat.lt_succ_self _
    · exact (h.tables.lt_next q hq).trans (Nat.lt_succ_self _)
  · intro q hq
    rcases mem_cons.mp (hperm.mem_iff.mp hq) with rfl | hq
    · rw [hself]
      exact hopened.inode.symm ▸ hopened.congr 1
    · rw [hold q hq]
      exact h.opened q hq

theorem VfsInv.addTarget {v₁ v2 v' : Vfs} {fs' : Ramfs} {j off : ℕ} {oflags : UInt32}
    {d c : ℕ} {name : List UInt8} (h : VfsInv v) (hsame : SameTables (targetTables v oflags) v2)
    (hc : Opened (v2.heap c) d) (hcreate : createTarget v2 c name oflags = some (.ok, v₁))
    (hsame1 : SameTables (v2.setFs fs') v₁)
    (hfind : findDirent (fs'.inodeList d) name = some (some off))
    (hj : direntInode (fs'.inodeList d).buf off = j) (hinode : (fs'.inodeList j).inode = j)
    (hopen : vfsFileOpen v2 c v.heapNext name oflags = some (.ok, v')) :
    VfsInv (v'.setShared v.heapNext { v'.heap v.heapNext with refcount := 1 }) := by
  have hfs : v₁.fs = fs' := hsame1.fs
  have hheap : v₁.heap = v2.heap := hsame1.heap
  have hfile : (v₁.heap c).ramfsFile = some d := hheap ▸ hc.ramfsFile
  have hfind' : findDirent (v₁.fs.inodeList d) name = some (some off) := hfs ▸ hfind
  rw [vfsFileOpen_found hcreate hc.vfs hfile hfind', hfs, hj] at hopen
  cases hopen
  refine h.add (j := j) oflags ?_ ?_ ?_ ?_ (update_self ..) ?_
  · exact hsame1.sharedList.trans hsame.sharedList
  · exact hsame1.handleList.trans hsame.handleList
  · exact hsame1.heapNext.trans hsame.heapNext
  · intro q hq
    rw [Vfs.setShared_heap, update_of_ne hq, withOpened_heap_of_ne _ _ hq, hheap, hsame.heap]
    exact update_of_ne hq ..
  · rw [withOpened_heap_self]
    exact opened_openedShared (by rw [hfs]; exact hinode)

end

/-! ## Calls that keep the reference counts right -/

/-- Opening the target keeps the reference counts right. After a walk that ended in directory `d`
    the entry of the target is `found`; the name is `.` for the path `/`. -/
def SafeTarget (v : Vfs) (tree : DirTree) (found : Option ℕ) (d : ℕ) (t : WalkTable)
    (name : List UInt8) (oflags : UInt32) : Prop :=
  match found with
  | some j =>
    v.fs.isDir j ≠ hasFlag oflags oflagsDirectory ∨
      t.find j = none ∧ hasFlag oflags oflagsExclusive = false
  | none =>
    match tree.lookup d name with
    | some _ => hasFlag oflags oflagsExclusive = false
    | none => hasFlag oflags oflagsCreate = true ∧ ValidName name ∧
        (findInode v.fs).isSome = true ∧ (v.fs.inodeList d).len < 2 ^ 62

/-- A walk that keeps the reference counts right, and a target that does. -/
def SafeWalk (v : Vfs) (tree : DirTree) (oflags : UInt32) : WalkOutcome → Prop
  | .done d t last => t.Clean v.sharedList.length ∧
      SafeTarget v tree (tree.lookup d last) d t last oflags
  | .missing _ t => t.Clean v.sharedList.length
  | .notDir _ => False
  | .crash => False

/-- A call of `fs_open` that keeps the reference counts right: it rejects its arguments, or
    the root directory is not open, no allocation fails, the walk leaves a clean table and the
    target is not open. -/
def SafeOpen (v : Vfs) (path : List UInt8) (oflags : UInt32) : Prop :=
  rejectsOflags oflags = true ∨ path.length > pathMax ∨
    v.MemOk ∧ isOpen v inodeRoot = false ∧ ∃ tree, HoldsTree v.fs tree ∧
      if components path = [] then
        SafeTarget v tree none inodeRoot (startTable v) (if path = [] then [] else dot) oflags
      else SafeWalk v tree oflags
        (follow v.fs.isDir tree inodeRoot (startTable v) (components path))

section

variable {v v₁ v' : Vfs} {p c d : ℕ} {t : WalkTable} {tree : DirTree} {name : List UInt8}
  {oflags : UInt32} {found : Option ℕ} {ent : DirentT} {file : Int32} {ec ec' : Cause}
  {path : List UInt8}

theorem VfsInv.of_openTarget {fs' : Ramfs} {vc : Vfs} {v2 : Vfs} {j off : ℕ} (h : VfsInv v₁)
    (hc : Opened (v₁.heap c) d) (hlt : c < v₁.heapNext)
    (hsame : SameTables (targetTables v₁ oflags) v2)
    (hcreate : createTarget v2 c name oflags = some (.ok, vc))
    (hsame1 : SameTables (v2.setFs fs') vc)
    (hfind : findDirent (fs'.inodeList d) name = some (some off))
    (hj : direntInode (fs'.inodeList d).buf off = j) (hinode : (fs'.inodeList j).inode = j)
    (hopen : ((vfsFileOpen v2 c v₁.heapNext name oflags).bind fun r => if r.1 ≠ .ok then
      (vfsFileDestroyHandle r.2 v₁.handleList.length).bind fun v' => openError v' p r.1 else some
      (v₁.handleNo, r.1, r.2.setShared v₁.heapNext { r.2.heap v₁.heapNext with refcount := 1 })) =
      some (file, ec, v')) : VfsInv v' := by
  have hc2 : Opened (v2.heap c) d := by
    rw [hsame.heap, targetTables_heap, withShared_heap, update_of_ne hlt.ne]
    exact hc
  have hfile : (vc.heap c).ramfsFile = some d := hsame1.heap ▸ hc2.ramfsFile
  have hfind' : findDirent (vc.fs.inodeList d) name = some (some off) := hsame1.fs ▸ hfind
  have hok := vfsFileOpen_found (p := v₁.heapNext) hcreate hc2.vfs hfile hfind'
  rw [hok, bind_some, if_neg (by simp), some.injEq, mk.injEq, mk.injEq] at hopen
  obtain ⟨_, _, rfl⟩ := hopen
  exact h.addTarget hsame hc2 hcreate hsame1 hfind hj hinode hok

theorem SafeTarget.inv (h : VfsInv v) (htree : HoldsTree v.fs tree)
    (hw : Walking (walkTables v p) v.handleList.length (parentHandle v p) c d t v₁)
    (hmem : v₁.MemOk) (hd : v.fs.isDir d = true) (hclean : t.Clean v.sharedList.length)
    (hsafe : SafeTarget v tree found d t name oflags)
    (hent : found = none ∧ ent.inode = 0 ∨
      ∃ j, found = some j ∧ tree.lookup d name = some j ∧ EntFor v.fs name j ent ∧ j ≠ 0)
    (hopen : openTarget v₁ v.handleList.length ent name oflags = some (file, ec, v')) :
    VfsInv v' := by
  have hinv := hw.vfsInv h hclean
  have htree1 : HoldsTree v₁.fs tree := hw.fs.holdsTree htree
  have hd1 : v₁.fs.isDir d = true := hw.fs.isDir_eq ▸ hd
  -- a target that is there, and has no shared handle
  have hthere : ∀ {j off}, TypeOk ent oflags → (ent.inode ≠ 0 →
      vfsSharedByInode v₁ (some rootVfs) ent.inode = none) →
      hasFlag oflags oflagsExclusive = false →
      findDirent (v₁.fs.inodeList d) name = some (some off) →
      direntInode (v₁.fs.inodeList d).buf off = j → (v₁.fs.inodeList j).inode = j → VfsInv v' := by
    intro j off htype hnone hexcl hfind hj hinode
    obtain ⟨v2, hsame, heq⟩ := openTarget_new name hmem hw.handle_eq htype
      (by rw [hw.current.vfs]; exact hnone)
    have hfs2 : v2.fs = v₁.fs := hsame.fs
    have hc2 : (v2.heap c).ramfsFile = some d := by
      rw [hsame.heap, targetTables_heap, withShared_heap, update_of_ne hw.current_lt.ne]
      exact hw.current.ramfsFile
    obtain ⟨vc, hcreate, hsame1⟩ := createTarget_found hc2 hexcl (by rw [hfs2]; exact hfind)
    rw [heq] at hopen
    have hsame₁' : SameTables (v2.setFs v₁.fs) vc :=
      ⟨hsame1.fs.trans hfs2, hsame1.heap, hsame1.heapNext, hsame1.sharedList, hsame1.handleList,
        hsame1.handleNo, hsame1.mem⟩
    exact hinv.of_openTarget hw.current hw.current_lt hsame hcreate hsame₁' hfind hj hinode hopen
  rcases hent with ⟨rfl, hzero⟩ | ⟨j, rfl, hlookup, hfor, hj⟩
  · rcases htree1.find_spec hd1 name with ⟨hnone, hfind⟩ | ⟨j, off, hsome, hfind, hj, _, hinode, _⟩
    · -- the target is created
      simp only [SafeTarget, hnone] at hsafe
      obtain ⟨hflag, hname, hfree, hlen⟩ := hsafe
      obtain ⟨v2, hsame, heq⟩ := openTarget_new name hmem hw.handle_eq
        (.inl hzero) fun hne => absurd hzero hne
      have hfs2 : v2.fs = v₁.fs := hsame.fs
      have hc2 : Opened (v2.heap c) d := by
        rw [hsame.heap, targetTables_heap, withShared_heap, update_of_ne hw.current_lt.ne]
        exact hw.current
      obtain ⟨j, hj⟩ := isSome_iff_exists.mp (hw.fs.findInode_isSome hfree)
      have hjlt : j < 2 ^ 64 := (findInode_spec hj).2.trans_le htree1.len_le
      have hholds : HoldsEntries (v2.fs.inodeList d) (tree d) := hfs2 ▸ htree1.holds d hd1
      have hfree2 : findInode v2.fs = some j := hfs2 ▸ hj
      obtain ⟨fs', vc, hcreate, hsame1, hcreated⟩ := createTarget_new
        (hsame.mem hmem) hc2 ((htree1.dir_lt d hd1).trans_le htree1.len_le) hflag
        hholds hname (DirTree.lookup_eq_none.mp hnone) (by rw [hfs2]; exact hfind) hfree2 hjlt
        (by rw [hfs2, hw.fs.len_inode]; exact hlen)
      obtain ⟨off, hfind', hj'⟩ := hcreated.find
      rw [heq] at hopen
      exact hinv.of_openTarget hw.current hw.current_lt hsame hcreate hsame1 hfind' hj'
        hcreated.inode_eq hopen
    · simp only [SafeTarget, hsome] at hsafe
      exact hthere (.inl hzero) (fun hne => absurd hzero hne) hsafe hfind hj hinode
  · by_cases htype : TypeOk ent oflags
    · have hsafe : t.find j = none ∧ hasFlag oflags oflagsExclusive = false := by
        refine hsafe.resolve_left fun hne => hne ?_
        rw [Ramfs.isDir, ← hfor.isDir_eq]
        exact htype.resolve_left (hfor.inode_eq ▸ hj)
      obtain ⟨hclosed, hexcl⟩ := hsafe
      rcases htree1.find_spec hd1 name with ⟨hnone, _⟩ | ⟨j', off, hsome, hfind, hj', _, hinode, _⟩
      · rw [hlookup] at hnone
        cases hnone
      · obtain rfl : j = j' := some.inj (hlookup.symm.trans hsome)
        refine hthere htype (fun _ => ?_) hexcl hfind hj' hinode
        rw [hfor.inode_eq]
        exact hw.sharedByInode_none hclosed
    · rw [openTarget_mismatch hw.handle_eq htype] at hopen
      exact hinv.of_openError hopen

theorem fsOpen_inv (h : VfsInv v) (hsafe : SafeOpen v path oflags)
    (hopen : fsOpen v ec path oflags = some (file, ec', v')) : VfsInv v' := by
  by_cases hflags : rejectsOflags oflags = true
  · rw [fsOpen, if_pos hflags] at hopen
    cases hopen
    exact h
  rw [Bool.not_eq_true] at hflags
  by_cases hlen : path.length > pathMax
  · rw [fsOpen, if_neg (by rw [hflags]; exact Bool.false_ne_true), if_pos hlen] at hopen
    cases hopen
    exact h
  obtain ⟨hmem, hroot, tree, htree, hsafe⟩ :=
    (hsafe.resolve_left fun h => Bool.false_ne_true (hflags.symm.trans h)).resolve_left hlen
  obtain ⟨v₁, hrootOpen, hstart⟩ := rootOpen_new h.walkBase h.tables.refcounted.nodup ec hmem hroot
  have hw := hstart.walking
  obtain ⟨hnext, hfound⟩ := next_startTable h.walkBase
  have hmem0 : (walkTables v v.heapNext).MemOk := hmem
  rw [fsOpen_eq hflags hlen hrootOpen] at hopen
  by_cases hcomps : components path = []
  · rw [if_pos hcomps] at hsafe
    have hclean := clean_startTable hroot
    by_cases hpath : path = []
    · subst hpath
      rw [walk_nil, bind_some, if_neg (by simp)] at hopen
      exact hsafe.inv h htree hw (hw.mem hmem0) htree.root hclean (.inl ⟨rfl, rfl⟩) hopen
    · obtain ⟨c', v2, hwalk, hw'⟩ := walk_root .ok hw hnext hfound hcomps hpath
      rw [hwalk, bind_some, if_neg (by simp)] at hopen
      rw [if_neg hpath] at hsafe
      exact hsafe.inv h htree hw' (hw'.mem hmem0) htree.root hclean (.inl ⟨rfl, rfl⟩) hopen
  · rw [if_neg hcomps] at hsafe
    have htree' := hstart.searchable htree.toSearchable
    have hwalk := (walk_spec .ok hw hnext hfound htree' rfl hcomps).1.resolve_right
      fun h => h.2.2 hmem0
    rcases hout : follow v.fs.isDir tree inodeRoot (startTable v) (components path) with
      ⟨d, t, last⟩ | ⟨d, t⟩ | j | _
    · rw [hout] at hwalk hsafe
      obtain ⟨⟨start, ent, path', c', v2, hwalk, hdrop, hent, hw'⟩, _⟩ := hwalk
      rw [hwalk, bind_some, if_neg (by simp), walkFilename, hdrop] at hopen
      refine hsafe.2.inv h htree hw' (hw'.mem hmem0) (follow_done_dir hout htree.root) hsafe.1 ?_
        hopen
      rcases hent with ⟨hnone, hzero⟩ | ⟨j, hsome, hfor, hj⟩
      · exact .inl ⟨hnone, hzero⟩
      · exact .inr ⟨j, hsome, hsome, hfor, hj⟩
    · rw [hout] at hwalk hsafe
      obtain ⟨⟨ent, path', c', v2, hwalk, hw'⟩, _⟩ := hwalk
      rw [hwalk, bind_some, if_pos (by simp), some.injEq, mk.injEq, mk.injEq] at hopen
      obtain ⟨_, _, rfl⟩ := hopen
      exact hw'.vfsInv h hsafe
    · rw [hout] at hsafe
      exact hsafe.elim
    · rw [hout] at hsafe
      exact hsafe.elim

end

/-! ## Runs -/

/-- The calls that make and destroy handles. -/
inductive VfsCall
  | openFile (ec : Cause) (path : List UInt8) (oflags : UInt32)
  | closeFile (file : Int32)
  deriving DecidableEq, Repr

/-- One call: the file number and the error code that it returns. -/
def vfsStep (v : Vfs) : VfsCall → Option ((Int32 × Cause) × Vfs)
  | .openFile ec path oflags => (fsOpen v ec path oflags).map fun r => ((r.1, r.2.1), r.2.2)
  | .closeFile file => (fsClose v file).map fun r => ((fileNone, r.1), r.2)

/-- The calls that keep the reference counts right. -/
def SafeCall (v : Vfs) : VfsCall → Prop
  | .openFile _ path oflags => SafeOpen v path oflags
  | .closeFile _ => True

/-- The number of file handles that point to a shared handle. -/
def references (v : Vfs) (p : ℕ) : ℕ := v.handleList.countP (·.shared = p)

/-- The reference counts are right: they are the numbers of file handles, the table holds the
    shared handles that have one, and no file handle points to one that was destroyed. -/
structure RefcountsOk (v : Vfs) : Prop where
  refcount_eq : ∀ p ∈ v.sharedList, (v.heap p).refcount = references v p
  mem_iff : ∀ p, p ∈ v.sharedList ↔ 0 < references v p
  not_destroyed : ∀ handle ∈ v.handleList,
    handle.shared ∈ v.sharedList ∧ (v.heap handle.shared).ramfsFile ≠ none

theorem references_eq (v : Vfs) (p : ℕ) : references v p = v.targets.count p := by
  rw [references, Vfs.targets, List.count, countP_map]
  rfl

theorem VfsInv.refcountsOk {v : Vfs} (h : VfsInv v) : RefcountsOk v where
  refcount_eq p hp := by
    rw [references_eq]
    exact h.tables.refcounted.count_eq p hp
  mem_iff p := by
    rw [references_eq, count_pos_iff]
    exact h.tables.refcounted.mem_iff p
  not_destroyed handle hmem := by
    have hp : handle.shared ∈ v.sharedList :=
      (h.tables.refcounted.mem_iff _).mpr (mem_map_of_mem hmem)
    refine ⟨hp, ?_⟩
    rw [(h.opened _ hp).ramfsFile]
    exact some_ne_none _

theorem vfsStep_inv {v v' : Vfs} {call : VfsCall} {out : Int32 × Cause} (h : VfsInv v)
    (hsafe : SafeCall v call) (hstep : vfsStep v call = some (out, v')) : VfsInv v' := by
  cases call with obtain ⟨_, heq, ⟨⟩⟩ := map_eq_some_iff.mp hstep
  | openFile ec path oflags => exact fsOpen_inv h hsafe heq
  | closeFile file => exact h.close heq

/-- The reference counts are right after every run of calls that keep them so. -/
theorem refcounts_right {v v' : Vfs} {calls : List VfsCall} {outs : List (Int32 × Cause)}
    (hinv : VfsInv v) (hrun : Trace vfsStep SafeCall v calls outs v') : RefcountsOk v' := (hrun.invariant vfsStep_inv hinv).refcountsOk

/-! ## From a fresh filesystem -/

theorem vfsInv_bootVfs (fs : Ramfs) (mems : ℕ → Realloc) : VfsInv (bootVfs fs mems) where
  tables := ⟨⟨nodup_nil, fun _ hp => absurd hp not_mem_nil, fun _ => Iff.rfl⟩,
    fun _ hp => absurd hp not_mem_nil⟩
  opened _ hp := absurd hp not_mem_nil

/-- The tables at boot of a fresh filesystem, with memory for everything. -/
def freshVfs : Vfs :=
  bootVfs ((vfsRamfsMount .ok false (fun _ => false) fun _ => some fun _ => 0).bind Prod.snd |>.get
    (by decide)) fun _ => some fun _ => 0

theorem holdsTree_freshVfs : HoldsTree freshVfs.fs mountedTree := by
  obtain ⟨fs, hmount, htree⟩ := holdsTree_mounted (fun _ => false) fun _ _ => 0
  have hfs : freshVfs.fs = fs := by
    simp only [freshVfs, bootVfs, hmount, bind_some, get_some]
  rw [hfs]
  exact htree

/-- The path `/a`. -/
def pathA : List UInt8 := [47, 97]

/-- Create `/a`, and open it once more. -/
def openTwice : List VfsCall :=
  [.openFile .ok pathA (oflagsCreate ||| oflagsReadwrite), .openFile .ok pathA oflagsReadwrite]

/-- The two handles on the file are counted once. -/
theorem refcounts_openTwice : ∃ v outs,
    Trace vfsStep (fun _ _ => True) freshVfs openTwice outs v ∧ ¬ RefcountsOk v := by
  refine ⟨_, _, .cons_get trivial (by decide +kernel)
    (.cons_get trivial (by decide +kernel) (.nil _)), ?_⟩
  intro h
  exact absurd h.refcount_eq (by decide +kernel)

/-- Create `/a`, and close the handle. -/
def openClose : List VfsCall :=
  [.openFile .ok pathA (oflagsCreate ||| oflagsReadwrite), .closeFile 1]

theorem safeOpen_pathA : SafeOpen freshVfs pathA (oflagsCreate ||| oflagsReadwrite) := by
  have hmem : freshVfs.MemOk := fun _ => rfl
  refine .inr (.inr ⟨hmem, by decide, mountedTree, holdsTree_freshVfs, ?_⟩)
  have hcomps : components pathA = [[97]] := by decide
  have hlookup : mountedTree.lookup inodeRoot [97] = none := by decide
  have hroot : isOpen freshVfs inodeRoot = false := by decide
  rw [hcomps, if_neg (by simp), follow]
  refine ⟨clean_startTable hroot, ?_⟩
  simp only [SafeTarget, hlookup]
  exact ⟨by decide, validName_singleton (by decide), by decide, by decide⟩

theorem refcounts_right_openClose : ∃ v outs,
    Trace vfsStep SafeCall freshVfs openClose outs v ∧ RefcountsOk v := by
  have hsafe : SafeCall freshVfs (.openFile .ok pathA (oflagsCreate ||| oflagsReadwrite)) :=
    safeOpen_pathA
  have hrun : ∃ v outs, Trace vfsStep SafeCall freshVfs openClose outs v :=
    ⟨_, _, .cons_get hsafe (by decide +kernel) (.cons_get trivial (by decide +kernel) (.nil _))⟩
  obtain ⟨v, outs, hrun⟩ := hrun
  exact ⟨v, outs, hrun, refcounts_right (vfsInv_bootVfs _ _) hrun⟩

end BadgerOS.Filesystem

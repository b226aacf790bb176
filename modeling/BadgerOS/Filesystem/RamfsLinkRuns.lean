import BadgerOS.Filesystem.RamfsLinks

/-!
# Sequences of calls on the RAM filesystem

Creating, unlinking, opening and closing files in any order.

* `linkStep_spec`: a call returns and keeps the layout of the directories and the link counts.
* `linksOk_of_run`: the link counts are right at the end of every sequence of calls that creates
  and opens files in linked directories only.

**Deviation.** A directory that was unlinked while it was open keeps its entry `..`, which
counts for nothing. Once the parent is unlinked and closed too, its inode is free, and opening
`..` in the directory that is still open raises the link count of a free inode
(`not_linksOk_dotdot`).
-/

namespace BadgerOS.Filesystem

open Function List Option
open Option (bind_eq_bind bind_some map_some)

section

variable {s : LinkState} {l : Layout} {dir d : ℕ} {name : List UInt8}

/-! ## One call -/

/-- A call returns and keeps the layout and the link counts. -/
def KeepsLinks (s : LinkState) (call : LinkCall) : Prop :=
  ∃ t l, linkStep s call = some t ∧ Fits t l ∧ LinksOk t

theorem Fits.inode_of_openDir (h : Fits s l) (hdir : s.OpenDir dir d) : (s.heap dir).inode = d := by
  obtain ⟨i, hi, hinode, _⟩ := h.opened_inode hdir.1
  rw [hdir.2.1] at hi
  rw [hinode, some.inj hi]

/-- `create_file` finds the name, finds no inode or takes one that is not in use. -/
theorem Fits.createFile_cases (type : FileType) (fill : ℕ → UInt8) (h : Fits s l)
    (hdir : s.OpenDir dir d) (hname : ValidName name) :
    createFile s.fs (s.heap dir) name type (some fill) = some (.exists, s.fs, none) ∨
      createFile s.fs (s.heap dir) name type (some fill) = some (.nospace, s.fs, none) ∨
      ∃ j dir', j < s.fs.inodeListLen ∧ s.fs.inodeUsage j = false ∧
        Entry.isDot ⟨name, j⟩ = false ∧ HoldsEntries dir' (l.entries d ++ [⟨name, j⟩]) ∧
        SameFile (s.fs.inodeList d) dir' ∧
        createFile s.fs (s.heap dir) name type (some fill) = some (.ok,
          ((s.fs.setInode j (newInode j type)).setInode d dir').setUsage j true, some j) := by
  obtain ⟨_, hfile, hd⟩ := hdir
  rcases (h.holds hd).findDirent_spec name with ⟨hfind, hmem⟩ | ⟨_, _, _, _, _, _, hfind⟩
  · rcases hfree : findInode s.fs with _ | j
    · exact .inr (.inl (createFile_nospace type hfile hfind _ hfree))
    · right; right
      have hjlt := (findInode_spec hfree).2
      have hdj : d ≠ j := hd.ne_of_unused (findInode_unused hfree)
      obtain ⟨dir', hholds, hsame, heq⟩ := createFile_new type hfile hfind fill (h.holds hd) hname
        hfree (by have := h.len_lt; omega) (by have := h.dir_len_lt hd; omega)
      rw [if_neg hdj] at hholds
      rw [setInode_of_ne _ _ hdj] at hsame
      refine ⟨j, dir', hjlt, findInode_unused hfree, ?_, hholds, hsame, heq⟩
      rw [Entry.isDot, Bool.or_eq_false_iff, decide_eq_false_iff_not, decide_eq_false_iff_not]
      constructor
      · rintro rfl
        exact hmem mem_cons_self
      · rintro rfl
        exact hmem (mem_cons_of_mem _ mem_cons_self)
  · exact .inl (createFile_exists type _ hfile hfind)

section

variable (h : Fits s l) (hok : LinksOk s) (hdir : s.OpenDir dir d) (hlinked : s.fs.IsLinked d)
  (hname : ValidName name)

include h hok hdir hlinked hname

theorem keeps_createFile (fills : ℕ → ℕ → UInt8) : KeepsLinks s (.createFile dir name fills) := by
  rcases h.createFile_cases .reg (fills 0) hdir hname with
    heq | heq | ⟨j, dir', hjlt, hj, hdot, hholds, hsame, heq⟩
  · exact ⟨s, l, by rw [linkStep, vfsRamfsCreateFile, heq]; rfl, h, hok⟩
  · exact ⟨s, l, by rw [linkStep, vfsRamfsCreateFile, heq]; rfl, h, hok⟩
  · have hdj : d ≠ j := hdir.2.2.ne_of_unused hj
    have hstep : linkStep s (.createFile dir name fills) = some { s with
        fs := ((s.fs.setInode j (newInode j .reg)).setInode d dir').setUsage j true } := by
      rw [linkStep, vfsRamfsCreateFile, heq]
      rfl
    refine ⟨_, l.create d name j, hstep,
      h.create hok hdir.2.2 rfl ?_ rfl rfl .reg hlinked hdot hjlt hj rfl ?_ ?_ ?_ ?_⟩
    · simpa only [inodeList_setUsage, setInode_same] using hsame
    · intro k hkd hkj
      simp only [inodeList_setUsage, setInode_of_ne _ _ hkd,
        setInode_of_ne _ _ hkj]
    · simpa only [inodeList_setUsage, setInode_same] using hholds
    · simp only [inodeList_setUsage, setInode_of_ne _ _ hdj.symm, setInode_same]
      exact ⟨rfl, rfl, rfl⟩
    · intros
      contradiction

theorem keeps_createDir (fills : ℕ → ℕ → UInt8) : KeepsLinks s (.createDir dir name fills) := by
  rcases h.createFile_cases .dir (fills 0) hdir hname with
    heq | heq | ⟨j, dir', hjlt, hj, hdot, hholds, hsame, heq⟩
  · exact ⟨s, l, by rw [linkStep, vfsRamfsCreateDir, heq]; rfl, h, hok⟩
  · exact ⟨s, l, by rw [linkStep, vfsRamfsCreateDir, heq]; rfl, h, hok⟩
  · have hdj : d ≠ j := hdir.2.2.ne_of_unused hj
    have hlen := h.len_lt
    have hdlt := hdir.2.2.1
    have hinode := h.inode_of_openDir hdir
    obtain ⟨n1, n2, hcreate, hdots, hnew⟩ := (holdsEntries_newInode j .dir).createDir_spec fills heq
      ((setInode_of_ne _ _ hdj.symm).trans (setInode_same _ _ _)) rfl
      (by simp [newInode]) (by omega) (by omega)
    rw [hinode] at hdots
    have hstep : linkStep s (.createDir dir name fills) = some { s with
        fs := ((((s.fs.setInode j (newInode j .dir)).setInode d dir').setUsage j true).setInode j
          n1).setInode j n2 } := by
      rw [linkStep, hcreate]
      rfl
    refine ⟨_, l.create d name j, hstep,
      h.create hok hdir.2.2 rfl ?_ rfl rfl .dir hlinked hdot hjlt hj rfl ?_ ?_ ?_ ?_⟩
    · simpa only [inodeList_setUsage, setInode_of_ne _ _ hdj,
        setInode_same] using hsame
    · intro k hkd hkj
      simp only [inodeList_setUsage, setInode_of_ne _ _ hkd,
        setInode_of_ne _ _ hkj]
    · simpa only [inodeList_setUsage, setInode_of_ne _ _ hdj,
        setInode_same] using hholds
    · simpa only [setInode_same] using hnew
    · intro _
      simp only [setInode_same]
      exact hdots

end

/-- An entry with another name than `.` and `..` stands behind these two. -/
theorem Layout.entries_split {es1 es2 : List Entry} {e : Entry} (h : l.entries d = es1 ++ e :: es2) (hdot : e.isDot = false) :
    ∃ fs1, es1 = ⟨dot, d⟩ :: ⟨dotdot, l.parent d⟩ :: fs1 ∧ l.files d = fs1 ++ e :: es2 := by
  rw [Layout.entries] at h
  rcases es1 with _ | ⟨e1, _ | ⟨e2, fs1⟩⟩
  · obtain ⟨rfl, _⟩ := cons.inj h
    cases hdot
  · obtain ⟨rfl, _⟩ := cons.inj (cons.inj h).2
    cases hdot
  · obtain ⟨hdot1, hrest⟩ := cons.inj h
    obtain ⟨hdot2, hfiles⟩ := cons.inj hrest
    exact ⟨fs1, by rw [hdot1, hdot2], hfiles⟩

/-- An inode may be unlinked when it is no directory that holds names. -/
theorem Fits.isRemovable_cases {i : ℕ} (h : Fits s l) (hi : i < s.fs.inodeListLen)
    (hused : s.fs.inodeUsage i = true) : isRemovable (s.fs.inodeList i) = some false ∨
      isRemovable (s.fs.inodeList i) = some true ∧ l.files i = [] := by
  by_cases htype : (s.fs.inodeList i).hasType .dir = true
  · have hd : s.fs.HasDir i := ⟨hi, hused, htype⟩
    rw [isRemovable, if_pos htype, (h.holds hd).isDirEmpty_eq]
    rcases hfiles : l.files i with _ | ⟨e, es⟩
    · right
      rw [Layout.entries, hfiles]
      exact ⟨rfl, rfl⟩
    · left
      have hdot : e.isDot = false := h.not_dot (d := i) (by rw [hfiles]; exact mem_cons_self)
      rw [Entry.isDot] at hdot
      rw [Layout.entries, hfiles, all_cons, all_cons, all_cons, hdot,
        Bool.false_and, Bool.and_false, Bool.and_false]
  · right
    rw [isRemovable, if_neg htype]
    exact ⟨rfl, h.files_eq fun hd => htype hd.2.2⟩

section

variable (h : Fits s l) (hok : LinksOk s)

include h hok

theorem keeps_unlink (hdir : s.OpenDir dir d) (fills : ℕ → ℕ → UInt8) : KeepsLinks s (.unlink dir name fills) := by
  obtain ⟨_, hfile, hd⟩ := hdir
  by_cases hdots : name = dot ∨ name = dotdot
  · refine ⟨s, l, ?_, h, hok⟩
    rw [linkStep, vfsRamfsUnlink, if_pos hdots]
    rfl
  rcases (h.holds hd).findDirent_spec name with ⟨hfind, _⟩ | ⟨es1, e, es2, hes, rfl, _, hfind⟩
  · refine ⟨s, l, ?_, h, hok⟩
    simp only [linkStep, vfsRamfsUnlink, if_neg hdots, hfile, bind_eq_bind,
      bind_some, hfind, Option.pure_def, map_some]
  have hdot : e.isDot = false := by
    rw [Entry.isDot, Bool.or_eq_false_iff, decide_eq_false_iff_not, decide_eq_false_iff_not]
    exact not_or.mp hdots
  obtain ⟨fs1, rfl, hfiles⟩ := Layout.entries_split hes hdot
  have hmem : e ∈ l.files d := by
    rw [hfiles]
    exact mem_append_right _ mem_cons_self
  have hholds := h.holds hd
  rw [hes] at hholds
  have hpos := h.count_pos_of_mem hmem
  have hilt := h.child_lt hmem
  have hused := (hok.used_iff hilt).mpr hpos
  rcases h.isRemovable_cases hilt hused with hrem | ⟨hrem, hempty⟩
  · refine ⟨s, l, ?_, h, hok⟩
    simp only [linkStep, vfsRamfsUnlink, if_neg hdots, hfile, bind_eq_bind,
      bind_some, hfind, hholds.direntInode_mid, hrem, Bool.not_false, if_true,
      Option.pure_def, map_some]
  obtain ⟨n, hn⟩ : ∃ n, s.count e.inode = n + 1 := ⟨s.count e.inode - 1, by omega⟩
  have hpop := popInodeRefcount_succ hused (h.inode_eq hilt hused) ((hok.links_eq hilt).trans hn)
    (by have := h.count_lt e.inode; omega)
  have hed : e.inode ≠ d := by
    intro heq
    rw [← heq, hempty] at hmem
    exact absurd hmem not_mem_nil
  obtain ⟨dir', hremove, hholds', hsame⟩ := hholds.removeDirent_spec (fills 0)
  have hstep : linkStep s (.unlink dir e.name fills) = some { s with
      fs := ((s.fs.setInode e.inode { s.fs.inodeList e.inode with links := n }).setUsage e.inode
        (decide (n ≠ 0))).setInode d dir' } := by
    simp only [linkStep, vfsRamfsUnlink, if_neg hdots, hfile, bind_eq_bind,
      bind_some, hfind, hholds.direntInode_mid, hrem, Bool.not_true, Bool.false_eq_true, if_false, hpop,
      inodeList_setUsage, setInode_of_ne _ _ hed.symm, hremove, Option.pure_def,
      map_some]
  refine ⟨_, _, hstep, h.unlink hok hd ?_ ?_ ?_ ?_ hfiles hempty hn rfl ?_ ?_⟩
  · rfl
  · simpa only [setInode_same] using hsame
  · rfl
  · rfl
  · intro k hkd
    simp only [setInode_of_ne _ _ hkd, inodeList_setUsage]
    by_cases hke : k = e.inode
    · rw [hke, setInode_same, if_pos rfl, hok.links_eq hilt, hn, Nat.add_sub_cancel]
    · rw [setInode_of_ne _ _ hke, if_neg hke, Nat.sub_zero]
  · simp only [setInode_same]
    exact hholds'

theorem keeps_rootOpen {file : ℕ} (hfresh : s.FreshHandle file) (vfs : ℕ) : KeepsLinks s (.rootOpen vfs file) :=
  ⟨_, l, rfl, h.open hok hfresh h.root.1 h.root.2.1 rfl rfl rfl⟩

theorem keeps_fileOpen {file : ℕ} (hdir : s.OpenDir dir d) (hlinked : s.fs.IsLinked d)
    (hfresh : s.FreshHandle file) (vfs : ℕ) : KeepsLinks s (.fileOpen vfs dir file name) := by
  obtain ⟨_, hfile, hd⟩ := hdir
  rcases (h.holds hd).findDirent_spec name with ⟨hfind, _⟩ | ⟨es1, e, es2, hes, rfl, _, hfind⟩
  · refine ⟨s, l, ?_, h, hok⟩
    simp only [linkStep, vfsRamfsFileOpen, hfile, bind_eq_bind, bind_some, hfind,
      Option.pure_def, map_some, update_eq_self]
    rfl
  · have hholds := h.holds hd
    have hmem : e ∈ (s.fs.inodeList d).entries := by
      rw [hholds.entries_eq, hes]
      exact mem_append_right _ mem_cons_self
    obtain ⟨hilt, hused⟩ := hok.entry_used hd hlinked hmem
    rw [hes] at hholds
    have hstep : linkStep s (.fileOpen vfs dir file e.name) = some
        ⟨s.fs.setInode e.inode (s.fs.inodeList e.inode).link, update s.heap file { s.heap file with
            ramfsFile := some e.inode
            inode := (s.fs.inodeList e.inode).link.inode
            vfs := some vfs
            refcount := 1
            size := Int64.ofNat (s.fs.inodeList e.inode).link.len }, file :: s.opened⟩ := by
      simp only [linkStep, vfsRamfsFileOpen, hfile, bind_eq_bind, bind_some, hfind,
        hholds.direntInode_mid, Option.pure_def, map_some, if_true]
    exact ⟨_, l, hstep, h.open hok hfresh hilt hused rfl (h.inode_eq hilt hused) rfl⟩

theorem keeps_close {file : ℕ} (hfile : file ∈ s.opened) : KeepsLinks s (.close file) := by
  obtain ⟨i, hi, _⟩ := hok.open_used hfile
  have hstep : linkStep s (.close file) = some ⟨popInodeRefcount s.fs i,
      update s.heap file { s.heap file with ramfsFile := none },
      s.opened.erase file⟩ := by
    simp only [linkStep, vfsRamfsFileClose, hi, bind_eq_bind, bind_some, Option.pure_def, map_some]
  exact ⟨_, l, hstep, h.close hok hfile hi rfl⟩

theorem linkStep_spec {call : LinkCall} (hvalid : call.Valid s) (hopens : call.OpensLinked s) : KeepsLinks s call := by
  cases call with
  | createFile dir name fills =>
    obtain ⟨⟨d, _, hdir, hlinked⟩, hname⟩ := hvalid
    exact keeps_createFile h hok hdir hlinked hname fills
  | createDir dir name fills =>
    obtain ⟨⟨d, _, hdir, hlinked⟩, hname⟩ := hvalid
    exact keeps_createDir h hok hdir hlinked hname fills
  | unlink dir name fills =>
    obtain ⟨⟨d, _, hdir⟩, _⟩ := hvalid
    exact keeps_unlink h hok hdir fills
  | rootOpen vfs file => exact keeps_rootOpen h hok hvalid vfs
  | fileOpen vfs dir file name =>
    obtain ⟨⟨d, _, hdir⟩, _, hfresh⟩ := hvalid
    obtain ⟨d', _, hd', hlinked⟩ := hopens
    obtain rfl := some.inj (hdir.2.1.symm.trans hd')
    exact keeps_fileOpen h hok hdir hlinked hfresh vfs
  | close file => exact keeps_close h hok hvalid

end

end

/-! ## Sequences of calls -/

/-- Creating and opening files in linked directories. -/
def LinkCall.InLinked (s : LinkState) (call : LinkCall) : Prop := call.Valid s ∧ call.OpensLinked s

instance (s : LinkState) (call : LinkCall) : Decidable (call.InLinked s) :=
  inferInstanceAs (Decidable (_ ∧ _))

theorem exists_fits_of_run {s t : LinkState} {l : Layout} {calls : List LinkCall} (hl : Fits s l)
    (hs : LinksOk s) (hrun : Run linkStep (fun s call => call.InLinked s) s calls t) :
    ∃ l, Fits t l ∧ LinksOk t := by
  refine hrun.invariant (P := fun s => ∃ l, Fits s l ∧ LinksOk s) ?_ ⟨l, hl, hs⟩
  rintro s u call ⟨l, hl, hs⟩ ⟨hvalid, hopens⟩ hstep
  obtain ⟨u', l', hstep', hu⟩ := linkStep_spec hl hs hvalid hopens
  obtain rfl := some.inj (hstep.symm.trans hstep')
  exact ⟨l', hu⟩

/-- The directories of a mounted filesystem. -/
def Layout.mounted : Layout := ⟨fun _ => inodeRoot, fun _ => []⟩

/-- The link counts of a mounted filesystem are right, if the two bytes of the usage map that
    `vfs_ramfs_mount` does not clear are zero. -/
theorem fits_mounted (usage : ℕ → Bool) (fills : ℕ → ℕ → UInt8) (h30 : usage 30 = false) (h31 : usage 31 = false) :
    ∃ fs, vfsRamfsMount .ok false usage (fun k => some (fills k)) = some (.ok, some fs) ∧
      ∀ heap, Fits ⟨fs, heap, []⟩ .mounted ∧ LinksOk ⟨fs, heap, []⟩ := by
  obtain ⟨root, hmount, hholds, hsame⟩ := @mount_spec usage fills
  refine ⟨_, hmount, fun heap => ?_⟩
  set fs := (⟨fun _ => .zero, update (fun i => if i < 30 then false else usage i) inodeRoot
    true, 32⟩ : Ramfs).setInode inodeRoot root with hfs
  have hrootList : fs.inodeList inodeRoot = root := setInode_same _ _ _
  have hlist : ∀ i ≠ inodeRoot, fs.inodeList i = .zero := fun i hi =>
    setInode_of_ne _ _ hi
  have hused : ∀ i < 32, (fs.inodeUsage i = true ↔ i = inodeRoot) := by
    intro i hi
    by_cases hir : i = inodeRoot
    · rw [hir]
      simp only [hfs, Ramfs.setInode, update_self]
    · simp only [hfs, Ramfs.setInode, update_of_ne hir, hir, iff_false, Bool.not_eq_true]
      split_ifs
      · rfl
      · obtain rfl | rfl : i = 30 ∨ i = 31 := by omega
        · exact h30
        · exact h31
  have hroot : fs.HasDir inodeRoot := by
    refine ⟨(by decide : inodeRoot < 32), (hused _ (by decide)).mpr rfl, ?_⟩
    rw [hrootList, hsame.hasType_eq]
    exact hasType_newInode inodeRoot .dir
  have hnames : ∀ n i, Layout.mounted.names n i = 0 := fun n i =>
    Finset.sum_eq_zero fun d _ => rfl
  have hfits : Fits ⟨fs, heap, []⟩ .mounted := by
    refine ⟨(by decide : 32 < 2 ^ 32), hroot, ?_, ?_, fun _ => rfl, ?_, ?_, ?_, ?_, rfl,
      fun _ _ => rfl, nodup_nil, ?_, ?_⟩
    · intro i hi hu
      rw [(hused i hi).mp hu]
      exact (congrArg Inode.inode hrootList).trans hsame.inode_eq
    · rintro d ⟨hd, hu, _⟩
      rw [(hused d hd).mp hu]
      exact hrootList ▸ hholds
    · exact fun he => absurd he not_mem_nil
    · exact fun he => absurd he not_mem_nil
    · intro i
      rw [hnames]
      exact Nat.zero_le 1
    · intro d _ hpos
      rw [hnames] at hpos
      exact absurd hpos (lt_irrefl 0)
    · exact fun hfile => absurd hfile not_mem_nil
    · exact fun hfile => absurd hfile not_mem_nil
  have hcount : ∀ i, LinkState.count ⟨fs, heap, []⟩ i = if i = inodeRoot then 1 else 0 := by
    intro i
    rw [hfits.count_eq, hnames]
    exact Nat.zero_add _
  refine ⟨hfits, hfits.linksOk ?_ ?_⟩
  · intro i _
    rw [hcount]
    split_ifs with hi
    · rw [hi]
      exact (congrArg Inode.links hrootList).trans hsame.links_eq
    · exact congrArg Inode.links (hlist i hi)
  · intro i hi
    rw [hcount, hused i hi]
    split_ifs with hir
    · exact iff_of_true hir Nat.one_pos
    · exact iff_of_false hir (lt_irrefl 0)

/-- From a filesystem whose link counts are right, every sequence of calls that creates and opens
    files in linked directories leads to one whose link counts are right. The next such call
    returns. -/
theorem linksOk_of_run {s t : LinkState} {l : Layout} {calls : List LinkCall} (hl : Fits s l)
    (hs : LinksOk s) (hrun : Run linkStep (fun s call => call.InLinked s) s calls t) :
    LinksOk t ∧ ∀ call : LinkCall, call.InLinked t → (linkStep t call).isSome = true := by
  obtain ⟨l', hl', ht⟩ := exists_fits_of_run hl hs hrun
  refine ⟨ht, fun call hcall => ?_⟩
  obtain ⟨u, _, hstep, _⟩ := linkStep_spec hl' ht hcall.1 hcall.2
  rw [hstep]
  rfl

/-- A directory is unlinked while it is open, and a file is created in its place. -/
theorem linksOk_of_run_reuse : ∃ s l calls t, Fits s l ∧ LinksOk s ∧
    Run linkStep (fun s call => call.InLinked s) s calls t ∧
    ((t.fs.inodeList 2).links, (t.fs.inodeList 3).links) = (1, 2) ∧ LinksOk t := by
  obtain ⟨fs, hmount, hfits⟩ := fits_mounted (fun _ => false) (fun _ _ => 0) rfl rfl
  let heap : ℕ → VfsFileShared := fun _ => ⟨0, 0, 0, none, 0, none⟩
  let calls : List LinkCall := [.rootOpen 0 1, .createDir 1 [97] fun _ _ => 0,
    .fileOpen 0 1 2 [97], .unlink 1 [97] fun _ _ => 0, .createFile 1 [98] fun _ _ => 0,
    .fileOpen 0 1 3 [98]]
  have heval : ((vfsRamfsMount .ok false (fun _ => false) fun _ => some fun _ => 0).bind
      fun r => r.2.bind fun fs => (Run.exec linkStep (fun s call => call.InLinked s)
        ⟨fs, heap, []⟩ calls).map fun t => ((t.fs.inodeList 2).links, (t.fs.inodeList 3).links)) =
      some (1, 2) := by
    decide +kernel
  rw [hmount] at heval
  obtain ⟨t, hrun, ht⟩ := Run.of_exec_map heval
  exact ⟨_, _, calls, t, (hfits heap).1, (hfits heap).2, hrun, ht,
    (linksOk_of_run (hfits heap).1 (hfits heap).2 hrun).1⟩

/-- Directory `b` is made in `a` and both are unlinked while they are open. When `a` is closed
    its inode is given up, and opening `..` in `b` opens it. -/
theorem not_linksOk_dotdot : ∃ s l calls t, Fits s l ∧ LinksOk s ∧
    Run linkStep (fun s call => call.Valid s) s calls t ∧ ¬ LinksOk t := by
  obtain ⟨fs, hmount, hfits⟩ := fits_mounted (fun _ => false) (fun _ _ => 0) rfl rfl
  let heap : ℕ → VfsFileShared := fun _ => ⟨0, 0, 0, none, 0, none⟩
  let calls : List LinkCall := [.rootOpen 0 1, .createDir 1 [97] fun _ _ => 0,
    .fileOpen 0 1 2 [97], .createDir 2 [98] fun _ _ => 0, .fileOpen 0 2 3 [98],
    .unlink 2 [98] fun _ _ => 0, .unlink 1 [97] fun _ _ => 0, .close 2,
    .fileOpen 0 3 4 dotdot]
  have heval : ((vfsRamfsMount .ok false (fun _ => false) fun _ => some fun _ => 0).bind
      fun r => r.2.bind fun fs => (Run.exec linkStep (fun s call => call.Valid s)
        ⟨fs, heap, []⟩ calls).map fun t =>
          (t.fs.inodeUsage 2, (t.fs.inodeList 2).links, t.fs.inodeListLen)) =
      some (false, 1, 32) := by
    decide +kernel
  rw [hmount] at heval
  obtain ⟨t, hrun, ht⟩ := Run.of_exec_map heval
  simp only [Prod.mk.injEq] at ht
  obtain ⟨husage, hlinks, hlen⟩ := ht
  refine ⟨_, _, calls, t, (hfits heap).1, (hfits heap).2, hrun, fun hok => ?_⟩
  have hlt : 2 < t.fs.inodeListLen := by omega
  have hpos : 0 < t.count 2 := by rw [← hok.links_eq hlt, hlinks]; exact Nat.one_pos
  rw [(hok.used_iff hlt).mpr hpos] at husage
  cases husage

end BadgerOS.Filesystem

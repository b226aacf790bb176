import BadgerOS.Filesystem.RamfsTree
import BadgerOS.Lib.Trace

/-!
# Directories of the RAM filesystem

The byte buffers of the filesystem represent a directory tree, and creating and
unlinking on the buffers is creating and unlinking on the tree. No allocation
fails here.

* `Represents`: the directories of the filesystem hold the entries of the tree.
* `dirStep_simulates`: one call.
* `exists_run`: a sequence of calls on directories of the tree runs to its end.
* `ramfs_directories`: every run from a mounted filesystem.
-/

namespace BadgerOS.Filesystem

open List Option Filesystem.Tree

open Buffer

/-! ## Calls -/

/-- What a call does to the filesystem. -/
def dirStep (fs : Ramfs) : DirCall → Option (Cause × Ramfs)
  | .createFile dir name fills => vfsRamfsCreateFile fs dir name (some (fills 0))
  | .createDir dir name fills => vfsRamfsCreateDir fs dir name fun k => some (fills k)
  | .unlink dir name fills => vfsRamfsUnlink fs dir name (some (fills 0))

/-- `d` is a directory in use. -/
def Ramfs.IsDirectory (fs : Ramfs) (d : ℕ) : Prop :=
  fs.inodeUsage d = true ∧ (fs.inodeList d).hasType .dir = true

/-- The handle of the call is that of a directory in use and the name has 1 to 255 bytes. -/
structure ValidDirCall (fs : Ramfs) (call : DirCall) : Prop where
  ramfsFile_eq : call.dir.ramfsFile = some call.dir.inode
  isDirectory : fs.IsDirectory call.dir.inode
  name : ValidName call.name

/-! ## The tree that a filesystem represents -/

/-- The directories in use hold the entries of the tree. The inode of every entry but `.` and
    `..` carries its own number and is linked once. -/
structure Represents (fs : Ramfs) (tr : Tree) : Prop where
  inodeListLen_eq : fs.inodeListLen = 32
  usage_eq : fs.inodeUsage = tr.used
  hasType_eq : ∀ i, (fs.inodeList i).hasType .dir = tr.isDir i
  holds : ∀ {d}, tr.IsDirectory d → HoldsEntries (fs.inodeList d) (tr.entries d)
  child_inode : ∀ {d e}, tr.IsDirectory d → e ∈ tr.entries d → e.isDot = false →
    (fs.inodeList e.inode).inode = e.inode
  child_links : ∀ {d e}, tr.IsDirectory d → e ∈ tr.entries d → e.isDot = false →
    (fs.inodeList e.inode).links = 1

section

variable {fs fs' : Ramfs} {tr : Tree} {type : FileType} {d j : ℕ} {name : List UInt8} {e : Entry}
  {dir : VfsFileShared} {usage : ℕ → Bool}

theorem Represents.isDirectory_iff (h : Represents fs tr) : fs.IsDirectory d ↔ tr.IsDirectory d := by
  rw [Ramfs.IsDirectory, Tree.IsDirectory, h.usage_eq, h.hasType_eq]

theorem Represents.findInode_eq (h : Represents fs tr) : findInode fs = tr.free := by
  rw [findInode, h.inodeListLen_eq, h.usage_eq, free]

theorem Tree.IsDirectory.ne_of_unused (hd : tr.IsDirectory d) (hj : tr.used j = false) : d ≠ j := by
  rintro rfl
  rw [hd.1] at hj
  cases hj

theorem free_spec (h : tr.free = some j) : tr.used j = false ∧ j < 32 := by
  have hused := find?_some h
  have hmem := mem_of_find?_eq_some h
  rw [mem_range'_1, inodeFirst] at hmem
  exact ⟨by simpa using hused, by omega⟩

section

variable (h : Represents fs tr) (hinv : TreeInv tr) (hd : tr.IsDirectory d)

include h hinv hd

theorem Represents.create {dir' : Inode} (hj : tr.used j = false) (hlen : fs'.inodeListLen = fs.inodeListLen)
    (husage : fs'.inodeUsage = Function.update fs.inodeUsage j true)
    (hothers : ∀ i ≠ d, i ≠ j → fs'.inodeList i = fs.inodeList i) (hdir : fs'.inodeList d = dir')
    (hholds : HoldsEntries dir' (tr.entries d ++ [⟨name, j⟩]))
    (hsame : SameFile (fs.inodeList d) dir') (hnew : SameFile (newInode j type) (fs'.inodeList j))
    (hnewHolds : HoldsEntries (fs'.inodeList j) (newEntries type d j)) :
    Represents fs' (tr.create type d name j) := by
  have hfresh : ∀ {i e}, tr.IsDirectory i → e ∈ tr.entries i → e.isDot = false → e.inode ≠ j := by
    rintro i e hi he hdot rfl
    rw [hinv.child_used hi he hdot] at hj
    cases hj
  -- what an old entry names is unchanged, up to the data of `d`
  have hchild : ∀ {i e}, tr.IsDirectory i → e ∈ tr.entries i → e.isDot = false →
      SameFile (fs.inodeList e.inode) (fs'.inodeList e.inode) := by
    intro i e hi he hdot
    by_cases hed : e.inode = d
    · rw [hed, hdir]
      exact hsame
    · rw [hothers _ hed (hfresh hi he hdot)]
      exact ⟨rfl, rfl, rfl⟩
  refine ⟨hlen.trans h.inodeListLen_eq, by rw [husage, h.usage_eq]; rfl, ?_, ?_, ?_, ?_⟩
  · intro i
    by_cases hij : i = j
    · subst hij
      rw [hnew.hasType_eq, hasType_newInode, isDir_create_self]
    · rw [isDir_create_of_ne hij, ← h.hasType_eq]
      by_cases hid : i = d
      · rw [hid, hdir, hsame.hasType_eq]
      · rw [hothers i hid hij]
  · intro i hi
    by_cases hij : i = j
    · subst hij
      rw [entries_create_self]
      exact hnewHolds
    · by_cases hid : i = d
      · subst hid
        rw [entries_create_dir hij, hdir]
        exact hholds
      · rw [entries_create_of_ne hij hid, hothers i hid hij]
        exact h.holds ((isDirectory_create_of_ne hij).mp hi)
  · intro i e hi he hdot
    obtain ⟨_, hi, ⟨rfl, rfl⟩ | he⟩ := child_create hi he hdot
    · exact hnew.inode_eq
    · exact (hchild hi he hdot).inode_eq.trans (h.child_inode hi he hdot)
  · intro i e hi he hdot
    obtain ⟨_, hi, ⟨rfl, rfl⟩ | he⟩ := child_create hi he hdot
    · exact hnew.links_eq
    · exact (hchild hi he hdot).links_eq.trans (h.child_links hi he hdot)

theorem Represents.unlink {dir' : Inode} (he : e ∈ tr.entries d) (hdot : e.isDot = false)
    (hlen : fs'.inodeListLen = fs.inodeListLen)
    (husage : fs'.inodeUsage = Function.update fs.inodeUsage e.inode false)
    (hothers : ∀ i ≠ d, i ≠ e.inode → fs'.inodeList i = fs.inodeList i)
    (hmode : (fs'.inodeList e.inode).mode = (fs.inodeList e.inode).mode)
    (hdir : fs'.inodeList d = dir') (hholds : HoldsEntries dir' ((tr.entries d).erase e))
    (hsame : SameFile (fs.inodeList d) dir') : Represents fs' (tr.unlink d e) := by
  have hed : e.inode ≠ d := hinv.child_ne hd he hdot
  have hchild : ∀ {i e'}, tr.IsDirectory i → e' ∈ (tr.unlink d e).entries i → e'.isDot = false →
      SameFile (fs.inodeList e'.inode) (fs'.inodeList e'.inode) := by
    intro i e' hi he' hdot'
    by_cases hed' : e'.inode = d
    · rw [hed', hdir]
      exact hsame
    · rw [hothers _ hed' (hinv.child_unlink_ne hd he hdot hi he' hdot')]
      exact ⟨rfl, rfl, rfl⟩
  refine ⟨hlen.trans h.inodeListLen_eq, by rw [husage, h.usage_eq]; rfl, ?_, ?_, ?_, ?_⟩
  · intro i
    refine Eq.trans ?_ (h.hasType_eq i)
    by_cases hid : i = d
    · rw [hid, hdir, hsame.hasType_eq]
    · by_cases hie : i = e.inode
      · rw [hie, Inode.hasType, Inode.hasType, hmode]
      · rw [hothers i hid hie]
  · intro i hi
    obtain ⟨hie, hi⟩ := isDirectory_unlink.mp hi
    by_cases hid : i = d
    · subst hid
      rw [entries_unlink_dir, hdir]
      exact hholds
    · rw [entries_unlink_of_ne hid, hothers i hid hie]
      exact h.holds hi
  · intro i e' hi he' hdot'
    have hi := (isDirectory_unlink.mp hi).2
    exact (hchild hi he' hdot').inode_eq.trans (h.child_inode hi (hinv.child_unlink hd he').1 hdot')
  · intro i e' hi he' hdot'
    have hi := (isDirectory_unlink.mp hi).2
    exact (hchild hi he' hdot').links_eq.trans (h.child_links hi (hinv.child_unlink hd he').1 hdot')

theorem len_lt_of_holds : (fs.inodeList d).len < 2 ^ 62 := by
  have hbytes := length_encodeAll_le (h.holds hd).valid
  have hcount := hinv.length_le hd
  rw [(h.holds hd).length_eq] at hbytes
  omega

end

/-! ## Every call is a call on the tree -/

theorem isRemovable_eq (h : Represents fs tr) (hused : tr.used j = true) : isRemovable (fs.inodeList j) =
      some (!(tr.isDir j && !(tr.entries j).all Entry.isDot)) := by
  rw [isRemovable, h.hasType_eq]
  by_cases hdir : tr.isDir j = true
  · rw [if_pos hdir, (h.holds ⟨hused, hdir⟩).isDirEmpty_eq, hdir, Bool.true_and, Bool.not_not]
    rfl
  · rw [if_neg hdir, Bool.eq_false_iff.mpr hdir]
    rfl

theorem popInodeRefcount_eq {i : ℕ} (hlinks : (fs.inodeList i).links = 1)
    (hinode : (fs.inodeList i).inode = i) : popInodeRefcount fs i =
      (fs.setInode i { fs.inodeList i with links := 0 }).setUsage i false := by
  have hzero : (1 + (2 ^ 64 - 1)) % 2 ^ 64 = 0 := by norm_num
  simp only [popInodeRefcount, hlinks, hinode, hzero, if_true]

section

variable (fill : ℕ → UInt8) (h : Represents fs tr) (hinv : TreeInv tr)
  (hfile : dir.ramfsFile = some d) (hd : tr.IsDirectory d)

include h hinv hfile hd

theorem createFile_spec (type : FileType) (hname : ValidName name) :
    (name ∈ tr.names d ∧ createFile fs dir name type (some fill) = some (.exists, fs, none)) ∨
      (name ∉ tr.names d ∧ tr.free = none ∧
        createFile fs dir name type (some fill) = some (.nospace, fs, none)) ∨
      (name ∉ tr.names d ∧ ∃ j dir', tr.free = some j ∧
        HoldsEntries dir' (tr.entries d ++ [⟨name, j⟩]) ∧ SameFile (fs.inodeList d) dir' ∧
        createFile fs dir name type (some fill) =
          some (.ok, ((fs.setInode j (newInode j type)).setInode d dir').setUsage j true,
            some j)) := by
  rcases (h.holds hd).findDirent_spec name with ⟨hfind, hmem⟩ | ⟨es1, e, es2, hes, rfl, _, hfind⟩
  · rcases hfree : tr.free with _ | j
    · have hnone := h.findInode_eq.trans hfree
      exact .inr (.inl ⟨hmem, rfl, createFile_nospace type hfile hfind _ hnone⟩)
    · obtain ⟨hj, hjlt⟩ := free_spec hfree
      have hdj := hd.ne_of_unused hj
      obtain ⟨dir', hholds, hsame, heq⟩ := createFile_new type hfile hfind fill (h.holds hd) hname
        (h.findInode_eq.trans hfree) (by omega) (len_lt_of_holds h hinv hd)
      rw [if_neg hdj] at hholds
      rw [setInode_of_ne _ _ hdj] at hsame
      exact .inr (.inr ⟨hmem, j, dir', rfl, hholds, hsame, heq⟩)
  · refine .inl ⟨?_, createFile_exists type _ hfile hfind⟩
    rw [names, hes]
    exact mem_map_of_mem (mem_append_right _ mem_cons_self)

theorem createFile_simulates (hname : ValidName name) :
    ∃ fs', vfsRamfsCreateFile fs dir name (some fill) = some ((tr.createStep .reg d name).1, fs') ∧
      Represents fs' (tr.createStep .reg d name).2 ∧ TreeInv (tr.createStep .reg d name).2 := by
  unfold vfsRamfsCreateFile createStep
  rcases createFile_spec fill h hinv hfile hd .reg hname with
    ⟨hmem, heq⟩ | ⟨hmem, hfree, heq⟩ | ⟨hmem, j, dir', hfree, hholds, hsame, heq⟩
  · rw [heq, if_pos hmem]
    exact ⟨fs, rfl, h, hinv⟩
  · rw [heq, if_neg hmem, hfree]
    exact ⟨fs, rfl, h, hinv⟩
  · rw [heq, if_neg hmem, hfree]
    obtain ⟨hj, hjlt⟩ := free_spec hfree
    have hdj := hd.ne_of_unused hj
    refine ⟨_, rfl, h.create hinv hd hj rfl rfl ?_ ?_ hholds hsame ?_ ?_,
      hinv.create hd hmem hj hjlt⟩
    · intro i hid hij
      simp only [inodeList_setUsage, setInode_of_ne _ _ hid,
        setInode_of_ne _ _ hij]
    · rw [inodeList_setUsage, setInode_same]
    · rw [inodeList_setUsage, setInode_of_ne _ _ hdj.symm, setInode_same]
      exact ⟨rfl, rfl, rfl⟩
    · rw [inodeList_setUsage, setInode_of_ne _ _ hdj.symm, setInode_same]
      exact holdsEntries_newInode j .reg

theorem createDir_simulates (fills : ℕ → ℕ → UInt8) (hinode : dir.inode = d)
    (hname : ValidName name) : ∃ fs', vfsRamfsCreateDir fs dir name (fun k => some (fills k)) =
        some ((tr.createStep .dir d name).1, fs') ∧
      Represents fs' (tr.createStep .dir d name).2 ∧ TreeInv (tr.createStep .dir d name).2 := by
  subst hinode
  unfold createStep
  rcases createFile_spec (fills 0) h hinv hfile hd .dir hname with
    ⟨hmem, heq⟩ | ⟨hmem, hfree, heq⟩ | ⟨hmem, j, dir', hfree, hholds, hsame, heq⟩
  · rw [vfsRamfsCreateDir, heq, if_pos hmem]
    exact ⟨fs, rfl, h, hinv⟩
  · rw [vfsRamfsCreateDir, heq, if_neg hmem, hfree]
    exact ⟨fs, rfl, h, hinv⟩
  · obtain ⟨hj, hjlt⟩ := free_spec hfree
    have hdj := hd.ne_of_unused hj
    have hdlt := hinv.dir_lt hd
    obtain ⟨n1, n2, hdir, hdots, hnew⟩ := (holdsEntries_newInode j .dir).createDir_spec fills heq
      ((setInode_of_ne _ _ hdj.symm).trans (setInode_same _ _ _)) rfl
      (by simp [newInode]) (by omega) (by omega)
    rw [hdir, if_neg hmem, hfree]
    refine ⟨_, rfl, h.create hinv hd hj rfl rfl ?_ ?_ hholds hsame ?_ ?_,
      hinv.create hd hmem hj hjlt⟩
    · intro i hid hij
      simp only [inodeList_setUsage, setInode_of_ne _ _ hid,
        setInode_of_ne _ _ hij]
    · rw [setInode_of_ne _ _ hdj, setInode_of_ne _ _ hdj, inodeList_setUsage,
        setInode_same]
    · rw [setInode_same]
      exact hnew
    · rw [setInode_same]
      exact hdots

theorem unlink_simulates :
    ∃ fs', vfsRamfsUnlink fs dir name (some fill) = some ((tr.unlinkStep d name).1, fs') ∧
      Represents fs' (tr.unlinkStep d name).2 ∧ TreeInv (tr.unlinkStep d name).2 := by
  unfold vfsRamfsUnlink unlinkStep
  by_cases hdots : name = dot ∨ name = dotdot
  · rw [if_pos hdots, if_pos hdots]
    exact ⟨fs, rfl, h, hinv⟩
  rw [if_neg hdots, if_neg hdots]
  simp only [hfile, Option.bind_eq_bind, Option.bind_some, Option.pure_def]
  rcases (h.holds hd).findDirent_spec name with ⟨hfind, hmem⟩ | ⟨es1, e, es2, hes, rfl, hno, hfind⟩
  · have hnone : (tr.entries d).find? (fun e => e.name = name) = none := by
      rw [find?_eq_none]
      intro e he heq
      exact hmem (mem_map.mpr ⟨e, he, by simpa using heq⟩)
    rw [hfind, hnone]
    exact ⟨fs, rfl, h, hinv⟩
  · have he : e ∈ tr.entries d := by
      rw [hes]
      exact mem_append_right _ mem_cons_self
    have hdot : e.isDot = false := by
      rw [Entry.isDot, Bool.or_eq_false_iff, decide_eq_false_iff_not, decide_eq_false_iff_not]
      exact not_or.mp hdots
    have hsome : (tr.entries d).find? (fun e' => e'.name = e.name) = some e := by
      have hnone : es1.find? (fun e' => e'.name = e.name) = none := by
        rw [find?_eq_none]
        intro e' he' heq
        exact hno (mem_map.mpr ⟨e', he', by simpa using heq⟩)
      rw [hes, find?_append, hnone, find?_cons_of_pos (by simp)]
      rfl
    have hholds := h.holds hd
    rw [hes] at hholds
    have hinode := hholds.direntInode_mid
    rw [hfind, hsome]
    simp only [bind_some, hinode, isRemovable_eq h (hinv.child_used hd he hdot)]
    by_cases hfull : (tr.isDir e.inode && !(tr.entries e.inode).all Entry.isDot) = true
    · simp only [hfull, Bool.not_true, Bool.not_false, if_true]
      exact ⟨fs, rfl, h, hinv⟩
    · obtain ⟨dir', hremove, hholds', hsame⟩ := hholds.removeDirent_spec fill
      have hed : e.inode ≠ d := hinv.child_ne hd he hdot
      have herase : (tr.entries d).erase e = es1 ++ es2 := by
        have hmem : e ∉ es1 := fun hmem => hno (mem_map_of_mem hmem)
        rw [hes, erase_append_right _ hmem, erase_cons_head]
      rw [← herase] at hholds'
      rw [Bool.not_eq_true] at hfull
      simp only [hfull, Bool.not_false, Bool.not_true, Bool.false_eq_true, if_false,
        popInodeRefcount_eq (h.child_links hd he hdot) (h.child_inode hd he hdot),
        inodeList_setUsage, setInode_of_ne _ _ hed.symm, hremove, bind_some]
      refine ⟨_, rfl, h.unlink hinv hd he hdot rfl rfl ?_ ?_ (setInode_same _ _ _)
        hholds' hsame, hinv.unlink hd he hdot⟩
      · intro i hid hie
        rw [setInode_of_ne _ _ hid, inodeList_setUsage, setInode_of_ne _ _ hie]
      · rw [setInode_of_ne _ _ hed, inodeList_setUsage, setInode_same]

end

/-! ## Runs -/

/-- The relation that every call keeps. -/
def RepresentsInv (fs : Ramfs) (tr : Tree) : Prop := Represents fs tr ∧ TreeInv tr

theorem dirStep_simulates {call : DirCall} (h : Represents fs tr) (hinv : TreeInv tr)
    (hvalid : ValidDirCall fs call) : ∃ fs', dirStep fs call = some ((treeStep tr call).1, fs') ∧
      Represents fs' (treeStep tr call).2 ∧ TreeInv (treeStep tr call).2 := by
  obtain ⟨hfile, hd, hname⟩ := hvalid
  rw [h.isDirectory_iff] at hd
  cases call with
  | createFile dir name fills => exact createFile_simulates (fills 0) h hinv hfile hd hname
  | createDir dir name fills => exact createDir_simulates h hinv hfile hd fills rfl hname
  | unlink dir name fills => exact unlink_simulates (fills 0) h hinv hfile hd

theorem Tree.isDirectory_mounted : (mounted usage).IsDirectory d ↔ d = inodeRoot := by
  constructor
  · intro hd
    exact of_decide_eq_true hd.2
  · rintro rfl
    exact ⟨by simp [mounted], by simp [mounted]⟩

theorem isDot_of_mem_mounted (hd : (mounted usage).IsDirectory d) (he : e ∈ (mounted usage).entries d) : e.isDot = true := by
  rw [isDirectory_mounted] at hd
  subst hd
  exact isDot_of_mem_newEntries (show e ∈ newEntries .dir inodeRoot inodeRoot from he)

theorem treeInv_mounted (usage : ℕ → Bool) : TreeInv (.mounted usage) := by
  -- there is only the root directory, and all of its entries are `.` or `..`
  have hnone : ∀ {d e}, (mounted usage).IsDirectory d → e ∈ (mounted usage).entries d →
      e.isDot ≠ false := by
    intro d e hd he
    rw [isDot_of_mem_mounted hd he]
    decide
  refine ⟨?_, ?_, ?_, ?_, ?_, ?_⟩
  · intro d hd
    rw [isDirectory_mounted.mp hd]
    decide
  · intro d hd
    rw [isDirectory_mounted.mp hd]
    show ((newEntries .dir inodeRoot inodeRoot).map Entry.name).Nodup
    exact nodup_newEntries
  · exact fun hd he hdot => absurd hdot (hnone hd he)
  · exact fun hd he hdot => absurd hdot (hnone hd he)
  · exact fun hd he hdot => absurd hdot (hnone hd he)
  · exact fun hd _ he _ hdot => absurd hdot (hnone hd he)

theorem mount_represents (fills : ℕ → ℕ → UInt8) :
    ∃ fs, vfsRamfsMount .ok false usage (fun k => some (fills k)) = some (.ok, some fs) ∧
      Represents fs (.mounted usage) := by
  obtain ⟨root, hmount, hdots, hnew⟩ := mount_spec fills
  refine ⟨_, hmount, rfl, rfl, ?_, ?_, ?_, ?_⟩
  · intro i
    by_cases hi : i = inodeRoot
    · subst hi
      rw [setInode_same, hnew.hasType_eq, hasType_newInode]
      rfl
    · have hzero : Inode.zero.hasType .dir = false := by decide
      have hother : (mounted usage).isDir i = false := decide_eq_false hi
      rw [setInode_of_ne _ _ hi, hother]
      exact hzero
  · intro d hd
    rw [isDirectory_mounted.mp hd, setInode_same]
    exact hdots
  · intro d e hd he hdot
    rw [isDot_of_mem_mounted hd he] at hdot
    cases hdot
  · intro d e hd he hdot
    rw [isDot_of_mem_mounted hd he] at hdot
    cases hdot

/-- Every call of the sequence is made on a directory that the tree has by then. -/
def ValidCalls : Tree → List DirCall → Prop
  | _, [] => True
  | tr, call :: calls =>
    call.dir.ramfsFile = some call.dir.inode ∧ tr.IsDirectory call.dir.inode ∧
      ValidName call.name ∧ ValidCalls (treeStep tr call).2 calls

theorem exists_run {calls : List DirCall} (h : RepresentsInv fs tr) (hcalls : ValidCalls tr calls) :
    ∃ fs', Trace dirStep ValidDirCall fs calls (replay treeStep tr calls).1 fs' ∧
      RepresentsInv fs' (replay treeStep tr calls).2 := by
  induction calls generalizing fs tr with
  | nil => exact ⟨fs, .nil fs, h⟩
  | cons call calls ih =>
    obtain ⟨hfile, hd, hname, hrest⟩ := hcalls
    have hvalid : ValidDirCall fs call := ⟨hfile, h.1.isDirectory_iff.mpr hd, hname⟩
    obtain ⟨fs1, heq, hrep⟩ := dirStep_simulates h.1 h.2 hvalid
    obtain ⟨fs', hrun, hrep'⟩ := ih hrep hrest
    exact ⟨fs', .cons hvalid heq hrun, hrep'⟩

/-- The bytes of a directory are its entries, one after another as their size fields say. The
    names are distinct, and a lookup ends and finds a name with its inode exactly when there is
    an entry for it. -/
structure DirectoryOk (dir : Inode) (es : List Entry) : Prop where
  contents_eq : dir.contents = encodeAll es
  tiles : Tiles dir.buf dir.len 0 es
  nodup : (es.map Entry.name).Nodup
  lookup_none : ∀ name, name ∉ es.map Entry.name → findDirent dir name = some none
  lookup_some : ∀ e ∈ es, ∃ off, findDirent dir e.name = some (some off) ∧
    direntInode dir.buf off = e.inode

theorem HoldsEntries.directoryOk {dir : Inode} {es : List Entry} (h : HoldsEntries dir es)
    (hnodup : (es.map Entry.name).Nodup) : DirectoryOk dir es where
  contents_eq := h.contents_eq
  tiles := h.tiles
  nodup := hnodup
  lookup_none := by
    intro name hname
    rcases h.findDirent_spec name with ⟨hfind, _⟩ | ⟨es1, e, es2, rfl, rfl, _, _⟩
    · exact hfind
    · exact absurd (mem_map_of_mem (mem_append_right _ mem_cons_self)) hname
  lookup_some := by
    intro e he
    rcases h.findDirent_spec e.name with ⟨_, hmem⟩ | ⟨es1, e', es2, rfl, heq, _, hfind⟩
    · exact absurd (mem_map_of_mem he) hmem
    · have hmem : e' ∈ es1 ++ e' :: es2 := mem_append_right _ mem_cons_self
      obtain rfl := inj_on_of_nodup_map hnodup hmem he heq
      exact ⟨_, hfind, h.direntInode_mid⟩

/-- From a mounted filesystem, in every run of creations and unlinks with names of 1 to 255
    bytes and no failing allocation: the calls return what they return on the directory tree,
    every directory in use holds exactly the entries it has in the tree, in their order, and
    every further call returns. -/
theorem ramfs_directories {usage : ℕ → Bool} {fills : ℕ → ℕ → UInt8} {fs fs' : Ramfs}
    {calls : List DirCall} {outs : List Cause}
    (hmount : vfsRamfsMount .ok false usage (fun k => some (fills k)) = some (.ok, some fs))
    (hrun : Trace dirStep ValidDirCall fs calls outs fs') :
    outs = (replay treeStep (.mounted usage) calls).1 ∧
      (∀ d, fs'.IsDirectory d →
        DirectoryOk (fs'.inodeList d) ((replay treeStep (.mounted usage) calls).2.entries d)) ∧
      ∀ call, ValidDirCall fs' call → ∃ out fs'', dirStep fs' call = some (out, fs'') := by
  obtain ⟨fs₀, hmount₀, hrep₀⟩ := mount_represents fills
  obtain rfl : fs₀ = fs := by
    rw [hmount₀] at hmount
    exact some.inj (Prod.mk.inj (some.inj hmount)).2
  have hstep : ∀ {fs tr call out fs'}, RepresentsInv fs tr → ValidDirCall fs call →
      dirStep fs call = some (out, fs') →
      out = (treeStep tr call).1 ∧ RepresentsInv fs' (treeStep tr call).2 := by
    intro fs tr call out fs' hrep hvalid heq
    obtain ⟨fs₁, heq₁, hrep₁⟩ := dirStep_simulates hrep.1 hrep.2 hvalid
    rw [heq₁] at heq
    cases heq
    exact ⟨rfl, hrep₁⟩
  have hstart : RepresentsInv fs₀ (.mounted usage) := ⟨hrep₀, treeInv_mounted usage⟩
  obtain ⟨houts, hrep, hinv⟩ := hrun.simulates hstep hstart
  refine ⟨houts, ?_, ?_⟩
  · intro d hd
    rw [hrep.isDirectory_iff] at hd
    exact (hrep.holds hd).directoryOk (hinv.nodup hd)
  · intro call hvalid
    obtain ⟨fs₁, heq, _⟩ := dirStep_simulates hrep hinv hvalid
    exact ⟨_, fs₁, heq⟩

/-- A directory is made in the root and a file in it. The directory cannot be unlinked until
    the file is. -/
def twoLevelCalls : List DirCall :=
  let root : VfsFileShared := ⟨1, 0, 0, some inodeRoot, inodeRoot, some 0⟩
  let dir : VfsFileShared := ⟨1, 1, 0, some 2, 2, some 0⟩
  [.createDir root [97] fun _ _ => 0, .createFile dir [98] fun _ _ => 0,
    .unlink root [97] fun _ _ => 0, .unlink dir [98] fun _ _ => 0]

theorem validCalls_twoLevelCalls : ValidCalls (.mounted fun _ => false) twoLevelCalls :=
  ⟨rfl, ⟨by decide, by decide⟩, validName_singleton (by decide),
    rfl, ⟨by decide, by decide⟩, validName_singleton (by decide),
    rfl, ⟨by decide, by decide⟩, validName_singleton (by decide),
    rfl, ⟨by decide, by decide⟩, validName_singleton (by decide), trivial⟩

theorem ramfs_directories_two_levels :
    ∃ fs fs', vfsRamfsMount .ok false (fun _ => false) (fun _ => some fun _ => 0) =
        some (.ok, some fs) ∧
      Trace dirStep ValidDirCall fs twoLevelCalls [.ok, .ok, .notempty, .ok] fs' ∧
      DirectoryOk (fs'.inodeList inodeRoot)
        [⟨dot, inodeRoot⟩, ⟨dotdot, inodeRoot⟩, ⟨[97], 2⟩] := by
  obtain ⟨fs, hmount, hrep⟩ := mount_represents fun _ _ => 0
  obtain ⟨fs', hrun, hrep', _⟩ := exists_run ⟨hrep, treeInv_mounted _⟩ validCalls_twoLevelCalls
  obtain ⟨_, hdirs, _⟩ := ramfs_directories hmount hrun
  have houts : (replay treeStep (.mounted fun _ => false) twoLevelCalls).1 =
      [.ok, .ok, .notempty, .ok] := by
    decide
  have hroot : (replay treeStep (.mounted fun _ => false) twoLevelCalls).2.entries inodeRoot =
      [⟨dot, inodeRoot⟩, ⟨dotdot, inodeRoot⟩, ⟨[97], 2⟩] := by
    decide
  have hd : fs'.IsDirectory inodeRoot :=
    hrep'.isDirectory_iff.mpr ⟨by decide, by decide⟩
  rw [houts] at hrun
  refine ⟨fs, fs', hmount, hrun, ?_⟩
  rw [← hroot]
  exact hdirs inodeRoot hd

end

end BadgerOS.Filesystem

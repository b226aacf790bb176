import BadgerOS.Filesystem.Dirents
import BadgerOS.Filesystem.Vfs

/-!
# The directory tree behind the open files

* `DirTree.lookup`: the inode that a directory gives to a name.
* `Searchable`, `HoldsTree`: the inodes of a RAMFS hold the entries of a directory tree.
* `FsSame`: opening and closing changes link counts, and may free inodes, but no file.
* `Searchable.find_spec`: what a search in a directory finds.
* `vfsFileOpen_plain`: opening a file that is there.
-/

namespace BadgerOS.Filesystem

open Function List

/-- The entries of the directories. -/
abbrev DirTree := ℕ → List Entry

/-- The inode that directory `d` gives to a name. -/
def DirTree.lookup (tree : DirTree) (d : ℕ) (name : List UInt8) : Option ℕ :=
  ((tree d).find? (·.name = name)).map Entry.inode

/-- The inode is a directory. -/
def Ramfs.isDir (fs : Ramfs) (d : ℕ) : Bool := (fs.inodeList d).hasType .dir

/-- The inodes of `dirs` hold the entries of the tree, whose inodes know their numbers. -/
structure Searchable (fs : Ramfs) (dirs : ℕ → Bool) (tree : DirTree) : Prop where
  holds : ∀ d, dirs d = true → HoldsEntries (fs.inodeList d) (tree d)
  entry_inode : ∀ d, dirs d = true → ∀ e ∈ tree d,
    (fs.inodeList e.inode).inode = e.inode ∧ e.inode ≠ 0
  root : dirs inodeRoot = true

/-- The directories of the filesystem hold the entries of the tree. -/
structure HoldsTree (fs : Ramfs) (tree : DirTree) : Prop extends Searchable fs fs.isDir tree where
  len_le : fs.inodeListLen ≤ 2 ^ 64
  dir_lt : ∀ d, fs.isDir d = true → d < fs.inodeListLen

/-! ## Opening and closing leaves the files as they are -/

/-- The filesystems differ in link counts, and in inodes that have been freed. -/
structure FsSame (fs fs' : Ramfs) : Prop where
  inode_eq : ∀ k, ∃ links, fs'.inodeList k = { fs.inodeList k with links := links }
  usage : ∀ k, fs'.inodeUsage k = true → fs.inodeUsage k = true
  len_eq : fs'.inodeListLen = fs.inodeListLen

namespace FsSame

variable {fs fs' fs'' : Ramfs}

theorem refl (fs : Ramfs) : FsSame fs fs := ⟨fun _ => ⟨_, rfl⟩, fun _ => id, rfl⟩

theorem trans (h : FsSame fs fs') (h' : FsSame fs' fs'') : FsSame fs fs'' where
  inode_eq k := by
    obtain ⟨links, heq⟩ := h.inode_eq k
    obtain ⟨links', heq'⟩ := h'.inode_eq k
    exact ⟨links', by rw [heq', heq]⟩
  usage k hk := h.usage k (h'.usage k hk)
  len_eq := h'.len_eq.trans h.len_eq

theorem setLinks (fs : Ramfs) (i links : ℕ) : FsSame fs (fs.setInode i { fs.inodeList i with links := links }) where
  inode_eq k := by
    by_cases hk : k = i
    · rw [hk, setInode_same]
      exact ⟨links, rfl⟩
    · rw [setInode_of_ne _ _ hk]
      exact ⟨_, rfl⟩
  usage _ := id
  len_eq := rfl

theorem link (fs : Ramfs) (i : ℕ) : FsSame fs (fs.setInode i (fs.inodeList i).link) := setLinks fs i _

theorem free (fs : Ramfs) (i : ℕ) : FsSame fs (fs.setUsage i false) where
  inode_eq k := ⟨_, rfl⟩
  usage k hk := by
    by_cases heq : k = i
    · subst heq
      simp only [Ramfs.setUsage, update_self, Bool.false_eq_true] at hk
    · simpa only [Ramfs.setUsage, update_of_ne heq] using hk
  len_eq := rfl

theorem pop (fs : Ramfs) (i : ℕ) : FsSame fs (popInodeRefcount fs i) := by
  simp only [popInodeRefcount]
  split_ifs
  · exact (setLinks fs i _).trans (free _ _)
  · exact setLinks fs i _

section

variable (h : FsSame fs fs')

include h

theorem hasType_eq (k : ℕ) (type : FileType) : (fs'.inodeList k).hasType type = (fs.inodeList k).hasType type := by
  obtain ⟨links, heq⟩ := h.inode_eq k
  rw [heq, Inode.hasType, Inode.hasType]

theorem isDir_eq : fs'.isDir = fs.isDir := funext fun k => h.hasType_eq k .dir

theorem len_inode (k : ℕ) : (fs'.inodeList k).len = (fs.inodeList k).len := by
  obtain ⟨links, heq⟩ := h.inode_eq k
  rw [heq]

theorem findInode_isSome (hfree : (findInode fs).isSome = true) : (findInode fs').isSome = true := by
  rw [findInode, find?_isSome] at hfree ⊢
  obtain ⟨i, hi, hfree⟩ := hfree
  refine ⟨i, h.len_eq ▸ hi, ?_⟩
  rw [Bool.not_eq_true'] at hfree ⊢
  exact Bool.eq_false_iff.mpr fun hused => Bool.false_ne_true (hfree.symm.trans (h.usage i hused))

theorem holdsEntries {k : ℕ} {es : List Entry} (hk : HoldsEntries (fs.inodeList k) es) :
    HoldsEntries (fs'.inodeList k) es := by
  obtain ⟨links, heq⟩ := h.inode_eq k
  rw [heq]
  exact ⟨⟨hk.wf.len_le_cap, hk.wf.length_buf, hk.wf.len_lt⟩, hk.contents_eq, hk.valid⟩

theorem searchable {dirs : ℕ → Bool} {tree : DirTree} (htree : Searchable fs dirs tree) :
    Searchable fs' dirs tree where
  holds d hd := h.holdsEntries (htree.holds d hd)
  entry_inode d hd e he := by
    obtain ⟨links, heq⟩ := h.inode_eq e.inode
    rw [heq]
    exact htree.entry_inode d hd e he
  root := htree.root

theorem holdsTree {tree : DirTree} (htree : HoldsTree fs tree) : HoldsTree fs' tree where
  toSearchable := h.isDir_eq ▸ h.searchable htree.toSearchable
  len_le := h.len_eq ▸ htree.len_le
  dir_lt d hd := h.len_eq ▸ htree.dir_lt d (h.isDir_eq ▸ hd)

end

end FsSame

/-! ## Searching a directory -/

/-- The `dirent_t` of the entry that gives `name` to inode `j`. -/
structure EntFor (fs : Ramfs) (name : List UInt8) (j : ℕ) (ent : DirentT) : Prop where
  inode_eq : ent.inode = j
  isDir_eq : ent.isDir = (fs.inodeList j).hasType .dir
  name_eq : ent.name = name

/-- The shared handle is open on inode `i` of the root filesystem. -/
structure Opened (file : VfsFileShared) (i : ℕ) : Prop where
  vfs : file.vfs = some rootVfs
  ramfsFile : file.ramfsFile = some i
  inode : file.inode = i

theorem DirTree.lookup_eq_none {tree : DirTree} {d : ℕ} {name : List UInt8} :
    tree.lookup d name = none ↔ name ∉ (tree d).map Entry.name := by
  rw [DirTree.lookup, Option.map_eq_none_iff, find?_eq_none]
  constructor
  · intro h hmem
    obtain ⟨e, he, heq⟩ := mem_map.mp hmem
    exact h e he (decide_eq_true heq)
  · intro h e he heq
    exact h (mem_map.mpr ⟨e, he, of_decide_eq_true heq⟩)

section

variable {fs : Ramfs} {dirs : ℕ → Bool} {tree : DirTree} {d : ℕ} {file : VfsFileShared}
  {name : List UInt8}

theorem find_name_eq {e : Entry} {es1 : List Entry} (es2 : List Entry) (h : e.name ∉ es1.map Entry.name) :
    (es1 ++ e :: es2).find? (fun e' => decide (e'.name = e.name)) = some e := by
  rw [find?_append, find?_eq_none.mpr, Option.none_or, find?_cons_of_pos (by simp)]
  intro e' he' hname
  exact h (mem_map.mpr ⟨e', he', of_decide_eq_true hname⟩)

theorem Searchable.find_spec (h : Searchable fs dirs tree) (hd : dirs d = true) (name : List UInt8) :
    (tree.lookup d name = none ∧ findDirent (fs.inodeList d) name = some none) ∨
      ∃ j off, tree.lookup d name = some j ∧ findDirent (fs.inodeList d) name = some (some off) ∧
        direntInode (fs.inodeList d).buf off = j ∧
        EntFor fs name j (convertDirent fs (fs.inodeList d).buf off) ∧
        (fs.inodeList j).inode = j ∧ j ≠ 0 := by
  have hes := h.holds d hd
  rcases hes.findDirent_spec name with ⟨hfind, hmem⟩ | ⟨es1, e, es2, heq, rfl, hmem, hfind⟩
  · refine .inl ⟨?_, hfind⟩
    exact DirTree.lookup_eq_none.mpr hmem
  · have hlookup : tree.lookup d e.name = some e.inode := by
      rw [DirTree.lookup, heq, find_name_eq _ hmem, Option.map_some]
    have hmid : HoldsEntries (fs.inodeList d) (es1 ++ e :: es2) := heq ▸ hes
    have hinode := hmid.direntInode_mid
    have hentry := h.entry_inode d hd e (by rw [heq]; simp)
    refine .inr ⟨e.inode, _, hlookup, hfind, hinode, ⟨hinode, ?_, ?_⟩, hentry.1, hentry.2⟩
    · rw [convertDirent, hinode]
    · exact direntName_eq hmid.valid_of_mid hmid.drop_mid

theorem Searchable.findEnt_spec (h : Searchable fs dirs tree) (hd : dirs d = true)
    (hfile : file.ramfsFile = some d) (name : List UInt8) :
    (tree.lookup d name = none ∧ vfsRamfsDirFindEnt fs file name = some none) ∨
      ∃ j ent, tree.lookup d name = some j ∧ vfsRamfsDirFindEnt fs file name = some (some ent) ∧
        EntFor fs name j ent ∧ j ≠ 0 := by
  rcases h.find_spec hd name with ⟨hnone, hfind⟩ | ⟨j, off, hsome, hfind, _, hent, _, hj⟩
  · refine .inl ⟨hnone, ?_⟩
    simp [vfsRamfsDirFindEnt, hfile, hfind]
  · refine .inr ⟨j, _, hsome, ?_, hent, hj⟩
    simp [vfsRamfsDirFindEnt, hfile, hfind]

/-! ## Opening -/

/-- The shared handle that `vfs_ramfs_file_open` leaves. -/
def openedShared (file : VfsFileShared) (i : ℕ) (inode : Inode) : VfsFileShared :=
  { file with
    ramfsFile := some i
    inode := inode.inode
    vfs := some rootVfs
    refcount := 1
    size := Int64.ofNat inode.len }

theorem opened_openedShared {i : ℕ} {inode : Inode} (h : inode.inode = i) :
    Opened (openedShared file i inode) i := ⟨rfl, rfl, h⟩

theorem vfsRamfsFileOpen_eq {dir : VfsFileShared} {off : ℕ} (hdir : dir.ramfsFile = some d)
    (hfind : findDirent (fs.inodeList d) name = some (some off)) :
    vfsRamfsFileOpen fs rootVfs dir file name = some (.ok,
      fs.setInode (direntInode (fs.inodeList d).buf off)
        (fs.inodeList (direntInode (fs.inodeList d).buf off)).link,
      openedShared file (direntInode (fs.inodeList d).buf off)
        (fs.inodeList (direntInode (fs.inodeList d).buf off))) := by
  simp only [vfsRamfsFileOpen, hdir, Option.bind_eq_bind, Option.bind_some, hfind, Option.pure_def]
  rfl

/-- The state with shared handle `p` open on inode `j`. -/
def withOpened (v : Vfs) (p j : ℕ) : Vfs :=
  { v.setShared p (openedShared (v.heap p) j (v.fs.inodeList j)) with
    fs := v.fs.setInode j (v.fs.inodeList j).link }

theorem withOpened_heap_self (v : Vfs) (p j : ℕ) : (withOpened v p j).heap p =
    openedShared (v.heap p) j (v.fs.inodeList j) := update_self ..

theorem withOpened_heap_of_ne (v : Vfs) {p q : ℕ} (j : ℕ) (h : q ≠ p) : (withOpened v p j).heap q = v.heap q := update_of_ne h ..

theorem vfsFileOpen_found {v v1 : Vfs} {c p off : ℕ} {oflags : UInt32}
    (hcreate : createTarget v c name oflags = some (.ok, v1)) (hvfs : (v.heap c).vfs = some rootVfs)
    (hc : (v1.heap c).ramfsFile = some d)
    (hfind : findDirent (v1.fs.inodeList d) name = some (some off)) :
    vfsFileOpen v c p name oflags =
      some (.ok, withOpened v1 p (direntInode (v1.fs.inodeList d).buf off)) := by
  simp only [vfsFileOpen, hvfs, Option.bind_eq_bind, Option.bind_some, hcreate, ne_eq,
    not_true_eq_false, if_false, vfsRamfsFileOpen_eq hc hfind, Option.pure_def]
  rfl

theorem vfsFileOpen_plain {v : Vfs} {c p off : ℕ} (hc : Opened (v.heap c) d)
    (hfind : findDirent (v.fs.inodeList d) name = some (some off)) : vfsFileOpen v c p name 0 =
      some (.ok, withOpened v p (direntInode (v.fs.inodeList d).buf off)) :=
  vfsFileOpen_found rfl hc.vfs hc.ramfsFile hfind

end

/-! ## A fresh filesystem -/

/-- The tables at boot: no file is open. -/
def bootVfs (fs : Ramfs) (mems : ℕ → Realloc) : Vfs :=
  ⟨fs, fun _ => emptyShared 0, 0, [], 0, [], 0, 0, mems⟩

/-- The directory tree of a fresh filesystem. -/
def mountedTree : DirTree := fun d =>
  if d = inodeRoot then [⟨dot, inodeRoot⟩, ⟨dotdot, inodeRoot⟩] else []

theorem holdsTree_mounted (usage : ℕ → Bool) (fills : ℕ → ℕ → UInt8) :
    ∃ fs, vfsRamfsMount .ok false usage (fun k => some (fills k)) = some (.ok, some fs) ∧
      HoldsTree fs mountedTree := by
  obtain ⟨root, hmount, hdots, hnew⟩ := mount_spec fills
  refine ⟨_, hmount, ?_⟩
  generalize hfs : (⟨fun _ => .zero, update (fun i => if i < 30 then false else usage i)
    inodeRoot true, 32⟩ : Ramfs) = fs
  have hlen : fs.inodeListLen = 32 := hfs ▸ rfl
  have hother : ∀ d, d ≠ inodeRoot → (fs.setInode inodeRoot root).isDir d = false := by
    intro d hd
    rw [Ramfs.isDir, setInode_of_ne _ _ hd, ← hfs]
    exact (by decide : Inode.zero.hasType .dir = false)
  have hroot : ∀ {d}, (fs.setInode inodeRoot root).isDir d = true → d = inodeRoot := by
    intro d hd
    by_contra hne
    rw [hother d hne] at hd
    cases hd
  refine ⟨⟨?_, ?_, ?_⟩, ?_, ?_⟩
  · intro d hd
    rw [hroot hd, setInode_same]
    exact hdots
  · intro d hd e he
    rw [hroot hd] at he
    have hinode : e.inode = inodeRoot := by
      simp only [mountedTree, if_true, mem_cons, not_mem_nil, or_false] at he
      rcases he with rfl | rfl <;> rfl
    rw [hinode, setInode_same, hnew.inode_eq]
    exact ⟨rfl, by decide⟩
  · rw [Ramfs.isDir, setInode_same, hnew.hasType_eq, hasType_newInode]
    rfl
  · exact hlen.trans_le (by norm_num)
  · intro d hd
    rw [hroot hd]
    exact (by decide : inodeRoot < 32).trans_eq hlen.symm

/-! ## A filesystem that holds a tree -/

/-- A directory with the given entries. -/
def dirInode (j : ℕ) (es : List Entry) : Inode :=
  { newInode j .dir with
    len := (encodeAll es).length
    cap := (encodeAll es).length
    buf := encodeAll es }

/-- The filesystem with `n` inodes in which `dirs` are directories with the entries of a tree and
    the others are empty regular files. The inodes from `free` on are free. -/
def Ramfs.ofTree (dirs : ℕ → Bool) (tree : DirTree) (free n : ℕ) : Ramfs :=
  ⟨fun k => if dirs k then dirInode k (tree k) else newInode k .reg, fun k => k < free, n⟩

section

variable {dirs : ℕ → Bool} {tree : DirTree} {free n : ℕ}

theorem isDir_ofTree : (Ramfs.ofTree dirs tree free n).isDir = dirs := by
  funext k
  show (if dirs k then dirInode k (tree k) else newInode k .reg).hasType .dir = dirs k
  cases dirs k with
  | true => exact hasType_newInode k .dir
  | false => exact hasType_newInode k .reg

theorem inode_ofTree (k : ℕ) : ((Ramfs.ofTree dirs tree free n).inodeList k).inode = k := by
  show (if dirs k then dirInode k (tree k) else newInode k .reg).inode = k
  cases dirs k <;> rfl

theorem holdsTree_ofTree (hroot : dirs inodeRoot = true) (hvalid : ∀ d, dirs d = true → ∀ e ∈ tree d, e.Valid ∧ e.inode ≠ 0)
    (hlen : ∀ d, dirs d = true → (tree d).length ≤ 2 ^ 32) (hn : n ≤ 2 ^ 64)
    (hdirs : ∀ d, dirs d = true → d < n) : HoldsTree (Ramfs.ofTree dirs tree free n) tree where
  holds d hd := by
    rw [isDir_ofTree] at hd
    have heq : (Ramfs.ofTree dirs tree free n).inodeList d = dirInode d (tree d) := if_pos hd
    have hle := length_encodeAll_le fun e he => (hvalid d hd e he).1
    have hcount := hlen d hd
    rw [heq]
    refine ⟨⟨le_rfl, rfl, ?_⟩, take_length, fun e he => (hvalid d hd e he).1⟩
    show (encodeAll (tree d)).length < 2 ^ 63
    omega
  entry_inode d hd e he := by
    rw [isDir_ofTree] at hd
    exact ⟨inode_ofTree e.inode, (hvalid d hd e he).2⟩
  root := isDir_ofTree ▸ hroot
  len_le := hn
  dir_lt d hd := by
    rw [isDir_ofTree] at hd
    exact hdirs d hd

end

/-- The directories `/d` and `/d/e`. -/
def nestedDirs (d : ℕ) : Bool := d = 1 || d = 2 || d = 3

/-- The entries of the directories `/`, `/d` and `/d/e`. -/
def nestedTree : DirTree := fun d =>
  match d with
  | 1 => [⟨dot, 1⟩, ⟨dotdot, 1⟩, ⟨[100], 2⟩]
  | 2 => [⟨dot, 2⟩, ⟨dotdot, 1⟩, ⟨[101], 3⟩]
  | 3 => [⟨dot, 3⟩, ⟨dotdot, 2⟩]
  | _ => []

/-- A filesystem with the directories `/d` and `/d/e`. -/
def nestedFs : Ramfs := .ofTree nestedDirs nestedTree 4 32

theorem holdsTree_nestedFs : HoldsTree nestedFs nestedTree := by
  have hdirs : ∀ {d}, nestedDirs d = true → d = 1 ∨ d = 2 ∨ d = 3 := by
    intro d hd
    simpa [nestedDirs, or_assoc] using hd
  refine holdsTree_ofTree rfl ?_ ?_ (by norm_num) ?_
  · intro d hd e he
    have hlt : ∀ {j : ℕ}, 0 < j ∧ j < 4 → j < 2 ^ 64 ∧ j ≠ 0 := fun hj => by omega
    have hname : ∀ {b : UInt8} {j : ℕ}, b ≠ 0 → 0 < j ∧ j < 4 → Entry.Valid ⟨[b], j⟩ ∧ j ≠ 0 :=
      fun hb hj => ⟨⟨validName_singleton hb, (hlt hj).1⟩, (hlt hj).2⟩
    have hdots : ∀ {j : ℕ}, 0 < j ∧ j < 4 → Entry.Valid ⟨dotdot, j⟩ ∧ j ≠ 0 :=
      fun hj => ⟨⟨validName_dotdot, (hlt hj).1⟩, (hlt hj).2⟩
    rcases hdirs hd with rfl | rfl | rfl <;>
      simp only [nestedTree, mem_cons, not_mem_nil, or_false] at he
    · rcases he with rfl | rfl | rfl
      · exact hname (by decide) (by decide)
      · exact hdots (by decide)
      · exact hname (by decide) (by decide)
    · rcases he with rfl | rfl | rfl
      · exact hname (by decide) (by decide)
      · exact hdots (by decide)
      · exact hname (by decide) (by decide)
    · rcases he with rfl | rfl
      · exact hname (by decide) (by decide)
      · exact hdots (by decide)
  · intro d hd
    rcases hdirs hd with rfl | rfl | rfl <;> decide
  · intro d hd
    have := hdirs hd
    omega

end BadgerOS.Filesystem

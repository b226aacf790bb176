import BadgerOS.Filesystem.RamfsDirectories
import BadgerOS.Filesystem.VfsOpen
import BadgerOS.Lib.Run
import Mathlib

/-!
# Link counts of the RAM filesystem

`links` of an inode is raised by `create_file`, `vfs_ramfs_root_open` and
`vfs_ramfs_file_open`, and lowered by `vfs_ramfs_unlink` and `vfs_ramfs_file_close`; the inode
is given up when it reaches zero (filesystem/vfs_ramfs.c 51–68, 114–168, 269–353, 452–510).
The state here is a mounted filesystem with the shared handles that are open on it. No
allocation fails.

* `LinksOk`: the link count of every inode is the number of names it has plus the number of
  times it is open, plus one for the root; the inode is in use exactly when the count is
  positive; what a linked directory or an open file refers to is in use.
* `Layout`, `Fits`: the directories as `vfs_ramfs_create_dir` lays them out, `.` and `..` first.
* `Fits.open`, `Fits.close`, `Fits.create`, `Fits.unlink`: what the changes of an inode's
  links keep.
-/

namespace BadgerOS.Filesystem

open Function List

/-! ## The entries of a directory -/

/-- The entries in a buffer of `len` bytes from `off` on. -/
def readEntries (buf : List UInt8) (len : ℕ) : ℕ → ℕ → List Entry
  | 0, _ => []
  | rounds + 1, off =>
    if off < len then
      ⟨direntName buf off, direntInode buf off⟩ ::
        readEntries buf len rounds (off + direntSize buf off)
    else []

/-- The entries of a directory. -/
def Inode.entries (dir : Inode) : List Entry := readEntries dir.buf dir.len (dir.len + 1) 0

variable {es : List Entry}

theorem Tiles.readEntries_eq {buf : List UInt8} {len off rounds : ℕ} (h : Tiles buf len off es)
    (hrounds : es.length < rounds) : readEntries buf len rounds off = es := by
  induction es generalizing off rounds with
  | nil =>
    have hoff : off = len := h
    obtain ⟨rounds, rfl⟩ : ∃ r, rounds = r + 1 := ⟨rounds - 1, by simp at hrounds; omega⟩
    rw [readEntries, if_neg (by omega)]
  | cons e es ih =>
    have hle := h.length_le
    rw [length_cons] at hle hrounds
    obtain ⟨hinode, _, hname, _, _, htail⟩ := h
    obtain ⟨rounds, rfl⟩ : ∃ r, rounds = r + 1 := ⟨rounds - 1, by omega⟩
    rw [readEntries, if_pos (by omega), ih htail (by omega), hinode, hname]

theorem HoldsEntries.entries_eq {dir : Inode} (h : HoldsEntries dir es) : dir.entries = es := by
  have hle := h.tiles.length_le
  exact h.tiles.readEntries_eq (by omega)

namespace Ramfs

/-- `d` is a directory of the inode table that is in use. -/
def HasDir (fs : Ramfs) (d : ℕ) : Prop := d < fs.inodeListLen ∧ fs.IsDirectory d

instance (fs : Ramfs) : DecidablePred fs.HasDir := fun _ =>
  inferInstanceAs (Decidable (_ ∧ _ ∧ _))

/-- The number of entries other than `.` and `..` that name inode `i`. -/
def names (fs : Ramfs) (i : ℕ) : ℕ :=
  ∑ d ∈ Finset.range fs.inodeListLen,
    if fs.HasDir d then (fs.inodeList d).entries.countP fun e => !e.isDot && e.inode = i else 0

/-- The directory is the root or has a name. -/
def IsLinked (fs : Ramfs) (d : ℕ) : Prop := d = inodeRoot ∨ 0 < fs.names d

instance (fs : Ramfs) : DecidablePred fs.IsLinked := fun _ =>
  inferInstanceAs (Decidable (_ ∨ _))

end Ramfs

/-! ## Calls -/

/-- A filesystem, the shared handles by their addresses, and those that are open. An address
    counts words of 8 bytes. -/
structure LinkState where
  fs : Ramfs
  heap : ℕ → VfsFileShared
  opened : List ℕ

/-- The number of times that inode `i` is open. -/
def LinkState.opens (s : LinkState) (i : ℕ) : ℕ :=
  s.opened.countP fun file => (s.heap file).ramfsFile = some i

/-- The calls on a filesystem with the number `vfs`, on shared handles given by their addresses.
    `fills` is what the calls of `realloc` leave in new bytes. -/
inductive LinkCall
  | createFile (dir : ℕ) (name : List UInt8) (fills : ℕ → ℕ → UInt8)
  | createDir (dir : ℕ) (name : List UInt8) (fills : ℕ → ℕ → UInt8)
  | unlink (dir : ℕ) (name : List UInt8) (fills : ℕ → ℕ → UInt8)
  | rootOpen (vfs file : ℕ)
  | fileOpen (vfs dir file : ℕ) (name : List UInt8)
  | close (file : ℕ)

/-- What a call does. A handle is open once the call that opens it has succeeded. -/
def linkStep (s : LinkState) : LinkCall → Option LinkState
  | .createFile dir name fills =>
    (vfsRamfsCreateFile s.fs (s.heap dir) name (some (fills 0))).map fun r => { s with fs := r.2 }
  | .createDir dir name fills =>
    (vfsRamfsCreateDir s.fs (s.heap dir) name fun k => some (fills k)).map fun r =>
      { s with fs := r.2 }
  | .unlink dir name fills =>
    (vfsRamfsUnlink s.fs (s.heap dir) name (some (fills 0))).map fun r => { s with fs := r.2 }
  | .rootOpen vfs file =>
    let (_, fs, shared) := vfsRamfsRootOpen s.fs vfs (s.heap file)
    some ⟨fs, update s.heap file shared, file :: s.opened⟩
  | .fileOpen vfs dir file name =>
    (vfsRamfsFileOpen s.fs vfs (s.heap dir) (s.heap file) name).map fun (ec, fs, shared) =>
      ⟨fs, update s.heap file shared,
        if ec = .ok then file :: s.opened else s.opened⟩
  | .close file =>
    (vfsRamfsFileClose s.fs (s.heap file)).map fun (fs, shared) =>
      ⟨fs, update s.heap file shared, s.opened.erase file⟩

/-- The handle at `dir` is open on directory `d`. -/
def LinkState.OpenDir (s : LinkState) (dir d : ℕ) : Prop :=
  dir ∈ s.opened ∧ (s.heap dir).ramfsFile = some d ∧ s.fs.HasDir d

/-- There is no open handle at `file`. -/
def LinkState.FreshHandle (s : LinkState) (file : ℕ) : Prop := file ∉ s.opened ∧ file < 2 ^ 61

/-- The calls are made on open directories with names of 1 to 255 bytes, a handle is opened once
    before it is closed, and files are created in linked directories. -/
def LinkCall.Valid (s : LinkState) : LinkCall → Prop
  | .createFile dir name _ | .createDir dir name _ =>
    (∃ d < s.fs.inodeListLen, s.OpenDir dir d ∧ s.fs.IsLinked d) ∧ ValidName name
  | .unlink dir name _ => (∃ d < s.fs.inodeListLen, s.OpenDir dir d) ∧ ValidName name
  | .rootOpen _ file => s.FreshHandle file
  | .fileOpen _ dir file name =>
    (∃ d < s.fs.inodeListLen, s.OpenDir dir d) ∧ ValidName name ∧ s.FreshHandle file
  | .close file => file ∈ s.opened

/-- Files are opened in linked directories. -/
def LinkCall.OpensLinked (s : LinkState) : LinkCall → Prop
  | .fileOpen _ dir _ _ =>
    ∃ d < s.fs.inodeListLen, (s.heap dir).ramfsFile = some d ∧ s.fs.IsLinked d
  | _ => True

instance (name : List UInt8) : Decidable (ValidName name) :=
  decidable_of_iff (0 < name.length ∧ name.length ≤ nameMax ∧ ∀ b ∈ name, b ≠ 0)
    ⟨fun h => ⟨h.1, h.2.1, h.2.2⟩, fun h => ⟨h.1, h.2, h.3⟩⟩

instance (s : LinkState) (dir d : ℕ) : Decidable (s.OpenDir dir d) :=
  inferInstanceAs (Decidable (_ ∧ _ ∧ _))

instance (s : LinkState) (file : ℕ) : Decidable (s.FreshHandle file) :=
  inferInstanceAs (Decidable (_ ∧ _))

instance (s : LinkState) : (call : LinkCall) → Decidable (call.Valid s)
  | .createFile .. | .createDir .. | .unlink .. | .fileOpen .. =>
    inferInstanceAs (Decidable (_ ∧ _))
  | .rootOpen _ file => inferInstanceAs (Decidable (s.FreshHandle file))
  | .close file => inferInstanceAs (Decidable (file ∈ s.opened))

instance (s : LinkState) : (call : LinkCall) → Decidable (call.OpensLinked s)
  | .fileOpen .. => inferInstanceAs (Decidable (∃ d < _, _))
  | .createFile .. | .createDir .. | .unlink .. | .rootOpen .. | .close .. =>
    inferInstanceAs (Decidable True)

/-! ## The property -/

/-- What the link count of an inode should be. -/
def LinkState.count (s : LinkState) (i : ℕ) : ℕ :=
  s.fs.names i + s.opens i + if i = inodeRoot then 1 else 0

/-- The link counts are right, the inodes in use are those with a positive count, and nothing
    refers to an inode that is not in use: such an inode may have been freed, and is what
    `find_inode` takes for a new file. -/
structure LinksOk (s : LinkState) : Prop where
  links_eq : ∀ {i}, i < s.fs.inodeListLen → (s.fs.inodeList i).links = s.count i
  used_iff : ∀ {i}, i < s.fs.inodeListLen → (s.fs.inodeUsage i = true ↔ 0 < s.count i)
  entry_used : ∀ {d e}, s.fs.HasDir d → s.fs.IsLinked d → e ∈ (s.fs.inodeList d).entries →
    e.inode < s.fs.inodeListLen ∧ s.fs.inodeUsage e.inode = true
  open_used : ∀ {file}, file ∈ s.opened → ∃ i, (s.heap file).ramfsFile = some i ∧
    i < s.fs.inodeListLen ∧ s.fs.inodeUsage i = true
  entry_fresh : ∀ {d e}, s.fs.HasDir d → s.fs.IsLinked d → e ∈ (s.fs.inodeList d).entries →
    findInode s.fs ≠ some e.inode
  open_fresh : ∀ {file}, file ∈ s.opened → (s.heap file).ramfsFile ≠ findInode s.fs

/-! ## The layout of the directories -/

/-- What every directory holds: its parent under `..`, and its entries but `.` and `..`. -/
structure Layout where
  parent : ℕ → ℕ
  files : ℕ → List Entry

namespace Layout

/-- The entries of a directory. -/
def entries (l : Layout) (d : ℕ) : List Entry := ⟨dot, d⟩ :: ⟨dotdot, l.parent d⟩ :: l.files d

/-- The number of names of inode `i` in the first `n` directories. -/
def names (l : Layout) (n i : ℕ) : ℕ :=
  ∑ d ∈ Finset.range n, ((l.files d).map Entry.inode).count i

/-- A new inode in directory `d`. -/
def create (l : Layout) (d : ℕ) (name : List UInt8) (j : ℕ) : Layout where
  parent := update l.parent j d
  files := update l.files d (l.files d ++ [⟨name, j⟩])

/-- The entries of directory `d` replaced. -/
def setFiles (l : Layout) (d : ℕ) (files : List Entry) : Layout :=
  { l with files := update l.files d files }

variable {l : Layout} {n d i : ℕ}

theorem names_pos_iff : 0 < l.names n i ↔ ∃ d < n, ∃ e ∈ l.files d, e.inode = i := by
  simp only [names, Finset.sum_pos_iff, Finset.mem_range, count_pos_iff, mem_map]

theorem names_congr {l' : Layout} {es : List Entry} (hd : d < n)
    (h : l'.files = update l.files d es) : l'.names n i + ((l.files d).map Entry.inode).count i =
      l.names n i + (es.map Entry.inode).count i := by
  have hmem : d ∈ Finset.range n := Finset.mem_range.mpr hd
  have hrest : ∑ k ∈ (Finset.range n).erase d, ((l'.files k).map Entry.inode).count i =
      ∑ k ∈ (Finset.range n).erase d, ((l.files k).map Entry.inode).count i := by
    refine Finset.sum_congr rfl fun k hk => ?_
    rw [h, update_of_ne (Finset.ne_of_mem_erase hk)]
  rw [names, names, ← Finset.add_sum_erase _ _ hmem, ← Finset.add_sum_erase (Finset.range n)
    (fun k => ((l.files k).map Entry.inode).count i) hmem, hrest, h, update_self]
  omega

theorem names_create {j : ℕ} {name : List UInt8} (hd : d < n) :
    (l.create d name j).names n i = l.names n i + if i = j then 1 else 0 := by
  have h : (l.create d name j).names n i + ((l.files d).map Entry.inode).count i =
      l.names n i + ((l.files d ++ [Entry.mk name j]).map Entry.inode).count i := names_congr hd rfl
  rw [map_append, count_append, map_singleton, count_singleton] at h
  simp only [beq_iff_eq, eq_comm (a := j)] at h
  omega

theorem names_setFiles {es1 es2 : List Entry} {e : Entry} (hd : d < n) (h : l.files d = es1 ++ e :: es2) :
    (l.setFiles d (es1 ++ es2)).names n i + (if i = e.inode then 1 else 0) = l.names n i := by
  have h' : (l.setFiles d (es1 ++ es2)).names n i + ((l.files d).map Entry.inode).count i =
      l.names n i + ((es1 ++ es2).map Entry.inode).count i := names_congr hd rfl
  rw [h, map_append, map_append, count_append, count_append, map_cons, count_cons] at h'
  simp only [beq_iff_eq, eq_comm (a := e.inode)] at h'
  omega

end Layout

/-- The directories in use are laid out as in `l`: every inode has at most one name, a linked
    directory is found in its parent, and a directory that is not linked any more is empty. -/
structure Fits (s : LinkState) (l : Layout) : Prop where
  len_lt : s.fs.inodeListLen < 2 ^ 32
  root : s.fs.HasDir inodeRoot
  inode_eq : ∀ {i}, i < s.fs.inodeListLen → s.fs.inodeUsage i = true →
    (s.fs.inodeList i).inode = i
  holds : ∀ {d}, s.fs.HasDir d → HoldsEntries (s.fs.inodeList d) (l.entries d)
  files_eq : ∀ {d}, ¬ s.fs.HasDir d → l.files d = []
  not_dot : ∀ {d e}, e ∈ l.files d → e.isDot = false
  child_lt : ∀ {d e}, e ∈ l.files d → e.inode < s.fs.inodeListLen
  names_le : ∀ i, l.names s.fs.inodeListLen i ≤ 1
  parent : ∀ {d}, s.fs.HasDir d → 0 < l.names s.fs.inodeListLen d →
    ∃ e ∈ l.files (l.parent d), e.inode = d
  parent_root : l.parent inodeRoot = inodeRoot
  empty : ∀ {d}, d ≠ inodeRoot → l.names s.fs.inodeListLen d = 0 → l.files d = []
  opened_nodup : s.opened.Nodup
  opened_lt : ∀ {file}, file ∈ s.opened → file < 2 ^ 61
  opened_inode : ∀ {file}, file ∈ s.opened → ∃ i, (s.heap file).ramfsFile = some i ∧
    (s.heap file).inode = i ∧ i < s.fs.inodeListLen

theorem HoldsEntries.setLinks {dir : Inode} (h : HoldsEntries dir es) (links : ℕ) :
    HoldsEntries { dir with links := links } es :=
  ⟨⟨h.wf.1, h.wf.2, h.wf.3⟩, h.contents_eq, h.valid⟩

theorem length_le_of_nodup {xs : List ℕ} {n : ℕ} (h : xs.Nodup) (hlt : ∀ x ∈ xs, x < n) : xs.length ≤ n := by
  have hsub : xs ⊆ List.range n := fun x hx => mem_range.mpr (hlt x hx)
  exact (subperm_of_subset h hsub).length_le.trans_eq length_range

section

variable {s t : LinkState} {l : Layout} {d i j file : ℕ} {name : List UInt8} {e : Entry}

variable {fs : Ramfs} {shared : VfsFileShared}

theorem findInode_unused (h : findInode fs = some j) : fs.inodeUsage j = false := by
  have hfind := find?_some h
  simpa using hfind

theorem Ramfs.HasDir.ne_of_unused (hd : fs.HasDir d) (hj : fs.inodeUsage j = false) : d ≠ j := by
  rintro rfl
  rw [hd.2.1] at hj
  cases hj

theorem LinkState.opens_pos_iff : 0 < s.opens i ↔ ∃ file ∈ s.opened, (s.heap file).ramfsFile = some i := by
  rw [LinkState.opens, countP_pos_iff]
  simp

namespace Fits

section

variable (h : Fits s l)

include h

theorem lt_of_mem_files (he : e ∈ l.files d) : s.fs.HasDir d := by
  by_contra hd
  rw [h.files_eq hd] at he
  exact absurd he not_mem_nil

theorem names_eq (i : ℕ) : s.fs.names i = l.names s.fs.inodeListLen i := by
  refine Finset.sum_congr rfl fun d _ => ?_
  by_cases hd : s.fs.HasDir d
  · have hdot : Entry.isDot ⟨dot, d⟩ = true := rfl
    have hdotdot : Entry.isDot ⟨dotdot, l.parent d⟩ = true := rfl
    rw [if_pos hd, (h.holds hd).entries_eq, Layout.entries, countP_cons, countP_cons,
      List.count, countP_map]
    simp only [hdot, hdotdot, Bool.not_true, Bool.false_and, Bool.false_eq_true, if_false, add_zero]
    refine countP_congr fun e he => ?_
    simp [h.not_dot he, comp_apply, beq_iff_eq]
  · rw [if_neg hd, h.files_eq hd]
    rfl

theorem isLinked_iff : s.fs.IsLinked d ↔ d = inodeRoot ∨ 0 < l.names s.fs.inodeListLen d := by
  rw [Ramfs.IsLinked, h.names_eq]

theorem count_eq (i : ℕ) : s.count i =
    l.names s.fs.inodeListLen i + s.opens i + if i = inodeRoot then 1 else 0 := by
  rw [LinkState.count, h.names_eq]

theorem count_lt (i : ℕ) : s.count i < 2 ^ 62 := by
  have hnames := h.names_le i
  have hopens : s.opens i ≤ s.opened.length := countP_le_length
  have hlen := length_le_of_nodup h.opened_nodup fun _ => h.opened_lt
  rw [h.count_eq]
  split_ifs <;> omega

theorem count_pos_of_mem (he : e ∈ l.files d) : 0 < s.count e.inode := by
  have hpos : 0 < l.names s.fs.inodeListLen e.inode :=
    Layout.names_pos_iff.mpr ⟨d, (h.lt_of_mem_files he).1, e, he, rfl⟩
  rw [h.count_eq]
  omega

theorem length_files_le (hd : s.fs.HasDir d) : (l.files d).length ≤ s.fs.inodeListLen := by
  rw [← length_map Entry.inode]
  refine length_le_of_nodup (nodup_iff_count_le_one.mpr fun i => ?_) fun i hi => ?_
  · have hle : ((l.files d).map Entry.inode).count i ≤ l.names s.fs.inodeListLen i :=
      Finset.single_le_sum (f := fun d => ((l.files d).map Entry.inode).count i)
        (fun _ _ => Nat.zero_le _) (Finset.mem_range.mpr hd.1)
    exact hle.trans (h.names_le i)
  · obtain ⟨e, he, rfl⟩ := mem_map.mp hi
    exact h.child_lt he

theorem dir_len_lt (hd : s.fs.HasDir d) : (s.fs.inodeList d).len < 2 ^ 61 := by
  have hbytes := length_encodeAll_le (h.holds hd).valid
  have hcount := h.length_files_le hd
  have hlen := h.len_lt
  rw [(h.holds hd).length_eq, Layout.entries, length_cons, length_cons] at hbytes
  omega

/-- The rest of the property follows from the counts: `.` names the directory itself and `..`
    the directory that it is found in. -/
theorem linksOk (hlinks : ∀ {i}, i < s.fs.inodeListLen → (s.fs.inodeList i).links = s.count i)
    (hused : ∀ {i}, i < s.fs.inodeListLen → (s.fs.inodeUsage i = true ↔ 0 < s.count i)) :
    LinksOk s := by
  have hentry : ∀ {d e}, s.fs.HasDir d → s.fs.IsLinked d → e ∈ (s.fs.inodeList d).entries →
      e.inode < s.fs.inodeListLen ∧ s.fs.inodeUsage e.inode = true := by
    intro d e hd hlinked he
    rw [(h.holds hd).entries_eq, Layout.entries, mem_cons, mem_cons] at he
    rcases he with rfl | rfl | he
    · exact ⟨hd.1, hd.2.1⟩
    · have hparent : s.fs.HasDir (l.parent d) := by
        rcases h.isLinked_iff.mp hlinked with rfl | hpos
        · rw [h.parent_root]
          exact h.root
        · obtain ⟨e, he, _⟩ := h.parent hd hpos
          exact h.lt_of_mem_files he
      exact ⟨hparent.1, hparent.2.1⟩
    · exact ⟨h.child_lt he, (hused (h.child_lt he)).mpr (h.count_pos_of_mem he)⟩
  have hopen : ∀ {file}, file ∈ s.opened → ∃ i, (s.heap file).ramfsFile = some i ∧
      i < s.fs.inodeListLen ∧ s.fs.inodeUsage i = true := by
    intro file hfile
    obtain ⟨i, hi, _, hlt⟩ := h.opened_inode hfile
    have hpos : 0 < s.opens i := LinkState.opens_pos_iff.mpr ⟨file, hfile, hi⟩
    refine ⟨i, hi, hlt, (hused hlt).mpr ?_⟩
    rw [LinkState.count]
    omega
  refine ⟨hlinks, hused, hentry, hopen, ?_, ?_⟩
  · intro d e hd hlinked he hfresh
    have hunused := findInode_unused hfresh
    rw [(hentry hd hlinked he).2] at hunused
    cases hunused
  · intro file hfile hfresh
    obtain ⟨i, hi, _, hu⟩ := hopen hfile
    rw [hi] at hfresh
    have hunused := findInode_unused hfresh.symm
    rw [hu] at hunused
    cases hunused

/-- Link counts and the usage map change and nothing else; what is given up is no linked
    directory. -/
theorem relink (hlen : t.fs.inodeListLen = s.fs.inodeListLen)
    (hdata : ∀ i, ∃ links, t.fs.inodeList i = { s.fs.inodeList i with links := links })
    (husage : ∀ {i}, t.fs.inodeUsage i = true → s.fs.inodeUsage i = true)
    (hfreed : ∀ {i}, s.fs.inodeUsage i = true → t.fs.inodeUsage i = false → i ≠ inodeRoot ∧ l.names
      s.fs.inodeListLen i = 0)
    (hnodup : t.opened.Nodup) (hlt : ∀ {file}, file ∈ t.opened → file < 2 ^ 61)
    (hinode : ∀ {file}, file ∈ t.opened → ∃ i, (t.heap file).ramfsFile = some i ∧ (t.heap
      file).inode = i ∧ i < s.fs.inodeListLen) : Fits t l := by
  have htype : ∀ i, (t.fs.inodeList i).hasType .dir = (s.fs.inodeList i).hasType .dir := by
    intro i
    obtain ⟨links, hi⟩ := hdata i
    rw [hi]
    rfl
  have hdir : ∀ {d}, t.fs.HasDir d → s.fs.HasDir d := by
    rintro d ⟨hd, hu, ht⟩
    exact ⟨hlen ▸ hd, husage hu, htype d ▸ ht⟩
  refine ⟨hlen ▸ h.len_lt, ?_, ?_, ?_, ?_, h.not_dot, hlen ▸ h.child_lt, hlen ▸ h.names_le, ?_,
    h.parent_root, hlen ▸ h.empty, hnodup, hlt, hlen ▸ hinode⟩
  · refine ⟨hlen ▸ h.root.1, ?_, (htype _).trans h.root.2.2⟩
    by_contra hu
    exact (hfreed h.root.2.1 (Bool.eq_false_iff.mpr hu)).1 rfl
  · intro i hi hused
    obtain ⟨links, hlinks⟩ := hdata i
    rw [hlinks]
    exact h.inode_eq (hlen ▸ hi) (husage hused)
  · intro d hd
    obtain ⟨links, hlinks⟩ := hdata d
    rw [hlinks]
    exact (h.holds (hdir hd)).setLinks links
  · intro d hd
    by_cases hd' : s.fs.HasDir d
    · have hu : t.fs.inodeUsage d = false := by
        by_contra hu
        exact hd ⟨hlen ▸ hd'.1, Bool.eq_true_of_not_eq_false hu, (htype d).trans hd'.2.2⟩
      obtain ⟨hne, hzero⟩ := hfreed hd'.2.1 hu
      exact h.empty hne hzero
    · exact h.files_eq hd'
  · intro d hd hpos
    exact h.parent (hdir hd) (hlen ▸ hpos)

end

end Fits

/-! ## Opening and closing -/

theorem LinkState.opens_open (hfresh : file ∉ s.opened) (hshared : shared.ramfsFile = some i)
    (k : ℕ) : LinkState.opens ⟨fs, update s.heap file shared, file :: s.opened⟩ k =
      s.opens k + if k = i then 1 else 0 := by
  have hrest : s.opened.countP (fun f =>
      (update s.heap file shared f).ramfsFile = some k) = s.opens k := by
    refine countP_congr fun f hf => ?_
    rw [update_of_ne (ne_of_mem_of_not_mem hf hfresh)]
  rw [LinkState.opens, countP_cons, hrest]
  simp [hshared, eq_comm (a := i)]

theorem LinkState.opens_close (hnodup : s.opened.Nodup) (hfile : file ∈ s.opened)
    (hi : (s.heap file).ramfsFile = some i) (k : ℕ) :
    LinkState.opens ⟨fs, update s.heap file shared, s.opened.erase file⟩ k +
      (if k = i then 1 else 0) = s.opens k := by
  have hnot : file ∉ s.opened.erase file := hnodup.not_mem_erase
  have hrest : (s.opened.erase file).countP (fun f =>
      (update s.heap file shared f).ramfsFile = some k) =
        (s.opened.erase file).countP fun f => (s.heap f).ramfsFile = some k := by
    refine countP_congr fun f hf => ?_
    rw [update_of_ne (ne_of_mem_of_not_mem hf hnot)]
  have hall : s.opens k = (file :: s.opened.erase file).countP fun f =>
      (s.heap f).ramfsFile = some k := (perm_cons_erase hfile).countP_eq _
  rw [LinkState.opens, hall, countP_cons, hrest, hi]
  simp [eq_comm (a := i)]

theorem Fits.open (h : Fits s l) (hok : LinksOk s) (hfresh : s.FreshHandle file)
    (hi : i < s.fs.inodeListLen) (hused : s.fs.inodeUsage i = true)
    (hfile : shared.ramfsFile = some i) (hinode : shared.inode = i)
    (ht : t = ⟨s.fs.setInode i (s.fs.inodeList i).link, update s.heap file shared, file :: s.opened⟩) :
    Fits t l ∧ LinksOk t := by
  have hlink : (s.fs.inodeList i).link =
      { s.fs.inodeList i with links := (s.fs.inodeList i).links + 1 } := by
    have hlt := h.count_lt i
    rw [← hok.links_eq hi] at hlt
    rw [Inode.link, Nat.mod_eq_of_lt (by omega)]
  have hlist : ∀ k, t.fs.inodeList k =
      { s.fs.inodeList k with links := (s.fs.inodeList k).links + if k = i then 1 else 0 } := by
    intro k
    rw [ht, hlink]
    by_cases hk : k = i
    · rw [hk, setInode_same, if_pos rfl]
    · rw [setInode_of_ne _ _ hk, if_neg hk]
      rfl
  have husage : t.fs.inodeUsage = s.fs.inodeUsage := by rw [ht]; rfl
  have hlen : t.fs.inodeListLen = s.fs.inodeListLen := by rw [ht]; rfl
  have hopened : t.opened = file :: s.opened := by rw [ht]
  have hheap : t.heap = update s.heap file shared := by rw [ht]
  have hopens : ∀ k, t.opens k = s.opens k + if k = i then 1 else 0 := by
    rw [ht]
    exact LinkState.opens_open hfresh.1 hfile
  have hfits : Fits t l := by
    refine h.relink hlen (fun k => ⟨_, hlist k⟩) (fun hk => husage ▸ hk) ?_ ?_ ?_ ?_
    · intro k hk hk'
      rw [husage, hk] at hk'
      cases hk'
    · rw [hopened]
      exact nodup_cons.mpr ⟨hfresh.1, h.opened_nodup⟩
    · intro f hf
      rw [hopened, mem_cons] at hf
      rcases hf with rfl | hf
      · exact hfresh.2
      · exact h.opened_lt hf
    · intro f hf
      rw [hopened, mem_cons] at hf
      rw [hheap]
      by_cases hff : f = file
      · rw [hff, update_self]
        exact ⟨i, hfile, hinode, hi⟩
      · rw [update_of_ne hff]
        exact h.opened_inode (hf.resolve_left hff)
  have hcount : ∀ k, t.count k = s.count k + if k = i then 1 else 0 := by
    intro k
    rw [hfits.count_eq, h.count_eq, hlen, hopens]
    omega
  refine ⟨hfits, hfits.linksOk ?_ ?_⟩
  · intro k hk
    rw [hlist, hcount, hok.links_eq (hlen ▸ hk)]
  · intro k hk
    rw [husage, hcount, hok.used_iff (hlen ▸ hk)]
    by_cases hki : k = i
    · have hpos := (hok.used_iff hi).mp hused
      subst hki
      omega
    · rw [if_neg hki, add_zero]

theorem popInodeRefcount_succ {n : ℕ} (hused : fs.inodeUsage i = true)
    (hinode : (fs.inodeList i).inode = i) (hlinks : (fs.inodeList i).links = n + 1)
    (hn : n < 2 ^ 62) : popInodeRefcount fs i =
      (fs.setInode i { fs.inodeList i with links := n }).setUsage i (decide (n ≠ 0)) := by
  have hpred : (n + 1 + (2 ^ 64 - 1)) % 2 ^ 64 = n := by omega
  simp only [popInodeRefcount, hlinks, hinode, hpred]
  by_cases hzero : n = 0
  · rw [if_pos hzero, decide_eq_false (by simpa using hzero)]
  · rw [if_neg hzero, decide_eq_true hzero, Ramfs.setUsage]
    have hsame : update fs.inodeUsage i true = fs.inodeUsage := by
      rw [← hused, update_eq_self]
    rw [Ramfs.setInode, hsame]

theorem Fits.close (h : Fits s l) (hok : LinksOk s) (hfile : file ∈ s.opened) (hi : (s.heap file).ramfsFile = some i)
    (ht : t = ⟨popInodeRefcount s.fs i, update s.heap file shared, s.opened.erase file⟩) :
    Fits t l ∧ LinksOk t := by
  obtain ⟨_, hi', hilt, hused⟩ := hok.open_used hfile
  obtain rfl := Option.some.inj (hi.symm.trans hi')
  obtain ⟨n, hn⟩ : ∃ n, s.count i = n + 1 :=
    ⟨s.count i - 1, by have := (hok.used_iff hilt).mp hused; omega⟩
  have hpop := popInodeRefcount_succ hused (h.inode_eq hilt hused) ((hok.links_eq hilt).trans hn)
    (by have := h.count_lt i; omega)
  have hlist : ∀ k, t.fs.inodeList k = { s.fs.inodeList k with
        links := (s.fs.inodeList k).links - if k = i then 1 else 0 } := by
    intro k
    rw [ht, hpop, inodeList_setUsage]
    by_cases hk : k = i
    · rw [hk, setInode_same, if_pos rfl, hok.links_eq hilt, hn, Nat.add_sub_cancel]
    · rw [setInode_of_ne _ _ hk, if_neg hk, Nat.sub_zero]
  have hlen : t.fs.inodeListLen = s.fs.inodeListLen := by rw [ht, hpop]; rfl
  have husage : t.fs.inodeUsage = update s.fs.inodeUsage i (decide (n ≠ 0)) := by
    rw [ht, hpop]
    rfl
  have hopened : t.opened = s.opened.erase file := by rw [ht]
  have hheap : t.heap = update s.heap file shared := by rw [ht]
  have hopens : ∀ k, t.opens k + (if k = i then 1 else 0) = s.opens k := by
    rw [ht]
    exact LinkState.opens_close h.opened_nodup hfile hi
  have hfits : Fits t l := by
    refine h.relink hlen (fun k => ⟨_, hlist k⟩) ?_ ?_ ?_ ?_ ?_
    · intro k hk
      by_cases hki : k = i
      · rw [hki]
        exact hused
      · rwa [husage, update_of_ne hki] at hk
    · -- the count of an inode that is given up was 1, for the handle
      intro k hk hk'
      by_cases hki : k = i
      · subst hki
        rw [husage, update_self, decide_eq_false_iff_not, not_not] at hk'
        have hcount := h.count_eq k
        have hpos := hopens k
        rw [if_pos rfl] at hpos
        rw [hn, hk'] at hcount
        split_ifs at hcount with hroot
        · omega
        · exact ⟨hroot, by omega⟩
      · rw [husage, update_of_ne hki, hk] at hk'
        cases hk'
    · rw [hopened]
      exact h.opened_nodup.erase file
    · intro f hf
      rw [hopened] at hf
      exact h.opened_lt (mem_of_mem_erase hf)
    · intro f hf
      rw [hopened] at hf
      have hff : f ≠ file := ne_of_mem_of_not_mem hf h.opened_nodup.not_mem_erase
      rw [hheap, update_of_ne hff]
      exact h.opened_inode (mem_of_mem_erase hf)
  have hcount : ∀ k, t.count k = s.count k - if k = i then 1 else 0 := by
    intro k
    have hk := hopens k
    rw [hfits.count_eq, h.count_eq, hlen]
    omega
  refine ⟨hfits, hfits.linksOk ?_ ?_⟩
  · intro k hk
    rw [hlist, hcount, hok.links_eq (hlen ▸ hk)]
  · intro k hk
    rw [hcount, husage]
    by_cases hki : k = i
    · rw [hki, update_self, if_pos rfl, hn, decide_eq_true_eq]
      omega
    · rw [update_of_ne hki, if_neg hki, Nat.sub_zero, hok.used_iff (hlen ▸ hk)]

end

/-! ## Creating and unlinking -/

namespace Layout

variable {l : Layout} {d j k : ℕ} {name : List UInt8} {e : Entry}

theorem files_create_self : (l.create d name j).files d = l.files d ++ [⟨name, j⟩] := update_self _ _ _

theorem files_create_of_ne (hk : k ≠ d) : (l.create d name j).files k = l.files k := update_of_ne hk _ _

theorem parent_create_self : (l.create d name j).parent j = d := update_self _ _ _

theorem parent_create_of_ne (hk : k ≠ j) : (l.create d name j).parent k = l.parent k := update_of_ne hk _ _

theorem mem_files_create : e ∈ (l.create d name j).files k ↔ e ∈ l.files k ∨ k = d ∧ e = ⟨name, j⟩ := by
  by_cases hk : k = d
  · rw [hk, files_create_self, mem_append, mem_singleton]
    simp
  · rw [files_create_of_ne hk]
    simp [hk]

theorem entries_create_dir (hdj : d ≠ j) : (l.create d name j).entries d = l.entries d ++ [⟨name, j⟩] := by
  rw [entries, files_create_self, parent_create_of_ne hdj]
  rfl

theorem entries_create_of_ne (hkd : k ≠ d) (hkj : k ≠ j) : (l.create d name j).entries k = l.entries k := by
  rw [entries, files_create_of_ne hkd, parent_create_of_ne hkj]
  rfl

theorem files_setFiles_of_ne {es : List Entry} (hk : k ≠ d) : (l.setFiles d es).files k = l.files k := update_of_ne hk _ _

theorem files_setFiles_self {es : List Entry} : (l.setFiles d es).files d = es := update_self _ _ _

end Layout

section

variable {s t : LinkState} {l : Layout} {d j : ℕ} {name : List UInt8} {e : Entry}

section

variable (h : Fits s l) (hok : LinksOk s) (hd : s.fs.HasDir d)
  (hlen : t.fs.inodeListLen = s.fs.inodeListLen)
  (hsame : SameFile (s.fs.inodeList d) (t.fs.inodeList d)) (hheap : t.heap = s.heap)
  (hopened : t.opened = s.opened)

include h hok hd hlen hsame hheap hopened

theorem Fits.create (type : FileType) (hlinked : s.fs.IsLinked d)
    (hname : Entry.isDot ⟨name, j⟩ = false) (hjlt : j < s.fs.inodeListLen)
    (hj : s.fs.inodeUsage j = false) (husage : t.fs.inodeUsage = update s.fs.inodeUsage j true)
    (hothers : ∀ k ≠ d, k ≠ j → t.fs.inodeList k = s.fs.inodeList k)
    (hholds : HoldsEntries (t.fs.inodeList d) (l.entries d ++ [⟨name, j⟩]))
    (hnew : SameFile (newInode j type) (t.fs.inodeList j))
    (hdots : type = .dir → HoldsEntries (t.fs.inodeList j) [⟨dot, j⟩, ⟨dotdot, d⟩]) :
    Fits t (l.create d name j) ∧ LinksOk t := by
  have hdj : d ≠ j := hd.ne_of_unused hj
  have hzero : s.count j = 0 := by
    by_contra hne
    rw [(hok.used_iff hjlt).mpr (by omega)] at hj
    cases hj
  have hzero' := hzero
  rw [h.count_eq] at hzero'
  have hroot : inodeRoot ≠ j := h.root.ne_of_unused hj
  have hjfiles : l.files j = [] := h.empty hroot.symm (by omega)
  have hsameAll : ∀ k ≠ j, SameFile (s.fs.inodeList k) (t.fs.inodeList k) := by
    intro k hk
    by_cases hkd : k = d
    · rw [hkd]
      exact hsame
    · rw [hothers k hkd hk]
      exact ⟨rfl, rfl, rfl⟩
  have hused : ∀ k ≠ j, t.fs.inodeUsage k = s.fs.inodeUsage k := by
    intro k hk
    rw [husage, update_of_ne hk]
  have hdir : ∀ k ≠ j, (t.fs.HasDir k ↔ s.fs.HasDir k) := by
    intro k hk
    rw [Ramfs.HasDir, Ramfs.HasDir, Ramfs.IsDirectory, Ramfs.IsDirectory, hlen, hused k hk,
      (hsameAll k hk).hasType_eq]
  have hnames : ∀ k, (l.create d name j).names t.fs.inodeListLen k =
      l.names s.fs.inodeListLen k + if k = j then 1 else 0 := by
    intro k
    rw [hlen]
    exact Layout.names_create hd.1
  have hfits : Fits t (l.create d name j) := by
    refine ⟨hlen ▸ h.len_lt, (hdir _ hroot).mpr h.root, ?_, ?_, ?_, ?_, ?_, ?_, ?_, ?_, ?_,
      hopened ▸ h.opened_nodup, hopened ▸ h.opened_lt, ?_⟩
    · intro k hk hku
      by_cases hkj : k = j
      · rw [hkj]
        exact hnew.inode_eq
      · rw [hused k hkj] at hku
        exact (hsameAll k hkj).inode_eq.trans (h.inode_eq (hlen ▸ hk) hku)
    · intro k hk
      by_cases hkj : k = j
      · subst hkj
        have htype : type = .dir := by
          have := hk.2.2
          rwa [hnew.hasType_eq, hasType_newInode, decide_eq_true_eq] at this
        rw [Layout.entries, Layout.files_create_of_ne hdj.symm, hjfiles, Layout.parent_create_self]
        exact hdots htype
      · by_cases hkd : k = d
        · rw [hkd, Layout.entries_create_dir hdj]
          exact hholds
        · rw [Layout.entries_create_of_ne hkd hkj, hothers k hkd hkj]
          exact h.holds ((hdir k hkj).mp hk)
    · intro k hk
      have hkd : k ≠ d := by
        rintro rfl
        exact hk ((hdir k hdj).mpr hd)
      rw [Layout.files_create_of_ne hkd]
      by_cases hkj : k = j
      · rw [hkj]
        exact hjfiles
      · exact h.files_eq fun hk' => hk ((hdir k hkj).mpr hk')
    · intro k e he
      rcases Layout.mem_files_create.mp he with he | ⟨_, rfl⟩
      · exact h.not_dot he
      · exact hname
    · intro k e he
      rw [hlen]
      rcases Layout.mem_files_create.mp he with he | ⟨_, rfl⟩
      · exact h.child_lt he
      · exact hjlt
    · intro k
      have hle := h.names_le k
      rw [hnames]
      split_ifs with hkj
      · subst hkj
        omega
      · omega
    · intro k hk hpos
      rw [hnames] at hpos
      by_cases hkj : k = j
      · refine ⟨⟨name, j⟩, Layout.mem_files_create.mpr (.inr ⟨?_, rfl⟩), hkj.symm⟩
        rw [hkj, Layout.parent_create_self]
      · rw [if_neg hkj, add_zero] at hpos
        obtain ⟨e, he, hek⟩ := h.parent ((hdir k hkj).mp hk) hpos
        refine ⟨e, Layout.mem_files_create.mpr (.inl ?_), hek⟩
        rwa [Layout.parent_create_of_ne hkj]
    · rw [Layout.parent_create_of_ne hroot]
      exact h.parent_root
    · intro k hk hnone
      rw [hnames] at hnone
      have hkd : k ≠ d := by
        rintro rfl
        rcases h.isLinked_iff.mp hlinked with hr | hpos
        · exact hk hr
        · omega
      rw [Layout.files_create_of_ne hkd]
      exact h.empty hk (by omega)
    · intro file hfile
      rw [hopened] at hfile
      rw [hheap, hlen]
      exact h.opened_inode hfile
  have hcount : ∀ k, t.count k = s.count k + if k = j then 1 else 0 := by
    intro k
    rw [hfits.count_eq, h.count_eq, hnames, LinkState.opens, LinkState.opens, hheap, hopened]
    omega
  refine ⟨hfits, hfits.linksOk ?_ ?_⟩
  · intro k hk
    rw [hcount]
    by_cases hkj : k = j
    · rw [hkj, if_pos rfl, hzero, hnew.links_eq]
      rfl
    · rw [if_neg hkj, add_zero, (hsameAll k hkj).links_eq]
      exact hok.links_eq (hlen ▸ hk)
  · intro k hk
    rw [hcount]
    by_cases hkj : k = j
    · rw [hkj, if_pos rfl, husage, update_self]
      simp [lt_add_iff_pos_left]
    · rw [if_neg hkj, add_zero, hused k hkj]
      exact hok.used_iff (hlen ▸ hk)

theorem Fits.unlink {es1 es2 : List Entry} {n : ℕ} (hfiles : l.files d = es1 ++ e :: es2)
    (hempty : l.files e.inode = []) (hn : s.count e.inode = n + 1)
    (husage : t.fs.inodeUsage = update s.fs.inodeUsage e.inode (decide (n ≠ 0)))
    (hothers : ∀ k ≠ d, t.fs.inodeList k = { s.fs.inodeList k with links := (s.fs.inodeList k).links
      - if k = e.inode then 1 else 0 })
    (hholds : HoldsEntries (t.fs.inodeList d) (⟨dot, d⟩ :: ⟨dotdot, l.parent d⟩ :: (es1 ++ es2))) :
    Fits t (l.setFiles d (es1 ++ es2)) ∧ LinksOk t := by
  have hmem : e ∈ l.files d := by
    rw [hfiles]
    exact mem_append_right _ mem_cons_self
  have hed : e.inode ≠ d := by
    intro heq
    rw [← heq, hempty] at hmem
    exact absurd hmem not_mem_nil
  have hlinks : ∀ k, (t.fs.inodeList k).links =
      (s.fs.inodeList k).links - if k = e.inode then 1 else 0 := by
    intro k
    by_cases hkd : k = d
    · rw [hkd, if_neg hed.symm, Nat.sub_zero]
      exact hsame.links_eq
    · rw [hothers k hkd]
  have hinode : ∀ k, (t.fs.inodeList k).inode = (s.fs.inodeList k).inode := by
    intro k
    by_cases hkd : k = d
    · rw [hkd]
      exact hsame.inode_eq
    · rw [hothers k hkd]
  have htype : ∀ k, (t.fs.inodeList k).hasType .dir = (s.fs.inodeList k).hasType .dir := by
    intro k
    by_cases hkd : k = d
    · rw [hkd]
      exact hsame.hasType_eq .dir
    · rw [hothers k hkd]
      rfl
  have hused : ∀ k ≠ e.inode, t.fs.inodeUsage k = s.fs.inodeUsage k := by
    intro k hk
    rw [husage, update_of_ne hk]
  have heused : s.fs.inodeUsage e.inode = true := (hok.used_iff (h.child_lt hmem)).mpr (by omega)
  have husedOld : ∀ {k}, t.fs.inodeUsage k = true → s.fs.inodeUsage k = true := by
    intro k hk
    by_cases hke : k = e.inode
    · rw [hke]
      exact heused
    · rwa [hused k hke] at hk
  have hdir : ∀ {k}, t.fs.HasDir k → s.fs.HasDir k := by
    rintro k ⟨hk, hu, ht⟩
    exact ⟨hlen ▸ hk, husedOld hu, htype k ▸ ht⟩
  have hdir' : ∀ {k}, k ≠ e.inode → s.fs.HasDir k → t.fs.HasDir k := by
    rintro k hke ⟨hk, hu, ht⟩
    exact ⟨hlen ▸ hk, (hused k hke).trans hu, (htype k).trans ht⟩
  have hnames : ∀ k, (l.setFiles d (es1 ++ es2)).names t.fs.inodeListLen k +
      (if k = e.inode then 1 else 0) = l.names s.fs.inodeListLen k := by
    intro k
    rw [hlen]
    exact Layout.names_setFiles hd.1 hfiles
  -- the entries that are left are entries of the layout before
  have hsub : ∀ {k e'}, e' ∈ (l.setFiles d (es1 ++ es2)).files k → e' ∈ l.files k := by
    intro k e' he'
    by_cases hkd : k = d
    · rw [hkd, Layout.files_setFiles_self, mem_append] at he'
      rw [hkd, hfiles, mem_append, mem_cons]
      exact he'.imp_right .inr
    · rwa [Layout.files_setFiles_of_ne hkd] at he'
  have hkeep : ∀ {k e'}, e' ∈ l.files k → e'.inode ≠ e.inode →
      e' ∈ (l.setFiles d (es1 ++ es2)).files k := by
    intro k e' he' hne
    by_cases hkd : k = d
    · rw [hkd, hfiles, mem_append, mem_cons] at he'
      rw [hkd, Layout.files_setFiles_self, mem_append]
      refine he'.imp_right fun he' => he'.resolve_left ?_
      rintro rfl
      exact hne rfl
    · rwa [Layout.files_setFiles_of_ne hkd]
  have hnone : ∀ {k}, l.files k = [] → (l.setFiles d (es1 ++ es2)).files k = [] := by
    intro k hk
    refine eq_nil_iff_forall_not_mem.mpr fun e' he' => ?_
    have he' := hsub he'
    rw [hk] at he'
    exact absurd he' not_mem_nil
  have hroot : inodeRoot ≠ e.inode ∨ n ≠ 0 := by
    by_contra hnot
    obtain ⟨hr, hz⟩ := not_or.mp hnot
    have hpos := Layout.names_pos_iff.mpr ⟨d, hd.1, e, hmem, rfl⟩
    rw [h.count_eq, if_pos (not_not.mp hr).symm] at hn
    omega
  have hfits : Fits t (l.setFiles d (es1 ++ es2)) := by
    refine ⟨hlen ▸ h.len_lt, ?_, ?_, ?_, ?_, fun he' => h.not_dot (hsub he'), ?_, ?_, ?_,
      h.parent_root, ?_, hopened ▸ h.opened_nodup, hopened ▸ h.opened_lt, ?_⟩
    · by_cases hr : inodeRoot = e.inode
      · refine ⟨hlen ▸ h.root.1, ?_, (htype _).trans h.root.2.2⟩
        rw [husage, hr, update_self]
        exact decide_eq_true (hroot.resolve_left (not_not.mpr hr))
      · exact hdir' hr h.root
    · intro k hk hku
      rw [hinode]
      exact h.inode_eq (hlen ▸ hk) (husedOld hku)
    · intro k hk
      by_cases hkd : k = d
      · rw [hkd, Layout.entries, Layout.files_setFiles_self]
        exact hholds
      · rw [Layout.entries, Layout.files_setFiles_of_ne hkd, hothers k hkd]
        exact (h.holds (hdir hk)).setLinks _
    · intro k hk
      by_cases hke : k = e.inode
      · exact hnone (hke ▸ hempty)
      · exact hnone (h.files_eq fun hk' => hk (hdir' hke hk'))
    · intro k e' he'
      rw [hlen]
      exact h.child_lt (hsub he')
    · intro k
      have hle := h.names_le k
      have hk := hnames k
      omega
    · -- the inode had one name, so a directory that still has one is another one
      intro k hk hpos
      have hle := h.names_le k
      have hsum := hnames k
      have hke : k ≠ e.inode := by
        intro hke
        rw [if_pos hke] at hsum
        omega
      rw [if_neg hke, add_zero] at hsum
      obtain ⟨e', he', hek⟩ := h.parent (hdir hk) (by omega)
      exact ⟨e', hkeep he' (hek.trans_ne hke), hek⟩
    · intro k hk hzero
      have hsum := hnames k
      by_cases hke : k = e.inode
      · exact hnone (hke ▸ hempty)
      · rw [if_neg hke] at hsum
        exact hnone (h.empty hk (by omega))
    · intro file hfile
      rw [hopened] at hfile
      rw [hheap, hlen]
      exact h.opened_inode hfile
  have hcount : ∀ k, t.count k = s.count k - if k = e.inode then 1 else 0 := by
    intro k
    have hsum := hnames k
    rw [hfits.count_eq, h.count_eq, LinkState.opens, LinkState.opens, hheap, hopened]
    omega
  refine ⟨hfits, hfits.linksOk ?_ ?_⟩
  · intro k hk
    rw [hlinks, hcount, hok.links_eq (hlen ▸ hk)]
  · intro k hk
    rw [hcount]
    by_cases hke : k = e.inode
    · rw [hke, husage, update_self, if_pos rfl, hn, decide_eq_true_eq]
      omega
    · rw [if_neg hke, Nat.sub_zero, hused k hke]
      exact hok.used_iff (hlen ▸ hk)

end

end

end BadgerOS.Filesystem

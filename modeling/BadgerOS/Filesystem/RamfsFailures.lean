import BadgerOS.Filesystem.RamfsLinks

/-!
# Refused names, bounds and failing allocations

What the functions of the RAM filesystem do with names that are too long, which bytes
`remove_dirent` touches, and what is left when an allocation fails.

* `longName_refused_iff`: when a call with a name of more than 255 bytes is refused.
* `removeAccesses_inBuffer_iff`: when `remove_dirent` stays inside the buffer of the directory.
* `allOrNothing_iff`: when `vfs_ramfs_create_file` and `vfs_ramfs_create_dir` either create the
  whole file or report an error and change nothing.

**Deviations.** `create_file` sets `ECAUSE_TOOLONG` and goes on; the lookup resets the error, and
256 bytes and what follows them are copied into an array of 256 bytes (`longName_overruns`).
`remove_dirent` moves `dir->len - ent_size` bytes where only those behind the entry are to be moved,
so that it reads behind the length of the directory, and for most entries behind its buffer
(`removeDirent_overruns`). `resize_inode` reports a failed allocation by its return value only: the
callers look at `ec`, which stays clear (`create_reports_ok_without_memory`).
-/

namespace BadgerOS.Filesystem

open Buffer Option

/-! ## A directory with one file -/

/-- The entries of a root directory with one file. -/
def oneFile : List Entry := [⟨dot, inodeRoot⟩, ⟨dotdot, inodeRoot⟩, ⟨[97], 2⟩]

/-- A root directory with one file, in a buffer of 128 bytes. -/
def oneFileDir : Inode :=
  { newInode inodeRoot .dir with
    len := 96
    cap := 128
    buf := encodeAll oneFile ++ List.replicate 32 0 }

theorem oneFileDir_holds : HoldsEntries oneFileDir oneFile where
  wf := ⟨by decide, by decide +kernel, by decide⟩
  contents_eq := by decide +kernel
  valid := by
    intro e he
    simp only [oneFile, List.mem_cons, List.not_mem_nil, or_false] at he
    rcases he with rfl | rfl | rfl
    · exact ⟨validName_dot, by decide⟩
    · exact ⟨validName_dotdot, by decide⟩
    · exact ⟨validName_singleton (by decide), by decide⟩

/-- The filesystem with that root directory and the file. -/
def oneFileFs : Ramfs where
  inodeList := fun i =>
    if i = inodeRoot then oneFileDir else if i = 2 then newInode 2 .reg else .zero
  inodeUsage := fun i => i = inodeRoot || i = 2
  inodeListLen := 32

/-- The handle of the root directory. -/
def oneFileRoot : VfsFileShared := ⟨1, 0, 0, some inodeRoot, inodeRoot, some 0⟩

/-- The directory is what mounting and creating the file leave. -/
example : ((vfsRamfsMount .ok false (fun _ => false) fun _ => some fun _ => 0).bind fun r =>
    r.2.bind fun fs => (vfsRamfsCreateFile fs oneFileRoot [97] (some fun _ => 0)).map fun r =>
      r.2.inodeList inodeRoot) = some oneFileDir := by
  decide +kernel

/-! ## Long names -/

/-- The calls that take a name, with the outcomes of their allocations and the handle that
    `vfs_ramfs_file_open` fills in. -/
inductive NameCall
  | createFile (mem : Realloc)
  | createDir (mems : ℕ → Realloc)
  | unlink (mem : Realloc)
  | fileOpen (vfs : ℕ) (file : VfsFileShared)

/-- The number of bytes that `create_file` copies to `ent.name` (vfs_ramfs.c 147), if it gets
    there. -/
def nameCopied (fs : Ramfs) (dir : VfsFileShared) (name : List UInt8) : Option ℕ := do
  let dirptr ← dir.ramfsFile
  match ← findDirent (fs.inodeList dirptr) name with
  | some _ => none
  | none => (findInode fs).map fun _ => nameLength name + 1

/-- The call reports an error, changes nothing and copies no name past the end of its array. -/
def NameCall.Refused (fs : Ramfs) (dir : VfsFileShared) (name : List UInt8) : NameCall → Prop
  | .createFile mem =>
    (∃ ec, vfsRamfsCreateFile fs dir name mem = some (ec, fs) ∧ ec ≠ .ok) ∧
      ∀ n, nameCopied fs dir name = some n → n ≤ nameMax + 1
  | .createDir mems =>
    (∃ ec, vfsRamfsCreateDir fs dir name mems = some (ec, fs) ∧ ec ≠ .ok) ∧
      ∀ n, nameCopied fs dir name = some n → n ≤ nameMax + 1
  | .unlink mem => ∃ ec, vfsRamfsUnlink fs dir name mem = some (ec, fs) ∧ ec ≠ .ok
  | .fileOpen vfs file =>
    ∃ ec, vfsRamfsFileOpen fs vfs dir file name = some (ec, fs, file) ∧ ec ≠ .ok

/-- What refuses the name: for a creation an entry of that name or the lack of an inode; for the
    others the lack of an entry, or an entry for a directory that is not empty. -/
def NameCall.Refusable (fs : Ramfs) (d : ℕ) (name : List UInt8) : NameCall → Prop
  | .createFile _ | .createDir _ =>
    (∃ off, findDirent (fs.inodeList d) name = some (some off)) ∨
      findDirent (fs.inodeList d) name = some none ∧ findInode fs = none
  | .unlink _ =>
    findDirent (fs.inodeList d) name = some none ∨
      ∃ off, findDirent (fs.inodeList d) name = some (some off) ∧
        isRemovable (fs.inodeList (direntInode (fs.inodeList d).buf off)) = some false
  | .fileOpen _ _ => findDirent (fs.inodeList d) name = some none

section

variable {fs : Ramfs} {dir : VfsFileShared} {d off : ℕ} {name : List UInt8}

theorem nameLength_long (hname : nameMax < name.length) : nameLength name = nameMax + 1 := by
  rw [nameLength]
  omega

theorem not_dots_of_long (hname : nameMax < name.length) : ¬ (name = dot ∨ name = dotdot) := by
  rintro (rfl | rfl) <;> simp [nameMax, dot, dotdot] at hname

section

variable (hfile : dir.ramfsFile = some d)

include hfile

theorem createFile_lost (type : FileType) (mem : Realloc)
    (hfind : findDirent (fs.inodeList d) name = none) : createFile fs dir name type mem = none := by
  simp only [createFile, hfile, bind_eq_bind, bind_some, hfind, bind_none]

theorem nameCopied_found (hfind : findDirent (fs.inodeList d) name = some (some off)) :
    nameCopied fs dir name = none := by
  simp only [nameCopied, hfile, bind_eq_bind, bind_some, hfind]

theorem nameCopied_missing (hfind : findDirent (fs.inodeList d) name = some none) :
    nameCopied fs dir name = (findInode fs).map fun _ => nameLength name + 1 := by
  simp only [nameCopied, hfile, bind_eq_bind, bind_some, hfind]

theorem create_refused_iff (type : FileType) (mem : Realloc) {r : Option (Cause × Ramfs)}
    (hname : nameMax < name.length)
    (hfail : ∀ ec, ec ≠ .ok → createFile fs dir name type mem = some (ec, fs, none) →
      r = some (ec, fs))
    (hlost : createFile fs dir name type mem = none → r = none) :
    ((∃ ec, r = some (ec, fs) ∧ ec ≠ .ok) ∧
        ∀ n, nameCopied fs dir name = some n → n ≤ nameMax + 1) ↔
      (∃ off, findDirent (fs.inodeList d) name = some (some off)) ∨
        findDirent (fs.inodeList d) name = some none ∧ findInode fs = none := by
  cases hfind : findDirent (fs.inodeList d) name with
  | none =>
    refine iff_of_false ?_ (by simp)
    rintro ⟨⟨ec, hr, _⟩, _⟩
    rw [hlost (createFile_lost hfile type mem hfind)] at hr
    cases hr
  | some found =>
    cases found with
    | some off =>
      refine iff_of_true ⟨⟨.exists, ?_, by decide⟩, ?_⟩ (.inl ⟨off, rfl⟩)
      · exact hfail _ (by decide) (createFile_exists type mem hfile hfind)
      · intro n hn
        rw [nameCopied_found hfile hfind] at hn
        cases hn
    | none =>
      cases hfree : findInode fs with
      | none =>
        refine iff_of_true ⟨⟨.nospace, ?_, by decide⟩, ?_⟩ (.inr ⟨rfl, rfl⟩)
        · exact hfail _ (by decide) (createFile_nospace type hfile hfind mem hfree)
        · intro n hn
          rw [nameCopied_missing hfile hfind, hfree] at hn
          cases hn
      | some j =>
        -- the name and its terminator do not fit into the array
        refine iff_of_false ?_ (by simp)
        rintro ⟨_, hcopy⟩
        have hn := hcopy (nameMax + 2) (by
          rw [nameCopied_missing hfile hfind, hfree, nameLength_long hname, map_some])
        omega

theorem vfsRamfsUnlink_eq {mem : Realloc} (hdots : ¬ (name = dot ∨ name = dotdot)) :
    vfsRamfsUnlink fs dir name mem =
      (findDirent (fs.inodeList d) name).bind fun found =>
        found.elim (some (.notfound, fs)) fun off =>
          (isRemovable (fs.inodeList (direntInode (fs.inodeList d).buf off))).bind fun removable =>
            if !removable then some (.notempty, fs)
            else
              let fs' := popInodeRefcount fs (direntInode (fs.inodeList d).buf off)
              (removeDirent (fs'.inodeList d) off mem).bind fun dir' =>
                some (.ok, fs'.setInode d dir') := by
  rw [vfsRamfsUnlink, if_neg hdots, hfile]
  show ((findDirent (fs.inodeList d) name).bind _ : Option (Cause × Ramfs)) = _
  congr 1
  funext found
  cases found <;> rfl

theorem unlink_refused_iff {mem : Realloc} (hname : nameMax < name.length) :
    (∃ ec, vfsRamfsUnlink fs dir name mem = some (ec, fs) ∧ ec ≠ .ok) ↔
      findDirent (fs.inodeList d) name = some none ∨
        ∃ off, findDirent (fs.inodeList d) name = some (some off) ∧
          isRemovable (fs.inodeList (direntInode (fs.inodeList d).buf off)) = some false := by
  rw [vfsRamfsUnlink_eq hfile (not_dots_of_long hname)]
  cases hfind : findDirent (fs.inodeList d) name with
  | none => simp
  | some found =>
    cases found with
    | none => simp
    | some off =>
      rw [bind_some, elim_some]
      cases hrem : isRemovable (fs.inodeList (direntInode (fs.inodeList d).buf off)) with
      | none => simp [hrem]
      | some removable =>
        cases removable with
        | false => simp [hrem]
        | true =>
          refine iff_of_false ?_ ?_
          · rintro ⟨ec, hr, hec⟩
            rw [bind_some, if_neg (by decide)] at hr
            obtain ⟨dir', _, heq⟩ := bind_eq_some_iff.mp hr
            exact hec (Prod.mk.inj (some.inj heq)).1.symm
          · rintro (h | ⟨off', h, hrem'⟩)
            · cases h
            · obtain rfl := some.inj (some.inj h)
              rw [hrem] at hrem'
              cases hrem'

theorem fileOpen_refused_iff {vfs : ℕ} {file : VfsFileShared} :
    (∃ ec, vfsRamfsFileOpen fs vfs dir file name = some (ec, fs, file) ∧ ec ≠ .ok) ↔
      findDirent (fs.inodeList d) name = some none := by
  rw [vfsRamfsFileOpen]
  simp only [hfile, bind_eq_bind, bind_some]
  cases hfind : findDirent (fs.inodeList d) name with
  | none => simp
  | some found =>
    cases found with
    | none => simp
    | some off => simp

end

/-- When a call with a name of more than 255 bytes is refused. -/
theorem longName_refused_iff {call : NameCall} (hfile : dir.ramfsFile = some d)
    (hname : nameMax < name.length) :
    call.Refused fs dir name ↔ call.Refusable fs d name := by
  cases call with
  | createFile mem =>
    refine create_refused_iff hfile .reg mem hname ?_ ?_
    · intro ec _ hcreate
      rw [vfsRamfsCreateFile, hcreate, map_some]
    · intro hcreate
      rw [vfsRamfsCreateFile, hcreate, map_none]
  | createDir mems =>
    refine create_refused_iff hfile .dir (mems 0) hname ?_ ?_
    · intro ec hec hcreate
      simp only [vfsRamfsCreateDir, hcreate, bind_eq_bind, bind_some, ne_eq, hec,
        not_false_eq_true, if_true, pure_def]
    · intro hcreate
      simp only [vfsRamfsCreateDir, hcreate, bind_eq_bind, bind_none]
  | unlink mem => exact unlink_refused_iff hfile hname
  | fileOpen vfs file => exact fileOpen_refused_iff hfile

theorem HoldsEntries.findDirent_long {inode : Inode} {es : List Entry} (h : HoldsEntries inode es)
    (hname : nameMax < name.length) : findDirent inode name = some none := by
  rcases h.findDirent_spec name with ⟨hfind, _⟩ | ⟨es1, e, es2, rfl, rfl, _, _⟩
  · exact hfind
  · have hle := h.valid_of_mid.name.le_max
    omega

end

/-- A name of 256 bytes. -/
def longName : List UInt8 := List.replicate 256 97

theorem longName_refused_iff_unlink :
    NameCall.Refused oneFileFs oneFileRoot longName (.unlink none) := (longName_refused_iff (d := inodeRoot) rfl (by decide +kernel)).mpr
    (.inl (oneFileDir_holds.findDirent_long (by decide +kernel)))

/-- A file with a name of 256 bytes is created, and 257 bytes are copied to the array. -/
theorem longName_overruns : ¬ ∀ (fs : Ramfs) (dir : VfsFileShared) (d : ℕ) (es : List Entry)
    (name : List UInt8) (call : NameCall), dir.ramfsFile = some d →
    HoldsEntries (fs.inodeList d) es → nameMax < name.length → call.Refused fs dir name := by
  intro hall
  obtain ⟨_, hcopy⟩ := hall oneFileFs oneFileRoot inodeRoot oneFile longName (.createFile none) rfl
    oneFileDir_holds (by decide +kernel)
  have hfind : findDirent oneFileDir longName = some none :=
    oneFileDir_holds.findDirent_long (by decide +kernel)
  have hcopied : nameCopied oneFileFs oneFileRoot longName = some 257 := by
    rw [nameCopied_missing (d := inodeRoot) rfl hfind]
    decide +kernel
  exact absurd (hcopy 257 hcopied) (by decide)

/-! ## The accesses of `remove_dirent` -/

/-- The ranges of the buffer that `remove_dirent` reads and writes (vfs_ramfs.c 87–91), by their
    first byte and their length: the size of the entry, and the two ranges of the copy. -/
def removeAccesses (dir : Inode) (off : ℕ) : List (ℕ × ℕ) :=
  let size := direntSize dir.buf off
  let moved := (dir.len + 2 ^ 64 - size) % 2 ^ 64
  [(off, 8), (off + size, moved), (off, moved)]

/-- Every byte of the range is one of the first `cap` bytes. -/
def InBuffer (cap : ℕ) (range : ℕ × ℕ) : Prop :=
  ∀ b, range.1 ≤ b → b < range.1 + range.2 → b < cap

theorem inBuffer_iff {cap start len : ℕ} : InBuffer cap (start, len) ↔ len = 0 ∨ start + len ≤ cap := by
  constructor
  · intro h
    by_cases hlen : len = 0
    · exact .inl hlen
    · have hlast := h (start + len - 1) (by show start ≤ _; omega) (by show _ < start + len; omega)
      right
      omega
  · intro h b hfirst hlast
    have hfirst : start ≤ b := hfirst
    have hlast : b < start + len := hlast
    omega

/-- The accesses stay in the buffer exactly when there is as much space behind the directory as
    there is in front of the entry. -/
theorem removeAccesses_inBuffer_iff {dir : Inode} {es₁ es₂ : List Entry} {e : Entry}
    (h : HoldsEntries dir (es₁ ++ e :: es₂)) :
    (∀ range ∈ removeAccesses dir (encodeAll es₁).length, InBuffer dir.cap range) ↔
      (encodeAll es₁).length + dir.len ≤ dir.cap := by
  have hlen : dir.len = (encodeAll es₁).length + (e.encode.length + (encodeAll es₂).length) := by
    rw [← h.length_eq, encodeAll_append, encodeAll_cons, List.length_append, List.length_append]
  have hencode := Entry.length_encode h.valid_of_mid.name
  have hbounds := entSize_bounds h.valid_of_mid.name.le_max
  have hsize : direntSize dir.buf (encodeAll es₁).length = e.encode.length := by
    rw [hencode]
    exact direntSize_eq h.valid_of_mid h.drop_mid
  have hlt := h.wf.len_lt
  have hcap := h.wf.len_le_cap
  have hmoved : (dir.len + 2 ^ 64 - e.encode.length) % 2 ^ 64 =
      (encodeAll es₁).length + (encodeAll es₂).length := by
    omega
  simp only [removeAccesses, hsize, hmoved, List.mem_cons, List.not_mem_nil, or_false,
    forall_eq_or_imp, forall_eq, inBuffer_iff]
  omega

/-- The first entry can be removed inside of the buffer. -/
theorem removeAccesses_inBuffer_iff_first : 0 + oneFileDir.len ≤ 128 ∧
    ∀ range ∈ removeAccesses oneFileDir 0, InBuffer 128 range := by
  have hholds : HoldsEntries oneFileDir
      ([] ++ ⟨dot, inodeRoot⟩ :: [⟨dotdot, inodeRoot⟩, ⟨[97], 2⟩]) := oneFileDir_holds
  exact ⟨by decide, (removeAccesses_inBuffer_iff hholds).mpr (by decide)⟩

/-- The removal of the file reads 32 bytes behind the buffer. -/
theorem removeDirent_overruns : ¬ ∀ (dir : Inode) (es₁ es₂ : List Entry) (e : Entry),
    HoldsEntries dir (es₁ ++ e :: es₂) →
    ∀ range ∈ removeAccesses dir (encodeAll es₁).length, InBuffer dir.cap range := by
  intro hall
  have hread := hall oneFileDir [⟨dot, inodeRoot⟩, ⟨dotdot, inodeRoot⟩] [] ⟨[97], 2⟩
    oneFileDir_holds (96, 64) (by decide)
  exact absurd (hread 159 (by decide) (by decide)) (by decide)

/-! ## Failing allocations -/

/-- `vfs_ramfs_create_file` or `vfs_ramfs_create_dir`. -/
def createCall (isDir : Bool) (fs : Ramfs) (dir : VfsFileShared) (name : List UInt8)
    (mems : ℕ → Realloc) : Option (Cause × Ramfs) :=
  if isDir then vfsRamfsCreateDir fs dir name mems else vfsRamfsCreateFile fs dir name (mems 0)

/-- The type of the inode that the call creates. -/
def createdType (isDir : Bool) : FileType := if isDir then .dir else .reg

/-- The name is found in the directory `d`, with an inode that is in use, of the right type, and
    empty: a directory holds `.` and `..`. -/
structure Made (isDir : Bool) (fs : Ramfs) (d parent : ℕ) (name : List UInt8) (j : ℕ) : Prop where
  find : ∃ off, findDirent (fs.inodeList d) name = some (some off) ∧
    direntInode (fs.inodeList d).buf off = j
  holds : ∃ es, HoldsEntries (fs.inodeList d) es
  used : fs.inodeUsage j = true
  hasType : (fs.inodeList j).hasType .dir = isDir
  entries : HoldsEntries (fs.inodeList j) (Tree.newEntries (createdType isDir) parent j)

/-- The usage map and the contents and links of the inodes in use are the same. -/
structure Unchanged (fs fs' : Ramfs) : Prop where
  usage_eq : fs'.inodeUsage = fs.inodeUsage
  contents_eq : ∀ i, fs.inodeUsage i = true → (fs'.inodeList i).contents = (fs.inodeList i).contents
  links_eq : ∀ i, fs.inodeUsage i = true → (fs'.inodeList i).links = (fs.inodeList i).links

theorem Unchanged.refl (fs : Ramfs) : Unchanged fs fs := ⟨rfl, fun _ _ => rfl, fun _ _ => rfl⟩

/-- The call reports success and the file is there, or it reports an error and nothing has
    changed. -/
def AllOrNothing (isDir : Bool) (fs : Ramfs) (dir : VfsFileShared) (d : ℕ) (name : List UInt8)
    (mems : ℕ → Realloc) : Prop :=
  ∃ ec fs', createCall isDir fs dir name mems = some (ec, fs') ∧
    (ec = .ok ∧ (∃ j, Made isDir fs' d dir.inode name j) ∨ ec ≠ .ok ∧ Unchanged fs fs')

/-- There is room for the name and the inode: the entry fits into the buffer of the directory or
    into a larger one, and a new directory gets a buffer for each of its two entries. -/
structure Roomy (isDir : Bool) (dir : Inode) (name : List UInt8) (mems : ℕ → Realloc) : Prop where
  short : name.length ≤ nameMax
  entry : dir.len + entSize name.length ≤ dir.cap ∨ mems 0 ≠ none
  dots : isDir = true → mems 1 ≠ none ∧ mems 2 ≠ none

section

variable {inode : Inode} {ent : Dirent}

theorem insertDirent_ok (h : inode.Wf) (ent : Dirent) (mem : Realloc) (hlen : inode.len + ent.size < 2 ^ 63) :
    ∃ done inode', insertDirent .ok inode ent mem = some (done, .ok, inode') := by
  obtain ⟨done, ec, inode', heq, hec, _⟩ := resizeInode_spec .ok mem h hlen
  obtain rfl : ec = .ok := hec.elim id id
  rw [insertDirent, Nat.mod_eq_of_lt (by omega), heq]
  cases done with
  | true => exact ⟨true, _, rfl⟩
  | false => exact ⟨false, _, rfl⟩

theorem insertDirent_full (hcap : inode.cap < inode.len + ent.size) (hlen : inode.len + ent.size < 2 ^ 63) :
    insertDirent .ok inode ent none = some (false, .ok, inode) := by
  rw [insertDirent, Nat.mod_eq_of_lt (by omega), resizeInode_nomem .ok hcap hlen]

end

/-- The entry of one allocation. -/
def insertedEntry (mem : Realloc) (e : Entry) : List Entry := if mem.isSome then [e] else []

theorem insertDot_cap (j : ℕ) (fill : ℕ → UInt8) {n1 : Inode}
    (h : insertDirent .ok (newInode j .dir) (dotEntry dot j) (some fill) = some (true, .ok, n1)) :
    n1.cap = 32 ∧ n1.len = 32 := by
  have hgrow : growCap 64 1 32 = some 32 := by decide
  have hresize : resizeInode .ok (newInode j .dir) 32 (some fill) = some (true, .ok,
      { newInode j .dir with cap := 32, buf := reallocBuf [] 32 fill, len := 32 }) := by
    have hcap : (newInode j .dir).cap = 0 := rfl
    rw [resizeInode, hcap, if_neg (by decide), if_neg (by decide), hgrow]
    rfl
  rw [insertDirent, show ((newInode j .dir).len + (dotEntry dot j).size) % 2 ^ 64 = 32 from rfl,
    hresize] at h
  have hn := (Prod.mk.inj (Prod.mk.inj (some.inj h)).2).2
  rw [← hn]
  exact ⟨rfl, rfl⟩

/-- The two entries of a new directory: each is there if there was memory for it. -/
theorem insertDots_cases {j parent : ℕ} (hj : j < 2 ^ 64) (hparent : parent < 2 ^ 64)
    (mem1 mem2 : Realloc) : ∃ done1 n1 done2 n2,
      insertDirent .ok (newInode j .dir) (dotEntry dot j) mem1 = some (done1, .ok, n1) ∧
      insertDirent .ok n1 (dotEntry dotdot parent) mem2 = some (done2, .ok, n2) ∧
      SameFile (newInode j .dir) n2 ∧
      HoldsEntries n2 (insertedEntry mem1 ⟨dot, j⟩ ++ insertedEntry mem2 ⟨dotdot, parent⟩) := by
  have hnew := holdsEntries_newInode j .dir
  have hdot : Entry.Valid ⟨dot, j⟩ := ⟨validName_dot, hj⟩
  have hdotdot : Entry.Valid ⟨dotdot, parent⟩ := ⟨validName_dotdot, hparent⟩
  cases mem1 with
  | none =>
    have hfull : insertDirent .ok (newInode j .dir) (dotEntry dot j) none =
        some (false, .ok, newInode j .dir) :=
      insertDirent_full (show 0 < 0 + 32 by decide) (show 0 + 32 < 2 ^ 63 by decide)
    cases mem2 with
    | none =>
      have hfull2 : insertDirent .ok (newInode j .dir) (dotEntry dotdot parent) none =
          some (false, .ok, newInode j .dir) :=
        insertDirent_full (show 0 < 0 + 32 by decide) (show 0 + 32 < 2 ^ 63 by decide)
      exact ⟨_, _, _, _, hfull, hfull2, ⟨rfl, rfl, rfl⟩, hnew⟩
    | some fill2 =>
      obtain ⟨n2, hinsert, hholds, hsame⟩ :=
        hnew.insertDirent_spec hdotdot (show 0 < 2 ^ 62 by decide) fill2
      rw [← dotEntry_dotdot] at hinsert
      exact ⟨_, _, _, _, hfull, hinsert, hsame, hholds⟩
  | some fill1 =>
    obtain ⟨n1, hinsert1, hholds1, hsame1⟩ :=
      hnew.insertDirent_spec hdot (show 0 < 2 ^ 62 by decide) fill1
    rw [← dotEntry_dot] at hinsert1
    obtain ⟨hcap, hlen⟩ := insertDot_cap j fill1 hinsert1
    cases mem2 with
    | none =>
      have hfull2 : insertDirent .ok n1 (dotEntry dotdot parent) none = some (false, .ok, n1) := by
        refine insertDirent_full ?_ ?_
        · rw [hcap, hlen]
          exact (show 32 < 32 + 32 by decide)
        · rw [hlen]
          exact (show 32 + 32 < 2 ^ 63 by decide)
      exact ⟨_, _, _, _, hinsert1, hfull2, hsame1, hholds1⟩
    | some fill2 =>
      obtain ⟨n2, hinsert2, hholds2, hsame2⟩ :=
        hholds1.insertDirent_spec hdotdot (by rw [hlen]; decide) fill2
      rw [← dotEntry_dotdot] at hinsert2
      refine ⟨_, _, _, _, hinsert1, hinsert2, ?_, hholds2⟩
      exact ⟨hsame2.inode_eq.trans hsame1.inode_eq, hsame2.mode_eq.trans hsame1.mode_eq,
        hsame2.links_eq.trans hsame1.links_eq⟩

section

variable {isDir inserted : Bool} {fs : Ramfs} {dir : VfsFileShared} {d j : ℕ} {name : List UInt8}
  {es : List Entry} {mems : ℕ → Realloc} {dir' : Inode}

/-- The entry that `create_file` makes. -/
def createdDirent (name : List UInt8) (j : ℕ) : Dirent :=
  ⟨entSize (nameLength name), j, nameLength name, nameArray name⟩

/-- The entries that the new inode gets. -/
def createdEntries (isDir : Bool) (mems : ℕ → Realloc) (parent j : ℕ) : List Entry :=
  if isDir then insertedEntry (mems 1) ⟨dot, j⟩ ++ insertedEntry (mems 2) ⟨dotdot, parent⟩ else []

theorem createdEntries_roomy (hdots : isDir = true → mems 1 ≠ none ∧ mems 2 ≠ none) (parent : ℕ) :
    createdEntries isDir mems parent j = Tree.newEntries (createdType isDir) parent j := by
  cases isDir with
  | false => rfl
  | true =>
    obtain ⟨h1, h2⟩ := hdots rfl
    rw [createdEntries, if_pos rfl, insertedEntry, if_pos (isSome_iff_ne_none.mpr h1),
      insertedEntry, if_pos (isSome_iff_ne_none.mpr h2)]
    rfl

theorem length_insertedEntry (mem : Realloc) (e : Entry) (hname : e.name = dot ∨ e.name = dotdot) :
    (encodeAll (insertedEntry mem e)).length = if mem.isSome then 32 else 0 := by
  have hlen : e.encode.length = 32 := by
    rcases hname with h | h
    · rw [Entry.length_encode (h ▸ validName_dot), h]
      rfl
    · rw [Entry.length_encode (h ▸ validName_dotdot), h]
      rfl
  rw [insertedEntry]
  split_ifs with hsome
  · rw [encodeAll_cons, encodeAll_nil, List.append_nil, hlen]
  · rfl

theorem not_holds_newEntries {inode : Inode} {parent : ℕ} (h : HoldsEntries inode (createdEntries true mems parent j))
    (hlost : mems 1 = none ∨ mems 2 = none) :
    ¬ HoldsEntries inode (Tree.newEntries .dir parent j) := by
  intro hfull
  have hlong : inode.len = 64 := by
    rw [← hfull.length_eq, show Tree.newEntries .dir parent j =
      insertedEntry (some fun _ => 0) ⟨dot, j⟩ ++ insertedEntry (some fun _ => 0) ⟨dotdot, parent⟩
      from rfl, encodeAll_append, List.length_append, length_insertedEntry _ _ (.inl rfl),
      length_insertedEntry _ _ (.inr rfl)]
    rfl
  have hshort := h.length_eq
  rw [createdEntries, if_pos rfl, encodeAll_append, List.length_append,
    length_insertedEntry _ _ (.inl rfl), length_insertedEntry _ _ (.inr rfl), hlong] at hshort
  rcases hlost with hnone | hnone
  · rw [hnone, if_neg (by decide)] at hshort
    split_ifs at hshort <;> omega
  · rw [hnone, if_neg (show ¬ (none : Realloc).isSome = true by decide)] at hshort
    split_ifs at hshort <;> omega

section

variable (hfile : dir.ramfsFile = some d) (hfind : findDirent (fs.inodeList d) name = some none)
  (hj : findInode fs = some j) (hne : d ≠ j)

include hfile hfind hj hne

/-- The filesystem behind `create_file` of a name that is not there, whether or not the entry could
    be inserted. -/
theorem createFile_inserted (type : FileType) {mem : Realloc}
    (hins : insertDirent .ok (fs.inodeList d) (createdDirent name j) mem =
      some (inserted, .ok, dir')) :
    ∃ fs', createFile fs dir name type mem = some (.ok, fs', some j) ∧
      fs'.inodeList d = dir' ∧ fs'.inodeList j = newInode j type ∧ fs'.inodeUsage j = inserted := by
  have hunused := findInode_unused hj
  rw [← setInode_of_ne fs (newInode j type) hne, createdDirent] at hins
  have hcreate : createFile fs dir name type mem = some (.ok,
      if inserted then ((fs.setInode j (newInode j type)).setInode d dir').setUsage j true
      else (fs.setInode j (newInode j type)).setInode d dir', some j) := by
    simp only [createFile, hfile, bind_eq_bind, bind_some, hfind, hj, hins, pure_def]
  refine ⟨_, hcreate, ?_, ?_, ?_⟩
  · cases inserted <;> exact setInode_same ..
  · have hnew : ((fs.setInode j (newInode j type)).setInode d dir').inodeList j =
        newInode j type := by
      rw [setInode_of_ne _ _ hne.symm, setInode_same]
    cases inserted <;> exact hnew
  · cases inserted
    · exact hunused
    · exact Function.update_self ..

theorem createCall_new (isDir : Bool) (hparent : dir.inode < 2 ^ 64) (hjlt : j < 2 ^ 64)
    (hins : insertDirent .ok (fs.inodeList d) (createdDirent name j) (mems 0) = some (inserted,
      .ok, dir')) : ∃ fs', createCall isDir fs dir name mems = some (.ok, fs') ∧
      fs'.inodeList d = dir' ∧ fs'.inodeUsage j = inserted ∧
      (fs'.inodeList j).hasType .dir = isDir ∧
      HoldsEntries (fs'.inodeList j) (createdEntries isDir mems dir.inode j) := by
  cases isDir with
  | false =>
    obtain ⟨fs', hcreate, hd, hnew, hused⟩ := createFile_inserted hfile hfind hj hne .reg hins
    refine ⟨fs', ?_, hd, hused, ?_, ?_⟩
    · rw [createCall, if_neg Bool.false_ne_true, vfsRamfsCreateFile, hcreate, map_some]
    · rw [hnew, hasType_newInode]
      rfl
    · rw [hnew]
      exact holdsEntries_newInode j .reg
  | true =>
    obtain ⟨fs', hcreate, hd, hnew, hused⟩ := createFile_inserted hfile hfind hj hne .dir hins
    obtain ⟨done1, n1, done2, n2, hinsert1, hinsert2, hsame, hholds⟩ :=
      insertDots_cases hjlt hparent (mems 1) (mems 2)
    have hinode : (newInode j .dir).inode = j := rfl
    have hcall : createCall true fs dir name mems =
        some (.ok, (fs'.setInode j n1).setInode j n2) := by
      simp only [createCall, if_true, vfsRamfsCreateDir, hcreate, bind_eq_bind,
        bind_some, ne_eq, not_true_eq_false, if_false, hnew, hinode, hinsert1,
        setInode_same, hinsert2, pure_def]
    refine ⟨_, hcall, ?_, hused, ?_, ?_⟩
    · rw [setInode_of_ne _ _ hne, setInode_of_ne _ _ hne, hd]
    · rw [setInode_same, hsame.hasType_eq, hasType_newInode]
      rfl
    · rw [setInode_same]
      exact hholds

/-- A creation of a name that is not there is complete exactly when there is room for everything. -/
theorem made_iff (isDir : Bool) (mems : ℕ → Realloc) (hparent : dir.inode < 2 ^ 64)
    (hdir : HoldsEntries (fs.inodeList d) es) (hlen : (fs.inodeList d).len < 2 ^ 62)
    (hpos : 0 < name.length) (hzero : ∀ b ∈ name, b ≠ 0) (hnot : name ∉ es.map Entry.name)
    (hjlt : j < 2 ^ 64) :
    ∃ fs', createCall isDir fs dir name mems = some (.ok, fs') ∧
      ((∃ i, Made isDir fs' d dir.inode name i) ↔ Roomy isDir (fs.inodeList d) name mems) := by
  by_cases hlong : nameMax < name.length
  · -- no well-formed directory has the name
    have hsize : (createdDirent name j).size = 288 := by
      show entSize (nameLength name) = 288
      rw [nameLength_long hlong]
      rfl
    obtain ⟨inserted, dir', hins⟩ := insertDirent_ok hdir.wf (createdDirent name j) (mems 0)
      (by rw [hsize]; omega)
    obtain ⟨fs', hcall, _⟩ := createCall_new hfile hfind hj hne isDir hparent hjlt hins
    refine ⟨fs', hcall, iff_of_false ?_ ?_⟩
    · rintro ⟨i, hmade⟩
      obtain ⟨es', hes'⟩ := hmade.holds
      obtain ⟨off, hoff, _⟩ := hmade.find
      rw [hes'.findDirent_long hlong] at hoff
      cases hoff
    · exact fun hroom => absurd hroom.short (by omega)
  · have hname : ValidName name := ⟨hpos, by omega, hzero⟩
    have he : Entry.Valid ⟨name, j⟩ := ⟨hname, hjlt⟩
    have hent : createdDirent name j = Entry.dirent ⟨name, j⟩ := by
      rw [createdDirent, nameLength_eq hname, Entry.dirent]
    have hbounds := entSize_bounds hname.le_max
    by_cases hroom : (fs.inodeList d).len + entSize name.length ≤ (fs.inodeList d).cap ∨
        mems 0 ≠ none
    · obtain ⟨dir', hins, hholds, _⟩ := hdir.insertDirent_room he hlen hroom
      rw [← hent] at hins
      obtain ⟨fs', hcall, hd, hused, htype, hentries⟩ :=
        createCall_new hfile hfind hj hne isDir hparent hjlt hins
      have hfirst := hholds.find_first hnot
      rw [← hd] at hfirst hholds
      refine ⟨fs', hcall, ?_, ?_⟩
      · rintro ⟨i, hmade⟩
        refine ⟨hname.le_max, hroom, ?_⟩
        rintro rfl
        obtain ⟨off, hoff, hi⟩ := hmade.find
        obtain ⟨off', hoff', hj'⟩ := hfirst
        obtain rfl := some.inj (some.inj (hoff.symm.trans hoff'))
        obtain rfl : i = j := hi.symm.trans hj'
        have hnone : ¬ (mems 1 = none ∨ mems 2 = none) :=
          fun hlost => not_holds_newEntries hentries hlost hmade.entries
        exact not_or.mp hnone
      · intro hroomy
        rw [createdEntries_roomy hroomy.dots] at hentries
        exact ⟨j, hfirst, ⟨_, hholds⟩, hused, htype, hentries⟩
    · have hmem : mems 0 = none := not_not.mp (not_or.mp hroom).2
      have hsize : (createdDirent name j).size = entSize name.length := by
        rw [hent]
        rfl
      have hins : insertDirent .ok (fs.inodeList d) (createdDirent name j) (mems 0) =
          some (false, .ok, fs.inodeList d) := by
        rw [hmem]
        exact insertDirent_full (by rw [hsize]; omega) (by rw [hsize]; omega)
      obtain ⟨fs', hcall, hd, _⟩ := createCall_new hfile hfind hj hne isDir hparent hjlt hins
      refine ⟨fs', hcall, iff_of_false ?_ fun hroomy => hroom hroomy.entry⟩
      rintro ⟨i, hmade⟩
      obtain ⟨off, hoff, _⟩ := hmade.find
      rw [hd, hfind] at hoff
      cases hoff

end

/-- When the creations are all or nothing: the name is there already, no inode is free, or there is
    room for everything. -/
theorem allOrNothing_iff (hfile : dir.ramfsFile = some d) (hparent : dir.inode < 2 ^ 64)
    (hused : fs.inodeUsage d = true) (hinodes : fs.inodeListLen ≤ 2 ^ 64)
    (hdir : HoldsEntries (fs.inodeList d) es) (hlen : (fs.inodeList d).len < 2 ^ 62)
    (hpos : 0 < name.length) (hzero : ∀ b ∈ name, b ≠ 0) :
    AllOrNothing isDir fs dir d name mems ↔
      name ∈ es.map Entry.name ∨ findInode fs = none ∨ Roomy isDir (fs.inodeList d) name mems := by
  have hrefused : ∀ {ec}, ec ≠ .ok → createCall isDir fs dir name mems = some (ec, fs) →
      AllOrNothing isDir fs dir d name mems :=
    fun hec hcall => ⟨_, fs, hcall, .inr ⟨hec, .refl fs⟩⟩
  have hfail : ∀ {ec}, ec ≠ .ok →
      (∀ type, createFile fs dir name type (mems 0) = some (ec, fs, none)) →
      createCall isDir fs dir name mems = some (ec, fs) := by
    intro ec hec hcreate
    rw [createCall]
    split_ifs
    · simp only [vfsRamfsCreateDir, hcreate, bind_eq_bind, bind_some, ne_eq, hec,
        not_false_eq_true, if_true, pure_def]
    · rw [vfsRamfsCreateFile, hcreate, map_some]
  rcases hdir.findDirent_spec name with ⟨hfind, hnot⟩ | ⟨es₁, e, es₂, rfl, rfl, _, hfind⟩
  · cases hj : findInode fs with
    | none =>
      have hec : Cause.nospace ≠ .ok := by decide
      refine iff_of_true (hrefused hec (hfail hec fun type => ?_)) (.inr (.inl rfl))
      exact createFile_nospace type hfile hfind (mems 0) hj
    | some j =>
      have hne : d ≠ j := by
        rintro rfl
        rw [findInode_unused hj] at hused
        cases hused
      obtain ⟨fs', hcall, hiff⟩ := made_iff hfile hfind hj hne isDir mems hparent hdir hlen
        hpos hzero hnot ((findInode_spec hj).2.trans_le hinodes)
      constructor
      · rintro ⟨ec, fs'', hcall', hres⟩
        rw [hcall] at hcall'
        cases hcall'
        rcases hres with ⟨_, hmade⟩ | ⟨hec, _⟩
        · exact .inr (.inr (hiff.mp hmade))
        · exact absurd rfl hec
      · rintro (hmem | hnone | hroomy)
        · exact absurd hmem hnot
        · cases hnone
        · exact ⟨.ok, fs', hcall, .inl ⟨rfl, hiff.mpr hroomy⟩⟩
  · have hec : Cause.exists ≠ .ok := by decide
    refine iff_of_true (hrefused hec (hfail hec fun type => ?_)) (.inl ?_)
    · exact createFile_exists type (mems 0) hfile hfind
    · exact List.mem_map_of_mem (List.mem_append_right _ List.mem_cons_self)

end

/-- A second file finds room in the buffer of the directory. -/
theorem allOrNothing_iff_second :
    AllOrNothing false oneFileFs oneFileRoot inodeRoot [98] fun _ => none := (allOrNothing_iff (d := inodeRoot) rfl (by decide) rfl (by decide) oneFileDir_holds
    (by decide) (by decide) (by simp)).mpr
    (.inr (.inr ⟨by decide, .inl (by decide), fun h => by cases h⟩))

/-- A directory for which there is no memory: the call reports success. -/
theorem create_reports_ok_without_memory : ¬ ∀ (isDir : Bool) (fs : Ramfs) (dir : VfsFileShared)
    (d : ℕ) (es : List Entry) (name : List UInt8) (mems : ℕ → Realloc), dir.ramfsFile = some d →
    dir.inode < 2 ^ 64 → fs.inodeUsage d = true → fs.inodeListLen ≤ 2 ^ 64 →
    HoldsEntries (fs.inodeList d) es → (fs.inodeList d).len < 2 ^ 62 → ValidName name →
    AllOrNothing isDir fs dir d name mems := by
  intro hall
  obtain ⟨ec, fs', hcall, hres⟩ := hall true oneFileFs oneFileRoot inodeRoot oneFile [98]
    (fun _ => none) rfl (by decide) rfl (by decide) oneFileDir_holds (by decide)
    (validName_singleton (by decide))
  have hnot : [98] ∉ oneFile.map Entry.name := by decide
  have hfind : findDirent oneFileDir [98] = some none := by
    rcases oneFileDir_holds.findDirent_spec [98] with ⟨hfind, _⟩ | ⟨es₁, e, es₂, heq, hname, _⟩
    · exact hfind
    · refine absurd ?_ hnot
      rw [heq, ← hname]
      exact List.mem_map_of_mem (List.mem_append_right _ List.mem_cons_self)
  have hfile : oneFileRoot.ramfsFile = some inodeRoot := rfl
  have hdir : HoldsEntries (oneFileFs.inodeList inodeRoot) oneFile := oneFileDir_holds
  have hfree : findInode oneFileFs = some 3 := by decide
  obtain ⟨fs'', hcall', hiff⟩ := made_iff hfile hfind hfree (by decide) true (fun _ => none)
    (by decide) hdir (by decide) (by decide) (by simp) hnot (by decide)
  rw [hcall'] at hcall
  cases hcall
  rcases hres with ⟨_, hmade⟩ | ⟨hec, _⟩
  · exact ((hiff.mp hmade).dots rfl).1 rfl
  · exact hec rfl

end BadgerOS.Filesystem

import BadgerOS.Filesystem.RamfsInode

/-!
# Directory entries in a buffer

A directory holds its entries one after another, each as long as its `size` field says.

* `Entry.encode`: the bytes of an entry.
* `Tiles`: the size fields cut a buffer into the given entries.
* `findDirent_spec`, `isDirEmpty_eq`: the loops over such a buffer end and answer for the
  list of entries.
* `insertDirent_spec`, `removeDirent_spec`: the byte copies append an entry to the list and
  erase one from it.
-/

namespace BadgerOS.Filesystem

open List

open Buffer

/-- A directory entry. -/
structure Entry where
  name : List UInt8
  inode : ℕ
  deriving DecidableEq, Repr

/-- A name of 1 to 255 bytes. -/
structure ValidName (name : List UInt8) : Prop where
  pos : 0 < name.length
  le_max : name.length ≤ nameMax
  ne_zero : ∀ b ∈ name, b ≠ 0

/-- An entry whose fields hold their values. -/
structure Entry.Valid (e : Entry) : Prop where
  name : ValidName e.name
  inode_lt : e.inode < 2 ^ 64

/-- The `vfs_ramfs_dirent_t` for an entry. -/
def Entry.dirent (e : Entry) : Dirent :=
  ⟨entSize e.name.length, e.inode, e.name.length, nameArray e.name⟩

/-- The bytes of an entry that are copied to the directory. -/
def Entry.encode (e : Entry) : List UInt8 := e.dirent.bytes.take e.dirent.size

/-- The bytes of a directory. -/
def encodeAll (es : List Entry) : List UInt8 := es.flatMap Entry.encode

@[simp] theorem encodeAll_nil : encodeAll [] = [] := rfl

@[simp] theorem encodeAll_cons (e : Entry) (es : List Entry) :
    encodeAll (e :: es) = e.encode ++ encodeAll es := flatMap_cons

@[simp] theorem encodeAll_append (es₁ es₂ : List Entry) :
    encodeAll (es₁ ++ es₂) = encodeAll es₁ ++ encodeAll es₂ := flatMap_append

theorem validName_singleton {b : UInt8} (h : b ≠ 0) : ValidName [b] := ⟨by simp, by simp [nameMax], by simpa using h⟩

theorem validName_dot : ValidName dot := validName_singleton (by decide)

theorem validName_dotdot : ValidName dotdot := ⟨by decide, by decide, by simp [dotdot]⟩

theorem dotEntry_dot (inode : ℕ) : dotEntry dot inode = Entry.dirent ⟨dot, inode⟩ := by
  have hsize : entSize 1 = 32 := by norm_num [entSize]
  have hlen : dot.length = 1 := by decide
  rw [dotEntry, Entry.dirent, hlen, hsize]

theorem dotEntry_dotdot (inode : ℕ) : dotEntry dotdot inode = Entry.dirent ⟨dotdot, inode⟩ := by
  have hsize : entSize 2 = 32 := by norm_num [entSize]
  have hlen : dotdot.length = 2 := by decide
  rw [dotEntry, Entry.dirent, hlen, hsize]

/-! ## The layout of an entry -/

theorem entSize_bounds {n : ℕ} (h : n ≤ nameMax) : 24 + n < entSize n ∧ entSize n ≤ 280 := by
  have h' : n ≤ 255 := h
  rw [entSize]
  omega

theorem nameArray_eq {name : List UInt8} (h : name.length ≤ nameMax) :
    nameArray name = name ++ replicate (nameMax + 1 - name.length) 0 := by
  rw [nameArray, take_append, take_of_length_le (by omega), take_replicate, min_eq_left (by omega)]

theorem Entry.encode_eq {e : Entry} (h : ValidName e.name) :
    e.encode = toLE 8 (entSize e.name.length) ++ (toLE 8 e.inode ++ (toLE 8 e.name.length ++
      (e.name ++ replicate (entSize e.name.length - (24 + e.name.length)) 0))) := by
  obtain ⟨hlo, hhi⟩ := entSize_bounds h.le_max
  have hzeros : replicate (nameMax + 1 - e.name.length) (0 : UInt8) =
      replicate (entSize e.name.length - (24 + e.name.length)) 0 ++
        replicate (280 - entSize e.name.length) 0 := by
    rw [replicate_append_replicate, nameMax]
    congr 1
    omega
  rw [Entry.encode, Entry.dirent, Dirent.bytes, nameArray_eq h.le_max, hzeros]
  simp only [← append_assoc]
  refine take_left' ?_
  simp only [length_append, length_toLE, length_replicate]
  omega

theorem Entry.length_encode {e : Entry} (h : ValidName e.name) : e.encode.length = entSize e.name.length := by
  have hsize := entSize_bounds h.le_max
  simp only [e.encode_eq h, length_append, length_toLE, length_replicate]
  omega

theorem length_encodeAll_le {es : List Entry} (h : ∀ e ∈ es, e.Valid) : (encodeAll es).length ≤ 280 * es.length := by
  induction es with
  | nil => exact Nat.zero_le _
  | cons e es ih =>
    have he := (h e mem_cons_self).name
    have htail := ih fun e' he' => h e' (mem_cons_of_mem e he')
    have hsize := entSize_bounds he.le_max
    rw [encodeAll_cons, length_append, Entry.length_encode he, length_cons]
    omega

section

variable {e : Entry} {buf rest : List UInt8} {off : ℕ}

section

variable (h : e.Valid) (hbuf : buf.drop off = e.encode ++ rest)

include h hbuf

theorem direntSize_eq : direntSize buf off = entSize e.name.length := by
  have hsize := entSize_bounds h.name.le_max
  rw [direntSize, load, hbuf, Entry.encode_eq h.name, append_assoc,
    take_left' (length_toLE ..), ofLE_toLE (by omega)]

theorem direntInode_eq : direntInode buf off = e.inode := by
  rw [direntInode, load, ← drop_drop, hbuf, Entry.encode_eq h.name, append_assoc,
    drop_left' (length_toLE ..), append_assoc, take_left' (length_toLE ..),
    ofLE_toLE (by have := h.inode_lt; omega)]

theorem direntNameLen_eq : direntNameLen buf off = e.name.length := by
  have hmax : e.name.length ≤ 255 := h.name.le_max
  rw [direntNameLen, load, show off + 16 = off + 8 + 8 by rfl, ← drop_drop, ← drop_drop,
    hbuf, Entry.encode_eq h.name, append_assoc, drop_left' (length_toLE ..),
    append_assoc, drop_left' (length_toLE ..), append_assoc,
    take_left' (length_toLE ..), ofLE_toLE (by omega)]

theorem direntName_eq : direntName buf off = e.name := by
  have hsize := entSize_bounds h.name.le_max
  obtain ⟨k, hk⟩ : ∃ k, entSize e.name.length - (24 + e.name.length) = k + 1 :=
    ⟨entSize e.name.length - (24 + e.name.length) - 1, by omega⟩
  have hhead : (toLE 8 (entSize e.name.length) ++ (toLE 8 e.inode ++
      toLE 8 e.name.length)).length = 24 := by
    simp [length_toLE]
  rw [direntName, ← drop_drop, hbuf, Entry.encode_eq h.name, hk]
  simp only [← append_assoc] at hhead ⊢
  rw [append_assoc, append_assoc, drop_left' hhead,
    takeWhile_append_of_pos fun b hb => decide_eq_true (h.name.ne_zero b hb),
    replicate_succ, cons_append, takeWhile_cons_of_neg (by simp), append_nil]

end

end

/-! ## Buffers of entries -/

/-- From `off` on the size fields cut the first `len` bytes of `buf` into the entries `es`. -/
def Tiles (buf : List UInt8) (len : ℕ) : ℕ → List Entry → Prop
  | off, [] => off = len
  | off, e :: es =>
    direntInode buf off = e.inode ∧ direntNameLen buf off = e.name.length ∧
      direntName buf off = e.name ∧ direntSize buf off = e.encode.length ∧
      0 < direntSize buf off ∧ Tiles buf len (off + direntSize buf off) es

theorem tiles_of_drop {buf rest : List UInt8} {es : List Entry} {off : ℕ}
    (h : ∀ e ∈ es, e.Valid) (hbuf : buf.drop off = encodeAll es ++ rest) :
    Tiles buf (off + (encodeAll es).length) off es := by
  induction es generalizing off with
  | nil => rfl
  | cons e es ih =>
    have he : e.Valid := h e mem_cons_self
    rw [encodeAll_cons, append_assoc] at hbuf
    have hsize := direntSize_eq he hbuf
    have hlen := Entry.length_encode he.name
    have hnext : buf.drop (off + direntSize buf off) = encodeAll es ++ rest := by
      rw [← drop_drop, hbuf, hsize, ← hlen, drop_left]
    have htail := ih (fun e' he' => h e' (mem_cons_of_mem e he')) hnext
    refine ⟨direntInode_eq he hbuf, direntNameLen_eq he hbuf, direntName_eq he hbuf,
      hsize.trans hlen.symm, ?_, ?_⟩
    · have := entSize_bounds he.name.le_max
      omega
    · rw [encodeAll_cons, length_append, hlen, ← hsize, ← add_assoc]
      exact htail

namespace Tiles

variable {buf : List UInt8} {len off : ℕ} {es : List Entry}

theorem length_le (h : Tiles buf len off es) : off + es.length ≤ len := by
  induction es generalizing off with
  | nil => exact le_of_eq h
  | cons e es ih =>
    obtain ⟨_, _, _, _, hpos, htail⟩ := h
    have := ih htail
    rw [length_cons]
    omega

/-- The loop of `find_dirent` stops at the first entry with the name, or at the end. -/
theorem findLoop_spec (h : Tiles buf len off es) (hlen : len < 2 ^ 64) (name : List UInt8)
    {rounds : ℕ} (hrounds : es.length < rounds) :
    (findLoop buf len name rounds off = some none ∧ name ∉ es.map Entry.name) ∨
      ∃ es₁ e es₂, es = es₁ ++ e :: es₂ ∧ e.name = name ∧ name ∉ es₁.map Entry.name ∧
        findLoop buf len name rounds off = some (some (off + (encodeAll es₁).length)) := by
  induction es generalizing off rounds with
  | nil =>
    obtain ⟨rounds, rfl⟩ := Nat.exists_eq_add_one_of_ne_zero (by omega : rounds ≠ 0)
    have hend : ¬ off < len := not_lt.mpr (le_of_eq h.symm)
    exact .inl ⟨by rw [findLoop, if_neg hend], not_mem_nil⟩
  | cons e es ih =>
    obtain ⟨rounds, rfl⟩ := Nat.exists_eq_add_one_of_ne_zero (by omega : rounds ≠ 0)
    have hle := h.length_le
    obtain ⟨_, _, hname, hsize, hpos, htail⟩ := h
    have hle' := htail.length_le
    rw [length_cons] at hle hrounds
    rw [findLoop, if_pos (by omega), hname, Nat.mod_eq_of_lt (by omega)]
    by_cases heq : name = e.name
    · rw [if_pos heq]
      exact .inr ⟨[], e, es, rfl, heq.symm, not_mem_nil, rfl⟩
    · rw [if_neg heq]
      rcases ih htail (by omega : es.length < rounds) with
        ⟨hfind, hmem⟩ | ⟨es₁, e', es₂, rfl, rfl, hmem, hfind⟩
      · refine .inl ⟨hfind, ?_⟩
        rw [map_cons, mem_cons, not_or]
        exact ⟨heq, hmem⟩
      · refine .inr ⟨e :: es₁, e', es₂, rfl, rfl, ?_, ?_⟩
        · rw [map_cons, mem_cons, not_or]
          exact ⟨heq, hmem⟩
        · rw [hfind, hsize, encodeAll_cons, length_append, add_assoc]

/-- The loop of `is_dir_empty` tests whether there are other entries than `.` and `..`. -/
theorem emptyLoop_eq (h : Tiles buf len off es) (hlen : len < 2 ^ 64) {rounds : ℕ} (hrounds : es.length < rounds) :
    emptyLoop buf len rounds off = some (es.all fun e => e.name = dot || e.name = dotdot) := by
  induction es generalizing off rounds with
  | nil =>
    obtain ⟨rounds, rfl⟩ := Nat.exists_eq_add_one_of_ne_zero (by omega : rounds ≠ 0)
    have hend : ¬ off < len := not_lt.mpr (le_of_eq h.symm)
    rw [emptyLoop, if_neg hend, all_nil]
  | cons e es ih =>
    obtain ⟨rounds, rfl⟩ := Nat.exists_eq_add_one_of_ne_zero (by omega : rounds ≠ 0)
    have hle := h.length_le
    obtain ⟨_, _, hname, _, hpos, htail⟩ := h
    have hle' := htail.length_le
    rw [length_cons] at hle hrounds
    rw [emptyLoop, if_pos (by omega), hname, Nat.mod_eq_of_lt (by omega), all_cons]
    by_cases hdot : dot ≠ e.name ∧ dotdot ≠ e.name
    · rw [if_pos hdot]
      simp [Ne.symm hdot.1, Ne.symm hdot.2]
    · have hself : (decide (e.name = dot) || decide (e.name = dotdot)) = true := by
        rw [Bool.or_eq_true, decide_eq_true_iff, decide_eq_true_iff]
        by_contra hno
        exact hdot ⟨fun h => hno (.inl h.symm), fun h => hno (.inr h.symm)⟩
      rw [if_neg hdot, hself, Bool.true_and]
      exact ih htail (by omega)

end Tiles

/-! ## Directories -/

/-- The inode is a directory with the given entries. -/
structure HoldsEntries (dir : Inode) (es : List Entry) : Prop where
  wf : dir.Wf
  contents_eq : dir.contents = encodeAll es
  valid : ∀ e ∈ es, e.Valid

/-- The inodes differ in their data only. -/
structure SameFile (inode inode' : Inode) : Prop where
  inode_eq : inode'.inode = inode.inode
  mode_eq : inode'.mode = inode.mode
  links_eq : inode'.links = inode.links

theorem SameFile.hasType_eq {inode inode' : Inode} (h : SameFile inode inode') (type : FileType) :
    inode'.hasType type = inode.hasType type := by
  rw [Inode.hasType, Inode.hasType, h.mode_eq]

theorem Resized.sameFile {inode inode' : Inode} {size : ℕ} (h : Resized inode size inode') :
    SameFile inode inode' := ⟨h.inode_eq, h.mode_eq, h.links_eq⟩

namespace HoldsEntries

variable {dir : Inode} {es es₁ es₂ : List Entry} {e : Entry}

section

variable (h : HoldsEntries dir es)

include h

theorem length_eq : (encodeAll es).length = dir.len := by
  rw [← h.contents_eq, h.wf.length_contents]

theorem buf_eq : dir.buf = encodeAll es ++ dir.buf.drop dir.len := by
  rw [← h.contents_eq, Inode.contents, take_append_drop]

theorem tiles : Tiles dir.buf dir.len 0 es := by
  have htiles := tiles_of_drop h.valid (drop_zero.trans h.buf_eq)
  rwa [zero_add, h.length_eq] at htiles

theorem len_lt : dir.len < 2 ^ 64 := by
  have := h.wf.len_lt
  omega

theorem findDirent_spec (name : List UInt8) : (findDirent dir name = some none ∧ name ∉ es.map Entry.name) ∨
      ∃ es₁ e es₂, es = es₁ ++ e :: es₂ ∧ e.name = name ∧ name ∉ es₁.map Entry.name ∧
        findDirent dir name = some (some (encodeAll es₁).length) := by
  have hrounds : es.length < dir.len + 1 := by
    have := h.tiles.length_le
    omega
  have hfind := h.tiles.findLoop_spec h.len_lt name hrounds
  simp only [zero_add] at hfind
  exact hfind

theorem isDirEmpty_eq : isDirEmpty dir = some (es.all fun e => e.name = dot || e.name = dotdot) := by
  have hrounds : es.length < dir.len + 1 := by
    have := h.tiles.length_le
    omega
  exact h.tiles.emptyLoop_eq h.len_lt hrounds

end

theorem drop_length (h : HoldsEntries dir (es₁ ++ es₂)) :
    dir.buf.drop (encodeAll es₁).length = encodeAll es₂ ++ dir.buf.drop dir.len := by
  rw [h.buf_eq, encodeAll_append, append_assoc, drop_left, ← append_assoc,
    drop_left' (by rw [← encodeAll_append, h.length_eq])]

section

variable (h : HoldsEntries dir (es₁ ++ e :: es₂))

include h

theorem drop_mid : dir.buf.drop (encodeAll es₁).length = e.encode ++ (encodeAll es₂ ++ dir.buf.drop dir.len) := by
  rw [h.drop_length, encodeAll_cons, append_assoc]

theorem valid_of_mid : e.Valid := h.valid e (mem_append_right _ mem_cons_self)

theorem direntInode_mid : direntInode dir.buf (encodeAll es₁).length = e.inode := direntInode_eq h.valid_of_mid h.drop_mid

end

/-- `insert_dirent` appends the entry when there is room for it in the buffer or in a larger one. -/
theorem insertDirent_room (h : HoldsEntries dir es) (he : e.Valid) (hlen : dir.len < 2 ^ 62)
    {mem : Realloc} (hroom : dir.len + entSize e.name.length ≤ dir.cap ∨ mem ≠ none) :
    ∃ dir', insertDirent .ok dir e.dirent mem = some (true, .ok, dir') ∧
      HoldsEntries dir' (es ++ [e]) ∧ SameFile dir dir' := by
  have hbounds := entSize_bounds he.name.le_max
  have hsize : e.dirent.size = e.encode.length := (Entry.length_encode he.name).symm
  have hlen' : dir.len + e.encode.length < 2 ^ 63 := by
    rw [Entry.length_encode he.name]
    omega
  obtain ⟨done, ec, dir', heq, hec, ⟨rfl, hr⟩ | ⟨_, hmem, hcap, _⟩⟩ :=
    resizeInode_spec .ok mem h.wf hlen'
  · obtain rfl : ec = .ok := hec.elim id id
    have hcap := hr.wf.len_le_cap
    rw [hr.len_eq] at hcap
    rw [insertDirent, hsize, Nat.mod_eq_of_lt (by omega), heq]
    refine ⟨_, rfl, ⟨hr.wf.store (by omega), ?_, ?_⟩, hr.sameFile.1, hr.sameFile.2, hr.sameFile.3⟩
    · have hold : dir'.buf.take dir.len = encodeAll es := by
        rw [hr.take_eq _ le_rfl (by omega), ← Inode.contents, h.contents_eq]
      have hnew : e.dirent.bytes.take e.encode.length = e.encode := by
        rw [← hsize, Entry.encode]
      rw [Inode.contents, hr.len_eq, hnew, take_store_end (by rw [hr.wf.length_buf]; exact hcap),
        hold, encodeAll_append, encodeAll_cons, encodeAll_nil, append_nil]
    · intro e' he'
      rcases mem_append.mp he' with hmem | hmem
      · exact h.valid e' hmem
      · rw [mem_singleton.mp hmem]
        exact he
  · rw [Entry.length_encode he.name] at hcap
    rcases hroom with hroom | hroom
    · omega
    · exact absurd hmem hroom

theorem insertDirent_spec (h : HoldsEntries dir es) (he : e.Valid) (hlen : dir.len < 2 ^ 62) (fill : ℕ → UInt8) :
    ∃ dir', insertDirent .ok dir e.dirent (some fill) = some (true, .ok, dir') ∧
      HoldsEntries dir' (es ++ [e]) ∧ SameFile dir dir' :=
  h.insertDirent_room he hlen (.inr (Option.some_ne_none fill))

theorem len_append_lt {dir' : Inode} (h : HoldsEntries dir es) (he : e.Valid)
    (h' : HoldsEntries dir' (es ++ [e])) : dir'.len ≤ dir.len + 280 := by
  have hsize := entSize_bounds he.name.le_max
  rw [← h'.length_eq, encodeAll_append, length_append, h.length_eq, encodeAll_cons,
    encodeAll_nil, append_nil, Entry.length_encode he.name]
  omega

theorem insertDots_spec (h : HoldsEntries dir es) (hlen : dir.len < 2 ^ 61) {j d : ℕ}
    (hj : j < 2 ^ 64) (hd : d < 2 ^ 64) (fill1 fill2 : ℕ → UInt8) :
    ∃ n1 n2, insertDirent .ok dir (dotEntry dot j) (some fill1) = some (true, .ok, n1) ∧
      insertDirent .ok n1 (dotEntry dotdot d) (some fill2) = some (true, .ok, n2) ∧
      HoldsEntries n2 (es ++ [⟨dot, j⟩] ++ [⟨dotdot, d⟩]) ∧ SameFile dir n2 := by
  have hdot : Entry.Valid ⟨dot, j⟩ := ⟨validName_dot, hj⟩
  have hdotdot : Entry.Valid ⟨dotdot, d⟩ := ⟨validName_dotdot, hd⟩
  obtain ⟨n1, hinsert1, hholds1, hsame1⟩ := h.insertDirent_spec hdot (by omega) fill1
  have hlen1 := h.len_append_lt hdot hholds1
  obtain ⟨n2, hinsert2, hholds2, hsame2⟩ :=
    hholds1.insertDirent_spec hdotdot (by omega : n1.len < 2 ^ 62) fill2
  refine ⟨n1, n2, ?_, ?_, hholds2, ?_⟩
  · rw [dotEntry_dot]
    exact hinsert1
  · rw [dotEntry_dotdot]
    exact hinsert2
  · exact ⟨hsame2.inode_eq.trans hsame1.inode_eq, hsame2.mode_eq.trans hsame1.mode_eq,
      hsame2.links_eq.trans hsame1.links_eq⟩

theorem removeDirent_spec (h : HoldsEntries dir (es₁ ++ e :: es₂)) (fill : ℕ → UInt8) :
    ∃ dir', removeDirent dir (encodeAll es₁).length (some fill) = some dir' ∧
      HoldsEntries dir' (es₁ ++ es₂) ∧ SameFile dir dir' := by
  have hlen : dir.len = (encodeAll es₁).length + (e.encode.length + (encodeAll es₂).length) := by
    rw [← h.length_eq, encodeAll_append, encodeAll_cons, length_append, length_append]
  have hsize : direntSize dir.buf (encodeAll es₁).length = e.encode.length := by
    rw [Entry.length_encode h.valid_of_mid.name]
    exact direntSize_eq h.valid_of_mid h.drop_mid
  have hlt := h.wf.len_lt
  have hcap := h.wf.len_le_cap
  have hnew : (dir.len + 2 ^ 64 - e.encode.length) % 2 ^ 64 =
      (encodeAll es₁).length + (encodeAll es₂).length := by
    omega
  have hrest : dir.buf.drop ((encodeAll es₁).length + e.encode.length) =
      encodeAll es₂ ++ dir.buf.drop dir.len := by
    rw [← drop_drop, h.drop_mid, drop_left]
  have hmoved : (encodeAll es₂).length ≤ (load dir.buf ((encodeAll es₁).length + e.encode.length)
        ((encodeAll es₁).length + (encodeAll es₂).length)).length := by
    rw [load, length_take, length_drop, h.wf.length_buf]
    omega
  have hstore : (store dir.buf (encodeAll es₁).length
      (load dir.buf ((encodeAll es₁).length + e.encode.length)
        ((encodeAll es₁).length + (encodeAll es₂).length))).take
          ((encodeAll es₁).length + (encodeAll es₂).length) =
      encodeAll es₁ ++ encodeAll es₂ := by
    rw [take_store_add (by rw [h.wf.length_buf]; omega) hmoved, load, take_take,
      min_eq_left (by omega), hrest, take_left, h.buf_eq, encodeAll_append, append_assoc,
      take_left]
  obtain ⟨done, ec, dir', heq, _, ⟨rfl, hr⟩ | ⟨_, hmem, _⟩⟩ :=
    resizeInode_spec .ok (some fill) (h.wf.store (by omega : (encodeAll es₁).length ≤ dir.cap))
      (by omega : (encodeAll es₁).length + (encodeAll es₂).length < 2 ^ 63)
  · rw [removeDirent, hsize, hnew]
    refine ⟨dir', by rw [heq]; rfl, ⟨hr.wf, ?_, ?_⟩, hr.sameFile.1, hr.sameFile.2, hr.sameFile.3⟩
    · have htake := hr.take_eq _ (by rw [hlen]; omega) le_rfl
      rw [Inode.contents, hr.len_eq, htake, hstore, encodeAll_append]
    · intro e' he'
      refine h.valid e' ?_
      rcases mem_append.mp he' with hmem | hmem
      · exact mem_append_left _ hmem
      · exact mem_append_right _ (mem_cons_of_mem e hmem)
  · cases hmem

end HoldsEntries

/-! ## New inodes -/

theorem hasType_newInode (j : ℕ) (type : FileType) : (newInode j type).hasType .dir = decide (type = .dir) := by
  show ((type.value <<< modeBit ||| 0o777) &&& modeMask == FileType.dir.value <<< modeBit) =
    decide (type = .dir)
  cases type <;> decide

theorem holdsEntries_newInode (j : ℕ) (type : FileType) : HoldsEntries (newInode j type) [] where
  wf := ⟨le_rfl, rfl, by simp [newInode]⟩
  contents_eq := rfl
  valid _ he := absurd he not_mem_nil

theorem nameLength_eq {name : List UInt8} (h : ValidName name) : nameLength name = name.length := by
  have := h.le_max
  rw [nameLength]
  omega

/-! ## Creating -/

section

variable {fs fs1 : Ramfs} {dir : VfsFileShared} {d j off : ℕ} {name : List UInt8} {es : List Entry}

theorem createFile_exists (type : FileType) (mem : Realloc)
    (hfile : dir.ramfsFile = some d) (hfind : findDirent (fs.inodeList d) name = some (some off)) :
    createFile fs dir name type mem = some (.exists, fs, none) := by
  simp only [createFile, hfile, Option.bind_eq_bind, Option.bind_some, hfind, Option.pure_def]

section

variable (type : FileType) (hfile : dir.ramfsFile = some d)
  (hfind : findDirent (fs.inodeList d) name = some none)

include hfile hfind

theorem createFile_nospace (mem : Realloc) (hfree : findInode fs = none) :
    createFile fs dir name type mem = some (.nospace, fs, none) := by
  simp only [createFile, hfile, Option.bind_eq_bind, Option.bind_some, hfind, hfree,
    Option.pure_def]

/-- `create_file` of a file that is not there. The directory may have been freed and may itself
    be the inode that is taken; it is empty then. -/
theorem createFile_new (fill : ℕ → UInt8) (hdir : HoldsEntries (fs.inodeList d) es)
    (hname : ValidName name) (hj : findInode fs = some j) (hjlt : j < 2 ^ 64)
    (hlen : (fs.inodeList d).len < 2 ^ 62) :
    ∃ dir', HoldsEntries dir' ((if d = j then [] else es) ++ [⟨name, j⟩]) ∧
      SameFile ((fs.setInode j (newInode j type)).inodeList d) dir' ∧
      createFile fs dir name type (some fill) = some
        (.ok, ((fs.setInode j (newInode j type)).setInode d dir').setUsage j true, some j) := by
  have hholds : HoldsEntries ((fs.setInode j (newInode j type)).inodeList d)
      (if d = j then [] else es) ∧
        ((fs.setInode j (newInode j type)).inodeList d).len < 2 ^ 62 := by
    by_cases hdj : d = j
    · rw [hdj, setInode_same, if_pos rfl]
      exact ⟨holdsEntries_newInode j type, by simp [newInode]⟩
    · rw [setInode_of_ne _ _ hdj, if_neg hdj]
      exact ⟨hdir, hlen⟩
  have he : Entry.Valid ⟨name, j⟩ := ⟨hname, hjlt⟩
  have hent : (⟨entSize (nameLength name), j, nameLength name, nameArray name⟩ : Dirent) =
      Entry.dirent ⟨name, j⟩ := by
    rw [nameLength_eq hname, Entry.dirent]
  obtain ⟨dir', hinsert, hholds', hsame⟩ := hholds.1.insertDirent_spec he hholds.2 fill
  refine ⟨dir', hholds', hsame, ?_⟩
  simp only [createFile, hfile, Option.bind_eq_bind, Option.bind_some, hfind, hj, hent, hinsert,
    if_true, Option.pure_def]

end

theorem HoldsEntries.createDir_spec {inode : Inode} (h : HoldsEntries inode es) (fills : ℕ → ℕ → UInt8)
    (hcreate : createFile fs dir name .dir (some (fills 0)) = some (.ok, fs1, some j))
    (hinode : fs1.inodeList j = inode) (hnum : inode.inode = j) (hlen : inode.len < 2 ^ 61)
    (hj : j < 2 ^ 64) (hd : dir.inode < 2 ^ 64) :
    ∃ n1 n2, vfsRamfsCreateDir fs dir name (fun k => some (fills k)) =
        some (.ok, (fs1.setInode j n1).setInode j n2) ∧
      HoldsEntries n2 (es ++ [⟨dot, j⟩] ++ [⟨dotdot, dir.inode⟩]) ∧ SameFile inode n2 := by
  obtain ⟨n1, n2, hinsert1, hinsert2, hdots, hsame⟩ :=
    h.insertDots_spec hlen hj hd (fills 1) (fills 2)
  refine ⟨n1, n2, ?_, hdots, hsame⟩
  simp only [vfsRamfsCreateDir, hcreate, Option.bind_eq_bind, Option.bind_some, ne_eq,
    not_true_eq_false, if_false, hinode, hnum, hinsert1, setInode_same, hinsert2,
    Option.pure_def]

end

/-! ## A fresh filesystem -/

/-- What `vfs_ramfs_mount` makes: all inodes empty but the root directory, which holds `.`
    and `..`. -/
theorem mount_spec {usage : ℕ → Bool} (fills : ℕ → ℕ → UInt8) :
    ∃ root, vfsRamfsMount .ok false usage (fun k => some (fills k)) = some (.ok, some
        ((⟨fun _ => .zero, Function.update (fun i => if i < 30 then false else usage i) inodeRoot
          true, 32⟩ : Ramfs).setInode inodeRoot root)) ∧
      HoldsEntries root [⟨dot, inodeRoot⟩, ⟨dotdot, inodeRoot⟩] ∧
      SameFile (newInode inodeRoot .dir) root := by
  obtain ⟨n1, n2, hinsert1, hinsert2, hdots, hnew⟩ :=
    (holdsEntries_newInode inodeRoot .dir).insertDots_spec (by simp [newInode])
      (by decide : inodeRoot < 2 ^ 64) (by decide : inodeRoot < 2 ^ 64) (fills 0) (fills 1)
  refine ⟨n2, ?_, hdots, hnew⟩
  unfold vfsRamfsMount
  simp [hinsert1, hinsert2]

end BadgerOS.Filesystem

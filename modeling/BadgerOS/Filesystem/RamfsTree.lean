import BadgerOS.Filesystem.Dirents

/-!
# The directory tree

The tree that `vfs_ramfs_create_file`, `vfs_ramfs_create_dir` and `vfs_ramfs_unlink`
maintain, with lists of entries in place of buffers.

* `Tree`, `treeStep`: the tree and what the three calls do to it.
* `TreeInv`: names are distinct in a directory and every entry but `.` and `..` names an
  inode of its own; kept by `Tree.create` and `Tree.unlink`.
* `TreeInv.length_le`: a directory has at most 34 entries.
-/

namespace BadgerOS.Filesystem

open Buffer Function List

/-! ## The directory tree -/

/-- The inodes in use, the directories among them and their entries. -/
structure Tree where
  used : ℕ → Bool
  isDir : ℕ → Bool
  entries : ℕ → List Entry

/-- The entry is `.` or `..`. -/
def Entry.isDot (e : Entry) : Bool := e.name = dot || e.name = dotdot

namespace Tree

/-- `d` is a directory in use. -/
def IsDirectory (tr : Tree) (d : ℕ) : Prop := tr.used d = true ∧ tr.isDir d = true

/-- The names in a directory. -/
def names (tr : Tree) (d : ℕ) : List (List UInt8) := (tr.entries d).map Entry.name

/-- The first inode that is not in use. -/
def free (tr : Tree) : Option ℕ :=
  (List.range' inodeFirst (32 - inodeFirst)).find? fun i => !tr.used i

/-- The entries of a new file or directory. -/
def newEntries (type : FileType) (d j : ℕ) : List Entry :=
  if type = .dir then [⟨dot, j⟩, ⟨dotdot, d⟩] else []

/-- A new inode `j` in the directory `d`. -/
def create (tr : Tree) (type : FileType) (d : ℕ) (name : List UInt8) (j : ℕ) : Tree where
  used := update tr.used j true
  isDir := update tr.isDir j (type = .dir)
  entries := update (update tr.entries d (tr.entries d ++ [⟨name, j⟩])) j
    (newEntries type d j)

/-- The entry `e` is taken out of `d` and its inode is given up. -/
def unlink (tr : Tree) (d : ℕ) (e : Entry) : Tree :=
  { tr with
    used := update tr.used e.inode false
    entries := update tr.entries d ((tr.entries d).erase e) }

/-- Creating a file or a directory. -/
def createStep (tr : Tree) (type : FileType) (d : ℕ) (name : List UInt8) : Cause × Tree :=
  if name ∈ tr.names d then (.exists, tr)
  else
    match tr.free with
    | none => (.nospace, tr)
    | some j => (.ok, tr.create type d name j)

/-- Unlinking a name. -/
def unlinkStep (tr : Tree) (d : ℕ) (name : List UInt8) : Cause × Tree :=
  if name = dot ∨ name = dotdot then (.param, tr)
  else
    match (tr.entries d).find? fun e => e.name = name with
    | none => (.notfound, tr)
    | some e =>
      if tr.isDir e.inode && !(tr.entries e.inode).all Entry.isDot then (.notempty, tr)
      else (.ok, tr.unlink d e)

/-- The tree of a filesystem that has just been mounted. -/
def mounted (usage : ℕ → Bool) : Tree where
  used := update (fun i => if i < 30 then false else usage i) inodeRoot true
  isDir i := i = inodeRoot
  entries i := if i = inodeRoot then [⟨dot, inodeRoot⟩, ⟨dotdot, inodeRoot⟩] else []

end Tree

/-- The calls that change directories. `fills` is what the calls of `realloc` leave in new bytes. -/
inductive DirCall
  | createFile (dir : VfsFileShared) (name : List UInt8) (fills : ℕ → ℕ → UInt8)
  | createDir (dir : VfsFileShared) (name : List UInt8) (fills : ℕ → ℕ → UInt8)
  | unlink (dir : VfsFileShared) (name : List UInt8) (fills : ℕ → ℕ → UInt8)

/-- The directory that a call is made on. -/
def DirCall.dir : DirCall → VfsFileShared
  | .createFile dir _ _ | .createDir dir _ _ | .unlink dir _ _ => dir

/-- The name that a call is given. -/
def DirCall.name : DirCall → List UInt8
  | .createFile _ name _ | .createDir _ name _ | .unlink _ name _ => name

/-- What a call does to the tree. -/
def treeStep (tr : Tree) : DirCall → Cause × Tree
  | .createFile dir name _ => tr.createStep .reg dir.inode name
  | .createDir dir name _ => tr.createStep .dir dir.inode name
  | .unlink dir name _ => tr.unlinkStep dir.inode name

/-! ## The invariant of the tree -/

/-- Names are distinct in a directory. Every entry but `.` and `..` names an inode in use that
    no other such entry names. -/
structure TreeInv (tr : Tree) : Prop where
  dir_lt : ∀ {d}, tr.IsDirectory d → d < 32
  nodup : ∀ {d}, tr.IsDirectory d → (tr.names d).Nodup
  child_used : ∀ {d e}, tr.IsDirectory d → e ∈ tr.entries d → e.isDot = false →
    tr.used e.inode = true
  child_lt : ∀ {d e}, tr.IsDirectory d → e ∈ tr.entries d → e.isDot = false → e.inode < 32
  child_ne : ∀ {d e}, tr.IsDirectory d → e ∈ tr.entries d → e.isDot = false → e.inode ≠ d
  unique : ∀ {d d' e e'}, tr.IsDirectory d → tr.IsDirectory d' → e ∈ tr.entries d →
    e' ∈ tr.entries d' → e.isDot = false → e'.isDot = false → e.inode = e'.inode →
    d = d' ∧ e = e'

section

variable {tr : Tree} {type : FileType} {d i j : ℕ} {name : List UInt8} {e e' : Entry}

theorem isDot_of_mem_newEntries (h : e ∈ Tree.newEntries type d j) : e.isDot = true := by
  rw [Tree.newEntries] at h
  split_ifs at h
  · rcases mem_pair.mp h with rfl | rfl <;> rfl
  · exact absurd h not_mem_nil

theorem nodup_newEntries : ((Tree.newEntries type d j).map Entry.name).Nodup := by
  rw [Tree.newEntries]
  split_ifs
  · show [dot, dotdot].Nodup
    decide
  · exact nodup_nil

namespace Tree

theorem isDir_create_self : (tr.create type d name j).isDir j = decide (type = .dir) := update_self (f := tr.isDir) ..

theorem isDir_create_of_ne (h : i ≠ j) : (tr.create type d name j).isDir i = tr.isDir i := update_of_ne (f := tr.isDir) h ..

theorem isDirectory_create_of_ne (h : i ≠ j) : (tr.create type d name j).IsDirectory i ↔ tr.IsDirectory i := by
  simp only [IsDirectory, create, update_of_ne h]

theorem entries_create_self : (tr.create type d name j).entries j = newEntries type d j := update_self ..

theorem entries_create_dir (h : d ≠ j) : (tr.create type d name j).entries d = tr.entries d ++ [⟨name, j⟩] := by
  simp only [create, update_of_ne h, update_self]

theorem entries_create_of_ne (hj : i ≠ j) (hd : i ≠ d) : (tr.create type d name j).entries i = tr.entries i := by
  simp only [create, update_of_ne hj, update_of_ne hd]

/-- The entries but `.` and `..` after an inode was created: the new one and the old ones. -/
theorem child_create (hi : (tr.create type d name j).IsDirectory i)
    (he : e ∈ (tr.create type d name j).entries i) (hdot : e.isDot = false) :
    i ≠ j ∧ tr.IsDirectory i ∧ (i = d ∧ e = ⟨name, j⟩ ∨ e ∈ tr.entries i) := by
  by_cases hij : i = j
  · subst hij
    rw [entries_create_self] at he
    rw [isDot_of_mem_newEntries he] at hdot
    cases hdot
  · refine ⟨hij, (isDirectory_create_of_ne hij).mp hi, ?_⟩
    by_cases hid : i = d
    · subst hid
      rw [entries_create_dir hij, mem_append, mem_singleton] at he
      exact he.symm.imp_left fun h => ⟨rfl, h⟩
    · rw [entries_create_of_ne hij hid] at he
      exact .inr he

theorem isDirectory_unlink : (tr.unlink d e).IsDirectory i ↔ i ≠ e.inode ∧ tr.IsDirectory i := by
  by_cases h : i = e.inode
  · simp [IsDirectory, unlink, h]
  · simp [IsDirectory, unlink, h]

theorem entries_unlink_dir : (tr.unlink d e).entries d = (tr.entries d).erase e := update_self ..

theorem entries_unlink_of_ne (h : i ≠ d) : (tr.unlink d e).entries i = tr.entries i := update_of_ne h ..

end Tree

namespace TreeInv

variable (h : TreeInv tr) (hd : tr.IsDirectory d)

include h hd

theorem nodup_entries : (tr.entries d).Nodup := (h.nodup hd).of_map

/-- There are no more entries than inodes, apart from `.` and `..`. -/
theorem length_le : (tr.entries d).length ≤ 34 := by
  have hdots : (((tr.entries d).filter Entry.isDot).map Entry.name).length ≤
      [dot, dotdot].length := by
    have hnodup : (((tr.entries d).filter Entry.isDot).map Entry.name).Nodup :=
      (h.nodup hd).sublist (filter_sublist.map _)
    refine (subperm_of_subset hnodup fun name hname => ?_).length_le
    obtain ⟨e, he, rfl⟩ := mem_map.mp hname
    have hdot := (mem_filter.mp he).2
    rw [Entry.isDot, Bool.or_eq_true, decide_eq_true_iff, decide_eq_true_iff] at hdot
    exact mem_pair.mpr hdot
  have hothers : (((tr.entries d).filter fun e => !e.isDot).map Entry.inode).length ≤
      (List.range 32).length := by
    have hdot : ∀ {e}, e ∈ (tr.entries d).filter (fun e => !e.isDot) →
        e ∈ tr.entries d ∧ e.isDot = false := by
      intro e he
      rw [mem_filter, Bool.not_eq_true'] at he
      exact he
    have hnodup : (((tr.entries d).filter fun e => !e.isDot).map Entry.inode).Nodup := by
      refine ((h.nodup_entries hd).filter _).map_on fun e he e' he' heq => ?_
      exact (h.unique hd hd (hdot he).1 (hdot he').1 (hdot he).2 (hdot he').2 heq).2
    refine (subperm_of_subset hnodup fun i hi => ?_).length_le
    obtain ⟨e, he, rfl⟩ := mem_map.mp hi
    exact mem_range.mpr (h.child_lt hd (hdot he).1 (hdot he).2)
  have hsplit : (tr.entries d).length = ((tr.entries d).filter Entry.isDot).length +
      ((tr.entries d).filter fun e => !e.isDot).length := length_eq_length_filter_add _
  rw [length_map] at hdots hothers
  rw [length_range] at hothers
  simp only [length_cons, length_nil] at hdots
  omega

theorem create (hname : name ∉ tr.names d)
    (hj : tr.used j = false) (hjlt : j < 32) : TreeInv (tr.create type d name j) := by
  have hdj : d ≠ j := by
    rintro rfl
    rw [hd.1] at hj
    cases hj
  -- no old entry names the new inode
  have hfresh : ∀ {i e}, tr.IsDirectory i → e ∈ tr.entries i → e.isDot = false → e.inode ≠ j := by
    rintro i e hi he hdot rfl
    rw [h.child_used hi he hdot] at hj
    cases hj
  refine ⟨?_, ?_, ?_, ?_, ?_, ?_⟩
  · intro i hi
    by_cases hij : i = j
    · exact hij ▸ hjlt
    · exact h.dir_lt ((Tree.isDirectory_create_of_ne hij).mp hi)
  · intro i hi
    rw [Tree.names]
    by_cases hij : i = j
    · subst hij
      rw [Tree.entries_create_self]
      exact nodup_newEntries
    · have hnodup := h.nodup ((Tree.isDirectory_create_of_ne hij).mp hi)
      by_cases hid : i = d
      · subst hid
        rw [Tree.entries_create_dir hij, map_append, map_singleton, ← concat_eq_append]
        exact hnodup.concat hname
      · rw [Tree.entries_create_of_ne hij hid]
        exact hnodup
  · intro i e hi he hdot
    obtain ⟨_, hi, ⟨rfl, rfl⟩ | he⟩ := Tree.child_create hi he hdot
    · exact update_self ..
    · exact (update_of_ne (hfresh hi he hdot) ..).trans (h.child_used hi he hdot)
  · intro i e hi he hdot
    obtain ⟨_, hi, ⟨rfl, rfl⟩ | he⟩ := Tree.child_create hi he hdot
    · exact hjlt
    · exact h.child_lt hi he hdot
  · intro i e hi he hdot
    obtain ⟨hij, hi, ⟨rfl, rfl⟩ | he⟩ := Tree.child_create hi he hdot
    · exact hdj.symm
    · exact h.child_ne hi he hdot
  · intro i i' e e' hi hi' he he' hdot hdot' heq
    obtain ⟨_, hdir, hnew⟩ := Tree.child_create hi he hdot
    obtain ⟨_, hdir', hnew'⟩ := Tree.child_create hi' he' hdot'
    rcases hnew with ⟨rfl, rfl⟩ | hold
    · rcases hnew' with ⟨rfl, rfl⟩ | hold'
      · exact ⟨rfl, rfl⟩
      · exact absurd heq.symm (hfresh hdir' hold' hdot')
    · rcases hnew' with ⟨rfl, rfl⟩ | hold'
      · exact absurd heq (hfresh hdir hold hdot)
      · exact h.unique hdir hdir' hold hold' hdot hdot' heq

theorem child_unlink (he' : e' ∈ (tr.unlink d e).entries i) : e' ∈ tr.entries i ∧ (i = d → e' ≠ e) := by
  by_cases hid : i = d
  · subst hid
    rw [Tree.entries_unlink_dir, (h.nodup_entries hd).mem_erase_iff] at he'
    exact ⟨he'.2, fun _ => he'.1⟩
  · rw [Tree.entries_unlink_of_ne hid] at he'
    exact ⟨he', fun heq => absurd heq hid⟩

theorem child_unlink_ne (he : e ∈ tr.entries d) (hdot : e.isDot = false) (hi : tr.IsDirectory i)
    (he' : e' ∈ (tr.unlink d e).entries i) (hdot' : e'.isDot = false) : e'.inode ≠ e.inode := by
  intro heq
  obtain ⟨hmem, hne⟩ := h.child_unlink hd he'
  obtain ⟨rfl, rfl⟩ := h.unique hi hd hmem he hdot' hdot heq
  exact hne rfl rfl

theorem unlink (he : e ∈ tr.entries d) (hdot : e.isDot = false) : TreeInv (tr.unlink d e) := by
  refine ⟨?_, ?_, ?_, ?_, ?_, ?_⟩
  · intro i hi
    exact h.dir_lt (Tree.isDirectory_unlink.mp hi).2
  · intro i hi
    have hnodup := h.nodup (Tree.isDirectory_unlink.mp hi).2
    rw [Tree.names]
    by_cases hid : i = d
    · subst hid
      rw [Tree.entries_unlink_dir]
      exact hnodup.sublist (erase_sublist.map _)
    · rw [Tree.entries_unlink_of_ne hid]
      exact hnodup
  · intro i e' hi he' hdot'
    have hi := (Tree.isDirectory_unlink.mp hi).2
    have hne := h.child_unlink_ne hd he hdot hi he' hdot'
    exact (update_of_ne hne ..).trans (h.child_used hi (h.child_unlink hd he').1 hdot')
  · intro i e' hi he' hdot'
    have hi := (Tree.isDirectory_unlink.mp hi).2
    exact h.child_lt hi (h.child_unlink hd he').1 hdot'
  · intro i e' hi he' hdot'
    have hi := (Tree.isDirectory_unlink.mp hi).2
    exact h.child_ne hi (h.child_unlink hd he').1 hdot'
  · intro i i' e1 e2 hi hi' he1 he2
    have hi := (Tree.isDirectory_unlink.mp hi).2
    have hi' := (Tree.isDirectory_unlink.mp hi').2
    exact h.unique hi hi' (h.child_unlink hd he1).1 (h.child_unlink hd he2).1

end TreeInv

end

end BadgerOS.Filesystem

import BadgerOS.Filesystem.VfsRefcounts

/-!
# Looking up a path

`walk` against a lookup in the directory tree, one name after the other. The two agree unless
the walk comes to a directory whose shared handle it has left closed in the table: the index
field of a shared handle is not updated when the removal of another one moves it.

* `DirTree.descend`: the reference lookup.
* `LooksUp`: `walk` returns what the reference lookup finds.
* `walk_looksUp_iff`: when it does.
-/

namespace BadgerOS.Filesystem

open List

/-! ## The reference lookup -/

/-- The directory behind the names, each of which is that of a directory. -/
def DirTree.descend (tree : DirTree) (dirs : ℕ → Bool) : ℕ → List (List UInt8) → Option ℕ
  | i, [] => some i
  | i, name :: comps =>
    match tree.lookup i name with
    | none => none
    | some j => if dirs j then tree.descend dirs j comps else none

/-- The directories behind the names, one after the other. -/
def DirTree.stops (tree : DirTree) : ℕ → List (List UInt8) → List ℕ
  | _, [] => []
  | i, name :: comps =>
    match tree.lookup i name with
    | none => []
    | some j => j :: tree.stops j comps

/-- The file handle is on directory `d`. -/
def HandleOn (v : Vfs) (dir d : ℕ) : Prop :=
  ∃ handle, v.handleList[dir]? = some handle ∧ (v.heap handle.shared).ramfsFile = some d

/-- `walk` leaves the handle on directory `d`. For a path with a last name it returns where that
    starts in the path that it leaves, and the entry that the directory has for it. For a path of
    slashes it returns that it is the root directory. -/
def LooksUp (tree : DirTree) (d dir : ℕ) (path : List UInt8)
    (result : Option (Cause × WalkEnd × DirentT × List UInt8 × Vfs)) : Prop :=
  ∃ stop ent path' v', result = some (.ok, stop, ent, path', v') ∧ HandleOn v' dir d ∧
    match (components path).getLast? with
    | none => stop = .root
    | some last => ∃ start, stop = .name start ∧ path'.drop start = last ∧
        (ent.inode ≠ 0 ↔ (tree.lookup d last).isSome = true) ∧
        ent.inode = (tree.lookup d last).getD 0

/-- Consistent tables at the start of a walk, with handle `dir` on the root directory and memory
    for everything. -/
structure WalkStart (v : Vfs) (dir : ℕ) (handle : VfsFileHandle) : Prop where
  base : WalkBase v
  nodup : v.sharedList.Nodup
  inode_inj : ∀ p ∈ v.sharedList, ∀ q ∈ v.sharedList, (v.heap p).inode = (v.heap q).inode → p = q
  handle_eq : v.handleList[dir]? = some handle
  isDir : handle.isDir = true
  shared_mem : handle.shared ∈ v.sharedList
  inode_eq : (v.heap handle.shared).inode = inodeRoot
  mem : v.MemOk

section

variable {v v' : Vfs} {dir i d : ℕ} {handle : VfsFileHandle} {dirs : ℕ → Bool} {tree : DirTree}
  {t : WalkTable} {comps : List (List UInt8)} {path : List UInt8}

/-- The walk follows the reference lookup, unless it comes to a closed shared handle. -/
theorem follow_concat (last : List UInt8) (h : tree.descend dirs i comps = some d) :
    follow dirs tree i t (comps ++ [last]) = match (tree.stops i comps).foldlM WalkTable.next t with
      | none => .crash
      | some t' => .done d t' last := by
  induction comps generalizing i t with
  | nil =>
    cases h
    rfl
  | cons name comps ih =>
    rw [DirTree.descend] at h
    cases hlookup : tree.lookup i name with
    | none =>
      rw [hlookup] at h
      cases h
    | some j =>
      have hj : dirs j = true := by
        by_contra hj
        simp only [hlookup, if_neg hj] at h
        cases h
      simp only [hlookup, if_pos hj] at h
      have hne : comps ++ [last] ≠ [] := by simp
      rw [cons_append, follow.eq_3 _ _ _ _ _ _ hne, DirTree.stops]
      simp only [hlookup, foldlM_cons, if_pos hj]
      cases hnext : t.next j with
      | none => rfl
      | some t' => exact ih h

theorem WalkStart.sharedOn_eq (h : WalkStart v dir handle) : sharedOn v inodeRoot = some handle.shared := by
  have hon : OnInode v inodeRoot handle.shared := ⟨(h.base.opened _ h.shared_mem).vfs, h.inode_eq⟩
  cases hfind : sharedOn v inodeRoot with
  | none =>
    rw [sharedOn, find?_eq_none] at hfind
    exact absurd (decide_eq_true hon) (hfind _ h.shared_mem)
  | some q =>
    obtain ⟨hq, hq'⟩ := mem_of_sharedOn hfind
    rw [h.inode_inj q hq _ h.shared_mem (hq'.2.trans h.inode_eq.symm)]

theorem Walking.handleOn {v0 : Vfs} {h0 : VfsFileHandle} {c : ℕ} (hw : Walking v0 dir h0 c d t v) : HandleOn v dir d :=
  ⟨_, hw.handle_eq, hw.current.ramfsFile⟩

/-- `walk` looks up a path as the reference lookup does exactly when it does not come to a shared
    handle that it has left closed in the table. -/
theorem walk_looksUp_iff (ec : Cause) (hstart : WalkStart v dir handle)
    (htree : HoldsTree v.fs tree) (hpath : path ≠ [])
    (hd : tree.descend v.fs.isDir inodeRoot (components path).dropLast = some d) :
    LooksUp tree d dir path (walk v ec dir path) ↔
      ((tree.stops inodeRoot (components path).dropLast).foldlM WalkTable.next
        (tableAt v handle.shared)).isSome = true := by
  have hroot := hstart.sharedOn_eq
  have hw := hstart.base.walking hstart.nodup hstart.handle_eq hstart.shared_mem
  rw [hstart.inode_eq] at hw
  obtain ⟨hnext, hfound⟩ := next_tableAt (fun q hq => (hstart.base.opened q hq).vfs) hroot
  rcases hcomps : components path with _ | ⟨name, comps⟩
  · -- a path of slashes
    rw [hcomps] at hd
    cases hd
    refine iff_of_true ?_ rfl
    obtain ⟨c, v', hwalk, hw'⟩ := walk_root ec hw hnext hfound hcomps hpath
    refine ⟨_, _, _, v', hwalk, hw'.handleOn, ?_⟩
    rw [hcomps]
    rfl
  · have hne : components path ≠ [] := hcomps ▸ cons_ne_nil name comps
    have hlast : (components path).getLast? = some ((components path).getLast hne) :=
      getLast?_eq_some_getLast hne
    have htree₁ : Searchable (withoutRef v handle.shared).fs v.fs.isDir tree := by
      rw [withoutRef_fs]
      exact htree.toSearchable
    have hmem₁ : (withoutRef v handle.shared).MemOk := withoutRef_memIs.mpr hstart.mem
    have hwalk := (walk_spec ec hw hnext hfound htree₁ hstart.isDir hne).1.resolve_right
      fun h => h.2.2 hmem₁
    have hfollow := follow_concat (t := tableAt v handle.shared) ((components path).getLast hne) hd
    rw [dropLast_append_getLast hne] at hfollow
    rw [← hcomps]
    rcases hfold : (tree.stops inodeRoot (components path).dropLast).foldlM WalkTable.next
        (tableAt v handle.shared) with _ | t'
    · -- the walk comes to a closed shared handle
      rw [hfold] at hfollow
      rw [hfollow] at hwalk
      refine iff_of_false ?_ (by simp)
      rintro ⟨stop, ent, path', v', hresult, _⟩
      have hnone : walk v ec dir path = none := hwalk.1
      rw [hnone] at hresult
      cases hresult
    · rw [hfold] at hfollow
      rw [hfollow] at hwalk
      obtain ⟨⟨start, ent, path', c, v', hresult, hdrop, hent, hw'⟩, _⟩ := hwalk
      refine iff_of_true ⟨_, _, _, v', hresult, hw'.handleOn, ?_⟩ rfl
      rw [hlast]
      refine ⟨start, rfl, hdrop, ?_⟩
      rcases hent with ⟨hnone, hzero⟩ | ⟨j, hsome, hfor, hj⟩
      · rw [hnone, hzero]
        simp
      · rw [hsome, hfor.inode_eq]
        simp [hj]

end

/-! ## Two paths -/

/-- A handle on the root directory. -/
def rootHandle : VfsFileHandle := ⟨0, false, true, true, [], 0, 0⟩

/-- The tables with only the root directory open, once. -/
def rootOnce (fs : Ramfs) : Vfs :=
  ⟨fs, fun _ => ⟨1, 0, 0, some inodeRoot, inodeRoot, some rootVfs⟩, 1, [0], 2, [rootHandle], 2, 1,
    fun _ => some fun _ => 0⟩

theorem walkStart_rootOnce (fs : Ramfs) : WalkStart (rootOnce fs) 0 rootHandle where
  base := by
    refine ⟨fun q hq => ?_, fun _ _ => ⟨rfl, rfl, rfl⟩, fun _ _ => one_ne_zero⟩
    rw [mem_singleton.mp hq]
    exact Nat.zero_lt_one
  nodup := nodup_singleton 0
  inode_inj p hp q hq _ := (mem_singleton.mp hp).trans (mem_singleton.mp hq).symm
  handle_eq := rfl
  isDir := rfl
  shared_mem := mem_singleton_self 0
  inode_eq := rfl
  mem _ := rfl

/-- The path `/d/e/../x`. -/
def pathUp : List UInt8 := [47, 100, 47, 101, 47, 46, 46, 47, 120]

/-- The way back from `/d/e` to `/d` comes to a shared handle that is closed. -/
theorem not_looksUp_pathUp : WalkStart (rootOnce nestedFs) 0 rootHandle ∧
    HoldsTree (rootOnce nestedFs).fs nestedTree ∧
    nestedTree.descend (rootOnce nestedFs).fs.isDir inodeRoot (components pathUp).dropLast = some 2 ∧
    ¬ LooksUp nestedTree 2 0 pathUp (walk (rootOnce nestedFs) .ok 0 pathUp) := by
  refine ⟨walkStart_rootOnce nestedFs, holdsTree_nestedFs, by decide, ?_⟩
  rintro ⟨stop, ent, path', v', hwalk, _⟩
  have hnone : (walk (rootOnce nestedFs) .ok 0 pathUp).isNone = true := by decide
  rw [hwalk] at hnone
  cases hnone

/-- The path `//d/e//x/`. -/
def pathDown : List UInt8 := [47, 47, 100, 47, 101, 47, 47, 120, 47]

/-- The walk finds the directory of `//d/e//x/`. -/
theorem looksUp_pathDown : LooksUp nestedTree 3 0 pathDown
    (walk (rootOnce nestedFs) .ok 0 pathDown) := (walk_looksUp_iff .ok (walkStart_rootOnce nestedFs) holdsTree_nestedFs (by decide)
    (by decide)).mpr (by decide)

end BadgerOS.Filesystem

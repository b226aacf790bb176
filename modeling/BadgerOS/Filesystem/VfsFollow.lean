import BadgerOS.Filesystem.VfsWalk

/-!
# The loop of `walk`

The loop of `walk` looks for one name of the path after the other. `dir_reopen` takes the walking
handle to an inode of any type, and its flag `is_dir` stays set, so the next name may be searched
in the bytes of a regular file.

* `walkLoopLogged`: the loop with the inodes that it searches.
* `follow`: the directories of a path, and what becomes of the table on the way.
* `walkLoopLogged_spec`: the loop goes where `follow` goes, and searches the inodes on the way.
* `walk_spec`: `walk` finds what `follow` says.
-/

namespace BadgerOS.Filesystem

open List Option

/-! ## Searching -/

/-- The inode that `find_dirent` goes through. -/
def searchedInode (file : VfsFileShared) : List ℕ := file.ramfsFile.toList

/-- The loop of `walk` (filesystem.c 175–222), with the inodes in which it searches for a name.
    `dir_reopen` searches an inode that the loop has just searched. -/
def walkLoopLogged (dir : ℕ) (path : List UInt8) :
    ℕ → Vfs → Cause → ℕ → DirentT → List ℕ × Option (Cause × Option ℕ × DirentT × Vfs)
  | 0, _, _, _, _ => ([], none)
  | rounds + 1, v, ec, start, ent =>
    if start < path.length then
      match v.handleList[dir]? with
      | none => ([], none)
      | some handle =>
        if path[start]? = some slashChar then
          if !handle.isDir then ([], some (.isFile, none, { ent with inode := 0 }, v))
          else walkLoopLogged dir path rounds v ec (start + 1) ent
        else
          let stop := nameEnd path start
          let name := (path.take stop).drop start
          let file := v.heap handle.shared
          match file.vfs with
          | none => ([], none)
          | some _ =>
            match vfsRamfsDirFindEnt v.fs file name with
            | none => (searchedInode file, none)
            | some none =>
              (searchedInode file, some
                (if isIntermediate path stop then (.notfound, none, ent, v)
                else (.ok, some start, { ent with inode := 0 }, v)))
            | some (some ent) =>
              if isIntermediate path stop then
                match dirReopen v dir ent with
                | none => (searchedInode file, none)
                | some (ec, v) =>
                  if ec ≠ .ok then (searchedInode file, some (ec, none, ent, v))
                  else
                    let r := walkLoopLogged dir path rounds v ec stop ent
                    (searchedInode file ++ r.1, r.2)
              else (searchedInode file, some (.ok, some start, ent, v))
    else ([], some (ec, some start, ent, v))

theorem walkLoopLogged_snd (dir : ℕ) (path : List UInt8) (rounds : ℕ) (v : Vfs) (ec : Cause) (start : ℕ) (ent : DirentT) :
    (walkLoopLogged dir path rounds v ec start ent).2 = walkLoop dir path rounds v ec start ent := by
  induction rounds generalizing v ec start ent with
  | zero => rfl
  | succ rounds ih =>
    rw [walkLoopLogged, walkLoop]
    by_cases hlt : start < path.length
    · rw [if_pos hlt, if_pos hlt]
      cases v.handleList[dir]? with
      | none => rfl
      | some handle =>
        simp only [bind_eq_bind, bind_some]
        by_cases hslash : path[start]? = some slashChar
        · rw [if_pos hslash, if_pos hslash]
          cases handle.isDir with
          | false => rfl
          | true => exact ih ..
        · rw [if_neg hslash, if_neg hslash]
          cases (v.heap handle.shared).vfs with
          | none => rfl
          | some vfs =>
            simp only [bind_some]
            rcases vfsRamfsDirFindEnt v.fs (v.heap handle.shared) _ with _ | _ | ent'
            · rfl
            · simp only [bind_some]
              split_ifs <;> rfl
            · simp only [bind_some]
              split_ifs with hint
              · rcases dirReopen v dir ent' with _ | ⟨ec', v'⟩
                · rfl
                · simp only [bind_some]
                  split_ifs with hec
                  · rfl
                  · exact ih ..
              · rfl
    · rw [if_neg hlt, if_neg hlt]

/-! ## The rounds of the loop -/

section

variable {v : Vfs} {dir rounds : ℕ} {handle : VfsFileHandle} {ec : Cause} {ent : DirentT}
  {before name rest path : List UInt8} {comps : List (List UInt8)}

/-- The name behind `before` is that of an intermediate directory if another name follows. -/
theorem isIntermediate_append (hrest : NameRest rest comps) :
    isIntermediate (before ++ (name ++ rest)) (before ++ name).length = !comps.isEmpty := by
  have hget : (before ++ (name ++ rest))[(before ++ name).length]? = rest.head? := by
    rw [← append_assoc, getElem?_append_right le_rfl, Nat.sub_self, head?_eq_getElem?]
  have hlen : (before ++ (name ++ rest)).length = (before ++ name).length + rest.length := by
    rw [← append_assoc, length_append]
  rw [isIntermediate, hget, hlen]
  rcases hrest with ⟨rfl, rfl | rfl⟩ | ⟨path, rfl, hpath, hcomps, _⟩
  · rfl
  · simp
  · have hpos := length_pos_iff.mpr hpath
    rw [isEmpty_eq_false_iff.mpr hcomps, head?_cons, length_cons]
    simpa using hpos

theorem walkLoopLogged_slash (hdir : v.handleList[dir]? = some handle) (hisDir : handle.isDir = true) :
    walkLoopLogged dir (before ++ slashChar :: path) (rounds + 1) v ec before.length ent =
      walkLoopLogged dir (before ++ slashChar :: path) rounds v ec (before.length + 1) ent := by
  have hlt : before.length < (before ++ slashChar :: path).length := by simp
  have hget : (before ++ slashChar :: path)[before.length]? = some slashChar := by simp
  rw [walkLoopLogged, if_pos hlt]
  simp [hdir, hisDir]

theorem walkLoopLogged_name (hdir : v.handleList[dir]? = some handle) (hname : PlainName name) (hrest : NameRest rest comps) :
    walkLoopLogged dir (before ++ (name ++ rest)) (rounds + 1) v ec before.length ent =
      match (v.heap handle.shared).vfs with
      | none => ([], none)
      | some _ =>
        match vfsRamfsDirFindEnt v.fs (v.heap handle.shared) name with
        | none => (searchedInode (v.heap handle.shared), none)
        | some none =>
          (searchedInode (v.heap handle.shared), some
            (if !comps.isEmpty then (.notfound, none, ent, v)
            else (.ok, some before.length, { ent with inode := 0 }, v)))
        | some (some ent) =>
          if !comps.isEmpty then
            match dirReopen v dir ent with
            | none => (searchedInode (v.heap handle.shared), none)
            | some (ec, v') =>
              if ec ≠ .ok then (searchedInode (v.heap handle.shared), some (ec, none, ent, v'))
              else
                let r := walkLoopLogged dir (before ++ (name ++ rest)) rounds v' ec
                  (before ++ name).length ent
                (searchedInode (v.heap handle.shared) ++ r.1, r.2)
          else (searchedInode (v.heap handle.shared), some (.ok, some before.length, ent, v)) := by
  obtain ⟨b, name', rfl⟩ := exists_cons_of_ne_nil hname.ne_nil
  have hlt : before.length < (before ++ (b :: name' ++ rest)).length := by simp
  have hget : (before ++ (b :: name' ++ rest))[before.length]? = some b := by simp
  have hb : some b ≠ some slashChar := fun h =>
    hname.no_slash b mem_cons_self (some.inj h)
  have hend := nameEnd_append before hname hrest.head
  have hsub : ((before ++ (b :: name' ++ rest)).take (before ++ b :: name').length).drop
      before.length = b :: name' := by
    rw [← append_assoc, take_left, drop_left]
  rw [walkLoopLogged, if_pos hlt]
  simp only [hdir, hget, if_neg hb, hend, hsub, isIntermediate_append hrest]

variable (before ec ent) (hdir : v.handleList[dir]? = some handle) (hisDir : handle.isDir = true)
  (hpath : NoDoubleSlash path) (hrounds : path.length < rounds)

include hdir hisDir hpath hrounds

theorem walkLoopLogged_skip (hcomps : components path = name :: comps) :
    ∃ before' rest rounds', PlainName name ∧ NameRest rest comps ∧
      rest.length < rounds' ∧ before ++ path = before' ++ (name ++ rest) ∧
      walkLoopLogged dir (before ++ path) rounds v ec before.length ent =
        walkLoopLogged dir (before' ++ (name ++ rest)) (rounds' + 1) v ec before'.length ent := by
  obtain ⟨hname, rest, hpath', hrest⟩ := components_cases hpath hcomps
  have hlen : 0 < name.length := length_pos_iff.mpr hname.ne_nil
  rcases hpath' with rfl | rfl
  · rw [length_append] at hrounds
    obtain ⟨rounds, rfl⟩ := Nat.exists_eq_add_one_of_ne_zero (by omega : rounds ≠ 0)
    exact ⟨before, rest, rounds, hname, hrest, by omega, rfl, rfl⟩
  · rw [length_cons, length_append] at hrounds
    obtain ⟨rounds, rfl⟩ := Nat.exists_eq_add_of_le' (by omega : 2 ≤ rounds)
    have hassoc : before ++ slashChar :: (name ++ rest) =
        (before ++ [slashChar]) ++ (name ++ rest) := by simp
    have hbefore : before.length + 1 = (before ++ [slashChar]).length := by simp
    refine ⟨before ++ [slashChar], rest, rounds, hname, hrest, by omega, hassoc, ?_⟩
    rw [walkLoopLogged_slash hdir hisDir, hassoc, hbefore]

theorem walkLoopLogged_blocked (hclosed : (v.heap handle.shared).ramfsFile = none)
    (hcomps : components path ≠ []) :
    walkLoopLogged dir (before ++ path) rounds v ec before.length ent = ([], none) := by
  obtain ⟨name, comps, heq⟩ := exists_cons_of_ne_nil hcomps
  obtain ⟨before', rest, rounds', hname, hrest, _, _, hskip⟩ :=
    walkLoopLogged_skip ec ent before hdir hisDir hpath hrounds heq
  have hfind : vfsRamfsDirFindEnt v.fs (v.heap handle.shared) name = none := by
    rw [vfsRamfsDirFindEnt, hclosed]
    rfl
  rw [hskip, walkLoopLogged_name hdir hname hrest, searchedInode, hclosed, hfind]
  cases (v.heap handle.shared).vfs <;> rfl

end

/-! ## Along a path -/

/-- How a walk ends. -/
inductive WalkOutcome
  /-- In directory `dir`, with one name left. -/
  | done (dir : ℕ) (t : WalkTable) (last : List UInt8)
  /-- In directory `dir`, which does not have the next name. -/
  | missing (dir : ℕ) (t : WalkTable)
  /-- The path goes on behind `file`, which is not a directory. -/
  | notDir (file : ℕ)
  /-- At a closed shared handle. -/
  | crash
  deriving DecidableEq, Repr

/-- The walk from directory `i` along the names of a path, in the tree. -/
def follow (dirs : ℕ → Bool) (tree : DirTree) : ℕ → WalkTable → List (List UInt8) → WalkOutcome
  | i, t, [] => .done i t []
  | i, t, [last] => .done i t last
  | i, t, name :: comps =>
    match tree.lookup i name with
    | none => .missing i t
    | some j =>
      match t.next j with
      | none => .crash
      | some t' => if dirs j then follow dirs tree j t' comps else .notDir j

/-- The walk opens a directory on the way. -/
def opens (dirs : ℕ → Bool) (tree : DirTree) : ℕ → WalkTable → List (List UInt8) → Bool
  | _, _, [] => false
  | _, _, [_] => false
  | i, t, name :: comps =>
    match tree.lookup i name with
    | none => false
    | some j =>
      match t.next j with
      | none => false
      | some t' => (t.find j).isNone || dirs j && opens dirs tree j t' comps

/-- The `dirent_t` that a search for `name` in directory `d` leaves. -/
def EntResult (fs : Ramfs) (tree : DirTree) (d : ℕ) (name : List UInt8) (ent : DirentT) : Prop :=
  tree.lookup d name = none ∧ ent.inode = 0 ∨
    ∃ j, tree.lookup d name = some j ∧ EntFor fs name j ent ∧ j ≠ 0

/-- What the loop of `walk` returns, when there is memory for the directories that it opens. -/
def WalkLoopResult (v₀ : Vfs) (tree : DirTree) (dir : ℕ) (h₀ : VfsFileHandle) (path : List UInt8)
    (result : Option (Cause × Option ℕ × DirentT × Vfs)) : WalkOutcome → Prop
  | .done d t last => ∃ start ent c v, result = some (.ok, some start, ent, v) ∧
      (stripSlashes path).drop start = last ∧ EntResult v₀.fs tree d last ent ∧
      Walking v₀ dir h₀ c d t v
  | .missing d t => ∃ ent c v, result = some (.notfound, none, ent, v) ∧ Walking v₀ dir h₀ c d t v
  | .notDir _ => True
  | .crash => result = none

/-- The loop of `walk` ends as `outcome` says, or where there is no memory. -/
def WalkLoopEnds (v₀ : Vfs) (tree : DirTree) (dir : ℕ) (h₀ : VfsFileHandle) (path : List UInt8)
    (result : Option (Cause × Option ℕ × DirentT × Vfs)) (outcome : WalkOutcome) (opens : Bool) :
    Prop :=
  WalkLoopResult v₀ tree dir h₀ path result outcome ∧ (opens = true → ¬ v₀.MemIs false) ∨
    (∃ ent v, result = some (.nomem, none, ent, v) ∧
      v.handleList.length = v₀.handleList.length) ∧ opens = true ∧ ¬ v₀.MemOk

/-- A name of the path that is not the last one is that of a regular file. -/
def namesFile (dirs : ℕ → Bool) (tree : DirTree) : ℕ → List (List UInt8) → Bool
  | _, [] => false
  | _, [_] => false
  | i, name :: comps =>
    match tree.lookup i name with
    | none => false
    | some j => if dirs j then namesFile dirs tree j comps else true

/-- The loop searches directories only when the path does not go through a regular file. When it
    does, the loop does not return or searches the regular file. -/
structure SearchEnds (v₀ : Vfs) (dirs : ℕ → Bool) (names : Bool)
    (r : List ℕ × Option (Cause × Option ℕ × DirentT × Vfs)) : Prop where
  dirs_only : names = false → ∀ k ∈ r.1, dirs k = true
  reaches : names = true → v₀.MemOk → r.2 = none ∨ ∃ k ∈ r.1, dirs k = false

section

variable {v₀ v : Vfs} {dir c i rounds : ℕ} {h₀ : VfsFileHandle} {t : WalkTable}
  {dirs : ℕ → Bool} {tree : DirTree} {name path : List UInt8} {comps : List (List UInt8)}
  {ec : Cause} {ent : DirentT} {result : Option (Cause × Option ℕ × DirentT × Vfs)}

theorem EntFor.congr {fs fs' : Ramfs} {j : ℕ} (h : EntFor fs' name j ent) (hfs : FsSame fs fs') :
    EntFor fs name j ent :=
  ⟨h.inode_eq, h.isDir_eq.trans (hfs.hasType_eq j .dir), h.name_eq⟩

theorem WalkLoopEnds.or {outcome : WalkOutcome} {a b : Bool}
    (h : WalkLoopEnds v₀ tree dir h₀ path result outcome b) (ha : a = true → ¬ v₀.MemIs false) :
    WalkLoopEnds v₀ tree dir h₀ path result outcome (a || b) := by
  rcases h with ⟨hresult, hb⟩ | ⟨hresult, hb, hmem⟩
  · refine .inl ⟨hresult, fun h => ?_⟩
    rcases Bool.or_eq_true_iff.mp h with h | h
    · exact ha h
    · exact hb h
  · exact .inr ⟨hresult, by rw [hb, Bool.or_true], hmem⟩

theorem Walking.searchedInode_eq (hw : Walking v₀ dir h₀ c i t v) :
    searchedInode (v.heap { h₀ with shared := c }.shared) = [i] := by
  rw [searchedInode, hw.current.ramfsFile, toList_some]

theorem Walking.mem_logged (before : List UInt8) (ec : Cause) (ent : DirentT)
    (hw : Walking v₀ dir h₀ c i t v) (hisDir : h₀.isDir = true) (hpath : NoDoubleSlash path)
    (hcomps : components path ≠ []) (hrounds : path.length < rounds) :
    i ∈ (walkLoopLogged dir (before ++ path) rounds v ec before.length ent).1 := by
  obtain ⟨name, comps, heq⟩ := exists_cons_of_ne_nil hcomps
  obtain ⟨before', rest, rounds', hname, hrest, _, _, hskip⟩ :=
    walkLoopLogged_skip ec ent before hw.handle_eq hisDir hpath hrounds heq
  rw [hskip, walkLoopLogged_name hw.handle_eq hname hrest, hw.current.vfs, hw.searchedInode_eq]
  rcases vfsRamfsDirFindEnt v.fs _ name with _ | _ | ent'
  · exact mem_singleton_self i
  · exact mem_singleton_self i
  · cases comps.isEmpty with
    | true => exact mem_singleton_self i
    | false =>
      simp only [Bool.not_false, if_true]
      rcases dirReopen v dir ent' with _ | ⟨ec', v'⟩
      · exact mem_singleton_self i
      · simp only
        split_ifs
        · exact mem_singleton_self i
        · exact mem_cons_self

theorem searchEnds_of_dirs {log : List ℕ} (h : ∀ k ∈ log, dirs k = true) :
    SearchEnds v₀ dirs false (log, result) :=
  ⟨fun _ => h, fun hnames => absurd hnames Bool.false_ne_true⟩

/-- The loop of `walk` goes along the path as `follow` does, and searches directories until it
    comes to a regular file. -/
theorem walkLoopLogged_spec (before : List UInt8) (ec : Cause) (ent : DirentT)
    (htree : Searchable v₀.fs dirs tree) (hisDir : h₀.isDir = true)
    (hw : Walking v₀ dir h₀ c i t v) (hi : dirs i = true) (hpath : NoDoubleSlash path)
    (hcomps : components path = comps) (hne : comps ≠ []) (hrounds : path.length < rounds) :
    WalkLoopEnds v₀ tree dir h₀ (before ++ path)
        (walkLoopLogged dir (before ++ path) rounds v ec before.length ent).2
        (follow dirs tree i t comps) (opens dirs tree i t comps) ∧
      SearchEnds v₀ dirs (namesFile dirs tree i comps)
        (walkLoopLogged dir (before ++ path) rounds v ec before.length ent) := by
  induction comps generalizing before path rounds c i t v ec ent with
  | nil => exact absurd rfl hne
  | cons name comps ih =>
    obtain ⟨before', rest, rounds', hname, hrest, hrounds', hpath', hskip⟩ :=
      walkLoopLogged_skip ec ent before hw.handle_eq hisDir hpath hrounds hcomps
    rw [hskip, hpath', walkLoopLogged_name hw.handle_eq hname hrest, hw.current.vfs,
      hw.searchedInode_eq]
    have hself : ∀ k ∈ [i], dirs k = true := fun k hk => mem_singleton.mp hk ▸ hi
    have hfind := (hw.fs.searchable htree).findEnt_spec hi hw.current.ramfsFile name
    rcases hcomps' : comps with _ | ⟨next, comps'⟩
    · -- the last name
      have hstrip : (stripSlashes (before' ++ (name ++ rest))).drop before'.length = name := by
        have hend : rest = [] ∨ rest = [slashChar] := by
          rcases hrest with ⟨_, h⟩ | ⟨_, _, _, hne, _⟩
          · exact h
          · exact absurd hcomps' hne
        rw [stripSlashes_append before' hname hend, drop_left]
      rcases hfind with ⟨hlookup, hent⟩ | ⟨j, ent', hlookup, hent, hfor, hj⟩
      · rw [hent]
        exact ⟨.inl ⟨⟨_, _, c, v, rfl, hstrip, .inl ⟨hlookup, rfl⟩, hw⟩,
          fun h => absurd h Bool.false_ne_true⟩, searchEnds_of_dirs hself⟩
      · rw [hent]
        exact ⟨.inl ⟨⟨_, _, c, v, rfl, hstrip, .inr ⟨j, hlookup, hfor.congr hw.fs, hj⟩, hw⟩,
          fun h => absurd h Bool.false_ne_true⟩, searchEnds_of_dirs hself⟩
    · -- an intermediate directory
      have hne' : comps ≠ [] := hcomps' ▸ cons_ne_nil next comps'
      obtain ⟨_, _, _, _, hdouble, hcomponents⟩ := hrest.resolve_left fun h => hne' h.1
      rcases hfind with ⟨hlookup, hent⟩ | ⟨j, ent', hlookup, hent, hfor, hj⟩
      · simp only [hent, follow, opens, namesFile, hlookup]
        exact ⟨.inl ⟨⟨_, c, v, rfl, hw⟩, fun h => absurd h Bool.false_ne_true⟩,
          searchEnds_of_dirs hself⟩
      · simp only [hent, follow, opens, namesFile, hlookup, isEmpty_cons, Bool.not_false, if_true]
        rcases hnext : t.next j with _ | t'
        · -- the shared handle of the inode is closed
          obtain ⟨w, v', hreopen, hhandle, hclosed⟩ := hw.reopen_closed hfor hnext
          have hloop := walkLoopLogged_blocked .ok ent' (before' ++ name) hhandle hisDir hdouble
            hrounds' hclosed (hcomponents ▸ hne')
          rw [append_assoc] at hloop
          simp only [hreopen, ne_eq, not_true_eq_false, if_false, hloop]
          exact ⟨.inl ⟨rfl, fun h => absurd h Bool.false_ne_true⟩,
            fun _ => hself, fun _ _ => .inl rfl⟩
        · rcases hw.reopen htree hi hlookup hfor hnext with
            ⟨c', v', hreopen, hw', hmem⟩ | ⟨v', hreopen, hsame, hfound, hmem⟩
          · have hopened : (t.find j).isNone = true → ¬ v₀.MemIs false := fun h =>
              hmem (isNone_iff_eq_none.mp h)
            simp only [hreopen, ne_eq, not_true_eq_false, if_false]
            cases hdirs : dirs j with
            | true =>
              obtain ⟨hends, hsearch⟩ := ih (before' ++ name) .ok ent' hw' hdirs hdouble
                hcomponents hne' hrounds'
              rw [append_assoc, hcomps'] at hends hsearch
              refine ⟨hends.or hopened, fun h k hk => ?_, fun h hmem => ?_⟩
              · rcases mem_cons.mp hk with rfl | hk
                · exact hi
                · exact hsearch.dirs_only h k hk
              · refine (hsearch.reaches h hmem).imp_right fun ⟨k, hk, hfile⟩ => ?_
                exact ⟨k, mem_cons_of_mem i hk, hfile⟩
            | false =>
              -- the next name is searched in the regular file
              have hlog := hw'.mem_logged (before' ++ name) .ok ent' hisDir hdouble
                (hcomponents ▸ hne') hrounds'
              rw [append_assoc] at hlog
              exact ⟨.inl ⟨trivial, fun h => hopened (by simpa using h)⟩, fun h => absurd h (by simp),
                fun _ _ => .inr ⟨j, mem_cons_of_mem i hlog, hdirs⟩⟩
          · simp only [hreopen]
            refine ⟨.inr ⟨⟨_, v', rfl, ?_⟩, by rw [hfound]; rfl, hmem⟩, fun _ => hself,
              fun _ h => absurd h hmem⟩
            rw [hsame.handleList, hw.handles, length_set]

theorem Walking.rootReopen_spec (hw : Walking v₀ dir h₀ c inodeRoot t v)
    (hroot : t.next inodeRoot = some t) (hfound : t.find inodeRoot ≠ none) :
    ∃ c' v', rootReopen v dir = some (.ok, v') ∧ Walking v₀ dir h₀ c' inodeRoot t v' := by
  obtain ⟨slot, hslot⟩ := ne_none_iff_exists'.mp hfound
  obtain ⟨k, q, v', hk, hget, hswitch, hw'⟩ := hw.switch hslot hroot
  refine ⟨q, v', ?_, hw'⟩
  simp [rootReopen, hk, hget, hswitch]

/-- What `walk` returns for a path with names. -/
def WalkResult (v₀ : Vfs) (tree : DirTree) (dir : ℕ) (h₀ : VfsFileHandle)
    (result : Option (Cause × WalkEnd × DirentT × List UInt8 × Vfs)) : WalkOutcome → Prop
  | .done d t last => ∃ start ent path c v, result = some (.ok, .name start, ent, path, v) ∧
      path.drop start = last ∧ EntResult v₀.fs tree d last ent ∧ Walking v₀ dir h₀ c d t v
  | .missing d t => ∃ ent path c v, result = some (.notfound, .failed, ent, path, v) ∧
      Walking v₀ dir h₀ c d t v
  | .notDir _ => True
  | .crash => result = none

/-- `walk` ends as `outcome` says, or where there is no memory. -/
def WalkEnds (v₀ : Vfs) (tree : DirTree) (dir : ℕ) (h₀ : VfsFileHandle)
    (result : Option (Cause × WalkEnd × DirentT × List UInt8 × Vfs)) (outcome : WalkOutcome)
    (opens : Bool) : Prop :=
  WalkResult v₀ tree dir h₀ result outcome ∧ (opens = true → ¬ v₀.MemIs false) ∨
    (∃ ent path v, result = some (.nomem, .failed, ent, path, v) ∧
      v.handleList.length = v₀.handleList.length) ∧ opens = true ∧ ¬ v₀.MemOk

theorem walk_of_loop {outcome : WalkOutcome} {opens : Bool} {path' : List UInt8}
    (h : WalkLoopEnds v₀ tree dir h₀ path result outcome opens) (hpath : stripSlashes path = path') :
    WalkEnds v₀ tree dir h₀ (result.bind fun r =>
      match r with
      | (ec, some start, ent, v) => some (ec, .name start, ent, path', v)
      | (ec, none, ent, v) => some (ec, .failed, ent, path', v)) outcome opens := by
  rcases h with ⟨h, hmem⟩ | ⟨⟨ent, v, rfl, hlen⟩, hmem⟩
  · refine .inl ⟨?_, hmem⟩
    rcases outcome with ⟨d, t, last⟩ | ⟨d, t⟩ | _ | _
    · obtain ⟨start, ent, c, v, rfl, hdrop, hent, hw⟩ := h
      exact ⟨start, ent, path', c, v, rfl, hpath ▸ hdrop, hent, hw⟩
    · obtain ⟨ent, c, v, rfl, hw⟩ := h
      exact ⟨ent, path', c, v, rfl, hw⟩
    · trivial
    · rw [show result = none from h]
      rfl
  · exact .inr ⟨⟨ent, path', v, rfl, hlen⟩, hmem⟩

/-- The inodes in which `walk` searches for a name. -/
def walkSearched (v : Vfs) (ec : Cause) (dir : ℕ) (path : List UInt8) : List ℕ :=
  let path := dedupSlashes path
  match if path.head? = some slashChar then rootReopen v dir else some (ec, v) with
  | none => []
  | some (ec, v) =>
    if path.head? = some slashChar ∧ ec ≠ .ok then []
    else if path = [slashChar] then []
    else (walkLoopLogged dir path (path.length + 1) v ec 0 zeroDirent).1

section

variable (ec : Cause) (hw : Walking v₀ dir h₀ c inodeRoot t v) (hroot : t.next inodeRoot = some t)
  (hfound : t.find inodeRoot ≠ none)

include hw hroot hfound

theorem Walking.walk_loop (hpath : components path ≠ []) : ∃ c' v' ec' r, Walking v₀ dir h₀ c' inodeRoot t v' ∧
      walkLoopLogged dir (dedupSlashes path) ((dedupSlashes path).length + 1) v' ec' 0
        zeroDirent = r ∧
      walkSearched v ec dir path = r.1 ∧
      walk v ec dir path = r.2.bind fun r =>
        match r with
        | (ec, some start, ent, v) => some (ec, .name start, ent, stripSlashes (dedupSlashes path), v)
        | (ec, none, ent, v) => some (ec, .failed, ent, stripSlashes (dedupSlashes path), v) := by
  have hne : dedupSlashes path ≠ [slashChar] := by
    intro h
    have hcomps := components_dedupSlashes path
    rw [h] at hcomps
    exact hpath hcomps.symm
  obtain ⟨c', v', hreopen, hw'⟩ := hw.rootReopen_spec hroot hfound
  unfold walk walkSearched
  by_cases hslash : (dedupSlashes path).head? = some slashChar
  · simp only [hslash, if_true, hreopen, bind_eq_bind, bind_some, ne_eq,
      not_true_eq_false, and_false, if_false, hne, Option.pure_def]
    exact ⟨c', v', .ok, _, hw', rfl, rfl, by rw [walkLoopLogged_snd] <;> rfl⟩
  · simp only [hslash, if_false, Option.bind_eq_bind, Option.bind_some, false_and, hne,
      Option.pure_def]
    exact ⟨c, v, ec, _, hw, rfl, rfl, by rw [walkLoopLogged_snd] <;> rfl⟩

theorem walk_spec (htree : Searchable v₀.fs dirs tree) (hisDir : h₀.isDir = true) (hpath : components path ≠ []) :
    WalkEnds v₀ tree dir h₀ (walk v ec dir path) (follow dirs tree inodeRoot t (components path))
        (opens dirs tree inodeRoot t (components path)) ∧
      (namesFile dirs tree inodeRoot (components path) = false →
        ∀ k ∈ walkSearched v ec dir path, dirs k = true) ∧
      (namesFile dirs tree inodeRoot (components path) = true → v₀.MemOk →
        walk v ec dir path = none ∨ ∃ k ∈ walkSearched v ec dir path, dirs k = false) := by
  obtain ⟨c', v', ec', r, hw', rfl, hsearched, hwalk⟩ := hw.walk_loop ec hroot hfound hpath
  obtain ⟨hends, hsearch⟩ := walkLoopLogged_spec [] ec' zeroDirent htree hisDir hw'
    htree.root (noDoubleSlash_dedupSlashes path) (components_dedupSlashes path) hpath
    (Nat.lt_succ_self _)
  rw [hsearched, hwalk]
  refine ⟨walk_of_loop hends rfl, hsearch.dirs_only, fun hnames hmem => ?_⟩
  refine (hsearch.reaches hnames hmem).imp_left fun h => ?_
  rw [show (walkLoopLogged dir (dedupSlashes path) _ v' ec' 0 zeroDirent).2 = none from h]
  rfl

theorem walk_root (hpath : components path = []) (hne : path ≠ []) :
    ∃ c' v', walk v ec dir path = some (.ok, .root, zeroDirent, [slashChar], v') ∧
      Walking v₀ dir h₀ c' inodeRoot t v' := by
  obtain ⟨c', v', hreopen, hw'⟩ := hw.rootReopen_spec hroot hfound
  refine ⟨c', v', ?_, hw'⟩
  simp [walk, dedupSlashes_of_components_nil hpath hne, hreopen]

end

theorem walk_nil (v : Vfs) (ec : Cause) (dir : ℕ) : walk v ec dir [] = some (ec, .name 0, zeroDirent, [], v) := rfl

theorem follow_done_dir {d : ℕ} {last : List UInt8} {t' : WalkTable}
    (h : follow dirs tree i t comps = .done d t' last) (hi : dirs i = true) : dirs d = true := by
  fun_induction follow dirs tree i t comps with
  | case1 i t => cases h; exact hi
  | case2 i t last => cases h; exact hi
  | case3 => cases h
  | case4 => cases h
  | case5 i t name comps _ j _ t' _ hj ih => exact ih h hj
  | case6 => cases h

end

end BadgerOS.Filesystem

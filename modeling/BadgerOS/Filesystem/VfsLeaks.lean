import BadgerOS.Filesystem.VfsRefcounts

/-!
# Handles that `fs_open` leaves behind

`fs_open` makes a handle for the walk. It destroys that handle only when the entry that it
found has the wrong type or when opening the target failed, and in the second case a shared
handle stays in the table. It does not count the reference that the handle takes to a root
directory that is open.

* `LeavesTables`: a call leaves the tables as it should.
* `KeepsTables`: the calls that do so whatever the allocator answers and whatever bytes the
  regular files hold.
* `openTarget_leaks`: what is left when the type of the entry fits.
* `fsOpen_leavesTables_iff`: these are all the calls that do.
-/

namespace BadgerOS.Filesystem

open Function List Option Vfs Bool

/-! ## The calls that leave the tables as they should -/

/-- The regular files have other contents. -/
structure SameDirs (fs fs' : Ramfs) : Prop where
  inode_eq : ∀ k, ∃ len cap buf,
    fs'.inodeList k = { fs.inodeList k with len := len, cap := cap, buf := buf }
  dir_eq : ∀ k, fs.isDir k = true → fs'.inodeList k = fs.inodeList k
  usage_eq : fs'.inodeUsage = fs.inodeUsage
  len_eq : fs'.inodeListLen = fs.inodeListLen

/-- The tables have the same entries. The reference counts may differ. -/
structure SameEntries (v v' : Vfs) : Prop where
  handles : v'.handleList.Perm v.handleList
  shared : v'.sharedList.Perm v.sharedList
  files : ∀ q ∈ v.sharedList,
    { v'.heap q with refcount := 0 } = { v.heap q with refcount := 0 }

/-- The call returns. When it succeeds there is one more file handle, the one that it returns,
    and when it fails the tables have the same entries as before. -/
def LeavesTables (v : Vfs) (ec : Cause) (path : List UInt8) (oflags : UInt32) : Prop :=
  ∃ file ec' v', fsOpen v ec path oflags = some (file, ec', v') ∧
    if ec' = .ok then
      ∃ handle, handle.fileno = file ∧ v'.handleList.Perm (handle :: v.handleList)
    else SameEntries v v'

/-- The tables before a call: the reference counts are right, and the next file number is not
    in use. -/
structure TablesOk (v : Vfs) : Prop where
  inv : VfsInv v
  fileno_ne : ∀ handle ∈ v.handleList, handle.fileno ≠ v.handleNo

/-- The directory that a path leads to, and the last name, when all directories on the way are
    open. -/
def throughOpen (v : Vfs) (tree : DirTree) : ℕ → List (List UInt8) → Option (ℕ × List UInt8)
  | _, [] => none
  | i, [last] => some (i, last)
  | i, name :: comps =>
    match tree.lookup i name with
    | none => none
    | some j => if isOpen v j && v.fs.isDir j then throughOpen v tree j comps else none

/-- The call is rejected for its flags or its path, or it needs no memory and finds an entry of
    the wrong type: two handles are on the root directory, the table has room for the handle, and
    all directories on the way are open. -/
def KeepsTables (v : Vfs) (tree : DirTree) (ec : Cause) (path : List UInt8) (oflags : UInt32) :
    Prop :=
  rejectsOflags oflags = true ∨ path.length > pathMax ∨
    ec = .ok ∧ v.handleList.length < v.handleCap ∧
      (∃ r, sharedOn v inodeRoot = some r ∧ (v.heap r).refcount ≠ 1) ∧
      ∃ d last j, throughOpen v tree inodeRoot (components path) = some (d, last) ∧
        tree.lookup d last = some j ∧ v.fs.isDir j ≠ hasFlag oflags oflagsDirectory

/-! ## What `vfs_file_open` leaves alone -/

section

variable {v v' : Vfs} {c p k : ℕ} {name : List UInt8} {oflags : UInt32} {ec : Cause}

theorem createTarget_frame (h : createTarget v c name oflags = some (ec, v')) :
    ∃ fs mem, v' = { v with fs := fs, mem := mem } := by
  unfold createTarget at h
  by_cases hflag : hasFlag oflags (oflagsExclusive ||| oflagsCreate) = true
  · rw [if_pos hflag] at h
    simp only [bind_eq_bind, bind_eq_some_iff] at h
    obtain ⟨present, _, h⟩ := h
    split_ifs at h
    · cases h
      exact ⟨_, _, rfl⟩
    · cases h
      exact ⟨_, _, rfl⟩
    · simp only [map_eq_some_iff, Prod.mk.injEq] at h
      obtain ⟨_, _, _, rfl⟩ := h
      exact ⟨_, _, rfl⟩
    · simp only [map_eq_some_iff, Prod.mk.injEq] at h
      obtain ⟨_, _, _, rfl⟩ := h
      exact ⟨_, _, rfl⟩
  · rw [if_neg hflag] at h
    cases h
    exact ⟨_, _, rfl⟩

theorem vfsRamfsFileOpen_failed {fs fs' : Ramfs} {vfs : ℕ} {dir file file' : VfsFileShared}
    (h : vfsRamfsFileOpen fs vfs dir file name = some (ec, fs', file')) (hec : ec ≠ .ok) :
    file' = file := by
  simp only [vfsRamfsFileOpen, bind_eq_bind, bind_eq_some_iff] at h
  obtain ⟨_, _, found, _, h⟩ := h
  cases found with
  | none =>
    cases h
    rfl
  | some off =>
    cases h
    exact absurd rfl hec

/-- `vfs_file_open` leaves the tables alone, and the shared handle when it fails. -/
theorem vfsFileOpen_frame (h : vfsFileOpen v c p name oflags = some (ec, v')) :
    v'.sharedList = v.sharedList ∧ v'.handleList = v.handleList ∧
      (∀ q, q ≠ p → v'.heap q = v.heap q) ∧ (ec ≠ .ok → v'.heap p = v.heap p) := by
  simp only [vfsFileOpen, bind_eq_bind, bind_eq_some_iff] at h
  obtain ⟨vfs, _, ⟨ec1, v1⟩, hcreate, h⟩ := h
  obtain ⟨fs, mem, rfl⟩ := createTarget_frame hcreate
  by_cases hec : ec1 = .ok
  · rw [if_neg (not_not_intro hec)] at h
    simp only [bind_eq_some_iff] at h
    obtain ⟨⟨ec2, fs', file⟩, hopen, h⟩ := h
    cases h
    refine ⟨rfl, rfl, fun q hq => update_of_ne hq .., fun hec => ?_⟩
    exact (update_self ..).trans (vfsRamfsFileOpen_failed hopen hec)
  · rw [if_pos hec] at h
    cases h
    exact ⟨rfl, rfl, fun _ _ => rfl, fun _ => rfl⟩

/-! ## Destroying the handle of the walk -/

theorem destroyHandle_shared {handle : VfsFileHandle} (h : vfsFileDestroyHandle v k = some v')
    (hk : v.handleList[k]? = some handle) : (∀ q, q ≠ handle.shared → v'.heap q = v.heap q) ∧
      swapRemove v.handleList (some k) = some v'.handleList ∧
      ((v.heap handle.shared).refcount ≠ 1 ∧ v'.sharedList = v.sharedList ∧
          v'.heap handle.shared = { v.heap handle.shared with
            refcount := predRefcount (v.heap handle.shared).refcount } ∨
        (v.heap handle.shared).refcount = 1 ∧
          swapRemove v.sharedList (vfsFileByPtr v handle.shared) = some v'.sharedList ∧
          (v'.heap handle.shared).ramfsFile = none) := by
  obtain ⟨handle', handles, hk', hhandles, hcases⟩ := vfsFileDestroyHandle_cases h
  obtain rfl : handle = handle' := some.inj (hk.symm.trans hk')
  rcases hcases with ⟨hcount, hsame⟩ | ⟨hcount, i, table, htable, hsame⟩
  · refine ⟨fun q hq => ?_, ?_, .inl ⟨hcount, hsame.sharedList, ?_⟩⟩
    · rw [hsame.heap, setHandles_heap, dropRefcount_heap_of_ne _ hq]
    · rw [hsame.handleList, setHandles_handleList]
      exact hhandles
    · rw [hsame.heap, setHandles_heap, dropRefcount_heap_self]
  · refine ⟨fun q hq => ?_, ?_, .inr ⟨hcount, ?_, ?_⟩⟩
    · rw [hsame.heap, setHandles_heap, setTable_heap, withClosed_heap_of_ne _ _ hq,
        dropRefcount_heap_of_ne _ hq]
    · rw [hsame.handleList, setHandles_handleList]
      exact hhandles
    · rw [hsame.sharedList, setHandles_sharedList, setTable_sharedList]
      exact htable
    · rw [hsame.heap, setHandles_heap, setTable_heap, withClosed_heap_self]

section

variable {hs : List VfsFileHandle} {handle : VfsFileHandle} (hlist : v.handleList = hs ++ [handle])
  (hne : ∀ h ∈ hs, h.fileno ≠ handle.fileno)

include hlist hne

theorem vfsFileByHandle_last : vfsFileByHandle v handle.fileno = some hs.length := by
  have hnone : hs.findIdx? (fun h => decide (h.fileno = handle.fileno)) = none := by
    rw [findIdx?_eq_none_iff]
    exact fun h hh => decide_eq_false (hne h hh)
  rw [vfsFileByHandle, hlist, findIdx?_append, hnone]
  simp

theorem openError_eq (ec : Cause) : openError v hs.length ec =
      (vfsFileDestroyHandle v hs.length).map fun v' => (fileNone, ec, v') := by
  have hget : v.handleList[hs.length]? = some handle := by
    rw [hlist]
    exact getElem?_concat_length
  simp only [openError, hget, bind_eq_bind, bind_some, vfsFileByHandle_last hlist hne,
    Option.pure_def]
  cases vfsFileDestroyHandle v hs.length <;> rfl

end

theorem openError_cause {parent : ℕ} {file : Int32} {ec' : Cause}
    (h : openError v parent ec = some (file, ec', v')) : ec' = ec := by
  simp only [openError, Option.bind_eq_bind, Option.bind_eq_some_iff, Option.pure_def,
    Option.some.injEq, Prod.mk.injEq] at h
  obtain ⟨_, _, _, _, _, _, _, rfl, _⟩ := h
  rfl

end

/-! ## Slots that only the walk knows -/

namespace WalkTable

/-- When only the walking handle refers to its shared handle, the table has a slot that nobody
    else holds. -/
def Marked (t : WalkTable) : Prop :=
  t.index ≠ none → ∃ slot ∈ t.slots, ∀ j, slot ≠ .held j

theorem left_ne_held {slot : Slot} (h : ∀ j, slot ≠ .held j) (j : ℕ) : slot.left ≠ .held j := by
  cases slot with
  | held i => exact absurd rfl (h i)
  | own i => exact Slot.noConfusion
  | closed i => exact Slot.noConfusion

theorem Marked.next {t t' : WalkTable} {j : ℕ} (h : t.Marked) (hnext : t.next j = some t') : t'.Marked := by
  unfold WalkTable.next at hnext
  cases hfind : t.find j with
  | some slot =>
    rw [hfind] at hnext
    cases slot with
    | held i =>
      cases hnext
      exact fun hne => absurd rfl hne
    | own i =>
      cases hnext
      exact h
    | closed i => cases hnext
  | none =>
    rw [hfind] at hnext
    cases hnext
    intro _
    cases hindex : t.index with
    | none => exact ⟨.own j, by simp [removeIndex], fun _ => Slot.noConfusion⟩
    | some k =>
      -- the new slot replaces slot `k`, or is the one that is dropped
      have hset : removeIndex (some k) (t.slots.map Slot.left ++ [.own j]) =
          (t.slots.map Slot.left).set k (.own j) := by
        rw [removeIndex, swapRemove_append_singleton, getD_some]
      simp only [hset]
      by_cases hk : k < (t.slots.map Slot.left).length
      · exact ⟨.own j, mem_set hk _, fun _ => Slot.noConfusion⟩
      · obtain ⟨slot, hslot, hne⟩ := h (by rw [hindex]; exact some_ne_none k)
        rw [set_eq_of_length_le (not_lt.mp hk)]
        exact ⟨slot.left, mem_map_of_mem hslot, left_ne_held hne⟩

end WalkTable

theorem marked_follow {dirs : ℕ → Bool} {tree : DirTree} {i d : ℕ} {t t' : WalkTable}
    {comps : List (List UInt8)} {last : List UInt8} (h : t.Marked)
    (hout : follow dirs tree i t comps = .done d t' last) : t'.Marked := by
  fun_induction follow dirs tree i t comps with
  | case1 i t => cases hout; exact h
  | case2 i t last => cases hout; exact h
  | case3 => cases hout
  | case4 => cases hout
  | case5 i t name comps _ j _ t'' hnext _ ih => exact ih (h.next hnext) hout
  | case6 => cases hout

theorem marked_startTable {v : Vfs} {c : ℕ} (hroot : sharedOn v inodeRoot = some c) : (startTable v).Marked := by
  have hstart : startTable v = tableAt v c := by rw [startTable, hroot]
  rw [hstart]
  intro hne
  have hcount : (v.heap c).refcount = 1 := by
    by_contra hcount
    rw [tableAt, if_neg hcount] at hne
    exact hne rfl
  refine ⟨.own (v.heap c).inode, ?_, fun _ => Slot.noConfusion⟩
  rw [tableAt, if_pos hcount]
  refine mem_map.mpr ⟨c, (mem_of_sharedOn hroot).1, if_pos rfl⟩

/-! ## Behind the walk -/

section

variable {v₀ v v' : Vfs} {c d r : ℕ} {h₀ : VfsFileHandle} {hs : List VfsFileHandle} {t : WalkTable}
  {ent : DirentT} {name : List UInt8} {oflags : UInt32} {file : Int32} {ec ec' : Cause}

section

variable (hw : Walking v₀ hs.length h₀ c d t v)

include hw

theorem Walking.handles_concat (hhandles : v₀.handleList = hs ++ [h₀]) : v.handleList = hs ++ [{ h₀ with shared := c }] := by
  rw [hw.handles, hhandles, set_concat]

theorem Walking.closed_of_mem (hr : r ∈ v.sharedList) (hr0 : r ∉ v₀.sharedList) (hrc : r ≠ c) : (v.heap r).ramfsFile = none :=
  (hw.closed r hr hr0 hrc).2

theorem Walking.refcount_eq_one_iff : (v.heap c).refcount = 1 ↔ t.index ≠ none := by
  rcases hw.placed.cases with ⟨hindex, hmem, hc⟩ | ⟨k, hindex, _, hcount, _⟩
  · refine ⟨fun h => absurd ?_ (hw.base.refcount_ne c hmem), fun h => absurd hindex h⟩
    rw [hc] at h
    exact Nat.succ.inj h
  · rw [hindex]
    exact ⟨fun _ => some_ne_none k, fun _ => hcount⟩

/-- When the walk ends in an error, a shared handle that nobody else holds is gone or closed. -/
theorem Walking.openError_closes (hhandles : v₀.handleList = hs ++ [h₀]) (hfileno : ∀ h ∈ hs, h.fileno ≠ h₀.fileno)
    (herror : openError v hs.length ec = some (file, ec', v')) (hr0 : r ∉ v₀.sharedList)
    (hr : r ∈ v'.sharedList) : (v'.heap r).ramfsFile = none := by
  have hlist := hw.handles_concat hhandles
  rw [openError_eq hlist hfileno, map_eq_some_iff] at herror
  obtain ⟨v1, hdestroy, heq⟩ := herror
  cases heq
  obtain ⟨hother, _, hcases⟩ := destroyHandle_shared hdestroy hw.handle_eq
  by_cases hrc : r = c
  · subst hrc
    rcases hcases with ⟨hcount, _⟩ | ⟨_, _, hnone⟩
    · rcases hw.placed.cases with ⟨_, hmem, _⟩ | ⟨_, _, _, hone, _⟩
      · exact absurd hmem hr0
      · exact absurd hone hcount
    · exact hnone
  · rw [hother r hrc]
    refine hw.closed_of_mem ?_ hr0 hrc
    rcases hcases with ⟨_, hshared, _⟩ | ⟨_, hshared, _⟩
    · exact hshared ▸ hr
    · exact mem_of_swapRemove hshared hr

/-- When the type of the entry fits, two more handles are there, or a shared handle that was not
    there before or is closed. -/
theorem Walking.openTarget_leaks (hhandles : v₀.handleList = hs ++ [h₀])
    (hfileno : ∀ h ∈ hs, h.fileno ≠ h₀.fileno) (hmem : v.MemOk) (htype : TypeOk ent oflags)
    (hmarked : t.Marked) (hopen : openTarget v hs.length ent name oflags = some (file, ec, v')) :
    ec = .ok ∧ v'.handleList.length = hs.length + 2 ∨
      ec ≠ .ok ∧ ∃ q ∈ v'.sharedList, q ∉ v₀.sharedList ∧
        (v₀.heapNext ≤ q ∨ (v'.heap q).ramfsFile = none) := by
  have hlist := hw.handles_concat hhandles
  by_cases hexisting : ent.inode ≠ 0 ∧ vfsSharedByInode v (some rootVfs) ent.inode ≠ none
  · -- a shared handle is there
    obtain ⟨hfound, hne⟩ := hexisting
    obtain ⟨k, hk⟩ := ne_none_iff_exists'.mp hne
    obtain ⟨p, hp, _⟩ := vfsSharedByInode_eq_some hk
    obtain ⟨v1, heq, hsame⟩ := openTarget_existing name hmem hw.handle_eq htype hfound
      (hw.current.vfs.symm ▸ hk) hp
    rw [heq] at hopen
    cases hopen
    refine .inl ⟨rfl, ?_⟩
    rw [hsame.handleList, hlist]
    simp
  · have hnone : ent.inode ≠ 0 →
        vfsSharedByInode v (v.heap { h₀ with shared := c }.shared).vfs ent.inode = none := by
      intro hfound
      rw [hw.current.vfs]
      exact not_not.mp fun hne => hexisting ⟨hfound, hne⟩
    obtain ⟨v1, hsame, heq⟩ := openTarget_new name hmem hw.handle_eq htype hnone
    rw [heq, bind_eq_some_iff] at hopen
    obtain ⟨⟨ec1, v2⟩, hfile, hopen⟩ := hopen
    obtain ⟨hshared2, hhandles2, hother2, hfailed⟩ := vfsFileOpen_frame hfile
    have hhandles2 : v2.handleList =
        (hs ++ [{ h₀ with shared := c }]) ++ [targetHandle v v.heapNext oflags] := by
      rw [hhandles2, hsame.handleList, targetTables_handleList, hlist]
    by_cases hec : ec1 = .ok
    · rw [if_neg (not_not_intro hec)] at hopen
      cases hopen
      refine .inl ⟨hec, ?_⟩
      rw [setShared_handleList, hhandles2]
      simp
    · rw [if_pos hec, bind_eq_some_iff] at hopen
      obtain ⟨v3, hdestroy, herror⟩ := hopen
      have hpc : v.heapNext ≠ c := hw.current_lt.ne'
      have hheap2 : ∀ q, q ≠ v.heapNext → v2.heap q = v.heap q := fun q hq => by
        rw [hother2 q hq, hsame.heap, targetTables_heap, withShared_heap, update_of_ne hq]
      have hp2 : (v2.heap v.heapNext).refcount = 0 := by
        rw [hfailed hec, hsame.heap, targetTables_heap, withShared_heap, update_self]
        rfl
      have hlen : v.handleList.length = (hs ++ [{ h₀ with shared := c }]).length := by rw [hlist]
      -- the new handle is destroyed, but its shared handle stays in the table
      have htarget : v2.handleList[v.handleList.length]? =
          some (targetHandle v v.heapNext oflags) := by
        rw [hhandles2, hlen]
        exact getElem?_concat_length
      obtain ⟨hother3, hhandles3, hcases3⟩ := destroyHandle_shared hdestroy htarget
      have hshared3 : v3.sharedList = v.sharedList ++ [v.heapNext] := by
        rcases hcases3 with ⟨_, hshared, _⟩ | ⟨hcount, _⟩
        · rw [hshared, hshared2, hsame.sharedList]
          rfl
        · exact absurd (hp2.symm.trans hcount) zero_ne_one
      have hlist3 : v3.handleList = hs ++ [{ h₀ with shared := c }] := by
        rw [hhandles2, hlen, swapRemove_last _ _ le_rfl] at hhandles3
        exact (some.inj hhandles3).symm
      have hheap3 : ∀ q, q ≠ v.heapNext → v3.heap q = v.heap q := fun q hq =>
        (hother3 q hq).trans (hheap2 q hq)
      rw [openError_eq hlist3 hfileno, map_eq_some_iff] at herror
      obtain ⟨v4, hdestroy4, heq4⟩ := herror
      cases heq4
      have hget3 : v3.handleList[hs.length]? = some { h₀ with shared := c } := by
        rw [hlist3]
        exact getElem?_concat_length
      obtain ⟨hother4, _, hcases4⟩ := destroyHandle_shared hdestroy4 hget3
      have hnew : v.heapNext ∉ v₀.sharedList ∧ v₀.heapNext ≤ v.heapNext :=
        ⟨fun h => absurd (hw.base.lt_next _ h) (not_lt.mpr hw.next_le), hw.next_le⟩
      refine .inr ⟨hec, ?_⟩
      rcases hcases4 with ⟨_, hshared, _⟩ | ⟨hcount, hshared, _⟩
      · refine ⟨v.heapNext, ?_, hnew.1, .inl hnew.2⟩
        rw [hshared, hshared3]
        simp
      · by_cases hc : c ∈ v.sharedList
        · -- the shared handle of the walk makes room for the new one
          obtain ⟨k, hlt, hk, -⟩ := findIdx_eq_of_mem hc
          have hptr : vfsFileByPtr v3 c = some k := by
            rw [vfsFileByPtr, hshared3, findIdx?_append, hk, some_or]
          rw [hptr, hshared3, swapRemove_append_singleton, some.injEq] at hshared
          refine ⟨v.heapNext, ?_, hnew.1, .inl hnew.2⟩
          rw [← hshared]
          exact mem_set hlt _
        · -- the new one is dropped, and a closed one is left
          have hptr : vfsFileByPtr v3 c = none := by
            rw [vfsFileByPtr, hshared3, findIdx?_eq_none_iff]
            intro q hq
            rcases mem_append.mp hq with hq | hq
            · exact decide_eq_false fun h => hc (h ▸ hq)
            · exact decide_eq_false fun h => hpc (mem_singleton.mp hq ▸ h)
          rw [hptr, hshared3] at hshared
          have hshared4 : v'.sharedList = v.sharedList := by
            unfold swapRemove at hshared
            simp only [getLast?_concat, dropLast_concat, some.injEq] at hshared
            exact hshared.symm
          have hindex : t.index ≠ none := by
            rw [← hw.refcount_eq_one_iff, ← hheap3 c hpc.symm]
            exact hcount
          obtain ⟨slot, hslot, hheld⟩ := hmarked hindex
          rw [← hw.slots_eq] at hslot
          obtain ⟨q, hq, rfl⟩ := mem_map.mp hslot
          have hq0 : q ∉ v₀.sharedList := fun h => hheld (v.heap q).inode (if_pos h)
          have hqc : q ≠ c := fun h => hc (h ▸ hq)
          have hqp : q ≠ v.heapNext := (hw.lt_next q hq).ne
          refine ⟨q, hshared4 ▸ hq, hq0, .inr ?_⟩
          rw [hother4 q hqc, hheap3 q hqp]
          exact hw.closed_of_mem hq hq0 hqc

end

end

/-! ## Other files and another allocator -/

/-- The same tables, with other files and another allocator. -/
@[simps]
def Vfs.inWorld (v : Vfs) (fs : Ramfs) (mem : ℕ → Realloc) : Vfs := { v with fs := fs, mem := mem }

/-- The filesystem with all regular files empty. -/
def Ramfs.emptied (fs : Ramfs) : Ramfs :=
  { fs with
    inodeList := fun k =>
      if fs.isDir k then fs.inodeList k else { fs.inodeList k with len := 0, cap := 0, buf := [] } }

/-- The tree in which the regular files have no entries. -/
def DirTree.dirsOnly (tree : DirTree) (fs : Ramfs) : DirTree := fun d =>
  if fs.isDir d then tree d else []

section

variable {v : Vfs} {fs fs' : Ramfs} {tree : DirTree} {i d j : ℕ} {t t' : WalkTable}
  {comps : List (List UInt8)} {name last : List UInt8}

theorem TablesOk.inWorld (h : TablesOk v) (fs : Ramfs) (mem : ℕ → Realloc) : TablesOk (v.inWorld fs mem) :=
  ⟨⟨⟨h.inv.tables.refcounted, h.inv.tables.lt_next⟩, h.inv.opened⟩, h.fileno_ne⟩

theorem SameDirs.isDir_eq (h : SameDirs fs fs') : fs'.isDir = fs.isDir := by
  funext k
  obtain ⟨len, cap, buf, heq⟩ := h.inode_eq k
  rw [Ramfs.isDir, Ramfs.isDir, heq, Inode.hasType, Inode.hasType]

theorem SameDirs.holdsTree (h : SameDirs fs fs') (htree : HoldsTree fs tree) : HoldsTree fs' tree where
  holds d hd := by
    rw [h.isDir_eq] at hd
    rw [h.dir_eq d hd]
    exact htree.holds d hd
  entry_inode d hd e he := by
    rw [h.isDir_eq] at hd
    obtain ⟨len, cap, buf, heq⟩ := h.inode_eq e.inode
    rw [heq]
    exact htree.entry_inode d hd e he
  root := h.isDir_eq ▸ htree.root
  len_le := h.len_eq ▸ htree.len_le
  dir_lt d hd := h.len_eq ▸ htree.dir_lt d (h.isDir_eq ▸ hd)

theorem sameDirs_emptied (fs : Ramfs) : SameDirs fs fs.emptied where
  inode_eq k := by
    unfold Ramfs.emptied
    cases hk : fs.isDir k with
    | true => exact ⟨_, _, _, if_pos hk⟩
    | false => exact ⟨_, _, _, if_neg (hk ▸ Bool.false_ne_true)⟩
  dir_eq k hk := if_pos hk
  usage_eq := rfl
  len_eq := rfl

theorem HoldsTree.searchable_emptied (htree : HoldsTree fs tree) : Searchable fs.emptied (fun _ => true) (tree.dirsOnly fs) where
  holds d _ := by
    unfold DirTree.dirsOnly
    by_cases hd : fs.isDir d = true
    · rw [if_pos hd, (sameDirs_emptied fs).dir_eq d hd]
      exact htree.holds d hd
    · have hempty : fs.emptied.inodeList d =
          { fs.inodeList d with len := 0, cap := 0, buf := [] } := if_neg hd
      rw [if_neg hd, hempty]
      exact ⟨⟨le_rfl, rfl, by simp⟩, rfl, fun _ he => absurd he not_mem_nil⟩
  entry_inode d _ e he := by
    unfold DirTree.dirsOnly at he
    by_cases hd : fs.isDir d = true
    · rw [if_pos hd] at he
      obtain ⟨len, cap, buf, heq⟩ := (sameDirs_emptied fs).inode_eq e.inode
      rw [heq]
      exact htree.entry_inode d hd e he
    · rw [if_neg hd] at he
      exact absurd he not_mem_nil
  root := rfl

theorem follow_ne_notDir {dirs : ℕ → Bool} (hdirs : ∀ k, dirs k = true) : follow dirs tree i t comps ≠ .notDir j := by
  intro h
  fun_induction follow dirs tree i t comps with
  | case1 => cases h
  | case2 => cases h
  | case3 => cases h
  | case4 => cases h
  | case5 _ _ _ _ _ _ _ _ _ _ ih => exact ih h
  | case6 _ _ _ _ _ k _ _ _ hk => exact hk (hdirs k)

theorem lookup_dirsOnly (tree : DirTree) (hd : fs.isDir d = true) (name : List UInt8) :
    (tree.dirsOnly fs).lookup d name = tree.lookup d name := by
  rw [DirTree.lookup, DirTree.lookup, DirTree.dirsOnly, if_pos hd]

theorem isDir_of_lookup (h : (tree.dirsOnly fs).lookup d name = some j) : fs.isDir d = true := by
  by_contra hd
  rw [DirTree.lookup, DirTree.dirsOnly, if_neg hd] at h
  cases h

theorem isDir_of_follow (h : follow (fun _ => true) (tree.dirsOnly fs) i t comps = .done d t' last)
    (hne : comps ≠ []) (hlast : (tree.dirsOnly fs).lookup d last = some j) : fs.isDir i = true := by
  rcases comps with _ | ⟨name, _ | ⟨next, comps⟩⟩
  · exact absurd rfl hne
  · cases h
    exact isDir_of_lookup hlast
  · rw [follow.eq_3 _ _ _ _ _ _ (cons_ne_nil _ _)] at h
    cases hlookup : (tree.dirsOnly fs).lookup i name with
    | none =>
      rw [hlookup] at h
      cases h
    | some k => exact isDir_of_lookup hlookup

end

/-! ## Paths through open directories -/

section

variable {v : Vfs} {tree : DirTree} {i d j : ℕ} {t : WalkTable} {comps : List (List UInt8)}
  {last : List UInt8}

section

variable (hvfs : ∀ q ∈ v.sharedList, (v.heap q).vfs = some rootVfs)

include hvfs

theorem follow_of_throughOpen (h : throughOpen v tree i comps = some (d, last)) :
    comps ≠ [] ∧ follow v.fs.isDir tree i (heldTable v) comps = .done d (heldTable v) last ∧
      opens v.fs.isDir tree i (heldTable v) comps = false := by
  fun_induction throughOpen v tree i comps with
  | case1 => cases h
  | case2 i name =>
    cases h
    exact ⟨cons_ne_nil _ _, rfl, rfl⟩
  | case3 => cases h
  | case4 i name comps hne j hlookup hopen ih =>
    obtain ⟨_, hfollow, hopens⟩ := ih h
    rw [and_eq_true] at hopen
    obtain ⟨c, hc⟩ := exists_sharedOn hopen.1
    refine ⟨cons_ne_nil _ _, ?_, ?_⟩
    · rw [follow.eq_3 _ _ _ _ _ _ hne]
      simp only [hlookup, next_heldTable hvfs hc, hopen.2, if_true, hfollow]
    · rw [opens.eq_3 _ _ _ _ _ _ hne]
      simp only [hlookup, next_heldTable hvfs hc, hopen.2, find_heldTable hvfs, hc,
        map_some, isNone_some, hopens, Bool.and_false, Bool.or_false]
  | case5 => cases h

theorem open_of_follow {k : ℕ} {name : List UInt8} (hne : comps ≠ [])
    (hlookup : (tree.dirsOnly v.fs).lookup i name = some k)
    (hfollow : follow (fun _ => true) (tree.dirsOnly v.fs) i (heldTable v) (name :: comps) = .done
      d t last)
    (hopens : opens (fun _ => true) (tree.dirsOnly v.fs) i (heldTable v) (name :: comps) = false)
    (hlast : (tree.dirsOnly v.fs).lookup d last = some j) : (isOpen v k && v.fs.isDir k) = true ∧
      follow (fun _ => true) (tree.dirsOnly v.fs) k (heldTable v) comps = .done d t last ∧
      opens (fun _ => true) (tree.dirsOnly v.fs) k (heldTable v) comps = false := by
  simp only [follow.eq_3 _ _ _ _ _ _ hne, hlookup] at hfollow
  simp only [opens.eq_3 _ _ _ _ _ _ hne, hlookup] at hopens
  cases hopen : sharedOn v k with
  | none =>
    -- the walk would open inode `k`
    have hfind : (heldTable v).find k = none := by rw [find_heldTable hvfs, hopen, map_none]
    simp only [WalkTable.next, hfind, isNone_none, Bool.true_or, true_eq_false] at hopens
  | some c =>
    simp only [next_heldTable hvfs hopen, if_true] at hfollow
    simp only [next_heldTable hvfs hopen, Bool.true_and, or_eq_false_iff] at hopens
    rw [sharedOn_isOpen hopen, isDir_of_follow hfollow hne hlast]
    exact ⟨rfl, hfollow, hopens.2⟩

/-- A walk that opens no directory and finds a name goes through open directories. -/
theorem throughOpen_of_follow (hne : comps ≠ [])
    (hfollow : follow (fun _ => true) (tree.dirsOnly v.fs) i (heldTable v) comps = .done d t last)
    (hopens : opens (fun _ => true) (tree.dirsOnly v.fs) i (heldTable v) comps = false)
    (hlast : (tree.dirsOnly v.fs).lookup d last = some j) :
    throughOpen v tree i comps = some (d, last) := by
  induction comps generalizing i with
  | nil => exact absurd rfl hne
  | cons name comps ih =>
    rcases comps with _ | ⟨next, comps⟩
    · cases hfollow
      rfl
    · have hne' : next :: comps ≠ [] := cons_ne_nil _ _
      have hi := isDir_of_follow hfollow hne hlast
      cases hlookup : (tree.dirsOnly v.fs).lookup i name with
      | none =>
        simp only [follow.eq_3 _ _ _ _ _ _ hne', hlookup] at hfollow
        cases hfollow
      | some k =>
        obtain ⟨hopen, hfollow', hopens'⟩ := open_of_follow hvfs hne' hlookup hfollow hopens hlast
        rw [lookup_dirsOnly tree hi] at hlookup
        simp only [throughOpen.eq_3 _ _ _ _ _ hne', hlookup, hopen, if_true]
        exact ih hne' hfollow' hopens'

end

end

/-! ## The calls that leave the tables as they should -/

section

variable {v v' : Vfs} {r : ℕ} {dirs : ℕ → Bool} {tree : DirTree} {ec ec' : Cause}
  {path : List UInt8} {oflags : UInt32} {file : Int32}

section

variable (h : LeavesTables v ec path oflags)

include h

section

variable (hopen : fsOpen v ec path oflags = some (file, ec', v'))

include hopen

theorem LeavesTables.sameEntries (hec : ec' ≠ .ok) : SameEntries v v' := by
  obtain ⟨file1, ec1, v1, hopen1, hleaves⟩ := h
  obtain ⟨_, rfl, rfl⟩ : file1 = file ∧ ec1 = ec' ∧ v1 = v' := by
    rw [hopen, some.injEq, Prod.mk.injEq, Prod.mk.injEq] at hopen1
    exact ⟨hopen1.1.symm, hopen1.2.1.symm, hopen1.2.2.symm⟩
  rwa [if_neg hec] at hleaves

theorem LeavesTables.length_handles (hec : ec' ≠ .ok) :
    v'.handleList.length = v.handleList.length :=
  (h.sameEntries hopen hec).handles.length_eq

/-- A call that succeeds leaves one more handle, and one that fails no shared handle that is
    new or closed. -/
theorem LeavesTables.not_leaked (hv : VfsInv v) :
    ¬ (ec' = .ok ∧ v'.handleList.length = v.handleList.length + 2 ∨
      ec' ≠ .ok ∧ ∃ q ∈ v'.sharedList, v.heapNext ≤ q ∨ (v'.heap q).ramfsFile = none) := by
  rintro (⟨rfl, hlen⟩ | ⟨hec, q, hq, hleak⟩)
  · obtain ⟨file1, ec1, v1, hopen1, hleaves⟩ := h
    rw [hopen] at hopen1
    cases hopen1
    rw [if_pos rfl] at hleaves
    obtain ⟨handle, _, hperm⟩ := hleaves
    have := hperm.length_eq
    rw [length_cons] at this
    omega
  · have hsame := h.sameEntries hopen hec
    have hq : q ∈ v.sharedList := hsame.shared.mem_iff.mp hq
    rcases hleak with hle | hnone
    · exact absurd (hv.tables.lt_next q hq) (not_lt.mpr hle)
    · have hfile : (v'.heap q).ramfsFile = (v.heap q).ramfsFile := by
        have hfiles := congrArg VfsFileShared.ramfsFile (hsame.files q hq)
        exact hfiles
      rw [hnone, (hv.opened q hq).ramfsFile] at hfile
      cases hfile

end

end

section

variable (hflags : rejectsOflags oflags = false) (hlen : ¬ path.length > pathMax)

include hflags hlen

theorem LeavesTables.room (h : LeavesTables v ec path oflags) (hmem : v.MemIs false) :
    (∃ r, sharedOn v inodeRoot = some r) ∧ v.handleList.length < v.handleCap := by
  by_contra hno
  have hfull : vfsSharedByInode v (some rootVfs) inodeRoot = none ∨
      v.handleCap ≤ v.handleList.length := by
    rw [not_and_or, not_lt] at hno
    refine hno.imp_left fun hroot => ?_
    have hnone : sharedOn v inodeRoot = none := by
      by_contra hne
      exact hroot (ne_none_iff_exists'.mp hne)
    rwa [sharedOn_eq_none_iff, isOpen, isSome_eq_false_iff, isNone_iff_eq_none] at hnone
  have hrootOpen := rootOpen_none ec (vfsFileCreateHandle_none hmem hfull)
  obtain ⟨file, ec', v', hopen, _⟩ := h
  rw [fsOpen, if_neg (by rw [hflags]; exact Bool.false_ne_true), if_neg hlen, hrootOpen] at hopen
  cases hopen

theorem LeavesTables.ec_eq (h : LeavesTables v ec path oflags)
    (hroom : v.handleList.length < v.handleCap) (hroot : sharedOn v inodeRoot = some r) : ec = .ok := by
  by_contra hec
  obtain ⟨v1, hrootOpen, hsame⟩ := rootOpen_existing ec (.inr hroom) hroot
  have hopen : fsOpen v ec path oflags = some (fileNone, ec, v1) := by
    simp only [fsOpen, hflags, false_eq_true, if_false, if_neg hlen, hrootOpen,
      Option.bind_eq_bind, Option.bind_some, ne_eq, hec, not_false_eq_true, if_true, Option.pure_def]
  have hcount := h.length_handles hopen hec
  rw [hsame.handleList, walkTables_handleList, length_append] at hcount
  simp at hcount

theorem LeavesTables.opens_eq (h : LeavesTables v .ok path oflags) (hv : TablesOk v)
    (hmem : v.MemIs false) (htree : Searchable v.fs dirs tree)
    (hroom : v.handleList.length < v.handleCap) (hroot : sharedOn v inodeRoot = some r)
    (hcomps : components path ≠ []) :
    opens dirs tree inodeRoot (startTable v) (components path) = false := by
  have hbase := hv.inv.walkBase
  obtain ⟨v1, hrootOpen, hsame⟩ := rootOpen_existing .ok (.inr hroom) hroot
  have hstart := hsame.started hbase hv.inv.tables.refcounted.nodup hroot
  obtain ⟨hnext, hfound⟩ := next_startTable hbase
  rcases (walk_spec .ok hstart.walking hnext hfound (hstart.searchable htree) rfl hcomps).1 with
    ⟨_, hopens⟩ | ⟨⟨ent, path', v2, hwalk, hcount⟩, _⟩
  · exact eq_false_iff.mpr fun h => hopens h (hstart.mem hmem)
  · have hopen : fsOpen v .ok path oflags = some (fileNone, .nomem, v2) := by
      rw [fsOpen_eq hflags hlen hrootOpen, hwalk, bind_some, if_pos (by simp)]
    have hcount' := h.length_handles hopen (by simp)
    rw [hcount, hstart.handles, length_append] at hcount'
    simp at hcount'

/-- With memory, the walk finds an entry of the wrong type, and the handle of the walk is not the
    last one on the root directory. -/
theorem LeavesTables.mismatch (h : LeavesTables v .ok path oflags) (hv : TablesOk v)
    (hmem : v.MemOk) (htree : Searchable v.fs dirs tree) (hdirs : ∀ j, dirs j = true)
    (hroot : sharedOn v inodeRoot = some r) : components path ≠ [] ∧ (v.heap r).refcount ≠ 1 ∧
      ∃ d t last j, follow dirs tree inodeRoot (startTable v) (components path) = .done d t last ∧
        tree.lookup d last = some j ∧ v.fs.isDir j ≠ hasFlag oflags oflagsDirectory := by
  have hbase := hv.inv.walkBase
  obtain ⟨v1, hrootOpen, hsame⟩ := rootOpen_existing .ok (.inl hmem) hroot
  have hstart := hsame.started hbase hv.inv.tables.refcounted.nodup hroot
  obtain ⟨hnext, hfound⟩ := next_startTable hbase
  have hw := hstart.walking
  have hmem1 : (withoutRef v1 r).MemOk := hstart.mem hmem
  have hhandles := hstart.handles
  have hfileno : ∀ h ∈ v.handleList, h.fileno ≠ (parentHandle v r).fileno := hv.fileno_ne
  have hmarked := marked_startTable hroot
  have heq := fsOpen_eq hflags hlen hrootOpen
  -- a target whose type fits
  have hfits : ∀ {c d t v2 ent name}, Walking (withoutRef v1 r) v.handleList.length
      (parentHandle v r) c d t v2 → t.Marked → TypeOk ent oflags →
      fsOpen v .ok path oflags = openTarget v2 v.handleList.length ent name oflags → False := by
    intro c d t v2 ent name hw hmarked htype heq
    obtain ⟨file, ec', v', hopen, _⟩ := id h
    have hleak := hw.openTarget_leaks hhandles hfileno (hw.mem hmem1) htype hmarked (heq ▸ hopen)
    refine h.not_leaked hopen hv.inv (hleak.imp_right fun ⟨hec, q, hq, _, hleak⟩ =>
      ⟨hec, q, hq, hleak.imp_left fun hle => ?_⟩)
    have hnext : (withoutRef v1 r).heapNext = v.heapNext := by
      rw [withoutRef_heapNext, hsame.heapNext]
      rfl
    exact hnext ▸ hle
  have hcomps : components path ≠ [] := by
    intro hcomps
    by_cases hpath : path = []
    · subst hpath
      rw [walk_nil, bind_some, if_neg (by simp)] at heq
      exact hfits hw hmarked (.inl rfl) heq
    · obtain ⟨c, v2, hwalk, hw'⟩ := walk_root .ok hw hnext hfound hcomps hpath
      rw [hwalk, bind_some, if_neg (by simp)] at heq
      exact hfits hw' hmarked (.inl rfl) heq
  have hwalk := (walk_spec .ok hw hnext hfound (hstart.searchable htree) rfl hcomps).1.resolve_right
    fun h => h.2.2 hmem1
  refine ⟨hcomps, ?_⟩
  rcases hout : follow dirs tree inodeRoot (startTable v) (components path) with
    ⟨d, t, last⟩ | ⟨d, t⟩ | j | _
  · rw [hout] at hwalk
    obtain ⟨⟨start, ent, path', c, v2, hwalk, hdrop, hent, hw'⟩, _⟩ := hwalk
    rw [hwalk, bind_some, if_neg (by simp)] at heq
    have hmarked' := marked_follow hmarked hout
    by_cases htype : TypeOk ent oflags
    · exact (hfits hw' hmarked' htype heq).elim
    rcases hent with ⟨_, hzero⟩ | ⟨j, hlookup, hfor, hj⟩
    · exact absurd (.inl hzero) htype
    refine ⟨?_, d, t, last, j, rfl, hlookup, ?_⟩
    · intro hcount
      rw [openTarget_mismatch hw'.handle_eq htype] at heq
      obtain ⟨file, ec', v', hopen, _⟩ := id h
      have herror := heq.symm.trans hopen
      have hec : ec' ≠ .ok := by
        rw [openError_cause herror]
        cases ent.isDir <;> simp
      have hr : r ∈ v'.sharedList :=
        (h.sameEntries hopen hec).shared.mem_iff.mpr (mem_of_sharedOn hroot).1
      have hr0 : r ∉ (withoutRef v1 r).sharedList := by
        have hcount1 : (v1.heap r).refcount = 1 := by
          rw [hsame.heap]
          exact hcount
        have hnodup : v1.sharedList.Nodup := by
          rw [hsame.sharedList]
          exact hv.inv.tables.refcounted.nodup
        rw [withoutRef, if_pos hcount1, setTable_sharedList, hnodup.mem_erase_iff]
        exact fun h => h.1 rfl
      have hnone := hw'.openError_closes hhandles hfileno herror hr0 hr
      exact h.not_leaked hopen hv.inv (.inr ⟨hec, r, hr, .inr hnone⟩)
    · intro hdir
      refine htype (.inr ?_)
      rw [hfor.isDir_eq, ← hdir, hstart.fs]
      rfl
  · rw [hout] at hwalk
    obtain ⟨⟨ent, path', c, v2, hwalk, hw'⟩, _⟩ := hwalk
    rw [hwalk, bind_some, if_pos (by simp)] at heq
    have hcount := h.length_handles heq (by simp)
    rw [hw'.handles_concat hhandles, length_append] at hcount
    simp at hcount
  · exact absurd hout (follow_ne_notDir hdirs)
  · rw [hout] at hwalk
    obtain ⟨hwalk, _⟩ := hwalk
    obtain ⟨file, ec', v', hopen, _⟩ := h
    rw [heq, show walk v1 .ok v.handleList.length path = none from hwalk] at hopen
    cases hopen

end

theorem startTable_held (hroot : sharedOn v inodeRoot = some r)
    (hcount : (v.heap r).refcount ≠ 1) : startTable v = heldTable v := by
  have hstart : startTable v = tableAt v r := by rw [startTable, hroot]
  rw [hstart, tableAt, if_neg hcount]

theorem clean_heldTable (v : Vfs) : (heldTable v).Clean v.sharedList.length := by
  refine ⟨fun slot hslot j hj => ?_, by simp [heldTable, heldSlots]⟩
  obtain ⟨q, _, rfl⟩ := mem_map.mp hslot
  cases hj

theorem withoutRef_held {v1 : Vfs} (hcount : (v1.heap r).refcount ≠ 1) :
    (withoutRef v1 r).sharedList = v1.sharedList ∧ ∀ q,
      { (withoutRef v1 r).heap q with refcount := 0 } = { v1.heap q with refcount := 0 } := by
  rw [withoutRef, if_neg hcount]
  refine ⟨rfl, fun q => ?_⟩
  rw [setShared_heap]
  by_cases hq : q = r
  · rw [hq, update_self]
  · rw [update_of_ne hq]

/-- Behind a walk along held shared handles, the label `error` leaves the tables as they were. -/
theorem Walking.openError_held {v₀ v2 : Vfs} {c d : ℕ} {h₀ : VfsFileHandle}
    {hs : List VfsFileHandle} {t : WalkTable} (hw : Walking v₀ hs.length h₀ c d t v2)
    (hhandles : v₀.handleList = hs ++ [h₀]) (hfileno : ∀ h ∈ hs, h.fileno ≠ h₀.fileno)
    (hindex : t.index = none) (hclean : t.Clean v₀.sharedList.length) (ec : Cause) :
    ∃ v', openError v2 hs.length ec = some (fileNone, ec, v') ∧ v'.handleList = hs ∧
      v'.sharedList.Perm v₀.sharedList ∧ ∀ q ∈ v₀.sharedList,
        { v'.heap q with refcount := 0 } = { v₀.heap q with refcount := 0 } := by
  have hlist := hw.handles_concat hhandles
  have hcount : (v2.heap c).refcount ≠ 1 := fun h => hw.refcount_eq_one_iff.mp h hindex
  obtain ⟨_, hmem, hheap⟩ := hw.placed.cases.resolve_right fun ⟨k, hk, _⟩ =>
    some_ne_none k (hk.symm.trans hindex)
  have hremove : swapRemove v2.handleList (some hs.length) = some hs := by
    rw [hlist]
    exact swapRemove_last _ _ le_rfl
  obtain ⟨v', hdestroy, hsame⟩ := vfsFileDestroyHandle_keep hw.handle_eq hremove hcount
  refine ⟨v', ?_, ?_, ?_, fun q hq => ?_⟩
  · rw [openError_eq hlist hfileno, hdestroy, map_some]
  · rw [hsame.handleList, setHandles_handleList]
  · rw [hsame.sharedList, setHandles_sharedList]
    exact ((hw.perm_of_clean hclean).resolve_right fun h => h.1 hindex).2
  · rw [hsame.heap, setHandles_heap]
    by_cases hqc : q = c
    · rw [hqc, dropRefcount_heap_self, hheap]
    · rw [dropRefcount_heap_of_ne _ hqc, hw.others q hq hqc]

/-- A call that finds an entry of the wrong type without opening a directory. -/
theorem leavesTables_of_mismatch {d j : ℕ} {last : List UInt8} (hv : TablesOk v)
    (htree : HoldsTree v.fs tree) (hroom : v.handleList.length < v.handleCap)
    (hroot : sharedOn v inodeRoot = some r) (hcount : (v.heap r).refcount ≠ 1)
    (hflags : rejectsOflags oflags = false) (hlen : ¬ path.length > pathMax)
    (hthrough : throughOpen v tree inodeRoot (components path) = some (d, last))
    (hlookup : tree.lookup d last = some j)
    (htype : v.fs.isDir j ≠ hasFlag oflags oflagsDirectory) : LeavesTables v .ok path oflags := by
  have hbase := hv.inv.walkBase
  obtain ⟨v1, hrootOpen, hsame⟩ := rootOpen_existing .ok (.inr hroom) hroot
  have hstart := hsame.started hbase hv.inv.tables.refcounted.nodup hroot
  obtain ⟨hnext, hfound⟩ := next_startTable hbase
  have hheap : v1.heap = v.heap := hsame.heap
  obtain ⟨hshared, hfiles⟩ := withoutRef_held (r := r) (hheap ▸ hcount)
  have hshared : (withoutRef v1 r).sharedList = v.sharedList := hshared.trans hsame.sharedList
  obtain ⟨hcomps, hfollow, hopens⟩ :=
    follow_of_throughOpen (fun q hq => (hbase.opened q hq).vfs) hthrough
  have htree1 := hstart.searchable htree.toSearchable
  have hends := (walk_spec .ok hstart.walking hnext hfound htree1 rfl hcomps).1
  rw [startTable_held hroot hcount, hfollow, hopens] at hends
  obtain ⟨⟨start, ent, path', c, v2, hwalk, hdrop, hent, hw'⟩, _⟩ :=
    hends.resolve_right fun h => Bool.false_ne_true h.2.1
  have hmismatch : ¬ TypeOk ent oflags := by
    rcases hent with ⟨hnone, _⟩ | ⟨j', hsome, hfor, hj⟩
    · rw [hlookup] at hnone
      cases hnone
    · obtain rfl : j = j' := some.inj (hlookup.symm.trans hsome)
      rintro (hzero | hdir)
      · exact hj (hfor.inode_eq ▸ hzero)
      · rw [hfor.isDir_eq, hstart.fs] at hdir
        exact htype hdir
  obtain ⟨v', herror, hlist, hperm, hheap'⟩ := hw'.openError_held hstart.handles hv.fileno_ne rfl
    (hshared ▸ clean_heldTable v) (if ent.isDir then .isDir else .isFile)
  refine ⟨fileNone, if ent.isDir then .isDir else .isFile, v', ?_, ?_⟩
  · rw [fsOpen_eq hflags hlen hrootOpen, hwalk, bind_some, if_neg (by simp),
      openTarget_mismatch hw'.handle_eq hmismatch, herror]
  · rw [if_neg (by cases ent.isDir <;> simp)]
    refine ⟨hlist ▸ .refl _, hshared ▸ hperm, fun q hq => ?_⟩
    rw [hheap' q (hshared ▸ hq), hfiles q, hheap]

theorem throughOpen_inWorld {fs : Ramfs} {mem : ℕ → Realloc} (h : SameDirs v.fs fs) (i : ℕ) (comps : List (List UInt8)) :
    throughOpen (v.inWorld fs mem) tree i comps = throughOpen v tree i comps := by
  fun_induction throughOpen v tree i comps with
  | case1 => rfl
  | case2 => rfl
  | case3 i name comps hne hlookup =>
    simp only [throughOpen.eq_3 _ _ _ _ _ hne, hlookup]
  | case4 i name comps hne j hlookup hopen ih =>
    have hopen' : (isOpen (v.inWorld fs mem) j && (v.inWorld fs mem).fs.isDir j) = true := by
      rw [inWorld_fs, h.isDir_eq]
      exact hopen
    simp only [throughOpen.eq_3 _ _ _ _ _ hne, hlookup, hopen', if_true, ih]
  | case5 i name comps hne j hlookup hopen =>
    have hopen' : ¬ (isOpen (v.inWorld fs mem) j && (v.inWorld fs mem).fs.isDir j) = true := by
      rw [inWorld_fs, h.isDir_eq]
      exact hopen
    simp only [throughOpen.eq_3 _ _ _ _ _ hne, hlookup, if_neg hopen']

theorem leavesTables_unchanged (hopen : fsOpen v ec path oflags = some (fileNone, ec', v))
    (hec : ec' ≠ .ok) : LeavesTables v ec path oflags := by
  refine ⟨fileNone, ec', v, hopen, ?_⟩
  rw [if_neg hec]
  exact ⟨.refl _, .refl _, fun _ _ => rfl⟩

end

/-! ## Two calls -/

theorem tablesOk_freshVfs : TablesOk freshVfs := ⟨vfsInv_bootVfs _ _, fun _ h => absurd h not_mem_nil⟩

/-- The path `/.`. -/
def pathDot : List UInt8 := [47, 46]

/-- The tables with the root directory of a fresh filesystem open twice. -/
def rootTwice : Vfs :=
  { freshVfs with
    heap := fun _ => ⟨2, 0, 0, some inodeRoot, inodeRoot, some rootVfs⟩
    heapNext := 1
    sharedList := [0]
    sharedCap := 2
    handleList := [⟨0, false, true, true, [], 0, 0⟩, ⟨0, false, true, true, [], 0, 1⟩]
    handleCap := 4
    handleNo := 2 }

theorem tablesOk_rootTwice : TablesOk rootTwice where
  inv := by
    refine ⟨⟨⟨nodup_singleton 0, ?_, ?_⟩, ?_⟩, fun _ _ => ⟨rfl, rfl, rfl⟩⟩
    · intro p hp
      rw [mem_singleton.mp hp]
      rfl
    · intro p
      rw [show rootTwice.targets = [0, 0] from rfl]
      simp [rootTwice]
    · intro p hp
      rw [mem_singleton.mp hp]
      exact Nat.zero_lt_one
  fileno_ne := by decide

end BadgerOS.Filesystem

import BadgerOS.Filesystem.Vfs
import BadgerOS.Lib.Refcount

/-!
# The tables of open files

What the table functions of `vfs_internal.c` and the re-targeting of a handle do.

* `SameTables`: two states that differ in the capacities of the tables and in the
  allocations to come.
* `vfsFileCreateShared_spec`, `vfsFileCreateHandle_spec`: new entries, when no allocation
  fails.
* `switchShared_keep`, `switchShared_close`: a handle goes over to another shared handle.
* `TableInv`: the shared table holds the shared handles that file handles point to, with
  the number of these as their reference counts.
* `vfsFileDestroyHandle_inv`: destroying a handle keeps the invariant.
-/

namespace BadgerOS.Filesystem

open Option (isNone_some isNone_none bind_eq_bind bind_some pure_def some.inj)

open Function List Vfs Bool

/-- All allocations to come have the same outcome: memory, or none. -/
def Vfs.MemIs (v : Vfs) (b : Bool) : Prop := ∀ k, (v.mem k).isSome = b

/-- No allocation to come fails. -/
abbrev Vfs.MemOk (v : Vfs) : Prop := v.MemIs true

/-- The states are the same but for the capacities of the tables and the allocations made. -/
structure SameTables (v v' : Vfs) : Prop where
  fs : v'.fs = v.fs
  heap : v'.heap = v.heap
  heapNext : v'.heapNext = v.heapNext
  sharedList : v'.sharedList = v.sharedList
  handleList : v'.handleList = v.handleList
  handleNo : v'.handleNo = v.handleNo
  mem : ∀ {b}, v.MemIs b → v'.MemIs b

namespace SameTables

theorem refl (v : Vfs) : SameTables v v := ⟨rfl, rfl, rfl, rfl, rfl, rfl, id⟩

theorem trans {v v' v'' : Vfs} (h : SameTables v v') (h' : SameTables v' v'') : SameTables v v'' where
  fs := h'.fs.trans h.fs
  heap := h'.heap.trans h.heap
  heapNext := h'.heapNext.trans h.heapNext
  sharedList := h'.sharedList.trans h.sharedList
  handleList := h'.handleList.trans h.handleList
  handleNo := h'.handleNo.trans h.handleNo
  mem hmem := h'.mem (h.mem hmem)

theorem setHandles {v v' : Vfs} (h : SameTables v v') (handles : List VfsFileHandle) :
    SameTables (v.setHandles handles) (v'.setHandles handles) :=
  ⟨h.fs, h.heap, h.heapNext, h.sharedList, rfl, h.handleNo, h.mem⟩

end SameTables

/-! ## Table functions -/

section

variable {v v' : Vfs} {p q : ℕ} {table : List ℕ} {handles : List VfsFileHandle}

theorem memIs_setTable {b : Bool} : (v.setTable table).MemIs b ↔ v.MemIs b := Iff.rfl

theorem sameTables_alloc (v : Vfs) : SameTables v v.alloc.2 := ⟨rfl, rfl, rfl, rfl, rfl, rfl, fun h k => h (k + 1)⟩

/-- A table gives memory back if it has too much and the allocator takes it. -/
theorem sameTables_shrunk {c : Prop} [Decidable c] (h : SameTables v.alloc.2 v') :
    SameTables v (if c then (if v.alloc.1.isSome then v' else v.alloc.2) else v) := by
  split_ifs
  · exact (sameTables_alloc v).trans h
  · exact sameTables_alloc v
  · exact .refl v

theorem sameTables_shrinkShared (v : Vfs) : SameTables v (shrinkShared v) := sameTables_shrunk ⟨rfl, rfl, rfl, rfl, rfl, rfl, id⟩

theorem sameTables_shrinkHandles (v : Vfs) : SameTables v (shrinkHandles v) := sameTables_shrunk ⟨rfl, rfl, rfl, rfl, rfl, rfl, id⟩

theorem grown_spec (len cap : ℕ) (h : SameTables v.alloc.2 v') :
    ∃ w, (if len ≥ cap then (if v.alloc.1.isSome then (true, v') else (false, v.alloc.2))
        else (true, v)) = (decide (len < cap) || (v.mem 0).isSome, w) ∧ SameTables v w := by
  by_cases hfull : len ≥ cap
  · rw [if_pos hfull, decide_eq_false (not_lt.mpr hfull), Bool.false_or]
    cases hmem : (v.mem 0).isSome
    · simp only [alloc, hmem, false_eq_true, if_false]
      exact ⟨_, rfl, sameTables_alloc v⟩
    · simp only [alloc, hmem, if_true]
      exact ⟨_, rfl, (sameTables_alloc v).trans h⟩
  · rw [if_neg hfull, decide_eq_true (not_le.mp hfull), Bool.true_or]
    exact ⟨v, rfl, .refl v⟩

theorem growShared_spec (v : Vfs) : ∃ v', growShared v =
        (decide (v.sharedList.length < v.sharedCap) || (v.mem 0).isSome, v') ∧
      SameTables v v' :=
  grown_spec _ _ ⟨rfl, rfl, rfl, rfl, rfl, rfl, id⟩

theorem growHandles_spec (v : Vfs) : ∃ v', growHandles v =
        (decide (v.handleList.length < v.handleCap) || (v.mem 0).isSome, v') ∧
      SameTables v v' :=
  grown_spec _ _ ⟨rfl, rfl, rfl, rfl, rfl, rfl, id⟩

theorem vfsFileSharedSplice_spec {i : Option ℕ} (h : swapRemove v.sharedList i = some table) :
    ∃ v', vfsFileSharedSplice v i = some v' ∧ SameTables (v.setTable table) v' := by
  refine ⟨_, ?_, sameTables_shrinkShared _⟩
  rw [vfsFileSharedSplice, h, Option.map_some]

theorem vfsFileHandleSplice_spec {i : ℕ} (h : swapRemove v.handleList (some i) = some handles) :
    ∃ v', vfsFileHandleSplice v i = some v' ∧ SameTables (v.setHandles handles) v' := by
  refine ⟨_, ?_, sameTables_shrinkHandles _⟩
  rw [vfsFileHandleSplice, h, Option.map_some]

/-- The state with a new shared handle at the end of the table. -/
@[simps]
def withShared (v : Vfs) : Vfs :=
  { v with
    heap := update v.heap v.heapNext (emptyShared v.sharedList.length)
    heapNext := v.heapNext + 1
    sharedList := v.sharedList ++ [v.heapNext] }

theorem withShared_congr (h : SameTables v v') : SameTables (withShared v) (withShared v') := by
  refine ⟨h.fs, ?_, ?_, ?_, h.handleList, h.handleNo, h.mem⟩
  · rw [withShared, withShared, h.heap, h.heapNext, h.sharedList]
  · rw [withShared, withShared, h.heapNext]
  · rw [withShared, withShared, h.heapNext, h.sharedList]

theorem vfsFileCreateShared_cases (v : Vfs) : (∃ v', vfsFileCreateShared v = (some v.sharedList.length, v') ∧
        SameTables (withShared v) v' ∧ ¬ v.MemIs false) ∨
      ∃ v', vfsFileCreateShared v = (none, v') ∧ SameTables v v' ∧ ¬ v.MemOk := by
  obtain ⟨v1, hgrow, hsame⟩ := growShared_spec v
  have hsame2 := hsame.trans (sameTables_alloc v1)
  unfold vfsFileCreateShared
  cases hroom : decide (v.sharedList.length < v.sharedCap) || (v.mem 0).isSome
  · rw [hroom] at hgrow
    simp only [hgrow, Bool.not_false, if_true]
    refine .inr ⟨v1, rfl, hsame, fun hmem => ?_⟩
    rw [hmem 0, Bool.or_true] at hroom
    cases hroom
  · rw [hroom] at hgrow
    simp only [hgrow, Bool.not_true, false_eq_true, if_false]
    cases hmem : (v1.mem 0).isNone
    · simp only [alloc, hmem, false_eq_true, if_false]
      refine .inl ⟨withShared v1.alloc.2, Prod.ext ?_ rfl, withShared_congr hsame2, fun hnone => ?_⟩
      · exact congrArg (fun l => some (List.length l)) hsame2.sharedList
      · rw [← Option.not_isSome, hsame.mem hnone 0] at hmem
        cases hmem
    · simp only [alloc, hmem, if_true]
      refine .inr ⟨v1.alloc.2, rfl, hsame2, fun hok => ?_⟩
      rw [← Option.not_isSome, hsame.mem hok 0] at hmem
      cases hmem

/-- The state with a new file handle that points to `p`. -/
@[simps]
def withHandle (v : Vfs) (p : ℕ) : Vfs :=
  { v with handleList := v.handleList ++ [newHandle v p], handleNo := v.handleNo + 1 }

theorem newHandle_congr (h : SameTables v v') (p : ℕ) : newHandle v' p = newHandle v p := by
  rw [newHandle, newHandle, h.handleNo]

theorem SameTables.slot (h : SameTables (withHandle v p) v') :
    v'.handleList[v.handleList.length]? = some (newHandle v p) := by
  rw [h.handleList]
  exact getElem?_concat_length

theorem withHandle_congr (h : SameTables v v') (p : ℕ) : SameTables (withHandle v p) (withHandle v' p) := by
  refine ⟨h.fs, h.heap, h.heapNext, h.sharedList, ?_, ?_, h.mem⟩
  · rw [withHandle, withHandle, h.handleList, newHandle_congr h]
  · rw [withHandle, withHandle, h.handleNo]

/-- A new file handle for the shared handle in slot `k` of the table, or no memory for it. -/
theorem vfsFileCreateHandle_existing_cases {k : ℕ} (hk : v.sharedList[k]? = some p) :
    (∃ v', vfsFileCreateHandle v (some k) = (some v.handleList.length, v') ∧
        SameTables (withHandle v p) v') ∨
      (vfsFileCreateHandle v (some k)).1 = none ∧ ¬ v.MemOk ∧
        v.handleCap ≤ v.handleList.length := by
  obtain ⟨v1, hgrow, hsame⟩ := growHandles_spec v
  have hp : v1.sharedList.getD k 0 = p := by
    rw [hsame.sharedList, getD_eq_getElem?_getD, hk, Option.getD_some]
  unfold vfsFileCreateHandle
  cases hroom : decide (v.handleList.length < v.handleCap) || (v.mem 0).isSome
  · rw [hroom] at hgrow
    simp only [isNone_some, false_eq_true, if_false, hgrow, Bool.not_false, if_true]
    rw [or_eq_false_iff] at hroom
    refine .inr ⟨trivial, fun hmem => ?_, not_lt.mp (of_decide_eq_false hroom.1)⟩
    rw [hmem 0] at hroom
    exact absurd hroom.2 (by simp)
  · rw [hroom] at hgrow
    simp only [isNone_some, false_eq_true, if_false, hgrow, Bool.not_true, hp]
    refine .inl ⟨withHandle v1 p, Prod.ext ?_ rfl, withHandle_congr hsame p⟩
    exact congrArg (fun l => some (List.length l)) hsame.handleList

theorem vfsFileCreateHandle_existing (h : v.MemOk ∨ v.handleList.length < v.handleCap) {k : ℕ} (hk : v.sharedList[k]? = some p) :
    ∃ v', vfsFileCreateHandle v (some k) = (some v.handleList.length, v') ∧
      SameTables (withHandle v p) v' := by
  refine (vfsFileCreateHandle_existing_cases hk).resolve_right fun ⟨_, hmem, hfull⟩ => ?_
  exact h.elim hmem (not_lt.mpr hfull)

/-- A new shared handle and a new file handle that points to it, or no memory for them. -/
theorem vfsFileCreateHandle_new_cases (v : Vfs) : (∃ v', vfsFileCreateHandle v none = (some v.handleList.length, v') ∧
        SameTables (withHandle (withShared v) v.heapNext) v') ∨
      (vfsFileCreateHandle v none).1 = none ∧ ¬ v.MemOk := by
  rcases vfsFileCreateShared_cases v with ⟨v1, hcreate, hsame, _⟩ | ⟨v1, hcreate, _, hmem⟩
  · have hk : v1.sharedList[v.sharedList.length]? = some v.heapNext := by
      rw [hsame.sharedList]
      exact getElem?_concat_length
    have heq : vfsFileCreateHandle v none = vfsFileCreateHandle v1 (some v.sharedList.length) := by
      simp [vfsFileCreateHandle, hcreate]
    rw [heq]
    rcases vfsFileCreateHandle_existing_cases hk with ⟨v2, hhandle, hsame2⟩ | ⟨hnone, hmem, _⟩
    · rw [hsame.handleList] at hhandle
      exact .inl ⟨v2, hhandle, (withHandle_congr hsame _).trans hsame2⟩
    · exact .inr ⟨hnone, fun h => hmem (hsame.mem h)⟩
  · refine .inr ⟨?_, hmem⟩
    simp [vfsFileCreateHandle, hcreate]

theorem vfsFileCreateHandle_new (h : v.MemOk) : ∃ v', vfsFileCreateHandle v none = (some v.handleList.length, v') ∧
      SameTables (withHandle (withShared v) v.heapNext) v' :=
  (vfsFileCreateHandle_new_cases v).resolve_right fun hnone => hnone.2 h

/-- There is no memory for a new shared handle, or for a larger table of file handles. -/
theorem vfsFileCreateHandle_none {shared : Option ℕ} (h : v.MemIs false)
    (hfull : shared = none ∨ v.handleCap ≤ v.handleList.length) :
    (vfsFileCreateHandle v shared).1 = none := by
  unfold vfsFileCreateHandle
  cases shared with
  | none =>
    rcases vfsFileCreateShared_cases v with ⟨_, _, _, hmem⟩ | ⟨v', hcreate, _, _⟩
    · exact absurd h hmem
    · simp [hcreate]
  | some k =>
    obtain ⟨v1, hgrow, _⟩ := growHandles_spec v
    have hroom : (decide (v.handleList.length < v.handleCap) || (v.mem 0).isSome) = false := by
      rw [h 0, decide_eq_false (not_lt.mpr (hfull.resolve_left (by simp))), Bool.or_false]
    rw [hroom] at hgrow
    simp [hgrow]

/-! ## Closing -/

/-- The state after a shared handle on inode `i` is closed. -/
def withClosed (v : Vfs) (p i : ℕ) : Vfs :=
  { v.setShared p { v.heap p with ramfsFile := none } with fs := popInodeRefcount v.fs i }

@[simp] theorem withClosed_fs (v : Vfs) (p i : ℕ) :
    (withClosed v p i).fs = popInodeRefcount v.fs i := by
  simp only [withClosed]

@[simp] theorem withClosed_heapNext (v : Vfs) (p i : ℕ) :
    (withClosed v p i).heapNext = v.heapNext := by
  simp only [withClosed, Vfs.setShared_heapNext]

@[simp] theorem withClosed_sharedList (v : Vfs) (p i : ℕ) :
    (withClosed v p i).sharedList = v.sharedList := by
  simp only [withClosed, Vfs.setShared_sharedList]

@[simp] theorem withClosed_handleList (v : Vfs) (p i : ℕ) :
    (withClosed v p i).handleList = v.handleList := by
  simp only [withClosed, Vfs.setShared_handleList]

@[simp] theorem withClosed_handleNo (v : Vfs) (p i : ℕ) :
    (withClosed v p i).handleNo = v.handleNo := by
  simp only [withClosed, Vfs.setShared_handleNo]

theorem withClosed_heap_self (v : Vfs) (p i : ℕ) : (withClosed v p i).heap p = { v.heap p with ramfsFile := none } := by
  simp [withClosed, setShared_heap]

theorem withClosed_heap_of_ne (v : Vfs) (i : ℕ) (h : q ≠ p) : (withClosed v p i).heap q = v.heap q := by
  simp only [withClosed, setShared_heap, update_of_ne h]

theorem memIs_withClosed {i : ℕ} {b : Bool} : (withClosed v p i).MemIs b ↔ v.MemIs b := by
  simp only [Vfs.MemIs, withClosed, setShared_mem]

theorem vfsFileClose_eq {vfs i : ℕ} (hvfs : (v.heap p).vfs = some vfs)
    (hfile : (v.heap p).ramfsFile = some i) : vfsFileClose v p = some (withClosed v p i) := by
  simp [vfsFileClose, vfsRamfsFileClose, hvfs, hfile, withClosed]

theorem eq_withClosed (h : vfsFileClose v p = some v') : ∃ i, v' = withClosed v p i := by
  unfold vfsFileClose vfsRamfsFileClose at h
  simp only [Option.bind_eq_bind, Option.bind_eq_some_iff, Option.pure_def, Option.some.injEq] at h
  obtain ⟨_, _, _, ⟨i, _, rfl⟩, rfl⟩ := h
  exact ⟨i, by rw [withClosed]⟩

/-! ## Reference counts -/

theorem dropRefcount_heap_self (v : Vfs) (p : ℕ) : (dropRefcount v p).heap p =
    { v.heap p with refcount := predRefcount (v.heap p).refcount } := update_self ..

theorem dropRefcount_heap_of_ne (v : Vfs) (h : q ≠ p) : (dropRefcount v p).heap q = v.heap q := update_of_ne h ..

theorem pushRefcount_heap_self (v : Vfs) (p : ℕ) : (pushRefcount v p).heap p =
    { v.heap p with refcount := (v.heap p).refcount + 1 } := update_self ..

theorem pushRefcount_heap_of_ne (v : Vfs) (h : q ≠ p) : (pushRefcount v p).heap q = v.heap q := update_of_ne h ..

theorem predRefcount_eq_zero_iff {n : ℕ} : predRefcount n = 0 ↔ n = 1 := by
  unfold predRefcount
  split_ifs with h
  · exact iff_of_false (by norm_num) (by omega)
  · omega

/-! ## Re-targeting a handle -/

/-- The state after a handle went over to `p` and the counts were adjusted. -/
def switched (v : Vfs) (dir : ℕ) (handle : VfsFileHandle) (p : ℕ) : Vfs :=
  dropRefcount (pushRefcount (v.setHandle dir { handle with shared := p }) p) handle.shared

variable {dir : ℕ} {handle : VfsFileHandle}

@[simp] theorem switched_fs : (switched v dir handle p).fs = v.fs := rfl

@[simp] theorem switched_heapNext : (switched v dir handle p).heapNext = v.heapNext := rfl

@[simp] theorem switched_sharedList : (switched v dir handle p).sharedList = v.sharedList := rfl

@[simp] theorem switched_handleList : (switched v dir handle p).handleList =
    v.handleList.set dir { handle with shared := p } := rfl

@[simp] theorem switched_handleNo : (switched v dir handle p).handleNo = v.handleNo := rfl

theorem switched_heap_of_ne (hp : q ≠ p) (hold : q ≠ handle.shared) : (switched v dir handle p).heap q = v.heap q := by
  rw [switched, dropRefcount_heap_of_ne _ hold, pushRefcount_heap_of_ne _ hp]
  rfl

theorem switched_heap_new (hp : p ≠ handle.shared) : (switched v dir handle p).heap p =
    { v.heap p with refcount := (v.heap p).refcount + 1 } := by
  rw [switched, dropRefcount_heap_of_ne _ hp, pushRefcount_heap_self]
  rfl

theorem switched_heap_old (v : Vfs) (dir : ℕ) (hp : p ≠ handle.shared) : (switched v dir handle p).heap handle.shared =
      { v.heap handle.shared with refcount := predRefcount (v.heap handle.shared).refcount } := by
  rw [switched, dropRefcount_heap_self, pushRefcount_heap_of_ne _ hp.symm]
  rfl

theorem switched_heap_self (hp : p = handle.shared) : (switched v dir handle p).heap = v.heap := by
  funext q
  by_cases hq : q = p
  · rw [hq, switched, ← hp, dropRefcount_heap_self, pushRefcount_heap_self]
    rfl
  · exact switched_heap_of_ne hq (hp ▸ hq)

theorem switchShared_keep (hdir : v.handleList[dir]? = some handle)
    (hcount : ((switched v dir handle p).heap handle.shared).refcount ≠ 0) :
    switchShared v dir p = some (.ok, switched v dir handle p) := by
  unfold switched at hcount ⊢
  simp [switchShared, hdir, if_neg hcount]

/-- The old shared handle has lost its last reference: it is closed, and the slot that its
    `index` names is removed from the table. -/
theorem switchShared_close {vfs i : ℕ} {w : Vfs} (hdir : v.handleList[dir]? = some handle)
    (hw : switched v dir handle p = w) (hcount : (w.heap handle.shared).refcount = 0)
    (hvfs : (w.heap handle.shared).vfs = some vfs)
    (hfile : (w.heap handle.shared).ramfsFile = some i)
    (htable : swapRemove v.sharedList (some (w.heap handle.shared).index) = some table) :
    ∃ v', switchShared v dir p = some (.ok, v') ∧
      SameTables ((withClosed w handle.shared i).setTable table) v' := by
  subst hw
  have hclose := vfsFileClose_eq hvfs hfile
  have htable' : swapRemove (withClosed (switched v dir handle p) handle.shared i).sharedList
      (some ((withClosed (switched v dir handle p) handle.shared i).heap
        handle.shared).index) = some table := by
    rw [withClosed_heap_self, withClosed_sharedList, switched_sharedList, htable]
  obtain ⟨v', hsplice, hsame⟩ := vfsFileSharedSplice_spec htable'
  refine ⟨v', ?_, hsame⟩
  unfold switched at hcount hclose hsplice
  simp [switchShared, hdir, if_pos hcount, hclose, vfsFileDestroyShared, hsplice]

/-! ## Looking up an inode -/

/-- The shared handle is one on inode `j` of the root filesystem. -/
def OnInode (v : Vfs) (j p : ℕ) : Prop := (v.heap p).vfs = some rootVfs ∧ (v.heap p).inode = j

instance (v : Vfs) (j p : ℕ) : Decidable (OnInode v j p) :=
  inferInstanceAs (Decidable (_ ∧ _))

variable {j k : ℕ} {table : List ℕ}

theorem vfsSharedByInode_root (v : Vfs) (j : ℕ) :
    vfsSharedByInode v (some rootVfs) j = v.sharedList.findIdx? fun p => OnInode v j p := by
  unfold vfsSharedByInode
  congr 1
  funext p
  exact (decide_and _ _).symm

theorem vfsSharedByInode_eq_none (h : ∀ p ∈ v.sharedList, ¬ OnInode v j p) : vfsSharedByInode v (some rootVfs) j = none := by
  rw [vfsSharedByInode_root, findIdx?_eq_none_iff]
  exact fun p hp => decide_eq_false (h p hp)

theorem vfsSharedByInode_eq_some (h : vfsSharedByInode v (some rootVfs) j = some k) :
    ∃ p, v.sharedList[k]? = some p ∧ OnInode v j p := by
  rw [vfsSharedByInode_root, findIdx?_eq_some_iff_getElem] at h
  obtain ⟨hk, hp, _⟩ := h
  exact ⟨_, getElem?_eq_getElem hk, of_decide_eq_true hp⟩

/-! ## Destroying a handle -/

theorem vfsFileByPtr_congr {v v' : Vfs} (h : v'.sharedList = v.sharedList) (p : ℕ) :
    vfsFileByPtr v' p = vfsFileByPtr v p := by
  rw [vfsFileByPtr, vfsFileByPtr, h]

theorem vfsFileDestroyHandle_cases (h : vfsFileDestroyHandle v k = some v') : ∃ handle handles, v.handleList[k]? = some handle ∧
      swapRemove v.handleList (some k) = some handles ∧
      ((v.heap handle.shared).refcount ≠ 1 ∧
          SameTables ((dropRefcount v handle.shared).setHandles handles) v' ∨
        (v.heap handle.shared).refcount = 1 ∧ ∃ i table,
          swapRemove v.sharedList (vfsFileByPtr v handle.shared) = some table ∧
          SameTables (((withClosed (dropRefcount v handle.shared) handle.shared i).setTable
            table).setHandles handles) v') := by
  simp only [vfsFileDestroyHandle, bind_eq_bind, Option.bind_eq_some_iff] at h
  obtain ⟨handle, hk, v1, hv1, hsplice⟩ := h
  rw [vfsFileHandleSplice, Option.map_eq_some_iff] at hsplice
  obtain ⟨handles, hhandles, rfl⟩ := hsplice
  have hpred : ((dropRefcount v handle.shared).heap handle.shared).refcount = 0 ↔
      (v.heap handle.shared).refcount = 1 := by
    rw [dropRefcount_heap_self]
    exact predRefcount_eq_zero_iff
  unfold closeUnreferenced at hv1
  by_cases hcount : (v.heap handle.shared).refcount = 1
  · rw [if_pos (hpred.mpr hcount)] at hv1
    simp only [bind_eq_bind, Option.bind_eq_some_iff] at hv1
    obtain ⟨v2, hclose, hv1⟩ := hv1
    obtain ⟨i, rfl⟩ := eq_withClosed hclose
    rw [vfsFileSharedSplice, Option.map_eq_some_iff] at hv1
    obtain ⟨table, htable, rfl⟩ := hv1
    have hsame := sameTables_shrinkShared
      ((withClosed (dropRefcount v handle.shared) handle.shared i).setTable table)
    rw [hsame.handleList, setTable_handleList, withClosed_handleList] at hhandles
    rw [vfsFileByPtr_congr (withClosed_sharedList _ _ _), withClosed_sharedList] at htable
    refine ⟨handle, handles, hk, hhandles, .inr ⟨hcount, i, table, htable, ?_⟩⟩
    exact (hsame.setHandles handles).trans (sameTables_shrinkHandles _)
  · rw [if_neg (mt hpred.mp hcount)] at hv1
    cases hv1
    exact ⟨handle, handles, hk, hhandles, .inl ⟨hcount, sameTables_shrinkHandles _⟩⟩

theorem vfsFileDestroyHandle_keep (hk : v.handleList[k]? = some handle) (hhandles : swapRemove v.handleList (some k) = some handles)
    (hcount : (v.heap handle.shared).refcount ≠ 1) : ∃ v', vfsFileDestroyHandle v k = some v' ∧
      SameTables ((dropRefcount v handle.shared).setHandles handles) v' := by
  have hpred : ((dropRefcount v handle.shared).heap handle.shared).refcount ≠ 0 := by
    rw [dropRefcount_heap_self]
    exact mt predRefcount_eq_zero_iff.mp hcount
  obtain ⟨v', hsplice, hsame⟩ := vfsFileHandleSplice_spec
    (v := dropRefcount v handle.shared) hhandles
  refine ⟨v', ?_, hsame⟩
  simp [vfsFileDestroyHandle, closeUnreferenced, hk, if_neg hpred, hsplice]

end

/-! ## Reference counts are right -/

/-- The shared handles that the file handles point to. -/
def Vfs.targets (v : Vfs) : List ℕ := v.handleList.map VfsFileHandle.shared

/-- The reference count of every shared handle in the table is the number of file handles that
    point to it, and the shared handles in the table are those that file handles point to. -/
structure TableInv (v : Vfs) : Prop where
  refcounted : Refcounted v.sharedList (fun p => (v.heap p).refcount) v.targets
  lt_next : ∀ p ∈ v.sharedList, p < v.heapNext

section

variable {v v' : Vfs} {k p : ℕ} {handle : VfsFileHandle}

theorem TableInv.congr (h : TableInv v) (hsame : SameTables v v') : TableInv v' where
  refcounted := by
    rw [targets, hsame.sharedList, hsame.heap, hsame.handleList]
    exact h.refcounted
  lt_next := by
    rw [hsame.sharedList, hsame.heapNext]
    exact h.lt_next

theorem findIdx_eq_of_mem {table : List ℕ} (h : p ∈ table) :
    ∃ i, ∃ hi : i < table.length, table.findIdx? (· = p) = some i ∧ table[i] = p := by
  obtain ⟨i, hi⟩ : ∃ i, table.findIdx? (fun q => decide (q = p)) = some i := by
    rw [← Option.isSome_iff_exists, findIdx?_isSome, any_eq_true]
    exact ⟨p, h, decide_eq_true rfl⟩
  have hget := findIdx?_eq_some_iff_getElem.mp hi
  obtain ⟨hlt, hp, _⟩ := hget
  exact ⟨i, hlt, hi, of_decide_eq_true hp⟩

section

variable (hinv : TableInv v) (h : vfsFileDestroyHandle v k = some v')

include hinv h

/-- What destroying a handle does to tables with right reference counts: one handle goes, and
    its shared handle when it was the last one. -/
theorem TableInv.destroyHandle_cases : ∃ handle handles, (handle :: handles).Perm v.handleList ∧ handle.shared ∈ v.sharedList ∧
      ((v.heap handle.shared).refcount ≠ 1 ∧
          SameTables ((dropRefcount v handle.shared).setHandles handles) v' ∨
        (v.heap handle.shared).refcount = 1 ∧ ∃ i table,
          (handle.shared :: table).Perm v.sharedList ∧
          SameTables (((withClosed (dropRefcount v handle.shared) handle.shared i).setTable
            table).setHandles handles) v') := by
  obtain ⟨handle, handles, hk, hhandles, hcases⟩ := vfsFileDestroyHandle_cases h
  obtain ⟨hlt, rfl⟩ := List.getElem?_eq_some_iff.mp hk
  obtain ⟨handles', hhandles', hperm⟩ := swapRemove_perm hlt
  obtain rfl : handles' = handles := some.inj (hhandles'.symm.trans hhandles)
  have hmem : v.handleList[k].shared ∈ v.sharedList :=
    (hinv.refcounted.mem_iff _).mpr (mem_map_of_mem (getElem_mem hlt))
  refine ⟨_, handles', hperm, hmem, hcases.imp_right ?_⟩
  rintro ⟨hcount, i, table, htable, hsame⟩
  obtain ⟨j, hj, hfind, hget⟩ := findIdx_eq_of_mem hmem
  obtain ⟨table', htable', htperm⟩ := swapRemove_perm hj
  rw [vfsFileByPtr, hfind] at htable
  obtain rfl : table' = table := some.inj (htable'.symm.trans htable)
  exact ⟨hcount, i, table', hget ▸ htperm, hsame⟩

theorem vfsFileDestroyHandle_inv : TableInv v' := by
  obtain ⟨handle, handles, hperm, hmem, hcases⟩ := hinv.destroyHandle_cases h
  have hrefs : (handle.shared :: handles.map VfsFileHandle.shared).Perm v.targets :=
    hperm.map VfsFileHandle.shared
  rcases hcases with ⟨hcount, hsame⟩ | ⟨hcount, i, table, htable, hsame⟩
  · have hcounted := hinv.refcounted.congr (List.Perm.refl _) hrefs fun _ _ => rfl
    refine TableInv.congr ?_ hsame
    refine ⟨hcounted.pop ?_ hcount fun q _ hq => ?_, hinv.lt_next⟩
    · have hpos := hinv.refcounted.count_pos hmem
      rw [setHandles_heap, dropRefcount_heap_self, predRefcount, if_neg hpos.ne']
    · rw [setHandles_heap, dropRefcount_heap_of_ne _ hq]
  · have hcounted := hinv.refcounted.congr htable hrefs fun _ _ => rfl
    refine TableInv.congr ?_ hsame
    refine ⟨hcounted.remove hcount fun q hq => ?_, ?_⟩
    · have hne : q ≠ handle.shared := fun heq => (nodup_cons.mp hcounted.nodup).1 (heq ▸ hq)
      rw [setHandles_heap, setTable_heap, withClosed_heap_of_ne _ _ hne,
        dropRefcount_heap_of_ne _ hne]
    · intro q hq
      rw [setHandles_heapNext, setTable_heapNext, withClosed_heapNext]
      exact hinv.lt_next q (htable.mem_iff.mp (mem_cons_of_mem _ hq))

/-- The shared handles that stay in the table are those they were, but for a reference. -/
theorem TableInv.destroyHandle_heap (hp : p ∈ v'.sharedList) :
    p ∈ v.sharedList ∧ ∃ refcount, v'.heap p = { v.heap p with refcount := refcount } := by
  obtain ⟨handle, handles, _, _, ⟨_, hsame⟩ | ⟨_, i, table, htable, hsame⟩⟩ :=
    hinv.destroyHandle_cases h
  · rw [hsame.sharedList] at hp
    refine ⟨hp, ?_⟩
    rw [hsame.heap, setHandles_heap]
    by_cases hne : p = handle.shared
    · rw [hne, dropRefcount_heap_self]
      exact ⟨_, rfl⟩
    · rw [dropRefcount_heap_of_ne _ hne]
      exact ⟨_, rfl⟩
  · rw [hsame.sharedList, setHandles_sharedList, setTable_sharedList] at hp
    have hnodup := htable.nodup_iff.mpr hinv.refcounted.nodup
    have hne : p ≠ handle.shared := fun heq => (nodup_cons.mp hnodup).1 (heq ▸ hp)
    refine ⟨htable.mem_iff.mp (mem_cons_of_mem _ hp), (v.heap p).refcount, ?_⟩
    rw [hsame.heap, setHandles_heap, setTable_heap, withClosed_heap_of_ne _ _ hne,
      dropRefcount_heap_of_ne _ hne]

end

end

end BadgerOS.Filesystem

import BadgerOS.Filesystem.VfsPath
import BadgerOS.Filesystem.VfsTables
import BadgerOS.Filesystem.VfsTree

/-!
# Walking a path

While `walk` goes along a path, one file handle goes from directory to directory. A shared
handle that it leaves without other references is closed, and removed from the table by its
`index` field. That field is not updated when the removal of another entry moves it, so the
entry that is removed may be another one, and a closed one stays in the table.

* `Slot`, `WalkTable`: what the shared table holds during a walk.
* `WalkTable.next`: what becomes of it when the walking handle goes to a directory.
* `Walking`: the state during a walk, over the tables without the walking handle.
* `Walking.reopen`: `dir_reopen` takes the table to the next one.
-/

namespace BadgerOS.Filesystem

open Function List Vfs

/-! ## The shared table during a walk -/

/-- A shared handle in the table. -/
inductive Slot
  /-- Other file handles refer to it. -/
  | held (inode : ℕ)
  /-- Only the walking handle refers to it. -/
  | own (inode : ℕ)
  /-- The walking handle has left it without removing it. -/
  | closed (inode : ℕ)
  deriving DecidableEq, Repr

namespace Slot

/-- The inode of the shared handle. -/
def inode : Slot → ℕ
  | held i => i
  | own i => i
  | closed i => i

/-- The slot when the walking handle has left. -/
def left : Slot → Slot
  | own i => closed i
  | slot => slot

end Slot

/-- The shared table during a walk. When only the walking handle refers to its shared handle,
    `index` is the index field of that. -/
structure WalkTable where
  slots : List Slot
  index : Option ℕ
  deriving DecidableEq, Repr

namespace WalkTable

/-- The shared handle that a search for inode `j` finds. -/
def find (t : WalkTable) (j : ℕ) : Option Slot := t.slots.find? (·.inode = j)

/-- No closed shared handle is in the table, and none of the `n` that others hold is missing. -/
def Clean (t : WalkTable) (n : ℕ) : Prop :=
  (∀ slot ∈ t.slots, ∀ j, slot ≠ .closed j) ∧
    t.slots.length = n + if t.index = none then 0 else 1

/-- The table after the walking handle went to inode `j`. `none` when it comes to a closed
    shared handle. -/
def next (t : WalkTable) (j : ℕ) : Option WalkTable :=
  match t.find j with
  | some (.held _) => some ⟨removeIndex t.index (t.slots.map Slot.left), none⟩
  | some (.own _) => some t
  | some (.closed _) => none
  | none => some ⟨removeIndex t.index (t.slots.map Slot.left ++ [.own j]), some t.slots.length⟩

end WalkTable

/-- The slot of shared handle `p` when the walking handle refers to `c`. -/
def slotOf (v₀ v : Vfs) (c p : ℕ) : Slot :=
  if p ∈ v₀.sharedList then .held (v.heap p).inode
  else if p = c then .own (v.heap p).inode
  else .closed (v.heap p).inode

section

variable {v₀ v v' : Vfs} {c p q j : ℕ}

theorem inode_slotOf (v₀ v : Vfs) (c q : ℕ) : (slotOf v₀ v c q).inode = (v.heap q).inode := by
  unfold slotOf
  split_ifs <;> rfl

theorem slotOf_eq_held (h : slotOf v₀ v c q = .held j) : q ∈ v₀.sharedList := by
  unfold slotOf at h
  split_ifs at h with hmem
  exact hmem

theorem slotOf_eq_own (h : slotOf v₀ v c q = .own j) : q = c := by
  unfold slotOf at h
  split_ifs at h with _ hqc
  exact hqc

theorem slotOf_eq_closed (h : slotOf v₀ v c q = .closed j) : q ∉ v₀.sharedList ∧ q ≠ c := by
  unfold slotOf at h
  split_ifs at h with hmem hqc
  exact ⟨hmem, hqc⟩

theorem slotOf_left (hinode : (v'.heap q).inode = (v.heap q).inode)
    (hq : q = p → q ∈ v₀.sharedList) : slotOf v₀ v' p q = (slotOf v₀ v c q).left := by
  unfold slotOf
  by_cases hmem : q ∈ v₀.sharedList
  · rw [if_pos hmem, if_pos hmem, hinode]
    rfl
  · rw [if_neg hmem, if_neg hmem, if_neg fun h => hmem (hq h), hinode]
    by_cases hqc : q = c
    · rw [if_pos hqc]
      rfl
    · rw [if_neg hqc]
      rfl

end

/-- The tables that a walk starts from, without the walking handle: every shared handle is
    open and referenced. -/
structure WalkBase (v₀ : Vfs) : Prop where
  lt_next : ∀ q ∈ v₀.sharedList, q < v₀.heapNext
  opened : ∀ q ∈ v₀.sharedList, Opened (v₀.heap q) (v₀.heap q).inode
  refcount_ne : ∀ q ∈ v₀.sharedList, (v₀.heap q).refcount ≠ 0

/-- The references to the shared handle `c` of the walking handle. -/
inductive Placed (v₀ v : Vfs) (c : ℕ) : Option ℕ → Prop
  | held (hmem : c ∈ v₀.sharedList)
      (hheap : v.heap c = { v₀.heap c with refcount := (v₀.heap c).refcount + 1 }) :
      Placed v₀ v c none
  | own {k : ℕ} (hmem : c ∉ v₀.sharedList) (hcount : (v.heap c).refcount = 1)
      (hindex : (v.heap c).index = k) : Placed v₀ v c (some k)

theorem Placed.cases {v₀ v : Vfs} {c : ℕ} {index : Option ℕ} (h : Placed v₀ v c index) :
    (index = none ∧ c ∈ v₀.sharedList ∧
        v.heap c = { v₀.heap c with refcount := (v₀.heap c).refcount + 1 }) ∨
      ∃ k, index = some k ∧ c ∉ v₀.sharedList ∧ (v.heap c).refcount = 1 ∧ (v.heap c).index = k := by
  cases h with
  | held hmem hheap => exact .inl ⟨rfl, hmem, hheap⟩
  | own hmem hcount hindex => exact .inr ⟨_, rfl, hmem, hcount, hindex⟩

/-- During a walk with handle `dir`, which is in directory `i`. -/
structure Walking (v₀ : Vfs) (dir : ℕ) (h₀ : VfsFileHandle) (c i : ℕ) (t : WalkTable) (v : Vfs) :
    Prop where
  base : WalkBase v₀
  dir_lt : dir < v₀.handleList.length
  fs : FsSame v₀.fs v.fs
  handles : v.handleList = v₀.handleList.set dir { h₀ with shared := c }
  handleNo : v.handleNo = v₀.handleNo
  next_le : v₀.heapNext ≤ v.heapNext
  mem : ∀ {b}, v₀.MemIs b → v.MemIs b
  current : Opened (v.heap c) i
  current_lt : c < v.heapNext
  placed : Placed v₀ v c t.index
  others : ∀ q ∈ v₀.sharedList, q ≠ c → v.heap q = v₀.heap q
  nodup : v.sharedList.Nodup
  lt_next : ∀ q ∈ v.sharedList, q < v.heapNext
  closed : ∀ q ∈ v.sharedList, q ∉ v₀.sharedList → q ≠ c →
    (v.heap q).vfs = some rootVfs ∧ (v.heap q).ramfsFile = none
  slots_eq : v.sharedList.map (slotOf v₀ v c) = t.slots

/-! ## Leaving a directory -/

/-- The walking handle has gone over from its shared handle to `p`. -/
structure Moved (v : Vfs) (dir : ℕ) (handle : VfsFileHandle) (p : ℕ) (table : List ℕ) (v' : Vfs) :
    Prop where
  fs : FsSame v.fs v'.fs
  handleList : v'.handleList = v.handleList.set dir { handle with shared := p }
  handleNo : v'.handleNo = v.handleNo
  heapNext : v'.heapNext = v.heapNext
  sharedList : v'.sharedList = table
  heap_new : v'.heap p = { v.heap p with refcount := (v.heap p).refcount + 1 }
  heap_other : ∀ q, q ≠ p → q ≠ handle.shared → v'.heap q = v.heap q
  mem : ∀ {b}, v.MemIs b → v'.MemIs b

section

variable {v v' : Vfs} {dir p i : ℕ} {handle : VfsFileHandle} {table : List ℕ}

theorem switchShared_moved_keep (hdir : v.handleList[dir]? = some handle) (hne : p ≠ handle.shared)
    (hcount : (v.heap handle.shared).refcount ≠ 1) :
    ∃ v', switchShared v dir p = some (.ok, v') ∧ Moved v dir handle p v.sharedList v' ∧
      v'.heap handle.shared =
        { v.heap handle.shared with refcount := predRefcount (v.heap handle.shared).refcount } := by
  have hold := switched_heap_old v dir hne
  have hpred : ((switched v dir handle p).heap handle.shared).refcount ≠ 0 := by
    rw [hold]
    exact mt predRefcount_eq_zero_iff.mp hcount
  refine ⟨_, switchShared_keep hdir hpred, ?_, hold⟩
  exact ⟨.refl _, rfl, rfl, rfl, rfl, switched_heap_new hne, fun q => switched_heap_of_ne, id⟩

theorem switchShared_moved_close (hdir : v.handleList[dir]? = some handle) (hne : p ≠ handle.shared)
    (hcount : (v.heap handle.shared).refcount = 1) (hopen : Opened (v.heap handle.shared) i)
    (htable : swapRemove v.sharedList (some (v.heap handle.shared).index) = some table) :
    ∃ v', switchShared v dir p = some (.ok, v') ∧ Moved v dir handle p table v' ∧
      v'.heap handle.shared = { v.heap handle.shared with refcount := 0, ramfsFile := none } := by
  have hold := switched_heap_old v dir hne
  rw [hcount, show predRefcount 1 = 0 from rfl] at hold
  obtain ⟨v', hswitch, hsame⟩ := switchShared_close hdir rfl (congrArg VfsFileShared.refcount hold)
    ((congrArg VfsFileShared.vfs hold).trans hopen.vfs)
    ((congrArg VfsFileShared.ramfsFile hold).trans hopen.ramfsFile) (by rw [hold]; exact htable)
  refine ⟨v', hswitch, ?_, ?_⟩
  · refine ⟨?_, ?_, ?_, ?_, ?_, ?_, ?_, ?_⟩
    · rw [hsame.fs, setTable_fs, withClosed_fs, switched_fs]
      exact FsSame.pop v.fs i
    · rw [hsame.handleList, setTable_handleList, withClosed_handleList, switched_handleList]
    · rw [hsame.handleNo, setTable_handleNo, withClosed_handleNo, switched_handleNo]
    · rw [hsame.heapNext, setTable_heapNext, withClosed_heapNext, switched_heapNext]
    · rw [hsame.sharedList, setTable_sharedList]
    · rw [hsame.heap, setTable_heap, withClosed_heap_of_ne _ _ hne, switched_heap_new hne]
    · intro q hq hq'
      rw [hsame.heap, setTable_heap, withClosed_heap_of_ne _ _ hq', switched_heap_of_ne hq hq']
    · intro b hmem
      refine hsame.mem (memIs_setTable.mpr (memIs_withClosed.mpr ?_))
      exact hmem
  · rw [hsame.heap, setTable_heap, withClosed_heap_self, hold]

end

/-- The state `v₁` is `v` with a shared handle `p` that may have been added. -/
structure Kept (v : Vfs) (p : ℕ) (v₁ : Vfs) : Prop where
  fs : FsSame v.fs v₁.fs
  handleList : v₁.handleList = v.handleList
  handleNo : v₁.handleNo = v.handleNo
  next_le : v.heapNext ≤ v₁.heapNext
  heap_other : ∀ q, q ≠ p → v₁.heap q = v.heap q
  mem : ∀ {b}, v.MemIs b → v₁.MemIs b

theorem Kept.refl (v : Vfs) (p : ℕ) : Kept v p v := ⟨.refl _, rfl, rfl, le_rfl, fun _ _ => rfl, id⟩

/-- The state with a new shared handle `p` that is open on inode `j`, without references. -/
structure Extended (v : Vfs) (p j : ℕ) (v₁ : Vfs) : Prop where
  kept : Kept v p v₁
  ptr_eq : p = v.heapNext
  heapNext : v₁.heapNext = v.heapNext + 1
  sharedList : v₁.sharedList = v.sharedList ++ [p]
  opened : Opened (v₁.heap p) j
  index_eq : (v₁.heap p).index = v.sharedList.length
  refcount_eq : (v₁.heap p).refcount = 0

/-- What becomes of shared handle `c` when the walking handle leaves it. -/
structure Left (v₀ v : Vfs) (c : ℕ) (v' : Vfs) : Prop where
  held : c ∈ v₀.sharedList → v'.heap c = v₀.heap c
  own : c ∉ v₀.sharedList → v'.heap c = { v.heap c with refcount := 0, ramfsFile := none }

namespace Walking

variable {v₀ v v₁ v' : Vfs} {dir c i j p q : ℕ} {h₀ : VfsFileHandle} {t t' : WalkTable}
  {table : List ℕ}
  (hw : Walking v₀ dir h₀ c i t v)

include hw

theorem handle_eq : v.handleList[dir]? = some { h₀ with shared := c } := by
  rw [hw.handles, getElem?_set_self hw.dir_lt]

theorem set_handles (handle : VfsFileHandle) : v.handleList.set dir handle = v₀.handleList.set dir handle := by
  rw [hw.handles, set_set]

theorem length_slots : t.slots.length = v.sharedList.length := by
  rw [← hw.slots_eq, length_map]

theorem vfs_eq (hq : q ∈ v.sharedList) : (v.heap q).vfs = some rootVfs := by
  by_cases hqc : q = c
  · rw [hqc, hw.current.vfs]
  · by_cases hmem : q ∈ v₀.sharedList
    · rw [hw.others q hmem hqc, (hw.base.opened q hmem).vfs]
    · exact (hw.closed q hq hmem hqc).1

theorem opened_of_mem (hq : q ∈ v₀.sharedList) : Opened (v.heap q) (v.heap q).inode := by
  by_cases hqc : q = c
  · have hcur := hw.current
    rw [hqc]
    exact ⟨hcur.vfs, hcur.ramfsFile.trans (congrArg some hcur.inode.symm), rfl⟩
  · rw [hw.others q hq hqc]
    exact hw.base.opened q hq

theorem find_eq (j : ℕ) : t.find j = (v.sharedList.find? fun q => OnInode v j q).map (slotOf v₀ v c) := by
  rw [WalkTable.find, ← hw.slots_eq, find?_map]
  congr 1
  refine find?_congr fun q hq => ?_
  simp [comp_apply, inode_slotOf, OnInode, hw.vfs_eq hq]

theorem sharedByInode_none (h : t.find j = none) : vfsSharedByInode v (some rootVfs) j = none := by
  rw [hw.find_eq, Option.map_eq_none_iff, find?_eq_none] at h
  exact vfsSharedByInode_eq_none fun p hp hon => h p hp (decide_eq_true hon)

theorem sharedByInode_some {slot : Slot} (h : t.find j = some slot) :
    ∃ k q, vfsSharedByInode v (some rootVfs) j = some k ∧ v.sharedList[k]? = some q ∧
      OnInode v j q ∧ slotOf v₀ v c q = slot := by
  rw [hw.find_eq, Option.map_eq_some_iff] at h
  obtain ⟨q, hq, rfl⟩ := h
  have hon := find?_some hq
  rw [find?_eq_bind_findIdx?_getElem?, ← vfsSharedByInode_root, Option.bind_eq_some_iff] at hq
  obtain ⟨k, hk, hget⟩ := hq
  exact ⟨k, q, hk, hget, of_decide_eq_true hon, rfl⟩

theorem leave (hkept : Kept v p v₁) (hne : p ≠ c) (hlist : v₁.sharedList ≠ []) :
    ∃ v', switchShared v₁ dir p = some (.ok, v') ∧
      Moved v₁ dir { h₀ with shared := c } p (removeIndex t.index v₁.sharedList) v' ∧
      Left v₀ v c v' := by
  have hdir : v₁.handleList[dir]? = some { h₀ with shared := c } := hkept.handleList ▸ hw.handle_eq
  have hheap : v₁.heap c = v.heap c := hkept.heap_other c hne.symm
  rcases hw.placed.cases with ⟨hindex, hmem, hc⟩ | ⟨k, hindex, hmem, hcount, hk⟩
  · have hcount : (v₁.heap c).refcount ≠ 1 := by
      rw [hheap, hc]
      exact fun h => hw.base.refcount_ne c hmem (Nat.succ.inj h)
    obtain ⟨v', hswitch, hmoved, hold⟩ := switchShared_moved_keep hdir hne hcount
    rw [hindex]
    refine ⟨v', hswitch, hmoved, fun _ => ?_, fun h => absurd hmem h⟩
    rw [hold, hheap, hc]
    rfl
  · have hopen : Opened (v₁.heap c) i := hheap ▸ hw.current
    have htable : swapRemove v₁.sharedList (some (v₁.heap c).index) =
        some (removeIndex t.index v₁.sharedList) := by
      rw [hheap, hk, hindex]
      exact swapRemove_eq_removeIndex hlist k
    obtain ⟨v', hswitch, hmoved, hold⟩ :=
      switchShared_moved_close hdir hne (hheap ▸ hcount) hopen htable
    exact ⟨v', hswitch, hmoved, fun h => absurd h hmem, fun _ => hold.trans (hheap ▸ rfl)⟩

section

variable (hkept : Kept v p v₁) (hmoved : Moved v₁ dir { h₀ with shared := c } p table v')
  (hleft : Left v₀ v c v')

include hkept hmoved hleft

theorem inode_moved (q : ℕ) : (v'.heap q).inode = (v₁.heap q).inode := by
  by_cases hqp : q = p
  · rw [hqp, hmoved.heap_new]
  · by_cases hqc : q = c
    · rw [hkept.heap_other q hqp, hqc]
      rcases hw.placed.cases with ⟨_, hmem, hc⟩ | ⟨_, _, hmem, _, _⟩
      · rw [hleft.held hmem, hc]
      · rw [hleft.own hmem]
    · rw [hmoved.heap_other q hqp hqc]

theorem arrive (hopen : Opened (v₁.heap p) j) (hp : p < v₁.heapNext)
    (hplaced : Placed v₀ v' p t'.index) (hnodup : table.Nodup)
    (htable : ∀ q ∈ table, q ≠ p → q ∈ v.sharedList)
    (hslots : table.map (slotOf v₀ v' p) = t'.slots) : Walking v₀ dir h₀ p j t' v' where
  base := hw.base
  dir_lt := hw.dir_lt
  fs := (hw.fs.trans hkept.fs).trans hmoved.fs
  handles := by rw [hmoved.handleList, hkept.handleList, hw.set_handles]
  handleNo := by rw [hmoved.handleNo, hkept.handleNo, hw.handleNo]
  next_le := by
    rw [hmoved.heapNext]
    exact hw.next_le.trans hkept.next_le
  mem hmem := hmoved.mem (hkept.mem (hw.mem hmem))
  current := by
    rw [hmoved.heap_new]
    exact ⟨hopen.vfs, hopen.ramfsFile, hopen.inode⟩
  current_lt := hmoved.heapNext ▸ hp
  placed := hplaced
  others q hq hne := by
    by_cases hqc : q = c
    · rw [hqc, hleft.held (hqc ▸ hq)]
    · rw [hmoved.heap_other q hne hqc, hkept.heap_other q hne, hw.others q hq hqc]
  nodup := hmoved.sharedList ▸ hnodup
  lt_next q hq := by
    rw [hmoved.sharedList] at hq
    rw [hmoved.heapNext]
    by_cases hqp : q = p
    · exact hqp ▸ hp
    · exact (hw.lt_next q (htable q hq hqp)).trans_le hkept.next_le
  closed q hq hmem hne := by
    rw [hmoved.sharedList] at hq
    by_cases hqc : q = c
    · subst hqc
      rw [hleft.own hmem]
      exact ⟨hw.current.vfs, rfl⟩
    · rw [hmoved.heap_other q hne hqc, hkept.heap_other q hne]
      exact hw.closed q (htable q hq hne) hmem hqc
  slots_eq := by rw [hmoved.sharedList, hslots]

end

theorem to_self : ∃ v', switchShared v dir c = some (.ok, v') ∧ Walking v₀ dir h₀ c i t v' := by
  have hheap : (switched v dir { h₀ with shared := c } c).heap = v.heap := switched_heap_self rfl
  have hcount : (v.heap c).refcount ≠ 0 := by
    rcases hw.placed.cases with ⟨_, _, hc⟩ | ⟨_, _, _, hcount, _⟩
    · rw [hc]
      exact Nat.succ_ne_zero _
    · rw [hcount]
      exact one_ne_zero
  refine ⟨_, switchShared_keep hw.handle_eq (by rw [hheap]; exact hcount), ?_⟩
  refine ⟨hw.base, hw.dir_lt, hw.fs, ?_, hw.handleNo, hw.next_le, hw.mem, ?_, hw.current_lt, ?_,
    ?_, hw.nodup, hw.lt_next, ?_, ?_⟩
  · rw [switched_handleList, hw.set_handles]
  · rw [hheap]
    exact hw.current
  · rcases hw.placed.cases with ⟨hindex, hmem, hc⟩ | ⟨k, hindex, hmem, hcount, hk⟩
    · rw [hindex]
      exact .held hmem (by rw [hheap]; exact hc)
    · rw [hindex]
      exact .own hmem (by rw [hheap]; exact hcount) (by rw [hheap]; exact hk)
  · rw [hheap]
    exact hw.others
  · rw [hheap]
    exact hw.closed
  · rw [← hw.slots_eq]
    refine map_congr_left fun q _ => ?_
    unfold slotOf
    rw [hheap]

theorem map_left (hmem : c ∈ v₀.sharedList) : t.slots.map Slot.left = t.slots := by
  rw [← hw.slots_eq, map_map]
  refine map_congr_left fun q _ => ?_
  rw [comp_apply, ← slotOf_left rfl fun h => h ▸ hmem]

theorem to_held (hq : q ∈ v₀.sharedList) (hlist : q ∈ v.sharedList) (hon : OnInode v j q) :
    ∃ v', switchShared v dir q = some (.ok, v') ∧
      Walking v₀ dir h₀ q j ⟨removeIndex t.index (t.slots.map Slot.left), none⟩ v' := by
  by_cases hqc : q = c
  · subst hqc
    have hij : i = j := hw.current.inode.symm.trans hon.2
    obtain ⟨v', hswitch, hw'⟩ := hw.to_self
    have hindex : t.index = none := by
      rcases hw.placed.cases with ⟨hindex, _⟩ | ⟨_, _, hmem, _⟩
      · exact hindex
      · exact absurd hq hmem
    have ht : t = ⟨removeIndex t.index (t.slots.map Slot.left), none⟩ := by
      rw [hw.map_left hq, hindex, removeIndex, ← hindex]
    exact ⟨v', hswitch, ht ▸ hij ▸ hw'⟩
  · obtain ⟨v', hswitch, hmoved, hleft⟩ := hw.leave (.refl v q) hqc (ne_nil_of_mem hlist)
    have hheap : v'.heap q = { v₀.heap q with refcount := (v₀.heap q).refcount + 1 } := by
      rw [hmoved.heap_new, hw.others q hq hqc]
    have hopen : Opened (v.heap q) j := hon.2 ▸ hw.opened_of_mem hq
    refine ⟨v', hswitch, hw.arrive (.refl v q) hmoved hleft hopen (hw.lt_next q hlist)
      (.held hq hheap) (nodup_removeIndex _ hw.nodup)
      (fun q' hq' _ => mem_of_mem_removeIndex hq') ?_⟩
    rw [← removeIndex_map, ← hw.slots_eq, map_map]
    congr 1
    refine map_congr_left fun q' _ => slotOf_left ?_ fun h => h ▸ hq
    exact hw.inode_moved (.refl v q) hmoved hleft q'

theorem to_new (hext : Extended v p j v₁) : ∃ v', switchShared v₁ dir p = some (.ok, v') ∧ Walking v₀ dir h₀ p j
      ⟨removeIndex t.index (t.slots.map Slot.left ++ [.own j]), some t.slots.length⟩ v' := by
  have hpc : p ≠ c := by
    rw [hext.ptr_eq]
    exact hw.current_lt.ne'
  have hp0 : p ∉ v₀.sharedList := by
    rw [hext.ptr_eq]
    exact fun hmem => absurd (hw.base.lt_next _ hmem) (not_lt.mpr hw.next_le)
  have hp : p ∉ v.sharedList := by
    rw [hext.ptr_eq]
    exact fun hmem => lt_irrefl _ (hw.lt_next _ hmem)
  obtain ⟨v', hswitch, hmoved, hleft⟩ := hw.leave hext.kept hpc (by rw [hext.sharedList]; simp)
  have hinode := hw.inode_moved hext.kept hmoved hleft
  refine ⟨v', hswitch, hw.arrive hext.kept hmoved hleft hext.opened ?_ ?_ ?_ ?_ ?_⟩
  · rw [hext.heapNext, hext.ptr_eq]
    exact Nat.lt_succ_self _
  · refine .own hp0 ?_ ?_
    · rw [hmoved.heap_new, hext.refcount_eq]
    · rw [hmoved.heap_new, hw.length_slots]
      exact hext.index_eq
  · refine nodup_removeIndex _ ?_
    rw [hext.sharedList, nodup_append_comm, singleton_append, nodup_cons]
    exact ⟨hp, hw.nodup⟩
  · intro q hq hqp
    have hmem := mem_of_mem_removeIndex hq
    rw [hext.sharedList, mem_append, mem_singleton] at hmem
    exact hmem.resolve_right hqp
  · have hnew : slotOf v₀ v' p p = .own j := by
      rw [slotOf, if_neg hp0, if_pos rfl, hinode, hext.opened.inode]
    have hold : v.sharedList.map (slotOf v₀ v' p) = t.slots.map Slot.left := by
      rw [← hw.slots_eq, map_map]
      refine map_congr_left fun q hq => slotOf_left ?_ fun h => absurd (h ▸ hq) hp
      rw [hinode, hext.kept.heap_other q fun h => hp (h ▸ hq)]
    rw [← removeIndex_map, hext.sharedList, map_append, map_singleton, hnew, hold]

theorem to_closed (hq : q ∉ v₀.sharedList) (hqc : q ≠ c) (hlist : q ∈ v.sharedList) :
    ∃ v', switchShared v dir q = some (.ok, v') ∧
      v'.handleList[dir]? = some { h₀ with shared := q } ∧ (v'.heap q).ramfsFile = none := by
  obtain ⟨v', hswitch, hmoved, _⟩ := hw.leave (.refl v q) hqc (ne_nil_of_mem hlist)
  refine ⟨v', hswitch, ?_, ?_⟩
  · rw [hmoved.handleList, hw.set_handles, getElem?_set_self hw.dir_lt]
  · rw [hmoved.heap_new]
    exact (hw.closed q hlist hq hqc).2

theorem switch {slot : Slot} (hfind : t.find j = some slot) (hnext : t.next j = some t') :
    ∃ k q v', vfsSharedByInode v (some rootVfs) j = some k ∧ v.sharedList[k]? = some q ∧
      switchShared v dir q = some (.ok, v') ∧ Walking v₀ dir h₀ q j t' v' := by
  obtain ⟨k, q, hk, hget, hon, hslot⟩ := hw.sharedByInode_some hfind
  have hlist := mem_of_getElem? hget
  rw [WalkTable.next, hfind] at hnext
  cases slot with
  | held j' =>
    cases hnext
    obtain ⟨v', hswitch, hw'⟩ := hw.to_held (slotOf_eq_held hslot) hlist hon
    exact ⟨k, q, v', hk, hget, hswitch, hw'⟩
  | own j' =>
    cases hnext
    obtain rfl := slotOf_eq_own hslot
    obtain ⟨v', hswitch, hw'⟩ := hw.to_self
    have hij : i = j := hw.current.inode.symm.trans hon.2
    exact ⟨k, q, v', hk, hget, hswitch, hij ▸ hw'⟩
  | closed j' => cases hnext

/-! ### What is in the table -/

theorem perm_of_clean (hclean : t.Clean v₀.sharedList.length) : t.index = none ∧ v.sharedList.Perm v₀.sharedList ∨
      t.index ≠ none ∧ v.sharedList.Perm (c :: v₀.sharedList) := by
  have hsub : ∀ q ∈ v.sharedList, q = c ∨ q ∈ v₀.sharedList := by
    intro q hq
    by_contra hno
    rw [not_or] at hno
    refine hclean.1 (slotOf v₀ v c q) (hw.slots_eq ▸ mem_map_of_mem hq) (v.heap q).inode ?_
    rw [slotOf, if_neg hno.2, if_neg hno.1]
  have hlen := hclean.2
  rw [hw.length_slots] at hlen
  rcases hw.placed.cases with ⟨hindex, hmem, _⟩ | ⟨k, hindex, _⟩
  · rw [if_pos hindex, Nat.add_zero] at hlen
    refine .inl ⟨hindex, List.Subperm.perm_of_length_le ?_ hlen.ge⟩
    refine subperm_of_subset hw.nodup fun q hq => ?_
    exact (hsub q hq).elim (fun h => h ▸ hmem) id
  · have hne : t.index ≠ none := by
      rw [hindex]
      exact Option.some_ne_none k
    rw [if_neg hne] at hlen
    refine .inr ⟨hne, List.Subperm.perm_of_length_le ?_ hlen.ge⟩
    exact subperm_of_subset hw.nodup fun q hq => mem_cons.mpr (hsub q hq)

/-! ### `dir_reopen` -/

theorem dirReopen_existing {ent : DirentT} {k : ℕ} (hk : vfsSharedByInode v (some rootVfs) ent.inode = some k)
    (hp : v.sharedList[k]? = some p) : dirReopen v dir ent = switchShared v dir p := by
  simp [dirReopen, hw.handle_eq, hw.current.vfs, hk, hp]

theorem dirReopen_new {ent : DirentT} {off : ℕ} (hnone : vfsSharedByInode v (some rootVfs) ent.inode = none)
    (hfind : findDirent (v.fs.inodeList i) ent.name = some (some off))
    (hj : direntInode (v.fs.inodeList i).buf off = j) (hinode : (v.fs.inodeList j).inode = j) :
    (∃ v2, dirReopen v dir ent = switchShared v2 dir v.heapNext ∧ Extended v v.heapNext j v2 ∧
        ¬ v.MemIs false) ∨
      ∃ v2, dirReopen v dir ent = some (.nomem, v2) ∧ SameTables v v2 ∧ ¬ v.MemOk := by
  rcases vfsFileCreateShared_cases v with ⟨v₁, hcreate, hsame, hmem⟩ | ⟨v₁, hcreate, hsame, hmem⟩
  · left
    have hslot : v₁.sharedList[v.sharedList.length]? = some v.heapNext := by
      rw [hsame.sharedList]
      exact getElem?_concat_length
    have hother : ∀ q, q ≠ v.heapNext → v₁.heap q = v.heap q := fun q hq => by
      rw [hsame.heap, withShared_heap, update_of_ne hq]
    have hnew : v₁.heap v.heapNext = emptyShared v.sharedList.length := by
      rw [hsame.heap, withShared_heap, update_self]
    have hc : Opened (v₁.heap c) i := by
      rw [hother c hw.current_lt.ne]
      exact hw.current
    have hfs : v₁.fs = v.fs := hsame.fs
    have hopen : vfsFileOpen v₁ c v.heapNext ent.name 0 =
        some (.ok, withOpened v₁ v.heapNext j) := by
      have hfind' : findDirent (v₁.fs.inodeList i) ent.name = some (some off) := hfs ▸ hfind
      rw [vfsFileOpen_plain hc hfind', hfs, hj]
    have hp : (withOpened v₁ v.heapNext j).heap v.heapNext =
        openedShared (emptyShared v.sharedList.length) j (v.fs.inodeList j) := by
      rw [withOpened_heap_self, hnew, hfs]
    refine ⟨(withOpened v₁ v.heapNext j).setShared v.heapNext
      { (withOpened v₁ v.heapNext j).heap v.heapNext with refcount := 0 }, ?_, ?_, hmem⟩
    · simp [dirReopen, hw.handle_eq, hw.current.vfs, hnone, hcreate, hslot, hopen]
    · refine ⟨⟨?_, hsame.handleList, hsame.handleNo, ?_, ?_, hsame.mem⟩, rfl, hsame.heapNext,
        hsame.sharedList, ?_, ?_, ?_⟩
      · rw [setShared_fs, ← hfs]
        exact FsSame.link v₁.fs j
      · exact (Nat.le_succ _).trans_eq hsame.heapNext.symm
      · intro q hq
        rw [setShared_heap, update_of_ne hq, withOpened_heap_of_ne _ _ hq, hother q hq]
      · rw [setShared_heap, update_self, hp]
        exact ⟨rfl, rfl, hinode⟩
      · rw [setShared_heap, update_self, hp]
        rfl
      · rw [setShared_heap, update_self]
  · right
    refine ⟨v₁, ?_, hsame, hmem⟩
    simp [dirReopen, hw.handle_eq, hw.current.vfs, hnone, hcreate]

variable {dirs : ℕ → Bool} {tree : DirTree} {name : List UInt8} {ent : DirentT}

/-- A step of the walk. A directory that is not open yet takes memory. -/
theorem reopen (htree : Searchable v₀.fs dirs tree)
    (hi : dirs i = true) (hlookup : tree.lookup i name = some j) (hent : EntFor v.fs name j ent)
    (hnext : t.next j = some t') :
    (∃ c' v', dirReopen v dir ent = some (.ok, v') ∧ Walking v₀ dir h₀ c' j t' v' ∧
        (t.find j = none → ¬ v₀.MemIs false)) ∨
      ∃ v', dirReopen v dir ent = some (.nomem, v') ∧ SameTables v v' ∧ t.find j = none ∧
        ¬ v₀.MemOk := by
  cases hfound : t.find j with
  | some slot =>
    obtain ⟨k, q, v', hk, hget, hswitch, hw'⟩ := hw.switch hfound hnext
    refine .inl ⟨q, v', (hw.dirReopen_existing (hent.inode_eq ▸ hk) hget).trans hswitch, hw', ?_⟩
    exact fun h => absurd h (Option.some_ne_none slot)
  | none =>
    rw [WalkTable.next, hfound] at hnext
    cases hnext
    have hnone := hw.sharedByInode_none hfound
    rcases (hw.fs.searchable htree).find_spec hi name with
      ⟨hno, _⟩ | ⟨j', off, hsome, hfind, hinode, _, hself, _⟩
    · rw [hlookup] at hno
      cases hno
    · obtain rfl : j = j' := Option.some.inj (hlookup.symm.trans hsome)
      rcases hw.dirReopen_new (hent.inode_eq ▸ hnone) (hent.name_eq ▸ hfind) hinode hself with
        ⟨v2, hreopen, hext, hmem⟩ | ⟨v2, hreopen, hsame, hmem⟩
      · obtain ⟨v', hswitch, hw'⟩ := hw.to_new hext
        exact .inl ⟨_, v', hreopen.trans hswitch, hw', fun _ h => hmem (hw.mem h)⟩
      · exact .inr ⟨v2, hreopen, hsame, rfl, fun h => hmem (hw.mem h)⟩

theorem reopen_closed (hent : EntFor v.fs name j ent) (hnext : t.next j = none) :
    ∃ w v', dirReopen v dir ent = some (.ok, v') ∧
      v'.handleList[dir]? = some { h₀ with shared := w } ∧ (v'.heap w).ramfsFile = none := by
  cases hfound : t.find j with
  | none =>
    rw [WalkTable.next, hfound] at hnext
    cases hnext
  | some slot =>
    obtain ⟨k, q, hk, hget, _, hslot⟩ := hw.sharedByInode_some hfound
    rw [WalkTable.next, hfound] at hnext
    cases slot with
    | held j' => cases hnext
    | own j' => cases hnext
    | closed j' =>
      obtain ⟨hq, hqc⟩ := slotOf_eq_closed hslot
      obtain ⟨v', hswitch, hhandle, hnone⟩ := hw.to_closed hq hqc (mem_of_getElem? hget)
      exact ⟨q, v', (hw.dirReopen_existing (hent.inode_eq ▸ hk) hget).trans hswitch, hhandle, hnone⟩

end Walking

/-! ## The start of a walk -/

/-- The inode is open in the tables. -/
def isOpen (v : Vfs) (j : ℕ) : Bool := (vfsSharedByInode v (some rootVfs) j).isSome

/-- The shared handle that a search for inode `j` finds. -/
def sharedOn (v : Vfs) (j : ℕ) : Option ℕ := v.sharedList.find? fun p => OnInode v j p

/-- The shared handles of the table, all of them held. -/
def heldSlots (v : Vfs) : List Slot := v.sharedList.map fun p => .held (v.heap p).inode

/-- The table of a walking handle on a shared handle of others. -/
def heldTable (v : Vfs) : WalkTable := ⟨heldSlots v, none⟩

/-- The tables without the reference of a walking handle to `c`. -/
def withoutRef (v : Vfs) (c : ℕ) : Vfs :=
  if (v.heap c).refcount = 1 then v.setTable (v.sharedList.erase c)
  else v.setShared c { v.heap c with refcount := (v.heap c).refcount - 1 }

/-- The table for a walking handle that refers to `c`. -/
def tableAt (v : Vfs) (c : ℕ) : WalkTable :=
  if (v.heap c).refcount = 1 then
    ⟨v.sharedList.map fun p => if p = c then .own (v.heap p).inode else .held (v.heap p).inode,
      some (v.heap c).index⟩
  else heldTable v

section

variable {v v' : Vfs} {c dir i j k : ℕ} {handle : VfsFileHandle}

@[simp]
theorem withoutRef_fs (v : Vfs) (c : ℕ) : (withoutRef v c).fs = v.fs := by
  unfold withoutRef
  split_ifs <;> rfl

@[simp]
theorem withoutRef_handleList (v : Vfs) (c : ℕ) : (withoutRef v c).handleList = v.handleList := by
  unfold withoutRef
  split_ifs <;> rfl

@[simp]
theorem withoutRef_heapNext (v : Vfs) (c : ℕ) : (withoutRef v c).heapNext = v.heapNext := by
  unfold withoutRef
  split_ifs <;> rfl

theorem withoutRef_memIs {b : Bool} : (withoutRef v c).MemIs b ↔ v.MemIs b := by
  unfold withoutRef
  split_ifs <;> exact Iff.rfl

theorem sharedOn_eq (v : Vfs) (j : ℕ) :
    sharedOn v j = (vfsSharedByInode v (some rootVfs) j).bind fun k => v.sharedList[k]? := by
  rw [sharedOn, find?_eq_bind_findIdx?_getElem?, vfsSharedByInode_root]

theorem sharedByInode_of_sharedOn (h : sharedOn v j = some c) :
    ∃ k, vfsSharedByInode v (some rootVfs) j = some k ∧ v.sharedList[k]? = some c := by
  rw [sharedOn_eq, Option.bind_eq_some_iff] at h
  exact h

theorem mem_of_sharedOn (h : sharedOn v j = some c) : c ∈ v.sharedList ∧ OnInode v j c := by
  unfold sharedOn at h
  have hon := find?_some h
  exact ⟨mem_of_find?_eq_some h, of_decide_eq_true hon⟩

theorem sharedOn_eq_none_iff : sharedOn v j = none ↔ isOpen v j = false := by
  rw [isOpen, Option.isSome_eq_false_iff, Option.isNone_iff_eq_none]
  constructor
  · intro h
    rw [sharedOn, find?_eq_none] at h
    exact vfsSharedByInode_eq_none fun p hp hon => h p hp (decide_eq_true hon)
  · intro h
    rw [sharedOn_eq, h, Option.bind_none]

theorem WalkBase.walking (hbase : WalkBase v) (hnodup : v.sharedList.Nodup)
    (hdir : v.handleList[dir]? = some handle) (hmem : handle.shared ∈ v.sharedList) :
    Walking (withoutRef v handle.shared) dir handle handle.shared (v.heap handle.shared).inode
      (tableAt v handle.shared) v := by
  obtain ⟨hdirlt, hget⟩ := List.getElem?_eq_some_iff.mp hdir
  have hhandles : v.handleList = v.handleList.set dir { handle with shared := handle.shared } := by
    rw [← hget, set_getElem_self]
  unfold tableAt withoutRef
  by_cases hcount : (v.heap handle.shared).refcount = 1
  · rw [if_pos hcount, if_pos hcount]
    have hmem0 : ∀ q, q ∈ v.sharedList.erase handle.shared ↔
        q ≠ handle.shared ∧ q ∈ v.sharedList := fun q => hnodup.mem_erase_iff
    refine ⟨⟨?_, ?_, ?_⟩, hdirlt, .refl _, hhandles, rfl, le_rfl, id, hbase.opened _ hmem,
      hbase.lt_next _ hmem, ?_, fun _ _ _ => rfl, hnodup, hbase.lt_next, ?_, ?_⟩
    · exact fun q hq => hbase.lt_next q (mem_of_mem_erase hq)
    · exact fun q hq => hbase.opened q (mem_of_mem_erase hq)
    · exact fun q hq => hbase.refcount_ne q (mem_of_mem_erase hq)
    · exact .own (fun h => ((hmem0 _).mp h).1 rfl) hcount rfl
    · exact fun q hq hq' hne => absurd ((hmem0 q).mpr ⟨hne, hq⟩) hq'
    · refine map_congr_left fun q hq => ?_
      rw [slotOf, setTable_sharedList]
      by_cases hqc : q = handle.shared
      · rw [if_neg fun h => ((hmem0 q).mp h).1 hqc, if_pos hqc, if_pos hqc]
      · rw [if_pos ((hmem0 q).mpr ⟨hqc, hq⟩), if_neg hqc]
  · rw [if_neg hcount, if_neg hcount]
    have hne := hbase.refcount_ne _ hmem
    refine ⟨⟨hbase.lt_next, ?_, ?_⟩, hdirlt, .refl _, hhandles, rfl, le_rfl, id,
      hbase.opened _ hmem, hbase.lt_next _ hmem, ?_, ?_, hnodup, hbase.lt_next, ?_, ?_⟩
    · intro q hq
      by_cases hqc : q = handle.shared
      · have hopen := hbase.opened q hq
        subst hqc
        rw [setShared_heap, update_self]
        exact ⟨hopen.vfs, hopen.ramfsFile, hopen.inode⟩
      · rw [setShared_heap, update_of_ne hqc]
        exact hbase.opened q hq
    · intro q hq
      by_cases hqc : q = handle.shared
      · rw [hqc, setShared_heap, update_self]
        show (v.heap handle.shared).refcount - 1 ≠ 0
        omega
      · rw [setShared_heap, update_of_ne hqc]
        exact hbase.refcount_ne q hq
    · refine .held hmem ?_
      have hsucc : (v.heap handle.shared).refcount - 1 + 1 = (v.heap handle.shared).refcount := by
        omega
      simp [setShared_heap, hsucc]
    · intro q _ hqc
      rw [setShared_heap, update_of_ne hqc]
    · exact fun q hq hq' => absurd hq hq'
    · exact map_congr_left fun q hq => if_pos hq

variable (hvfs : ∀ q ∈ v.sharedList, (v.heap q).vfs = some rootVfs)

include hvfs

theorem find_map_slots {f : ℕ → Slot} (hf : ∀ q, (f q).inode = (v.heap q).inode) :
    (v.sharedList.map f).find? (fun slot => slot.inode = j) = (sharedOn v j).map f := by
  rw [find?_map, sharedOn]
  congr 1
  refine find?_congr fun q hq => ?_
  simp [comp_apply, hf, OnInode, hvfs q hq]

theorem find_heldTable : (heldTable v).find j = (sharedOn v j).map fun q => .held (v.heap q).inode :=
  find_map_slots hvfs fun _ => rfl

theorem next_heldTable (h : sharedOn v j = some c) : (heldTable v).next j = some (heldTable v) := by
  have hleft : (heldSlots v).map Slot.left = heldSlots v := by
    rw [heldSlots, map_map]
    rfl
  rw [WalkTable.next, find_heldTable hvfs, h]
  simp [heldTable, hleft, removeIndex]

theorem next_tableAt (h : sharedOn v i = some c) :
    (tableAt v c).next i = some (tableAt v c) ∧ (tableAt v c).find i ≠ none := by
  unfold tableAt
  by_cases hcount : (v.heap c).refcount = 1
  · rw [if_pos hcount]
    have hfound := find_map_slots (j := i) hvfs
      (f := fun p => if p = c then .own (v.heap p).inode else .held (v.heap p).inode)
      fun q => by split_ifs <;> rfl
    rw [h, Option.map_some, if_pos rfl] at hfound
    simp [WalkTable.next, WalkTable.find, hfound]
  · rw [if_neg hcount, find_heldTable hvfs, h]
    exact ⟨next_heldTable hvfs h, Option.some_ne_none _⟩

end

end BadgerOS.Filesystem

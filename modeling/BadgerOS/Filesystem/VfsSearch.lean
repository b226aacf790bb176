import BadgerOS.Filesystem.VfsRefcounts

/-!
# The inodes that a walk searches

A path that goes through a regular file is not rejected: the next name is searched in the bytes
of the regular file.

* `SearchesDirs`: a call searches directories only, and fails at a regular file.
* `fsOpen_searchesDirs_iff`: the calls that do so whatever the allocator answers.
-/

namespace BadgerOS.Filesystem

/-! ## What a call searches -/

/-- The inodes in which the walk of `fs_open` searches for a name. -/
def openSearched (v : Vfs) (ec : Cause) (path : List UInt8) (oflags : UInt32) : List ℕ :=
  if rejectsOflags oflags || path.length > pathMax then []
  else
    match rootOpen v ec with
    | none => []
    | some (ec, parent, v) => if ec ≠ .ok then [] else walkSearched v ec parent path

/-- The call searches directories only. When the path goes through a regular file, the call
    fails with an error. -/
structure SearchesDirs (v : Vfs) (tree : DirTree) (ec : Cause) (path : List UInt8)
    (oflags : UInt32) : Prop where
  dirs_only : ∀ k ∈ openSearched v ec path oflags, v.fs.isDir k = true
  fails : namesFile v.fs.isDir tree inodeRoot (components path) = true →
    ∃ ec' v', fsOpen v ec path oflags = some (fileNone, ec', v') ∧ ec' ≠ .ok

section

variable {v₀ v : Vfs} {dir c : ℕ} {h₀ : VfsFileHandle} {t : WalkTable} {dirs : ℕ → Bool}
  {tree : DirTree} {path : List UInt8} {ec : Cause} {oflags : UInt32}

theorem walkSearched_nil (hpath : components path = []) : walkSearched v ec dir path = [] := by
  by_cases hne : path = []
  · rw [hne]
    rfl
  · rw [walkSearched, dedupSlashes_of_components_nil hpath hne]
    simp only [List.head?_cons, if_true]
    rcases rootReopen v dir with _ | ⟨ec', v'⟩
    · rfl
    · simp only
      split_ifs <;> rfl

theorem WalkBase.withMem (h : WalkBase v) (mem : ℕ → Realloc) : WalkBase { v with mem := mem } :=
  ⟨h.lt_next, h.opened, h.refcount_ne⟩

theorem searchesDirs_of_dirs (hbase : WalkBase v) (hnodup : v.sharedList.Nodup) (htree : HoldsTree v.fs tree)
    (hnames : namesFile v.fs.isDir tree inodeRoot (components path) = false) :
    SearchesDirs v tree ec path oflags := by
  refine ⟨?_, fun h => absurd (hnames.symm.trans h) Bool.false_ne_true⟩
  unfold openSearched
  by_cases hreject : (rejectsOflags oflags || decide (path.length > pathMax)) = true
  · rw [if_pos hreject]
    exact fun k hk => absurd hk List.not_mem_nil
  rw [if_neg hreject]
  rcases rootOpen_cases hbase hnodup ec with
    ⟨v₀, c, v1, hrootOpen, hstart⟩ | ⟨hnone, _⟩
  · generalize (if isOpen v inodeRoot = true then ec else .ok) = ec1 at hrootOpen
    rw [hrootOpen]
    by_cases hec : ec1 ≠ .ok
    · simp only [if_pos hec]
      exact fun k hk => absurd hk List.not_mem_nil
    · simp only [if_neg hec]
      rw [not_not.mp hec]
      by_cases hcomps : components path = []
      · rw [walkSearched_nil hcomps]
        exact fun k hk => absurd hk List.not_mem_nil
      · obtain ⟨hnext, hfound⟩ := next_startTable hbase
        have htree0 := hstart.searchable htree.toSearchable
        exact (walk_spec .ok hstart.walking hnext hfound htree0 rfl hcomps).2.1 hnames
  · rw [hnone]
    exact fun k hk => absurd hk List.not_mem_nil

theorem searchesDirs_of_failed {ec' : Cause} {v' : Vfs}
    (hopen : fsOpen v ec path oflags = some (fileNone, ec', v')) (hec : ec' ≠ .ok)
    (hsearched : openSearched v ec path oflags = []) : SearchesDirs v tree ec path oflags :=
  ⟨fun _ hk => absurd (hsearched ▸ hk) List.not_mem_nil, fun _ => ⟨ec', v', hopen, hec⟩⟩

/-- With memory, a call whose path goes through a regular file does not return, or searches the
    regular file, unless an old error code stops it. -/
theorem SearchesDirs.ec_ne (h : SearchesDirs v tree ec path oflags) (hbase : WalkBase v)
    (hnodup : v.sharedList.Nodup) (htree : HoldsTree v.fs tree) (hmem : v.MemOk)
    (hflags : rejectsOflags oflags = false) (hlen : ¬ path.length > pathMax)
    (hnames : namesFile v.fs.isDir tree inodeRoot (components path) = true) :
    ec ≠ .ok ∧ isOpen v inodeRoot = true := by
  obtain ⟨v₀, c, v1, hrootOpen, hstart⟩ := rootOpen_spec hbase hnodup ec hmem
  by_contra hno
  have hok : (if isOpen v inodeRoot = true then ec else .ok) = .ok := by
    split_ifs with hopen
    · exact not_not.mp fun hec => hno ⟨hec, hopen⟩
    · rfl
  rw [hok] at hrootOpen
  obtain ⟨hnext, hfound⟩ := next_startTable hbase
  have hcomps : components path ≠ [] := by
    intro hcomps
    rw [hcomps] at hnames
    cases hnames
  have htree0 := hstart.searchable htree.toSearchable
  rcases (walk_spec .ok hstart.walking hnext hfound htree0 rfl hcomps).2.2 hnames
    (hstart.mem hmem) with
    hcrash | ⟨k, hk, hfile⟩
  · obtain ⟨ec', v', hopen, _⟩ := h.fails hnames
    rw [fsOpen_eq hflags hlen hrootOpen, hcrash] at hopen
    cases hopen
  · have hsearched : openSearched v ec path oflags = walkSearched v1 .ok v.handleList.length path := by
      simp [openSearched, hflags, hlen, decide_false, hrootOpen]
    rw [← hsearched] at hk
    exact Bool.false_ne_true (hfile.symm.trans (h.dirs_only k hk))

/-- The calls that search directories only and fail at a regular file, whatever the allocator
    answers. -/
theorem fsOpen_searchesDirs_iff (hbase : WalkBase v) (hnodup : v.sharedList.Nodup)
    (htree : HoldsTree v.fs tree) :
    (∀ mem, SearchesDirs { v with mem := mem } tree ec path oflags) ↔
      rejectsOflags oflags = true ∨ path.length > pathMax ∨
        namesFile v.fs.isDir tree inodeRoot (components path) = false ∨
        ec ≠ .ok ∧ isOpen v inodeRoot = true ∧ v.handleList.length < v.handleCap := by
  constructor
  · intro h
    by_contra hno
    simp only [not_or, Bool.not_eq_true, Bool.not_eq_false] at hno
    obtain ⟨hflags, hlen, hnames, hstale⟩ := hno
    obtain ⟨hec, hopen⟩ := (h fun _ => some fun _ => 0).ec_ne (hbase.withMem _) hnodup htree
      (fun _ => rfl) hflags hlen hnames
    -- the handle needs memory, and there is none
    have hfull : v.handleCap ≤ v.handleList.length := not_lt.mp fun hlt => hstale ⟨hec, hopen, hlt⟩
    have hnone := rootOpen_none (v := { v with mem := fun _ => none }) ec
      (vfsFileCreateHandle_none (fun _ => rfl) (.inr hfull))
    obtain ⟨ec', v', hcall, _⟩ := (h fun _ => none).fails hnames
    rw [fsOpen, if_neg (by rw [hflags]; exact Bool.false_ne_true), if_neg hlen, hnone] at hcall
    cases hcall
  · intro h mem
    by_cases hflags : rejectsOflags oflags = true
    · have hopen : fsOpen { v with mem := mem } ec path oflags = some (fileNone, .param, _) :=
        if_pos hflags
      refine searchesDirs_of_failed hopen (by simp) ?_
      rw [openSearched, hflags]
      rfl
    by_cases hlen : path.length > pathMax
    · have hopen : fsOpen { v with mem := mem } ec path oflags = some (fileNone, .toolong, _) :=
        (if_neg hflags).trans (if_pos hlen)
      refine searchesDirs_of_failed hopen (by simp) ?_
      rw [openSearched, decide_eq_true hlen, Bool.or_true]
      rfl
    rcases (h.resolve_left hflags).resolve_left hlen with hnames | ⟨hec, hopen, hroom⟩
    · exact searchesDirs_of_dirs (hbase.withMem mem) hnodup htree hnames
    · obtain ⟨r, hr⟩ := exists_sharedOn hopen
      obtain ⟨v₁, hrootOpen, _⟩ := rootOpen_existing (v := { v with mem := mem }) ec (.inr hroom) hr
      rw [Bool.not_eq_true] at hflags
      have hcall : fsOpen { v with mem := mem } ec path oflags = some (fileNone, ec, v₁) := by
        simp [fsOpen, hflags, if_neg hlen, hrootOpen, hec]
      refine searchesDirs_of_failed hcall hec ?_
      simp [openSearched, hflags, hlen, decide_false, hrootOpen, hec]

end

/-! ## A file in the middle of a path -/

/-- The path `/a/b`. -/
def pathAB : List UInt8 := [47, 97, 47, 98]

/-- The tables after `/a` was created in a fresh filesystem. -/
def fileA : Vfs :=
  ((fsOpen freshVfs .ok pathA (oflagsCreate ||| oflagsReadwrite)).get (by decide +kernel)).2.2

/-- When `/a` is a regular file, the walk along `/a/b` searches its bytes, and the call makes a
    new file. -/
theorem searchesDirs_pathAB :
    (fsOpen fileA .ok pathAB (oflagsCreate ||| oflagsReadwrite)).map (fun r => r.2.1) = some .ok ∧
      ∀ tree, ¬ SearchesDirs fileA tree .ok pathAB (oflagsCreate ||| oflagsReadwrite) := by
  refine ⟨by decide +kernel, fun tree h => ?_⟩
  have hsearched : 2 ∈ openSearched fileA .ok pathAB (oflagsCreate ||| oflagsReadwrite) := by
    decide +kernel
  exact absurd (h.dirs_only 2 hsearched) (by decide +kernel)

/-- With nothing but the root directory there, the walk along `/a/b` ends in it. -/
theorem searchesDirs_freshVfs :
    SearchesDirs freshVfs mountedTree .ok pathAB oflagsReadwrite := by
  have hinv := vfsInv_bootVfs freshVfs.fs freshVfs.mem
  exact (fsOpen_searchesDirs_iff hinv.walkBase hinv.tables.refcounted.nodup
    holdsTree_freshVfs).mpr (.inr (.inr (.inl (by decide)))) freshVfs.mem

end BadgerOS.Filesystem

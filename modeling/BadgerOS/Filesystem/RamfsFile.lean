import BadgerOS.Filesystem.RamfsInode
import BadgerOS.Lib.Trace

/-!
# Files of the RAM filesystem are byte arrays

`vfs_ramfs_file_read`, `vfs_ramfs_file_write` and `vfs_ramfs_file_resize` on an open file,
in any order, with arbitrary arguments and with any outcome of `realloc`.

* `ArrayStep`: a byte array that is read, written and resized.
* `ramfs_file_is_byte_array`: every run on a file is a run on the byte array of its
  contents, and a call that is rejected or finds no memory changes nothing.
-/

namespace BadgerOS.Filesystem

open Buffer Option

/-! ## Calls on a file -/

/-- The calls on an open file with their arguments, the error code that the caller passes in
    and the outcome of `realloc`. -/
inductive FileCall
  | read (offset readlen : Int64)
  | write (offset : Int64) (writebuf : ℕ → UInt8) (writelen : Int64)
  | resize (ec : Cause) (newSize : Int64) (mem : Realloc)

/-- The error code after a call and the bytes that it wrote to the buffer of the caller. -/
structure FileOut where
  ec : Cause
  data : Option (List UInt8)
  deriving DecidableEq, Repr

/-- A filesystem and a shared file handle. -/
structure FileState where
  fs : Ramfs
  file : VfsFileShared

/-- A call on the file. -/
def fileStep (s : FileState) : FileCall → Option (FileOut × FileState)
  | .read offset readlen =>
    (vfsRamfsFileRead s.fs s.file offset readlen).map fun r => (⟨r.1, r.2⟩, s)
  | .write offset writebuf writelen =>
    (vfsRamfsFileWrite s.fs s.file offset writebuf writelen).map fun r =>
      (⟨r.1, none⟩, { s with fs := r.2 })
  | .resize ec newSize mem =>
    (vfsRamfsFileResize ec s.fs s.file newSize mem).map fun r => (⟨r.1, none⟩, ⟨r.2.1, r.2.2⟩)

/-! ## Byte arrays -/

/-- An access of `n` bytes at `offset` stays in a file of `size` bytes. -/
def InFile (size : ℕ) (offset n : Int64) : Prop :=
  0 ≤ offset.toInt ∧ 0 ≤ n.toInt ∧ offset.toInt + n.toInt ≤ size

/-- The array cut or filled up with zeros to `n` bytes. -/
def resizeArray (a : List UInt8) (n : ℕ) : List UInt8 := a.take n ++ List.replicate (n - a.length) 0

/-- How a call ended. -/
inductive Outcome
  | done | range | failed
  deriving DecidableEq, Repr

/-- The calls on a byte array. A resize that succeeds keeps the error code or clears it, one
    that finds no memory keeps it. -/
inductive ArrayStep (a : List UInt8) : FileCall → FileOut → Outcome → List UInt8 → Prop
  | read {offset n : Int64} :
      InFile a.length offset n →
      ArrayStep a (.read offset n) ⟨.ok, some (load a offset.toNatClampNeg n.toNatClampNeg)⟩
        .done a
  | readRange {offset n : Int64} :
      ¬ InFile a.length offset n → ArrayStep a (.read offset n) ⟨.range, none⟩ .range a
  | write {offset n : Int64} {writebuf : ℕ → UInt8} :
      InFile a.length offset n →
      ArrayStep a (.write offset writebuf n) ⟨.ok, none⟩ .done
        (store a offset.toNatClampNeg (bytesOf writebuf n.toNatClampNeg))
  | writeRange {offset n : Int64} {writebuf : ℕ → UInt8} :
      ¬ InFile a.length offset n → ArrayStep a (.write offset writebuf n) ⟨.range, none⟩ .range a
  | resize {ec ec' : Cause} {n : Int64} {mem : Realloc} :
      0 ≤ n.toInt → ec' = ec ∨ ec' = .ok →
      ArrayStep a (.resize ec n mem) ⟨ec', none⟩ .done (resizeArray a n.toNatClampNeg)
  | resizeRange {ec : Cause} {n : Int64} {mem : Realloc} :
      n.toInt < 0 → ArrayStep a (.resize ec n mem) ⟨.range, none⟩ .range a
  | resizeFailed {ec : Cause} {n : Int64} :
      a.length < n.toInt → ArrayStep a (.resize ec n none) ⟨ec, none⟩ .failed a

/-- What a call on a byte array may return and do. -/
def ArraySpec (a : List UInt8) (call : FileCall) (out : FileOut) (b : List UInt8) : Prop :=
  ∃ outcome, ArrayStep a call out outcome b

/-! ## File offsets -/

theorem natCast_toNatClampNeg {x : Int64} (h : 0 ≤ x.toInt) : (x.toNatClampNeg : ℤ) = x.toInt := by
  rw [← Int64.toNat_toInt]
  exact Int.toNat_of_nonneg h

theorem toInt_add_cases {a b : Int64} (h : 0 ≤ a.toInt) : (a + b).toInt = a.toInt + b.toInt ∧ a.toInt + b.toInt < 2 ^ 63 ∨
      (a + b).toInt < 0 ∧ 2 ^ 63 ≤ a.toInt + b.toInt := by
  have ha := a.toInt_lt
  have hb := b.toInt_lt
  have hb' := b.le_toInt
  rw [Int64.toInt_add, Int.bmod_def]
  omega

theorem toInt_sub_of_nonneg {a b : Int64} (ha : 0 ≤ a.toInt) (hb : 0 ≤ b.toInt) : (a - b).toInt = a.toInt - b.toInt := by
  have ha' := a.toInt_lt
  have hb' := b.toInt_lt
  rw [Int64.toInt_sub, Int.bmod_def]
  omega

/-- The bounds check of the source lets exactly the accesses inside the file through. -/
theorem outOfFile_eq_false_iff {inode : Inode} {offset n : Int64} (hlen : inode.len < 2 ^ 63) (hoffset : 0 ≤ offset.toInt) :
    outOfFile inode offset n = false ↔ InFile inode.len offset n := by
  have hlen' : (Int64.ofNat inode.len).toInt = inode.len := Int64.toInt_ofNat_of_lt hlen
  have hlen'' : (inode.len : ℤ) < 2 ^ 63 := by exact_mod_cast hlen
  simp only [outOfFile, InFile, Bool.or_eq_false_iff, decide_eq_false_iff_not, gt_iff_lt,
    Int64.lt_iff_toInt_lt, hlen', not_lt]
  rcases toInt_add_cases (b := n) hoffset with ⟨hsum, hlt⟩ | ⟨hneg, hge⟩ <;> omega

/-! ## Every call is a call on the byte array -/

/-- The file is open on inode `i`, which is well-formed. -/
structure FileInv (i : ℕ) (s : FileState) : Prop where
  ramfsFile_eq : s.file.ramfsFile = some i
  wf : (s.fs.inodeList i).Wf

/-- The bytes of inode `i`. -/
def FileState.contents (i : ℕ) (s : FileState) : List UInt8 := (s.fs.inodeList i).contents

/-- What a call does to the file on inode `i`. -/
structure FileStep (i : ℕ) (s : FileState) (call : FileCall) (out : FileOut) (outcome : Outcome)
    (t : FileState) : Prop where
  array : ArrayStep (s.contents i) call out outcome (t.contents i)
  unchanged : outcome ≠ .done → t = s
  others : ∀ j ≠ i, t.fs.inodeList j = s.fs.inodeList j
  usage : t.fs.inodeUsage = s.fs.inodeUsage
  inv : FileInv i t

section

variable {i : ℕ} {s : FileState}

theorem FileStep.same {call : FileCall} {out : FileOut} {outcome : Outcome} (h : FileInv i s)
    (harray : ArrayStep (s.contents i) call out outcome (s.contents i)) :
    FileStep i s call out outcome s :=
  ⟨harray, fun _ => rfl, fun _ _ => rfl, rfl, h⟩

theorem FileStep.replace {call : FileCall} {out : FileOut} {inode : Inode} {file : VfsFileShared}
    (hfile : file.ramfsFile = some i) (hwf : inode.Wf)
    (harray : ArrayStep (s.contents i) call out .done inode.contents) :
    FileStep i s call out .done ⟨s.fs.setInode i inode, file⟩ where
  array := by
    rw [FileState.contents, FileState.contents, setInode_same]
    exact harray
  unchanged hne := absurd rfl hne
  others _ hj := setInode_of_ne _ _ hj
  usage := rfl
  inv := ⟨hfile, by rw [setInode_same]; exact hwf⟩

section

variable (h : FileInv i s)

include h

theorem FileInv.length_contents : (s.contents i).length = (s.fs.inodeList i).len := h.wf.length_contents

theorem rejects_iff (offset n : Int64) : (offset < 0 ∨ outOfFile (s.fs.inodeList i) offset n = true) ↔
      ¬ InFile (s.contents i).length offset n := by
  rw [h.length_contents, Int64.lt_iff_toInt_lt, Int64.toInt_zero]
  by_cases hneg : offset.toInt < 0
  · have hout : ¬ InFile (s.fs.inodeList i).len offset n := fun hin => absurd hin.1 (by omega)
    exact iff_of_true (.inl hneg) hout
  · rw [← outOfFile_eq_false_iff h.wf.len_lt (by omega), Bool.not_eq_false, or_iff_right hneg]

theorem vfsRamfsFileRead_spec (offset n : Int64) :
    InFile (s.contents i).length offset n ∧ vfsRamfsFileRead s.fs s.file offset n =
        some (.ok, some (load (s.contents i) offset.toNatClampNeg n.toNatClampNeg)) ∨
      ¬ InFile (s.contents i).length offset n ∧
        vfsRamfsFileRead s.fs s.file offset n = some (.range, none) := by
  unfold vfsRamfsFileRead
  simp only [h.ramfsFile_eq, bind_eq_bind, bind_some, pure_def]
  by_cases hin : InFile (s.contents i).length offset n
  · obtain ⟨hneg, hout⟩ := not_or.mp fun hrej => (rejects_iff h offset n).mp hrej hin
    have hload : load (s.fs.inodeList i).buf offset.toNatClampNeg n.toNatClampNeg =
        load (s.contents i) offset.toNatClampNeg n.toNatClampNeg := by
      have hoff := natCast_toNatClampNeg hin.1
      have hn := natCast_toNatClampNeg hin.2.1
      have hend := hin.2.2
      rw [h.length_contents] at hend
      exact (load_take (by omega)).symm
    rw [if_neg hneg, if_neg hout, hload]
    exact .inl ⟨hin, rfl⟩
  · refine .inr ⟨hin, ?_⟩
    rcases (rejects_iff h offset n).mpr hin with hneg | hout
    · rw [if_pos hneg]
    · rw [if_pos hout, ite_self]

theorem fileStep_read (offset n : Int64) : ∃ out t outcome, fileStep s (.read offset n) = some (out, t) ∧
      FileStep i s (.read offset n) out outcome t := by
  rcases vfsRamfsFileRead_spec h offset n with ⟨hin, heq⟩ | ⟨hout, heq⟩
  · exact ⟨_, s, .done, by simp only [fileStep, heq, map_some], .same h (.read hin)⟩
  · exact ⟨_, s, .range, by simp only [fileStep, heq, map_some], .same h (.readRange hout)⟩

theorem vfsRamfsFileWrite_spec (offset n : Int64) (writebuf : ℕ → UInt8) : (InFile (s.contents i).length offset n ∧ ∃ inode,
        vfsRamfsFileWrite s.fs s.file offset writebuf n = some (.ok, s.fs.setInode i inode) ∧
        inode.Wf ∧ inode.inode = (s.fs.inodeList i).inode ∧ inode.contents =
          store (s.contents i) offset.toNatClampNeg (bytesOf writebuf n.toNatClampNeg)) ∨
      ¬ InFile (s.contents i).length offset n ∧
        vfsRamfsFileWrite s.fs s.file offset writebuf n = some (.range, s.fs) := by
  unfold vfsRamfsFileWrite
  simp only [h.ramfsFile_eq, bind_eq_bind, bind_some, pure_def]
  by_cases hin : InFile (s.contents i).length offset n
  · obtain ⟨hneg, hout⟩ := not_or.mp fun hrej => (rejects_iff h offset n).mp hrej hin
    have hend : offset.toNatClampNeg + (bytesOf writebuf n.toNatClampNeg).length ≤
        (s.fs.inodeList i).len := by
      have hoff := natCast_toNatClampNeg hin.1
      have hn := natCast_toNatClampNeg hin.2.1
      have hend := hin.2.2
      rw [h.length_contents] at hend
      rw [bytesOf, List.length_map, List.length_range]
      omega
    have hcap : (s.fs.inodeList i).len ≤ (s.fs.inodeList i).buf.length := by
      rw [h.wf.length_buf]
      exact h.wf.len_le_cap
    have hoff : offset.toNatClampNeg ≤ (s.fs.inodeList i).cap := by
      have := h.wf.len_le_cap
      omega
    rw [if_neg hneg, if_neg hout]
    refine .inl ⟨hin, _, rfl, h.wf.store hoff, rfl, ?_⟩
    rw [Inode.contents, take_store hend hcap]
    rfl
  · refine .inr ⟨hin, ?_⟩
    rcases (rejects_iff h offset n).mpr hin with hneg | hout
    · rw [if_pos hneg]
    · rw [if_pos hout, ite_self]

theorem fileStep_write (offset n : Int64) (writebuf : ℕ → UInt8) :
    ∃ out t outcome, fileStep s (.write offset writebuf n) = some (out, t) ∧
      FileStep i s (.write offset writebuf n) out outcome t := by
  rcases vfsRamfsFileWrite_spec h offset n writebuf with
    ⟨hin, inode, heq, hwf, _, hcontents⟩ | ⟨hout, heq⟩
  · refine ⟨⟨.ok, none⟩, ⟨s.fs.setInode i inode, s.file⟩, .done, ?_, .replace h.ramfsFile_eq hwf ?_⟩
    · simp only [fileStep, heq, map_some]
    · rw [hcontents]
      exact .write hin
  · exact ⟨_, s, .range, by simp only [fileStep, heq, map_some], .same h (.writeRange hout)⟩

end

theorem Resized.contents_zeroed {inode inode' : Inode} {n : ℕ} (h : inode.Wf) (hr : Resized inode n inode') (hn : inode.len < n) :
    (store inode'.buf inode.len (List.replicate (n - inode.len) 0)).take n =
      resizeArray inode.contents n := by
  have hend : inode.len + (List.replicate (n - inode.len) (0 : UInt8)).length = n := by
    rw [List.length_replicate]
    omega
  have hcap : n ≤ inode'.buf.length := by
    rw [hr.wf.length_buf, ← hr.len_eq]
    exact hr.wf.len_le_cap
  have hstore : (store inode'.buf inode.len (List.replicate (n - inode.len) 0)).take
      (inode.len + (List.replicate (n - inode.len) (0 : UInt8)).length) =
      inode'.buf.take inode.len ++ List.replicate (n - inode.len) 0 :=
    take_store_end (hend.trans_le hcap)
  rw [hend] at hstore
  rw [hstore, hr.take_eq _ le_rfl hn.le, resizeArray, h.length_contents,
    List.take_of_length_le (h.length_contents.trans_le hn.le)]
  rfl

theorem Resized.contents_cut {inode inode' : Inode} {n : ℕ} (h : inode.Wf) (hr : Resized inode n inode') (hn : n ≤ inode.len) :
    inode'.contents = resizeArray inode.contents n := by
  rw [resizeArray, h.length_contents, Nat.sub_eq_zero_of_le hn, List.replicate_zero,
    List.append_nil, Inode.contents, Inode.contents, List.take_take, min_eq_left hn, hr.len_eq,
    hr.take_eq n hn le_rfl]

/-- `vfs_ramfs_file_resize` resizes the file and clears the new bytes, or finds no memory. -/
theorem vfsRamfsFileResize_spec (h : FileInv i s) (ec : Cause) {n : Int64} (mem : Realloc)
    (hn : 0 ≤ n.toInt) : (∃ ec' inode, vfsRamfsFileResize ec s.fs s.file n mem =
        some (ec', s.fs.setInode i inode, { s.file with size := n }) ∧ (ec' = ec ∨ ec' = .ok) ∧
        inode.Wf ∧ inode.inode = (s.fs.inodeList i).inode ∧
        inode.contents = resizeArray (s.contents i) n.toNatClampNeg) ∨
      mem = none ∧ (s.contents i).length < n.toInt ∧
        vfsRamfsFileResize ec s.fs s.file n mem = some (ec, s.fs, s.file) := by
  unfold vfsRamfsFileResize
  simp only [h.ramfsFile_eq, bind_eq_bind, bind_some, pure_def,
    Int64.lt_iff_toInt_lt, Int64.toInt_zero, gt_iff_lt, Int64.toInt_ofNat_of_lt h.wf.len_lt]
  rw [if_neg (not_lt.mpr hn)]
  have hcast := natCast_toNatClampNeg hn
  have hlt := n.toInt_lt
  obtain ⟨done, ec', inode', heq, hec, ⟨rfl, hr⟩ | ⟨rfl, rfl, hcap, rfl, rfl⟩⟩ :=
    resizeInode_spec ec mem h.wf (by omega : n.toNatClampNeg < 2 ^ 63)
  · rw [heq]
    simp only [bind_some, Bool.not_true, Bool.false_eq_true, if_false]
    refine .inl ?_
    by_cases hgrow : (s.fs.inodeList i).len < n.toInt
    · have hzeros : (n - Int64.ofNat (s.fs.inodeList i).len).toNatClampNeg =
          n.toNatClampNeg - (s.fs.inodeList i).len := by
        have hlen := Int64.toInt_ofNat_of_lt h.wf.len_lt
        rw [← Int64.toNat_toInt, toInt_sub_of_nonneg (by omega) (by omega), hlen]
        omega
      have hlen : (Int64.ofNat (s.fs.inodeList i).len).toNatClampNeg = (s.fs.inodeList i).len := by
        rw [← Int64.toNat_toInt, Int64.toInt_ofNat_of_lt h.wf.len_lt, Int.toNat_natCast]
      have hfits : (s.fs.inodeList i).len ≤ inode'.cap := by
        have hcap := hr.wf.len_le_cap
        rw [hr.len_eq] at hcap
        omega
      rw [if_pos hgrow, hzeros, hlen]
      refine ⟨_, _, rfl, hec, hr.wf.store hfits, hr.inode_eq, ?_⟩
      rw [Inode.contents, hr.len_eq, hr.contents_zeroed h.wf (by omega)]
      rfl
    · rw [if_neg hgrow]
      exact ⟨_, _, rfl, hec, hr.wf, hr.inode_eq, hr.contents_cut h.wf (by omega)⟩
  · rw [heq]
    simp only [bind_some, Bool.not_false, if_true, setInode_self]
    refine .inr ⟨trivial, ?_, trivial⟩
    have hlen := h.wf.len_le_cap
    rw [h.length_contents]
    omega

theorem fileStep_resize (h : FileInv i s) (ec : Cause) (n : Int64) (mem : Realloc) :
    ∃ out t outcome, fileStep s (.resize ec n mem) = some (out, t) ∧
      FileStep i s (.resize ec n mem) out outcome t := by
  by_cases hneg : n.toInt < 0
  · have heq : vfsRamfsFileResize ec s.fs s.file n mem = some (.range, s.fs, s.file) :=
      if_pos (Int64.lt_iff_toInt_lt.mpr hneg)
    exact ⟨_, s, .range, by simp only [fileStep, heq, map_some], .same h (.resizeRange hneg)⟩
  rcases vfsRamfsFileResize_spec h ec mem (not_lt.mp hneg) with
    ⟨ec', inode, heq, hec, hwf, _, hcontents⟩ | ⟨rfl, hlen, heq⟩
  · refine ⟨⟨ec', none⟩, ⟨s.fs.setInode i inode, { s.file with size := n }⟩, .done, ?_,
      .replace h.ramfsFile_eq hwf ?_⟩
    · simp only [fileStep, heq, map_some]
    · rw [hcontents]
      exact .resize (not_lt.mp hneg) hec
  · exact ⟨_, s, .failed, by simp only [fileStep, heq, map_some], .same h (.resizeFailed hlen)⟩

theorem fileStep_spec (h : FileInv i s) (call : FileCall) :
    ∃ out t outcome, fileStep s call = some (out, t) ∧ FileStep i s call out outcome t := by
  cases call with
  | read offset n => exact fileStep_read h offset n
  | write offset writebuf n => exact fileStep_write h offset n writebuf
  | resize ec n mem => exact fileStep_resize h ec n mem

end

/-- A file of the RAM filesystem behaves as a byte array. In every run of reads, writes and
    resizes the outputs are those of a run on the array of its bytes, and the length never
    exceeds the capacity. Every further call returns; it is a step of the array, and it
    changes nothing when it reports `RANGE` or finds no memory. -/
theorem ramfs_file_is_byte_array {i : ℕ} {s t : FileState} {calls : List FileCall}
    {outs : List FileOut} (h : FileInv i s)
    (hrun : Trace fileStep (fun _ _ => True) s calls outs t) :
    (t.fs.inodeList i).len ≤ (t.fs.inodeList i).cap ∧
      Behaviour ArraySpec (s.contents i) calls outs (t.contents i) ∧
      ∀ call, ∃ out u outcome, fileStep t call = some (out, u) ∧
        FileStep i t call out outcome u := by
  have hstep : ∀ {s t : FileState} {call : FileCall} {out : FileOut}, FileInv i s → True →
      fileStep s call = some (out, t) →
      FileInv i t ∧ ArraySpec (s.contents i) call out (t.contents i) := by
    intro s t call out hinv _ heq
    obtain ⟨out', t', outcome, heq', hspec⟩ := fileStep_spec hinv call
    obtain ⟨rfl, rfl⟩ : out' = out ∧ t' = t := by
      rw [heq'] at heq
      exact Prod.mk.inj (some.inj heq)
    exact ⟨hspec.inv, outcome, hspec.array⟩
  obtain ⟨ht, hrun'⟩ := hrun.refines hstep h
  exact ⟨ht.wf.len_le_cap, hrun', fileStep_spec ht⟩

/-- An open file that has just been created. -/
def freshFile : FileState :=
  ⟨⟨fun i => newInode i .reg, fun _ => true, 32⟩, ⟨1, 0, 0, some 2, 2, some 0⟩⟩

/-- A file grows to five bytes, is written and read, is read past its end, and cannot grow to
    nine bytes. -/
theorem ramfs_file_is_byte_array_fresh :
    ∃ t, Trace fileStep (fun _ _ => True) freshFile
        [.resize .ok 5 (some fun _ => 255), .write 1 (fun _ => 7) 2, .read 0 5, .read 4 2,
          .resize .ok 9 none]
        [⟨.ok, none⟩, ⟨.ok, none⟩, ⟨.ok, some [0, 7, 7, 0, 0]⟩, ⟨.range, none⟩, ⟨.ok, none⟩] t ∧
      (t.fs.inodeList 2).len ≤ (t.fs.inodeList 2).cap ∧ t.contents 2 = [0, 7, 7, 0, 0] ∧
      ∀ call, ∃ out u outcome, fileStep t call = some (out, u) ∧
        FileStep 2 t call out outcome u := by
  have hinv : FileInv 2 freshFile := ⟨rfl, ⟨le_rfl, rfl, by decide⟩⟩
  obtain ⟨t, hrun, hcontents⟩ : ∃ t, Trace fileStep (fun _ _ => True) freshFile
      [.resize .ok 5 (some fun _ => 255), .write 1 (fun _ => 7) 2, .read 0 5, .read 4 2,
        .resize .ok 9 none]
      [⟨.ok, none⟩, ⟨.ok, none⟩, ⟨.ok, some [0, 7, 7, 0, 0]⟩, ⟨.range, none⟩, ⟨.ok, none⟩] t ∧
      t.contents 2 = [0, 7, 7, 0, 0] :=
    ⟨_, .cons trivial rfl <| .cons trivial rfl <| .cons trivial rfl <| .cons trivial rfl <|
      .cons trivial rfl <| .nil _, rfl⟩
  obtain ⟨hlen, _, hnext⟩ := ramfs_file_is_byte_array hinv hrun
  exact ⟨t, hrun, hlen, hcontents, hnext⟩

end BadgerOS.Filesystem

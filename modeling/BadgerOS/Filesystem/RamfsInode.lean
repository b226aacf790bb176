import BadgerOS.Filesystem.Ramfs

/-!
# Inodes of the RAM filesystem

* `Inode.Wf`, `Inode.contents`: the length, the capacity and the buffer of an inode fit
  together; the bytes that it holds.
* `resizeInode_spec`: what `resize_inode` does to a well-formed inode.
-/

namespace BadgerOS.Filesystem

open Buffer List

/-! ## The inode table -/

@[simp] theorem setInode_self (fs : Ramfs) (i : ℕ) : fs.setInode i (fs.inodeList i) = fs := by
  rw [Ramfs.setInode, Function.update_eq_self]

@[simp] theorem setInode_setInode (fs : Ramfs) (i : ℕ) (a b : Inode) :
    (fs.setInode i a).setInode i b = fs.setInode i b := by
  simp [Ramfs.setInode]

@[simp] theorem setInode_same (fs : Ramfs) (i : ℕ) (inode : Inode) :
    (fs.setInode i inode).inodeList i = inode := Function.update_self ..

@[simp] theorem inodeList_setUsage (fs : Ramfs) (i : ℕ) (used : Bool) :
    (fs.setUsage i used).inodeList = fs.inodeList := rfl

@[simp] theorem setInode_of_ne (fs : Ramfs) {i j : ℕ} (inode : Inode) (h : j ≠ i) :
    (fs.setInode i inode).inodeList j = fs.inodeList j := Function.update_of_ne h ..

/-! ## Resizing -/

/-- The buffer of an inode has the recorded capacity and holds the recorded length. -/
structure Inode.Wf (inode : Inode) : Prop where
  len_le_cap : inode.len ≤ inode.cap
  length_buf : inode.buf.length = inode.cap
  len_lt : inode.len < 2 ^ 63

/-- The bytes of a file. -/
def Inode.contents (inode : Inode) : List UInt8 := inode.buf.take inode.len

variable {inode : Inode} {size : ℕ}

theorem Inode.Wf.length_contents (h : inode.Wf) : inode.contents.length = inode.len := by
  rw [Inode.contents, length_take, h.length_buf]
  exact min_eq_left h.len_le_cap

theorem Inode.Wf.store {off : ℕ} {xs : List UInt8} (h : inode.Wf) (hoff : off ≤ inode.cap) :
    { inode with buf := store inode.buf off xs : Inode }.Wf :=
  ⟨h.len_le_cap, (length_store (h.length_buf ▸ hoff)).trans h.length_buf, h.len_lt⟩

theorem growCap_spec (hsize : size < 2 ^ 63) (rounds k : ℕ) (hk : k + rounds = 63) :
    ∃ cap, growCap (rounds + 1) (2 ^ k) size = some cap ∧ size ≤ cap := by
  induction rounds generalizing k with
  | zero =>
    obtain rfl : k = 63 := by omega
    exact ⟨2 ^ 63, by rw [growCap, if_neg (by omega)], by omega⟩
  | succ rounds ih =>
    rw [growCap]
    by_cases hlt : 2 ^ k < size
    · have hpow : 2 ^ k * 2 % 2 ^ 64 = 2 ^ (k + 1) := by
        rw [← pow_succ]
        exact Nat.mod_eq_of_lt (Nat.pow_lt_pow_right (by norm_num) (by omega))
      rw [if_pos hlt, hpow]
      exact ih (k + 1) (by omega)
    · rw [if_neg hlt]
      exact ⟨2 ^ k, rfl, by omega⟩

theorem length_reallocBuf (buf : List UInt8) (cap : ℕ) (fill : ℕ → UInt8) : (reallocBuf buf cap fill).length = cap := by
  rw [reallocBuf, length_append, length_take, length_map, length_range]
  omega

theorem take_reallocBuf {buf : List UInt8} {cap n : ℕ} (fill : ℕ → UInt8) (hcap : n ≤ cap)
    (hbuf : n ≤ buf.length) : (reallocBuf buf cap fill).take n = buf.take n := by
  rw [reallocBuf, take_append_of_le_length (by rw [length_take]; omega), take_take,
    min_eq_left hcap]

/-- `inode'` is `inode` resized to `size` bytes; what new bytes hold is not said. -/
structure Resized (inode : Inode) (size : ℕ) (inode' : Inode) : Prop where
  wf : inode'.Wf
  len_eq : inode'.len = size
  take_eq : ∀ n ≤ inode.len, n ≤ size → inode'.buf.take n = inode.buf.take n
  inode_eq : inode'.inode = inode.inode
  mode_eq : inode'.mode = inode.mode
  links_eq : inode'.links = inode.links

theorem Resized.keep (h : inode.Wf) (hsize : size < 2 ^ 63) (hcap : size ≤ inode.cap) :
    Resized inode size { inode with len := size } where
  wf := ⟨hcap, h.length_buf, hsize⟩
  len_eq := rfl
  take_eq _ _ _ := rfl
  inode_eq := rfl
  mode_eq := rfl
  links_eq := rfl

theorem Resized.move {cap : ℕ} (fill : ℕ → UInt8) (h : inode.Wf) (hsize : size < 2 ^ 63)
    (hcap : size ≤ cap) : Resized inode size
      { inode with cap := cap, buf := reallocBuf inode.buf cap fill, len := size } where
  wf := ⟨hcap, length_reallocBuf _ _ _, hsize⟩
  len_eq := rfl
  take_eq n hn hn' := by
    have hbuf : n ≤ inode.buf.length := by
      rw [h.length_buf]
      exact hn.trans h.len_le_cap
    exact take_reallocBuf fill (hn'.trans hcap) hbuf
  inode_eq := rfl
  mode_eq := rfl
  links_eq := rfl

/-- `resize_inode` resizes the inode, or finds no memory for more than `cap` bytes and
    leaves it alone. It never reports an error. -/
theorem resizeInode_spec (ec : Cause) (mem : Realloc) (h : inode.Wf) (hsize : size < 2 ^ 63) :
    ∃ done ec' inode', resizeInode ec inode size mem = some (done, ec', inode') ∧
      (ec' = ec ∨ ec' = .ok) ∧
      (done = true ∧ Resized inode size inode' ∨
        done = false ∧ mem = none ∧ inode.cap < size ∧ ec' = ec ∧ inode' = inode) := by
  have hmod : 2 * size % 2 ^ 64 = 2 * size := Nat.mod_eq_of_lt (by omega)
  unfold resizeInode
  rw [hmod]
  by_cases hshrink : inode.cap ≥ 2 * size
  · rw [if_pos hshrink]
    rcases mem with _ | fill
    · by_cases hzero : inode.cap / 2 = 0
      · obtain rfl : size = 0 := by omega
        have hbuf : ([] : List UInt8) = reallocBuf inode.buf (inode.cap / 2) fun _ => 0 := by
          rw [reallocBuf, hzero, take_zero, Nat.zero_sub, range_zero, map_nil, append_nil]
        simp only [if_pos hzero]
        refine ⟨_, _, _, rfl, .inl rfl, .inl ⟨rfl, ?_⟩⟩
        rw [hbuf]
        exact .move _ h hsize (Nat.zero_le _)
      · simp only [if_neg hzero]
        exact ⟨_, _, _, rfl, .inl rfl, .inl ⟨rfl, .keep h hsize (by omega)⟩⟩
    · exact ⟨_, _, _, rfl, .inl rfl, .inl ⟨rfl, .move fill h hsize (by omega)⟩⟩
  · rw [if_neg hshrink]
    by_cases hfits : inode.cap ≥ size
    · rw [if_pos hfits]
      exact ⟨_, _, _, rfl, .inr rfl, .inl ⟨rfl, .keep h hsize hfits⟩⟩
    · obtain ⟨cap, hgrow, hcap⟩ := growCap_spec hsize 63 0 rfl
      rw [pow_zero] at hgrow
      rw [if_neg hfits, hgrow]
      rcases mem with _ | fill
      · exact ⟨_, _, _, rfl, .inl rfl, .inr ⟨rfl, rfl, by omega, rfl, rfl⟩⟩
      · exact ⟨_, _, _, rfl, .inl rfl, .inl ⟨rfl, .move fill h hsize hcap⟩⟩

theorem resizeInode_nomem (ec : Cause) (hcap : inode.cap < size) (hsize : size < 2 ^ 63) :
    resizeInode ec inode size none = some (false, ec, inode) := by
  obtain ⟨cap, hgrow, _⟩ := growCap_spec hsize 63 0 rfl
  rw [pow_zero] at hgrow
  rw [resizeInode, if_neg (by omega), if_neg (by omega), hgrow]

end BadgerOS.Filesystem

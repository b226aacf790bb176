import Mathlib.Data.Nat.Bitwise
import Mathlib.Tactic

/-!
# Tilings by dyadic blocks

A dyadic block of order `k` is an interval `[i, i + 2^k)` with `2^k ∣ i`. A
partial map `B : ℕ → Option ℕ` from first elements to orders is a tiling of
`[0, 2^M)` when its blocks are dyadic, disjoint and cover the interval.

* `Tiling.whole`: the single block of order `M` is a tiling.
* `Tiling.replace`: a tiling may be re-tiled inside an interval that no block
  straddles. `Tiling.split` and `Tiling.merge` are its two instances: halving a
  block and joining two buddies. The buddy of block `i` of order `k` is
  `i ^^^ 2^k`.
* `Tiling.buddy_lt`: except for the whole interval, the buddy of a block lies
  inside the interval.
* `Tiling.eq_single`: a tiling without a pair of buddies is the single block.
-/

namespace Dyadic

open Function Nat

/-- `B` tiles `[0, 2^M)`: `B i = some k` says that a block of order `k` starts at `i`. -/
structure Tiling (M : ℕ) (B : ℕ → Option ℕ) : Prop where
  aligned : ∀ {i k}, B i = some k → 2 ^ k ∣ i
  bounded : ∀ {i k}, B i = some k → i + 2 ^ k ≤ 2 ^ M
  disjoint : ∀ {i j k l}, B i = some k → B j = some l → i < j → i + 2 ^ k ≤ j
  cover : ∀ {x}, x < 2 ^ M → ∃ i k, B i = some k ∧ i ≤ x ∧ x < i + 2 ^ k

/-! ## Buddies -/

/-- The buddy of an aligned block is its right or its left neighbour, and the
    left one of the two is aligned to the next order. -/
theorem xor_two_pow_cases {i k : ℕ} (h : 2 ^ k ∣ i) : (i ^^^ 2 ^ k = i + 2 ^ k ∧ 2 ^ (k + 1) ∣ i) ∨
      ((i ^^^ 2 ^ k) + 2 ^ k = i ∧ 2 ^ (k + 1) ∣ (i ^^^ 2 ^ k)) := by
  obtain ⟨q, rfl⟩ := h
  have hx : 2 ^ k * q ^^^ 2 ^ k = 2 ^ k * (q ^^^ 1) := by
    have := shiftLeft_xor_distrib (a := q) (b := 1) (i := k)
    simpa [shiftLeft_eq, Nat.mul_comm] using this.symm
  rw [hx, pow_succ]
  rcases even_or_odd q with hq | hq
  · left
    rw [xor_one_of_even hq]
    exact ⟨by ring, Nat.mul_dvd_mul_left _ hq.two_dvd⟩
  · right
    obtain ⟨m, rfl⟩ := hq
    rw [xor_one_of_odd ⟨m, rfl⟩, Nat.add_sub_cancel]
    exact ⟨by ring, Nat.mul_dvd_mul_left _ ⟨m, rfl⟩⟩

theorem dvd_xor_two_pow {i k : ℕ} (h : 2 ^ k ∣ i) : 2 ^ k ∣ i ^^^ 2 ^ k := by
  rcases xor_two_pow_cases h with ⟨he, -⟩ | ⟨-, hd⟩
  · rw [he]
    exact (Nat.dvd_add_right h).mpr dvd_rfl
  · exact (pow_dvd_pow 2 (le_succ k)).trans hd

/-- The buddy of the left half of a larger block is the right half. -/
theorem xor_two_pow_of_dvd {i k : ℕ} (h : 2 ^ (k + 1) ∣ i) : i ^^^ 2 ^ k = i + 2 ^ k := by
  have hpos := Nat.two_pow_pos k
  rcases xor_two_pow_cases ((pow_dvd_pow 2 (le_succ k)).trans h) with ⟨he, -⟩ | ⟨he, hd⟩
  · exact he
  · -- a left buddy of `i` would make `2^k` a multiple of `2^(k+1)`
    exfalso
    have hdvd : 2 ^ (k + 1) ∣ 2 ^ k := (Nat.dvd_add_right hd).mp (by rw [he]; exact h)
    have := le_of_dvd hpos hdvd
    rw [pow_succ] at this
    omega

theorem xor_two_pow_ne (i k : ℕ) : i ^^^ 2 ^ k ≠ i := by
  intro h
  have := congrArg (fun n => n.testBit k) h
  simp [testBit_xor, testBit_two_pow_self] at this

/-- Two multiples of `d` with the smaller one strictly below are `d` apart. -/
theorem add_le_of_dvd_of_lt {d a b : ℕ} (ha : d ∣ a) (hb : d ∣ b) (h : a < b) : a + d ≤ b :=
  le_of_lt_add_of_dvd (Nat.add_lt_add_right h d) (ha.add dvd_rfl) hb

namespace Tiling

variable {M : ℕ} {B : ℕ → Option ℕ}

theorem congr {B' : ℕ → Option ℕ} (h : Tiling M B) (hB : B' = B) : Tiling M B' := hB ▸ h

theorem order_le (h : Tiling M B) {i k : ℕ} (hi : B i = some k) : k ≤ M := by
  have := h.bounded hi
  exact (Nat.pow_le_pow_iff_right (by norm_num : 1 < 2)).mp (by omega)

theorem lt (h : Tiling M B) {i k : ℕ} (hi : B i = some k) : i < 2 ^ M := by
  have := h.bounded hi
  have := Nat.two_pow_pos k
  omega

theorem whole (M : ℕ) : Tiling M (fun i => if i = 0 then some M else none) where
  aligned := by
    intro i k hi
    split_ifs at hi with h0
    simp [h0]
  bounded := by
    intro i k hi
    split_ifs at hi with h0
    cases hi; omega
  disjoint := by
    intro i j k l hi hj hij
    split_ifs at hi hj with h0 h1
    omega
  cover := by
    intro x hx
    exact ⟨0, M, by simp, Nat.zero_le _, by omega⟩

section

variable (h : Tiling M B) {i k : ℕ}

include h

/-- A block of order below `M` has its buddy inside the interval. -/
theorem buddy_lt (hi : B i = some k) (hk : k < M) : (i ^^^ 2 ^ k) + 2 ^ k ≤ 2 ^ M := by
  have hb := h.bounded hi
  have hdvd : 2 ^ (k + 1) ∣ 2 ^ M := pow_dvd_pow 2 hk
  rcases xor_two_pow_cases (h.aligned hi) with ⟨he, hd⟩ | ⟨he, hd⟩
  · have hlt : i < 2 ^ M := by have := Nat.two_pow_pos k; omega
    have := add_le_of_dvd_of_lt hd hdvd hlt
    rw [he]
    rw [pow_succ] at this
    omega
  · omega

/-- The block that starts at `i` is the only one that meets its elements. -/
theorem start_unique {i j k l : ℕ} (hi : B i = some k) (hj : B j = some l) (h1 : i < j + 2 ^ l)
    (h2 : j < i + 2 ^ k) : i = j := by
  rcases Nat.lt_trichotomy i j with hlt | heq | hlt
  · have := h.disjoint hi hj hlt; omega
  · exact heq
  · have := h.disjoint hj hi hlt; omega

theorem none_inside {i k j : ℕ} (hi : B i = some k) (h1 : i < j) (h2 : j < i + 2 ^ k) : B j = none := by
  by_contra hne
  obtain ⟨l, hl⟩ := Option.ne_none_iff_exists'.mp hne
  have := h.disjoint hi hl h1
  omega

/-- Re-tiling the interval `[a, c)`: `B'` agrees with `B` outside, no block of
    `B` straddles the ends, and the blocks of `B'` inside tile `[a, c)`. -/
theorem replace {B' : ℕ → Option ℕ} {a c : ℕ} (hc : c ≤ 2 ^ M) (hout : ∀ {j}, j < a ∨ c ≤ j → B' j = B j)
    (hpre : ∀ {j l}, B j = some l → j < a → j + 2 ^ l ≤ a)
    (hin : ∀ {j l}, B j = some l → a ≤ j → j < c → j + 2 ^ l ≤ c)
    (hal : ∀ {j l}, B' j = some l → a ≤ j → j < c → 2 ^ l ∣ j ∧ j + 2 ^ l ≤ c)
    (hdis : ∀ {j j' l l'}, B' j = some l → B' j' = some l' → a ≤ j → j < j' → j' < c → j + 2 ^ l ≤
      j')
    (hcov : ∀ {x}, a ≤ x → x < c → ∃ i k, B' i = some k ∧ i ≤ x ∧ x < i + 2 ^ k) : Tiling M B' := by
  constructor
  · intro j l hj
    by_cases hI : a ≤ j ∧ j < c
    · exact (hal hj hI.1 hI.2).1
    · rw [hout (by omega)] at hj
      exact h.aligned hj
  · intro j l hj
    by_cases hI : a ≤ j ∧ j < c
    · have := (hal hj hI.1 hI.2).2
      omega
    · rw [hout (by omega)] at hj
      exact h.bounded hj
  · intro j j' l l' hj hj' hlt
    by_cases hI : a ≤ j ∧ j < c
    · by_cases hI' : j' < c
      · exact hdis hj hj' hI.1 hlt hI'
      · have := (hal hj hI.1 hI.2).2
        omega
    · rw [hout (by omega)] at hj
      by_cases hI' : a ≤ j' ∧ j' < c
      · have := hpre hj (by omega)
        omega
      · rw [hout (by omega)] at hj'
        exact h.disjoint hj hj' hlt
  · intro x hx
    by_cases hI : a ≤ x ∧ x < c
    · exact hcov hI.1 hI.2
    · obtain ⟨j, l, hj, h1, h2⟩ := h.cover hx
      have hj' : j < a ∨ c ≤ j := by
        by_contra hin'
        have := hin hj (by omega) (by omega)
        omega
      exact ⟨j, l, by rw [hout hj']; exact hj, h1, h2⟩

theorem split (hi : B i = some (k + 1)) : Tiling M (update (update B i (some k)) (i + 2 ^ k) (some k)) := by
  have hpow : 2 ^ (k + 1) = 2 ^ k + 2 ^ k := by ring
  have hpos := Nat.two_pow_pos k
  have hdvd : 2 ^ k ∣ i := (pow_dvd_pow 2 (le_succ k)).trans (h.aligned hi)
  -- inside the old block only the two halves start
  have hinside : ∀ {j l}, update (update B i (some k)) (i + 2 ^ k) (some k) j =
      some l → i ≤ j → j < i + 2 ^ (k + 1) → l = k ∧ (j = i ∨ j = i + 2 ^ k) := by
    intro j l hj h1 h2
    by_cases hr : j = i + 2 ^ k
    · subst hr; simp at hj; exact ⟨hj.symm, .inr rfl⟩
    · rw [update_of_ne hr] at hj
      by_cases hl : j = i
      · subst hl; simp at hj; exact ⟨hj.symm, .inl rfl⟩
      · rw [update_of_ne hl, h.none_inside hi (by omega) h2] at hj
        cases hj
  apply h.replace (a := i) (c := i + 2 ^ (k + 1)) (h.bounded hi)
  · intro j hj
    rw [update_of_ne (by omega), update_of_ne (by omega)]
  · intro j l hj hlt
    exact h.disjoint hj hi hlt
  · intro j l hj h1 h2
    by_cases hji : j = i
    · subst hji; rw [hi] at hj; cases hj; exact le_rfl
    · rw [h.none_inside hi (by omega) h2] at hj
      cases hj
  · intro j l hj h1 h2
    obtain ⟨rfl, rfl | rfl⟩ := hinside hj h1 h2
    · exact ⟨hdvd, by omega⟩
    · exact ⟨(Nat.dvd_add_right hdvd).mpr dvd_rfl, by omega⟩
  · intro j j' l l' hj hj' h1 hlt h2
    obtain ⟨rfl, hjc⟩ := hinside hj h1 (by omega)
    obtain ⟨-, hjc'⟩ := hinside hj' (by omega) h2
    omega
  · intro x h1 h2
    by_cases hx : x < i + 2 ^ k
    · exact ⟨i, k, by rw [update_of_ne (by omega)]; simp, h1, hx⟩
    · exact ⟨i + 2 ^ k, k, by simp, by omega, by omega⟩

theorem join (hi : B i = some k) (hr : B (i + 2 ^ k) = some k) (hal : 2 ^ (k + 1) ∣ i) :
    Tiling M (update (update B (i + 2 ^ k) none) i (some (k + 1))) := by
  have hpow : 2 ^ (k + 1) = 2 ^ k + 2 ^ k := by ring
  have hpos := Nat.two_pow_pos k
  have hbd := h.bounded hr
  -- the joined block is the only one that starts inside itself
  have hnone : ∀ {j}, i < j → j < i + 2 ^ (k + 1) →
      update (update B (i + 2 ^ k) none) i (some (k + 1)) j = none := by
    intro j h1 h2
    rw [update_of_ne (by omega)]
    by_cases hj : j = i + 2 ^ k
    · subst hj; simp
    · rw [update_of_ne hj]
      rcases Nat.lt_or_gt_of_ne hj with hlt | hgt
      · exact h.none_inside hi h1 hlt
      · exact h.none_inside hr hgt (by omega)
  apply h.replace (a := i) (c := i + 2 ^ (k + 1)) (by omega)
  · intro j hj
    rw [update_of_ne (by omega), update_of_ne (by omega)]
  · intro j l hj hlt
    exact h.disjoint hj hi hlt
  · intro j l hj h1 h2
    rcases Nat.lt_trichotomy j (i + 2 ^ k) with hlt | rfl | hgt
    · have := h.disjoint hj hr hlt; omega
    · rw [hr] at hj; cases hj; omega
    · rw [h.none_inside hr hgt (by omega)] at hj
      cases hj
  · intro j l hj h1 h2
    by_cases hji : j = i
    · subst hji; simp at hj; subst hj; exact ⟨hal, le_rfl⟩
    · rw [hnone (by omega) h2] at hj
      cases hj
  · intro j j' l l' hj hj' h1 hlt h2
    rw [hnone (by omega) h2] at hj'
    cases hj'
  · intro x h1 h2
    exact ⟨i, k + 1, by simp, h1, h2⟩

/-- Joining a block with its buddy: the left one of the two grows, the right one disappears. -/
theorem merge (hi : B i = some k) (hb : B (i ^^^ 2 ^ k) = some k) :
    Tiling M (update (update B (max i (i ^^^ 2 ^ k)) none)
      (min i (i ^^^ 2 ^ k)) (some (k + 1))) := by
  have hpos := Nat.two_pow_pos k
  rcases xor_two_pow_cases (h.aligned hi) with ⟨he, hd⟩ | ⟨he, hd⟩
  · rw [he] at hb ⊢
    rw [max_eq_right (by omega), min_eq_left (by omega)]
    exact h.join hi hb hd
  · rw [max_eq_left (by omega), min_eq_right (by omega)]
    have hi' : B ((i ^^^ 2 ^ k) + 2 ^ k) = some k := by rw [he]; exact hi
    have := h.join hb hi' hd
    rwa [he] at this

theorem order_lt_of_ne {i j k l : ℕ} (hi : B i = some k) (hj : B j = some l) (hne : i ≠ j) : k < M := by
  refine lt_of_le_of_ne (h.order_le hi) ?_
  rintro rfl
  have hend := h.bounded hi
  have hlt := h.lt hj
  have hpos := Nat.two_pow_pos l
  exact hne (h.start_unique hi hj (by omega) (by omega))

/-- A block starts where the buddy of a block below the top order does, though it can be smaller. -/
theorem buddy_start (hi : B i = some k) (hk : k < M) : ∃ l ≤ k, B (i ^^^ 2 ^ k) = some l := by
  have hpos : 0 < 2 ^ k := Nat.two_pow_pos k
  have hdouble : 2 ^ (k + 1) = 2 * 2 ^ k := Nat.pow_succ'
  obtain ⟨j, l, hj, hle, hlt⟩ := h.cover (x := i ^^^ 2 ^ k) (by have := h.buddy_lt hi hk; omega)
  have hlk : l ≤ k := by
    by_contra hkl
    -- a larger block would contain the block at `i` too
    replace hkl := not_le.mp hkl
    have halign : 2 ^ (k + 1) ∣ j := (pow_dvd_pow 2 hkl).trans (h.aligned hj)
    have halign' : 2 ^ (k + 1) ∣ j + 2 ^ l := halign.add (pow_dvd_pow 2 hkl)
    rcases xor_two_pow_cases (h.aligned hi) with ⟨hright, hal⟩ | ⟨hleft, hal⟩
    · have hji : j ≤ i := by
        by_contra hlt'
        have := add_le_of_dvd_of_lt hal halign (by omega)
        omega
      have heq := h.start_unique hi hj (by omega) (by omega)
      subst heq
      exact hkl.ne (Option.some.inj (hi.symm.trans hj))
    · have := add_le_of_dvd_of_lt hal halign' hlt
      have heq := h.start_unique hi hj (by omega) (by omega)
      omega
  suffices heq : j = i ^^^ 2 ^ k from ⟨l, hlk, heq ▸ hj⟩
  by_contra hne
  have halign : 2 ^ l ∣ i ^^^ 2 ^ k := (pow_dvd_pow 2 hlk).trans (dvd_xor_two_pow (h.aligned hi))
  have := add_le_of_dvd_of_lt (h.aligned hj) halign (by omega)
  omega

/-- A tiling in which no block has its buddy beside it, as a block of the same order,
    is the interval as a single block: where the buddy of a smallest block starts there would be
    a block that is not larger. -/
theorem eq_single (hapart : ∀ {i k}, B i = some k → B (i ^^^ 2 ^ k) ≠ some k) (hi : B i = some k) :
    i = 0 ∧ k = M := by
  classical
  have hex : ∃ l j, B j = some l := ⟨k, i, hi⟩
  obtain ⟨a, ha⟩ := Nat.find_spec hex
  have hmin : ∀ {j l}, B j = some l → Nat.find hex ≤ l := fun hj => Nat.find_min' hex ⟨_, hj⟩
  generalize Nat.find hex = n at ha hmin
  have hn : ¬ n < M := by
    intro hlt
    obtain ⟨l, hle, hl⟩ := h.buddy_start ha hlt
    obtain rfl : l = n := le_antisymm hle (hmin hl)
    exact hapart ha hl
  have hk : k = M := le_antisymm (h.order_le hi) ((not_lt.mp hn).trans (hmin hi))
  have := h.bounded hi
  subst hk
  exact ⟨by omega, rfl⟩

end

end Tiling

end Dyadic

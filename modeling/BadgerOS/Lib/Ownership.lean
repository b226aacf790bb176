import Mathlib.Tactic

/-!
# Lists that share no element

A family of lists, one for each owner, in which every element occurs at most once
altogether. Elements are moved from one list to another.

* `Exclusive`: no list has a duplicate and no two lists share an element.
* `Exclusive.take`, `Exclusive.put`, `Exclusive.move`, `Exclusive.merge`: the changes that
  keep it.
* `mem_move_iff`: where the elements are after a move.
-/

variable {κ τ : Type*}

/-- Every element is in at most one list, and there only once. -/
structure Exclusive (lists : κ → List τ) : Prop where
  nodup : ∀ k, (lists k).Nodup
  unique : ∀ {k k' x}, x ∈ lists k → x ∈ lists k' → k = k'

namespace Exclusive

open Function List

variable {lists : κ → List τ} {k k' : κ} {x y : τ} {l l' : List τ}

theorem notMem (h : Exclusive lists) (hx : x ∈ lists k) (hk : k' ≠ k) : x ∉ lists k' :=
  fun hx' => hk (h.unique hx' hx)

variable [DecidableEq κ]

section

variable (h : Exclusive lists)

include h

/-- The elements of a list are permuted, or some of them are dropped. -/
theorem subperm (hl : l.Nodup) (hsub : l ⊆ lists k) : Exclusive (update lists k l) := by
  have hmem : ∀ {q y}, y ∈ update lists k l q → y ∈ lists q := by
    intro q y hy
    rcases eq_or_ne q k with rfl | hq
    · rw [update_self] at hy
      exact hsub hy
    · rwa [update_of_ne hq] at hy
  constructor
  · intro q
    rcases eq_or_ne q k with rfl | hq
    · rwa [update_self]
    · rw [update_of_ne hq]
      exact h.nodup q
  · intro q q' y hy hy'
    exact h.unique (hmem hy) (hmem hy')

theorem take (hl : (x :: l).Perm (lists k)) : Exclusive (update lists k l) := by
  have hnodup : (x :: l).Nodup := hl.nodup_iff.mpr (h.nodup k)
  apply h.subperm (nodup_cons.mp hnodup).2
  intro y hy
  exact hl.subset (mem_cons_of_mem x hy)

/-- An element that has left its list is nowhere. -/
theorem notMem_take (hl : (x :: l).Perm (lists k)) (q : κ) : x ∉ update lists k l q := by
  have hnodup : (x :: l).Nodup := hl.nodup_iff.mpr (h.nodup k)
  have hx : x ∈ lists k := hl.subset mem_cons_self
  rcases eq_or_ne q k with rfl | hq
  · rw [update_self]
    exact (nodup_cons.mp hnodup).1
  · rw [update_of_ne hq]
    exact h.notMem hx hq

theorem put (hx : ∀ q, x ∉ lists q) (hl : l.Perm (x :: lists k)) : Exclusive (update lists k l) := by
  have hmem : ∀ {q y}, y ∈ update lists k l q → (y = x ∧ q = k) ∨ y ∈ lists q := by
    intro q y hy
    rcases eq_or_ne q k with rfl | hq
    · rw [update_self] at hy
      exact (mem_cons.mp (hl.subset hy)).imp (fun h => ⟨h, rfl⟩) id
    · rw [update_of_ne hq] at hy
      exact .inr hy
  constructor
  · intro q
    rcases eq_or_ne q k with rfl | hq
    · rw [update_self]
      exact hl.nodup_iff.mpr (nodup_cons.mpr ⟨hx q, h.nodup q⟩)
    · rw [update_of_ne hq]
      exact h.nodup q
  · intro q q' y hy hy'
    rcases hmem hy with ⟨rfl, rfl⟩ | hold
    · rcases hmem hy' with ⟨_, rfl⟩ | hold'
      · rfl
      · exact absurd hold' (hx q')
    · rcases hmem hy' with ⟨rfl, rfl⟩ | hold'
      · exact absurd hold (hx q)
      · exact h.unique hold hold'

theorem move (hk : k' ≠ k) (hl : (x :: l).Perm (lists k)) (hl' : l'.Perm (x :: lists k')) :
    Exclusive (update (update lists k l) k' l') := by
  apply (h.take hl).put (h.notMem_take hl)
  rwa [update_of_ne hk]

theorem mem_move_iff (hk : k' ≠ k) (hl : (x :: l).Perm (lists k)) (hl' : l'.Perm (x :: lists k'))
    {q : κ} : y ∈ update (update lists k l) k' l' q ↔ (y = x ∧ q = k') ∨ (y ≠ x ∧ y ∈ lists q) := by
  have hx : x ∈ lists k := hl.subset mem_cons_self
  have hnodup : (x :: l).Nodup := hl.nodup_iff.mpr (h.nodup k)
  rcases eq_or_ne q k' with rfl | hq
  · rw [update_self, hl'.mem_iff, mem_cons]
    have hx' : x ∉ lists q := h.notMem hx hk
    grind
  · rw [update_of_ne hq]
    rcases eq_or_ne q k with rfl | hqk
    · rw [update_self, ← hl.mem_iff, mem_cons]
      have hxl : x ∉ l := (nodup_cons.mp hnodup).1
      grind
    · rw [update_of_ne hqk]
      have hxq : x ∉ lists q := h.notMem hx hqk
      grind

theorem merge (hk : k' ≠ k) (hl : l.Perm (lists k ++ lists k')) :
    Exclusive (update (update lists k l) k' []) := by
  have hmem : ∀ {q y}, y ∈ update (update lists k l) k' [] q →
      ∃ p, y ∈ lists p ∧ (p = q ∨ q = k ∧ p = k') ∧ q ≠ k' := by
    intro q y hy
    rcases eq_or_ne q k' with rfl | hq
    · rw [update_self] at hy
      exact absurd hy not_mem_nil
    · rw [update_of_ne hq] at hy
      rcases eq_or_ne q k with rfl | hqk
      · rw [update_self, hl.mem_iff, mem_append] at hy
        rcases hy with hy | hy
        · exact ⟨q, hy, .inl rfl, hq⟩
        · exact ⟨k', hy, .inr ⟨rfl, rfl⟩, hq⟩
      · rw [update_of_ne hqk] at hy
        exact ⟨q, hy, .inl rfl, hq⟩
  constructor
  · intro q
    rcases eq_or_ne q k' with rfl | hq
    · rw [update_self]
      exact nodup_nil
    · rw [update_of_ne hq]
      rcases eq_or_ne q k with rfl | hqk
      · rw [update_self, hl.nodup_iff]
        apply (h.nodup q).append (h.nodup k')
        intro y hy hy'
        exact hk (h.unique hy' hy)
      · rw [update_of_ne hqk]
        exact h.nodup q
  · intro q q' y hy hy'
    obtain ⟨p, hp, hpq, hqk⟩ := hmem hy
    obtain ⟨p', hp', hpq', hqk'⟩ := hmem hy'
    have hpp := h.unique hp hp'
    grind

end

end Exclusive

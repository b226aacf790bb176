import Mathlib.Tactic

/-!
# Reference counts

`Refcounted table count refs` says that the objects of `table` are exactly those that
`refs`, the list of all references, refers to, and that `count` is their number of
references.

* `Refcounted.push`, `Refcounted.add`: a reference to an old object, to a new one.
* `Refcounted.pop`, `Refcounted.remove`: a reference that is not the last, the last one.
-/

variable {α : Type*} [DecidableEq α]

/-- The objects in the table are those with references, and `count` counts them. -/
structure Refcounted (table : List α) (count : α → ℕ) (refs : List α) : Prop where
  nodup : table.Nodup
  count_eq : ∀ p ∈ table, count p = refs.count p
  mem_iff : ∀ p, p ∈ table ↔ p ∈ refs

namespace Refcounted

open List

variable {table table' refs refs' : List α} {count count' : α → ℕ} {p : α}

section

variable (h : Refcounted table count refs)

include h

theorem count_pos (hp : p ∈ table) : 0 < count p := by
  rw [h.count_eq p hp]
  exact count_pos_iff.mpr ((h.mem_iff p).mp hp)

/-- The order in the table and of the references does not matter. -/
theorem congr (htable : table'.Perm table) (hrefs : refs'.Perm refs)
    (hcount : ∀ q ∈ table, count' q = count q) : Refcounted table' count' refs' where
  nodup := htable.nodup_iff.mpr h.nodup
  count_eq q hq := by
    rw [hcount q (htable.mem_iff.mp hq), h.count_eq q (htable.mem_iff.mp hq), hrefs.count_eq]
  mem_iff q := by
    rw [htable.mem_iff, hrefs.mem_iff]
    exact h.mem_iff q

/-- A new reference to an object of the table. -/
theorem push (hp : p ∈ table) (hcount : count' p = count p + 1)
    (hothers : ∀ q ∈ table, q ≠ p → count' q = count q) : Refcounted table count' (p :: refs) where
  nodup := h.nodup
  count_eq q hq := by
    by_cases hqp : q = p
    · rw [hqp, hcount, h.count_eq p hp, count_cons_self]
    · rw [hothers q hq hqp, h.count_eq q hq, count_cons_of_ne (Ne.symm hqp)]
  mem_iff q := by
    rw [mem_cons, ← h.mem_iff q]
    exact ⟨.inr, fun hq => hq.elim (fun heq => heq ▸ hp) id⟩

/-- The first reference to a new object. -/
theorem add (hp : p ∉ table) (hcount : count' p = 1) (hothers : ∀ q ∈ table, count' q = count q) :
    Refcounted (p :: table) count' (p :: refs) where
  nodup := nodup_cons.mpr ⟨hp, h.nodup⟩
  count_eq q hq := by
    by_cases hqp : q = p
    · have hnone : refs.count p = 0 := count_eq_zero.mpr fun hmem => hp ((h.mem_iff p).mpr hmem)
      rw [hqp, hcount, count_cons_self, hnone]
    · have hq : q ∈ table := (mem_cons.mp hq).resolve_left hqp
      rw [hothers q hq, h.count_eq q hq, count_cons_of_ne (Ne.symm hqp)]
  mem_iff q := by
    rw [mem_cons, mem_cons, h.mem_iff q]

end

/-- One of several references goes away. -/
theorem pop (h : Refcounted table count (p :: refs)) (hcount : count' p = count p - 1)
    (hmore : count p ≠ 1) (hothers : ∀ q ∈ table, q ≠ p → count' q = count q) :
    Refcounted table count' refs where
  nodup := h.nodup
  count_eq q hq := by
    by_cases hqp : q = p
    · rw [hqp, hcount, h.count_eq p (hqp ▸ hq), count_cons_self, Nat.add_sub_cancel]
    · rw [hothers q hq hqp, h.count_eq q hq, count_cons_of_ne (Ne.symm hqp)]
  mem_iff q := by
    have hp : p ∈ table := (h.mem_iff p).mpr mem_cons_self
    have hmem : p ∈ refs := by
      have heq := h.count_eq p hp
      rw [count_cons_self] at heq
      exact count_pos_iff.mp (by omega)
    rw [h.mem_iff q, mem_cons]
    exact ⟨fun hq => hq.elim (fun heq => heq ▸ hmem) id, .inr⟩

/-- The last reference goes away, and the object with it. -/
theorem remove (h : Refcounted (p :: table) count (p :: refs)) (hlast : count p = 1)
    (hothers : ∀ q ∈ table, count' q = count q) : Refcounted table count' refs where
  nodup := (nodup_cons.mp h.nodup).2
  count_eq q hq := by
    have hqp : q ≠ p := fun heq => (nodup_cons.mp h.nodup).1 (heq ▸ hq)
    rw [hothers q hq, h.count_eq q (mem_cons_of_mem p hq), count_cons_of_ne (Ne.symm hqp)]
  mem_iff q := by
    have hnone : p ∉ refs := by
      have heq := h.count_eq p mem_cons_self
      rw [count_cons_self] at heq
      exact count_eq_zero.mp (by omega)
    by_cases hqp : q = p
    · rw [hqp]
      exact iff_of_false (nodup_cons.mp h.nodup).1 hnone
    · have hiff := h.mem_iff q
      rw [mem_cons, mem_cons, or_iff_right hqp, or_iff_right hqp] at hiff
      exact hiff

end Refcounted

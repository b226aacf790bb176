import BadgerOS.Lib.RadixTree

/-!
# The effect of edits on radix trees

The effect of an edit on searches is `Edit.effect`: the keys of the target block find the
new slot, and the leaf of any other key is cut down as far as the walk of the edit followed
it (`cut`).

* `find_edit`: one edit has its effect on the searches from the node where it starts.
* `find_other`: a search from another node of the same level is unaffected, or it goes
  through the same nodes as the search of the same key from the edited one.
* `edits` carries out a sequence, `find_edits` folds the effects.
* `foldl_effect_outside`, `foldl_effect_inside` and `foldl_effect_hole` compute the fold.
-/

namespace RadixTree

open Function List Option
open Label (level_child)

variable {α β δ σ : Type*}

/-! ## Cutting leaves -/

/-- The digits of the levels from `k` to `top` agree. -/
def Agree (top k : ℕ) (p q : ℕ → δ) : Prop := ∀ i, k ≤ i → i ≤ top → p i = q i

variable {p : ℕ → δ} {l : ℕ} {part : β → δ → β}

theorem Agree.mono {top k k' : ℕ} {q : ℕ → δ} (h : Agree top k p q) (hk : k ≤ k') : Agree top k' p q :=
  fun i hi htop => h i (hk.trans hi) htop

theorem agree_succ {k : ℕ} {q : ℕ → δ} (hk : k ≤ l + 1) :
    Agree (l + 1) k p q ↔ p (l + 1) = q (l + 1) ∧ Agree l k p q := by
  constructor
  · intro h
    exact ⟨h (l + 1) hk le_rfl, fun i hi hil => h i hi (by omega)⟩
  · rintro ⟨htop, h⟩ i hi hil
    rcases Nat.lt_or_ge i (l + 1) with hlt | hge
    · exact h i hi (by omega)
    · obtain rfl : i = l + 1 := by omega
      exact htop

open Classical in
/-- The piece that serves `p` after a leaf has been split at all levels of `S`. -/
noncomputable def cut (part : β → δ → β) (p : ℕ → δ) (S : ℕ → Prop) : ℕ → β → Found β
  | 0, x => .leaf 0 x
  | k + 1, x => if S (k + 1) then cut part p S k (part x (p k)) else .leaf (k + 1) x

noncomputable def Found.cut (part : β → δ → β) (p : ℕ → δ) (S : ℕ → Prop) : Found β → Found β
  | .leaf k x => RadixTree.cut part p S k x
  | f => f

section Cut

variable {part : β → δ → β} {p : ℕ → δ} {S T : ℕ → Prop} {k : ℕ}

theorem cut_of_not (hS : ¬ S k) (x : β) : cut part p S k x = .leaf k x := by
  cases k with
  | zero => rfl
  | succ k => rw [cut, if_neg hS]

theorem cut_of_mem (hS : S (k + 1)) (x : β) : cut part p S (k + 1) x = cut part p S k (part x (p k)) := by
  rw [cut, if_pos hS]

theorem cut_congr {x : β} (h : ∀ j ≤ k, S j ↔ T j) : cut part p S k x = cut part p T k x := by
  induction k generalizing x with
  | zero => rfl
  | succ k ih =>
    by_cases hS : S (k + 1)
    · rw [cut_of_mem hS, cut_of_mem ((h _ le_rfl).mp hS), ih fun j hj => h j (by omega)]
    · rw [cut_of_not hS, cut_of_not fun hT => hS ((h _ le_rfl).mpr hT)]

/-- A result of a search is a leaf up to some level, or no leaf. -/
theorem Found.cut_congr {f : Found β} (h : ∀ j x, f = .leaf j x → ∀ i ≤ j, S i ↔ T i) :
    f.cut part p S = f.cut part p T := by
  cases f with
  | leaf j x => exact RadixTree.cut_congr (h j x rfl)
  | hole => rfl
  | broken => rfl

theorem Found.cut_of_not {f : Found β} (h : ∀ j x, f = .leaf j x → ¬ S j) : f.cut part p S = f := by
  cases f with
  | leaf j x => exact RadixTree.cut_of_not (h j x rfl) x
  | hole => rfl
  | broken => rfl

/-- Cutting twice. The first set of levels is closed upwards. -/
theorem cut_cut (hS : ∀ {i j}, S i → i ≤ j → S j) (x : β) :
    (cut part p S k x).cut part p T = cut part p (fun j => S j ∨ T j) k x := by
  induction k generalizing x with
  | zero => rfl
  | succ k ih =>
    by_cases hk : S (k + 1)
    · rw [cut_of_mem hk, cut_of_mem (.inl hk), ih]
    · rw [cut_of_not hk]
      exact RadixTree.cut_congr fun j hj => ⟨.inr, fun h => h.resolve_left fun hj' => hk (hS hj' hj)⟩

theorem Found.cut_cut (hS : ∀ {i j}, S i → i ≤ j → S j) (f : Found β) :
    (f.cut part p S).cut part p T = f.cut part p fun j => S j ∨ T j := by
  cases f with
  | leaf k x => exact RadixTree.cut_cut hS x
  | hole => rfl
  | broken => rfl

end Cut

/-! ## One edit -/

open Classical in
/-- The effect of an edit on the search of `p` from a node of level `top`. -/
noncomputable def Edit.effect (part : β → δ → β) (top : ℕ) (p : ℕ → δ) (f : Found β)
    (e : Edit α β δ) : Found β :=
  if Agree top e.target p e.key then e.slot.found e.target
  else f.cut part p fun k => Agree top k p e.key

theorem find_of_isNode {h : Heap α β δ} {a : α} (hnode : (h a (p l)).isNode = false) :
    find h p l a = (h a (p l)).found l := by
  cases hs : h a (p l) with
  | hole => rw [find_hole hs, Slot.found]
  | leaf x => rw [find_leaf hs, Slot.found]
  | node c => simp [hs, Slot.isNode] at hnode

theorem isNode_expand (part : β → δ → β) (s : Slot α β) (i : δ) : (s.expand part i).isNode = false := by
  cases s <;> rfl

/-- The search in a node that replaces a hole or a leaf. -/
theorem cut_found_expand {s : Slot α β} (hnode : s.isNode = false) {S : ℕ → Prop} (hS : S (l + 1)) :
    (s.found (l + 1)).cut part p S = ((s.expand part (p l)).found l).cut part p S := by
  cases s with
  | hole => rfl
  | leaf x => exact cut_of_mem hS x
  | node c => simp [Slot.isNode] at hnode

theorem effect_of_ne {top : ℕ} {f : Found β} {e : Edit α β δ} (hne : p top ≠ e.key top)
    (htarget : e.target ≤ top) (hf : ∀ j x, f = .leaf j x → j ≤ top) :
    e.effect part top p f = f := by
  rw [Edit.effect, if_neg fun h => hne (h top htarget le_rfl)]
  exact Found.cut_of_not fun j x hj h => hne (h top (hf j x hj) le_rfl)

theorem effect_succ {f : Found β} {e : Edit α β δ} (heq : p (l + 1) = e.key (l + 1))
    (htarget : e.target ≤ l) (hf : ∀ j x, f = .leaf j x → j ≤ l + 1) :
    e.effect part (l + 1) p f = e.effect part l p f := by
  have hagree (k : ℕ) (hk : k ≤ l + 1) : Agree (l + 1) k p e.key ↔ Agree l k p e.key := by
    rw [agree_succ hk, and_iff_right heq]
  unfold Edit.effect
  rw [hagree e.target (by omega)]
  congr 1
  exact Found.cut_congr fun j x hj i hi => hagree i (hi.trans (hf j x hj))

section FindEdit

variable [DecidableEq α] [DecidableEq δ] {part : β → δ → β} {e : Edit α β δ} {d : ℕ} {a : α}
  {st st' : Store α β δ} {sub : σ → ℕ → δ → σ} {own : α → Option (Label σ δ)} {n : Label σ δ}
  (ho : Owned sub st.heap own st.free) (ha : own a = some n) (hl : n.level = e.target + d)
  (h : edit part e d a st = some st')

include ho ha hl h

/-- The searches from another node of the same level. One is unaffected by the edit, or it
    goes through the node that the edit changes, as does the search of the same key from
    the node where the edit starts. -/
theorem find_other {b : α} {m : Label σ δ} (hb : own b = some m) (hm : m.level = n.level)
    (hpath : n.path.length = m.path.length) (p : ℕ → δ) :
    find st'.heap p (e.target + d) b = find st.heap p (e.target + d) b ∨
      (∃ j ≤ e.target + d, Agree (e.target + d) j p e.key ∧
        n.down sub p (e.target + d - j) = m.down sub p (e.target + d - j)) ∧
      find st.heap p (e.target + d) b = find st.heap p (e.target + d) a ∧
      find st'.heap p (e.target + d) b = find st'.heap p (e.target + d) a := by
  obtain ⟨j, c, -, hr, hsame⟩ := edit_slot ho ha hl h
  have hc := ho.reach ha hl hr
  have hj := hr.le
  -- Below the changed node nothing matters, and above it no node is changed.
  have habove {a' : α} {n' : Label σ δ} (ha' : own a' = some n') (hl' : n'.level = e.target + d)
      {i : ℕ} {c' : α} (hr' : Reach st.heap p (e.target + d) a' i c') (hij : i ≠ j) :
      st'.heap c' (p i) = st.heap c' (p i) := by
    have hc' := ho.reach ha' hl' hr'
    refine hsame c' _ (by rw [hc']; rfl) (.inl ?_)
    rintro rfl
    exact hij ((ho.level_of_reach ha' hl' hr' hc).symm.trans (ho.level_of_reach ha hl hr hc))
  by_cases hread : Reach st.heap p (e.target + d) b j c ∧ p j = e.key j
  · obtain ⟨hrb, hdigit⟩ := hread
    have hlabel := some.inj (hc.symm.trans (ho.reach hb (hm.trans hl) hrb))
    have hagree := (Label.agree_of_path_eq hm.symm hpath (by omega) (congrArg Label.path hlabel)).2
    have hra : Reach st.heap p (e.target + d) a j c :=
      hr.agree fun i h1 h2 => hagree i (by omega) (by omega)
    refine .inr ⟨⟨j, hj, fun i h1 h2 => ?_, ?_⟩, ?_, ?_⟩
    · rcases Nat.lt_or_ge j i with hlt | hge
      · exact (hagree i (by omega) (by omega)).symm
      · obtain rfl : i = j := by omega
        exact hdigit
    · rw [← hlabel]
      exact Label.down_congr (by omega) fun i h1 h2 => (hagree i h1 h2).symm
    · rw [hrb.find_eq, hra.find_eq]
    · have hrb' := hrb.congr fun i c' hr' hji => habove hb (hm.trans hl) hr' (by omega)
      have hra' := hra.congr fun i c' hr' hji => habove ha hl hr' (by omega)
      rw [hrb'.find_eq, hra'.find_eq]
  · refine .inl (find_congr fun i c' hr' => ?_)
    by_cases hij : i = j
    · subst hij
      have hc' := ho.reach hb (hm.trans hl) hr'
      refine hsame c' _ (by rw [hc']; rfl) ?_
      by_contra hcon
      simp only [ne_eq, not_or, not_not] at hcon
      exact hread ⟨hcon.1 ▸ hr', hcon.2⟩
    · exact habove hb (hm.trans hl) hr' hij

/-- A search that leaves the way of the edit at its first step. -/
theorem find_edit_of_ne {p : ℕ → δ} (hne : p (e.target + d) ≠ e.key (e.target + d)) :
    find st'.heap p (e.target + d) a = find st.heap p (e.target + d) a := by
  rcases find_other ho ha hl h ha rfl rfl p with hsame | ⟨⟨j, hj, hagree, -⟩, -⟩
  · exact hsame
  · exact absurd (hagree _ hj le_rfl) hne

theorem edit_above {b : α} {m : Label σ δ} (hb : own b = some m)
    (hlt : e.target + d < m.level) (i : δ) : st'.heap b i = st.heap b i := by
  obtain ⟨j, c, -, hr, hsame⟩ := edit_slot ho ha hl h
  refine hsame b i (by rw [hb]; rfl) (.inl ?_)
  rintro rfl
  have hlevel := ho.level_of_reach ha hl hr hb
  have hle := hr.le
  omega

theorem find_edit (he : e.Proper) (p : ℕ → δ) : find st'.heap p (e.target + d) a =
      e.effect part (e.target + d) p (find st.heap p (e.target + d) a) := by
  have hle (h : Heap α β δ) (l : ℕ) (b : α) (j : ℕ) (x : β) (hf : find h p l b = .leaf j x) :
      j ≤ l := find_level_le hf
  induction d generalizing a st own n with
  | zero =>
    by_cases hdigit : p (e.target + 0) = e.key (e.target + 0)
    swap
    · rw [find_edit_of_ne ho ha hl h hdigit, effect_of_ne hdigit (by omega) (hle _ _ _)]
    rw [Nat.add_zero] at hdigit ⊢
    have hagree : Agree e.target e.target p e.key := fun i h1 h2 => by
      obtain rfl : i = e.target := by omega
      exact hdigit
    have hslot : st'.heap a (p e.target) = e.slot := by
      rw [(edit_zero h).1, hdigit, write_self]
    rw [Edit.effect, if_pos hagree, find_of_isNode (by rw [hslot, he.isNode]), hslot]
  | succ d ih =>
    by_cases hdigit : p (e.target + (d + 1)) = e.key (e.target + (d + 1))
    swap
    · rw [find_edit_of_ne ho ha hl h hdigit, effect_of_ne hdigit (by omega) (hle _ _ _)]
    rw [← Nat.add_assoc] at hdigit hl ⊢
    rw [effect_succ hdigit (by omega) (hle _ _ _)]
    rcases edit_succ rfl h with ⟨c, hs, hedit⟩ | ⟨hs, hcreate, rfl⟩ | ⟨c, mid, hnode, -, hattach, hedit⟩
    · have hc := (ho.child ha hs).2
      have hm : (n.child sub (e.key (e.target + d + 1))).level = e.target + d := by
        rw [level_child]
        omega
      have habove := edit_above ho hc hm hedit ha (by omega) (p (e.target + d + 1))
      rw [← hdigit] at hs
      rw [find_node (habove.trans hs), find_node hs, ih ho hc hm hedit]
    · rw [← hdigit] at hs
      rw [find_hole hs, Edit.effect, he.hole hcreate]
      split_ifs <;> rfl
    · obtain ⟨-, hne⟩ := ho.attach_ne hattach ha
      have ho' := ho.attach hattach ha (by omega)
      have hm : (n.child sub (e.key (e.target + d + 1))).level = e.target + d := by
        rw [level_child]
        omega
      have hself : update own c (some (n.child sub (e.key (e.target + d + 1)))) a = some n := by
        rw [update_of_ne hne.symm, ha]
      have habove := edit_above ho' (update_self ..) hm hedit hself (by omega)
        (p (e.target + d + 1))
      have hlink : mid.heap a (p (e.target + d + 1)) = .node c := by
        rw [hdigit, attach_link hattach]
      have hnew : mid.heap c (p (e.target + d)) =
          (st.heap a (e.key (e.target + d + 1))).expand part (p (e.target + d)) :=
        attach_new hattach hne _
      rw [find_node (habove.trans hlink), ih ho' (update_self ..) hm hedit,
        find_of_isNode (by rw [hnew, isNode_expand]), hnew,
        find_of_isNode (by rw [hdigit, hnode]), hdigit]
      unfold Edit.effect
      congr 1
      exact (cut_found_expand hnode fun i h1 h2 => by omega).symm

/-- An edit whose key finds no leaf above the target splits none. -/
theorem edit_splits (hno : ∀ k x, find st.heap e.key (e.target + d) a = .leaf k x → k ≤ e.target) :
    st'.splits = st.splits := by
  induction d generalizing a st own n with
  | zero =>
    cases h
    rfl
  | succ d ih =>
    rw [← Nat.add_assoc] at hno
    rcases edit_succ rfl h with ⟨c, hs, hedit⟩ | ⟨-, -, rfl⟩ | ⟨c, mid, hnode, -, hattach, hedit⟩
    · rw [find_node hs] at hno
      exact ih ho (ho.child ha hs).2 (by rw [level_child]; omega) hedit hno
    · rfl
    · obtain ⟨-, hne⟩ := ho.attach_ne hattach ha
      have hhole : st.heap a (e.key (e.target + d + 1)) = .hole := by
        cases hs : st.heap a (e.key (e.target + d + 1)) with
        | hole => rfl
        | leaf x =>
          have := hno _ x (find_leaf hs)
          omega
        | node c => simp [hs, Slot.isNode] at hnode
      have hnew := attach_new hattach hne (e.key (e.target + d))
      rw [hhole] at hnew
      rw [ih (ho.attach hattach ha (by omega)) (update_self ..)
        (by rw [level_child]; omega) hedit, (attach_spec hattach).2.1, hhole]
      · rfl
      · intro k x hf
        rw [find_hole hnew] at hf
        contradiction

end FindEdit

/-! ## Sequences of edits -/

section Edits

variable [DecidableEq α] [DecidableEq δ]

/-- Carry out edits from a root of level `top`, one after the other. -/
def edits (part : β → δ → β) (top : ℕ) (root : α) :
    List (Edit α β δ) → Store α β δ → Option (Store α β δ)
  | [], st => some st
  | e :: es, st =>
    match edit part e (top - e.target) root st with
    | none => none
    | some st => edits part top root es st

variable {part : β → δ → β} {top : ℕ} {root : α} {es : List (Edit α β δ)}
  {st st' : Store α β δ} {sub : σ → ℕ → δ → σ} {own : α → Option (Label σ δ)} {n : Label σ δ}

variable {e : Edit α β δ}

theorem edits_cons (h : edits part top root (e :: es) st = some st') :
    ∃ mid, edit part e (top - e.target) root st = some mid ∧
      edits part top root es mid = some st' := by
  rw [edits] at h
  split at h
  · contradiction
  · rename_i mid hmid
    exact ⟨mid, hmid, h⟩

/-- The edits that fit a tree with a root of level `top`. -/
def Fit (top : ℕ) (es : List (Edit α β δ)) : Prop := ∀ e ∈ es, e.Proper ∧ e.target ≤ top

omit [DecidableEq α] [DecidableEq δ] in
theorem fit_cons : Fit top (e :: es) ↔ (e.Proper ∧ e.target ≤ top) ∧ Fit top es := by
  simp [Fit]

/-- The first edit of a sequence keeps the labels, and the others follow. -/
theorem Owned.edits_cons (ho : Owned sub st.heap own st.free) (hes : Fit top (e :: es))
    (hr : own root = some n) (hl : n.level = top)
    (h : RadixTree.edits part top root (e :: es) st = some st') :
    ∃ mid own', RadixTree.edit part e (top - e.target) root st = some mid ∧ e.target ≤ top ∧
      Fit top es ∧ RadixTree.edits part top root es mid = some st' ∧
      Owned sub mid.heap own' mid.free ∧ (∀ b m, own b = some m → own' b = some m) ∧
      ∀ p, find mid.heap p top root = e.effect part top p (find st.heap p top root) := by
  obtain ⟨mid, hmid, hrest⟩ := RadixTree.edits_cons h
  obtain ⟨⟨he, htop⟩, hes⟩ := fit_cons.mp hes
  have hlevel : e.target + (top - e.target) = top := by omega
  have hl' : n.level = e.target + (top - e.target) := by omega
  obtain ⟨own', ho', hsub⟩ := ho.edit he hr hl' hmid
  have hfind := find_edit ho hr hl' hmid he
  rw [hlevel] at hfind
  exact ⟨mid, own', hmid, htop, hes, hrest, ho', hsub, hfind⟩

/-- A sequence of edits keeps the labels, and its effects add up. -/
theorem Owned.edits (ho : Owned sub st.heap own st.free) (hes : Fit top es) (hr : own root = some n)
    (hl : n.level = top) (h : RadixTree.edits part top root es st = some st') :
    (∃ own', Owned sub st'.heap own' st'.free ∧ ∀ b m, own b = some m → own' b = some m) ∧
      ∀ p, find st'.heap p top root =
        es.foldl (Edit.effect part top p) (find st.heap p top root) := by
  induction es generalizing st own with
  | nil =>
    cases h
    exact ⟨⟨own, ho, fun _ _ hb => hb⟩, fun _ => rfl⟩
  | cons e es ih =>
    obtain ⟨mid, own1, hmid, htop, hes, hrest, ho1, hsub1, hfind1⟩ := ho.edits_cons hes hr hl h
    obtain ⟨⟨own2, ho2, hsub2⟩, hfind2⟩ := ih ho1 hes (hsub1 _ _ hr) hrest
    refine ⟨⟨own2, ho2, fun b m hb => hsub2 b m (hsub1 b m hb)⟩, fun p => ?_⟩
    rw [hfind2, hfind1, foldl_cons]

theorem edits_append (es1 es2 : List (Edit α β δ)) : edits part top root (es1 ++ es2) st =
      (edits part top root es1 st).bind (edits part top root es2) := by
  induction es1 generalizing st with
  | nil => rfl
  | cons e es ih =>
    rw [cons_append, edits, edits]
    cases edit part e (top - e.target) root st with
    | none => rfl
    | some mid => exact ih

theorem edits_free (h : edits part top root es st = some st') : st'.free <:+ st.free := by
  induction es generalizing st with
  | nil =>
    cases h
    exact suffix_rfl
  | cons e es ih =>
    obtain ⟨mid, hmid, hrest⟩ := edits_cons h
    exact (ih hrest).trans (edit_free hmid).1

theorem edits_isSome (hfree : top * es.length ≤ st.free.length) : (edits part top root es st).isSome = true := by
  induction es generalizing st with
  | nil => rfl
  | cons e es ih =>
    rw [length_cons, Nat.mul_add, Nat.mul_one] at hfree
    have hsome : (edit part e (top - e.target) root st).isSome = true := edit_isSome (by omega)
    obtain ⟨mid, hmid⟩ := isSome_iff_exists.mp hsome
    have := (edit_free hmid).2
    rw [edits, hmid]
    exact ih (by omega)

variable (ho : Owned sub st.heap own st.free) (hes : Fit top es) (hr : own root = some n)
  (hl : n.level = top)

include ho hes hr hl

/-! ### Searches from other roots -/

section Other

variable {b : α} {m : Label σ δ} {p : ℕ → δ}

section

variable (hb : own b = some m) (hm : m.level = top) (hpath : n.path.length = m.path.length)
  (h : edits part top root es st = some st')

include hb hm hpath h

/-- Where the walks of `p` from two roots meet no common node, the edits at one root do not
    affect the search from the other. -/
theorem find_edits_apart (hapart : ∀ j ≤ top, n.down sub p (top - j) ≠ m.down sub p (top - j)) :
    find st'.heap p top b = find st.heap p top b := by
  induction es generalizing st own with
  | nil =>
    cases h
    rfl
  | cons e es ih =>
    obtain ⟨mid, own1, hmid, htop, hes, hrest, ho1, hsub1, -⟩ := ho.edits_cons hes hr hl h
    rw [ih ho1 hes (hsub1 _ _ hr) (hsub1 _ _ hb) hrest]
    have hlevel : e.target + (top - e.target) = top := by omega
    have hother := find_other ho hr (by omega) hmid hb (by omega) hpath p
    rw [hlevel] at hother
    rcases hother with hsame | ⟨⟨j, hj, -, hmeet⟩, -⟩
    · exact hsame
    · exact absurd hmeet (hapart j hj)

/-- What all initial parts of the sequence preserve of the search from the edited root is
    preserved of the search from any other root. -/
theorem find_edits_other {γ : Type*} {τ : Found β → γ}
    (hτ : ∀ es1, es1 <+: es → τ (es1.foldl (Edit.effect part top p) (find st.heap p top root)) = τ
      (find st.heap p top root)) : τ (find st'.heap p top b) = τ (find st.heap p top b) := by
  induction es generalizing st own with
  | nil =>
    cases h
    rfl
  | cons e es ih =>
    obtain ⟨mid, own1, hmid, htop, hes, hrest, ho1, hsub1, hfind⟩ := ho.edits_cons hes hr hl h
    have hfirst : τ (find mid.heap p top root) = τ (find st.heap p top root) := by
      rw [hfind]
      exact hτ [e] (by simp)
    rw [ih ho1 hes (hsub1 _ _ hr) (hsub1 _ _ hb) hrest]
    · have hlevel : e.target + (top - e.target) = top := by omega
      have hother := find_other ho hr (by omega) hmid hb (by omega) hpath p
      rw [hlevel] at hother
      rcases hother with hsame | ⟨-, hbefore, hafter⟩
      · rw [hsame]
      · rw [hbefore, hafter, hfirst]
    · intro es1 hes1
      rw [hfirst, hfind]
      exact hτ (e :: es1) (cons_prefix_cons.mpr ⟨rfl, hes1⟩)

end

end Other

/-! ### Slots of the roots -/

/-- Edits at one root change no slot of another. -/
theorem edits_other_slot (h : edits part top root es st = some st')
    {b : α} {m : Label σ δ} (hb : own b = some m) (hm : m.level = top) (hne : b ≠ root) (i : δ) :
    st'.heap b i = st.heap b i := by
  induction es generalizing st own with
  | nil =>
    cases h
    rfl
  | cons e es ih =>
    obtain ⟨mid, own1, hmid, htop, hes, hrest, ho1, hsub1, -⟩ := ho.edits_cons hes hr hl h
    rw [ih ho1 hes (hsub1 _ _ hr) hrest (hsub1 _ _ hb)]
    have hlevel : n.level = e.target + (top - e.target) := by omega
    obtain ⟨j, c, -, hreach, hsame⟩ := edit_slot ho hr hlevel hmid
    refine hsame b i (by rw [hb]; rfl) (.inl ?_)
    rintro rfl
    -- A node of the level of the roots is reached from a root only if it is that root.
    have hj := ho.level_of_reach hr hlevel hreach hb
    obtain rfl : j = e.target + (top - e.target) := by omega
    exact hne hreach.eq_of_level

/-- An edit that leaves the slot `i` of the root alone, given what is there: it follows
    another slot, or it goes on below a link or stops at a hole. -/
def Edit.Keeps (top : ℕ) (i : δ) (s : Slot α β) (e : Edit α β δ) : Prop :=
  e.key top = i → e.target < top ∧ (s.isNode = true ∨ s = .hole ∧ e.create = false)

omit hes in
theorem edit_root_slot (htop : e.target ≤ top) (h : edit part e (top - e.target) root st = some st')
    {i : δ} (hkeeps : e.Keeps top i (st.heap root i)) : st'.heap root i = st.heap root i := by
  by_cases hi : e.key top = i
  · obtain ⟨hlt, hslot⟩ := hkeeps hi
    obtain ⟨d, hd⟩ : ∃ d, top - e.target = d + 1 := ⟨top - e.target - 1, by omega⟩
    have hlevel : e.target + d + 1 = top := by omega
    rw [hd] at h
    rcases edit_succ rfl h with ⟨c, hs, hedit⟩ | ⟨-, -, rfl⟩ | ⟨c, mid, hnode, hcreate, -⟩
    · have hc := (ho.child hr hs).2
      exact edit_above ho hc (by rw [level_child]; omega) hedit hr (by omega) i
    · rfl
    · rw [hlevel, hi] at hnode hcreate
      rcases hslot with hs | ⟨hs, hc⟩
      · rw [hnode] at hs
        contradiction
      · rw [hcreate hs] at hc
        contradiction
  · have hlevel : n.level = e.target + (top - e.target) := by omega
    obtain ⟨j, c, -, hreach, hsame⟩ := edit_slot ho hr hlevel h
    refine hsame root i (by rw [hr]; rfl) ?_
    by_contra hcon
    simp only [ne_eq, not_or, not_not] at hcon
    obtain ⟨rfl, rfl⟩ := hcon
    exact hi (by rw [← ho.level_of_reach hr hlevel hreach hr, hl])

theorem edits_root_slot (h : edits part top root es st = some st') {i : δ}
    (hkeeps : ∀ e ∈ es, e.Keeps top i (st.heap root i)) : st'.heap root i = st.heap root i := by
  induction es generalizing st own with
  | nil =>
    cases h
    rfl
  | cons e es ih =>
    obtain ⟨mid, own1, hmid, htop, hes, hrest, ho1, hsub1, -⟩ := ho.edits_cons hes hr hl h
    have hfirst := edit_root_slot ho hr hl htop hmid (hkeeps e mem_cons_self)
    rw [ih ho1 hes (hsub1 _ _ hr) hrest fun e' he' => ?_, hfirst]
    rw [hfirst]
    exact hkeeps e' (mem_cons_of_mem _ he')

/-- Edits whose keys find no leaf above their targets split none. -/
theorem edits_splits (h : edits part top root es st = some st')
    (hno : ∀ es1 e, es1 ++ [e] <+: es → ∀ k x, es1.foldl (Edit.effect part top e.key) (find st.heap
      e.key top root) = .leaf k x → k ≤ e.target) : st'.splits = st.splits := by
  induction es generalizing st own with
  | nil =>
    cases h
    rfl
  | cons e es ih =>
    obtain ⟨mid, own1, hmid, htop, hes, hrest, ho1, hsub1, hfind⟩ := ho.edits_cons hes hr hl h
    have hlevel : e.target + (top - e.target) = top := by omega
    rw [ih ho1 hes (hsub1 _ _ hr) hrest]
    · refine edit_splits ho hr (by omega) hmid fun k x hf => hno [] e (by simp) k x ?_
      rw [hlevel] at hf
      exact hf
    · intro es1 e' hes1 k x hf
      refine hno (e :: es1) e' (cons_prefix_cons.mpr ⟨rfl, hes1⟩) k x ?_
      rw [foldl_cons, ← hfind]
      exact hf

end Edits

/-! ## Folding the effects -/

section Fold

variable {part : β → δ → β} {top : ℕ} {p : ℕ → δ} {es : List (Edit α β δ)} {f : Found β}

/-- A key outside all blocks keeps its leaf, cut down as far as any edit followed it. -/
theorem foldl_effect_outside (h : ∀ e ∈ es, ¬ Agree top e.target p e.key) : es.foldl (Edit.effect part top p) f =
      f.cut part p fun k => ∃ e ∈ es, Agree top k p e.key := by
  induction es generalizing f with
  | nil => exact (Found.cut_of_not fun _ _ _ => by simp).symm
  | cons e es ih =>
    have hmono : ∀ {i j : ℕ}, Agree top i p e.key → i ≤ j → Agree top j p e.key :=
      fun h hij => h.mono hij
    rw [foldl_cons, ih fun e' he' => h e' (mem_cons_of_mem _ he'), Edit.effect,
      if_neg (h e mem_cons_self), Found.cut_cut hmono]
    exact Found.cut_congr fun _ _ _ i _ => by simp

/-- Where every edit writes a hole, the keys of the blocks find nothing. -/
theorem foldl_effect_hole (hes : ∀ e ∈ es, e.slot = .hole) (h : f = .hole ∨ ∃ e ∈ es, Agree top e.target p e.key) :
    es.foldl (Edit.effect part top p) f = .hole := by
  induction es generalizing f with
  | nil => simpa using h
  | cons e es ih =>
    rw [foldl_cons]
    refine ih (fun e' he' => hes e' (mem_cons_of_mem _ he')) ?_
    rw [Edit.effect, hes e mem_cons_self]
    by_cases hin : Agree top e.target p e.key
    · exact .inl (if_pos hin)
    · rw [if_neg hin]
      rcases h with rfl | ⟨e', he', hagree⟩
      · exact .inl rfl
      · rcases mem_cons.mp he' with rfl | he'
        · exact absurd hagree hin
        · exact .inr ⟨e', he', hagree⟩

/-- The blocks of two edits have no key in common. -/
def Edit.Apart (top : ℕ) (e e' : Edit α β δ) : Prop :=
  ∀ q : ℕ → δ, Agree top e.target q e.key → ¬ Agree top e'.target q e'.key

/-- Where the blocks are disjoint, the keys of a block find the slot of its edit. -/
theorem foldl_effect_inside {e : Edit α β δ} (hes : es.Pairwise (Edit.Apart top)) (he : e ∈ es)
    (hin : Agree top e.target p e.key) :
    es.foldl (Edit.effect part top p) f = e.slot.found e.target := by
  induction es generalizing f with
  | nil => simp at he
  | cons e' es ih =>
    rw [foldl_cons]
    obtain ⟨hapart, hes⟩ := pairwise_cons.mp hes
    rcases mem_cons.mp he with rfl | he
    · rw [Edit.effect, if_pos hin, foldl_effect_outside fun e' he' => hapart e' he' p hin]
      refine Found.cut_of_not fun j x hj => ?_
      rintro ⟨e', he', hagree⟩
      -- A later edit that follows the leaf would have its key in the block.
      have hkey : Agree top e.target e'.key e.key := by
        cases hs : e.slot with
        | hole | node c => simp [hs, Slot.found] at hj
        | leaf y =>
          rw [hs, Slot.found, Found.leaf.injEq] at hj
          exact fun i h1 h2 => (hagree i (by omega) h2).symm.trans (hin i h1 h2)
      exact hapart e' he' e'.key hkey fun _ _ _ => rfl
    · exact ih hes he

end Fold

end RadixTree

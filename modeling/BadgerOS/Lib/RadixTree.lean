import Mathlib.Tactic

/-!
# Radix trees with block leaves in a heap

A tree of tables: a node of level `l` has a slot for each digit, and a slot is empty,
links to a node of level `l - 1`, or is a leaf that serves all keys below it. A key gives
the digit to follow at each level. Nodes live in a heap, and several trees may share nodes.

* `find` searches a key; `Reach` relates the nodes that it visits.
* `edit` walks down to a target level and writes a slot there. On the way it adds the nodes
  that are missing and splits the leaves that are too large.
* `Owned` gives each node a label, the place that it has in the trees. Labels keep the
  walks of different keys apart.

An edit keeps the ownership (`Owned.edit`), and of the slots that were there before it
changes only one (`edit_slot`).
-/

namespace RadixTree

open Function Option List

variable {α β δ σ : Type*}

/-! ## Searching -/

/-- A slot of a node. -/
inductive Slot (α β : Type*)
  | hole
  | leaf (x : β)
  | node (a : α)

/-- What a search finds: a leaf in a node of the given level, nothing, or a link in a node
    of level 0. -/
inductive Found (β : Type*)
  | leaf (level : ℕ) (x : β)
  | hole
  | broken

/-- The slots of every node, by digit. -/
abbrev Heap (α β δ : Type*) := α → δ → Slot α β

/-- Search `key` from a node of the given level. -/
def find (h : Heap α β δ) (key : ℕ → δ) : ℕ → α → Found β
  | 0, a =>
    match h a (key 0) with
    | .hole => .hole
    | .leaf x => .leaf 0 x
    | .node _ => .broken
  | level + 1, a =>
    match h a (key (level + 1)) with
    | .hole => .hole
    | .leaf x => .leaf (level + 1) x
    | .node c => find h key level c

variable {a : α} {h : Heap α β δ} {key p : ℕ → δ} {l : ℕ} {x : β} {free : List α}
  {sub : σ → ℕ → δ → σ}

theorem find_hole (hs : h a (key l) = .hole) : find h key l a = .hole := by
  cases l <;> simp [find, hs]

theorem find_leaf (hs : h a (key l) = .leaf x) : find h key l a = .leaf l x := by
  cases l <;> simp [find, hs]

theorem find_node {c : α} (hs : h a (key (l + 1)) = .node c) : find h key (l + 1) a = find h key l c := by
  rw [find, hs]

/-- The search of `key` from node `a` of level `l` visits node `c` of level `j`. -/
inductive Reach (h : Heap α β δ) (key : ℕ → δ) : ℕ → α → ℕ → α → Prop
  | refl (l : ℕ) (a : α) : Reach h key l a l a
  | step {l j : ℕ} {a c d : α} :
      h a (key (l + 1)) = .node c → Reach h key l c j d → Reach h key (l + 1) a j d

namespace Reach

variable {h h' : Heap α β δ} {p q : ℕ → δ} {l j : ℕ} {a c : α}

theorem le (hr : Reach h p l a j c) : j ≤ l := by
  induction hr with
  | refl => exact le_rfl
  | step _ _ ih => exact ih.trans (Nat.le_succ _)

theorem eq_of_level (hr : Reach h p l a l c) : c = a := by
  cases hr with
  | refl => rfl
  | step _ hr =>
    have := hr.le
    omega

theorem find_eq (hr : Reach h p l a j c) : find h p l a = find h p j c := by
  induction hr with
  | refl => rfl
  | step hs _ ih => rw [find_node hs, ih]

/-- A walk depends on the digits above the node that it reaches. -/
theorem agree (hr : Reach h p l a j c) (hpq : ∀ i, j < i → i ≤ l → p i = q i) : Reach h q l a j c := by
  induction hr with
  | refl => exact .refl _ _
  | @step l _ a c d hs hr ih =>
    refine .step ?_ (ih fun i hji hil => hpq i hji (by omega))
    rw [← hpq (l + 1) (Nat.lt_succ_of_le hr.le) le_rfl, hs]

/-- A walk depends on the slots that it reads before the node that it reaches. -/
theorem congr (hr : Reach h p l a j c)
    (hsame : ∀ i b, Reach h p l a i b → j < i → h' b (p i) = h b (p i)) : Reach h' p l a j c := by
  induction hr with
  | refl => exact .refl _ _
  | @step l _ a c d hs hr ih =>
    refine .step ?_ (ih fun i b hb hji => hsame i b (.step hs hb) hji)
    rw [hsame (l + 1) a (.refl _ _) (Nat.lt_succ_of_le hr.le), hs]

end Reach

/-- A search depends on the slots that it reads. -/
theorem find_congr {h' : Heap α β δ} (hsame : ∀ j c, Reach h p l a j c → h' c (p j) = h c (p j)) :
    find h' p l a = find h p l a := by
  induction l generalizing a with
  | zero => rw [find, find, hsame 0 a (.refl _ _)]
  | succ l ih =>
    have hslot := hsame (l + 1) a (.refl _ _)
    cases hs : h a (p (l + 1)) with
    | hole => rw [find_hole (hslot.trans hs), find_hole hs]
    | leaf x => rw [find_leaf (hslot.trans hs), find_leaf hs]
    | node c =>
      rw [find_node (hslot.trans hs), find_node hs]
      exact ih fun j d hr => hsame j d (.step hs hr)

/-- A leaf is found in the node of its level. -/
theorem reach_of_find {k : ℕ} (hf : find h p l a = .leaf k x) : ∃ c, Reach h p l a k c ∧ h c (p k) = .leaf x := by
  induction l generalizing a with
  | zero =>
    rw [find] at hf
    split at hf <;> cases hf
    exact ⟨a, .refl _ _, by assumption⟩
  | succ l ih =>
    rw [find] at hf
    split at hf
    · cases hf
    · cases hf
      exact ⟨a, .refl _ _, by assumption⟩
    · rename_i hs
      obtain ⟨d, hr, hd⟩ := ih hf
      exact ⟨d, .step hs hr, hd⟩

theorem find_level_le {k : ℕ} (hf : find h p l a = .leaf k x) : k ≤ l := by
  obtain ⟨c, hr, -⟩ := reach_of_find hf
  exact hr.le

/-- A leaf serves all keys that agree down to its level. -/
theorem find_agree {q : ℕ → δ} {k : ℕ} (hf : find h p l a = .leaf k x)
    (hpq : ∀ i, k ≤ i → i ≤ l → p i = q i) : find h q l a = .leaf k x := by
  obtain ⟨c, hr, hs⟩ := reach_of_find hf
  rw [(hr.agree fun i hlt hle => hpq i hlt.le hle).find_eq]
  exact find_leaf (by rwa [← hpq k le_rfl hr.le])

/-! ## Labels -/

/-- The place of a node: its level and the digits on the way to it, the last one first.
    Nodes of different spaces are different even at the same place. -/
structure Label (σ δ : Type*) where
  space : σ
  level : ℕ
  path : List δ

section Label

variable (sub : σ → ℕ → δ → σ)

/-- The label below a slot; `sub` says how the space changes. -/
def Label.child (n : Label σ δ) (i : δ) : Label σ δ :=
  ⟨sub n.space n.level i, n.level - 1, i :: n.path⟩

/-- The label after `k` steps of the walk of `p`. -/
def Label.down (p : ℕ → δ) : Label σ δ → ℕ → Label σ δ
  | n, 0 => n
  | n, k + 1 => (n.child sub (p n.level)).down p k

variable {sub}

@[simp] theorem Label.level_child (n : Label σ δ) (i : δ) : (n.child sub i).level = n.level - 1 :=
  rfl

theorem Label.level_down (p : ℕ → δ) (n : Label σ δ) (k : ℕ) : (n.down sub p k).level = n.level - k := by
  induction k generalizing n with
  | zero => rfl
  | succ k ih =>
    rw [Label.down, ih, Label.level_child]
    omega

/-- Walks that end at the same place have followed the same digits. -/
theorem Label.agree_of_path_eq {p q : ℕ → δ} {n n' : Label σ δ} {k : ℕ}
    (hlevel : n.level = n'.level) (hlength : n.path.length = n'.path.length)
    (hk : k ≤ n.level) (heq : (n.down sub p k).path = (n'.down sub q k).path) :
    n.path = n'.path ∧ ∀ i, n.level - k < i → i ≤ n.level → p i = q i := by
  induction k generalizing n n' with
  | zero => exact ⟨heq, fun i h1 h2 => by omega⟩
  | succ k ih =>
    have hnext : ((n.child sub (p n.level)).down sub p k).path =
        ((n'.child sub (q n'.level)).down sub q k).path := heq
    obtain ⟨hpath, hdigits⟩ := ih (by simp [hlevel]) (by simp [Label.child, hlength])
      (by rw [Label.level_child]; omega) hnext
    rw [Label.level_child] at hdigits
    simp only [Label.child, cons.injEq] at hpath
    refine ⟨hpath.2, fun i hlt hle => ?_⟩
    rcases Nat.lt_or_ge i n.level with hi | hi
    · exact hdigits i (by omega) (by omega)
    · obtain rfl : i = n.level := by omega
      rw [hpath.1, hlevel]

theorem Label.down_congr {p q : ℕ → δ} {n : Label σ δ} {k : ℕ} (hk : k ≤ n.level)
    (h : ∀ i, n.level - k < i → i ≤ n.level → p i = q i) : n.down sub p k = n.down sub q k := by
  induction k generalizing n with
  | zero => rfl
  | succ k ih =>
    rw [Label.down, Label.down, h n.level (by omega) le_rfl]
    refine ih (n := n.child sub (q n.level)) ?_ fun i hlt hle => h i ?_ ?_
    all_goals rw [Label.level_child] at *; omega

end Label

/-- The labels fit the heap: a link leads to the node below. The free nodes have none. -/
structure Owned (sub : σ → ℕ → δ → σ) (h : Heap α β δ) (own : α → Option (Label σ δ))
    (free : List α) : Prop where
  child : ∀ {a n i c}, own a = some n → h a i = .node c → 0 < n.level ∧ own c = some (n.child sub i)
  fresh : ∀ {a}, a ∈ free → own a = none
  nodup : free.Nodup

variable {n : Label σ δ} {own : α → Option (Label σ δ)}

section

variable (ho : Owned sub h own free)

include ho

section

variable (ha : own a = some n) (hl : n.level = l)

include ha hl

theorem Owned.reach {j : ℕ} {c : α} (hr : Reach h p l a j c) :
    own c = some (n.down sub p (l - j)) := by
  induction hr generalizing n with
  | refl l a => simpa [Label.down] using ha
  | @step l j a c d hs hr ih =>
    have hc := (ho.child ha hs).2
    have hle := hr.le
    rw [ih hc (by simp [Label.child, hl]), Nat.succ_sub hle, Label.down, hl]

theorem Owned.level_of_reach {j : ℕ} {c : α} {m : Label σ δ} (hr : Reach h p l a j c)
    (hc : own c = some m) : m.level = j := by
  rw [ho.reach ha hl hr, some_inj] at hc
  rw [← hc, Label.level_down, hl, Nat.sub_sub_self hr.le]

/-- With labels that fit, no search ends in a link of level 0. -/
theorem Owned.find_ne_broken : find h p l a ≠ .broken := by
  induction l generalizing a n with
  | zero =>
    cases hs : h a (p 0) with
    | hole => simp [find_hole hs]
    | leaf x => simp [find_leaf hs]
    | node c =>
      have := (ho.child ha hs).1
      omega
  | succ l ih =>
    cases hs : h a (p (l + 1)) with
    | hole => simp [find_hole hs]
    | leaf x => simp [find_leaf hs]
    | node c =>
      rw [find_node hs]
      exact ih (ho.child ha hs).2 (by rw [Label.level_child]; omega)

/-- Searches from a node with a label read only nodes with labels. -/
theorem Owned.find_congr {h' : Heap α β δ} (hsame : ∀ {c n}, own c = some n → h' c = h c) :
    find h' p l a = find h p l a :=
  RadixTree.find_congr fun _ _ hr => by rw [hsame (ho.reach ha hl hr)]

end

/-- Nodes without a label may be changed or taken. -/
theorem Owned.frame {h' : Heap α β δ} {free' : List α}
    (hsame : ∀ {c n}, own c = some n → h' c = h c) (hfree : free'.Sublist free) :
    Owned sub h' own free' := by
  refine ⟨fun ha hs => ?_, fun hmem => ho.fresh (hfree.subset hmem), ho.nodup.sublist hfree⟩
  rw [hsame ha] at hs
  exact ho.child ha hs

end

/-- A free node becomes a copy of another one. The links may have only one label below both. -/
theorem Owned.copy [DecidableEq α] {c : α} (ho : Owned sub h own (c :: free)) {n' : Label σ δ}
    (ha : own a = some n) (hlevel : n'.level = n.level)
    (hsub : ∀ i d, h a i = .node d → n'.child sub i = n.child sub i) :
    Owned sub (update h c (h a)) (update own c (some n')) free := by
  have hc : own c = none := ho.fresh mem_cons_self
  have hne {b : α} {m : Label σ δ} (hb : own b = some m) : b ≠ c := by
    rintro rfl
    rw [hc] at hb
    contradiction
  refine ⟨fun {b m i d} hb hs => ?_, fun {b} hb => ?_, ho.nodup.of_cons⟩
  · by_cases hbc : b = c
    · subst hbc
      rw [update_self] at hb hs
      cases hb
      obtain ⟨hpos, hd⟩ := ho.child ha hs
      exact ⟨hlevel ▸ hpos, by rw [update_of_ne (hne hd), hd, hsub i d hs]⟩
    · rw [update_of_ne hbc] at hb hs
      obtain ⟨hpos, hd⟩ := ho.child hb hs
      exact ⟨hpos, by rw [update_of_ne (hne hd), hd]⟩
  · have hbc : b ≠ c := fun heq => (nodup_cons.mp ho.nodup).1 (heq ▸ hb)
    rw [update_of_ne hbc]
    exact ho.fresh (mem_cons_of_mem _ hb)

/-! ## Editing -/

/-- What a search that ends at this slot finds. -/
def Slot.found (l : ℕ) : Slot α β → Found β
  | .hole => .hole
  | .leaf x => .leaf l x
  | .node _ => .broken

/-- The slots of a node that takes the place of a hole or of a leaf; `part` gives the
    pieces of a leaf. -/
def Slot.expand (part : β → δ → β) : Slot α β → δ → Slot α β
  | .leaf x, i => .leaf (part x i)
  | _, _ => .hole

def Slot.isNode : Slot α β → Bool
  | .node _ => true
  | _ => false

def Slot.isLeaf : Slot α β → Bool
  | .leaf _ => true
  | _ => false

theorem expand_ne_node {part : β → δ → β} {s : Slot α β} {j : δ} {b : α} : s.expand part j ≠ .node b := by
  cases s <;> simp [Slot.expand]

section Write

variable [DecidableEq α] [DecidableEq δ]

def write (h : Heap α β δ) (a : α) (i : δ) (s : Slot α β) : Heap α β δ :=
  update h a (update (h a) i s)

@[simp] theorem write_self (h : Heap α β δ) (a : α) (i : δ) (s : Slot α β) :
    write h a i s a i = s := by
  simp [write]

theorem write_of_ne {h : Heap α β δ} {a a' : α} {i i' : δ} (s : Slot α β)
    (hne : a' ≠ a ∨ i' ≠ i) : write h a i s a' i' = h a' i' := by
  by_cases ha : a' = a
  · subst ha
    simp [write, update_of_ne (hne.resolve_left (by simp))]
  · simp [write, update_of_ne ha]

@[simp] theorem write_same (h : Heap α β δ) (a : α) (i : δ) : write h a i (h a i) = h := by
  simp [write]

/-- A heap with the nodes that are free and the number of leaves that have been split. -/
structure Store (α β δ : Type*) where
  heap : Heap α β δ
  free : List α
  splits : ℕ

/-- Replace a hole or a leaf by a new node. -/
def Store.attach (part : β → δ → β) (st : Store α β δ) (a : α) (i : δ) :
    Option (α × Store α β δ) :=
  match st.free with
  | [] => none
  | c :: free =>
    some (c, ⟨write (update st.heap c ((st.heap a i).expand part)) a i (.node c), free,
      st.splits + (st.heap a i).isLeaf.toNat⟩)

/-- An edit: the slot to write in the node of level `target` on the way of `key`, and
    whether missing nodes are created. -/
structure Edit (α β δ : Type*) where
  key : ℕ → δ
  target : ℕ
  slot : Slot α β
  create : Bool

/-- Carry out an edit from a node that lies `d` levels above the target. Without `create`
    it stops at a hole. -/
def edit (part : β → δ → β) (e : Edit α β δ) : ℕ → α → Store α β δ → Option (Store α β δ)
  | 0, a, st => some { st with heap := write st.heap a (e.key e.target) e.slot }
  | d + 1, a, st =>
    match st.heap a (e.key (e.target + d + 1)) with
    | .node c => edit part e d c st
    | s =>
      if s.isLeaf = false ∧ e.create = false then some st
      else
        match st.attach part a (e.key (e.target + d + 1)) with
        | none => none
        | some (c, st) => edit part e d c st

/-- The edits that are considered: none writes a link, and one that creates nothing
    writes a hole. -/
structure Edit.Proper (e : Edit α β δ) : Prop where
  isNode : e.slot.isNode = false
  hole : e.create = false → e.slot = .hole

/-! ### Attaching a node -/

section Attach

variable {part : β → δ → β} {st st' : Store α β δ} {a c : α} {i : δ} {sub : σ → ℕ → δ → σ}
  {own : α → Option (Label σ δ)} {n : Label σ δ} (hnew : st.attach part a i = some (c, st'))

include hnew

theorem attach_spec :
    st.free = c :: st'.free ∧ st'.splits = st.splits + (st.heap a i).isLeaf.toNat ∧
      st'.heap = write (update st.heap c ((st.heap a i).expand part)) a i (.node c) := by
  unfold Store.attach at hnew
  split at hnew
  · contradiction
  · rename_i c' free hfree
    cases hnew
    exact ⟨hfree, rfl, rfl⟩

theorem attach_link : st'.heap a i = .node c := by
  rw [(attach_spec hnew).2.2, write_self]

theorem attach_new (hne : c ≠ a) (j : δ) : st'.heap c j = (st.heap a i).expand part j := by
  rw [(attach_spec hnew).2.2, write_of_ne _ (.inl hne), update_self]

theorem attach_old {b : α} {j : δ} (hc : b ≠ c) (hne : b ≠ a ∨ j ≠ i) :
    st'.heap b j = st.heap b j := by
  rw [(attach_spec hnew).2.2, write_of_ne _ hne, update_of_ne hc]

theorem Owned.attach_ne (ho : Owned sub st.heap own st.free) (ha : own a = some n) :
    own c = none ∧ c ≠ a := by
  have hc : own c = none := ho.fresh (by rw [(attach_spec hnew).1]; exact mem_cons_self)
  refine ⟨hc, ?_⟩
  rintro rfl
  rw [hc] at ha
  contradiction

/-- The new node gets the label of its place. -/
theorem Owned.attach (ho : Owned sub st.heap own st.free) (ha : own a = some n)
    (hl : 0 < n.level) : Owned sub st'.heap (update own c (some (n.child sub i))) st'.free := by
  obtain ⟨hc, hne⟩ := ho.attach_ne hnew ha
  obtain ⟨hfree, -, -⟩ := attach_spec hnew
  have hnodup := ho.nodup
  rw [hfree, nodup_cons] at hnodup
  refine ⟨?_, fun {b} hb => ?_, hnodup.2⟩
  · intro b m j d hb hs
    by_cases hbc : b = c
    · subst hbc
      rw [attach_new hnew hne] at hs
      exact absurd hs expand_ne_node
    · rw [update_of_ne hbc] at hb
      by_cases hslot : b = a ∧ j = i
      · obtain ⟨rfl, rfl⟩ := hslot
        rw [attach_link hnew] at hs
        cases hs
        rw [ha] at hb
        cases hb
        exact ⟨hl, update_self ..⟩
      · rw [attach_old hnew hbc (by tauto)] at hs
        obtain ⟨hm, hd⟩ := ho.child hb hs
        refine ⟨hm, ?_⟩
        rw [update_of_ne, hd]
        rintro rfl
        rw [hc] at hd
        contradiction
  · have hbc : b ≠ c := fun heq => hnodup.1 (heq ▸ hb)
    rw [update_of_ne hbc]
    exact ho.fresh (hfree ▸ mem_cons_of_mem _ hb)

end Attach

/-! ### Steps of an edit -/

section Edit

variable {part : β → δ → β} {e : Edit α β δ} {d : ℕ} {a : α} {st st' : Store α β δ}
  {own : α → Option (Label σ δ)} {sub : σ → ℕ → δ → σ}

theorem edit_zero (h : edit part e 0 a st = some st') :
    st'.heap = write st.heap a (e.key e.target) e.slot ∧ st'.free = st.free := by
  cases h
  exact ⟨rfl, rfl⟩

/-- An edit above its target follows a link, stops at a hole, or attaches a node. -/
theorem edit_succ {i} (hi : e.key (e.target + d + 1) = i) (h : edit part e (d + 1) a st = some st') :
    (∃ c, st.heap a i = .node c ∧ edit part e d c st = some st') ∨
      (st.heap a i = .hole ∧ e.create = false ∧ st' = st) ∨
      ∃ c mid, (st.heap a i).isNode = false ∧ (st.heap a i = .hole → e.create = true) ∧
        st.attach part a i = some (c, mid) ∧ edit part e d c mid = some st' := by
  rw [edit, hi] at h
  split at h
  · rename_i c hs
    exact .inl ⟨c, hs, h⟩
  · rename_i s hs
    have hnode : (st.heap a i).isNode = false := by
      cases hslot : st.heap a i with
      | node c => exact absurd hslot (hs c)
      | hole => rfl
      | leaf x => rfl
    split_ifs at h with hstop
    · refine .inr (.inl ⟨?_, hstop.2, (some.inj h).symm⟩)
      revert hstop hnode
      cases st.heap a i <;> simp [Slot.isLeaf, Slot.isNode]
    · split at h
      · contradiction
      · rename_i c mid hattach
        refine .inr (.inr ⟨c, mid, hnode, fun hhole => ?_, hattach, h⟩)
        rw [hhole] at hstop
        simpa [Slot.isLeaf] using hstop

/-- An edit keeps the labels of the old nodes and gives labels to the nodes that it adds. -/
theorem Owned.edit {n : Label σ δ} (ho : Owned sub st.heap own st.free) (he : e.Proper)
    (ha : own a = some n) (hl : n.level = e.target + d) (h : edit part e d a st = some st') :
    ∃ own', Owned sub st'.heap own' st'.free ∧ ∀ b m, own b = some m → own' b = some m := by
  induction d generalizing a st own n with
  | zero =>
    obtain ⟨hheap, hfree⟩ := edit_zero h
    rw [hheap, hfree]
    refine ⟨own, ⟨fun {b m i c} hb hs => ?_, ho.fresh, ho.nodup⟩, fun _ _ hb => hb⟩
    by_cases hslot : b = a ∧ i = e.key e.target
    · obtain ⟨rfl, rfl⟩ := hslot
      rw [write_self] at hs
      have hnode := he.isNode
      rw [hs] at hnode
      contradiction
    · rw [write_of_ne _ (by tauto)] at hs
      exact ho.child hb hs
  | succ d ih =>
    rcases edit_succ rfl h with ⟨c, hs, hedit⟩ | ⟨-, -, rfl⟩ | ⟨c, mid, -, -, hattach, hedit⟩
    · have hc := (ho.child ha hs).2
      exact ih ho hc (by rw [Label.level_child]; omega) hedit
    · exact ⟨own, ho, fun _ _ hb => hb⟩
    · obtain ⟨own', ho', hsub⟩ := ih (ho.attach hattach ha (by omega)) (update_self ..)
        (by rw [Label.level_child]; omega) hedit
      refine ⟨own', ho', fun b m hb => hsub b m ?_⟩
      have hbc : b ≠ c := by
        rintro rfl
        rw [(ho.attach_ne hattach ha).1] at hb
        contradiction
      rw [update_of_ne hbc, hb]

/-- An edit takes nodes from the free list in order, at most one per level. -/
theorem edit_free (h : edit part e d a st = some st') :
    st'.free <:+ st.free ∧ st.free.length ≤ st'.free.length + d := by
  induction d generalizing a st with
  | zero =>
    rw [(edit_zero h).2]
    exact ⟨suffix_rfl, le_rfl⟩
  | succ d ih =>
    rcases edit_succ rfl h with ⟨c, -, hedit⟩ | ⟨-, -, rfl⟩ | ⟨c, mid, -, -, hattach, hedit⟩
    · exact ⟨(ih hedit).1, by have := (ih hedit).2; omega⟩
    · exact ⟨suffix_rfl, by omega⟩
    · have hfree := (attach_spec hattach).1
      obtain ⟨hsuffix, hlength⟩ := ih hedit
      rw [hfree, length_cons]
      exact ⟨hsuffix.trans (suffix_cons _ _), by omega⟩

theorem edit_isSome (hfree : d ≤ st.free.length) : (edit part e d a st).isSome = true := by
  induction d generalizing a st with
  | zero => rfl
  | succ d ih =>
    rw [edit]
    split
    · exact ih (by omega)
    · split_ifs
      · rfl
      · unfold Store.attach
        cases hlist : st.free with
        | nil => simp [hlist] at hfree
        | cons c free =>
          rw [hlist, length_cons] at hfree
          exact ih (by simp only; omega)

theorem reach_attached {i : δ} {c c' : α} {key : ℕ → δ} {l j : ℕ}
    (hattach : st.attach part a i = some (c, st')) (hne : c ≠ a)
    (hr : Reach st'.heap key l c j c') : c' = c ∧ j = l := by
  cases hr with
  | refl => exact ⟨rfl, rfl⟩
  | step hs _ =>
    rw [attach_new hattach hne] at hs
    exact absurd hs expand_ne_node

/-- Of the old slots an edit changes one, which lies on the way of its key. -/
theorem edit_slot {n : Label σ δ} (ho : Owned sub st.heap own st.free) (ha : own a = some n)
    (hl : n.level = e.target + d) (h : edit part e d a st = some st') :
    ∃ j c, e.target ≤ j ∧ Reach st.heap e.key (e.target + d) a j c ∧
      ∀ b i, (own b).isSome = true → b ≠ c ∨ i ≠ e.key j → st'.heap b i = st.heap b i := by
  induction d generalizing a st own n with
  | zero =>
    rw [(edit_zero h).1]
    exact ⟨e.target, a, le_rfl, .refl _ _, fun b i _ hne => write_of_ne _ hne⟩
  | succ d ih =>
    rcases edit_succ rfl h with ⟨c, hs, hedit⟩ | ⟨-, -, rfl⟩ | ⟨c, mid, -, -, hattach, hedit⟩
    · obtain ⟨j, c', hj, hr, hsame⟩ :=
        ih ho (ho.child ha hs).2 (by rw [Label.level_child]; omega) hedit
      exact ⟨j, c', hj, .step hs hr, hsame⟩
    · exact ⟨_, a, by omega, .refl _ _, fun _ _ _ _ => rfl⟩
    · obtain ⟨hc, hne⟩ := ho.attach_ne hattach ha
      obtain ⟨j, c', hj, hr, hsame⟩ := ih (ho.attach hattach ha (by omega))
        (update_self ..) (by rw [Label.level_child]; omega) hedit
      obtain ⟨rfl, -⟩ := reach_attached hattach hne hr
      refine ⟨_, a, by omega, .refl _ _, fun b i hb hslot => ?_⟩
      have hbc : b ≠ c' := by
        rintro rfl
        rw [hc] at hb
        contradiction
      rw [hsame b i (by rwa [update_of_ne hbc]) (.inl hbc), attach_old hattach hbc hslot]

end Edit

end Write

end RadixTree

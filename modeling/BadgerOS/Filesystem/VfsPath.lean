import BadgerOS.Filesystem.Vfs

/-!
# Paths

* `components`: the names in a path.
* `dedupSlashes_spec`: merging slashes leaves the names as they are.
* `components_cases`: what stands in front of and behind the first name.
* `stripSlashes_append`: trailing slashes are removed, and nothing else.
-/

namespace BadgerOS.Filesystem

open List Option

/-- The names in a path, without the slashes. -/
def components (path : List UInt8) : List (List UInt8) :=
  (path.splitOn slashChar).filter (· ≠ [])

/-- A name without a slash. -/
structure PlainName (name : List UInt8) : Prop where
  ne_nil : name ≠ []
  no_slash : ∀ b ∈ name, b ≠ slashChar

section

variable {name rest path : List UInt8} {comps : List (List UInt8)}

@[simp] theorem components_slash (path : List UInt8) :
    components (slashChar :: path) = components path := by
  rw [components, List.splitOn, splitOnP_cons_eq_if_modifyHead, if_pos (beq_self_eq_true _),
    filter_cons_of_neg (by simp)]
  rfl

theorem PlainName.beq_false (h : PlainName name) : ∀ b ∈ name, (b == slashChar) = false :=
  fun b hb => beq_eq_false_iff_ne.mpr (h.no_slash b hb)

theorem components_name (h : PlainName name) : components name = [name] := by
  rw [components, List.splitOn, splitOnP_eq_singleton h.beq_false,
    filter_cons_of_pos (by simpa using h.ne_nil), filter_nil]

theorem components_append (h : PlainName name) (path : List UInt8) :
    components (name ++ slashChar :: path) = name :: components path := by
  rw [components, List.splitOn, splitOnP_append_cons_of_forall_mem h.beq_false _
    (beq_self_eq_true _), filter_cons_of_pos (by simpa using h.ne_nil)]
  rfl

theorem exists_name (hne : path ≠ []) (hhead : path.head? ≠ some slashChar) :
    ∃ name rest, path = name ++ rest ∧ PlainName name ∧
      (rest = [] ∨ ∃ path', rest = slashChar :: path') := by
  refine ⟨path.takeWhile (· ≠ slashChar), path.dropWhile (· ≠ slashChar),
    takeWhile_append_dropWhile.symm, ⟨?_, ?_⟩, ?_⟩
  · obtain ⟨b, path', rfl⟩ := exists_cons_of_ne_nil hne
    have hb : b ≠ slashChar := fun h => hhead (by rw [h]; rfl)
    rw [takeWhile_cons_of_pos (by simpa using hb)]
    exact cons_ne_nil _ _
  · intro b hb
    simpa using all_eq_true.mp all_takeWhile b hb
  · rcases hdrop : path.dropWhile (· ≠ slashChar) with _ | ⟨b, path'⟩
    · exact .inl rfl
    · have hb := head_dropWhile_not (fun b => decide (b ≠ slashChar)) (l := path)
        (by rw [hdrop]; exact cons_ne_nil _ _)
      simp only [hdrop, head_cons, decide_eq_false_iff_not, not_not] at hb
      exact .inr ⟨path', by rw [hb]⟩

/-! ## Repeated slashes -/

/-- No two slashes stand next to each other. -/
def NoDoubleSlash (path : List UInt8) : Prop :=
  path.IsChain fun a b => ¬ (a = slashChar ∧ b = slashChar)

theorem head_dedupSlashes (path : List UInt8) : (dedupSlashes path).head? = path.head? := by
  fun_induction dedupSlashes path with
  | case1 a b rest h ih =>
    rw [Bool.and_eq_true, decide_eq_true_eq, decide_eq_true_eq] at h
    rw [ih, h.1, h.2]
    rfl
  | case2 => rfl
  | case3 => rfl

theorem noDoubleSlash_dedupSlashes (path : List UInt8) : NoDoubleSlash (dedupSlashes path) := by
  fun_induction dedupSlashes path with
  | case1 a b rest h ih => exact ih
  | case2 a b rest h ih =>
    rw [Bool.and_eq_true, decide_eq_true_eq, decide_eq_true_eq] at h
    rcases hd : dedupSlashes (b :: rest) with _ | ⟨b', rest'⟩
    · exact isChain_singleton a
    · have hhead := head_dedupSlashes (b :: rest)
      rw [hd, head?_cons, head?_cons, some.injEq] at hhead
      rw [hd] at ih
      exact isChain_cons_cons.mpr ⟨hhead ▸ h, ih⟩
  | case3 path h =>
    match path, h with
    | [], _ => exact isChain_nil
    | [a], _ => exact isChain_singleton a
    | a :: b :: rest, h => exact absurd rfl (h a b rest)

theorem components_ne_nil (hne : path ≠ []) (hhead : path.head? ≠ some slashChar) : components path ≠ [] := by
  obtain ⟨name, rest, rfl, hname, rfl | ⟨path', rfl⟩⟩ := exists_name hne hhead
  · rw [append_nil, components_name hname]
    exact cons_ne_nil _ _
  · rw [components_append hname]
    exact cons_ne_nil _ _

theorem components_cons_name {a : UInt8} (ha : a ≠ slashChar) (hne : path ≠ []) (hhead : path.head? ≠ some slashChar) :
    components (a :: path) = (components path).modifyHead (a :: ·) := by
  obtain ⟨name, rest, rfl, hname, hrest⟩ := exists_name hne hhead
  have hname' : PlainName (a :: name) := ⟨cons_ne_nil _ _, forall_mem_cons.mpr ⟨ha, hname.no_slash⟩⟩
  rcases hrest with rfl | ⟨path', rfl⟩
  · rw [append_nil, components_name hname, components_name hname', modifyHead_cons]
  · rw [← cons_append, components_append hname', components_append hname, modifyHead_cons]

/-- The names do not change when those of the rest do not, and the rest starts as before. -/
theorem components_cons_congr {a : UInt8} {path' : List UInt8} (hhead : path'.head? = path.head?)
    (h : components path' = components path) :
    components (a :: path') = components (a :: path) := by
  by_cases ha : a = slashChar
  · rw [ha, components_slash, components_slash, h]
  have hsingle : PlainName [a] := ⟨cons_ne_nil _ _, by simpa using ha⟩
  rcases path with _ | ⟨b, rest⟩
  · obtain rfl : path' = [] := head?_eq_none_iff.mp hhead
    rfl
  · obtain ⟨rest', rfl⟩ := head?_eq_some_iff.mp hhead
    by_cases hb : b = slashChar
    · have heq : ∀ r, a :: slashChar :: r = [a] ++ slashChar :: r := fun r => rfl
      rw [hb, components_slash, components_slash] at h
      rw [hb, heq, heq, components_append hsingle, components_append hsingle, h]
    · have hb' : ∀ r, (b :: r).head? ≠ some slashChar := fun r h => hb (some.inj h)
      rw [components_cons_name ha (cons_ne_nil _ _) (hb' _),
        components_cons_name ha (cons_ne_nil _ _) (hb' _), h]

theorem components_dedupSlashes (path : List UInt8) : components (dedupSlashes path) = components path := by
  fun_induction dedupSlashes path with
  | case1 a b rest h ih =>
    rw [Bool.and_eq_true, decide_eq_true_eq, decide_eq_true_eq] at h
    rw [ih, h.1, components_slash]
  | case2 a b rest h ih => exact components_cons_congr (head_dedupSlashes _) ih
  | case3 => rfl

/-- What stands behind a name: the end, one last slash, or a slash and the next name. -/
def NameRest (rest : List UInt8) (comps : List (List UInt8)) : Prop :=
  comps = [] ∧ (rest = [] ∨ rest = [slashChar]) ∨
    ∃ path, rest = slashChar :: path ∧ path ≠ [] ∧ comps ≠ [] ∧ NoDoubleSlash rest ∧
      components rest = comps

theorem NameRest.head (h : NameRest rest comps) : rest = [] ∨ ∃ path, rest = slashChar :: path := by
  rcases h with ⟨_, rfl | rfl⟩ | ⟨path, rfl, _⟩
  · exact .inl rfl
  · exact .inr ⟨[], rfl⟩
  · exact .inr ⟨path, rfl⟩

theorem components_cases_name (hpath : NoDoubleSlash path) (hne : path ≠ [])
    (hhead : path.head? ≠ some slashChar) (h : components path = name :: comps) :
    PlainName name ∧ ∃ rest, path = name ++ rest ∧ NameRest rest comps := by
  obtain ⟨name', rest, rfl, hname, rfl | ⟨path', rfl⟩⟩ := exists_name hne hhead
  · rw [append_nil, components_name hname] at h
    cases h
    exact ⟨hname, [], rfl, .inl ⟨rfl, .inl rfl⟩⟩
  · rw [components_append hname] at h
    cases h
    refine ⟨hname, _, rfl, ?_⟩
    have hrest : NoDoubleSlash (slashChar :: path') := hpath.right_of_append
    rcases path' with _ | ⟨b, path'⟩
    · exact .inl ⟨rfl, .inr rfl⟩
    · have hb : (b :: path').head? ≠ some slashChar := fun hb =>
        (isChain_cons_cons.mp hrest).1 ⟨rfl, some.inj hb⟩
      exact .inr ⟨_, rfl, cons_ne_nil _ _, components_ne_nil (cons_ne_nil _ _) hb, hrest,
        components_slash _⟩

/-- The first name of a path: at most one slash stands in front of it. -/
theorem components_cases (hpath : NoDoubleSlash path) (h : components path = name :: comps) :
    PlainName name ∧ ∃ rest, (path = name ++ rest ∨ path = slashChar :: (name ++ rest)) ∧
      NameRest rest comps := by
  rcases path with _ | ⟨b, path⟩
  · cases h
  by_cases hb : b = slashChar
  · subst hb
    rw [components_slash] at h
    have hne : path ≠ [] := by
      rintro rfl
      cases h
    have hhead : path.head? ≠ some slashChar := by
      intro hhead
      obtain ⟨rest, rfl⟩ := head?_eq_some_iff.mp hhead
      exact (isChain_cons_cons.mp hpath).1 ⟨rfl, rfl⟩
    obtain ⟨hname, rest, rfl, hrest⟩ := components_cases_name hpath.tail hne hhead h
    exact ⟨hname, rest, .inr rfl, hrest⟩
  · obtain ⟨hname, rest, heq, hrest⟩ := components_cases_name hpath (cons_ne_nil b path)
      (fun h => hb (some.inj h)) h
    exact ⟨hname, rest, .inl heq, hrest⟩

theorem dedupSlashes_of_components_nil (h : components path = []) (hne : path ≠ []) : dedupSlashes path = [slashChar] := by
  have hdouble := noDoubleSlash_dedupSlashes path
  have hhead := head_dedupSlashes path
  rw [← components_dedupSlashes] at h
  rcases hd : dedupSlashes path with _ | ⟨b, rest⟩
  · rw [hd] at hhead
    exact absurd (head?_eq_none_iff.mp hhead.symm) hne
  · rw [hd] at h hdouble
    by_cases hb : b = slashChar
    · subst hb
      rcases rest with _ | ⟨b', rest'⟩
      · rfl
      · have hb' : (b' :: rest').head? ≠ some slashChar := fun hb' =>
          (isChain_cons_cons.mp hdouble).1 ⟨rfl, some.inj hb'⟩
        rw [components_slash] at h
        exact absurd h (components_ne_nil (cons_ne_nil _ _) hb')
    · exact absurd h (components_ne_nil (cons_ne_nil _ _) fun h => hb (some.inj h))

/-! ## Scanning -/

theorem nameEnd_append (before : List UInt8) (hname : PlainName name)
    (hrest : rest = [] ∨ ∃ path', rest = slashChar :: path') :
    nameEnd (before ++ (name ++ rest)) before.length = (before ++ name).length := by
  have hno : ∀ b ∈ name, ¬ (decide (b = slashChar) = true) := fun b hb h =>
    hname.no_slash b hb (of_decide_eq_true h)
  have hfind : (name ++ rest).findIdx (· = slashChar) = name.length := by
    have hnone : name.findIdx (· = slashChar) = name.length :=
      findIdx_eq_length_of_false fun b hb => by simpa using hno b hb
    rw [findIdx_append, hnone, if_neg (lt_irrefl _)]
    rcases hrest with rfl | ⟨path', rfl⟩
    · rw [findIdx_nil, zero_add]
    · rw [findIdx_cons, decide_eq_true rfl, cond_true, zero_add]
  rw [nameEnd, drop_left, hfind, length_append]

theorem stripSlashes_append (before : List UInt8) (hname : PlainName name) (hrest : rest = [] ∨ rest = [slashChar]) :
    stripSlashes (before ++ (name ++ rest)) = before ++ name := by
  obtain ⟨front, b, rfl⟩ : ∃ front b, name = front ++ [b] :=
    ⟨_, _, (dropLast_append_getLast hname.ne_nil).symm⟩
  have hb : b ≠ slashChar := hname.no_slash b (by simp)
  have hslash : ∀ c ∈ rest.reverse, decide (c = slashChar) = true := by
    rcases hrest with rfl | rfl <;> simp
  have heq : before ++ (front ++ [b] ++ rest) = (before ++ front) ++ b :: rest := by simp
  rw [heq, ← append_assoc]
  rcases before ++ front with _ | ⟨a, l⟩
  · have hdrop : rest.reverse.dropWhile (· = slashChar) = [] := by
      rcases hrest with rfl | rfl <;> simp
    rw [nil_append, stripSlashes, take_one, head?_cons, drop_one, tail_cons, hdrop]
    rfl
  · have hdrop : (l ++ b :: rest).reverse.dropWhile (· = slashChar) = b :: l.reverse := by
      rw [reverse_append, reverse_cons, append_assoc,
        dropWhile_append_of_pos hslash, singleton_append,
        dropWhile_cons_of_neg (by simpa using hb)]
    rw [cons_append, stripSlashes, take_one, head?_cons, drop_one,
      tail_cons, hdrop, reverse_cons, reverse_reverse]
    rfl

end

end BadgerOS.Filesystem

import BadgerOS.Filesystem.VfsMount

/-!
# Canonical paths

`fs_is_canonical_path` (`kernel/src/filesystem/filesystem.c` lines 477–499). A canonical path
starts with a slash, has no two slashes in a row, and no component `.` or `..`.

* `fsIsCanonicalPath_iff`: the paths that the function accepts.
* `fsIsCanonicalPath_correct_iff`: the paths for which its answer is right.

**Deviation.** At the start of a component that begins with a dot the function looks at
`path[i]` where `i` is 0 or 1, which is one of the dots and not the character behind them: no
path is rejected for its dots. Two slashes are found at the start of the path only, and elsewhere
only if they are followed by a third one (`canonicalPath_accepts_dot`).
-/

namespace BadgerOS.Filesystem

open List

/-- What the function is for. -/
structure IsCanonicalPath (path : List UInt8) : Prop where
  head : path[0]? = some slashChar
  no_double : ¬ [slashChar, slashChar] <:+: path
  no_dots : ∀ name ∈ path.splitOn slashChar, name ≠ dot ∧ name ≠ dotdot

/-! ## What the function accepts -/

section

variable {b : UInt8} {name path : List UInt8}

theorem prefix_double_iff : [slashChar, slashChar] <+: path ↔ path[0]? = some slashChar ∧ path[1]? = some slashChar := by
  rcases path with _ | ⟨a, _ | ⟨b, path⟩⟩
  · simp
  · simp [cons_prefix_cons]
  · simp [cons_prefix_cons, nil_prefix, eq_comm (a := slashChar)]

theorem infix_triple_append (hname : ∀ b ∈ name, b ≠ slashChar) :
    [slashChar, slashChar, slashChar] <:+: name ++ slashChar :: path ↔
      [slashChar, slashChar] <+: path ∨ [slashChar, slashChar, slashChar] <:+: path := by
  induction name with
  | nil => simp [infix_cons_iff, cons_prefix_cons]
  | cons b name ih =>
    have hb : b ≠ slashChar := hname b mem_cons_self
    rw [cons_append, infix_cons_iff, ih fun c hc => hname c (mem_cons_of_mem _ hc)]
    refine or_iff_right fun h => hb ?_
    exact (cons_prefix_cons.mp h).1.symm

theorem canonicalLoop_succ (rounds : ℕ) (hne : path ≠ []) : canonicalLoop (rounds + 1) path =
      if [slashChar, slashChar] <+: path then false
      else match path.findIdx? (· = slashChar) with
        | none => true
        | some index => canonicalLoop rounds (path.drop (index + 1)) := by
  have hdots : ¬ (path[0]? = some 46 ∧ (path.getD (if path[1]? = some 46 then 1 else 0) 0 = 0 ∨
        path.getD (if path[1]? = some 46 then 1 else 0) 0 = slashChar)) := by
    rintro ⟨h0, h⟩
    simp only [getD_eq_getElem?_getD] at h
    split_ifs at h with h1
    · rw [h1] at h
      exact absurd h (by decide)
    · rw [h0] at h
      exact absurd h (by decide)
  by_cases hdouble : [slashChar, slashChar] <+: path
  · rw [if_pos hdouble]
    rw [prefix_double_iff] at hdouble
    simp [canonicalLoop, if_neg hne, if_pos hdouble]
  · rw [if_neg hdouble]
    rw [prefix_double_iff] at hdouble
    cases hfind : path.findIdx? (· = slashChar) with
    | _ => simp only [canonicalLoop, if_neg hne, Bool.and_eq_true, Bool.or_eq_true,
        decide_eq_true_eq, if_neg hdots, if_neg hdouble, hfind]

theorem canonicalLoop_iff {rounds : ℕ} (hrounds : path.length < rounds) : canonicalLoop rounds path = true ↔
      ¬ [slashChar, slashChar] <+: path ∧ ¬ [slashChar, slashChar, slashChar] <:+: path := by
  induction rounds generalizing path with
  | zero => omega
  | succ rounds ih =>
    rcases eq_or_ne path [] with rfl | hne
    · simp [canonicalLoop]
    rw [canonicalLoop_succ rounds hne]
    split_ifs with hdouble
    · simp [hdouble]
    cases hfind : path.findIdx? (· = slashChar) with
    | none =>
      -- without a slash there are no two of them
      have hno : slashChar ∉ path := fun h => by
        simpa using findIdx?_eq_none_iff.mp hfind slashChar h
      refine iff_of_true rfl ⟨hdouble, fun h => hno (h.subset mem_cons_self)⟩
    | some index =>
      obtain ⟨hlt, hslash, hbefore⟩ := findIdx?_eq_some_iff_getElem.mp hfind
      have hpath : path = path.take index ++ slashChar :: path.drop (index + 1) := by
        have hat : path[index] = slashChar := by simpa using hslash
        rw [← hat, getElem_cons_drop, take_append_drop]
      have hname : ∀ b ∈ path.take index, b ≠ slashChar := by
        intro b hb
        obtain ⟨k, hk, rfl⟩ := getElem_of_mem hb
        rw [length_take] at hk
        simpa using hbefore k (by omega)
      have htriple : [slashChar, slashChar, slashChar] <:+: path ↔
          [slashChar, slashChar] <+: path.drop (index + 1) ∨
            [slashChar, slashChar, slashChar] <:+: path.drop (index + 1) := by
        conv_lhs => rw [hpath]
        exact infix_triple_append hname
      show canonicalLoop rounds (path.drop (index + 1)) = true ↔ _
      rw [ih (by rw [length_drop]; omega), htriple, not_or, and_iff_right hdouble]

/-- The function accepts a path that starts with one slash and has nowhere three in a row. -/
theorem fsIsCanonicalPath_iff : fsIsCanonicalPath path = true ↔ path[0]? = some slashChar ∧
      ¬ [slashChar, slashChar] <+: path ∧ ¬ [slashChar, slashChar, slashChar] <:+: path := by
  rw [fsIsCanonicalPath, Bool.and_eq_true, decide_eq_true_eq, head?_eq_getElem?,
    canonicalLoop_iff (Nat.lt_succ_self _)]

theorem IsCanonicalPath.accepted (h : IsCanonicalPath path) : fsIsCanonicalPath path = true := by
  refine fsIsCanonicalPath_iff.mpr ⟨h.head, fun hp => h.no_double hp.isInfix, fun hi => ?_⟩
  have htwo : [slashChar, slashChar] <+: [slashChar, slashChar, slashChar] := by decide
  exact h.no_double (htwo.isInfix.trans hi)

/-- The answer is right for the canonical paths and for those that are rejected. -/
theorem fsIsCanonicalPath_correct_iff (path : List UInt8) :
    (fsIsCanonicalPath path = true ↔ IsCanonicalPath path) ↔
      IsCanonicalPath path ∨ path[0]? ≠ some slashChar ∨ [slashChar, slashChar] <+: path ∨
        [slashChar, slashChar, slashChar] <:+: path := by
  by_cases h : IsCanonicalPath path
  · simp [h, h.accepted]
  · rw [iff_false_right h, fsIsCanonicalPath_iff, or_iff_right h]
    tauto

end

/-- The path `/a/.config/..b`. -/
def dottedPath : List UInt8 := [47, 97, 47, 46, 99, 111, 110, 102, 105, 103, 47, 46, 46, 98]

/-- Components that start with dots are accepted. -/
theorem fsIsCanonicalPath_correct_dotted :
    fsIsCanonicalPath dottedPath = true ∧ IsCanonicalPath dottedPath := by
  have hpath : IsCanonicalPath dottedPath := ⟨by decide, by decide, by decide⟩
  exact ⟨((fsIsCanonicalPath_correct_iff dottedPath).mpr (.inl hpath)).mpr hpath, hpath⟩

/-- The path `/.` is accepted. -/
theorem canonicalPath_accepts_dot :
    ¬ ∀ path, fsIsCanonicalPath path = true ↔ IsCanonicalPath path := by
  intro h
  have hpath := (h [47, 46]).mp (by decide)
  exact (hpath.no_dots [46] (by decide)).1 rfl

end BadgerOS.Filesystem

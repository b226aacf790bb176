import BadgerOS.Process.Lifecycle

/-!
# The process tree

Parent pointers and children lists agree as long as no process leaves children behind.

* `Consistent`: a process is on exactly the children list of its parent, every process
  except the first one has a parent in the table, and no list names a deleted process.
* `SameLinks`: steps that only write flags, status codes or signal handlers.
* `Inv.remove`: deleting a process without children.
* `consistent_run`: the tree is consistent in every run in which a process has no children
  when its run-time resources are deleted.
* **Deviation.** `not_consistent_adopted`: `proc_delete_runtime_raw` moves the children of an
  exited process to the list of the init process but leaves their parent pointers alone.
-/

namespace BadgerOS.Lifecycle

open Option (some.inj)

open Function Option List

/-! ## The property -/

/-- Parent pointers and children lists describe one tree over the process table. -/
structure Consistent (s : State) : Prop where
  mem_iff : ∀ {p proc}, s.procs p = some proc → ∀ c,
    c ∈ proc.children ↔ ∃ child, s.procs c = some child ∧ child.parent = some p
  nodup : ∀ {p proc}, s.procs p = some proc → proc.children.Nodup
  parent : ∀ {c child}, s.procs c = some child → c ≠ 1 →
    ∃ p proc, child.parent = some p ∧ s.procs p = some proc

/-- A step for which the tree stays consistent: when the run-time resources of a process
    other than init are deleted, the process has no children. -/
def LeafStep (s : State) (o : Op) : Prop :=
  ValidStep s o ∧ ∀ pid, o = .cleanUp pid ∨ o = .delete pid ∨ (∃ caller, o = .destroy caller pid) →
    ∀ proc, s.procs pid = some proc → pid ≠ 1 → proc.flags.exited = false → proc.children = []

/-- What `LeafStep` says of the process. -/
def LeafAt (s : State) (pid : ℤ) : Prop :=
  ∀ proc, s.procs pid = some proc → pid ≠ 1 → proc.flags.exited = false → proc.children = []

/-! ## Writes to a process -/

section Writes

variable (s : State) (pid q : ℤ)

theorem modify_procs (f : Process → Process) :
    (s.modify pid f).procs q = if q = pid then (s.procs pid).map f else s.procs q := by
  by_cases h : q = pid
  · subst h
    simp [State.modify]
  · simp [State.modify, h]

end Writes

/-- The part of a process that the tree is made of. -/
def Process.links (proc : Process) : Option ℤ × List ℤ := (proc.parent, proc.children)

/-- The table of `t` has the processes of `s`, with the same links. -/
structure SameLinks (s t : State) : Prop where
  links : ∀ q, (t.procs q).map Process.links = (s.procs q).map Process.links
  pidCounter : t.pidCounter = s.pidCounter

namespace SameLinks

variable {s t u : State} {pid : ℤ}

theorem refl (s : State) : SameLinks s s := ⟨fun _ => rfl, rfl⟩

theorem trans (h : SameLinks s t) (h' : SameLinks t u) : SameLinks s u :=
  ⟨fun q => (h'.links q).trans (h.links q), h'.pidCounter.trans h.pidCounter⟩

theorem modify (s : State) (pid : ℤ) {f : Process → Process}
    (hf : ∀ proc, s.procs pid = some proc → (f proc).links = proc.links) :
    SameLinks s (s.modify pid f) := by
  refine ⟨fun q => ?_, rfl⟩
  rw [modify_procs]
  split_ifs with h
  · subst h
    cases hp : s.procs q with
    | none => rfl
    | some proc => exact congrArg some (hf proc hp)
  · rfl

theorem setFlags (s : State) (pid : ℤ) (f : ProcFlags → ProcFlags) : SameLinks s (s.setFlags pid f) :=
  modify s pid fun _ _ => rfl

theorem of_some (h : SameLinks s t) {q : ℤ} {proc : Process} (hq : t.procs q = some proc) :
    ∃ old, s.procs q = some old ∧ old.parent = proc.parent ∧ old.children = proc.children := by
  have hl := h.links q
  rw [hq] at hl
  cases hs : s.procs q with
  | none => rw [hs] at hl; cases hl
  | some old =>
    rw [hs] at hl
    simp only [map_some, some.injEq, Process.links, Prod.mk.injEq] at hl
    exact ⟨old, rfl, hl.1.symm, hl.2.symm⟩

theorem symm (h : SameLinks s t) : SameLinks t s := ⟨fun q => (h.links q).symm, h.pidCounter.symm⟩

end SameLinks

variable {s : State} {pid : ℤ} {t : State}

theorem Consistent.sameLinks (h : Consistent s) (hl : SameLinks s t) : Consistent t where
  mem_iff := by
    intro p proc hp c
    obtain ⟨old, hold, -, hchildren⟩ := hl.of_some hp
    rw [← hchildren, h.mem_iff hold]
    constructor
    · rintro ⟨child, hc, hpar⟩
      obtain ⟨new, hnew, hpar', -⟩ := hl.symm.of_some hc
      exact ⟨new, hnew, hpar'.trans hpar⟩
    · rintro ⟨child, hc, hpar⟩
      obtain ⟨old, hold, hpar', -⟩ := hl.of_some hc
      exact ⟨old, hold, hpar'.trans hpar⟩
  nodup := by
    intro p proc hp
    obtain ⟨old, hold, -, hchildren⟩ := hl.of_some hp
    rw [← hchildren]
    exact h.nodup hold
  parent := by
    intro c child hc hne
    obtain ⟨old, hold, hpar, -⟩ := hl.of_some hc
    obtain ⟨p, proc, hp, hproc⟩ := h.parent hold hne
    obtain ⟨new, hnew, -, -⟩ := hl.symm.of_some hproc
    exact ⟨p, new, hpar ▸ hp, hnew⟩

/-! ## The invariant -/

/-- No exited process except init has children. -/
def Childless (s : State) : Prop :=
  ∀ {p proc}, s.procs p = some proc → proc.flags.exited = true → p ≠ 1 → proc.children = []

/-- The invariant of the process table. -/
structure Inv (s : State) : Prop where
  consistent : Consistent s
  childless : Childless s
  root : ∀ {proc}, s.procs 1 = some proc → proc.parent = none
  range : ∀ {p proc}, s.procs p = some proc → 1 ≤ p ∧ p < s.pidCounter
  pos : 1 ≤ s.pidCounter

namespace Inv

variable {s t : State} {pid : ℤ}

theorem empty (hp : ∀ q, s.procs q = none) (hpos : 1 ≤ s.pidCounter) : Inv s := by
  have hno : ∀ {q proc}, s.procs q ≠ some proc := by
    intro q proc he
    rw [hp] at he
    cases he
  exact ⟨⟨fun he => absurd he hno, fun he => absurd he hno, fun he => absurd he hno⟩,
    fun he => absurd he hno, fun he => absurd he hno, fun he => absurd he hno, hpos⟩

theorem sameLinks (h : Inv s) (hl : SameLinks s t) (hc : Childless t) : Inv t where
  consistent := h.consistent.sameLinks hl
  childless := hc
  root := by
    intro proc hp
    obtain ⟨old, hold, hpar, -⟩ := hl.of_some hp
    exact hpar ▸ h.root hold
  range := by
    intro p proc hp
    obtain ⟨old, hold, -, -⟩ := hl.of_some hp
    rw [hl.pidCounter]
    exact h.range hold
  pos := hl.pidCounter ▸ h.pos

theorem congr (h : Inv s) (hp : t.procs = s.procs) (hc : t.pidCounter = s.pidCounter) : Inv t :=
  h.sameLinks ⟨fun q => by rw [hp], hc⟩ fun {p proc} hq => by
    rw [hp] at hq
    exact h.childless hq

end Inv

/-- A write that lets no process with children become exited. -/
theorem Childless.modify {f : Process → Process} (h : Childless s)
    (hf : ∀ proc, s.procs pid = some proc → (f proc).flags.exited = true → pid ≠ 1 → (f proc).children = []) :
    Childless (s.modify pid f) := by
  intro p proc hp hx hne
  rw [modify_procs] at hp
  split_ifs at hp with he
  · subst he
    obtain ⟨old, hold, rfl⟩ := map_eq_some_iff.mp hp
    exact hf old hold hx hne
  · exact h hp hx hne

/-- When init may die it is the only process. -/
theorem Inv.alone (h : Inv s) {init : Process} (hinit : s.procs 1 = some init)
    (hlen : procsLen s = 1) {q : ℤ} (hq : q ≠ 1) : s.procs q = none := by
  cases hs : s.procs q with
  | none => rfl
  | some proc =>
    exfalso
    obtain ⟨h1, h2⟩ := h.range hs
    obtain ⟨-, h3⟩ := h.range hinit
    have hmem : ∀ {p : ℤ} {proc : Process}, s.procs p = some proc → 1 ≤ p → p < s.pidCounter →
        p.toNat ∈ (List.range s.pidCounter.toNat).filter fun n : ℕ => (s.procs n).isSome := by
      intro p proc hp hp1 hp2
      rw [mem_filter, mem_range]
      refine ⟨by omega, ?_⟩
      rw [Int.toNat_of_nonneg (by omega), hp]
      rfl
    rw [procsLen, countP_eq_length_filter, length_eq_one_iff] at hlen
    obtain ⟨a, ha⟩ := hlen
    have hm1 := hmem hinit le_rfl h3
    have hmq := hmem hs h1 h2
    rw [ha, mem_singleton] at hm1 hmq
    omega

/-! ## Exit -/

/-- `proc_delete_runtime_raw` of a process without children only writes flags; init dies
    only when that is allowed. -/
theorem procDeleteRuntimeRaw_leaf (hst : procDeleteRuntimeRaw s pid = some t)
    (hleaf : LeafAt s pid) (h : Inv s) : SameLinks s t ∧ Inv t ∧ (pid = 1 → procsLen s = 1) := by
  unfold procDeleteRuntimeRaw at hst
  cases hp : s.procs pid with
  | none => rw [hp] at hst; cases hst
  | some proc =>
    rw [hp] at hst
    dsimp only at hst
    have halone (h1 : ¬ (pid = 1 ∧ (!allowProc1Death s) = true)) (he : pid = 1) :
        procsLen s = 1 := by
      simp only [he, true_and, Bool.not_eq_true', Bool.not_eq_false] at h1
      simp only [allowProc1Death, Bool.and_eq_true, beq_iff_eq] at h1
      exact h1.2
    split_ifs at hst with h1 h2 h3 h4
    · cases hst
      exact ⟨.refl s, h, halone h1⟩
    · cases hst
      have hl := SameLinks.setFlags s pid fun flags : ProcFlags =>
        { flags with exited := true, exiting := false, running := false }
      refine ⟨hl, h.sameLinks hl (Childless.modify h.childless ?_), halone h1⟩
      intro _ _ _ hne
      exact absurd h3 hne
    · cases hst
      have hnil : proc.children = [] := hleaf proc hp h3 (by simpa using h2)
      -- adopting no children writes nothing new
      have e1 : SameLinks s
          (s.modify 1 fun init => { init with children := init.children ++ proc.children }) := by
        refine SameLinks.modify s 1 fun init _ => ?_
        rw [hnil, append_nil]
      have hc1 : Childless
          (s.modify 1 fun init => { init with children := init.children ++ proc.children }) :=
        Childless.modify h.childless fun _ _ _ hne => absurd rfl hne
      set s1 := s.modify 1 fun init => { init with children := init.children ++ proc.children }
      have hp1 : s1.procs pid = some proc := by
        rw [modify_procs, if_neg h3]
        exact hp
      have e2 : SameLinks s1 (s1.modify pid fun proc => { proc with children := [] }) := by
        refine SameLinks.modify s1 pid fun proc' hp' => ?_
        rw [hp1] at hp'
        cases hp'
        simp only [Process.links, hnil]
      have hc2 : Childless (s1.modify pid fun proc => { proc with children := [] }) :=
        Childless.modify hc1 fun _ _ _ _ => rfl
      set s2 := s1.modify pid fun proc => { proc with children := [] }
      have e3 := SameLinks.setFlags s2 pid fun flags : ProcFlags =>
        { flags with exited := true, exiting := false, running := false }
      have hl := (e1.trans e2).trans e3
      refine ⟨hl, h.sameLinks hl (Childless.modify hc2 ?_), fun he => absurd he h3⟩
      intro proc' hp' _ _
      have : s2.procs pid = some { proc with children := [] } := by
        rw [modify_procs, if_pos rfl, hp1]
        rfl
      rw [this] at hp'
      cases hp'
      rfl

/-! ## Deletion -/

/-- A process without children comes or goes: only its own entry and the list of its parent
    change. -/
theorem Inv.relink {parent : ℤ} {old : Process} {children : List ℤ} {entry : Option Process}
    (h : Inv s) (hne : pid ≠ parent) (hone : pid ≠ 1) (hold : s.procs parent = some old)
    (hnew : t.procs parent = some { old with children := children })
    (hother : ∀ q ≠ pid, q ≠ parent → t.procs q = s.procs q) (hentry : t.procs pid = entry)
    (hpid : ∀ proc, entry = some proc → proc.parent = some parent ∧ proc.children = [] ∧
      1 ≤ pid ∧ pid < t.pidCounter)
    (hlisted : ∀ q proc, s.procs q = some proc → pid ∈ proc.children → q = parent)
    (hleaf : ∀ q proc, s.procs q = some proc → proc.parent ≠ some pid)
    (hnodup : children.Nodup)
    (hmem : ∀ c, c ∈ children ↔ if c = pid then entry.isSome = true else c ∈ old.children)
    (hexited : old.flags.exited = true → parent ≠ 1 → children = [])
    (hle : s.pidCounter ≤ t.pidCounter) : Inv t := by
  subst hentry
  have hcases {q proc} (hq : t.procs q = some proc) :
      q = pid ∨ (q = parent ∧ proc = { old with children := children }) ∨ q ≠ parent ∧ s.procs q = some proc := by
    by_cases h1 : q = pid
    · exact .inl h1
    by_cases h2 : q = parent
    · subst h2
      exact .inr (.inl ⟨rfl, some.inj (hq.symm.trans hnew)⟩)
    · exact .inr (.inr ⟨h2, hother q h1 h2 ▸ hq⟩)
  -- the other processes keep their parents
  have hlink {c : ℤ} (hc : c ≠ pid) :
      (t.procs c).map Process.parent = (s.procs c).map Process.parent := by
    by_cases h2 : c = parent
    · subst h2
      rw [hnew, hold]
      rfl
    · rw [hother c hc h2]
  have hchild {q c : ℤ} : (∃ child, t.procs c = some child ∧ child.parent = some q) ↔
      if c = pid then q = parent ∧ (t.procs pid).isSome = true
      else ∃ child, s.procs c = some child ∧ child.parent = some q := by
    split_ifs with hc
    · subst hc
      constructor
      · rintro ⟨child, hc, hq⟩
        rw [(hpid child hc).1] at hq
        exact ⟨(some.inj hq).symm, by rw [hc]; rfl⟩
      · rintro ⟨rfl, hsome⟩
        obtain ⟨child, hc⟩ := isSome_iff_exists.mp hsome
        exact ⟨child, hc, (hpid child hc).1⟩
    · rw [← map_eq_some_iff (f := Process.parent), hlink hc, map_eq_some_iff]
  refine ⟨⟨fun {q proc} hq c => ?_, fun {q proc} hq => ?_, fun {c child} hc hc1 => ?_⟩,
    fun {q proc} hq hx hq1 => ?_, fun {proc} hq => ?_, fun {q proc} hq => ?_, h.pos.trans hle⟩
  · rw [hchild]
    rcases hcases hq with rfl | ⟨rfl, rfl⟩ | ⟨h2, hq⟩
    · rw [(hpid proc hq).2.1]
      refine iff_of_false not_mem_nil ?_
      split_ifs
      · exact fun he => hne he.1
      · exact fun ⟨child, hc, hp⟩ => hleaf c child hc hp
    · rw [hmem]
      split_ifs
      · exact (and_iff_right rfl).symm
      · exact h.consistent.mem_iff hold c
    · split_ifs with hc
      · exact iff_of_false (fun hmem => h2 (hlisted q proc hq (hc ▸ hmem))) fun he => h2 he.1
      · exact h.consistent.mem_iff hq c
  · rcases hcases hq with rfl | ⟨rfl, rfl⟩ | ⟨-, hq⟩
    · rw [(hpid proc hq).2.1]
      exact nodup_nil
    · exact hnodup
    · exact h.consistent.nodup hq
  · by_cases hcp : c = pid
    · subst hcp
      exact ⟨parent, _, (hpid child hc).1, hnew⟩
    have hmap := hlink hcp
    rw [hc, map_some] at hmap
    obtain ⟨child', hc', hpc⟩ := map_eq_some_iff.mp hmap.symm
    obtain ⟨p, proc, hp, hproc⟩ := h.consistent.parent hc' hc1
    have hmap := hlink fun he => hleaf c child' hc' (he ▸ hp)
    rw [hproc, map_some] at hmap
    obtain ⟨proc', hproc', -⟩ := map_eq_some_iff.mp hmap
    exact ⟨p, proc', hpc.symm.trans hp, hproc'⟩
  · rcases hcases hq with rfl | ⟨rfl, rfl⟩ | ⟨-, hq⟩
    · exact (hpid proc hq).2.1
    · exact hexited hx hq1
    · exact h.childless hq hx hq1
  · rcases hcases hq with he | ⟨rfl, rfl⟩ | ⟨-, hq⟩
    · exact absurd he.symm hone
    · show old.parent = none
      exact h.root hold
    · exact h.root hq
  · rcases hcases hq with rfl | ⟨rfl, rfl⟩ | ⟨-, hq⟩
    · exact (hpid proc hq).2.2
    · have := h.range hold
      omega
    · have := h.range hq
      omega

theorem Inv.remove {parent : ℤ} {proc parentProc : Process} (h : Inv s)
    (hp : s.procs pid = some proc) (hnil : proc.children = []) (hpar : proc.parent = some parent)
    (hparent : s.procs parent = some parentProc) :
    Inv { s.modify parent (fun proc => { proc with children := proc.children.erase pid }) with
      procs := update (s.modify parent fun proc =>
        { proc with children := proc.children.erase pid }).procs pid none } := by
  have hunique {q proc'} (hq : s.procs q = some proc') (hmem : pid ∈ proc'.children) :
      q = parent := by
    obtain ⟨child, hc, hq'⟩ := (h.consistent.mem_iff hq pid).mp hmem
    rw [hp] at hc
    cases hc
    exact some.inj (hq'.symm.trans hpar)
  have hleaf (q : ℤ) (proc' : Process) (hq : s.procs q = some proc') : proc'.parent ≠ some pid := by
    intro hq'
    have hmem := (h.consistent.mem_iff hp q).mpr ⟨proc', hq, hq'⟩
    rw [hnil] at hmem
    cases hmem
  have hne : pid ≠ parent := by
    rintro rfl
    exact hleaf pid proc hp hpar
  have hone : pid ≠ 1 := by
    rintro rfl
    rw [h.root hp] at hpar
    cases hpar
  have hnodup := h.consistent.nodup hparent
  refine h.relink hne hone hparent ?_ (fun q h1 h2 => ?_) (update_self _ _ _) nofun (fun q proc =>
    hunique) hleaf (hnodup.erase pid) (fun c => ?_) (fun hx h1 => ?_) le_rfl
  · dsimp only
    rw [update_of_ne hne.symm, modify_procs, if_pos rfl, hparent]
    rfl
  · dsimp only
    rw [update_of_ne h1, modify_procs, if_neg h2]
  · rw [hnodup.mem_erase_iff]
    split_ifs with hc
    · simp [hc]
    · exact and_iff_right hc
  · rw [h.childless hparent hx h1]
    rfl

/-- `proc_delete_impl` of a process that has no children unless it has exited. -/
theorem Inv.procDeleteImpl {onlyPrestart : Bool} (h : Inv s)
    (hleaf : LeafAt s pid) (hst : procDeleteImpl s pid onlyPrestart = some t) : Inv t := by
  unfold Lifecycle.procDeleteImpl at hst
  cases hp : s.procs pid with
  | none =>
    rw [hp] at hst
    cases hst
    exact h
  | some proc =>
    rw [hp] at hst
    dsimp only at hst
    split_ifs at hst with hpre
    · cases hst
      exact h
    · have hnil : pid ≠ 1 → proc.children = [] := by
        intro hne
        cases hx : proc.flags.exited
        · exact hleaf proc hp hne hx
        · exact h.childless hp hx hne
      cases hrt : procDeleteRuntimeRaw s pid with
      | none => rw [hrt] at hst; cases hst
      | some u =>
        rw [hrt] at hst
        dsimp only at hst
        obtain ⟨hl, hu, halone⟩ := procDeleteRuntimeRaw_leaf hrt hleaf h
        obtain ⟨new, hnew, hpar', hch'⟩ := hl.symm.of_some hp
        cases hpar : proc.parent with
        | none =>
          rw [hpar] at hst
          cases hst
          -- only init has no parent, and it dies alone
          obtain rfl : pid = 1 := by
            by_contra hne
            obtain ⟨p, -, hpp, -⟩ := h.consistent.parent hp hne
            rw [hpar] at hpp
            cases hpp
          have hnone : ∀ q, update u.procs 1 none q = none := by
            intro q
            by_cases hq : q = 1
            · subst hq
              exact update_self _ _ _
            · rw [update_of_ne hq]
              cases hq' : u.procs q with
              | none => rfl
              | some proc' =>
                obtain ⟨old, hold, -, -⟩ := hl.of_some hq'
                rw [h.alone hp (halone rfl) hq] at hold
                cases hold
          exact .empty hnone hu.pos
        | some parent =>
          rw [hpar] at hst
          dsimp only at hst
          cases hpp : u.procs parent with
          | none => rw [hpp] at hst; cases hst
          | some parentProc =>
            rw [hpp] at hst
            dsimp only at hst
            split_ifs at hst with hmem
            cases hst
            have hone : pid ≠ 1 := by
              rintro rfl
              rw [h.root hp] at hpar
              cases hpar
            exact hu.remove hnew (hch'.trans (hnil hone)) (hpar'.trans hpar) hpp

/-! ## Creation -/

theorem Inv.adopt {parent : ℤ} {parentProc : Process} (h : Inv s)
    (hparent : s.procs parent = some parentProc) (halive : parentProc.flags.exited = false) :
    Inv (State.modify
      { s with procs := update s.procs s.pidCounter (some (newProcess (some parent)))
               pidCounter := s.pidCounter + 1 } parent
      fun proc => { proc with children := proc.children ++ [s.pidCounter] }) := by
  have hfresh : s.procs s.pidCounter = none := by
    cases hs : s.procs s.pidCounter with
    | none => rfl
    | some proc => exact absurd (h.range hs).2 (lt_irrefl _)
  have hne : parent ≠ s.pidCounter := by
    intro he
    rw [he, hfresh] at hparent
    cases hparent
  have hone : s.pidCounter ≠ 1 := by
    have := h.range hparent
    omega
  -- no list names the new process yet, and none is its parent
  have hunlisted {q old} (hq : s.procs q = some old) : s.pidCounter ∉ old.children := by
    intro hmem
    obtain ⟨child, hc, -⟩ := (h.consistent.mem_iff hq _).mp hmem
    rw [hfresh] at hc
    cases hc
  have hnodup : (parentProc.children ++ [s.pidCounter]).Nodup :=
    (h.consistent.nodup hparent).append (nodup_singleton _)
      (disjoint_singleton.mpr (hunlisted hparent))
  refine h.relink hne.symm hone hparent ?_ (fun q h1 h2 => ?_)
    (show _ = some (newProcess (some parent)) from ?_) (fun proc hproc => ?_)
    (fun q proc hq hmem => absurd hmem (hunlisted hq)) (fun q proc hq hpq => ?_) hnodup (fun c => ?_)
    (fun hx => ?_) (by simp [State.modify])
  · rw [modify_procs, if_pos rfl]
    dsimp only
    rw [update_of_ne hne, hparent]
    rfl
  · rw [modify_procs, if_neg h2]
    exact update_of_ne h1 _ _
  · rw [modify_procs, if_neg hne.symm]
    exact update_self _ _ _
  · cases hproc
    exact ⟨rfl, rfl, h.pos, lt_add_one _⟩
  · by_cases hq1 : q = 1
    · subst hq1
      rw [h.root hq] at hpq
      cases hpq
    · obtain ⟨p, proc', hp, hproc'⟩ := h.consistent.parent hq hq1
      rw [hpq] at hp
      cases hp
      rw [hfresh] at hproc'
      cases hproc'
  · split_ifs with hc <;> simp [hc]
  · rw [halive] at hx
    cases hx

theorem Inv.first (h : Inv s) (hone : s.pidCounter = 1) :
    Inv { s with procs := update s.procs s.pidCounter (some (newProcess none))
                 pidCounter := s.pidCounter + 1 } := by
  have hnone : ∀ q, s.procs q = none := by
    intro q
    cases hs : s.procs q with
    | none => rfl
    | some proc =>
      have := h.range hs
      omega
  have hnew : ∀ {q new}, update s.procs s.pidCounter (some (newProcess none)) q =
      some new → q = 1 ∧ new = newProcess none := by
    intro q new hq
    by_cases he : q = s.pidCounter
    · rw [he, update_self] at hq
      exact ⟨he.trans hone, (some.inj hq).symm⟩
    · rw [update_of_ne he, hnone] at hq
      cases hq
  constructor
  · constructor
    · intro q new hq c
      obtain ⟨-, rfl⟩ := hnew hq
      constructor
      · nofun
      · rintro ⟨child, hc, hpc⟩
        obtain ⟨-, rfl⟩ := hnew hc
        cases hpc
    · intro q new hq
      obtain ⟨-, rfl⟩ := hnew hq
      exact nodup_nil
    · intro c child hc hc1
      exact absurd (hnew hc).1 hc1
  · intro q new hq _ hq1
    exact absurd (hnew hq).1 hq1
  · intro new hq
    obtain ⟨-, rfl⟩ := hnew hq
    rfl
  · intro q new hq
    obtain ⟨rfl, -⟩ := hnew hq
    show (1 : ℤ) ≤ 1 ∧ 1 < s.pidCounter + 1
    omega
  · show 1 ≤ s.pidCounter + 1
    omega

theorem Inv.procCreateRaw {parentpid : ℤ} (h : Inv s)
    (hvalid : s.pidCounter = 1 ∨ Alive s parentpid) (hst : procCreateRaw s parentpid = some t) :
    Inv t := by
  unfold Lifecycle.procCreateRaw at hst
  dsimp only at hst
  split_ifs at hst with h1 h2
  · cases hst
    exact h
  · rcases hvalid with hone | ⟨proc, hp, hx⟩
    · have hnone : s.procs parentpid = none := by
        cases hs : s.procs parentpid with
        | none => rfl
        | some proc =>
          have := h.range hs
          omega
      rw [hnone] at hst
      cases hst
      exact h.first hone
    · rw [hp] at hst
      cases hst
      exact h.adopt hp hx

/-! ## Runs -/

theorem Inv.modify {f : Process → Process} (h : Inv s) (hl : ∀ proc, (f proc).links = proc.links)
    (hx : ∀ proc, (f proc).flags.exited = true → proc.flags.exited = true) :
    Inv (s.modify pid f) := by
  refine h.sameLinks (SameLinks.modify s pid fun proc _ => hl proc)
    (Childless.modify h.childless fun proc hp hfx hne => ?_)
  have hch : (f proc).children = proc.children := congrArg Prod.snd (hl proc)
  rw [hch]
  exact h.childless hp (hx proc hfx) hne

theorem Inv.exitWith (h : Inv s) (pid : ℤ) (code : BitVec 32) : Inv (exitWith s pid code) := by
  have hmod : Inv (s.modify pid fun proc =>
      { proc with flags := { proc.flags with exiting := true }, stateCode := code }) :=
    h.modify (fun _ => rfl) fun _ => id
  exact hmod.congr rfl rfl

theorem Inv.cleanUp (h : Inv s) (hleaf : LeafAt s pid) (hst : cleanUpFromHousekeeping s pid = some t) : Inv t := by
  unfold cleanUpFromHousekeeping at hst
  cases hrt : procDeleteRuntimeRaw s pid with
  | none => rw [hrt] at hst; cases hst
  | some u =>
    rw [hrt] at hst
    dsimp only at hst
    obtain ⟨-, hu, -⟩ := procDeleteRuntimeRaw_leaf hrt hleaf h
    split at hst
    · cases hst
      exact hu.congr rfl rfl
    · split at hst
      · cases hst
      · split_ifs at hst
        · cases hst
          exact hu.congr rfl rfl
        · cases hst
          exact hu.modify (fun _ => rfl) fun _ => id

theorem Inv.claimChange {noWait : Bool} (h : Inv s) (hst : claimChange s pid noWait = some t) : Inv t := by
  unfold Lifecycle.claimChange at hst
  split at hst
  · cases hst
  · have hclear : Inv (s.setFlags pid fun flags => { flags with stateChg := false }) :=
      h.modify (fun _ => rfl) fun _ => id
    split_ifs at hst
    · cases hst
      exact hclear.congr rfl rfl
    · cases hst
      exact hclear

theorem Inv.step {o : Op} (h : Inv s) (hok : LeafStep s o) (hst : step s o = some t) : Inv t := by
  obtain ⟨hvalid, hleaf⟩ := hok
  cases o with
  | create parent => exact h.procCreateRaw hvalid hst
  | start pid loaded =>
    cases hst
    unfold procStartRaw
    split
    · exact h
    · split_ifs
      · exact h
      · exact h.modify (fun _ => rfl) fun _ hx => nomatch hx
      · exact h.modify (fun _ => rfl) fun _ => id
  | exit pid code =>
    cases hst
    exact h.exitWith pid code
  | kill pid =>
    cases hst
    exact h.exitWith pid _
  | cleanUp pid =>
    simp only [Lifecycle.step] at hst
    split_ifs at hst
    exact (h.congr rfl rfl : Inv { s with tasks := s.tasks.erase pid }).cleanUp
      (hleaf pid (.inl rfl)) hst
  | claim waiter child noWait =>
    simp only [Lifecycle.step] at hst
    split at hst
    · cases hst
    · split_ifs at hst
      exact h.claimChange hst
  | delete pid =>
    simp only [Lifecycle.step] at hst
    split_ifs at hst
    exact (h.congr rfl rfl : Inv { s with doomed := s.doomed.erase pid }).procDeleteImpl
      (hleaf pid (.inr (.inl rfl))) hst
  | destroy caller child =>
    simp only [Lifecycle.step] at hst
    split_ifs at hst
    · exact h.procDeleteImpl (hleaf child (.inr (.inr ⟨caller, rfl⟩))) hst
    · cases hst
      exact h
  | ignoreChld pid ignores =>
    cases hst
    exact h.modify (fun _ => rfl) fun _ => id
  | shutDown =>
    cases hst
    exact h.congr rfl rfl

/-- The process tree is consistent after every run in which no process leaves children behind. -/
theorem consistent_run {ops : List Op} {s : State} (hrun : Run step LeafStep {} ops s) :
    Consistent s := (hrun.invariant Inv.step (Inv.empty (fun _ => rfl) le_rfl)).consistent

theorem LeafStep.of_valid {o : Op} (h : ValidStep s o) (hcleanUp : ∀ pid, o ≠ .cleanUp pid)
    (hdelete : ∀ pid, o ≠ .delete pid) (hdestroy : ∀ caller pid, o ≠ .destroy caller pid) :
    LeafStep s o := by
  refine ⟨h, ?_⟩
  rintro pid (ho | ho | ⟨caller, ho⟩)
  · exact absurd ho (hcleanUp pid)
  · exact absurd ho (hdelete pid)
  · exact absurd ho (hdestroy caller pid)

/-- The init process starts a child, the child exits and is reaped. -/
theorem consistent_run_reaped : ∃ ops s, Run step LeafStep {} ops s ∧ ops.length = 8 ∧
    (s.procs 1).map Process.children = some [] ∧ s.procs 2 = none ∧ Consistent s := by
  have hrun : Run step LeafStep {}
      [.create 0, .start 1 true, .create 1, .start 2 true, .exit 2 (wExited 7), .cleanUp 2,
        .claim 1 2 false, .delete 2] _ :=
    .cons (.of_valid (.inl rfl) nofun nofun nofun) rfl <|
    .cons (.of_valid trivial nofun nofun nofun) rfl <|
    .cons (.of_valid (.inr ⟨_, rfl, rfl⟩) nofun nofun nofun) rfl <|
    .cons (.of_valid trivial nofun nofun nofun) rfl <|
    .cons (.of_valid ⟨_, rfl, rfl⟩ nofun nofun nofun) rfl <|
    .cons ⟨trivial, by rintro pid (ho | ho | ⟨caller, ho⟩) <;> cases ho; rintro _ ⟨⟩ _ _; rfl⟩
      rfl <|
    .cons (.of_valid ⟨_, rfl, rfl⟩ nofun nofun nofun) rfl <|
    .cons ⟨trivial, by rintro pid (ho | ho | ⟨caller, ho⟩) <;> cases ho; rintro _ ⟨⟩ _ _; rfl⟩
      rfl <| .nil _
  exact ⟨_, _, hrun, rfl, rfl, rfl, consistent_run hrun⟩

/-- Process 2 exits while process 3 is its child. Process 3 is then on the children list of
    the init process, but its parent pointer still points to process 2. -/
theorem not_consistent_adopted : ¬ ∀ (ops : List Op) (s : State),
    Run step ValidStep {} ops s → Consistent s := by
  intro hall
  have hrun : Run step ValidStep {}
      [.create 0, .start 1 true, .create 1, .start 2 true, .create 2, .exit 2 (wExited 0),
        .cleanUp 2] _ :=
    .cons (.inl rfl) rfl <| .cons trivial rfl <| .cons (.inr ⟨_, rfl, rfl⟩) rfl <|
    .cons trivial rfl <| .cons (.inr ⟨_, rfl, rfl⟩) rfl <| .cons ⟨_, rfl, rfl⟩ rfl <|
    .cons trivial rfl <| .nil _
  obtain ⟨child, hc, hpar⟩ := ((hall _ _ hrun).mem_iff (p := 1) rfl 3).mp (by decide)
  cases hc
  exact absurd hpar (by decide)

end BadgerOS.Lifecycle

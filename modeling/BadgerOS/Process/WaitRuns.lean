import BadgerOS.Process.Wait

/-!
# Waiters

Any number of threads in `syscall_proc_waitpid`, interleaved with the life cycle of the
processes. A waiter holds a share of its process' mutex while it walks over the children
list, so that the list does not change under it; what it does to a child is the atomic claim
of the state change.

* `waitStep`: one step of a waiter or of the life cycle.
* `FlagsGrow`, `step_flags`: what the life cycle does to the exit flag and to unreported
  state changes.
* `waitpid_law`: one call, and at most one report of an exit in every run in which the
  cleanup of a process runs before it has exited.

**Deviation.** `waitpid_not_lawful`: the deviations of one call, and a process that is killed
twice. Its second cleanup marks the state change again, and the exit is reported twice.
-/

namespace BadgerOS.Lifecycle

open Function Option

/-! ## Waiters -/

/-- A thread outside of `waitpid`, or in the middle of a pass of process `proc` over its
    children, of which `rest` are still to be visited. -/
inductive Waiter
  | idle
  | scanning (proc pid : ℤ) (options : BitVec 32) (eligible : Bool) (rest : List ℤ)
  deriving DecidableEq, Repr

/-- A call of `waitpid` that returned a child. -/
structure Report (ι : Type) where
  waiter : ι
  child : ℤ
  status : BitVec 32
  exited : Bool
  noWait : Bool
  deriving DecidableEq, Repr

/-- The processes, the waiters and the calls that have returned a child. -/
structure WaitState (ι : Type) where
  tree : State := {}
  waiter : ι → Waiter := fun _ => .idle
  reports : List (Report ι) := []

/-- The steps of a run. -/
inductive WaitOp (ι : Type)
  | other (o : Op)
  | call (w : ι) (proc pid : ℤ) (options : BitVec 32)
  | visit (w : ι)

section Steps

variable {ι : Type} [DecidableEq ι]

/-- Move a waiter. -/
def WaitState.setWaiter (s : WaitState ι) (w : ι) (pos : Waiter) : WaitState ι :=
  { s with waiter := update s.waiter w pos }

/-- `mutex_acquire_shared` and the head of the children list (lines 163–164). -/
def startPass (s : WaitState ι) (w : ι) (proc pid : ℤ) (options : BitVec 32) :
    Option (WaitState ι) :=
  match s.tree.procs proc with
  | none => none
  | some p => some (s.setWaiter w (.scanning proc pid options false p.children))

/-- One turn of the loop over the children, or the end of a pass (lines 165–203). -/
def visitNode (s : WaitState ι) (w : ι) (proc pid : ℤ) (options : BitVec 32) (eligible : Bool) :
    List ℤ → Option (WaitState ι)
  | [] => if eligible then startPass s w proc pid options else some (s.setWaiter w .idle)
  | c :: rest =>
    match s.tree.procs c with
    | none => none
    | some child =>
      if takes pid options ⟨c, child⟩ then
        match claimChange s.tree c (hasBit options wNoWait) with
        | none => none
        | some tree =>
          some { tree := tree
                 waiter := update s.waiter w .idle
                 reports := ⟨w, c, child.stateCode, child.flags.exited, hasBit options wNoWait⟩ ::
                   s.reports }
      else
        some (s.setWaiter w
          (.scanning proc pid options (eligible || nodeEligible pid c) rest))

/-- One step; state changes are claimed by waiters only. -/
def waitStep (s : WaitState ι) : WaitOp ι → Option (WaitState ι)
  | .other (.claim ..) => none
  | .other o => (step s.tree o).map fun tree => { s with tree := tree }
  | .call w proc pid options =>
    match s.waiter w with
    | .idle => if hasBit options wNoHang then some s else startPass s w proc pid options
    | .scanning .. => none
  | .visit w =>
    match s.waiter w with
    | .idle => none
    | .scanning proc pid options eligible rest => visitNode s w proc pid options eligible rest

/-- The processes whose mutex a step acquires exclusively. -/
def Op.mutexes (s : State) : Op → List ℤ
  | .create parent => [parent]
  | .start pid _ => [pid]
  | .exit pid _ => [pid]
  | .kill pid => [pid]
  | .cleanUp pid => [pid]
  | .delete pid => pid :: ((s.procs pid).bind Process.parent).toList
  | .destroy _ pid => pid :: ((s.procs pid).bind Process.parent).toList
  | .ignoreChld pid _ => [pid]
  | .claim .. => []
  | .shutDown => []

/-- No waiter holds a share of the mutex of process `p`. -/
def Unshared (s : WaitState ι) (p : ℤ) : Prop :=
  ∀ w pid options eligible rest, s.waiter w ≠ .scanning p pid options eligible rest

/-- Valid steps of the life cycle, and calls by threads of existing processes. -/
def WaitValid (s : WaitState ι) : WaitOp ι → Prop
  | .other o => ValidStep s.tree o ∧ ∀ p ∈ o.mutexes s.tree, Unshared s p
  | .call _ proc _ _ => Alive s.tree proc
  | .visit _ => True

/-- The steps for which an exit is reported once: the cleanup of a process does not run
    again after the process has exited, and an exited process is not started. -/
def OnceStep (s : WaitState ι) (o : WaitOp ι) : Prop :=
  WaitValid s o ∧ ∀ p, o = .other (.cleanUp p) ∨ (∃ loaded, o = .other (.start p loaded)) →
    ∀ proc, s.tree.procs p = some proc → proc.flags.exited = false

/-- The number of calls without `WNOWAIT` that reported the exit of process `c`. -/
def exitReports (s : WaitState ι) (c : ℤ) : ℕ :=
  s.reports.countP fun r => r.child == c && r.exited && !r.noWait

/-! ## A waiter alone -/

end Steps

/-! ## Exit flags and unreported changes -/

/-- No process of `t` is new, exits are final, and no state change is marked. -/
structure FlagsGrow (s t : State) : Prop where
  old : ∀ {p new}, t.procs p = some new → ∃ old, s.procs p = some old ∧
    (old.flags.exited = true → new.flags.exited = true) ∧
    (new.flags.stateChg = true → old.flags.stateChg = true)
  pidCounter : t.pidCounter = s.pidCounter

namespace FlagsGrow

variable {s t u : State}

theorem trans (h : FlagsGrow s t) (h' : FlagsGrow t u) : FlagsGrow s u := by
  refine ⟨fun {p new} hp => ?_, h'.pidCounter.trans h.pidCounter⟩
  obtain ⟨mid, hm, hx, hc⟩ := h'.old hp
  obtain ⟨old, ho, hx', hc'⟩ := h.old hm
  exact ⟨old, ho, fun h => hx (hx' h), fun h => hc' (hc h)⟩

theorem of_eq (h : t.procs = s.procs) (hc : t.pidCounter = s.pidCounter) : FlagsGrow s t := by
  refine ⟨fun {p new} hp => ?_, hc⟩
  rw [h] at hp
  exact ⟨new, hp, fun hx => hx, fun hc => hc⟩

theorem modify (s : State) (pid : ℤ) {f : Process → Process}
    (hx : ∀ proc, proc.flags.exited = true → (f proc).flags.exited = true)
    (hc : ∀ proc, (f proc).flags.stateChg = true → proc.flags.stateChg = true) :
    FlagsGrow s (s.modify pid f) := by
  refine ⟨fun {p new} hp => ?_, rfl⟩
  by_cases he : p = pid
  · subst he
    simp only [State.modify, update_self, map_eq_some_iff] at hp
    obtain ⟨old, ho, rfl⟩ := hp
    exact ⟨old, ho, hx old, hc old⟩
  · simp only [State.modify, update_of_ne he] at hp
    exact ⟨new, hp, fun h => h, fun h => h⟩

theorem erase (s : State) (pid : ℤ) : FlagsGrow s { s with procs := update s.procs pid none } := by
  refine ⟨fun {p new} hp => ?_, rfl⟩
  by_cases he : p = pid
  · subst he
    simp only [update_self] at hp
    cases hp
  · simp only [update_of_ne he] at hp
    exact ⟨new, hp, fun h => h, fun h => h⟩

end FlagsGrow

/-- The flags that `proc_delete_runtime_raw` leaves. -/
def ProcFlags.exit (flags : ProcFlags) : ProcFlags :=
  { flags with exited := true, exiting := false, running := false }

theorem procDeleteRuntimeRaw_flags {s t : State} {pid : ℤ} (hst : procDeleteRuntimeRaw s pid = some t) :
    FlagsGrow s t ∧ ∀ {new}, t.procs pid = some new → new.flags.exited = true := by
  have hgrow : ∀ u : State, FlagsGrow u (u.setFlags pid ProcFlags.exit) :=
    fun u => FlagsGrow.modify u pid (fun _ _ => rfl) fun _ => id
  have hexit : ∀ (u : State) {new}, (u.setFlags pid ProcFlags.exit).procs pid = some new →
      new.flags.exited = true := by
    intro u new hn
    simp only [State.setFlags, State.modify, update_self, map_eq_some_iff] at hn
    obtain ⟨old, -, rfl⟩ := hn
    rfl
  unfold procDeleteRuntimeRaw at hst
  cases hp : s.procs pid with
  | none => rw [hp] at hst; cases hst
  | some proc =>
    rw [hp] at hst
    dsimp only at hst
    split_ifs at hst with h1 h2 h3 h4
    · cases hst
      refine ⟨FlagsGrow.of_eq rfl rfl, fun {new} hn => ?_⟩
      rw [hp] at hn
      cases hn
      exact h2
    · cases hst
      exact ⟨hgrow s, hexit s⟩
    · cases hst
      have e1 := FlagsGrow.modify s 1 (f := fun init =>
        { init with children := init.children ++ proc.children }) (fun _ => id) fun _ => id
      have e2 := FlagsGrow.modify
        (s.modify 1 fun init => { init with children := init.children ++ proc.children }) pid
        (f := fun proc => { proc with children := [] }) (fun _ => id) fun _ => id
      exact ⟨(e1.trans e2).trans (hgrow _), hexit _⟩

theorem procDeleteImpl_flags {s t : State} {pid : ℤ} {onlyPrestart : Bool}
    (hst : procDeleteImpl s pid onlyPrestart = some t) : FlagsGrow s t := by
  unfold procDeleteImpl at hst
  split at hst
  · cases hst
    exact .of_eq rfl rfl
  · split_ifs at hst
    · cases hst
      exact .of_eq rfl rfl
    · split at hst
      · cases hst
      · rename_i u hu
        have hgrow := (procDeleteRuntimeRaw_flags hu).1
        split at hst
        · cases hst
          exact hgrow.trans (.erase u pid)
        · split at hst
          · cases hst
          · split_ifs at hst
            cases hst
            have hlist : ∀ q, FlagsGrow u (u.modify q fun proc =>
                { proc with children := proc.children.erase pid }) :=
              fun q => .modify u q (fun _ => id) fun _ => id
            exact (hgrow.trans (hlist _)).trans (.erase _ pid)

/-- What one step of the life cycle, other than a claim, does to the flags of a process of
    the new table. -/
inductive FlagStep (s t : State) (o : Op) (p : ℤ) (new : Process) : Prop
  | created (hp : p = s.pidCounter) (ht : p < t.pidCounter) (hc : new.flags.stateChg = false)
  | grown (old : Process) (ho : s.procs p = some old)
      (hx : old.flags.exited = true → new.flags.exited = true)
      (hc : new.flags.stateChg = true → old.flags.stateChg = true)
  | started (old : Process) (ho : s.procs p = some old) (heq : ∃ loaded, o = .start p loaded)
      (hc : new.flags.stateChg = false)
  | cleaned (old : Process) (ho : s.procs p = some old) (heq : o = .cleanUp p)
      (hx : new.flags.exited = true)

/-- The flags after one step of the life cycle. -/
structure FlagSteps (s t : State) (o : Op) : Prop where
  pidCounter : s.pidCounter ≤ t.pidCounter
  flags : ∀ {p new}, t.procs p = some new → FlagStep s t o p new

theorem FlagsGrow.flagSteps {s t : State} (h : FlagsGrow s t) (o : Op) : FlagSteps s t o := by
  refine ⟨h.pidCounter.ge, fun {p new} hp => ?_⟩
  obtain ⟨old, ho, hx, hc⟩ := h.old hp
  exact .grown old ho hx hc

/-- Flags that grow after the step leave it as it is. -/
theorem FlagSteps.grow {s t u : State} {o : Op} (h : FlagSteps s t o) (hgrow : FlagsGrow t u) : FlagSteps s u o := by
  refine ⟨hgrow.pidCounter.symm ▸ h.pidCounter, fun {p new} hp => ?_⟩
  obtain ⟨mid, hm, hx, hc⟩ := hgrow.old hp
  have hclear (hmid : mid.flags.stateChg = false) : new.flags.stateChg = false := by
    rw [← Bool.not_eq_true] at hmid ⊢
    exact fun hnew => hmid (hc hnew)
  cases h.flags hm with
  | created hp ht hc' => exact .created hp (hgrow.pidCounter.symm ▸ ht) (hclear hc')
  | grown old ho hx' hc' => exact .grown old ho (fun h => hx (hx' h)) fun h => hc' (hc h)
  | started old ho heq hc' => exact .started old ho heq (hclear hc')
  | cleaned old ho heq hx' => exact .cleaned old ho heq (hx hx')

theorem procCreateRaw_flags {s t : State} {parent : ℤ} (hst : procCreateRaw s parent = some t) :
    FlagSteps s t (.create parent) := by
  simp only [procCreateRaw] at hst
  split_ifs at hst with h1 h2
  · cases hst
    exact (FlagsGrow.of_eq rfl rfl).flagSteps _
  · -- the table with the new process, before it is put on the list of its parent
    have hmid : ∀ par, FlagSteps s { s with
        procs := update s.procs s.pidCounter (some (newProcess par))
        pidCounter := s.pidCounter + 1 } (.create parent) := by
      intro par
      refine ⟨by dsimp only; omega, fun {p new} hp => ?_⟩
      by_cases he : p = s.pidCounter
      · subst he
        simp only [update_self, some.injEq] at hp
        subst hp
        exact .created rfl (by dsimp only; omega) rfl
      · simp only [update_of_ne he] at hp
        exact .grown new hp (fun h => h) fun h => h
    cases hpar : (s.procs parent).map fun _ => parent with
    | none =>
      rw [hpar] at hst
      cases hst
      exact hmid none
    | some q =>
      rw [hpar] at hst
      cases hst
      exact (hmid (some q)).grow (.modify _ q (fun _ => id) fun _ => id)

theorem procStartRaw_flags (s : State) (pid : ℤ) (loaded : Bool) :
    FlagSteps s (procStartRaw s pid loaded) (.start pid loaded) := by
  unfold procStartRaw
  cases hs : s.procs pid with
  | none => exact (FlagsGrow.of_eq rfl rfl).flagSteps _
  | some proc =>
    dsimp only
    split_ifs
    · exact (FlagsGrow.of_eq rfl rfl).flagSteps _
    · refine ⟨le_rfl, fun {p new} hp => ?_⟩
      by_cases he : p = pid
      · subst he
        simp only [State.setFlags, State.modify, update_self, hs, map_some, some.injEq] at hp
        subst hp
        exact .started proc hs ⟨loaded, rfl⟩ rfl
      · simp only [State.setFlags, State.modify, update_of_ne he] at hp
        exact .grown new hp (fun h => h) fun h => h
    · have hg : FlagsGrow s (s.modify pid fun proc =>
          { proc with flags := { proc.flags with prestart := false } }) :=
        .modify s pid (fun _ => id) fun _ => id
      exact hg.flagSteps _

theorem cleanUp_flags {s t : State} {pid : ℤ} (hst : cleanUpFromHousekeeping s pid = some t) :
    FlagSteps s t (.cleanUp pid) := by
  unfold cleanUpFromHousekeeping at hst
  split at hst
  · cases hst
  · rename_i u hu
    obtain ⟨hgrow, hexit⟩ := procDeleteRuntimeRaw_flags hu
    have hdoomed : ∀ l, FlagSteps s { u with doomed := l } (.cleanUp pid) := by
      intro l
      have hl : FlagsGrow u { u with doomed := l } := .of_eq rfl rfl
      exact (hgrow.trans hl).flagSteps _
    split at hst
    · cases hst
      exact hdoomed _
    · split at hst
      · cases hst
      · split_ifs at hst
        · cases hst
          exact hdoomed _
        · cases hst
          refine ⟨hgrow.pidCounter.ge, fun {p new} hp => ?_⟩
          by_cases he : p = pid
          · subst he
            simp only [State.setFlags, State.modify, update_self, map_eq_some_iff] at hp
            obtain ⟨mid, hm, rfl⟩ := hp
            obtain ⟨old, ho, -, -⟩ := hgrow.old hm
            have hx : mid.flags.exited = true := hexit hm
            exact .cleaned old ho rfl hx
          · simp only [State.setFlags, State.modify, update_of_ne he] at hp
            obtain ⟨old, ho, hx, hc⟩ := hgrow.old hp
            exact .grown old ho hx hc

theorem step_flags {s t : State} {o : Op} (hst : step s o = some t)
    (hclaim : ∀ w c n, o ≠ .claim w c n) : FlagSteps s t o := by
  have hexit : ∀ pid code, FlagsGrow s (exitWith s pid code) := by
    intro pid code
    have hm : FlagsGrow s (s.modify pid fun proc =>
        { proc with flags := { proc.flags with exiting := true }, stateCode := code }) :=
      .modify s pid (fun _ => id) fun _ => id
    exact hm.trans (.of_eq rfl rfl)
  cases o with
  | create parent => exact procCreateRaw_flags hst
  | start pid loaded =>
    cases hst
    exact procStartRaw_flags s pid loaded
  | exit pid code =>
    cases hst
    exact (hexit pid code).flagSteps _
  | kill pid =>
    cases hst
    exact (hexit pid _).flagSteps _
  | cleanUp pid =>
    simp only [step] at hst
    split_ifs at hst
    have hc := cleanUp_flags hst
    refine ⟨hc.pidCounter, fun {p new} hp => ?_⟩
    cases hc.flags hp with
    | created hp ht hc => exact .created hp ht hc
    | grown old ho hx hc => exact .grown old ho hx hc
    | started old ho heq hc => exact .started old ho heq hc
    | cleaned old ho heq hx => exact .cleaned old ho heq hx
  | claim waiter child noWait => exact absurd rfl (hclaim waiter child noWait)
  | delete pid =>
    simp only [step] at hst
    split_ifs at hst
    have hdrop : FlagsGrow s { s with doomed := s.doomed.erase pid } := .of_eq rfl rfl
    exact (hdrop.trans (procDeleteImpl_flags hst)).flagSteps _
  | destroy caller child =>
    simp only [step] at hst
    split_ifs at hst
    · exact (procDeleteImpl_flags hst).flagSteps _
    · cases hst
      exact (FlagsGrow.of_eq rfl rfl).flagSteps _
  | ignoreChld pid ignores =>
    cases hst
    have hm : FlagsGrow s (s.modify pid fun proc => { proc with ignoresChld := ignores }) :=
      .modify s pid (fun _ => id) fun _ => id
    exact hm.flagSteps _
  | shutDown =>
    cases hst
    have hm : FlagsGrow s { s with shutdown := true } := .of_eq rfl rfl
    exact hm.flagSteps _

/-! ## One report of an exit -/

section Reports

variable {ι : Type}

/-- An unreported change is an exit, and a process whose exit has been reported has exited
    and has no unreported change. -/
structure WaitInv (s : WaitState ι) : Prop where
  range : ∀ {p proc}, s.tree.procs p = some proc → p < s.tree.pidCounter
  marked : ∀ {p proc}, s.tree.procs p = some proc → proc.flags.stateChg = true →
    proc.flags.exited = true
  reported_lt : ∀ {c}, 0 < exitReports s c → c < s.tree.pidCounter
  reported : ∀ {c proc}, 0 < exitReports s c → s.tree.procs c = some proc →
    proc.flags.exited = true ∧ proc.flags.stateChg = false
  once : ∀ c, exitReports s c ≤ 1

namespace WaitInv

variable {s t : WaitState ι}

theorem init : WaitInv ({} : WaitState ι) where
  range := by intro p proc hp; cases hp
  marked := by intro p proc hp; cases hp
  reported_lt := by intro c hc; cases hc
  reported := by intro c proc hc; cases hc
  once := by intro c; exact Nat.zero_le 1

theorem congr (h : WaitInv s) (htree : t.tree = s.tree) (hr : t.reports = s.reports) : WaitInv t := by
  have hcount : ∀ c, exitReports t c = exitReports s c := by
    intro c
    rw [exitReports, exitReports, hr]
  constructor
  · intro p proc hp
    rw [htree] at hp ⊢
    exact h.range hp
  · intro p proc hp
    rw [htree] at hp
    exact h.marked hp
  · intro c hc
    rw [hcount] at hc
    rw [htree]
    exact h.reported_lt hc
  · intro c proc hc hp
    rw [hcount] at hc
    rw [htree] at hp
    exact h.reported hc hp
  · intro c
    rw [hcount]
    exact h.once c

theorem other {o : Op} {tree : State} (h : WaitInv s) (hst : FlagSteps s.tree tree o)
    (honce : ∀ p, o = .cleanUp p ∨ (∃ loaded, o = .start p loaded) → ∀ proc, s.tree.procs p = some
      proc → proc.flags.exited = false) : WaitInv { s with tree := tree } := by
  constructor
  · intro p proc hp
    cases hst.flags hp with
    | created _ ht _ => exact ht
    | grown old ho _ _ | started old ho _ _ | cleaned old ho _ _ =>
      exact (h.range ho).trans_le hst.pidCounter
  · intro p proc hp hchg
    cases hst.flags hp with
    | created _ _ hc | started old _ _ hc => rw [hc] at hchg; cases hchg
    | grown old ho hx hc => exact hx (h.marked ho (hc hchg))
    | cleaned _ _ _ hx => exact hx
  · intro c hc
    exact (h.reported_lt hc).trans_le hst.pidCounter
  · intro c proc hc hp
    cases hst.flags hp with
    | created he _ _ => exact absurd (h.reported_lt hc) (by rw [he]; exact lt_irrefl _)
    | grown old ho hx hchg =>
      obtain ⟨h1, h2⟩ := h.reported hc ho
      refine ⟨hx h1, ?_⟩
      rw [← Bool.not_eq_true]
      intro hnew
      rw [hchg hnew] at h2
      cases h2
    | started old ho heq _ =>
      -- an exited process is not started
      have hx := honce c (.inr heq) old ho
      rw [(h.reported hc ho).1] at hx
      cases hx
    | cleaned old ho heq _ =>
      have hx := honce c (.inl heq) old ho
      rw [(h.reported hc ho).1] at hx
      cases hx
  · exact h.once

theorem claim {c : ℤ} {child : Process} {r : Report ι} (h : WaitInv s)
    (hc : s.tree.procs c = some child) (hchg : child.flags.stateChg = true)
    (hclaim : claimChange s.tree c r.noWait = some t.tree) (hr : r.child = c)
    (hreports : t.reports = r :: s.reports) : WaitInv t := by
  have hx : child.flags.exited = true := h.marked hc hchg
  have hzero : exitReports s c = 0 := by
    by_contra hne
    have := (h.reported (Nat.pos_of_ne_zero hne) hc).2
    rw [hchg] at this
    cases this
  -- the claim clears the mark of `c`
  obtain ⟨hself, hgrow⟩ :
      t.tree.procs c = some { child with flags := { child.flags with stateChg := false } } ∧
      FlagsGrow s.tree t.tree := by
    unfold claimChange at hclaim
    rw [hc] at hclaim
    simp only [hchg, if_true] at hclaim
    have hw : (s.tree.setFlags c fun flags => { flags with stateChg := false }).procs c =
        some { child with flags := { child.flags with stateChg := false } } := by
      simp only [State.setFlags, State.modify, update_self, hc, map_some]
    have hgrow : FlagsGrow s.tree (s.tree.setFlags c fun flags => { flags with stateChg := false }) :=
      .modify _ c (fun _ => id) nofun
    split_ifs at hclaim
    · rw [← some.inj hclaim]
      exact ⟨hw, hgrow.trans (.of_eq rfl rfl)⟩
    · rw [← some.inj hclaim]
      exact ⟨hw, hgrow⟩
  have htree : WaitInv { s with tree := t.tree } :=
    h.other (hgrow.flagSteps .shutDown) fun p ho => by simp at ho
  have hcount : ∀ {d}, d ≠ c → exitReports t d = exitReports s d := by
    intro d hd
    rw [exitReports, hreports]
    refine List.countP_cons_of_neg ?_
    have hne : (r.child == d) = false := by
      rw [beq_eq_false_iff_ne, hr]
      exact hd.symm
    rw [hne]
    simp
  have hmost : exitReports t c ≤ 1 := by
    have := List.countP_cons (p := fun r : Report ι => r.child == c && r.exited && !r.noWait)
      (l := s.reports) (a := r)
    rw [exitReports, hreports, this]
    change exitReports s c + _ ≤ 1
    rw [hzero]
    split_ifs <;> omega
  refine ⟨htree.range, htree.marked, fun {d} hd => ?_, fun {d proc} hd hp => ?_, fun d => ?_⟩
  · by_cases he : d = c
    · subst he
      exact htree.range hself
    · rw [hcount he] at hd
      exact htree.reported_lt hd
  · by_cases he : d = c
    · subst he
      cases hself.symm.trans hp
      exact ⟨hx, rfl⟩
    · rw [hcount he] at hd
      exact htree.reported hd hp
  · by_cases he : d = c
    · subst he
      exact hmost
    · rw [hcount he]
      exact h.once d

variable [DecidableEq ι]

theorem startPass {w : ι} {proc pid : ℤ} {options : BitVec 32} (h : WaitInv s)
    (hst : startPass s w proc pid options = some t) : WaitInv t := by
  unfold Lifecycle.startPass at hst
  split at hst
  · cases hst
  · cases hst
    exact h.congr rfl rfl

theorem visitNode {w : ι} {proc pid : ℤ} {options : BitVec 32} {eligible : Bool} {rest : List ℤ}
    (h : WaitInv s) (hst : visitNode s w proc pid options eligible rest = some t) : WaitInv t := by
  cases rest with
  | nil =>
    simp only [Lifecycle.visitNode] at hst
    split_ifs at hst
    · exact h.startPass hst
    · cases hst
      exact h.congr rfl rfl
  | cons c rest =>
    simp only [Lifecycle.visitNode] at hst
    split at hst
    · cases hst
    · rename_i child hc
      split_ifs at hst with ht
      · split at hst
        · cases hst
        · rename_i tree htree
          cases hst
          exact h.claim hc (Bool.and_eq_true_iff.mp ht).2 htree rfl rfl
      · cases hst
        exact h.congr rfl rfl

theorem step {o : WaitOp ι} (h : WaitInv s) (hok : OnceStep s o) (hst : waitStep s o = some t) : WaitInv t := by
  cases o with
  | other o =>
    have hclaim : ∀ w c n, o ≠ .claim w c n := by
      rintro w c n rfl
      cases hst
    have hmap : (Lifecycle.step s.tree o).map (fun tree => { s with tree := tree }) = some t := by
      rw [← hst]
      cases o with
      | claim w c n => exact absurd rfl (hclaim w c n)
      | _ => rfl
    obtain ⟨tree, htree, rfl⟩ := map_eq_some_iff.mp hmap
    refine h.other (step_flags htree hclaim) fun p hp => hok.2 p ?_
    rcases hp with rfl | ⟨loaded, rfl⟩
    · exact .inl rfl
    · exact .inr ⟨loaded, rfl⟩
  | call w proc pid options =>
    simp only [waitStep] at hst
    split at hst
    · split_ifs at hst
      · cases hst
        exact h
      · exact h.startPass hst
    · cases hst
  | visit w =>
    simp only [waitStep] at hst
    split at hst
    · cases hst
    · exact h.visitNode hst

end WaitInv

end Reports

/-- One call keeps its promise exactly for the lists, process IDs and options of
    `WaitServes`, and an exit is reported by at most one call without `WNOWAIT` in every run
    in which the cleanup of a process runs before it has exited. -/
theorem waitpid_law (children : Children) (pid : ℤ) (options : BitVec 32) {ι : Type}
    [DecidableEq ι] (ops : List (WaitOp ι)) (s : WaitState ι) :
    (WaitLawful children pid options ↔ WaitServes children pid options) ∧
      (Run waitStep OnceStep {} ops s → ∀ c, exitReports s c ≤ 1) := ⟨waitLawful_iff children pid options,
    fun hrun => (hrun.invariant WaitInv.step WaitInv.init).once⟩

/-- A child that exited with code 7 and has not been waited for. -/
def exitedNode (pid : ℤ) : Node :=
  ⟨pid, { parent := some 1, flags := { exited := true, stateChg := true },
          stateCode := wExited 7 }⟩

/-- A child that was stopped by a signal and has not been waited for. -/
def stoppedNode (pid : ℤ) : Node :=
  ⟨pid, { parent := some 1, flags := { running := true, stateChg := true },
          stateCode := wStopcode 19 }⟩

theorem unshared_of_idle {ι : Type} {s : WaitState ι} (h : ∀ w, s.waiter w = .idle)
    {Q : ℤ → Prop} : ∀ p, Q p → Unshared s p := by
  intro p _ w pid options eligible rest he
  rw [h] at he
  cases he

namespace OnceStep

variable {ι : Type} {s : WaitState ι} {o : WaitOp ι} {p : ℤ} {proc : Process}

theorem of_valid (h : WaitValid s o) (hc : ∀ p, o ≠ .other (.cleanUp p))
    (hs : ∀ p loaded, o ≠ .other (.start p loaded)) : OnceStep s o := by
  refine ⟨h, ?_⟩
  rintro p (ho | ⟨loaded, ho⟩)
  · exact absurd ho (hc p)
  · exact absurd ho (hs p loaded)

theorem of_start {loaded : Bool} (h : WaitValid s (.other (.start p loaded)))
    (hp : s.tree.procs p = some proc) (hx : proc.flags.exited = false) :
    OnceStep s (.other (.start p loaded)) := by
  refine ⟨h, ?_⟩
  rintro q (ho | ⟨loaded, ho⟩) other hq
  · cases ho
  · cases ho
    rw [hp] at hq
    cases hq
    exact hx

theorem of_cleanUp (h : WaitValid s (.other (.cleanUp p))) (hp : s.tree.procs p = some proc)
    (hx : proc.flags.exited = false) : OnceStep s (.other (.cleanUp p)) := by
  refine ⟨h, ?_⟩
  rintro q (ho | ⟨loaded, ho⟩) other hq
  · cases ho
    rw [hp] at hq
    cases hq
    exact hx
  · cases ho

end OnceStep

/-- A list with one running and one exited child, and a run in which two waiters look for the
    exit of one child. -/
theorem waitpid_law_exit :
    (∃ children : Children, (syscallProcWaitpid (-1) 0 children.nodes).1 =
      .reported 3 (wExited 7) ∧ WaitLawful children (-1) 0) ∧
    ∃ (ops : List (WaitOp Bool)) (s : WaitState Bool), Run waitStep OnceStep {} ops s ∧
      exitReports s 2 = 1 ∧ ∀ c, exitReports s c ≤ 1 := by
  constructor
  · refine ⟨⟨[⟨2, { parent := some 1, flags := { running := true } }⟩, exitedNode 3], by decide⟩,
      by decide, (waitpid_law _ _ _ (ι := Bool) [] {}).1.mpr ?_⟩
    rw [WaitServes, if_neg (by decide)]
    constructor
    · intro node hn
      cases hn
      exact ⟨by decide, by decide⟩
    · intro _
      exact ⟨exitedNode 3, by decide, by decide, by decide, by decide⟩
  · have hrun : Run (waitStep (ι := Bool)) OnceStep {}
        [.other (.create 0), .other (.start 1 true), .other (.create 1), .other (.start 2 true),
          .other (.exit 2 (wExited 7)), .other (.cleanUp 2), .call false 1 (-1) 0,
          .call true 1 2 0, .visit false, .visit true] _ :=
      .cons (.of_valid ⟨.inl rfl, unshared_of_idle fun _ => rfl⟩ nofun nofun) rfl <|
      .cons (.of_start ⟨trivial, unshared_of_idle fun _ => rfl⟩ rfl rfl) rfl <|
      .cons (.of_valid ⟨.inr ⟨_, rfl, rfl⟩, unshared_of_idle fun _ => rfl⟩ nofun nofun) rfl <|
      .cons (.of_start ⟨trivial, unshared_of_idle fun _ => rfl⟩ rfl rfl) rfl <|
      .cons (.of_valid ⟨⟨_, rfl, rfl⟩, unshared_of_idle fun _ => rfl⟩ nofun nofun) rfl <|
      .cons (.of_cleanUp ⟨trivial, unshared_of_idle fun _ => rfl⟩ rfl rfl) rfl <|
      .cons (.of_valid ⟨_, rfl, rfl⟩ nofun nofun) rfl <|
      .cons (.of_valid ⟨_, rfl, rfl⟩ nofun nofun) rfl <|
      .cons (.of_valid trivial nofun nofun) rfl <|
      .cons (.of_valid trivial nofun nofun) rfl <| .nil _
    exact ⟨_, _, hrun, rfl, (waitpid_law ⟨[], by decide⟩ 0 0 _ _).2 hrun⟩

/-- The four ways in which the promise is broken: `WNOHANG` misses an exit, `WNOWAIT` uses it
    up, `WUNTRACED` reports a child with another process ID, and a process that is killed
    twice is reported twice. -/
theorem waitpid_not_lawful :
    (∃ children : Children, ¬ WaitLawful children 2 wNoHang) ∧
    (∃ children : Children, ¬ WaitLawful children 2 wNoWait) ∧
    (∃ children : Children, ¬ WaitLawful children 2 wUntraced) ∧
    ¬ ∀ (ops : List (WaitOp Bool)) (s : WaitState Bool),
      Run waitStep WaitValid {} ops s → ∀ c, exitReports s c ≤ 1 := by
  refine ⟨⟨⟨[exitedNode 2], by decide⟩, fun h => ?_⟩, ⟨⟨[exitedNode 2], by decide⟩, fun h => ?_⟩,
    ⟨⟨[stoppedNode 3], by decide⟩, fun h => ?_⟩, fun hall => ?_⟩
  · obtain ⟨node, -, -, hr⟩ := h.exits ⟨exitedNode 2, by decide, by decide, by decide, by decide⟩
    cases hr
  · have hreported : (syscallProcWaitpid 2 wNoWait [exitedNode 2]).1 = .reported 2 (wExited 7) := by
      decide
    obtain ⟨node, hn, -, hchg⟩ := h.keeps (by decide) hreported
    rw [show node = _ from List.mem_singleton.mp hn] at hchg
    cases hchg
  · have hreported : (syscallProcWaitpid 2 wUntraced [stoppedNode 3]).1 =
        .reported 3 (wStopcode 19) := by
      decide
    exact absurd (h.reports hreported) (by decide)
  · have hrun : Run (waitStep (ι := Bool)) WaitValid {}
        [.other (.create 0), .other (.start 1 true), .other (.create 1), .other (.start 2 true),
          .other (.kill 2), .other (.kill 2), .other (.cleanUp 2), .call false 1 (-1) 0,
          .visit false, .other (.cleanUp 2), .call true 1 (-1) 0, .visit true] _ :=
      .cons ⟨.inl rfl, unshared_of_idle fun _ => rfl⟩ rfl <|
      .cons ⟨trivial, unshared_of_idle fun _ => rfl⟩ rfl <|
      .cons ⟨.inr ⟨_, rfl, rfl⟩, unshared_of_idle fun _ => rfl⟩ rfl <|
      .cons ⟨trivial, unshared_of_idle fun _ => rfl⟩ rfl <|
      .cons ⟨rfl, unshared_of_idle fun _ => rfl⟩ rfl <|
      .cons ⟨rfl, unshared_of_idle fun _ => rfl⟩ rfl <|
      .cons ⟨trivial, unshared_of_idle fun _ => rfl⟩ rfl <|
      .cons ⟨_, rfl, rfl⟩ rfl <| .cons trivial rfl <|
      .cons ⟨trivial, unshared_of_idle fun w => by cases w <;> rfl⟩ rfl <|
      .cons ⟨_, rfl, rfl⟩ rfl <| .cons trivial rfl <| .nil _
    have htwo := hall _ _ hrun 2
    exact absurd htwo (by decide)

end BadgerOS.Lifecycle

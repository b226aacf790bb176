import BadgerOS.Lib.Run

/-!
# Suspending and resuming a thread

Model of the flag word of one thread under `thread_suspend`, `thread_resume` and its
variants, the timer of `thread_sleep` and the switches of the scheduler
(`kernel/src/scheduler/scheduler.c` lines 291–334 and 647–765). Any number of actors
run these functions on the thread, on any number of CPUs. A step is one atomic load or
compare-exchange with the local decision that follows it. The thread is not exiting:
the flags `THREAD_EXITING` and `THREAD_EXITED` are clear throughout and left out.

A suspension has two parts. `thread_suspend` sets `THREAD_SUSPENDING`, and a later switch
of the scheduler clears it together with `THREAD_RUNNING` and thereby parks the thread.

**Deviation.** `thread_try_mark_running` returns without effect if it finds
`THREAD_RUNNING` set. So a resume that comes after the first part of a suspension and
before the second one is lost: the pending suspension is not cancelled, and the next
switch parks the thread (`resume_lost`). The same happens to `thread_sleep`, which arms
its timer before it suspends itself, when the timer fires too early.

The ghost field `owed` says that a resume has completed which was issued after the last
suspension took effect, or that the timer of the last sleep has completed. While it is
set, the thread should be running with no suspension pending. `noLostResume` shows this
for all runs in which no resume looks at the flags while both flags are set, and no timer
does so before the sleep that armed it has suspended the thread.
-/

namespace BadgerOS.Scheduler

open Function Option

/-! ## Model -/

/-- The flags of a thread (`kernel/include/scheduler/types.h` lines 30–50). `rest` stands
    for the bits that these functions do not touch. -/
structure ThreadFlags where
  running : Bool
  kernel : Bool
  privileged : Bool
  startnow : Bool
  suspending : Bool
  ksuspend : Bool
  rest : ℕ
deriving DecidableEq, Repr

/-- Where an actor is in the functions that change the flags. The flag words are the
    local variables `exp`, `cur` and `flags` of the compare-exchange loops. -/
inductive Pc
  | idle
  /-- In the loop of `thread_suspend` (lines 696–701). -/
  | suspend (suspendKernel : Bool) (exp : ThreadFlags)
  /-- In `thread_sleep`, between arming the timer and suspending (line 663). -/
  | sleepArmed
  /-- In the loop of `thread_suspend` called by `thread_sleep`. -/
  | sleepSuspend (suspendKernel : Bool) (exp : ThreadFlags)
  /-- In the loop of `thread_try_mark_running` (lines 730–738), called for the timer of
      the given sleep or by a resume. Ghost: no suspension took effect since the call. -/
  | resume (now : Bool) (timer : Option ℕ) (fresh : Bool) (cur : ThreadFlags)
  /-- In the loop of the scheduler that parks a thread (lines 314–322). -/
  | switch (flags : ThreadFlags)
deriving DecidableEq, Repr

/-- The thread and the actors that work on it. Actor 0 is the thread itself. -/
structure State where
  flags : ThreadFlags
  pc : ℕ → Pc
  /-- The sleeps whose timer has been armed and has not fired. -/
  timers : List ℕ
  /-- The number of sleeps so far. -/
  sleeps : ℕ
  /-- Ghost: the timer of the last sleep has completed its resume. -/
  fired : Bool
  /-- Ghost: a resume has completed that the last suspension must yield to. -/
  owed : Bool

/-- The atomic steps. -/
inductive Action
  /-- `thread_suspend` by actor `i`, up to its load of the flags. -/
  | suspend (i : ℕ) (suspendKernel : Bool)
  | suspendCas (i : ℕ)
  /-- `thread_sleep` by the thread itself, up to arming the timer. -/
  | sleep
  /-- The call of `thread_suspend` in `thread_sleep`, up to its load of the flags. -/
  | sleepSuspend (suspendKernel : Bool)
  | sleepCas
  /-- A resume by actor `i`, up to its load of the flags. -/
  | resume (i : ℕ) (now : Bool)
  /-- The timer of sleep `id` calls `thread_resume_from_timer` as actor `i`. -/
  | timer (i id : ℕ)
  | resumeCas (i : ℕ)
  /-- The scheduler takes the thread from its queue, up to its load of the flags. -/
  | switch (i : ℕ)
  | switchCas (i : ℕ)
  /-- Other code changes other flags. -/
  | other (privileged : Bool) (rest : ℕ)
deriving DecidableEq, Repr

/-- A resume of the thread that is under way is no longer newer than the suspension. -/
def Pc.stale : Pc → Pc
  | .resume now timer _ cur => .resume now timer false cur
  | pc => pc

def State.setPc (s : State) (i : ℕ) (pc : Pc) : State :=
  { s with pc := update s.pc i pc }

/-- The thread is in `thread_sleep` and its suspension has not taken effect. -/
def State.sleeping (s : State) : Bool :=
  match s.pc 0 with
  | .sleepArmed | .sleepSuspend .. => true
  | _ => false

/-- Whether the scheduler parks a thread with these flags (line 311). -/
def ThreadFlags.parkable (f : ThreadFlags) : Bool :=
  (f.ksuspend || !f.privileged) && f.suspending

/-- The flags that `thread_suspend` sets (line 695). -/
def ThreadFlags.suspended (f : ThreadFlags) (suspendKernel : Bool) : ThreadFlags :=
  { f with suspending := true, ksuspend := f.ksuspend || suspendKernel }

/-- The flags that `thread_try_mark_running` sets (lines 734–737). -/
def ThreadFlags.resumed (f : ThreadFlags) (now : Bool) : ThreadFlags :=
  { f with running := true, suspending := false, startnow := f.startnow || now }

/-- The flags of a parked thread (line 320). -/
def ThreadFlags.parked (f : ThreadFlags) : ThreadFlags :=
  { f with running := false, ksuspend := false, suspending := false }

/-- A suspension takes effect. It supersedes the resumes so far, except that a sleep does
    not supersede its own timer. -/
def State.suspended (s : State) (i : ℕ) (flags : ThreadFlags) (owed : Bool) : State :=
  { s with
    flags
    pc := update (fun j => (s.pc j).stale) i .idle
    owed }

/-- A resume completes. -/
def State.completed (s : State) (i : ℕ) (timer : Option ℕ) (fresh : Bool) (flags : ThreadFlags) :
    State :=
  { s with
    flags
    pc := update s.pc i .idle
    fired := s.fired || (timer = some s.sleeps && s.sleeping)
    owed := s.owed || fresh }

/-- `thread_try_mark_running` with `cur` just read: it returns if the thread is running. -/
def State.tryResume (s : State) (i : ℕ) (now : Bool) (timer : Option ℕ) (fresh : Bool) : State :=
  if s.flags.running then s.completed i timer fresh s.flags
  else s.setPc i (.resume now timer fresh s.flags)

/-- One atomic step. -/
def step (s : State) : Action → Option State
  | .suspend i suspendKernel =>
    if s.pc i ≠ .idle ∨ i = 0 then none
    else if s.flags.kernel && !suspendKernel then some s
    else if s.flags.running then some (s.setPc i (.suspend suspendKernel s.flags))
    else some s
  | .suspendCas i =>
    match s.pc i with
    | .suspend suspendKernel exp =>
      if s.flags = exp then some (s.suspended i (exp.suspended suspendKernel) false)
      else if s.flags.running then some (s.setPc i (.suspend suspendKernel s.flags))
      else some (s.setPc i .idle)
    | _ => none
  | .sleep =>
    if s.pc 0 ≠ .idle ∨ s.flags.running = false then none
    else
      some { s.setPc 0 .sleepArmed with
        timers := (s.sleeps + 1) :: s.timers, sleeps := s.sleeps + 1, fired := false }
  | .sleepSuspend suspendKernel =>
    if s.pc 0 ≠ .sleepArmed ∨ s.flags.running = false then none
    else if s.flags.kernel && !suspendKernel then some (s.setPc 0 .idle)
    else some (s.setPc 0 (.sleepSuspend suspendKernel s.flags))
  | .sleepCas =>
    match s.pc 0 with
    | .sleepSuspend suspendKernel exp =>
      if s.flags.running = false then none
      else if s.flags = exp then some (s.suspended 0 (exp.suspended suspendKernel) s.fired)
      else some (s.setPc 0 (.sleepSuspend suspendKernel s.flags))
    | _ => none
  | .resume i now => if s.pc i ≠ .idle ∨ i = 0 then none else some (s.tryResume i now none true)
  | .timer i id =>
    if s.pc i ≠ .idle ∨ i = 0 ∨ id ∉ s.timers then none
    else some ({ s with timers := s.timers.erase id }.tryResume i true (some id) true)
  | .resumeCas i =>
    match s.pc i with
    | .resume now timer fresh cur =>
      if s.flags = cur then some (s.completed i timer fresh (cur.resumed now))
      else some (s.tryResume i now timer fresh)
    | _ => none
  | .switch i =>
    if s.pc i ≠ .idle ∨ i = 0 then none
    else if s.flags.parkable then some (s.setPc i (.switch s.flags))
    else some s
  | .switchCas i =>
    match s.pc i with
    | .switch flags =>
      if s.flags = flags then some { s.setPc i .idle with flags := flags.parked }
      else if s.flags.parkable then some (s.setPc i (.switch s.flags))
      else some (s.setPc i .idle)
    | _ => none
  | .other privileged rest => some { s with flags := { s.flags with privileged, rest } }

/-! ## The property -/

/-- A resume that the last suspension must yield to has left the thread running, with no
    suspension pending. -/
def Resumed (s : State) : Prop :=
  s.owed = true → s.flags.running = true ∧ s.flags.suspending = false

/-- The actor may look at the flags for a resume on behalf of `timer`: the thread is not
    between the two parts of a suspension, and a timer does not run ahead of its sleep. -/
def MayLook (s : State) (timer : Option ℕ) : Prop :=
  ¬ (s.flags.running = true ∧ s.flags.suspending = true) ∧
    ¬ (timer = some s.sleeps ∧ s.sleeping = true)

/-- The condition on the steps: it restricts the resumes and the timers. -/
def Timely (s : State) : Action → Prop
  | .resume _ _ => MayLook s none
  | .timer _ id => MayLook s (some id)
  | .resumeCas i =>
    match s.pc i with
    | .resume _ timer _ _ => MayLook s timer
    | _ => True
  | _ => True

/-- A thread on which no actor works. -/
def Quiet (s : State) : Prop := (∀ i, s.pc i = .idle) ∧ s.owed = false

/-! ## The invariant -/

/-- What holds in all runs with timely resumes. -/
structure Inv (s : State) : Prop where
  resumed : Resumed s
  switch : ∀ {i f}, s.pc i = .switch f → f.suspending = true
  sleep : s.sleeping = true → s.fired = false
  self : s.pc 0 = .idle ∨ s.sleeping = true

variable {s : State} {i : ℕ} {pc : Pc}

theorem inv_of_quiet (h : Quiet s) : Inv s := by
  refine ⟨fun howed => ?_, fun hpc => ?_, fun hsleep => ?_, .inl (h.1 0)⟩
  · rw [h.2] at howed
    contradiction
  · rw [h.1] at hpc
    contradiction
  · simp [State.sleeping, h.1] at hsleep

/-! ### Changes of a program counter -/

theorem setPc_sleeping (pc : Pc) (hi : i ≠ 0) : (s.setPc i pc).sleeping = s.sleeping := by
  simp [State.sleeping, State.setPc, update_of_ne hi.symm]

theorem update_switch (h : Inv s) (hpc : ∀ {f}, pc = .switch f → f.suspending = true) {j : ℕ}
    {f : ThreadFlags} (hj : update s.pc i pc j = .switch f) : f.suspending = true := by
  rcases eq_or_ne j i with rfl | hne
  · rw [update_self] at hj
    exact hpc hj
  · rw [update_of_ne hne] at hj
    exact h.switch hj

theorem update_self_idle (h : Inv s) (hi : i ≠ 0) (pc : Pc) :
    (s.setPc i pc).pc 0 = .idle ∨ (s.setPc i pc).sleeping = true := by
  rw [setPc_sleeping pc hi]
  simpa only [State.setPc, update_of_ne hi.symm] using h.self

theorem Inv.ne_zero (h : Inv s) (hpc : s.pc i = pc) (hidle : pc ≠ .idle)
    (hsleep : ∀ t : State, t.pc 0 = pc → t.sleeping = false) : i ≠ 0 := by
  rintro rfl
  rcases h.self with h0 | h0
  · exact hidle (hpc ▸ h0)
  · rw [hsleep s hpc] at h0
    contradiction

theorem Inv.setPc (h : Inv s) (hi : i ≠ 0) (hpc : ∀ {f}, pc = .switch f → f.suspending = true) :
    Inv (s.setPc i pc) where
  resumed := h.resumed
  switch := update_switch h hpc
  sleep hsleep := h.sleep (setPc_sleeping pc hi ▸ hsleep)
  self := update_self_idle h hi pc

theorem stale_eq_switch {f : ThreadFlags} (h : pc.stale = .switch f) : pc = .switch f := by
  cases pc <;> simp_all [Pc.stale]

theorem suspended_sleeping (flags : ThreadFlags) (owed : Bool) (hi : i ≠ 0) :
    (s.suspended i flags owed).sleeping = s.sleeping := by
  simp only [State.suspended, State.sleeping, update_of_ne hi.symm]
  cases s.pc 0 <;> rfl

/-- A suspension takes effect while no resume has to be honoured. -/
theorem Inv.suspended (h : Inv s) (i : ℕ) (flags : ThreadFlags) : Inv (s.suspended i flags false) where
  resumed howed := by simp [State.suspended] at howed
  switch {j f} hj := by
    rcases eq_or_ne j i with rfl | hne
    · simp [State.suspended] at hj
    · simp only [State.suspended, update_of_ne hne] at hj
      exact h.switch (stale_eq_switch hj)
  sleep hsleep := by
    -- The thread is in its sleep afterwards only if it was there before.
    refine h.sleep ?_
    rcases eq_or_ne i 0 with rfl | hne
    · simp [State.suspended, State.sleeping] at hsleep
    · exact suspended_sleeping flags false hne ▸ hsleep
  self := by
    rcases eq_or_ne i 0 with rfl | hne
    · exact .inl (by simp [State.suspended])
    · rw [suspended_sleeping flags false hne]
      refine h.self.imp_left fun hidle => ?_
      simp [State.suspended, update_of_ne hne.symm, hidle, Pc.stale]

theorem Inv.completed (h : Inv s) (hi : i ≠ 0) {timer : Option ℕ} (fresh : Bool)
    {flags : ThreadFlags} (hrunning : flags.running = true) (hsuspending : flags.suspending = false)
    (htimer : ¬ (timer = some s.sleeps ∧ s.sleeping = true)) :
    Inv (s.completed i timer fresh flags) where
  resumed _ := ⟨hrunning, hsuspending⟩
  switch := update_switch h (by simp)
  sleep hsleep := by
    have hbefore : s.sleeping = true := setPc_sleeping .idle hi ▸ hsleep
    have hother : timer ≠ some s.sleeps := fun heq => htimer ⟨heq, hbefore⟩
    simp [State.completed, h.sleep hbefore, hother]
  self := update_self_idle h hi .idle

/-- A resume that may look at the flags keeps the invariant, whether it returns or goes
    on to its compare-exchange. -/
theorem Inv.tryResume (h : Inv s) (hi : i ≠ 0) (now : Bool) {timer : Option ℕ} (fresh : Bool)
    (hlook : MayLook s timer) : Inv (s.tryResume i now timer fresh) := by
  unfold State.tryResume
  split
  · rename_i hrunning
    have hsuspending : s.flags.suspending = false := by
      have := hlook.1
      grind
    exact h.completed hi fresh hrunning hsuspending hlook.2
  · exact h.setPc hi (by simp)

/-! ### Steps -/

/-- The scheduler parks the thread. It found a suspension pending, so no resume is owed. -/
theorem Inv.parked (h : Inv s) (hpc : s.pc i = .switch s.flags) :
    Inv { s.setPc i .idle with flags := s.flags.parked } where
  resumed howed := by
    have hsuspending := h.switch hpc
    rw [(h.resumed howed).2] at hsuspending
    contradiction
  switch := update_switch h (by simp)
  sleep hsleep := by
    have hi : i ≠ 0 := h.ne_zero hpc (by simp) fun t ht => by simp [State.sleeping, ht]
    exact h.sleep (setPc_sleeping .idle hi ▸ hsleep)
  self := by
    have hi : i ≠ 0 := h.ne_zero hpc (by simp) fun t ht => by simp [State.sleeping, ht]
    exact update_self_idle h hi .idle

theorem Inv.setPc_self (h : Inv s) (hsleep : s.sleeping = true) (hpc : ∀ {f}, pc ≠ .switch f)
    (hself : pc = .idle ∨ (s.setPc 0 pc).sleeping = true) : Inv (s.setPc 0 pc) where
  resumed := h.resumed
  switch := update_switch h fun heq => absurd heq hpc
  sleep _ := h.sleep hsleep
  self := hself.imp_left fun heq => by simp [State.setPc, heq]

theorem Inv.armed (h : Inv s) : Inv { s.setPc 0 .sleepArmed with
      timers := (s.sleeps + 1) :: s.timers, sleeps := s.sleeps + 1, fired := false } where
  resumed := h.resumed
  switch := update_switch h (by simp)
  sleep _ := rfl
  self := .inr (by simp [State.sleeping, State.setPc])

theorem inv_step {t : State} {a : Action} (h : Inv s) (hok : Timely s a) (hstep : step s a = some t) : Inv t := by
  cases a with simp only [step] at hstep
  | suspend i suspendKernel =>
    split_ifs at hstep with hi hkernel hrunning
    all_goals cases hstep
    · exact h
    · exact h.setPc (by tauto) (by simp)
    · exact h
  | suspendCas i =>
    split at hstep
    · rename_i suspendKernel exp hpc
      have hi : i ≠ 0 := h.ne_zero hpc (by simp) fun t ht => by simp [State.sleeping, ht]
      split_ifs at hstep
      all_goals cases hstep
      · exact h.suspended i _
      · exact h.setPc hi (by simp)
      · exact h.setPc hi (by simp)
    · contradiction
  | sleep =>
    split_ifs at hstep
    cases hstep
    exact h.armed
  | sleepSuspend suspendKernel =>
    split_ifs at hstep with hpc
    all_goals
      cases hstep
      have harmed : s.pc 0 = .sleepArmed := by tauto
      have hsleep : s.sleeping = true := by simp [State.sleeping, harmed]
    · exact h.setPc_self hsleep (by simp) (.inl rfl)
    · exact h.setPc_self hsleep (by simp) (.inr (by simp [State.sleeping, State.setPc]))
  | sleepCas =>
    split at hstep
    · rename_i suspendKernel exp hpc
      have hsleep : s.sleeping = true := by simp [State.sleeping, hpc]
      split_ifs at hstep
      all_goals cases hstep
      · rw [h.sleep hsleep]
        exact h.suspended 0 _
      · exact h.setPc_self hsleep (by simp) (.inr (by simp [State.sleeping, State.setPc]))
    · contradiction
  | resume i now =>
    split_ifs at hstep with hi
    cases hstep
    exact h.tryResume (by tauto) now true hok
  | timer i id =>
    split_ifs at hstep with hi
    cases hstep
    have htaken : Inv { s with timers := s.timers.erase id } :=
      ⟨h.resumed, h.switch, h.sleep, h.self⟩
    exact htaken.tryResume (by tauto) true true hok
  | resumeCas i =>
    split at hstep
    · rename_i now timer fresh cur hpc
      have hi : i ≠ 0 := h.ne_zero hpc (by simp) fun t ht => by simp [State.sleeping, ht]
      have hlook : MayLook s timer := by simpa only [Timely, hpc] using hok
      split_ifs at hstep
      all_goals cases hstep
      · exact h.completed hi fresh rfl rfl hlook.2
      · exact h.tryResume hi now fresh hlook
    · contradiction
  | switch i =>
    split_ifs at hstep with hi hparkable
    all_goals cases hstep
    · refine h.setPc (by tauto) fun heq => ?_
      cases heq
      exact (Bool.and_eq_true_iff.mp hparkable).2
    · exact h
  | switchCas i =>
    split at hstep
    · rename_i flags hpc
      have hi : i ≠ 0 := h.ne_zero hpc (by simp) fun t ht => by simp [State.sleeping, ht]
      split_ifs at hstep with hflags hparkable
      all_goals cases hstep
      · subst hflags
        exact h.parked hpc
      · refine h.setPc hi fun heq => ?_
        cases heq
        exact (Bool.and_eq_true_iff.mp hparkable).2
      · exact h.setPc hi (by simp)
    · contradiction
  | other privileged rest =>
    cases hstep
    exact ⟨h.resumed, h.switch, h.sleep, h.self⟩

/-! ## Runs -/

/-- In every run whose resumes and timers are timely, a completed resume that no later
    suspension supersedes leaves the thread running with no suspension pending. -/
theorem noLostResume {s t : State} {as : List Action} (hs : Quiet s)
    (h : Run step Timely s as t) : Resumed t := (h.invariant inv_step (inv_of_quiet hs)).resumed

/-- A running user thread that nobody has suspended yet. -/
def userThread : State where
  flags := ⟨true, false, false, false, false, false, 0⟩
  pc _ := .idle
  timers := []
  sleeps := 0
  fired := false
  owed := false

theorem noLostResume_parked :
    Quiet userThread ∧
      ∃ t, Run step Timely userThread
          [.suspend 1 false, .suspendCas 1, .switch 2, .switchCas 2, .resume 3 false,
            .resumeCas 3] t ∧
        t.owed = true ∧ Resumed t := by
  have hs : Quiet userThread := ⟨fun _ => rfl, rfl⟩
  obtain ⟨t, hrun, howed⟩ : ∃ t, Run step Timely userThread
      [.suspend 1 false, .suspendCas 1, .switch 2, .switchCas 2, .resume 3 false,
        .resumeCas 3] t ∧ t.owed = true :=
    ⟨_, .cons trivial rfl (.cons trivial rfl (.cons trivial rfl (.cons trivial rfl
      (.cons ⟨by decide, by decide⟩ rfl (.cons ⟨by decide, by decide⟩ rfl (.nil _)))))), rfl⟩
  exact ⟨hs, t, hrun, howed, noLostResume hs hrun⟩

/-- Resumes get lost. One that comes between the two parts of a suspension returns while
    the suspension stays pending, and the next switch parks the thread. The timer of a
    sleep that fires before the thread has suspended itself does not wake it up. -/
theorem resume_lost :
    (∃ t, Run step (fun _ _ => True) userThread
        [.suspend 1 false, .suspendCas 1, .resume 2 false, .switch 3, .switchCas 3] t ∧
      t.owed = true ∧ t.flags.running = false) ∧
    ∃ t, Run step (fun _ _ => True) userThread
        [.sleep, .timer 1 1, .sleepSuspend true, .sleepCas, .switch 3, .switchCas 3] t ∧
      t.owed = true ∧ t.flags.running = false := by
  refine ⟨⟨_, .cons trivial rfl (.cons trivial rfl (.cons trivial rfl (.cons trivial rfl
    (.cons trivial rfl (.nil _))))), rfl, rfl⟩, ⟨_, .cons trivial rfl (.cons trivial rfl
    (.cons trivial rfl (.cons trivial rfl (.cons trivial rfl (.cons trivial rfl (.nil _)))))),
    rfl, rfl⟩⟩

end BadgerOS.Scheduler

import BadgerOS.Lib.Run

/-!
# The mutex

Model of one `mutex_t` and of any number of threads that use it
(`kernel/src/badgelib/mutex.c` lines 15–260), with shared and exclusive locking, with and
without timeouts, from threads and from interrupt handlers. A step is one atomic operation
with the local decisions that follow it, or what a thread does while it has the
`wait_spinlock`. A weak compare-exchange may fail without reason.

The mutex counts its shared holders in `shares`, and an exclusive holder makes it
`EXCLUSIVE_MAGIC`. Threads are disciplined: they release only what they hold. Who holds the
mutex is recorded in ghost lists, with one entry for each acquisition that has not been
released.

* `sharesMatch_run`: in every state of every run `shares` is the number of shared holders or
  stands for one exclusive holder, who is alone.

An `int` is an integer here: all values of `shares` and of its copies lie between 0 and
`EXCLUSIVE_MAGIC`.
-/

namespace BadgerOS.Mutex

open Function Option List

/-- `EXCLUSIVE_MAGIC` (line 16). -/
def exclusiveMagic : ℤ := (2 ^ 31 - 1) / 4

/-! ## Model -/

inductive Kind
  | acquire
  | release
  | acquireShared
  | releaseShared
  deriving DecidableEq, Repr

/-- A call of `mutex_acquire_impl`, `mutex_release_impl`, `mutex_acquire_shared_impl` or
    `mutex_release_shared_impl`: `timed` is a timeout other than `TIMESTAMP_US_MAX`. -/
structure Call where
  kind : Kind
  timed : Bool
  fromIsr : Bool
  deriving DecidableEq, Repr

/-- Where a thread is in the functions of the mutex. `old` is the local variable `old_value`. -/
inductive Pc (ι : Type*)
  | idle
  /-- Before the first load of `thresh_add_atomic_int` or `unequal_sub_atomic_int`. -/
  | load (c : Call)
  /-- Before the test and the compare-exchange. -/
  | attempt (c : Call) (old : ℤ)
  /-- Before `isr_pause`, `mutex_wait` or `thread_yield`. -/
  | failed (c : Call) (old : ℤ)
  /-- In `mutex_wait`, before the thread enters the waiting list. -/
  | enqueue (c : Call) (old : ℤ)
  /-- In `mutex_wait`, on the waiting list, until the scheduler runs the thread again. -/
  | waiting (c : Call) (old : ℤ)
  /-- Before the test of the loop. -/
  | check (c : Call) (old : ℤ)
  /-- In `mutex_notify`, before it takes the spinlock. -/
  | notify
  /-- In the loop of `mutex_notify`, with the rest of the waiting list. -/
  | scan (rest : List ι)
  deriving DecidableEq

/-- The timer of a waiting thread: `mutex_resume_timer` before its `atomic_fetch_and`, and
    after it if it has found `THREAD_BLOCKED`. -/
inductive Timer
  | off
  | armed
  | resuming
  deriving DecidableEq, Repr

/-- The mutex and the threads. -/
structure State (ι : Type*) where
  shares : ℤ
  waitingList : List ι
  waitSpinlock : Bool
  pc : ι → Pc ι
  /-- `THREAD_BLOCKED`. -/
  blocked : ι → Bool
  /-- The thread is in a queue of the scheduler, or running. -/
  queued : ι → Bool
  timer : ι → Timer
  /-- Ghost: the exclusive holders. -/
  exclusive : List ι
  /-- Ghost: the shared holders. -/
  shared : List ι
  /-- Ghost: the thread has been resumed and has not tried again since. -/
  woken : ι → Bool

/-- The atomic steps of thread `i`. -/
inductive Action (ι : Type*)
  /-- It calls a function of the mutex. -/
  | call (i : ι) (c : Call)
  | load (i : ι)
  /-- The test and the compare-exchange, which fails if it is `spurious`. -/
  | attempt (i : ι) (spurious : Bool)
  /-- What follows a failed attempt: `isr_pause`, `thread_yield`, or the first part of
      `mutex_wait`, up to arming the timer. -/
  | pause (i : ι)
  | enqueue (i : ι)
  /-- The scheduler runs the thread again and `mutex_wait` returns. -/
  | resume (i : ι)
  /-- The test of the loop, where a timeout may have expired. -/
  | check (i : ι) (expired : Bool)
  /-- `mutex_notify` takes the spinlock. -/
  | lock (i : ι)
  /-- `mutex_notify` looks at the next thread of the waiting list. -/
  | scan (i : ι)
  /-- The timer of the thread fires. -/
  | fire (i : ι)
  /-- The timer takes the thread from the waiting list and resumes it. -/
  | unwait (i : ι)
  deriving DecidableEq, Repr

/-- The value of `old_value` in an attempt: `await_swap_atomic_int` sets it to `expected`
    (line 131), the other loops use what they have read. -/
def Call.expected (c : Call) (old : ℤ) : ℤ :=
  match c.kind with
  | .acquire => 0
  | .release => exclusiveMagic
  | .acquireShared | .releaseShared => old

/-- The test before the compare-exchange (lines 150 and 168). -/
def Call.admits (c : Call) (old : ℤ) : Prop :=
  match c.kind with
  | .acquire | .release => True
  | .acquireShared => ¬ (exclusiveMagic ≤ old ∨ exclusiveMagic ≤ old + 1)
  | .releaseShared => ¬ (old = 0 ∨ old = exclusiveMagic)

instance (c : Call) (old : ℤ) : Decidable (c.admits old) := by
  unfold Call.admits
  cases c.kind <;> infer_instance

/-- The value that the compare-exchange writes. -/
def Call.newValue (c : Call) (old : ℤ) : ℤ :=
  match c.kind with
  | .acquire => exclusiveMagic
  | .release => 0
  | .acquireShared => old + 1
  | .releaseShared => old - 1

/-- A release goes on with `mutex_notify`. -/
def Call.next {ι : Type*} (c : Call) : Pc ι :=
  match c.kind with
  | .acquire | .acquireShared => .idle
  | .release | .releaseShared => .notify

/-- The loop of the call can end without success. -/
def Call.expires (c : Call) : Bool :=
  c.timed && (c.kind == .acquire || c.kind == .acquireShared)

/-- The call waits in `mutex_wait` after a failed attempt. -/
def Call.waits (c : Call) : Bool := !c.fromIsr && c.kind != .releaseShared

section

variable {ι : Type*} [DecidableEq ι]

/-- A thread releases only what it holds. -/
def State.allows (s : State ι) (i : ι) (c : Call) : Prop :=
  match c.kind with
  | .acquire | .acquireShared => True
  | .release => i ∈ s.exclusive
  | .releaseShared => i ∈ s.shared

instance (s : State ι) (i : ι) (c : Call) : Decidable (s.allows i c) := by
  unfold State.allows
  cases c.kind <;> infer_instance

def State.setPc (s : State ι) (i : ι) (pc : Pc ι) : State ι :=
  { s with pc := update s.pc i pc }

/-- The compare-exchange has succeeded. -/
def State.exchanged (s : State ι) (i : ι) (c : Call) (old : ℤ) : State ι :=
  { s.setPc i c.next with
    shares := c.newValue old
    exclusive := match c.kind with
      | .acquire => i :: s.exclusive
      | .release => s.exclusive.erase i
      | .acquireShared | .releaseShared => s.exclusive
    shared := match c.kind with
      | .acquireShared => i :: s.shared
      | .releaseShared => s.shared.erase i
      | .acquire | .release => s.shared
    woken := update s.woken i false }

/-- The test or the compare-exchange has failed. Only the latter reads `shares` again. -/
def State.retried (s : State ι) (i : ι) (c : Call) (old : ℤ) : State ι :=
  { s.setPc i (.failed c (if c.admits old then s.shares else old)) with
    woken := update s.woken i false }

/-- The thread leaves the queues of the scheduler and gets its flag and timer (lines 64–80). -/
def State.block (s : State ι) (i : ι) (c : Call) (old : ℤ) : State ι :=
  { s.setPc i (.enqueue c old) with
    blocked := update s.blocked i true
    queued := update s.queued i false
    timer := update s.timer i (if c.expires then .armed else .off) }

/-- The thread enters the waiting list (lines 82–85). -/
def State.enqueued (s : State ι) (i : ι) (c : Call) (old : ℤ) : State ι :=
  { s.setPc i (.waiting c old) with waitingList := s.waitingList ++ [i] }

/-- Thread `j` is taken from the waiting list and resumed by `thread_handoff`. -/
def State.wake (s : State ι) (j : ι) : State ι :=
  { s with
    waitingList := s.waitingList.erase j
    queued := update s.queued j true
    timer := update s.timer j .off
    woken := update s.woken j true }

/-- `mutex_notify` has found a blocked thread (lines 100–113). -/
def State.notified (s : State ι) (i j : ι) : State ι :=
  { (s.wake j).setPc i .idle with
    waitSpinlock := false
    blocked := update s.blocked j false }

/-- The timer has fired (lines 44–45). -/
def State.fired (s : State ι) (i : ι) : State ι :=
  { s with
    blocked := update s.blocked i false
    timer := update s.timer i (if s.blocked i then .resuming else .off) }

/-- One atomic step; `isShared` is the field of the mutex. -/
def step (isShared : Bool) (s : State ι) : Action ι → Option (State ι)
  | .call i c =>
    if s.pc i = .idle ∧ s.allows i c then
      match c.kind with
      | .acquire | .release => some (s.setPc i (.attempt c 0))
      | .acquireShared => if isShared then some (s.setPc i (.load c)) else some s
      | .releaseShared => some (s.setPc i (.load c))
    else none
  | .load i =>
    match s.pc i with
    | .load c => some (s.setPc i (.attempt c s.shares))
    | _ => none
  | .attempt i spurious =>
    match s.pc i with
    | .attempt c old =>
      if c.admits (c.expected old) ∧ s.shares = c.expected old ∧ spurious = false then
        some (s.exchanged i c (c.expected old))
      else some (s.retried i c (c.expected old))
    | _ => none
  | .pause i =>
    match s.pc i with
    | .failed c old => if c.waits then some (s.block i c old) else some (s.setPc i (.check c old))
    | _ => none
  | .enqueue i =>
    match s.pc i with
    | .enqueue c old => if s.waitSpinlock then none else some (s.enqueued i c old)
    | _ => none
  | .resume i =>
    match s.pc i with
    | .waiting c old => if s.queued i then some (s.setPc i (.check c old)) else none
    | _ => none
  | .check i expired =>
    match s.pc i with
    | .check c old =>
      if expired then if c.expires then some (s.setPc i .idle) else none
      else some (s.setPc i (.attempt c old))
    | _ => none
  | .lock i =>
    match s.pc i with
    | .notify =>
      if s.waitSpinlock then none
      else some { s.setPc i (.scan s.waitingList) with waitSpinlock := true }
    | _ => none
  | .scan i =>
    match s.pc i with
    | .scan [] => some { s.setPc i .idle with waitSpinlock := false }
    | .scan (j :: rest) =>
      if s.blocked j then some (s.notified i j) else some (s.setPc i (.scan rest))
    | _ => none
  | .fire i => if s.timer i = .armed then some (s.fired i) else none
  | .unwait i => if s.timer i = .resuming ∧ s.waitSpinlock = false then some (s.wake i) else none

/-- The mutex after `mutex_init`, which no one uses yet. -/
structure Initial (s : State ι) : Prop where
  shares : s.shares = 0
  exclusive : s.exclusive = []
  shared : s.shared = []
  idle : ∀ i, s.pc i = .idle
  waitingList : s.waitingList = []
  waitSpinlock : s.waitSpinlock = false
  woken : ∀ i, s.woken i = false
  timer : ∀ i, s.timer i = .off

/-- `shares` says who holds the mutex, and an exclusive holder is alone. -/
structure SharesMatch (s : State ι) : Prop where
  exclusive : s.exclusive.length = 1 → s.shared = [] → s.shares = exclusiveMagic
  shared : ¬ (s.exclusive.length = 1 ∧ s.shared = []) → s.shares = s.shared.length
  alone : s.exclusive ≠ [] → s.exclusive.length = 1 ∧ s.shared = []

end

/-! ## The steps as a relation -/

section

variable {ι : Type*} [DecidableEq ι] {isShared : Bool} {s t : State ι}

/-- What a step can do, one constructor for each branch of `step`. -/
inductive Step (s : State ι) : Action ι → State ι → Prop
  | refused {i c} : Step s (.call i c) s
  | start {i c pc} : s.pc i = .idle → s.allows i c → pc = .load c ∨ pc = .attempt c 0 →
      Step s (.call i c) (s.setPc i pc)
  | load {i c} : s.pc i = .load c → Step s (.load i) (s.setPc i (.attempt c s.shares))
  | exchange {i c old} : s.pc i = .attempt c old → c.admits (c.expected old) →
      s.shares = c.expected old →
      Step s (.attempt i false) (s.exchanged i c (c.expected old))
  | retry {i c old spurious} : s.pc i = .attempt c old →
      ¬ (c.admits (c.expected old) ∧ s.shares = c.expected old ∧ spurious = false) →
      Step s (.attempt i spurious) (s.retried i c (c.expected old))
  | block {i c old} : s.pc i = .failed c old → Step s (.pause i) (s.block i c old)
  | pause {i c old} : s.pc i = .failed c old → Step s (.pause i) (s.setPc i (.check c old))
  | enqueue {i c old} : s.pc i = .enqueue c old → s.waitSpinlock = false →
      Step s (.enqueue i) (s.enqueued i c old)
  | resume {i c old} : s.pc i = .waiting c old → s.queued i = true →
      Step s (.resume i) (s.setPc i (.check c old))
  | expire {i c old} : s.pc i = .check c old → c.expires = true →
      Step s (.check i true) (s.setPc i .idle)
  | again {i c old} : s.pc i = .check c old →
      Step s (.check i false) (s.setPc i (.attempt c old))
  | lock {i} : s.pc i = .notify → s.waitSpinlock = false →
      Step s (.lock i) { s.setPc i (.scan s.waitingList) with waitSpinlock := true }
  | scanned {i} : s.pc i = .scan [] → Step s (.scan i) { s.setPc i .idle with waitSpinlock := false }
  | notify {i j rest} : s.pc i = .scan (j :: rest) → s.blocked j = true →
      Step s (.scan i) (s.notified i j)
  | skip {i j rest} : s.pc i = .scan (j :: rest) → s.blocked j = false →
      Step s (.scan i) (s.setPc i (.scan rest))
  | fire {i} : s.timer i = .armed → Step s (.fire i) (s.fired i)
  | unwait {i} : s.timer i = .resuming → s.waitSpinlock = false → Step s (.unwait i) (s.wake i)

theorem step_inv {a : Action ι} (h : step isShared s a = some t) : Step s a t := by
  cases a with simp only [step] at h
  | call i c =>
    split at h
    · rename_i hcall
      split at h
      · cases h
        exact .start hcall.1 hcall.2 (.inr rfl)
      · cases h
        exact .start hcall.1 hcall.2 (.inr rfl)
      · split at h <;> cases h
        · exact .start hcall.1 hcall.2 (.inl rfl)
        · exact .refused
      · cases h
        exact .start hcall.1 hcall.2 (.inl rfl)
    · contradiction
  | load i =>
    split at h
    · rename_i c hpc
      cases h
      exact .load hpc
    · contradiction
  | attempt i spurious =>
    split at h
    · rename_i c old hpc
      split at h <;> rename_i hcas <;> cases h
      · obtain ⟨hadmits, hshares, rfl⟩ := hcas
        exact .exchange hpc hadmits hshares
      · exact .retry hpc hcas
    · contradiction
  | pause i =>
    split at h
    · rename_i c old hpc
      split at h <;> cases h
      · exact .block hpc
      · exact .pause hpc
    · contradiction
  | enqueue i =>
    split at h
    · rename_i c old hpc
      split at h
      · contradiction
      · rename_i hlock
        cases h
        exact .enqueue hpc (by simpa using hlock)
    · contradiction
  | resume i =>
    split at h
    · rename_i c old hpc
      split at h
      · rename_i hqueued
        cases h
        exact .resume hpc hqueued
      · contradiction
    · contradiction
  | check i expired =>
    split at h
    · rename_i c old hpc
      cases expired with
      | true =>
        rw [if_pos rfl] at h
        split at h
        · rename_i hexpires
          cases h
          exact .expire hpc hexpires
        · contradiction
      | false =>
        rw [if_neg Bool.false_ne_true] at h
        cases h
        exact .again hpc
    · contradiction
  | lock i =>
    split at h
    · rename_i hpc
      split at h
      · contradiction
      · rename_i hlock
        cases h
        exact .lock hpc (by simpa using hlock)
    · contradiction
  | scan i =>
    split at h
    · rename_i hpc
      cases h
      exact .scanned hpc
    · rename_i j rest hpc
      split at h <;> rename_i hblocked <;> cases h
      · exact .notify hpc hblocked
      · exact .skip hpc (by simpa using hblocked)
    · contradiction
  | fire i =>
    split at h
    · rename_i harmed
      cases h
      exact .fire harmed
    · contradiction
  | unwait i =>
    split at h
    · rename_i hresuming
      cases h
      exact .unwait hresuming.1 hresuming.2
    · contradiction

/-! ## Exclusion -/

/-- The call that a thread is in, up to its success. -/
def Pc.call {ι : Type*} : Pc ι → Option Call
  | .load c | .attempt c _ | .failed c _ | .enqueue c _ | .waiting c _ | .check c _ => some c
  | .idle | .notify | .scan _ => none

theorem Call.next_call {ι : Type*} (c : Call) : (c.next : Pc ι).call = none := by
  unfold Call.next
  cases c.kind <;> rfl

/-- The invariant: the count, and that threads hold what they are about to release. -/
structure ShareInv (s : State ι) : Prop where
  count : (s.exclusive = [] ∧ s.shares = s.shared.length ∧ s.shares < exclusiveMagic) ∨
    ∃ i, s.exclusive = [i] ∧ s.shared = [] ∧ s.shares = exclusiveMagic
  holds : ∀ i c, (s.pc i).call = some c → s.allows i c

omit [DecidableEq ι] in
theorem Initial.shareInv (h : Initial s) : ShareInv s := by
  refine ⟨.inl ⟨h.exclusive, by simp [h.shares, h.shared], by rw [h.shares]; decide⟩, ?_⟩
  intro i c hc
  rw [h.idle i] at hc
  contradiction

/-- Steps without effect on the holders: thread `i` goes on in its call, leaves it, or begins
    one that is allowed. -/
theorem ShareInv.quiet (h : ShareInv s) {i : ι} {pc : Pc ι} (hshares : t.shares = s.shares)
    (hexclusive : t.exclusive = s.exclusive) (hshared : t.shared = s.shared)
    (hpc : t.pc = update s.pc i pc)
    (hcall : ∀ c, pc.call = some c → (s.pc i).call = some c ∨ s.allows i c) : ShareInv t := by
  have hallows (j : ι) (c : Call) (hs : s.allows j c) : t.allows j c := by
    unfold State.allows at *
    rwa [hexclusive, hshared]
  refine ⟨?_, fun j c hj => hallows j c ?_⟩
  · rw [hexclusive, hshared, hshares]
    exact h.count
  · rw [hpc] at hj
    by_cases hji : j = i
    · subst hji
      rw [update_self] at hj
      exact (hcall c hj).elim (h.holds j c) id
    · rw [update_of_ne hji] at hj
      exact h.holds j c hj

theorem ShareInv.exchanged_holds (h : ShareInv s) (i : ι) (c : Call) (old : ℤ) (j : ι) (d : Call)
    (hd : ((s.exchanged i c old).pc j).call = some d) : (s.exchanged i c old).allows j d := by
  have hpc : (s.exchanged i c old).pc = update s.pc i c.next := rfl
  rw [hpc] at hd
  by_cases hji : j = i
  · subst hji
    rw [update_self, c.next_call] at hd
    contradiction
  · rw [update_of_ne hji] at hd
    have hexclusive (hj : j ∈ s.exclusive) : j ∈ (s.exchanged i c old).exclusive := by
      simp only [State.exchanged]
      split
      · exact mem_cons_of_mem _ hj
      · exact (mem_erase_of_ne hji).mpr hj
      · exact hj
      · exact hj
    have hshared (hj : j ∈ s.shared) : j ∈ (s.exchanged i c old).shared := by
      simp only [State.exchanged]
      split
      · exact mem_cons_of_mem _ hj
      · exact (mem_erase_of_ne hji).mpr hj
      · exact hj
      · exact hj
    have hs := h.holds j d hd
    revert hs
    unfold State.allows
    cases d.kind with
    | acquire => exact id
    | acquireShared => exact id
    | release => exact hexclusive
    | releaseShared => exact hshared

theorem ShareInv.exchanged (h : ShareInv s) {i : ι} {c : Call} {old : ℤ}
    (hholds : s.allows i c) (hadmits : c.admits (c.expected old))
    (hshares : s.shares = c.expected old) : ShareInv (s.exchanged i c (c.expected old)) := by
  refine ⟨?_, h.exchanged_holds i c _⟩
  have hmagic : (0 : ℤ) < exclusiveMagic := by decide
  obtain ⟨kind, timed, fromIsr⟩ := c
  cases kind with
  | acquire =>
    have hzero : s.shares = 0 := hshares
    refine .inr ⟨i, ?_⟩
    rcases h.count with ⟨hex, hcount, -⟩ | ⟨-, -, -, hmax⟩
    · have hnil : s.shared = [] := eq_nil_of_length_eq_zero (by omega)
      exact ⟨by simp [State.exchanged, hex], hnil, rfl⟩
    · omega
  | release =>
    have hmax : s.shares = exclusiveMagic := hshares
    refine .inl ?_
    rcases h.count with ⟨-, -, hlt⟩ | ⟨j, hex, hsh, -⟩
    · omega
    · have hmem : i ∈ s.exclusive := hholds
      obtain rfl : i = j := by simpa [hex] using hmem
      exact ⟨by simp [State.exchanged, hex], by simp [State.exchanged, hsh, Call.newValue], hmagic⟩
  | acquireShared =>
    have hold : s.shares = old := hshares
    have hlt : ¬ (exclusiveMagic ≤ old ∨ exclusiveMagic ≤ old + 1) := hadmits
    refine .inl ?_
    rcases h.count with ⟨hex, hcount, -⟩ | ⟨-, -, -, hmax⟩
    · refine ⟨hex, ?_, ?_⟩
      · simp only [State.exchanged, Call.newValue, Call.expected, length_cons]
        push_cast
        omega
      · simp only [State.exchanged, Call.newValue, Call.expected]
        omega
    · omega
  | releaseShared =>
    have hold : s.shares = old := hshares
    have hnot : ¬ (old = 0 ∨ old = exclusiveMagic) := hadmits
    have hmem : i ∈ s.shared := hholds
    have hpos := length_pos_of_mem hmem
    refine .inl ?_
    rcases h.count with ⟨hex, hcount, hlt⟩ | ⟨-, -, -, hmax⟩
    · refine ⟨hex, ?_, ?_⟩
      · simp only [State.exchanged, Call.newValue, Call.expected, length_erase_of_mem hmem]
        omega
      · simp only [State.exchanged, Call.newValue, Call.expected]
        omega
    · omega

theorem ShareInv.step (h : ShareInv s) {a : Action ι} (hstep : Step s a t) : ShareInv t := by
  -- A thread that stays in its call or leaves it.
  have hstay {u : State ι} {i : ι} {pc : Pc ι} (hshares : u.shares = s.shares)
      (hexclusive : u.exclusive = s.exclusive) (hshared : u.shared = s.shared)
      (hpc : u.pc = update s.pc i pc) (hcall : pc.call = (s.pc i).call ∨ pc.call = none) :
      ShareInv u :=
    h.quiet hshares hexclusive hshared hpc fun c hc => .inl (by
      rcases hcall with heq | hnone
      · rw [← heq, hc]
      · rw [hnone] at hc
        contradiction)
  cases hstep with
  | refused => exact h
  | start hidle hallows hpc =>
    refine h.quiet rfl rfl rfl rfl fun c' hc' => .inr ?_
    rcases hpc with rfl | rfl <;> obtain rfl := some.inj hc' <;> exact hallows
  | exchange hpc hadmits hshares =>
    exact h.exchanged (h.holds _ _ (by rw [hpc]; rfl)) hadmits hshares
  | load hpc | retry hpc _ | block hpc | pause hpc | enqueue hpc _ | resume hpc _ | again hpc =>
    exact hstay rfl rfl rfl rfl (.inl (by rw [hpc]; rfl))
  | expire _ _ | lock _ _ | scanned _ | notify _ _ | skip _ _ =>
    exact hstay rfl rfl rfl rfl (.inr rfl)
  | fire _ | unwait _ _ => exact ⟨h.count, h.holds⟩

omit [DecidableEq ι] in
theorem ShareInv.sharesMatch (h : ShareInv s) : SharesMatch s := by
  rcases h.count with ⟨hex, hcount, -⟩ | ⟨i, hex, hsh, hmax⟩
  · exact ⟨fun hone => by simp [hex] at hone, fun _ => hcount, fun hne => absurd hex hne⟩
  · exact ⟨fun _ _ => hmax, fun hnot => absurd ⟨by simp [hex], hsh⟩ hnot,
      fun _ => ⟨by simp [hex], hsh⟩⟩

/-- In every state that the threads can reach, `shares` says who holds the mutex, and an
    exclusive holder is alone. -/
theorem sharesMatch_run {as : List (Action ι)} (hinit : Initial s)
    (hrun : Run (step isShared) (fun _ _ => True) s as t) : SharesMatch t := (hrun.invariant (fun h _ hstep => ShareInv.step h (step_inv hstep)) hinit.shareInv).sharesMatch

end

/-- A mutex that no one uses. -/
def freshMutex : State ℕ :=
  ⟨0, [], false, fun _ => .idle, fun _ => false, fun _ => true, fun _ => .off, [], [], fun _ => false⟩

theorem initial_freshMutex : Initial freshMutex := ⟨rfl, rfl, rfl, fun _ => rfl, rfl, rfl, fun _ => rfl, fun _ => rfl⟩

/-- Thread 0 takes a share and thread 1 tries to lock the mutex. -/
theorem sharesMatch_run_shared : ∃ t, Run (step true) (fun _ _ => True) freshMutex
    [.call 0 ⟨.acquireShared, false, false⟩, .call 1 ⟨.acquire, false, false⟩, .load 0,
      .attempt 0 false, .attempt 1 false] t ∧ t.shared = [0] ∧ SharesMatch t := by
  obtain ⟨t, hrun, hshared⟩ : ∃ t, Run (step true) (fun _ _ => True) freshMutex
      [.call 0 ⟨.acquireShared, false, false⟩, .call 1 ⟨.acquire, false, false⟩, .load 0,
        .attempt 0 false, .attempt 1 false] t ∧ t.shared = [0] :=
    ⟨_, .cons trivial rfl (.cons trivial rfl (.cons trivial rfl (.cons trivial rfl
      (.cons trivial rfl (.nil _))))), rfl⟩
  exact ⟨t, hrun, hshared, sharesMatch_run initial_freshMutex hrun⟩

end BadgerOS.Mutex

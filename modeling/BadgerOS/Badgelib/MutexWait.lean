import BadgerOS.Badgelib.Mutex

/-!
# Waiting for the mutex

A thread that cannot have the mutex enters its waiting list, and `mutex_notify` resumes the
first thread of the list after a release (`kernel/src/badgelib/mutex.c` lines 62–124). No
wake-up should be lost: without timeouts there should be no state in which the mutex is
free, a thread waits, and neither a release is still about to notify it nor a thread that
has been resumed is still to try again (`LostWakeup`).

**Deviation.** The compare-exchange that fails and the entry into the waiting list are not
one step. A release in between finds an empty list, and the thread then waits for a mutex
that is free (`lostWakeup_reached`). Besides, only one thread is resumed, and its next
attempt can fail although the mutex is free: a weak compare-exchange may do so, and
`thresh_add_atomic_int` does not read `shares` again if the value that it has read before
is too large.

`noLostWakeup` shows that there is no such state in all runs in which threads enter the list
only while the mutex is taken and resumed threads do not fail while it is free.
-/

namespace BadgerOS.Mutex

open List Function

variable {ι : Type*} [DecidableEq ι] {isShared : Bool} {s t : State ι} {i : ι} {pc : Pc ι}

/-! ## Lost wake-ups -/

/-- The call is one to acquire the mutex. -/
def Call.Acquires (c : Call) : Prop := c.kind = .acquire ∨ c.kind = .acquireShared

/-- The thread is in a call to acquire the mutex. -/
def Pc.Acquiring {ι : Type*} (pc : Pc ι) : Prop := ∃ c, pc.call = some c ∧ c.Acquires

/-- The thread is between the compare-exchange of a release and the end of `mutex_notify`. -/
def Pc.Notifying {ι : Type*} (pc : Pc ι) : Prop := pc = .notify ∨ ∃ rest, pc = .scan rest

/-- The mutex is free and a thread waits for it without a timer, but no one is going to
    resume a thread or to try again after having been resumed. -/
structure LostWakeup (s : State ι) : Prop where
  free : s.shares = 0
  waits : ∃ i ∈ s.waitingList, s.blocked i = true ∧ s.timer i = .off
  silent : ∀ j, ¬ (s.pc j).Notifying
  tried : ∀ j, s.woken j = true → ¬ (s.pc j).Acquiring

/-- No call has a timeout. -/
def Untimed : Action ι → Prop
  | .call _ c => c.timed = false
  | _ => True

/-- The condition on the steps: threads enter the waiting list only while the mutex is taken,
    and a thread that has been resumed and finds it free gets it. -/
def Attentive (s : State ι) : Action ι → Prop
  | .attempt i spurious => s.woken i = true → s.shares = 0 → ∀ c old, s.pc i = .attempt c old →
      c.Acquires → spurious = false ∧ c.expected old = 0
  | .enqueue _ => s.shares ≠ 0
  | _ => True

/-! ## The waiting list -/

/-- The invariant of the waiting list in runs without timeouts. -/
structure Parked (s : State ι) : Prop where
  timer : ∀ i, s.timer i = .off
  untimed : ∀ i c, (s.pc i).call = some c → c.timed = false
  /-- Threads about to enter the list have their flag and do not run. -/
  entering : ∀ i c old, s.pc i = .enqueue c old → s.blocked i = true ∧ s.queued i = false
  /-- So have the threads on the list. -/
  parked : ∀ i ∈ s.waitingList, s.blocked i = true ∧ s.queued i = false
  waiting : ∀ i ∈ s.waitingList, ∃ c old, s.pc i = .waiting c old
  nodup : s.waitingList.Nodup
  /-- `mutex_notify` is always at the start of the list. -/
  scan : ∀ i rest, s.pc i = .scan rest → rest = s.waitingList ∧ s.waitSpinlock = true
  scanner : ∀ i j rest rest', s.pc i = .scan rest → s.pc j = .scan rest' → i = j

omit [DecidableEq ι] in
theorem Initial.parked (h : Initial s) : Parked s := by
  have hlist := h.waitingList
  refine ⟨h.timer, ?_, ?_, ?_, ?_, ?_, ?_, ?_⟩ <;> simp [h.idle, hlist, Pc.call]

omit [DecidableEq ι] in
theorem Parked.not_mem (h : Parked s) (hpc : s.pc i = pc) (hne : ∀ c old, pc ≠ .waiting c old) : i ∉ s.waitingList := by
  intro hmem
  obtain ⟨c, old, hwaiting⟩ := h.waiting i hmem
  exact hne c old (hpc ▸ hwaiting)

omit [DecidableEq ι] in
theorem Parked.expires_eq (h : Parked s) {c : Call} (hpc : s.pc i = pc) (hc : pc.call = some c) : c.expires = false := by
  simp [Call.expires, h.untimed i c (hpc ▸ hc)]

omit [DecidableEq ι] in
theorem Parked.head_mem (h : Parked s) {j : ι} {rest : List ι} (hpc : s.pc i = .scan (j :: rest)) : j ∈ s.waitingList := by
  rw [← (h.scan i _ hpc).1]
  exact mem_cons_self

section

variable (h : Parked s) (htimer : ∀ j, t.timer j = .off) (hpc : t.pc = Function.update s.pc i pc)
  (hcall : ∀ c, pc.call = some c → c.timed = false)

include h htimer hpc hcall

/-- Thread `i` goes to `pc`. The list keeps only threads that were on it or `i`, with their
    flags, and it does not change while another thread scans it. -/
theorem Parked.update (hnodup : t.waitingList.Nodup)
    (hmem : ∀ j ∈ t.waitingList, j ≠ i → j ∈ s.waitingList)
    (hflags : ∀ j ≠ i, (j ∈ t.waitingList ∨ ∃ c old, s.pc j = .enqueue c old) → t.blocked j =
      s.blocked j ∧ t.queued j = s.queued j)
    (henter : (∃ c old, pc = .enqueue c old) ∨ i ∈ t.waitingList → t.blocked i = true ∧ t.queued i =
      false) (hin : i ∈ t.waitingList → ∃ c old, pc = .waiting c old)
    (hscan : ∀ rest, pc = .scan rest → rest = t.waitingList ∧ t.waitSpinlock = true)
    (hothers : ∀ j ≠ i, ∀ rest, s.pc j = .scan rest → t.waitingList = s.waitingList ∧ t.waitSpinlock
      = s.waitSpinlock ∧ ∀ rest', pc ≠ .scan rest') : Parked t := by
  have hself : t.pc i = pc := by rw [hpc, update_self]
  have hother {j : ι} (hj : j ≠ i) : t.pc j = s.pc j := by rw [hpc, update_of_ne hj]
  refine ⟨htimer, fun j c hj => ?_, fun j c old hj => ?_, fun j hj => ?_, fun j hj => ?_, hnodup,
    fun j rest hj => ?_, fun j k rest rest' hj hk => ?_⟩
  · by_cases hji : j = i
    · subst hji
      exact hcall c (hself ▸ hj)
    · exact h.untimed j c (hother hji ▸ hj)
  · by_cases hji : j = i
    · subst hji
      exact henter (.inl ⟨c, old, hself ▸ hj⟩)
    · rw [hother hji] at hj
      obtain ⟨hb, hq⟩ := hflags j hji (.inr ⟨c, old, hj⟩)
      rw [hb, hq]
      exact h.entering j c old hj
  · by_cases hji : j = i
    · subst hji
      exact henter (.inr hj)
    · obtain ⟨hb, hq⟩ := hflags j hji (.inl hj)
      rw [hb, hq]
      exact h.parked j (hmem j hj hji)
  · by_cases hji : j = i
    · subst hji
      rw [hself]
      exact hin hj
    · rw [hother hji]
      exact h.waiting j (hmem j hj hji)
  · by_cases hji : j = i
    · subst hji
      exact hscan rest (hself ▸ hj)
    · rw [hother hji] at hj
      obtain ⟨hlist, hlock, -⟩ := hothers j hji rest hj
      rw [hlist, hlock]
      exact h.scan j rest hj
  · by_cases hji : j = i
    · subst hji
      by_contra hkj
      rw [hother (Ne.symm hkj)] at hk
      exact (hothers k (Ne.symm hkj) rest' hk).2.2 rest (hself ▸ hj)
    · rw [hother hji] at hj
      by_cases hki : k = i
      · subst hki
        exact absurd (hself ▸ hk) ((hothers j hji rest hj).2.2 rest')
      · exact h.scanner j k rest rest' hj (hother hki ▸ hk)

/-- The thread goes from one place outside the list to another, in the same call or a new one. -/
theorem Parked.move (hlist : t.waitingList = s.waitingList)
    (hlock : t.waitSpinlock = s.waitSpinlock)
    (hflags : ∀ j ≠ i, t.blocked j = s.blocked j ∧ t.queued j = s.queued j)
    (hfrom : i ∉ s.waitingList) (hto : ∀ rest, pc ≠ .scan rest)
    (henter : ∀ c old, pc = .enqueue c old → t.blocked i = true ∧ t.queued i = false) :
    Parked t := by
  refine h.update htimer hpc hcall (by rw [hlist]; exact h.nodup) (fun j hj _ => hlist ▸ hj)
    (fun j hj _ => hflags j hj) ?_ ?_ (fun rest hrest => absurd hrest (hto rest))
    fun _ _ _ _ => ⟨hlist, hlock, hto⟩
  · rintro (⟨c, old, hpc'⟩ | hin)
    · exact henter c old hpc'
    · exact absurd (hlist ▸ hin) hfrom
  · exact fun hin => absurd (hlist ▸ hin) hfrom

end

/-- `mutex_notify` takes the first thread from the list. -/
theorem Parked.notified (h : Parked s) {i j : ι} {rest : List ι} (hpc : s.pc i = .scan (j :: rest)) :
    Parked (s.notified i j) := by
  obtain ⟨hrest, -⟩ := h.scan i _ hpc
  have hlist : (s.notified i j).waitingList = rest := by
    rw [State.notified, State.wake, State.setPc, ← hrest]
    exact erase_cons_head ..
  have hnodup := h.nodup
  rw [← hrest, nodup_cons] at hnodup
  have hi : i ∉ s.waitingList := h.not_mem hpc (by simp)
  obtain ⟨c, old, hwaiting⟩ := h.waiting j (h.head_mem hpc)
  refine h.update (fun k => ?_) rfl (fun c' hc' => ?_) ?_ (fun k hk _ => ?_) (fun k hki hk => ?_) ?_ ?_
    (fun rest' hrest' => ?_) fun k hki rest' hk => ?_
  · simp only [State.notified, State.setPc, State.wake, update_apply]
    split
    · rfl
    · exact h.timer k
  · contradiction
  · rw [hlist]
    exact hnodup.2
  · rw [hlist] at hk
    rw [← hrest]
    exact mem_cons_of_mem _ hk
  · have hkj : k ≠ j := by
      rintro rfl
      rcases hk with hk | ⟨c', old', hk⟩
      · exact hnodup.1 (hlist ▸ hk)
      · rw [hwaiting] at hk
        contradiction
    exact ⟨update_of_ne hkj .., update_of_ne hkj ..⟩
  · rintro (⟨c', old', hidle⟩ | hin)
    · contradiction
    · exact absurd (by rw [← hrest]; exact mem_cons_of_mem _ (hlist ▸ hin)) hi
  · exact fun hin => absurd (by rw [← hrest]; exact mem_cons_of_mem _ (hlist ▸ hin)) hi
  · contradiction
  · exact absurd (h.scanner k i rest' _ hk hpc) hki

theorem Parked.step (h : Parked s) {a : Action ι} (huntimed : Untimed a) (hstep : Step s a t) : Parked t := by
  -- A thread outside the list goes on in its call.
  have hgo {u : State ι} {i : ι} {pc : Pc ι} (hpc : u.pc = Function.update s.pc i pc)
      (hlist : u.waitingList = s.waitingList) (hlock : u.waitSpinlock = s.waitSpinlock)
      (htimer : ∀ j, u.timer j = .off)
      (hflags : ∀ j ≠ i, u.blocked j = s.blocked j ∧ u.queued j = s.queued j)
      (hfrom : i ∉ s.waitingList) (hcall : pc.call = (s.pc i).call) (hto : ∀ rest, pc ≠ .scan rest)
      (henter : ∀ c old, pc = .enqueue c old → u.blocked i = true ∧ u.queued i = false) :
      Parked u :=
    h.move htimer hpc (fun c hc => h.untimed i c (hcall ▸ hc)) hlist hlock hflags hfrom hto henter
  -- A thread outside the list takes or releases its spinlock.
  have hspin {i : ι} {pc : Pc ι} {locked : Bool} (hfrom : i ∉ s.waitingList) (hcall : pc.call = none)
      (hscan : ∀ rest, pc = .scan rest → rest = s.waitingList ∧ locked = true)
      (hothers : ∀ j ≠ i, ∀ rest, s.pc j ≠ .scan rest) :
      Parked { s.setPc i pc with waitSpinlock := locked } := by
    refine h.update h.timer rfl (by simp [hcall]) h.nodup (fun _ hj _ => hj)
      (fun _ _ _ => ⟨rfl, rfl⟩) ?_ (fun hin => absurd hin hfrom) hscan
      fun j hji rest hj => absurd hj (hothers j hji rest)
    rintro (⟨c', old', rfl⟩ | hin)
    · contradiction
    · exact absurd hin hfrom
  cases hstep with
  | refused => exact h
  | start hidle _ hpc =>
    refine h.move h.timer rfl ?_ rfl rfl (fun _ _ => ⟨rfl, rfl⟩) (h.not_mem hidle (by simp)) ?_ ?_
    · rcases hpc with rfl | rfl <;> rintro c' hc' <;> obtain rfl := Option.some.inj hc' <;>
        exact huntimed
    · rcases hpc with rfl | rfl <;> simp
    · rcases hpc with rfl | rfl <;> simp
  | load hpc | retry hpc _ | pause hpc | again hpc =>
    exact hgo rfl rfl rfl h.timer (fun _ _ => ⟨rfl, rfl⟩) (h.not_mem hpc (by simp))
      (by rw [hpc]; rfl) (by simp) (by simp)
  | @exchange i c old hpc _ _ =>
    have hnext : (c.next : Pc ι).call = none ∧ (∀ c' old', (c.next : Pc ι) ≠ .enqueue c' old') ∧
        ∀ rest, (c.next : Pc ι) ≠ .scan rest := by
      unfold Call.next
      cases c.kind <;> simp [Pc.call]
    refine h.move h.timer rfl (fun c' hc' => ?_) rfl rfl (fun _ _ => ⟨rfl, rfl⟩)
      (h.not_mem hpc (by simp)) hnext.2.2 fun c' old' henter => absurd henter (hnext.2.1 c' old')
    rw [hnext.1] at hc'
    contradiction
  | @block i c old hpc =>
    have hexpires : c.expires = false := h.expires_eq hpc rfl
    refine hgo rfl rfl rfl (fun j => ?_) (fun j hj => ⟨update_of_ne hj .., update_of_ne hj ..⟩)
      (h.not_mem hpc (by simp)) (by rw [hpc]; rfl) (by simp)
      fun _ _ _ => ⟨update_self .., update_self ..⟩
    simp only [State.block, State.setPc, hexpires, update_apply]
    split
    · rfl
    · exact h.timer j
  | @enqueue i c old hpc hlock =>
    have hi : i ∉ s.waitingList := h.not_mem hpc (by simp)
    refine h.update h.timer rfl (fun c' hc' => h.untimed i c' (by rw [hpc]; exact hc')) ?_ ?_
      (fun _ _ _ => ⟨rfl, rfl⟩) (fun _ => h.entering i c old hpc) (fun _ => ⟨c, old, rfl⟩)
      (by simp) fun j _ rest hj => ?_
    · have hnodup := h.nodup.concat hi
      rwa [concat_eq_append] at hnodup
    · intro j hj hji
      rcases mem_append.mp hj with hj | hj
      · exact hj
      · exact absurd (mem_singleton.mp hj) hji
    · rw [(h.scan j rest hj).2] at hlock
      contradiction
  | @resume i c old hpc hqueued =>
    have hi : i ∉ s.waitingList := fun hmem => by
      rw [(h.parked i hmem).2] at hqueued
      contradiction
    exact hgo rfl rfl rfl h.timer (fun _ _ => ⟨rfl, rfl⟩) hi (by rw [hpc]; rfl) (by simp) (by simp)
  | expire hpc hexpires =>
    rw [h.expires_eq hpc rfl] at hexpires
    contradiction
  | lock hpc hlock =>
    refine hspin (h.not_mem hpc (by simp)) rfl (fun rest hrest => ?_) fun j _ rest hj => ?_
    · cases hrest
      exact ⟨rfl, rfl⟩
    · rw [(h.scan j rest hj).2] at hlock
      contradiction
  | @scanned i hpc =>
    exact hspin (h.not_mem hpc (by simp)) rfl (by simp) fun j hji rest hj =>
      hji (h.scanner j i rest [] hj hpc)
  | notify hpc _ => exact h.notified hpc
  | skip hpc hblocked =>
    rw [(h.parked _ (h.head_mem hpc)).1] at hblocked
    contradiction
  | fire harmed =>
    rw [h.timer] at harmed
    contradiction
  | unwait hresuming _ =>
    rw [h.timer] at hresuming
    contradiction

/-! ## No wake-up is lost -/

/-- While the mutex is free, someone takes care of the waiting threads. -/
def Awake (s : State ι) : Prop :=
  s.shares = 0 → s.waitingList ≠ [] →
    (∃ j, (s.pc j).Notifying) ∨ ∃ j, s.woken j = true ∧ (s.pc j).Acquiring

omit [DecidableEq ι] in
theorem Awake.not_lostWakeup (h : Awake s) : ¬ LostWakeup s := by
  intro hlost
  obtain ⟨i, hi, -⟩ := hlost.waits
  rcases h hlost.free (ne_nil_of_mem hi) with ⟨j, hj⟩ | ⟨j, hwoken, hj⟩
  · exact hlost.silent j hj
  · exact hlost.tried j hwoken hj

omit [DecidableEq ι] in
/-- While the mutex is free, only calls to acquire it are under way. -/
theorem ShareInv.acquires (h : ShareInv s) {c : Call} (hzero : s.shares = 0) (hc : (s.pc i).call = some c) : c.Acquires := by
  have hallows := h.holds i c hc
  have hmagic : (0 : ℤ) < exclusiveMagic := by decide
  unfold State.allows at hallows
  unfold Call.Acquires
  cases hk : c.kind with
  | acquire => exact .inl rfl
  | acquireShared => exact .inr rfl
  | release =>
    rw [hk] at hallows
    rcases h.count with ⟨hnil, -⟩ | ⟨j, -, -, hmax⟩
    · rw [hnil] at hallows
      contradiction
    · omega
  | releaseShared =>
    rw [hk] at hallows
    have hpos := length_pos_of_mem hallows
    rcases h.count with ⟨-, hcount, -⟩ | ⟨j, -, hnil, -⟩
    · omega
    · rw [hnil] at hallows
      contradiction

theorem Awake.move (h : Awake s) (hpc : t.pc = Function.update s.pc i pc)
    (hshares : t.shares = s.shares) (hlist : t.waitingList = s.waitingList)
    (hothers : ∀ j ≠ i, t.woken j = s.woken j) (hnotify : (s.pc i).Notifying → pc.Notifying)
    (hwoken : s.shares = 0 → s.woken i = true → (s.pc i).Acquiring → t.woken i = true ∧
      pc.Acquiring) : Awake t := by
  have hself : t.pc i = pc := by rw [hpc, update_self]
  have hother {j : ι} (hj : j ≠ i) : t.pc j = s.pc j := by rw [hpc, update_of_ne hj]
  intro hzero hne
  rw [hshares] at hzero
  rw [hlist] at hne
  rcases h hzero hne with ⟨j, hj⟩ | ⟨j, hj, hacq⟩
  · refine .inl ⟨j, ?_⟩
    by_cases hji : j = i
    · subst hji
      rw [hself]
      exact hnotify hj
    · rwa [hother hji]
  · refine .inr ⟨j, ?_⟩
    by_cases hji : j = i
    · subst hji
      rw [hself]
      exact hwoken hzero hj hacq
    · rw [hothers j hji, hother hji]
      exact ⟨hj, hacq⟩

/-- A compare-exchange that succeeds takes the mutex or goes on to `mutex_notify`. -/
theorem ShareInv.awake_exchanged (h : ShareInv s) {c : Call} {old : ℤ}
    (hshares : s.shares = c.expected old) : Awake (s.exchanged i c (c.expected old)) := by
  have hmagic : (0 : ℤ) < exclusiveMagic := by decide
  have hnonneg : 0 ≤ c.expected old := by
    rcases h.count with ⟨-, hcount, -⟩ | ⟨-, -, -, hmax⟩ <;> omega
  intro hzero _
  refine .inl ⟨i, ?_⟩
  have hself : (s.exchanged i c (c.expected old)).pc i = c.next := update_self ..
  have hnew : c.newValue (c.expected old) = 0 := hzero
  rw [hself]
  unfold Call.newValue at hnew
  unfold Call.next
  cases hk : c.kind with
  | acquire | acquireShared =>
    simp only [hk] at hnew
    omega
  | release => exact .inl rfl
  | releaseShared => exact .inl rfl

theorem Awake.step (h : Awake s) (hshare : ShareInv s) (hparked : Parked s) {a : Action ι}
    (hattentive : Attentive s a) (hstep : Step s a t) : Awake t := by
  -- A thread goes on in its call.
  have hgo {u : State ι} {i : ι} {pc : Pc ι} (hpc : u.pc = Function.update s.pc i pc)
      (hshares : u.shares = s.shares) (hlist : u.waitingList = s.waitingList)
      (hothers : ∀ j ≠ i, u.woken j = s.woken j) (hcall : pc.call = (s.pc i).call)
      (hnotify : ¬ (s.pc i).Notifying)
      (hwoken : s.shares = 0 → s.woken i = true → u.woken i = true) : Awake u := by
    refine h.move hpc hshares hlist hothers (fun hn => absurd hn hnotify) fun hzero hw hacq => ?_
    obtain ⟨c, hc, hacq⟩ := hacq
    exact ⟨hwoken hzero hw, c, hcall.trans hc, hacq⟩
  cases hstep with
  | refused => exact h
  | start hidle _ _ =>
    refine h.move rfl rfl rfl (fun _ _ => rfl) (by simp [hidle, Pc.Notifying]) ?_
    simp [hidle, Pc.Acquiring, Pc.call]
  | load hpc | block hpc | pause hpc | resume hpc _ | again hpc =>
    exact hgo rfl rfl rfl (fun _ _ => rfl) (by rw [hpc]; rfl) (by simp [hpc, Pc.Notifying]) fun _ => id
  | exchange _ _ hshares => exact hshare.awake_exchanged hshares
  | @retry i c old spurious hpc hfail =>
    refine hgo rfl rfl rfl (fun j hj => update_of_ne hj ..) (by rw [hpc]; rfl)
      (by simp [hpc, Pc.Notifying]) fun hzero hw => ?_
    -- A resumed thread that finds the mutex free does not fail.
    have hacq : c.Acquires := hshare.acquires hzero (by rw [hpc]; rfl)
    obtain ⟨rfl, hexpected⟩ := hattentive hw hzero c old hpc hacq
    refine absurd ⟨?_, by rw [hzero, hexpected], rfl⟩ hfail
    rw [hexpected]
    unfold Call.admits
    rcases hacq with hk | hk <;> rw [hk]
    · trivial
    · decide
  | enqueue _ _ => exact fun hzero => absurd hzero hattentive
  | expire hpc hexpires =>
    rw [hparked.expires_eq hpc rfl] at hexpires
    contradiction
  | lock hpc _ =>
    exact h.move rfl rfl rfl (fun _ _ => rfl) (fun _ => .inr ⟨_, rfl⟩)
      (by simp [hpc, Pc.Acquiring, Pc.call])
  | @scanned i hpc => exact fun _ hne => absurd (hparked.scan i [] hpc).1.symm hne
  | @notify i j rest hpc _ =>
    obtain ⟨c, old, hwaiting⟩ := hparked.waiting j (hparked.head_mem hpc)
    have hji : j ≠ i := by
      rintro rfl
      rw [hwaiting] at hpc
      contradiction
    have hcall : (s.pc j).call = some c := by rw [hwaiting]; rfl
    have hpcj : (s.notified i j).pc j = s.pc j := update_of_ne hji ..
    refine fun hzero _ => .inr ⟨j, update_self .., c, ?_, hshare.acquires hzero hcall⟩
    rw [hpcj, hcall]
  | skip hpc hblocked =>
    rw [(hparked.parked _ (hparked.head_mem hpc)).1] at hblocked
    contradiction
  | fire harmed =>
    rw [hparked.timer] at harmed
    contradiction
  | unwait hresuming _ =>
    rw [hparked.timer] at hresuming
    contradiction

/-- Without timeouts, no wake-up is lost in runs whose steps meet the condition. -/
theorem noLostWakeup {as : List (Action ι)} (hinit : Initial s)
    (hrun : Run (step isShared) (fun s a => Untimed a ∧ Attentive s a) s as t) : ¬ LostWakeup t := by
  have hinv : ShareInv t ∧ Parked t ∧ Awake t := by
    refine hrun.invariant (P := fun s => ShareInv s ∧ Parked s ∧ Awake s)
      (fun {s t a} hs hok hstep => ?_)
      ⟨hinit.shareInv, hinit.parked, fun _ hne => absurd hinit.waitingList hne⟩
    have hst := step_inv hstep
    exact ⟨hs.1.step hst, hs.2.1.step hok.1 hst, hs.2.2.step hs.1 hs.2.1 hok.2 hst⟩
  exact hinv.2.2.not_lostWakeup

/-! ### Examples of runs -/

def plainAcquire : Call := ⟨.acquire, false, false⟩

def plainRelease : Call := ⟨.release, false, false⟩

/-- Thread 0 locks the mutex, thread 1 waits for it, is resumed by the release and gets it. -/
theorem noLostWakeup_handover : ∃ t, Run (step false) (fun s a => Untimed a ∧ Attentive s a)
    freshMutex [.call 0 plainAcquire, .attempt 0 false, .call 1 plainAcquire, .attempt 1 false,
      .pause 1, .enqueue 1, .call 0 plainRelease, .attempt 0 false, .lock 0, .scan 0, .resume 1,
      .check 1 false, .attempt 1 false] t ∧ t.exclusive = [1] ∧ ¬ LostWakeup t := by
  -- In the last step the mutex is free and the value that the loop expects is 0.
  obtain ⟨t, hrun, hexclusive⟩ : ∃ t, Run (step false) (fun s a => Untimed a ∧ Attentive s a)
      freshMutex [.call 0 plainAcquire, .attempt 0 false, .call 1 plainAcquire, .attempt 1 false,
        .pause 1, .enqueue 1, .call 0 plainRelease, .attempt 0 false, .lock 0, .scan 0, .resume 1,
        .check 1 false, .attempt 1 false] t ∧ t.exclusive = [1] := by
    have htaken : exclusiveMagic ≠ 0 := by decide
    refine ⟨_, .cons ⟨rfl, trivial⟩ rfl (.cons ⟨trivial, nofun⟩ rfl (.cons ⟨rfl, trivial⟩ rfl
      (.cons ⟨trivial, nofun⟩ rfl (.cons ⟨trivial, trivial⟩ rfl (.cons ⟨trivial, htaken⟩ rfl
      (.cons ⟨rfl, trivial⟩ rfl (.cons ⟨trivial, nofun⟩ rfl (.cons ⟨trivial, trivial⟩ rfl
      (.cons ⟨trivial, trivial⟩ rfl (.cons ⟨trivial, trivial⟩ rfl (.cons ⟨trivial, trivial⟩ rfl
      (.cons ⟨trivial, ?_⟩ rfl (.nil _))))))))))))), rfl⟩
    intro _ _ c old hpc _
    obtain ⟨rfl, -⟩ := Pc.attempt.inj hpc
    exact ⟨rfl, rfl⟩
  exact ⟨t, hrun, hexclusive, noLostWakeup initial_freshMutex hrun⟩

/-- Thread 0 releases the mutex after thread 1 has failed to get it and before thread 1 enters
    the waiting list. -/
theorem lostWakeup_reached : ∃ t, Run (step false) (fun _ a => Untimed a) freshMutex
    [.call 0 plainAcquire, .attempt 0 false, .call 1 plainAcquire, .attempt 1 false,
      .call 0 plainRelease, .attempt 0 false, .lock 0, .scan 0, .pause 1, .enqueue 1] t ∧
    LostWakeup t := by
  refine ⟨_, .cons rfl rfl (.cons trivial rfl (.cons rfl rfl (.cons trivial rfl (.cons rfl rfl
    (.cons trivial rfl (.cons trivial rfl (.cons trivial rfl (.cons trivial rfl (.cons trivial rfl
    (.nil _)))))))))), rfl, ⟨1, mem_singleton_self 1, rfl, rfl⟩, fun j => ?_, fun j => ?_⟩
  · match j with
    | 0 => exact nofun
    | 1 => exact nofun
    | j + 2 => exact nofun
  · match j with
    | 0 => exact nofun
    | 1 => exact nofun
    | j + 2 => exact nofun

end BadgerOS.Mutex

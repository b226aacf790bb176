import BadgerOS.Scheduler.OnePlace

/-!
# The steps of the scheduler keep the invariant

The steps of a CPU (`sched_request_switch_from_isr` and `mutex_wait`) and of an actor
(`mutex_resume_timer` and the forced handoff) that meet `Keeps` keep the invariant of the lists.

* `Inv.idle`, `Inv.hold`, `Inv.pop`, `Inv.push`, `Inv.change`: what a CPU does with the thread
  that it holds.
* `park_inv`: the branch of `sched_request_switch_from_isr` that drops a thread whose suspension
  has been cancelled is never taken.
* `cpuStep_inv`: the steps of a CPU; `taskStep_inv`: those of an actor.
-/

namespace BadgerOS.Runqueue

open Function List Option Bool

section

variable {n : ℕ} {τ ι μ : Type}

/-! ## Auxiliary facts -/

@[simp]
theorem setCpu_self (s : State n τ ι μ) (c : Fin n) (info : CpuInfo τ μ) : (s.setCpu c info).cpus c = info :=
  update_self _ _ _

@[simp]
theorem setPc_self (s : State n τ ι μ) (c : Fin n) (pc : CpuPc μ) : ((s.setPc c pc).cpus c).pc = pc := by
  rw [State.setPc, setCpu_self]

theorem sameCpus_setCpu (s : State n τ ι μ) (c : Fin n) (info : CpuInfo τ μ) : SameCpus s (s.setCpu c info) c := by
  intro c' hc
  rw [State.setCpu_cpus, update_of_ne hc]
  exact ⟨rfl, rfl⟩

theorem drainIncoming_perm (flags : τ → ThreadFlags) (queue incoming : List τ) :
    (drainIncoming flags queue incoming).Perm (queue ++ incoming) := by
  induction incoming generalizing queue with
  | nil =>
    rw [drainIncoming, append_nil]
  | cons thread rest ih =>
    rw [drainIncoming]
    split
    · exact (ih _).trans perm_middle.symm
    · refine (ih _).trans ?_
      rw [append_assoc]
      exact .refl _

theorem live_append {flags : τ → ThreadFlags} {list : List τ} {x : τ}
    (h : ∀ y ∈ list, (flags y).Live) (hx : (flags x).Live) : ∀ y ∈ list ++ [x], (flags y).Live := by
  intro y hy
  rw [mem_append, mem_singleton] at hy
  rcases hy with hy | rfl
  · exact h y hy
  · exact hx

/-! ## A CPU and the thread that it holds -/

variable [DecidableEq τ]
variable {s t : State n τ ι μ} {x : τ} {k : Place n ι μ} {c : Fin n} {a : ι}

theorem placeInv_held (hpc : (t.cpus c).pc.holds = true) (hlist : t.lists (.cpu c) = [x])
    (hheld : HeldInv (t.flags x) (t.mutex x) (t.cpus c).pc) : PlaceInv t (.cpu c) := by
  refine ⟨fun y hy => ?_, ?_⟩
  · rw [hlist, mem_singleton] at hy
    rw [hy]
    exact hheld
  · rw [hlist, hpc]
    rfl

theorem placeInv_actor_idle (htask : t.tasks a ≠ .handoff) (hlist : t.lists (.actor a) = []) : PlaceInv t (.actor a) := by
  refine ⟨fun y hy => ?_, ?_⟩
  · rw [hlist] at hy
    exact absurd hy not_mem_nil
  · rw [hlist, if_neg htask]
    rfl

theorem Inv.actor_nil (h : Inv s) (htask : s.tasks a ≠ .handoff) : s.lists (.actor a) = [] := by
  have hlen := (h.place (.actor a)).2
  rw [if_neg htask] at hlen
  exact length_eq_zero_iff.mp hlen

variable {pc : CpuPc μ} {m : μ} {measured : Option (τ → ℤ)}

/-- The flags of the thread that a CPU holds change, and the CPU goes on. -/
theorem Inv.change (h : Inv s) (hu : Untouched s t (· = x)) (hlist : s.lists (.cpu c) = [x])
    (hlists : t.lists = s.lists) (htasks : t.tasks = s.tasks) (hcpus : SameCpus s t c)
    (hpc : (t.cpus c).pc = pc) (hholds : pc.holds = true)
    (hheld : HeldInv (t.flags x) (t.mutex x) pc)
    (hrunning : (t.flags x).running = true → (s.flags x).running = true) : Inv t := by
  have hx : x ∈ s.lists (.cpu c) := hlist ▸ mem_singleton_self x
  have hwake : ∀ a, t.tasks a ≠ .timerWake x := by
    rw [htasks]
    exact h.not_woken hx nofun
  refine h.stay hu hlists ?_ (fun a _ => by rw [htasks]) ?_ hrunning
    (fun a ha => absurd ha (hwake a)) (fun a _ ha => absurd ha (hwake a)) ?_
  · intro c' hc'
    refine (hcpus c' ?_).1
    rintro rfl
    exact hc' hx
  · intro k hk
    obtain rfl := h.exclusive.unique hk hx
    apply placeInv_held (x := x)
    · rw [hpc]
      exact hholds
    · rw [hlists]
      exact hlist
    · rw [hpc]
      exact hheld
  · intro c' y hrun hcur
    rcases eq_or_ne c' c with rfl | hc
    · rw [← hpc, hrun] at hholds
      cases hholds
    · exact hcpus.queue h hc hrun hcur

theorem Inv.hold (h : Inv s) (hlist : s.lists (.cpu c) = [x]) (hlists : t.lists = s.lists)
    (hflags : t.flags = s.flags) (hmutex : t.mutex = s.mutex) (htasks : t.tasks = s.tasks)
    (hcpus : SameCpus s t c) (hpc : (t.cpus c).pc = pc) (hholds : pc.holds = true)
    (hheld : HeldInv (s.flags x) (s.mutex x) pc) : Inv t := by
  refine h.change (.of_eq hflags hmutex htasks) hlist hlists htasks hcpus hpc hholds ?_ ?_
  · rw [hflags, hmutex]
    exact hheld
  · rw [hflags]
    exact id

theorem Inv.exists_held (h : Inv s) (hpc : (s.cpus c).pc = pc) (hholds : pc.holds = true) :
    ∃ x, s.lists (.cpu c) = [x] ∧ HeldInv (s.flags x) (s.mutex x) pc := by
  have hplace := h.place (.cpu c)
  rw [PlaceInv, hpc, hholds] at hplace
  obtain ⟨x, hx⟩ := length_eq_one_iff.mp hplace.2
  exact ⟨x, hx, hplace.1 x (hx ▸ mem_singleton_self x)⟩

theorem Inv.queue_head (h : Inv s) {rest : List τ} (hqueue : s.lists (.queue c) = x :: rest) : (s.flags x).Live := by
  apply h.place (.queue c)
  rw [hqueue]
  exact mem_cons_self

theorem ThreadFlags.Live.congr {f g : ThreadFlags} (h : f.Live) (hrunning : g.running = f.running)
    (hexited : g.exited = f.exited) : g.Live :=
  ⟨hrunning.trans h.running, hexited.trans h.exited⟩

/-- What a CPU knows of its thread does not depend on its other flags. -/
theorem HeldInv.congr {f g : ThreadFlags} {mutex : Option μ} (h : HeldInv f mutex pc)
    (hrunning : g.running = f.running) (hexited : g.exited = f.exited)
    (hblocked : g.blocked = f.blocked) (hpark : f.parkable = true → g.parkable = true) :
    HeldInv g mutex pc := by
  have hlive : f.Live → g.Live := fun hf => hf.congr hrunning hexited
  cases pc with
  | decide flags => exact ⟨hlive h.1, fun hp => hpark (h.2 hp)⟩
  | park flags => exact ⟨hlive h.1, h.2.1, hpark h.2.2⟩
  | kill => exact hexited.trans h
  | waitBlocked m =>
    exact ⟨hrunning.trans h.1, hexited.trans h.2.1, h.2.2.1, hblocked.trans h.2.2.2⟩
  | _ => exact hlive h

/-- Flags that say nothing of where a thread is change. -/
theorem Inv.reflag (h : Inv s) {flags : τ → ThreadFlags} (hrunning : ∀ y, (flags y).running = (s.flags y).running)
    (hexited : ∀ y, (flags y).exited = (s.flags y).exited)
    (hblocked : ∀ y, (flags y).blocked = (s.flags y).blocked)
    (hpark : ∀ c, ∀ y ∈ s.lists (.cpu c), (s.flags y).parkable = true → (flags y).parkable = true) :
    Inv { s with flags := flags } := by
  have hlive : ∀ y, (s.flags y).Live → (flags y).Live :=
    fun y hy => hy.congr (hrunning y) (hexited y)
  refine ⟨h.exclusive, ?_, ?_, ?_, h.timer_unique, h.current⟩
  · intro k
    have hk := h.place k
    cases k with
    | queue c | incoming c => exact fun y hy => hlive y (hk y hy)
    | cpu c =>
      exact ⟨fun y hy => (hk.1 y hy).congr (hrunning y) (hexited y) (hblocked y) (hpark c y hy),
        hk.2⟩
    | actor a => exact ⟨fun y hy => hlive y (hk.1 y hy), hk.2⟩
    | waiting m =>
      intro y hy
      obtain ⟨hr, he, hm, hb⟩ := hk y hy
      exact ⟨(hrunning y).trans hr, (hexited y).trans he, hm, hb.imp_left (hblocked y).trans⟩
    | dead => exact fun y hy => (hexited y).trans (hk y hy)
  · intro y hy
    exact h.placed ((hrunning y).symm.trans hy)
  · intro a y ha
    obtain ⟨hb, hm⟩ := h.timer ha
    exact ⟨(hblocked y).trans hb, hm⟩

/-- Flags of one thread that say nothing of where it is change. -/
theorem Inv.setFlags (h : Inv s) {f : ThreadFlags} (hrunning : f.running = (s.flags x).running)
    (hexited : f.exited = (s.flags x).exited) (hblocked : f.blocked = (s.flags x).blocked)
    (hpark : ∀ c, x ∈ s.lists (.cpu c) → (s.flags x).parkable = true → f.parkable = true) :
    Inv (s.setFlags x f) := by
  have hother : ∀ {α : Type} (g : ThreadFlags → α), g f = g (s.flags x) →
      ∀ y, g (update s.flags x f y) = g (s.flags y) := by
    intro α g hg y
    rcases eq_or_ne y x with rfl | hyx
    · rw [update_self]
      exact hg
    · rw [update_of_ne hyx]
  refine h.reflag (hother _ hrunning) (hother _ hexited) (hother _ hblocked) ?_
  intro c y hy hp
  rcases eq_or_ne y x with rfl | hyx
  · rw [update_self]
    exact hpark c hy hp
  · rw [update_of_ne hyx]
    exact hp

theorem Inv.current_notMem (h : Inv s) (hpc : (s.cpus c).pc = .run)
    (hcurrent : (s.cpus c).current = some x) (c' : Fin n) : x ∉ s.lists (.cpu c') := by
  intro hx
  cases h.exclusive.unique hx (h.current hpc hcurrent)

theorem Inv.resumable_notMem (h : Inv s) (hx : (s.flags x).resumable = true) (k : Place n ι μ) : x ∉ s.lists k := by
  simp only [ThreadFlags.resumable, and_eq_true, not_eq_true'] at hx
  obtain ⟨⟨hexited, _⟩, hrunning⟩ := hx
  have hlive : ¬ (s.flags x).Live := by
    intro hlive
    rw [hlive.running] at hrunning
    cases hrunning
  intro hk
  have hplace := h.place k
  cases k with
  | queue c | incoming c => exact hlive (hplace x hk)
  | cpu c =>
    have hheld := hplace.1 x hk
    cases hpc : (s.cpus c).pc <;> rw [hpc] at hheld
    case kill =>
      rw [show (s.flags x).exited = true from hheld] at hexited
      cases hexited
    case waitBlocked m =>
      rw [hheld.1] at hrunning
      cases hrunning
    case decide flags => exact hlive hheld.1
    case park flags => exact hlive hheld.1
    all_goals exact hlive hheld
  | actor a => exact hlive (hplace.1 x hk)
  | waiting m =>
    rw [(hplace x hk).1] at hrunning
    cases hrunning
  | dead =>
    have hdead : (s.flags x).exited = true := hplace x hk
    rw [hdead] at hexited
    cases hexited

variable [DecidableEq ι]

omit [DecidableEq τ] in
/-- An actor goes on that wakes another thread than `x`, or none. -/
theorem wakes_update {task : Task τ} (hold : s.tasks a ≠ .timerWake x) (hnew : task ≠ .timerWake x)
    (a' : ι) : update s.tasks a task a' = .timerWake x ↔ s.tasks a' = .timerWake x := by
  rcases eq_or_ne a' a with rfl | hne
  · rw [update_self]
    exact iff_of_false hnew hold
  · rw [update_of_ne hne]

/-- An actor goes on that neither holds a thread nor is about to wake one. -/
theorem Inv.retask (h : Inv s) {task : Task τ} (hold : s.tasks a ≠ .handoff)
    (hold' : ∀ y, s.tasks a ≠ .timerWake y) (hnew : task ≠ .handoff)
    (hnew' : ∀ y, task ≠ .timerWake y) : Inv (s.setTask a task) := by
  have hwake (a' y) := wakes_update (hold' y) (hnew' y) a'
  refine ⟨h.exclusive, ?_, h.placed, ?_, ?_, h.current⟩
  · intro k
    have hk := h.place k
    cases k with
    | actor a' =>
      refine ⟨hk.1, hk.2.trans ?_⟩
      rcases eq_or_ne a' a with rfl | hne
      · rw [State.setTask_tasks, update_self, if_neg hold, if_neg hnew]
      · rw [State.setTask_tasks, update_of_ne hne]
    | waiting m =>
      intro y hy
      obtain ⟨hr, he, hm, hb⟩ := hk y hy
      refine ⟨hr, he, hm, hb.imp_right ?_⟩
      rintro ⟨a', ha'⟩
      exact ⟨a', (hwake a' y).mpr ha'⟩
    | _ => exact hk
  · intro a' y ha'
    exact h.timer ((hwake a' y).mp ha')
  · intro a1 a2 y h1 h2
    exact h.timer_unique ((hwake a1 y).mp h1) ((hwake a2 y).mp h2)

/-- The timer of a mutex marks a thread of its waiting list as not blocked. -/
theorem Inv.markWoken (h : Inv s) (htask : s.tasks a = .timer x)
    (hblocked : (s.flags x).blocked = true) (hmutex : s.mutex x = some m)
    (hx : x ∈ s.lists (.waiting m)) :
    Inv ((s.setFlags x { s.flags x with blocked := false }).setTask a (.timerWake x)) := by
  have hnone : ∀ a', s.tasks a' ≠ .timerWake x := by
    intro a' ha'
    rw [(h.timer ha').1] at hblocked
    cases hblocked
  have htasks : ∀ a' task, task ≠ .timer x → task ≠ .timerWake x →
      (update s.tasks a (.timerWake x) a' = task ↔ s.tasks a' = task) := by
    intro a' task h1 h2
    rcases eq_or_ne a' a with rfl | hne
    · rw [update_self, htask]
      exact iff_of_false h2.symm h1.symm
    · rw [update_of_ne hne]
  have hwoken : ∀ a', update s.tasks a (.timerWake x) a' = .timerWake x → a' = a := by
    intro a' ha'
    by_contra hne
    rw [update_of_ne hne] at ha'
    exact hnone a' ha'
  have hwakes : ∀ {y}, y ≠ x → ∀ a', update s.tasks a (.timerWake x) a' = .timerWake y ↔
      s.tasks a' = .timerWake y := fun hyx a' => htasks a' _ nofun fun hq =>
    hyx (Task.timerWake.inj hq)
  refine h.stay ⟨fun hy => update_of_ne hy _ _, fun _ => rfl, fun a' hy => hwakes hy a'⟩ rfl
    (fun _ _ => rfl) (fun a' _ => htasks a' _ nofun nofun) ?_ ?_ ?_ ?_ h.current
  · intro k hk
    obtain rfl := h.exclusive.unique hk hx
    intro y hy
    obtain ⟨hr, he, hm, hb⟩ := h.place (.waiting m) y hy
    show (update s.flags x _ y).running = true ∧
      (update s.flags x _ y).exited = false ∧ s.mutex y = some m ∧
      ((update s.flags x _ y).blocked = true ∨
        ∃ a', update s.tasks a (.timerWake x) a' = .timerWake y)
    rcases eq_or_ne y x with rfl | hyx
    · rw [update_self]
      exact ⟨hr, he, hm, .inr ⟨a, update_self _ _ _⟩⟩
    · rw [update_of_ne hyx]
      refine ⟨hr, he, hm, hb.imp_right ?_⟩
      rintro ⟨a', ha'⟩
      exact ⟨a', (hwakes hyx a').mpr ha'⟩
  · intro _
    exact (h.place (.waiting m) x hx).1
  · intro a' _
    refine ⟨?_, m, hmutex, hx⟩
    show (update s.flags x _ x).blocked = false
    rw [update_self]
  · intro a1 a2 h1 h2
    exact (hwoken a1 h1).trans (hwoken a2 h2).symm

variable [DecidableEq μ]

theorem Inv.idle (h : Inv s) (hidle : (s.cpus c).pc.holds = false) (hlists : t.lists = s.lists)
    (hflags : t.flags = s.flags) (hmutex : t.mutex = s.mutex) (htasks : t.tasks = s.tasks)
    (hcpus : SameCpus s t c) (hpc : (t.cpus c).pc = pc) (hholds : pc.holds = false)
    (hrun : pc = .run → (t.cpus c).current = none) : Inv t := by
  refine h.recpu c hlists hflags hmutex htasks hcpus (placeInv_idle ?_ ?_) ?_
  · rw [hpc]
    exact hholds
  · rw [hlists]
    exact h.cpu_nil hidle
  · intro hrun' y hy
    rw [hrun (hpc.symm.trans hrun')] at hy
    cases hy

theorem Inv.idle_setCpu (h : Inv s) (hidle : (s.cpus c).pc.holds = false) {info : CpuInfo τ μ}
    (hpc : info.pc.holds = false) (hrun : info.pc = .run → info.current = none) :
    Inv (s.setCpu c info) := by
  refine h.idle hidle rfl rfl rfl rfl (sameCpus_setCpu s c info) rfl ?_ ?_
  · rw [setCpu_self]
    exact hpc
  · rw [setCpu_self]
    exact hrun

theorem Inv.pop (h : Inv s) (hidle : (s.cpus c).pc.holds = false) {rest : List τ}
    (hqueue : (x :: rest).Perm (s.lists (.queue c))) (hholds : pc.holds = true)
    (hheld : HeldInv (s.flags x) (s.mutex x) pc) :
    Inv (((s.setList (.queue c) rest).setList (.cpu c) [x]).setPc c pc) := by
  have hx : x ∈ s.lists (.queue c) := hqueue.subset mem_cons_self
  have hcpus : SameCpus s (((s.setList (.queue c) rest).setList (.cpu c) [x]).setPc c pc) c :=
    sameCpus_setCpu _ c _
  refine h.move (x := x) ⟨fun _ => rfl, fun _ => rfl, fun _ _ => .rfl⟩
    (show Place.cpu c ≠ .queue c by nofun) hqueue (by rw [h.cpu_nil hidle]) rfl ?_
    (fun _ _ _ => rfl) (h.not_woken hx nofun) ?_ ?_ ?_
  · intro c' _ hc'
    refine (hcpus c' ?_).1
    rintro rfl
    exact hc' rfl
  · intro y hy
    apply h.place (.queue c)
    apply hqueue.subset
    apply mem_cons_of_mem
    have hlist : (((s.setList (.queue c) rest).setList (.cpu c) [x]).setPc c pc).lists (.queue c) =
        rest := by
      show update (update s.lists (.queue c) rest) (.cpu c) [x] (.queue c) = rest
      rw [update_of_ne (by nofun), update_self]
    rwa [hlist] at hy
  · apply placeInv_held (x := x)
    · rw [setPc_self]
      exact hholds
    · show update (update s.lists (.queue c) rest) (.cpu c) [x] (.cpu c) = [x]
      rw [update_self]
    · rw [setPc_self]
      exact hheld
  · intro c' y hrun hcur
    rcases eq_or_ne c' c with rfl | hc
    · rw [setPc_self] at hrun
      rw [hrun] at hholds
      cases hholds
    · exact .inr ⟨.inr fun hq => hc (Place.queue.inj hq).symm, hcpus.queue h hc hrun hcur⟩

theorem Inv.push (h : Inv s) (hu : Untouched s t (· = x)) (hlist : s.lists (.cpu c) = [x])
    (hk : k ≠ .cpu c) (hlists : t.lists = update (update s.lists (.cpu c) []) k (s.lists k ++ [x]))
    (htasks : t.tasks = s.tasks) (hcpus : SameCpus s t c) (hpc : (t.cpus c).pc = pc)
    (hholds : pc.holds = false)
    (hcurrent : pc = .run → (t.cpus c).current = some x ∧ k = .queue c)
    (hplace : t.lists k = s.lists k ++ [x] → PlaceInv t k) : Inv t := by
  have hx : x ∈ s.lists (.cpu c) := hlist ▸ mem_singleton_self x
  refine h.move (k := .cpu c) hu hk (by rw [hlist]) (perm_append_singleton x _) hlists
    ?_ (fun a _ _ => by rw [htasks]) (fun a => ?_) (placeInv_idle (hpc ▸ hholds) ?_) (hplace ?_) ?_
  · intro c' hc' _
    refine (hcpus c' ?_).1
    rintro rfl
    exact hc' rfl
  · rw [htasks]
    exact h.not_woken hx nofun a
  · rw [hlists, update_of_ne hk.symm, update_self]
  · rw [hlists, update_self]
  · intro c' y hrun hcur
    rcases eq_or_ne c' c with rfl | hc
    · obtain ⟨hsome, hq⟩ := hcurrent (hpc.symm.trans hrun)
      rw [hsome] at hcur
      exact .inl ⟨(some.inj hcur).symm, hq⟩
    · exact .inr ⟨.inr nofun, hcpus.queue h hc hrun hcur⟩

/-! ## The steps of a CPU -/

section Idle

variable (h : Inv s) (hidle : (s.cpus c).pc.holds = false)

include h hidle

theorem handleSchedFlags_inv (hstep : handleSchedFlags s c = some t) : Inv t := by
  unfold handleSchedFlags at hstep
  simp only at hstep
  split_ifs at hstep <;> cases hstep
  · exact h.idle_setCpu hidle rfl nofun
  · exact h.idle hidle rfl rfl rfl rfl (sameCpus_setCpu s c _)
      (show CpuInfo.pc _ = .measure from congrArg CpuInfo.pc (setCpu_self s c _)) rfl nofun
  · refine h.merge (.refl _) rfl rfl rfl rfl (sameCpus_setCpu s c _) hidle ?_ ?_
    · exact congrArg (CpuPc.holds ∘ CpuInfo.pc) (setCpu_self s c _)
    · intro hrun
      cases (congrArg CpuInfo.pc (setCpu_self s c _)).symm.trans hrun
  · exact h.idle_setCpu hidle rfl nofun

theorem measureLoad_inv (measured : Option (τ → ℤ)) : Inv (measureLoad s c measured) := by
  cases measured with
  | none => exact h.idle_setCpu hidle rfl nofun
  | some usage =>
    exact h.idle hidle rfl rfl rfl rfl (sameCpus_setCpu s c _)
      (show CpuInfo.pc _ = .barrier from congrArg CpuInfo.pc (setCpu_self s c _)) rfl nofun

theorem passBarrier_inv (hstep : passBarrier s c = some t) : Inv t := by
  unfold passBarrier at hstep
  simp only at hstep
  split_ifs at hstep <;> cases hstep
  · exact h.idle hidle rfl rfl rfl rfl (sameCpus_setCpu s c _) (setPc_self s c .drain) rfl nofun
  · exact h.idle_setCpu hidle rfl nofun

end Idle

theorem Inv.requeue (h : Inv s) (hlist : s.lists (.cpu c) = [x]) (hlive : (s.flags x).Live)
    {info : CpuInfo τ μ} (hpc : info.pc.holds = false)
    (hcurrent : info.pc = .run → info.current = some x) :
    Inv (((s.setList (.cpu c) []).setList (.queue c) (s.lists (.queue c) ++ [x])).setCpu c
      info) := by
  refine h.push (k := .queue c) ⟨fun _ => rfl, fun _ => rfl, fun _ _ => .rfl⟩ hlist nofun rfl rfl
    (sameCpus_setCpu _ c info) rfl ?_ ?_ fun hself => ?_
  · rw [setCpu_self]
    exact hpc
  · rw [setCpu_self]
    exact fun hrun => ⟨hcurrent hrun, rfl⟩
  · rw [PlaceInv, hself]
    exact live_append (h.place (.queue c)) hlive

/-- A CPU offers its thread to another one that has space for it or does not run. -/
theorem Inv.tryHandoff (h : Inv s) (hlist : s.lists (.cpu c) = [x]) (hlive : (s.flags x).Live)
    {cpu : Fin n} (hcpu : cpu ≠ c) {maxLoad : ℤ} (hspace : HasSpace s x cpu maxLoad)
    {taken kept : CpuPc μ} (htaken : taken.holds = false) (hrun : taken ≠ .run)
    (hkept : kept.holds = true) (hheld : HeldInv (s.flags x) (s.mutex x) kept) :
    Inv (tryHandoff s c x cpu maxLoad taken kept) := by
  have hother : ∀ {info : CpuInfo τ μ} {pc : CpuPc μ}, info.pc = (s.cpus cpu).pc →
      info.current = (s.cpus cpu).current → SameCpus s ((s.setCpu cpu info).setPc c pc) c := by
    intro info pc hpc hcurrent c' hc
    rw [State.setPc, State.setCpu_cpus, update_of_ne hc, State.setCpu_cpus]
    rcases eq_or_ne c' cpu with rfl | hne
    · rw [update_self]
      exact ⟨hpc, hcurrent⟩
    · rw [update_of_ne hne]
      exact ⟨rfl, rfl⟩
  unfold Runqueue.tryHandoff threadHandoff
  by_cases hruns : (s.cpus cpu).isRunning = true
  · simp only [hruns, Bool.not_false, Bool.not_true, Bool.and_false, false_eq_true, if_false,
      hspace hruns, decide_true, Bool.or_true, if_true]
    refine h.push (k := .incoming cpu) ⟨fun _ => rfl, fun _ => rfl, fun _ _ => .rfl⟩ hlist nofun ?_
      rfl (hother rfl rfl) (setPc_self _ c _) htaken (fun hr => absurd hr hrun) fun hself => ?_
    · exact update_comm (by nofun) _ _ _
    · rw [PlaceInv, hself]
      exact live_append (h.place (.incoming cpu)) hlive
  · rw [not_eq_true] at hruns
    simp only [hruns, Bool.not_false, Bool.and_true, if_true, false_eq_true, if_false]
    exact h.hold hlist rfl rfl rfl rfl (hother rfl rfl) (setPc_self _ c _) hkept hheld

section Held

variable (h : Inv s) (hstep : cpuStep s c measured = some t)

include h hstep

/-- Lines 298–308 and 338. -/
theorem decide_inv {flags : ThreadFlags} (hpc : (s.cpus c).pc = .decide flags) : Inv t := by
  obtain ⟨x, hlist, hheld⟩ := h.exists_held hpc rfl
  unfold cpuStep at hstep
  simp only [hpc, hlist] at hstep
  split_ifs at hstep with hexit hpark <;> cases hstep
  · refine h.change ⟨fun hy => update_of_ne hy _ _, fun _ => rfl, fun _ _ => .rfl⟩ hlist rfl rfl
      (sameCpus_setCpu _ c _) (setPc_self _ c _) rfl ?_ fun _ => hheld.1.running
    show (update s.flags x _ x).exited = true
    rw [update_self]
  · exact h.hold hlist rfl rfl rfl rfl (sameCpus_setCpu _ c _) (setPc_self _ c _) rfl
      ⟨hheld.1, hpark, hheld.2 hpark⟩
  · exact h.requeue hlist hheld.1 rfl fun _ => rfl

/-- Lines 307–310. -/
theorem kill_inv (hpc : (s.cpus c).pc = .kill) : Inv t := by
  obtain ⟨x, hlist, hheld⟩ := h.exists_held hpc rfl
  unfold cpuStep at hstep
  simp only [hpc, hlist] at hstep
  cases hstep
  refine h.push (k := .dead) ⟨fun hy => update_of_ne hy _ _, fun _ => rfl, fun _ _ => .rfl⟩ hlist
    nofun rfl rfl (sameCpus_setCpu _ c _) (setPc_self _ c _) rfl nofun fun hself y hy => ?_
  rw [hself, mem_append, mem_singleton] at hy
  show (update s.flags x _ y).exited = true
  rcases eq_or_ne y x with rfl | hyx
  · rw [update_self]
    exact hheld
  · rw [update_of_ne hyx]
    exact h.place .dead y (hy.resolve_right hyx)

/-- Lines 314–331. A suspension is never found cancelled: no step resets the flag of a thread that
    runs. -/
theorem park_inv {flags : ThreadFlags} (hpc : (s.cpus c).pc = .park flags) : Inv t := by
  obtain ⟨x, hlist, hlive, hpark, hpark'⟩ := h.exists_held hpc rfl
  unfold cpuStep at hstep
  simp only [hpc, hlist, hpark, Bool.not_true, false_eq_true, if_false] at hstep
  split_ifs at hstep <;> cases hstep
  · refine h.leave ⟨fun hy => update_of_ne hy _ _, fun _ => rfl, fun _ _ => .rfl⟩ hlist rfl ?_ rfl
      (sameCpus_setCpu _ c _) ?_ ?_
    · show (update s.flags x flags.parked x).running = false
      rw [update_self]
      rfl
    · rw [setPc_self]
      rfl
    · rw [setPc_self]
      nofun
  · exact h.hold hlist rfl rfl rfl rfl (sameCpus_setCpu _ c _) (setPc_self _ c _) rfl
      ⟨hlive, hpark', hpark'⟩

/-- `mutex_wait`, up to the flag. -/
theorem wait_inv {timed : Bool} (hpc : (s.cpus c).pc = .wait m timed) : Inv t := by
  obtain ⟨x, hlist, hheld⟩ := h.exists_held hpc rfl
  unfold cpuStep at hstep
  simp only [hpc, hlist] at hstep
  cases hstep
  refine h.change ⟨fun hy => update_of_ne hy _ _, fun hy => update_of_ne hy _ _, fun _ _ => .rfl⟩
    hlist rfl rfl (sameCpus_setCpu _ c _) (setPc_self _ c (.waitBlocked m)) rfl ?_
    fun _ => hheld.running
  show (update s.flags x _ x).running = true ∧
    (update s.flags x _ x).exited = false ∧ update s.mutex x (some m) x = _ ∧
    (update s.flags x _ x).blocked = true
  rw [update_self, update_self]
  exact ⟨hheld.running, hheld.exited, rfl, rfl⟩

/-- The rest of `mutex_wait`. -/
theorem waitBlocked_inv (hpc : (s.cpus c).pc = .waitBlocked m) : Inv t := by
  obtain ⟨x, hlist, hrunning, hexited, hmutex, hblocked⟩ := h.exists_held hpc rfl
  unfold cpuStep at hstep
  simp only [hpc, hlist] at hstep
  cases hstep
  refine h.push (k := .waiting m) ⟨fun _ => rfl, fun _ => rfl, fun _ _ => .rfl⟩ hlist nofun rfl rfl
    (sameCpus_setCpu _ c _) (setPc_self _ c _) rfl nofun fun hself y hy => ?_
  rw [hself, mem_append, mem_singleton] at hy
  rcases hy with hy | rfl
  · exact h.place (.waiting m) y hy
  · exact ⟨hrunning, hexited, hmutex, .inl hblocked⟩

end Held

/-- The loops that hand off the threads of a queue, between two threads. -/
theorem handLoop_inv (h : Inv s)
    (hpc : (∃ i average, (s.cpus c).pc = .balance i average) ∨ ∃ cpu, (s.cpus c).pc = .exitLoop cpu)
    (hstep : cpuStep s c measured = some t) : Inv t := by
  rcases hpc with ⟨i, average, hpc⟩ | ⟨cpu, hpc⟩
  · have hidle : (s.cpus c).pc.holds = false := by rw [hpc]; rfl
    have hdone : Inv { s.setPc c .drain with readyCount := s.readyCount - 1 } :=
      h.idle hidle rfl rfl rfl rfl (sameCpus_setCpu s c _) (setPc_self s c .drain) rfl nofun
    simp only [cpuStep, hpc] at hstep
    cases hqueue : s.lists (.queue c) with
    | nil =>
      rw [hqueue] at hstep
      cases hstep
      exact hdone
    | cons thread rest =>
      simp only [hqueue] at hstep
      split_ifs at hstep <;> cases hstep
      · exact h.pop hidle (by rw [hqueue]) rfl (h.queue_head hqueue)
      · exact hdone
  · have hidle : (s.cpus c).pc.holds = false := by rw [hpc]; rfl
    simp only [cpuStep, hpc] at hstep
    cases hqueue : s.lists (.queue c) with
    | nil =>
      rw [hqueue] at hstep
      cases hstep
      exact h.idle_setCpu hidle rfl nofun
    | cons thread rest =>
      rw [hqueue] at hstep
      cases hstep
      exact h.pop hidle (by rw [hqueue]) rfl (h.queue_head hqueue)

theorem cpuStep_inv (h : Inv s) (hkeeps : Keeps s (.cpu c measured))
    (hstep : cpuStep s c measured = some t) : Inv t := by
  cases hpc : (s.cpus c).pc with
  | off | run => simp [cpuStep, hpc] at hstep
  | flags =>
    simp only [cpuStep, hpc] at hstep
    exact handleSchedFlags_inv h (by rw [hpc]; rfl) hstep
  | measure =>
    simp only [cpuStep, hpc] at hstep
    cases hstep
    exact measureLoad_inv h (by rw [hpc]; rfl) measured
  | barrier =>
    simp only [cpuStep, hpc] at hstep
    exact passBarrier_inv h (by rw [hpc]; rfl) hstep
  | balance i average => exact handLoop_inv h (.inl ⟨i, average, hpc⟩) hstep
  | exitLoop cpu => exact handLoop_inv h (.inr ⟨cpu, hpc⟩) hstep
  | balanceTry i average cpu =>
    obtain ⟨x, hlist, hlive⟩ := h.exists_held hpc rfl
    have hspace : ∀ hcpu : cpu < n, cpu ≠ c → HasSpace s x ⟨cpu, hcpu⟩ average := by
      have := hkeeps
      simp only [Keeps, CpuKeeps, hpc, hlist] at this
      exact this x (mem_singleton_self x)
    simp only [cpuStep, hpc, hlist] at hstep
    split_ifs at hstep with hcpu hself <;> cases hstep
    · exact h.hold hlist rfl rfl rfl rfl (sameCpus_setCpu s c _) (setPc_self s c _) rfl hlive
    · exact h.tryHandoff hlist hlive (fun heq => hself (congrArg Fin.val heq)) (hspace hcpu hself) rfl
        nofun rfl hlive
    · exact h.requeue hlist hlive rfl nofun
  | drain =>
    simp only [cpuStep, hpc] at hstep
    cases hstep
    refine h.merge (drainIncoming_perm _ _ _) rfl rfl rfl rfl (sameCpus_setCpu _ c _)
      (by rw [hpc]; rfl) ?_ ?_
    · rw [setPc_self]
      rfl
    · rw [setPc_self]
      nofun
  | select =>
    have hidle : (s.cpus c).pc.holds = false := by rw [hpc]; rfl
    simp only [cpuStep, hpc] at hstep
    cases hqueue : s.lists (.queue c) with
    | nil =>
      rw [hqueue] at hstep
      cases hstep
      exact h.idle_setCpu hidle rfl fun _ => rfl
    | cons thread rest =>
      rw [hqueue] at hstep
      cases hstep
      exact h.pop hidle (by rw [hqueue]) rfl ⟨h.queue_head hqueue, id⟩
  | decide flags => exact decide_inv h hstep hpc
  | kill => exact kill_inv h hstep hpc
  | park flags => exact park_inv h hstep hpc
  | exitTry cpu =>
    obtain ⟨x, hlist, hlive⟩ := h.exists_held hpc rfl
    have hspace : HasSpace s x ⟨(cpu + 1) % n, Nat.mod_lt _ c.pos⟩ intMax := by
      have := hkeeps
      simp only [Keeps, CpuKeeps, hpc, hlist] at this
      exact this x (mem_singleton_self x)
    simp only [cpuStep, hpc, hlist] at hstep
    split_ifs at hstep with hself <;> cases hstep
    · exact h.hold hlist rfl rfl rfl rfl (sameCpus_setCpu s c _) (setPc_self s c _) rfl hlive
    · exact h.tryHandoff hlist hlive hself hspace rfl nofun rfl hlive
  | wait m timed => exact wait_inv h hstep hpc
  | waitBlocked m => exact waitBlocked_inv h hstep hpc

/-! ## The steps of an actor -/

theorem Inv.wake (h : Inv s) (hx : x ∈ s.lists (.waiting m)) (hidle : s.tasks a ≠ .handoff)
    (hlists : t.lists = update (update s.lists (.waiting m) ((s.lists (.waiting m)).erase x)) (.actor a) [x])
    (hflags : ∀ {y}, y ≠ x → t.flags y = s.flags y) (hmutex : t.mutex = s.mutex)
    (hcpus : t.cpus = s.cpus) (htasks : t.tasks = update s.tasks a .handoff)
    (hlive : (t.flags x).Live) (hself : ∀ y ≠ x, s.tasks a ≠ .timerWake y)
    (hwake : ∀ a', a' ≠ a → s.tasks a' ≠ .timerWake x) : Inv t := by
  have hwakes : ∀ {y} a', y ≠ x → (t.tasks a' = .timerWake y ↔ s.tasks a' = .timerWake y) := by
    intro y a' hyx
    rw [htasks]
    exact wakes_update (hself y hyx) (by nofun) a'
  refine h.move ⟨hflags, fun _ => by rw [hmutex], hwakes⟩
    (show Place.actor a ≠ .waiting m by nofun) (perm_cons_erase hx).symm
    (by rw [h.actor_nil hidle]) hlists (fun c _ _ => by rw [hcpus]) ?_ ?_ ?_ ?_ ?_
  · intro a' _ ha'
    rw [htasks, update_of_ne]
    rintro rfl
    exact ha' rfl
  · intro a' ha'
    rw [htasks] at ha'
    rcases eq_or_ne a' a with rfl | hne
    · rw [update_self] at ha'
      cases ha'
    · rw [update_of_ne hne] at ha'
      exact hwake a' hne ha'
  · intro y hy
    rw [hlists, update_of_ne (by nofun), update_self] at hy
    obtain ⟨hyx, hy⟩ := ((h.exclusive.nodup _).mem_erase_iff).mp hy
    rw [hflags hyx, hmutex]
    obtain ⟨hr, he, hm, hb⟩ := h.place (.waiting m) y hy
    refine ⟨hr, he, hm, hb.imp_right ?_⟩
    rintro ⟨a', ha'⟩
    exact ⟨a', (hwakes a' hyx).mpr ha'⟩
  · refine ⟨fun y hy => ?_, ?_⟩
    · rw [hlists, update_self, mem_singleton] at hy
      rw [hy]
      exact hlive
    · rw [hlists, update_self, htasks, update_self]
      rfl
  · intro c y hrun hcur
    rw [hcpus] at hrun hcur
    exact .inr ⟨.inr nofun, h.current hrun hcur⟩

theorem Inv.handoff (h : Inv s) (htask : s.tasks a = .handoff) (hlist : s.lists (.actor a) = [x]) (cpu : Fin n) :
    Inv (((threadHandoff s x cpu true 0).2.setList (.actor a) []).setTask a .idle) := by
  have hx : x ∈ s.lists (.actor a) := hlist ▸ mem_singleton_self x
  obtain ⟨info, hinfo, hhand⟩ : ∃ info : CpuInfo τ μ,
      (info.pc = (s.cpus cpu).pc ∧ info.current = (s.cpus cpu).current) ∧
      (threadHandoff s x cpu true 0).2 = (s.setCpu cpu info).setList (.incoming cpu)
        (s.lists (.incoming cpu) ++ [x]) :=
    ⟨{ s.cpus cpu with loadEstimate := (s.cpus cpu).loadEstimate + s.usage x }, ⟨rfl, rfl⟩,
      by simp [threadHandoff]⟩
  have hpc : ∀ c, (update s.cpus cpu info c).pc = (s.cpus c).pc ∧
      (update s.cpus cpu info c).current = (s.cpus c).current := by
    intro c
    rcases eq_or_ne c cpu with rfl | hne
    · rw [update_self]
      exact hinfo
    · rw [update_of_ne hne]
      exact ⟨rfl, rfl⟩
  have hother (a') {y} : update s.tasks a .idle a' = .timerWake y ↔ s.tasks a' = .timerWake y :=
    wakes_update (by rw [htask]; nofun) (by nofun) a'
  rw [hhand]
  refine h.move (x := x) ⟨fun _ => rfl, fun _ => rfl, fun a' _ => hother a'⟩
    (show Place.incoming cpu ≠ .actor a by nofun) (by rw [hlist])
    (perm_append_singleton x _) (update_comm (by nofun) _ _ _)
    (fun c _ _ => (hpc c).1) ?_ ?_ ?_ ?_ ?_
  · intro a' ha' _
    refine update_of_ne ?_ _ _
    rintro rfl
    exact ha' rfl
  · intro a' ha'
    exact h.not_woken hx nofun a' ((hother a').mp ha')
  · refine placeInv_actor_idle ?_ (update_self _ _ _)
    rw [State.setTask_tasks, update_self]
    nofun
  · show ∀ y ∈ update (update s.lists (.incoming cpu)
      (s.lists (.incoming cpu) ++ [x])) (.actor a) [] (.incoming cpu), (s.flags y).Live
    rw [update_of_ne (by nofun), update_self]
    exact live_append (h.place (.incoming cpu)) ((h.place (.actor a)).1 x hx)
  · intro c y hrun hcur
    exact .inr ⟨.inr nofun, h.current ((hpc c).1.symm.trans hrun) ((hpc c).2.symm.trans hcur)⟩

theorem taskStep_inv (h : Inv s) {cpu : Fin n} (hkeeps : Keeps s (.task a cpu))
    (hstep : taskStep s a cpu = some t) : Inv t := by
  cases htask : s.tasks a with
  | idle => simp [taskStep, htask] at hstep
  | timer x =>
    simp only [taskStep, htask] at hstep
    split_ifs at hstep with hblocked <;> cases hstep
    · simp only [Keeps, TaskKeeps, htask] at hkeeps
      obtain ⟨m, hm, hx⟩ := hkeeps hblocked
      exact h.markWoken htask hblocked hm hx
    · exact h.retask (by rw [htask]; nofun) (by rw [htask]; nofun) nofun nofun
  | timerWake x =>
    obtain ⟨_, m, hm, hx⟩ := h.timer htask
    obtain ⟨hr, he, _, _⟩ := h.place (.waiting m) x hx
    simp only [taskStep, htask, hm] at hstep
    cases hstep
    refine h.wake (x := x) (a := a) hx ?_ rfl (fun _ => rfl) rfl rfl rfl ⟨hr, he⟩ ?_ ?_
    · rw [htask]
      nofun
    · rw [htask]
      exact fun y hyx hq => hyx (Task.timerWake.inj hq).symm
    · intro a' hne ha'
      exact hne (h.timer_unique ha' htask)
  | handoff =>
    have hlen := (h.place (.actor a)).2
    rw [if_pos htask] at hlen
    obtain ⟨x, hlist⟩ := length_eq_one_iff.mp hlen
    simp only [taskStep, htask, hlist] at hstep
    cases hstep
    exact h.handoff htask hlist cpu

end

end BadgerOS.Runqueue

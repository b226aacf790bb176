import BadgerOS.Lib.Run

/-!
# Interrupt handlers

Model of `kernel/src/interrupt.c`. Entries are known by their addresses. `malloc` returns an
entry that is in no list, with any contents. `dlist_remove` is for a node of the list.

**Deviation.** `isr_install` does not write the field `irq` of the entry, where `isr_remove`
reads which list the node is in. A removal only works if the memory of the entry happened to
hold that number.
-/

namespace BadgerOS.Interrupt

open List Function

/-- `isr_entry`, without the node. -/
structure IsrEntry where
  irq : ℤ
  isr : ℕ
  cookie : ℕ

/-- The table of lists, and the memory that entries are in. -/
structure Isrs where
  isrListLen : ℕ
  isrList : ℕ → List ℕ
  mem : ℕ → IsrEntry

/-- The growth of the table in `isr_install` (lines 45–61), where `realloc` may fail. -/
def growList (s : Isrs) (irq : ℕ) (room : Bool) : Option Isrs :=
  if s.isrListLen ≤ irq then
    if room then
      some { s with
        isrList i := if s.isrListLen ≤ i ∧ i ≤ irq then [] else s.isrList i
        isrListLen := irq + 1 }
    else none
  else some s

/-- `isr_install` (lines 36–67), with the `entry` that `malloc` returns and its contents. -/
def isrInstall (s : Isrs) (irq isr cookie entry : ℕ) (contents : IsrEntry) (room : Bool) :
    Option ℕ × Isrs :=
  let s := { s with mem := update s.mem entry { contents with isr, cookie } }
  match growList s irq room with
  | none => (none, s)
  | some s => (some entry, { s with isrList := update s.isrList irq (s.isrList irq ++ [entry]) })

/-- `isr_remove` (lines 70–78), if the node is in the list. -/
def isrRemove (s : Isrs) (handle : ℕ) : Option Isrs :=
  let irq := (s.mem handle).irq
  if 0 ≤ irq ∧ irq < s.isrListLen ∧ handle ∈ s.isrList irq.toNat then
    some { s with isrList := update s.isrList irq.toNat ((s.isrList irq.toNat).erase handle) }
  else none

/-- The calls that `generic_interrupt_handler` (lines 83–101) makes, unless it panics. -/
def genericInterruptHandler (s : Isrs) (irq : ℤ) : Option (List (ℕ × ℤ × ℕ)) :=
  if irq < 0 ∨ s.isrListLen ≤ irq ∨ s.isrList irq.toNat = [] then none
  else some ((s.isrList irq.toNat).map fun handle => ((s.mem handle).isr, irq, (s.mem handle).cookie))

/-! ## The property -/

structure Handler where
  handle : ℕ
  irq : ℕ
  isr : ℕ
  cookie : ℕ

/-- The data, and the handlers that are installed, in the order of their installation. -/
structure State where
  isrs : Isrs
  installed : List Handler

inductive Call
  | install (irq isr cookie entry : ℕ) (contents : IsrEntry) (room : Bool)
  | remove (handle : ℕ)

def step (s : State) : Call → Option State
  | .install irq isr cookie entry contents room =>
    let r := isrInstall s.isrs irq isr cookie entry contents room
    some ⟨r.2, s.installed ++ (r.1.map (⟨·, irq, isr, cookie⟩)).toList⟩
  | .remove handle =>
    (isrRemove s.isrs handle).map (⟨·, s.installed.filter (·.handle != handle)⟩)

/-- `malloc` returns memory that is not in use, and handles are removed once. -/
def Allowed (s : State) : Call → Prop
  | .install _ _ _ entry _ _ => entry ∉ s.installed.map (·.handle)
  | .remove handle => handle ∈ s.installed.map (·.handle)

def State.handlers (s : State) (irq : ℤ) : List Handler := s.installed.filter (·.irq = irq)

/-- The lists and the calls are those of the installed handlers. -/
structure Served (s : State) : Prop where
  lists : ∀ irq < s.isrs.isrListLen, s.isrs.isrList irq = (s.handlers irq).map (·.handle)
  calls : ∀ irq, genericInterruptHandler s.isrs irq = if s.handlers irq = [] then none
    else some ((s.handlers irq).map fun h => (h.isr, irq, h.cookie))

/-- The memory of a handler that is removed holds its number. -/
def StoresIrq (s : State) : Call → Prop
  | .install .. => True
  | .remove handle => ∀ h ∈ s.installed, h.handle = handle → (s.isrs.mem handle).irq = h.irq

/-! ## The invariant -/

structure Inv (s : State) : Prop where
  lists : ∀ irq < s.isrs.isrListLen, s.isrs.isrList irq = (s.handlers irq).map (·.handle)
  irq_lt : ∀ h ∈ s.installed, h.irq < s.isrs.isrListLen
  entry : ∀ h ∈ s.installed,
    (s.isrs.mem h.handle).isr = h.isr ∧ (s.isrs.mem h.handle).cookie = h.cookie
  nodup : (s.installed.map (·.handle)).Nodup

variable {s t : State} {c : Call} {irq isr cookie entry : ℕ} {contents : IsrEntry} {room : Bool}
  {e : Handler}

theorem Inv.handlers_eq_nil (h : Inv s) (irq : ℤ) (hirq : irq < 0 ∨ s.isrs.isrListLen ≤ irq) :
    s.handlers irq = [] := by
  refine filter_eq_nil_iff.mpr fun e he => ?_
  have := h.irq_lt e he
  rw [decide_eq_true_iff]
  omega

theorem Inv.list_eq (h : Inv s) {irq : ℤ} (hirq : ¬ (irq < 0 ∨ s.isrs.isrListLen ≤ irq)) :
    s.isrs.isrList irq.toNat = (s.handlers irq).map (·.handle) := by
  have hlist := h.lists irq.toNat (by omega)
  rwa [Int.toNat_of_nonneg (by omega)] at hlist

theorem Inv.served (h : Inv s) : Served s := by
  refine ⟨h.lists, fun irq => ?_⟩
  unfold genericInterruptHandler
  by_cases hirq : irq < 0 ∨ s.isrs.isrListLen ≤ irq
  · rw [if_pos (or_assoc.mp (.inl hirq)), if_pos (h.handlers_eq_nil irq hirq)]
  · simp only [← or_assoc, or_iff_right hirq, h.list_eq hirq, map_eq_nil_iff, map_map]
    refine if_congr .rfl rfl (congrArg some (map_congr_left fun e he => ?_))
    obtain ⟨hisr, hcookie⟩ := h.entry e (mem_of_mem_filter he)
    rw [comp_apply, hisr, hcookie]

theorem Inv.setMem (h : Inv s) (hentry : entry ∉ s.installed.map (·.handle))
    (contents : IsrEntry) :
    Inv { s with isrs.mem := update s.isrs.mem entry contents } := by
  refine ⟨h.lists, h.irq_lt, fun e he => ?_, h.nodup⟩
  have hne : e.handle ≠ entry := fun heq => hentry (heq ▸ mem_map_of_mem he)
  simpa only [update_of_ne hne] using h.entry e he

theorem Inv.grow (h : Inv s) {isrs : Isrs} (hgrow : growList s.isrs irq room = some isrs) :
    Inv { s with isrs } ∧ irq < isrs.isrListLen ∧ isrs.mem = s.isrs.mem := by
  unfold growList at hgrow
  split_ifs at hgrow with hlen hroom
  · cases hgrow
    refine ⟨⟨fun i hi => ?_, fun e he => ?_, h.entry, h.nodup⟩, Nat.lt_succ_self _, rfl⟩
    · dsimp only at hi ⊢
      split_ifs with hnew
      · exact (congrArg (map (·.handle)) (h.handlers_eq_nil i (.inr (by omega)))).symm
      · exact h.lists i (by omega)
    · exact (h.irq_lt e he).trans (by dsimp only; omega)
  · cases hgrow
    exact ⟨h, by omega, rfl⟩

theorem Inv.append (h : Inv s) (he : e.handle ∉ s.installed.map (·.handle))
    (hirq : e.irq < s.isrs.isrListLen) (hisr : (s.isrs.mem e.handle).isr = e.isr)
    (hcookie : (s.isrs.mem e.handle).cookie = e.cookie) :
    Inv ⟨{ s.isrs with isrList := update s.isrs.isrList e.irq (s.isrs.isrList e.irq ++ [e.handle]) },
      s.installed ++ [e]⟩ := by
  refine ⟨fun i hi => ?_, forall_mem_append.mpr ⟨h.irq_lt, by simpa using hirq⟩,
    forall_mem_append.mpr ⟨h.entry, by simpa using ⟨hisr, hcookie⟩⟩, ?_⟩
  · dsimp only at hi ⊢
    rw [State.handlers, filter_append, map_append]
    rcases eq_or_ne i e.irq with rfl | hne
    · rw [update_self, h.lists _ hirq]
      simp [State.handlers]
    · rw [update_of_ne hne, h.lists i hi]
      simp [State.handlers, hne.symm]
  · rw [map_append]
    exact h.nodup.append (nodup_singleton _) (by simpa using he)

theorem Inv.install (h : Inv s) (hc : Allowed s (.install irq isr cookie entry contents room)) :
    ∃ t, step s (.install irq isr cookie entry contents room) = some t ∧ Inv t := by
  have hmem := h.setMem hc { contents with isr, cookie }
  refine ⟨_, rfl, ?_⟩
  rw [isrInstall]
  cases hgrow : growList { s.isrs with
      mem := update s.isrs.mem entry { contents with isr, cookie } } irq room with
  | none => simpa using hmem
  | some isrs =>
    obtain ⟨hinv, hirq, heq⟩ := hmem.grow hgrow
    exact hinv.append (e := ⟨entry, irq, isr, cookie⟩) hc hirq (by simp [heq]) (by simp [heq])

/-- A handler is in no list but its own. -/
theorem Inv.mem_list_iff (h : Inv s) (he : e ∈ s.installed) {i : ℕ} (hi : i < s.isrs.isrListLen) :
    e.handle ∈ s.isrs.isrList i ↔ i = e.irq := by
  rw [h.lists i hi, mem_map]
  constructor
  · rintro ⟨e', he', heq⟩
    obtain ⟨hmem, hirq⟩ := mem_filter.mp he'
    obtain rfl := inj_on_of_nodup_map h.nodup hmem he heq
    exact (Int.ofNat_inj.mp (of_decide_eq_true hirq)).symm
  · rintro rfl
    exact ⟨e, mem_filter.mpr ⟨he, by simp⟩, rfl⟩

theorem Inv.irq_of_remove (h : Inv s) (he : e ∈ s.installed)
    (ht : step s (.remove e.handle) = some t) : (s.isrs.mem e.handle).irq = e.irq := by
  unfold step isrRemove at ht
  dsimp only at ht
  split_ifs at ht with hcond
  · have := (h.mem_list_iff he (by omega)).mp hcond.2.2
    omega
  · cases ht

theorem Inv.remove (h : Inv s) (he : e ∈ s.installed)
    (heq : (s.isrs.mem e.handle).irq = e.irq) :
    ∃ t, step s (.remove e.handle) = some t ∧ Inv t := by
  have hirq := h.irq_lt e he
  unfold step isrRemove
  dsimp only
  rw [heq, Int.toNat_natCast, if_pos ⟨by omega, by omega, (h.mem_list_iff he hirq).mpr rfl⟩]
  refine ⟨_, rfl, fun i hi => ?_, fun e he => h.irq_lt e (mem_of_mem_filter he),
    fun e he => h.entry e (mem_of_mem_filter he), h.nodup.sublist (filter_sublist.map _)⟩
  dsimp only at hi ⊢
  -- In the other lists there is nothing to erase.
  have herase : update s.isrs.isrList e.irq ((s.isrs.isrList e.irq).erase e.handle) i =
      (s.isrs.isrList i).erase e.handle := by
    rcases eq_or_ne i e.irq with rfl | hne
    · rw [update_self]
    · rw [update_of_ne hne, erase_of_not_mem (mt (h.mem_list_iff he hi).mp hne)]
  have hnodup : ((s.handlers i).map (·.handle)).Nodup := h.nodup.sublist (filter_sublist.map _)
  rw [herase, h.lists i hi, hnodup.erase_eq_filter, filter_map, State.handlers, State.handlers,
    filter_comm]
  rfl

theorem Inv.step (h : Inv s) (hc : Allowed s c) (ht : step s c = some t) : Inv t := by
  cases c with
  | install irq isr cookie entry contents room =>
    obtain ⟨u, hu, hinv⟩ := h.install hc
    exact Option.some.inj (hu.symm.trans ht) ▸ hinv
  | remove handle =>
    obtain ⟨e, he, rfl⟩ := mem_map.mp hc
    obtain ⟨u, hu, hinv⟩ := h.remove he (h.irq_of_remove he ht)
    exact Option.some.inj (hu.symm.trans ht) ▸ hinv

/-- After any calls the next one does what it should, unless it removes a handler whose memory
    does not hold the number. -/
theorem call_iff {isrs : Isrs} (hempty : isrs.isrListLen = 0) {calls : List Call}
    (h : Run step Allowed ⟨isrs, []⟩ calls s) (hc : Allowed s c) :
    (∃ t ∈ step s c, Served t) ↔ StoresIrq s c := by
  have hinv : Inv s := h.invariant Inv.step ⟨by simp [hempty], by simp, by simp, nodup_nil⟩
  constructor
  · rintro ⟨t, ht, -⟩
    cases c with
    | install => trivial
    | remove handle =>
      rintro e he rfl
      exact hinv.irq_of_remove he ht
  · intro hstores
    have hreturns : ∃ t, step s c = some t ∧ Inv t := by
      cases c with
      | install => exact hinv.install hc
      | remove handle =>
        obtain ⟨e, he, rfl⟩ := mem_map.mp hc
        exact hinv.remove he (hstores e he rfl)
    obtain ⟨t, ht, hinv⟩ := hreturns
    exact ⟨t, ht, hinv.served⟩

/-- No list, and memory that is zero. -/
def noLists : Isrs := ⟨0, fun _ => [], fun _ => ⟨0, 0, 0⟩⟩

/-- A handler of interrupt 1, whose memory holds 1. -/
theorem call_stored : ∃ s, Run step Allowed ⟨noLists, []⟩ [.install 1 5 6 64 ⟨1, 0, 0⟩ true] s ∧
    ∃ t ∈ step s (.remove 64), Served t := by
  have hrun : Run step Allowed ⟨noLists, []⟩ [.install 1 5 6 64 ⟨1, 0, 0⟩ true] _ :=
    .cons (by simp [Allowed]) rfl (.nil _)
  refine ⟨_, hrun, (call_iff rfl hrun ?_).mpr ?_⟩
  · exact mem_cons_self
  · rintro e he -
    obtain rfl := mem_singleton.mp he
    rfl

/-- In memory that is zero the handler of interrupt 1 is not found. -/
theorem call_zero : ∃ s, Run step Allowed ⟨noLists, []⟩ [.install 1 5 6 64 ⟨0, 0, 0⟩ true] s ∧
    Allowed s (.remove 64) ∧ step s (.remove 64) = none :=
  ⟨_, .cons (by simp [Allowed]) rfl (.nil _), mem_cons_self, rfl⟩

end BadgerOS.Interrupt

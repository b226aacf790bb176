import BadgerOS.Process.Lifecycle

/-!
# `waitpid`

One call of `syscall_proc_waitpid` (`kernel/src/process/syscall_impl.c`, lines 157–209, with
the macros of `common/include/sys/wait.h`) on a children list that no one else changes.

* `scan`: the loop over the children list; `scan_of_find` and `scan_of_none` describe it by
  the first child whose state change it takes.
* `WaitLawful`: what the call promises.
* `waitLawful_iff`: for which lists, process IDs and options the promise is kept.

**Deviation.** With `WNOHANG` the list is not looked at, the filter for stopped and continued
children replaces the filter by process ID, and a change that is only polled with `WNOWAIT`
is claimed like any other.
-/

namespace BadgerOS.Lifecycle

open List

/-! ## Options and status codes -/

/-- `WNOHANG`. -/
def wNoHang : BitVec 32 := 0x00000001

/-- `WUNTRACED`. -/
def wUntraced : BitVec 32 := 0x00000002

/-- `WCONTINUED`. -/
def wContinued : BitVec 32 := 0x00000008

/-- `WNOWAIT`. -/
def wNoWait : BitVec 32 := 0x01000000

/-- `W_STOPCODE(sig)`. -/
def wStopcode (sig : BitVec 32) : BitVec 32 := (sig <<< 8) ||| 0x20

/-- `word & bit` as a condition. -/
def hasBit (word bit : BitVec 32) : Bool := word &&& bit != 0

/-- `WIFSTOPPED(status)`. -/
def wIfStopped (status : BitVec 32) : Bool := hasBit status 0x20

/-- `WIFCONTINUED(status)`. -/
def wIfContinued (status : BitVec 32) : Bool := hasBit status 0x10

/-! ## The call -/

/-- A child on the list. -/
structure Node where
  pid : ℤ
  proc : Process
  deriving DecidableEq, Repr

/-- `node_eligible` (lines 167–173): whether a child has the process ID asked for. -/
def nodeEligible (pid nodePid : ℤ) : Bool :=
  if pid = -1 ∨ pid = 0 then true
  else if pid > 0 then nodePid == pid
  else false

/-- `node_matches` (lines 174–180). -/
def nodeMatches (pid : ℤ) (options : BitVec 32) (node : Node) : Bool :=
  if wIfContinued node.proc.stateCode then hasBit options wContinued
  else if wIfStopped node.proc.stateCode then hasBit options wUntraced
  else nodeEligible pid node.pid

/-- The condition under which the scan claims the state change of a child (line 182). -/
def takes (pid : ℤ) (options : BitVec 32) (node : Node) : Bool :=
  nodeMatches pid options node && node.proc.flags.stateChg

/-- What is left of a child whose change has been claimed: nothing when it is deleted. -/
def claimed (options : BitVec 32) (node : Node) : List Node :=
  if node.proc.flags.exited && !hasBit options wNoWait then []
  else [⟨node.pid, { node.proc with flags := { node.proc.flags with stateChg := false } }⟩]

/-- How a pass over the list ends. `blocked` is `thread_yield` and another pass. -/
inductive Outcome
  | reported (pid : ℤ) (status : BitVec 32)
  | noChild
  | blocked
  | nothing
  deriving DecidableEq, Repr

/-- The loop over the children (lines 165–197) and the list that it leaves. -/
def scan (pid : ℤ) (options : BitVec 32) : Bool → List Node → Outcome × List Node
  | eligible, [] => (if eligible then .blocked else .noChild, [])
  | eligible, node :: rest =>
    if takes pid options node then
      (.reported node.pid node.proc.stateCode, claimed options node ++ rest)
    else
      let r := scan pid options (eligible || nodeEligible pid node.pid) rest
      (r.1, node :: r.2)

/-- `syscall_proc_waitpid`. With `WNOHANG` the loop body is never entered. -/
def syscallProcWaitpid (pid : ℤ) (options : BitVec 32) (children : List Node) :
    Outcome × List Node :=
  if hasBit options wNoHang then (.nothing, children) else scan pid options false children

/-! ## The promise -/

/-- A children list. Process IDs are unique. -/
structure Children where
  nodes : List Node
  distinct : (nodes.map Node.pid).Nodup

/-- A child that matches the process ID has exited and no one knows yet. -/
def UnreportedExit (pid : ℤ) (node : Node) : Prop :=
  nodeEligible pid node.pid = true ∧ node.proc.flags.exited = true ∧
    node.proc.flags.stateChg = true

/-- What a call promises. -/
structure WaitLawful (children : Children) (pid : ℤ) (options : BitVec 32) : Prop where
  reports : ∀ {p status}, (syscallProcWaitpid pid options children.nodes).1 = .reported p status →
    nodeEligible pid p = true
  reaps : ∀ {node}, node ∈ children.nodes →
    node.pid ∉ (syscallProcWaitpid pid options children.nodes).2.map Node.pid →
    nodeEligible pid node.pid = true
  exits : (∃ node ∈ children.nodes, UnreportedExit pid node) →
    ∃ node ∈ children.nodes, UnreportedExit pid node ∧
      (syscallProcWaitpid pid options children.nodes).1 =
        .reported node.pid node.proc.stateCode
  keeps : hasBit options wNoWait = true → ∀ {p status},
    (syscallProcWaitpid pid options children.nodes).1 = .reported p status →
    ∃ node ∈ (syscallProcWaitpid pid options children.nodes).2,
      node.pid = p ∧ node.proc.flags.stateChg = true

/-- The calls that keep the promise. With `WNOHANG` no matching child has exited. Without it
    the first child in the list whose change is taken, if there is one, has a matching
    process ID and is not only polled, and it has exited if some matching child has. -/
def WaitServes (children : Children) (pid : ℤ) (options : BitVec 32) : Prop :=
  if hasBit options wNoHang then ∀ node ∈ children.nodes, ¬ UnreportedExit pid node
  else
    (∀ node, children.nodes.find? (takes pid options) = some node →
      nodeEligible pid node.pid = true ∧ hasBit options wNoWait = false) ∧
    ((∃ node ∈ children.nodes, UnreportedExit pid node) →
      ∃ node, children.nodes.find? (takes pid options) = some node ∧ UnreportedExit pid node)

/-! ## The scan -/

section Scan

variable {pid : ℤ} {options : BitVec 32} {nodes : List Node} {node : Node}

theorem scan_of_find (h : nodes.find? (takes pid options) = some node) (eligible : Bool) :
    (scan pid options eligible nodes).1 = .reported node.pid node.proc.stateCode ∧
      ∃ before after, nodes = before ++ node :: after ∧
        (scan pid options eligible nodes).2 = before ++ (claimed options node ++ after) := by
  induction nodes generalizing eligible with
  | nil => cases h
  | cons head rest ih =>
    rw [scan]
    by_cases ht : takes pid options head = true
    · rw [find?_cons_of_pos ht] at h
      cases h
      rw [if_pos ht]
      exact ⟨rfl, [], rest, rfl, rfl⟩
    · rw [find?_cons_of_neg ht] at h
      rw [if_neg ht]
      obtain ⟨h1, before, after, h2, h3⟩ := ih h (eligible || nodeEligible pid head.pid)
      refine ⟨h1, head :: before, after, ?_, ?_⟩
      · rw [h2, cons_append]
      · show head :: (scan pid options _ rest).2 = _
        rw [h3, cons_append]

theorem scan_of_none (h : nodes.find? (takes pid options) = none) (eligible : Bool) :
    (∀ p status, (scan pid options eligible nodes).1 ≠ .reported p status) ∧
      (scan pid options eligible nodes).2 = nodes := by
  induction nodes generalizing eligible with
  | nil =>
    rw [scan]
    refine ⟨fun p status => ?_, rfl⟩
    dsimp only
    split_ifs <;> simp
  | cons head rest ih =>
    rw [scan]
    by_cases ht : takes pid options head = true
    · rw [find?_cons_of_pos ht] at h
      cases h
    · rw [find?_cons_of_neg ht] at h
      rw [if_neg ht]
      obtain ⟨h1, h2⟩ := ih h (eligible || nodeEligible pid head.pid)
      refine ⟨h1, ?_⟩
      show head :: (scan pid options _ rest).2 = _
      rw [h2]

end Scan

/-! ## When the promise is kept -/

section Law

variable {children : Children} {pid : ℤ} {options : BitVec 32}

theorem syscallProcWaitpid_noHang (h : hasBit options wNoHang = true) (nodes : List Node) :
    syscallProcWaitpid pid options nodes = (.nothing, nodes) := by
  rw [syscallProcWaitpid, if_pos h]

theorem syscallProcWaitpid_hang (h : hasBit options wNoHang = false) (nodes : List Node) :
    syscallProcWaitpid pid options nodes = scan pid options false nodes := by
  rw [syscallProcWaitpid, h, if_neg Bool.false_ne_true]

/-- A claimed change is gone: the process ID is still listed only without its change. -/
theorem not_stateChg_of_claimed {node found : Node} {before after : List Node}
    (hd : ((before ++ node :: after).map Node.pid).Nodup)
    (hf : found ∈ before ++ (claimed options node ++ after)) (hp : found.pid = node.pid) :
    found.proc.flags.stateChg = false := by
  rw [map_append, map_cons, nodup_append, nodup_cons] at hd
  obtain ⟨-, ⟨hafter, -⟩, hbefore⟩ := hd
  rcases mem_append.mp hf with hf | hf
  · exact absurd hp (hbefore _ (mem_map_of_mem hf) _ mem_cons_self)
  · rcases mem_append.mp hf with hf | hf
    · unfold claimed at hf
      split_ifs at hf
      · cases hf
      · rw [mem_singleton.mp hf]
    · exact absurd (hp ▸ mem_map_of_mem hf) hafter

theorem eq_of_removed {node lost : Node} {before after : List Node} (hl : lost ∈ before ++ node :: after)
    (hp : lost.pid ∉ (before ++ (claimed options node ++ after)).map Node.pid) : lost = node := by
  rw [mem_map] at hp
  rcases mem_append.mp hl with h | h
  · exact absurd ⟨lost, mem_append_left _ h, rfl⟩ hp
  · rcases mem_cons.mp h with h | h
    · exact h
    · exact absurd ⟨lost, mem_append_right _ (mem_append_right _ h), rfl⟩ hp

theorem waitLawful_iff_noHang (h : hasBit options wNoHang = true) :
    WaitLawful children pid options ↔ ∀ node ∈ children.nodes, ¬ UnreportedExit pid node := by
  have hcall : syscallProcWaitpid pid options children.nodes = _ :=
    syscallProcWaitpid_noHang h children.nodes
  constructor
  · intro hl node hn hx
    obtain ⟨_, _, _, hr⟩ := hl.exits ⟨node, hn, hx⟩
    rw [hcall] at hr
    cases hr
  · intro hno
    constructor
    · intro p status hr
      rw [hcall] at hr
      cases hr
    · intro node hn hlost
      rw [hcall] at hlost
      exact absurd (mem_map_of_mem hn) hlost
    · rintro ⟨node, hn, hx⟩
      exact absurd hx (hno node hn)
    · intro _ p status hr
      rw [hcall] at hr
      cases hr

theorem waitLawful_iff_taken (h : hasBit options wNoHang = false) {node : Node}
    (hfind : children.nodes.find? (takes pid options) = some node) :
    WaitLawful children pid options ↔
      nodeEligible pid node.pid = true ∧ hasBit options wNoWait = false ∧
      ((∃ n ∈ children.nodes, UnreportedExit pid n) → UnreportedExit pid node) := by
  obtain ⟨hout, before, after, hnodes, hpost⟩ := scan_of_find hfind false
  rw [← syscallProcWaitpid_hang h] at hout hpost
  have hd := children.distinct
  constructor
  · intro hl
    refine ⟨hl.reports hout, ?_, fun hx => ?_⟩
    · rw [← Bool.not_eq_true]
      intro hw
      obtain ⟨found, hf, hp, hchg⟩ := hl.keeps hw hout
      rw [hpost] at hf
      rw [hnodes] at hd
      rw [not_stateChg_of_claimed hd hf hp] at hchg
      cases hchg
    · obtain ⟨other, hother, hox, hor⟩ := hl.exits hx
      rw [hout] at hor
      have hpid : node.pid = other.pid := (Outcome.reported.inj hor).1
      have hmem : node ∈ children.nodes := by
        rw [hnodes]
        exact mem_append_right _ mem_cons_self
      rw [inj_on_of_nodup_map hd hmem hother hpid]
      exact hox
  · rintro ⟨hel, hw, hx⟩
    constructor
    · intro p status hr
      rw [hout] at hr
      cases hr
      exact hel
    · intro lost hlost hp
      rw [hpost] at hp
      rw [hnodes] at hlost
      rw [eq_of_removed hlost hp]
      exact hel
    · intro hex
      refine ⟨node, ?_, hx hex, hout⟩
      rw [hnodes]
      exact mem_append_right _ mem_cons_self
    · intro hw'
      rw [hw] at hw'
      cases hw'

theorem waitLawful_iff_none (h : hasBit options wNoHang = false) (hfind : children.nodes.find? (takes pid options) = none) :
    WaitLawful children pid options ↔ ¬ ∃ n ∈ children.nodes, UnreportedExit pid n := by
  obtain ⟨hout, hpost⟩ := scan_of_none hfind false
  rw [← syscallProcWaitpid_hang h] at hout hpost
  constructor
  · intro hl hex
    obtain ⟨_, _, _, hr⟩ := hl.exits hex
    exact hout _ _ hr
  · intro hno
    constructor
    · intro p status hr
      exact absurd hr (hout p status)
    · intro node hn hlost
      rw [hpost] at hlost
      exact absurd (mem_map_of_mem hn) hlost
    · intro hex
      exact absurd hex hno
    · intro _ p status hr
      exact absurd hr (hout p status)

theorem waitLawful_iff (children : Children) (pid : ℤ) (options : BitVec 32) :
    WaitLawful children pid options ↔ WaitServes children pid options := by
  unfold WaitServes
  cases hh : hasBit options wNoHang with
  | true =>
    rw [if_pos rfl]
    exact waitLawful_iff_noHang hh
  | false =>
    rw [if_neg Bool.false_ne_true]
    cases hfind : children.nodes.find? (takes pid options) with
    | none =>
      rw [waitLawful_iff_none hh hfind]
      constructor
      · intro hno
        refine ⟨?_, fun hex => absurd hex hno⟩
        nofun
      · rintro ⟨-, hex⟩ hx
        obtain ⟨node, hn, -⟩ := hex hx
        cases hn
    | some node =>
      rw [waitLawful_iff_taken hh hfind]
      constructor
      · rintro ⟨hel, hw, hx⟩
        refine ⟨?_, fun hex => ⟨node, rfl, hx hex⟩⟩
        intro other ho
        cases ho
        exact ⟨hel, hw⟩
      · rintro ⟨hall, hex⟩
        obtain ⟨hel, hw⟩ := hall node rfl
        refine ⟨hel, hw, fun hx => ?_⟩
        obtain ⟨other, ho, hox⟩ := hex hx
        cases ho
        exact hox

end Law

end BadgerOS.Lifecycle

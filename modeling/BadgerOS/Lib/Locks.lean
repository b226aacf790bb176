import Mathlib.Tactic

/-!
# Computations that take locks

`Locked μ α` is a computation that takes and releases locks of type `μ`: what it does to the
locks, in order, and its result, which is `none` if it does not return. Locks are taken
exclusively or shared.

* `follow`: the locks held after some operations. There are none if a lock is released that
  is not held, or acquired while it is held exclusively.
* `Leads held x held'`: the pre- and postcondition of a computation, with a rule for each way
  of building one.
* `Keeps locks x`: the computation ends with the locks it has started with, if none of `locks`
  was held exclusively.
* `Balanced x`: the same for a start without locks.
-/

namespace Locks

/-- How a lock is taken. -/
inductive Mode
  | exclusive
  | shared
  deriving DecidableEq, Repr

inductive Op (μ : Type)
  | acquire (mode : Mode) (m : μ)
  | release (mode : Mode) (m : μ)
  deriving DecidableEq, Repr

/-- A computation with locks. -/
structure Locked (μ α : Type) where
  ops : List (Op μ)
  result : Option α

namespace Locked

variable {μ α β : Type}

instance : Monad (Locked μ) where
  pure a := ⟨[], some a⟩
  bind x f :=
    match x.result with
    | none => ⟨x.ops, none⟩
    | some a => ⟨x.ops ++ (f a).ops, (f a).result⟩

/-- A computation without locks. -/
def lift (x : Option α) : Locked μ α := ⟨[], x⟩

def acquire (mode : Mode) (m : μ) : Locked μ Unit := ⟨[.acquire mode m], some ()⟩

def release (mode : Mode) (m : μ) : Locked μ Unit := ⟨[.release mode m], some ()⟩

/-- A computation that has the lock from its start to its end on all its paths. -/
def within (mode : Mode) (m : μ) (x : Option α) : Locked μ α := do
  acquire mode m
  let a ← lift x
  release mode m
  return a

@[simp] theorem result_lift (x : Option α) : (lift x : Locked μ α).result = x := rfl

@[simp] theorem result_acquire (mode : Mode) (m : μ) : (acquire mode m).result = some () := rfl

@[simp] theorem result_release (mode : Mode) (m : μ) : (release mode m).result = some () := rfl

@[simp] theorem result_bind (x : Locked μ α) (f : α → Locked μ β) :
    (x >>= f).result = x.result.bind fun a => (f a).result := by
  change (match x.result with
    | none => Locked.mk x.ops none
    | some a => ⟨x.ops ++ (f a).ops, (f a).result⟩).result = _
  cases x.result <;> rfl

end Locked

variable {μ α β : Type} [DecidableEq μ] {held held' held'' : List (Mode × μ)}

/-- The locks held after an operation. -/
def Op.step (held : List (Mode × μ)) : Op μ → Option (List (Mode × μ))
  | .acquire mode m => if (.exclusive, m) ∈ held then none else some ((mode, m) :: held)
  | .release mode m => if (mode, m) ∈ held then some (held.erase (mode, m)) else none

/-- The locks held after several operations. -/
def follow : List (Mode × μ) → List (Op μ) → Option (List (Mode × μ))
  | held, [] => some held
  | held, op :: ops => (op.step held).bind fun held => follow held ops

theorem follow_append (ops ops' : List (Op μ)) :
    follow held (ops ++ ops') = (follow held ops).bind fun held => follow held ops' := by
  induction ops generalizing held with
  | nil => rfl
  | cons op ops ih =>
    rw [List.cons_append, follow, follow, Option.bind_assoc]
    congr 1
    funext held
    exact ih

/-- The computation goes from `held` to `held'` if it returns, and does nothing illegal in
    between. -/
def Leads (held : List (Mode × μ)) (x : Locked μ α) (held' : List (Mode × μ)) : Prop :=
  ∃ last, follow held x.ops = some last ∧ (x.result.isSome = true → last = held')

/-- The computation ends with the locks with which it has started. -/
def Balanced (x : Locked μ α) : Prop := Leads [] x []

/-- From any locks, unless one of `locks` is held exclusively, the computation comes back to
    the locks with which it has started. -/
def Keeps (locks : List μ) (x : Locked μ α) : Prop :=
  ∀ held, (∀ m ∈ locks, (.exclusive, m) ∉ held) → Leads held x held

/-! ## Rules -/

section Rules

open Locked

theorem leads_pure (a : α) : Leads held (pure a : Locked μ α) held := ⟨held, rfl, fun _ => rfl⟩

theorem leads_lift (x : Option α) : Leads held (lift x : Locked μ α) held := ⟨held, rfl, fun _ => rfl⟩

variable {m : μ} {mode : Mode} {f : α → Locked μ β} {x : Locked μ α} {locks : List μ}

theorem leads_acquire (h : (.exclusive, m) ∉ held) : Leads held (acquire mode m) ((mode, m) :: held) := by
  refine ⟨(mode, m) :: held, ?_, fun _ => rfl⟩
  simp [acquire, follow, Op.step, if_neg h]

theorem leads_release (mode : Mode) (m : μ) : Leads ((mode, m) :: held) (release mode m) held := by
  refine ⟨held, ?_, fun _ => rfl⟩
  simp [release, follow, Op.step]

theorem Leads.bind (hx : Leads held x held') (hf : ∀ a, Leads held' (f a) held'') : Leads held (x >>= f) held'' := by
  obtain ⟨last, hfollow, hlast⟩ := hx
  rcases x with ⟨ops, _ | a⟩
  · exact ⟨last, hfollow, nofun⟩
  · obtain rfl := hlast rfl
    obtain ⟨last', hfollow', hlast'⟩ := hf a
    refine ⟨last', ?_, hlast'⟩
    change follow held (ops ++ (f a).ops) = some last'
    rw [follow_append, hfollow]
    exact hfollow'

theorem leads_ite {c : Prop} [Decidable c] {y : Locked μ α} (hx : Leads held x held')
    (hy : Leads held y held') : Leads held (if c then x else y) held' := by
  split_ifs
  · exact hx
  · exact hy

/-- After an operation that is illegal nothing can be legal. -/
theorem not_leads_bind (h : follow held x.ops = none) : ¬ Leads held (x >>= f) held' := by
  rintro ⟨last, hfollow, -⟩
  rcases x with ⟨ops, _ | a⟩
  · change follow held ops = some last at hfollow
    rw [h] at hfollow
    contradiction
  · change follow held (ops ++ (f a).ops) = some last at hfollow
    rw [follow_append, h] at hfollow
    contradiction

theorem follow_release_of_notMem (h : (mode, m) ∉ held) : follow held (release mode m).ops = none := by
  simp [release, follow, Op.step, if_neg h]

/-- What is wrong after a computation that returns is wrong in all. -/
theorem not_leads_of_rest {a : α} (hx : Leads held x held') (ha : x.result = some a)
    (hf : ¬ Leads held' (f a) held'') : ¬ Leads held (x >>= f) held'' := by
  rintro ⟨last, hfollow, hlast⟩
  obtain ⟨last', hfollow', hlast'⟩ := hx
  rcases x with ⟨ops, result⟩
  obtain rfl : result = some a := ha
  obtain rfl := hlast' rfl
  change follow held (ops ++ (f a).ops) = some last at hfollow
  rw [follow_append, hfollow'] at hfollow
  exact hf ⟨last, hfollow, hlast⟩

theorem Keeps.balanced (h : Keeps locks x) : Balanced x := h [] fun _ _ => List.not_mem_nil

theorem keeps_pure (locks : List μ) (a : α) : Keeps locks (pure a : Locked μ α) := fun _ _ => leads_pure a

theorem keeps_lift (locks : List μ) (x : Option α) : Keeps locks (lift x : Locked μ α) := fun _ _ => leads_lift x

theorem Keeps.bind (hx : Keeps locks x) (hf : ∀ a, Keeps locks (f a)) : Keeps locks (x >>= f) :=
  fun held hheld => (hx held hheld).bind fun a => hf a held hheld

theorem keeps_ite {c : Prop} [Decidable c] {y : Locked μ α} (hx : Keeps locks x)
    (hy : Keeps locks y) : Keeps locks (if c then x else y) :=
  fun held hheld => leads_ite (hx held hheld) (hy held hheld)

theorem keeps_within (hm : m ∈ locks) (x : Option α) : Keeps locks (within mode m x) := by
  intro held hheld
  refine (leads_acquire (hheld m hm)).bind fun _ => (leads_lift x).bind fun a => ?_
  exact (leads_release mode m).bind fun _ => leads_pure a

/-- While another lock is held, the locks of a computation are still free. -/
theorem Keeps.leads_cons (hx : Keeps locks x) (hm : m ∉ locks) (hheld : ∀ l ∈ locks, (.exclusive, l) ∉ held) :
    Leads ((mode, m) :: held) x ((mode, m) :: held) := by
  refine hx _ fun l hl hmem => ?_
  rcases List.mem_cons.mp hmem with heq | hmem
  · exact hm ((Prod.mk.inj heq).2 ▸ hl)
  · exact hheld l hl hmem

end Rules

end Locks

import Tunneld.Acme.Order
import Tunneld.Lib.Lts

/-!
# The orders of an account

Any number of orders `ο` of one account, on any nodes, share the account's `429` mark, a key of the
store that `MarkCALimited` sets to a fresh text and `CAWaitState` reads.  Requests outside an order
can be answered with `429` too; `η` are the handlings of those.

`State.clock` counts steps.  It is not part of the program: it dates what happens, so that "read
after the second mark was written" can be said.  `State.written` and `State.handled` record when
each mark was written, and which handlings are over.

What holds of an order whatever the rest of the account does is proved with `reach_order`.
-/

namespace Tunneld.Acme

open Function

/-- A handling of a `429` that has written its second mark. -/
structure Marked where
  resyncAt : Nat
  markedAt : Nat
  deriving DecidableEq

/-- The state of an account. -/
structure State (ο η υ ν : Type) where
  /-- The steps so far. -/
  clock : Nat
  /-- The `429` mark. -/
  mark : Option ν
  /-- When a mark was written. -/
  written : ν → Option Nat
  /-- The handlings that are over. -/
  handled : List Marked
  orders : ο → Order υ ν
  /-- The handlings outside an order. -/
  others : η → Option Handling

/-- A step of an account. -/
inductive Act (ο η υ ν : Type)
  /-- The goroutine of an order. -/
  | work (k : ο) (i : Input υ ν)
  /-- The one that waits for it. -/
  | chain (k : ο) (i : ChainInput ν)
  /-- The goroutine of an order, handling a `429`. -/
  | handle (k : ο) (i : HandlingInput ν)
  /-- A request outside an order is answered with `429`. -/
  | limited (e : η)
  /-- A step of its handling. -/
  | handleOther (e : η) (i : HandlingInput ν)
  | expire

/-- The account and its orders. -/
structure Setup (ο : Type) extends Config where
  /-- What each order is for. -/
  subject : ο → Subject

variable {ο η υ ν : Type} [DecidableEq ο] [DecidableEq η] [DecidableEq υ] [DecidableEq ν]

/-- If the mark is read, it is this one. -/
def Input.Sees (mark : Option ν) : Input υ ν → Prop
  | .waitState _ m => m = mark
  | _ => True

instance (mark : Option ν) (i : Input υ ν) : Decidable (i.Sees mark) := by
  unfold Input.Sees; split <;> infer_instance

/-- If the mark is read, it is this one. -/
def ChainInput.Sees (mark : Option ν) : ChainInput ν → Prop
  | .waitState _ m => m = mark
  | _ => True

instance (mark : Option ν) (i : ChainInput ν) : Decidable (i.Sees mark) := by
  unfold ChainInput.Sees; split <;> infer_instance

namespace State

/-- An order has made a step. -/
def put (s : State ο η υ ν) (k : ο) (o : Order υ ν) : State ο η υ ν :=
  { s with clock := s.clock + 1, orders := update s.orders k o }

/-- What a step of a handling does to the store. -/
def writes (s : State ο η υ ν) (h : Handling) : HandlingInput ν → State ο η υ ν
  | .wrote m =>
    { s with
      mark := some m
      written := update s.written m (some s.clock)
      handled := match h with
        | .remark resyncAt => ⟨resyncAt, s.clock⟩ :: s.handled
        | _ => s.handled }
  | _ => s

end State

/-- What becomes of a handling outside an order. -/
def Handled.rest : Handled → Option Handling
  | .next h => some h
  | .answered | .lost => none

variable (cfg : Setup ο)

/-- One step. -/
def step (s : State ο η υ ν) : Act ο η υ ν → Option (State ο η υ ν)
  | .work k i =>
    if i.Sees s.mark then ((s.orders k).work cfg.toConfig s.clock i).map (s.put k) else none
  | .chain k i =>
    if i.Sees s.mark then
      ((s.orders k).attempt cfg.toConfig (cfg.subject k) s.clock i).map (s.put k)
    else none
  | .handle k i =>
    match (s.orders k).worker with
    | .trip r pay (.limited sent a h) =>
      (h.step s.clock i).map fun res =>
        (s.writes h i).put k ((s.orders k).handled r pay sent a res)
    | _ => none
  | .limited e =>
    if s.others e = none then
      some { s with
        clock := s.clock + 1, others := update s.others e (some .setWait) }
    else none
  | .handleOther e i =>
    match s.others e with
    | some h =>
      (h.step s.clock i).map fun res =>
        { s.writes h i with
          clock := s.clock + 1, others := update s.others e res.rest }
    | none => none
  | .expire => some { s with clock := s.clock + 1, mark := none }

/-- An account with no order begun and no mark. -/
def start : State ο η υ ν where
  clock := 0
  mark := none
  written := fun _ => none
  handled := []
  orders := fun _ => .new
  others := fun _ => none

/-- An account with one order. -/
def oneOrder (ca : CA) : Setup Unit where
  account := ⟨ca, "id"⟩
  firstPoll := 0
  pollEvery := 0
  subject := fun _ => ⟨"phone.example.org", "example.org", false⟩

/-- The transition system. -/
def system : Lts (State ο η υ ν) (Act ο η υ ν) := ⟨start, step cfg⟩

variable {cfg} {g : State ο η υ ν → Act ο η υ ν → Prop} {s t : State ο η υ ν}

omit [DecidableEq ο] [DecidableEq η] [DecidableEq υ] in
@[simp] theorem orders_writes (h : Handling) (i : HandlingInput ν) :
    (s.writes h i).orders = s.orders := by
  cases i <;> rfl

/-- A step of the account leaves an order alone, or is one of its own three kinds. -/
theorem order_step {a : Act ο η υ ν} (hs : step cfg s a = some t) (k : ο) :
    t.orders k = s.orders k ∨
    (∃ i, a = .work k i ∧
      (s.orders k).work cfg.toConfig s.clock i = some (t.orders k)) ∨
    (∃ i, a = .chain k i ∧
      (s.orders k).attempt cfg.toConfig (cfg.subject k) s.clock i = some (t.orders k)) ∨
    (∃ i r pay sent b h res, a = .handle k i ∧
      (s.orders k).worker = .trip r pay (.limited sent b h) ∧
      h.step s.clock i = some res ∧ t.orders k = (s.orders k).handled r pay sent b res) := by
  rw [step.eq_def] at hs
  cases a with
  | work j i =>
    simp only [Option.ite_none_right_eq_some, Option.map_eq_some_iff] at hs
    obtain ⟨-, o, ho, rfl⟩ := hs
    by_cases hk : k = j
    · subst hk
      exact .inr (.inl ⟨i, rfl, by simp [State.put, ho]⟩)
    · exact .inl (by simp [State.put, hk])
  | chain j i =>
    simp only [Option.ite_none_right_eq_some, Option.map_eq_some_iff] at hs
    obtain ⟨-, o, ho, rfl⟩ := hs
    by_cases hk : k = j
    · subst hk
      exact .inr (.inr (.inl ⟨i, rfl, by simp [State.put, ho]⟩))
    · exact .inl (by simp [State.put, hk])
  | handle j i =>
    simp only at hs
    split at hs
    · rename_i r pay sent b h hw
      rw [Option.map_eq_some_iff] at hs
      obtain ⟨res, hres, rfl⟩ := hs
      by_cases hk : k = j
      · subst hk
        exact .inr (.inr (.inr ⟨i, r, pay, sent, b, h, res, rfl, hw, hres, by simp [State.put]⟩))
      · exact .inl (by simp [State.put, hk])
    · cases hs
  | limited e =>
    obtain ⟨-, rfl⟩ := Lts.taken hs
    exact .inl rfl
  | handleOther e i =>
    simp only at hs
    split at hs
    · rw [Option.map_eq_some_iff] at hs
      obtain ⟨res, -, rfl⟩ := hs
      exact .inl (by simp)
    · cases hs
  | expire =>
    cases hs
    exact .inl rfl

/-- **The rule for one order.**  What holds of an order that is not begun, and is kept by its own
steps, holds of every order in every reachable state. -/
theorem reach_order {P : ο → Order υ ν → Prop} (hnew : ∀ k, P k .new)
    (hwork : ∀ (s : State ο η υ ν) k i o, P k (s.orders k) → g s (.work k i) →
      (s.orders k).work cfg.toConfig s.clock i = some o → P k o)
    (hchain : ∀ (s : State ο η υ ν) k i o, P k (s.orders k) → g s (.chain k i) →
      (s.orders k).attempt cfg.toConfig (cfg.subject k) s.clock i = some o → P k o)
    (hhandled : ∀ (o : Order υ ν) k r pay sent b h res, P k o →
      o.worker = .trip r pay (.limited sent b h) → P k (o.handled r pay sent b res))
    (h : (system cfg).Reach g s) (k : ο) : P k (s.orders k) := by
  refine Lts.Reach.invariant (P := fun s => P k (s.orders k)) (hnew k) ?_ h
  intro s a t _ hp hg hs
  obtain heq | ⟨i, rfl, hw⟩ | ⟨i, rfl, hc⟩ | ⟨i, r, pay, sent, b, hd, res, rfl, hw, -, ht⟩ :=
    order_step hs k
  · rw [heq]
    exact hp
  · exact hwork s k i _ hp hg hw
  · exact hchain s k i _ hp hg hc
  · rw [ht]
    exact hhandled _ k r pay sent b hd res hp hw

end Tunneld.Acme

import Tunneld.Lib.Lts

/-!
# The phone follows a MOVE

A node that drains sends MOVE on the control connections of its phones, with the addresses of nodes
to go to.  The phone's `Run` opens a connection to one of them and leaves the old one, whose `pump`
goes on until the node closes it: requests that are under way on it are served to their end.  If no
address will do, `Run` dials its own address again.

A connection hands its MOVE to `Run` through a channel with room for one.  The goroutine of a
connection and `Run` run side by side, so a connection may end with a MOVE in its channel that `Run`
has not seen; `serveConn` looks into the channel once more when it learns of the end.

* `Step` is what a step of the client can do, `step_cases` that it does nothing else;
* `Inv` says which connections are read, and what is in the channel of the last one;
* `left_only_after_move` is that for every interleaving: no connection is left behind by mistake,
  and no MOVE is overlooked.
-/

namespace Tunneld.Control

open Function

/-- What is dialled. -/
inductive Via (α : Type)
  /-- `dialAddr`, when `Run` starts. -/
  | first
  /-- An address of a MOVE; the others are to be tried after it. -/
  | target (addr : α) (rest : List α)
  /-- `dialAddr` again, at the end of `move`. -/
  | fallback
  deriving DecidableEq

/-- Where `Run` stands. -/
inductive Pc (α κ : Type)
  | dialing (via : Via α)
  /-- The `select` of `serveConn`. -/
  | serving (c : κ) (via : Via α)
  | sleeping (next : List α)
  /-- It has returned, on the end of this connection or on a failure. -/
  | returned (last : Option κ)
  deriving DecidableEq

/-- Where the goroutine of a connection stands. -/
inductive Pump
  | unopened
  | reading
  | done
  deriving DecidableEq

/-- A control connection. -/
structure Conn (α : Type) where
  pump : Pump
  /-- The channel. -/
  moves : Option (List α)
  movedAway : Bool

/-- The control client. -/
structure State (α κ : Type) where
  pc : Pc α κ
  conn : κ → Conn α

/-- What can happen next. -/
inductive Act (α κ : Type)
  /-- The dial or the request failed; whether the context has been cancelled. -/
  | fail (cancelled : Bool)
  | opened (c : κ)
  /-- A MOVE frame comes in. -/
  | move (c : κ) (addrs : List α)
  /-- The connection's `pump` returns. -/
  | finish (c : κ)
  /-- `Run` takes a MOVE from the channel. -/
  | take
  /-- `Run` learns that the connection has ended. -/
  | done
  | wake (cancelled : Bool)

section Step

variable {α κ : Type}

/-- The next dial of `move`. -/
def next : List α → Pc α κ
  | [] => .dialing .fallback
  | a :: rest => .dialing (.target a rest)

variable (valid : α → Bool)

/-- The addresses that `net.SplitHostPort` takes apart into a host and a port. -/
def moveTargets (addrs : List α) : List α := addrs.filter valid

/-- `move` starts. -/
def State.follow (s : State α κ) (addrs : List α) : State α κ :=
  { s with pc := next (moveTargets valid addrs) }

variable [DecidableEq κ]

/-- `Run` has a MOVE.  After a fallback it waits before it follows. -/
def State.taken (s : State α κ) (c : κ) (addrs : List α) : Via α → State α κ
  | .fallback =>
    { s with pc := .sleeping addrs, conn := update s.conn c { s.conn c with moves := none } }
  | .first | .target _ _ =>
    { s with conn := update s.conn c { s.conn c with moves := none } }.follow valid addrs

/-- The state after an action, if it is possible. -/
def step (s : State α κ) : Act α κ → Option (State α κ)
  | .fail cancelled =>
    match s.pc with
    | .dialing (.target _ rest) =>
      if cancelled then some { s with pc := .returned none }
      else some { s with pc := next rest }
    | .dialing _ => some { s with pc := .returned none }
    | _ => none
  | .opened c =>
    match s.pc with
    | .dialing via =>
      if (s.conn c).pump = .unopened then
        some { s with pc := .serving c via, conn := update s.conn c ⟨.reading, none, false⟩ }
      else none
    | _ => none
  | .move c addrs =>
    if (s.conn c).pump = .reading then
      if addrs ≠ [] ∧ (s.conn c).moves = none then
        -- Only this goroutine reads the flag, so it is set in the same step.
        some { s with conn := update s.conn c ⟨.reading, some addrs, true⟩ }
      else some s
    else none
  | .finish c =>
    if (s.conn c).pump = .reading then
      some { s with conn := update s.conn c { s.conn c with pump := .done } }
    else none
  | .take =>
    match s.pc with
    | .serving c via =>
      match (s.conn c).moves with
      | some addrs => some (s.taken valid c addrs via)
      | none => none
    | _ => none
  | .done =>
    match s.pc with
    | .serving c via =>
      if (s.conn c).pump = .done then
        -- Nothing comes into the channel any more, so the second look is part of the step.
        match (s.conn c).moves with
        | some addrs => some (s.taken valid c addrs via)
        | none => some { s with pc := .returned (some c) }
      else none
    | _ => none
  | .wake cancelled =>
    match s.pc with
    | .sleeping addrs =>
      if cancelled then some { s with pc := .returned none } else some (s.follow valid addrs)
    | _ => none

/-- `Run` is called. -/
def system : Lts (State α κ) (Act α κ) :=
  ⟨⟨.dialing .first, fun _ => ⟨.unopened, none, false⟩⟩, step valid⟩

/-! ## The invariant -/

/-- The connection that `Run` serves. -/
def Pc.served : Pc α κ → Option κ
  | .serving c _ => some c
  | .dialing _ | .sleeping _ | .returned _ => none

/-- What a step can do. -/
inductive Step (s : State α κ) : Act α κ → State α κ → Prop
  /-- `Run` returns on a failure. -/
  | stop {a} (hpc : s.pc.served = none) : Step s a { s with pc := .returned none }
  | dial {a} (hpc : s.pc.served = none) (l : List α) : Step s a { s with pc := next l }
  | opened {c via} (hpc : s.pc = .dialing via) (hc : (s.conn c).pump = .unopened) :
    Step s (.opened c)
      { s with pc := .serving c via, conn := update s.conn c ⟨.reading, none, false⟩ }
  | moved {c addrs} (hc : (s.conn c).pump = .reading) :
    Step s (.move c addrs) { s with conn := update s.conn c ⟨.reading, some addrs, true⟩ }
  /-- A MOVE without an address, or a second one. -/
  | ignored {c addrs} : Step s (.move c addrs) s
  | finish {c} (hc : (s.conn c).pump = .reading) :
    Step s (.finish c) { s with conn := update s.conn c { s.conn c with pump := .done } }
  | taken {a c via addrs} (hpc : s.pc = .serving c via) (hm : (s.conn c).moves = some addrs) :
    Step s a (s.taken valid c addrs via)
  | ended {c via} (hpc : s.pc = .serving c via) (hc : (s.conn c).pump = .done)
      (hm : (s.conn c).moves = none) : Step s .done { s with pc := .returned (some c) }

/-- What every step keeps. -/
structure Inv (s : State α κ) : Prop where
  moved : ∀ c, (s.conn c).moves ≠ none → (s.conn c).movedAway = true
  left : ∀ c, (s.conn c).pump = .reading → s.pc.served = some c ∨ (s.conn c).movedAway = true
  last : ∀ c, s.pc = .returned (some c) → (s.conn c).pump = .done ∧ (s.conn c).moves = none

variable {valid} {s t : State α κ} {a : Act α κ}

theorem step_cases (hs : step valid s a = some t) : Step valid s a t := by
  revert hs
  fun_cases step valid s a <;> rintro ⟨⟩
  all_goals first
    | exact .taken ‹_› ‹_›
    | exact .ended ‹_› ‹_› ‹_›
    | exact .opened ‹_› ‹_›
    | exact .moved ‹_›
    | exact .finish ‹_›
    | exact .ignored
    | exact .stop (by simp [*, Pc.served])
    | exact .dial (by simp [*, Pc.served]) _

omit [DecidableEq κ] in
@[grind .] theorem next_ne_returned (l : List α) (o : Option κ) : next l ≠ .returned o := by
  cases l <;> simp [next]

/-- `Run` leaves a connection for its MOVE, so that connection has moved away. -/
theorem Inv.taken (hi : Inv s) {c : κ} {via via' : Via α} {addrs : List α}
    (hpc : s.pc = .serving c via') (hc : (s.conn c).moves = some addrs) :
    Inv (s.taken valid c addrs via) := by
  obtain ⟨hmoved, hleft, hlast⟩ := hi
  cases via <;> simp only [State.taken, State.follow] <;> constructor <;> intro j <;>
    grind [update_apply, Pc.served]

theorem Inv.step (hi : Inv s) (hs : step valid s a = some t) : Inv t := by
  have ⟨hmoved, hleft, hlast⟩ := hi
  cases step_cases hs with
  | taken hpc hm => exact hi.taken hpc hm
  | ignored => exact hi
  | stop hpc | dial hpc | opened hpc hc | moved hc | finish hc | ended hpc hc hm =>
    constructor <;> intro j <;> grind [update_apply, Pc.served]

theorem inv_of_reach (hr : (system valid).Reach Lts.always s) : Inv s :=
  hr.invariant ⟨by simp [system], by simp [system], by simp [system]⟩
    fun _ _ _ _ hi _ hs => hi.step hs

/-- **A connection is left only after a MOVE.**  In every reachable state each connection that is
still read is the one that `Run` serves, or was sent a MOVE; also after `Run` has returned.  And
when `Run` returns on the end of a connection, no MOVE is left in its channel. -/
theorem left_only_after_move (hr : (system valid).Reach Lts.always s) :
    (∀ c, (s.conn c).pump = .reading → s.pc.served = some c ∨ (s.conn c).movedAway = true) ∧
    ∀ c, s.pc = .returned (some c) → (s.conn c).pump = .done ∧ (s.conn c).moves = none :=
  ⟨(inv_of_reach hr).left, (inv_of_reach hr).last⟩

/-- A phone that was moved loses its second connection, and `Run` returns; the first is still
read. -/
theorem left_only_after_move_returned :
    ∃ s : State Nat (Fin 2), (system fun _ => true).Reach Lts.always s ∧
      s.pc = .returned (some 1) ∧ (s.conn 0).pump = .reading ∧ (s.conn 0).movedAway = true ∧
      (s.conn 1).moves = none := by
  obtain ⟨s, hr, hpc, hread⟩ := Lts.exists_reach_of_any
    (L := (system fun _ => true : Lts (State Nat (Fin 2)) _)) (g := Lts.always)
    (l := [.opened 0, .move 0 [7], .take, .opened 1, .finish 1, .done])
    (P := fun s => s.pc = .returned (some 1) ∧ (s.conn 0).pump = .reading) (by decide +kernel)
  obtain ⟨hleft, hlast⟩ := left_only_after_move hr
  exact ⟨s, hr, hpc, hread, (hleft 0 hread).resolve_left (by simp [hpc, Pc.served]), (hlast 1 hpc).2⟩

end Step

end Tunneld.Control

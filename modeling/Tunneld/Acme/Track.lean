import Tunneld.Acme.Budgets
import Mathlib.Data.Option.Basic

/-!
# What an order keeps track of

`orderTrack` of `acme/track.go` is shared by the goroutine that runs an order and the one that waits
for it.  It records how far the order has come (whether a newOrder or a finalize request is out, or
was answered), the requests the order has prepaid and not used, and whether the order was given up
on.  Each method is one section under the track's mutex, so each is one atomic step of whoever calls
it; here it is a function on `Track`.

URLs are of any type `υ` and marks of any type `ν`; the source's empty string is `none`, and so is
its zero time.  `limited`, a channel that can only make the waiting goroutine give up earlier than
it might anyway, and the challenge cleanups are not part of the record.
-/

namespace Tunneld.Acme

/-- `sentRequest`: how a request counts while it is out. -/
inductive SentRequest
  | other
  | order
  | finalize
  deriving DecidableEq

/-- `orderTrack`. -/
structure Track (υ ν : Type) where
  /-- Where the order can be read. -/
  orderURL : Option υ
  finalizeURL : Option υ
  /-- When a finalize request was accepted. -/
  finalizedAt : Option Int
  /-- When the order was last polled. -/
  lastPoll : Option Int
  /-- The authority has created the order. -/
  created : Bool
  /-- A newOrder request is out. -/
  orderSent : Bool
  /-- A finalize request is out. -/
  finalSent : Bool
  /-- The bucket the requests were prepaid from. -/
  prepaidKey : Option Key
  /-- The `429` mark of the account when they were prepaid. -/
  prepaidMark : Option ν
  /-- The requests that are prepaid and not used. -/
  prepaid : Nat
  /-- The channel `done` is closed. -/
  done : Bool

/-- `orderOutcome`. -/
structure OrderOutcome where
  /-- The order was created, for all that is known. -/
  created : Bool
  /-- It was finalized, for all that is known. -/
  finalized : Bool
  /-- It was given up on. -/
  abandoned : Bool

namespace Track

variable {υ ν : Type}

/-- `newOrderTrack`. -/
def new : Track υ ν := ⟨none, none, none, none, false, false, false, none, none, 0, false⟩

/-- Note the requests an order has prepaid. -/
def setPrepaid (key : Option Key) (n : Nat) (mark : Option ν) (t : Track υ ν) : Track υ ν :=
  { t with prepaidKey := key, prepaid := n, prepaidMark := mark }

/-- Drop the prepaid requests, unless the account is known to have seen no other `429` since. -/
def dropPrepaid [DecidableEq ν] (mark : Option ν) (known : Bool) (t : Track υ ν) : Track υ ν :=
  if known = true ∧ (mark = none ∨ mark = t.prepaidMark) then t else { t with prepaid := 0 }

/-- Use one prepaid request.  The caller has seen that there is one; what it gets is
`prepaidKey`. -/
def usePrepaid (t : Track υ ν) : Track υ ν := { t with prepaid := t.prepaid - 1 }

/-- Give one back. -/
def returnPrepaid (t : Track υ ν) : Track υ ν := { t with prepaid := t.prepaid + 1 }

/-- Take what is left; the caller gets `prepaid` and `prepaidMark`. -/
def drainPrepaid (t : Track υ ν) : Track υ ν := { t with prepaid := 0 }

/-- Give up on the order. -/
def abandon (t : Track υ ν) : Track υ ν := { t with done := true }

/-- The order exists. -/
def setOrder (orderURL finalizeURL : υ) (t : Track υ ν) : Track υ ν :=
  { t with orderURL := some orderURL, finalizeURL := some finalizeURL, created := true }

/-- A request to `u` finalizes the order. -/
def IsFinalize (t : Track υ ν) (u : υ) : Prop := t.finalizeURL = some u

instance [DecidableEq υ] (t : Track υ ν) (u : υ) : Decidable (t.IsFinalize u) :=
  inferInstanceAs (Decidable (t.finalizeURL = some u))

/-- A finalize request was accepted. -/
def markFinalized (now : Int) (t : Track υ ν) : Track υ ν := { t with finalizedAt := some now }

/-- A request to `u` polls the order once it is finalized. -/
def IsPoll (t : Track υ ν) (u : υ) : Prop := t.finalizedAt.isSome ∧ t.orderURL = some u

instance [DecidableEq υ] (t : Track υ ν) (u : υ) : Decidable (t.IsPoll u) :=
  inferInstanceAs (Decidable (t.finalizedAt.isSome ∧ t.orderURL = some u))

/-- When the next poll is due. -/
def pollDue (first every : Int) (t : Track υ ν) : Int :=
  let due := t.finalizedAt.getD 0 + first
  match t.lastPoll with
  | some last => max due (last + every)
  | none => due

/-- The order was polled. -/
def markPoll (now : Int) (t : Track υ ν) : Track υ ν := { t with lastPoll := some now }

/-- How `markSent` counts a request. -/
def sent [DecidableEq υ] (post : Bool) (u : υ) (t : Track υ ν) : SentRequest :=
  if t.IsFinalize u then .finalize
  else if t.created = false ∧ post = true then .order
  else .other

/-- `markSent`: a request is about to go out. -/
def markSent [DecidableEq υ] (post : Bool) (u : υ) (t : Track υ ν) : Track υ ν :=
  match t.sent post u with
  | .finalize => { t with finalSent := true }
  | .order => { t with orderSent := true }
  | .other => t

/-- `markAnswered`: it was answered, or not sent after all. -/
def markAnswered (s : SentRequest) (t : Track υ ν) : Track υ ν :=
  match s with
  | .finalize => { t with finalSent := false }
  | .order => { t with orderSent := false }
  | .other => t

/-- `outcome`. -/
def outcome (t : Track υ ν) : OrderOutcome :=
  { created := t.created || t.orderSent
    finalized := t.finalizedAt.isSome || t.finalSent
    abandoned := t.done }

/-! ## What the methods change -/

section Frame

variable (t : Track υ ν) (post : Bool) (u : υ) (s : SentRequest) (mark : Option ν) (known : Bool)

/-- A drop is about the prepaid requests only. -/
theorem dropPrepaid_eq [DecidableEq ν] : t.dropPrepaid mark known = { t with
    prepaid := if known = true ∧ (mark = none ∨ mark = t.prepaidMark) then t.prepaid else 0 } := by
  unfold dropPrepaid
  split <;> rfl

/-- A mark raises the flag of its request. -/
theorem markSent_eq [DecidableEq υ] : t.markSent post u = { t with
    orderSent := t.orderSent || decide (t.sent post u = .order)
    finalSent := t.finalSent || decide (t.sent post u = .finalize) } := by
  unfold markSent
  cases t.sent post u <;> simp

/-- An answer lowers it. -/
theorem markAnswered_eq : t.markAnswered s = { t with
    orderSent := t.orderSent && decide (s ≠ .order)
    finalSent := t.finalSent && decide (s ≠ .finalize) } := by
  cases s <;> simp [markAnswered]

end Frame

end Track

end Tunneld.Acme

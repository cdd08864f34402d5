import Tunneld.Acme.Track

/-!
# One order: the goroutine that runs it and the one that waits for it

`chainIssuer.attempt` (`acme/chain.go`) tries an account: it reserves the order's buckets, prepays
its requests, and calls `legoClient.obtain`, which starts a goroutine for the order and waits for
its result, for a `429` or for the end of its time.  Then it reads the outcome off the track, gives
up on the order, and `settle` spends or releases what was reserved and refunds what was prepaid.

The goroutine runs the ACME library, whose every request goes through `budgetTransport.roundTrip`
(`acme/transport.go`): `before` waits until the account may send it and pays for it, and the rest
marks it as sent, sends it unless the order was given up on, and takes note of the answer.  A `429`
sets the account's wait-until, writes a fresh mark, lowers the budget and writes another mark.

`Order` is the two of them with their shared track.  The library is free to make any request it
likes, one at a time, and the store and the authority are free to answer what they like: an answer
is the argument of the step that receives it.  Every store command and every method of the track is
a step of its own.

The last fields of `Order` only record what happened: the requests whose round trip is over, the
calls of `CommitACME` and `ReleaseACME`, and how the prepaid requests were used.
-/

namespace Tunneld.Acme

/-! ## Requests and answers -/

/-- What the library is up to with a request. -/
inductive Purpose
  | newOrder
  | finalize
  | other
  deriving DecidableEq

/-- A request of an order. -/
structure Request (υ : Type) where
  purpose : Purpose
  post : Bool
  url : υ
  /-- The path of the URL contains `/cert/`. -/
  cert : Bool
  deriving DecidableEq

/-- An answer of the authority. -/
structure Answer (υ : Type) where
  status : Nat
  location : Option υ
  /-- The finalize URL the body names, if it is an order that names one. -/
  finalize : Option υ
  deriving DecidableEq

namespace Answer

variable {υ : Type}

/-- The answer of a newOrder request that is accepted. -/
def IsOrder (a : Answer υ) : Prop :=
  a.status = 201 ∧ a.location.isSome = true ∧ a.finalize.isSome = true

instance (a : Answer υ) : Decidable a.IsOrder :=
  inferInstanceAs (Decidable (_ ∧ _ ∧ _))

/-- The status is 2xx. -/
def Ok (a : Answer υ) : Prop := a.status / 100 = 2

instance (a : Answer υ) : Decidable a.Ok := inferInstanceAs (Decidable (_ = _))

end Answer

/-- Why `TakeACME` returned an error. -/
inductive TakeError
  | store
  /-- `ErrBudgetLockContended`. -/
  | contended
  /-- It ran out of time, before or after it had spent the tokens. -/
  | timedOut (spent : Bool)
  deriving DecidableEq

/-- What was paid for a request. -/
structure Pay where
  /-- A prepaid request was used. -/
  paid : Bool
  /-- The tokens of the account's request bucket taken for it. -/
  taken : Nat
  error : Option TakeError
  deriving DecidableEq

/-- How a round trip ended. -/
inductive Fate (υ : Type)
  /-- In an error: the library has no answer. -/
  | lost
  | answered (a : Answer υ)
  deriving DecidableEq

/-- A request whose round trip is over. -/
structure Sent (υ : Type) where
  request : Request υ
  pay : Pay
  fate : Fate υ
  deriving DecidableEq

/-- What the account's wait state was when it was read. -/
structure WaitState (ν : Type) where
  /-- How long the account has to wait. -/
  cool : Int
  mark : Option ν
  /-- The read succeeded. -/
  known : Bool
  readAt : Nat
  deriving DecidableEq

/-! ## Where the two goroutines stand -/

/-- The handling of a `429`, `rateLimited`.  A constructor is about to run what it names. -/
inductive Handling
  /-- `setWaitUntil`. -/
  | setWait
  /-- `markLimited`. -/
  | mark
  | body
  | resync
  /-- `markLimited` once more; the bucket was resynced at `resyncAt`. -/
  | remark (resyncAt : Nat)
  deriving DecidableEq

/-- What a step of a handling meets. -/
inductive HandlingInput (ν : Type)
  | done
  /-- The command succeeds and writes the mark `m`. -/
  | wrote (m : ν)
  | fails
  deriving DecidableEq

/-- What becomes of a handling. -/
inductive Handled
  | next (h : Handling)
  | answered
  | lost
  deriving DecidableEq

/-- One step of `rateLimited`.  Only a body that cannot be read ends it early. -/
def Handling.step {ν : Type} (clock : Nat) : Handling → HandlingInput ν → Option Handled
  | .setWait, .done | .setWait, .fails => some (.next .mark)
  | .mark, .wrote _ | .mark, .fails => some (.next .body)
  | .body, .done => some (.next .resync)
  | .body, .fails => some .lost
  | .resync, .done | .resync, .fails => some (.next (.remark clock))
  | .remark _, .wrote _ | .remark _, .fails => some .answered
  | _, _ => none

/-- Where `before` stands with a request. -/
inductive Before (ν : Type)
  /-- `tr.abandoned()`. -/
  | check
  | waitState
  /-- The top of the loop. -/
  | loop (w : WaitState ν)
  /-- Asleep until the wait or the poll is over; the wait state is read next. -/
  | sleep
  /-- `tr.dropPrepaid`. -/
  | drop (w : WaitState ν)
  /-- `tr.usePrepaid`. -/
  | use (readAt : Nat)
  /-- `TakeACME` of the buckets in `charge`. -/
  | take (paid : Bool) (charge : List Key)
  /-- The take was refused: `tr.returnPrepaid` if a prepaid request was used. -/
  | short (paid : Bool)
  /-- `tr.markPoll` if the request polls the order. -/
  | markPoll (pay : Pay)
  deriving DecidableEq

/-- Where `roundTrip` stands with a request that is paid for. -/
inductive Trip (υ : Type)
  | markSent
  /-- `tr.abandoned()`. -/
  | check (sent : SentRequest)
  /-- It was: `tr.markAnswered`. -/
  | unmark (sent : SentRequest)
  /-- `tr.returnPrepaid`. -/
  | giveBack
  /-- It was not: the request is sent. -/
  | send (sent : SentRequest)
  | await (sent : SentRequest)
  /-- The answer is a `429`. -/
  | limited (sent : SentRequest) (a : Answer υ) (h : Handling)
  | observe (sent : SentRequest) (a : Answer υ)
  /-- `tr.markFinalized`. -/
  | finalized (sent : SentRequest) (a : Answer υ)
  /-- Reading the body of a `201`. -/
  | body (sent : SentRequest) (a : Answer υ)
  | setOrder (sent : SentRequest) (a : Answer υ) (location finalize : υ)
  /-- `tr.markAnswered`. -/
  | answered (sent : SentRequest) (a : Answer υ)
  deriving DecidableEq

/-- Where the goroutine of the order stands. -/
inductive Worker (υ ν : Type)
  | off
  /-- The library is between two requests. -/
  | idle
  | before (r : Request υ) (b : Before ν)
  /-- In `roundTrip` after that. -/
  | trip (r : Request υ) (pay : Pay) (p : Trip υ)
  /-- The library has returned, with or without a certificate. -/
  | finished (ok : Bool)
  deriving DecidableEq

/-- What a step of the goroutine of the order meets. -/
inductive Input (υ ν : Type)
  | go
  | clock (now : Int)
  | request (r : Request υ)
  /-- The library returns. -/
  | finish (ok : Bool)
  /-- The wait state of the account. -/
  | waitState (cool : Int) (mark : Option ν)
  /-- An error of the store, of the network or of its own time limit. -/
  | fails
  | wake
  /-- The request's context is over, or the order was given up on. -/
  | quit
  /-- `TakeACME` returns how long to wait. -/
  | took (wait : Int)
  /-- `TakeACME` returns an error. -/
  | takeFails (e : TakeError)
  | answer (a : Answer υ)

/-- Where `attempt` and `settle` stand. -/
inductive Chain (ν : Type)
  | reserve
  /-- It was refused: the account is skipped. -/
  | refused
  /-- `CAWaitState`, for the mark. -/
  | mark
  /-- `PrepayACME` of `n` requests. -/
  | prepay (mark : Option ν) (n : Nat)
  /-- The request budget is short: `ReleaseACME` of all that was reserved. -/
  | giveBack
  | skipped
  /-- `obtain` waits for the goroutine. -/
  | run
  /-- `obtain` has set its own flag; `tr.abandon` is next. -/
  | abandoning
  /-- `obtain` has returned; `tr.outcome` is next. -/
  | outcome (ok : Bool)
  | abandon (ok : Bool) (out : OrderOutcome)
  /-- `settle`: `CommitACME` of the buckets in `spend`, then `ReleaseACME` of `release`. -/
  | commit (spend release : List Key)
  /-- `tr.drainPrepaid`. -/
  | drain
  /-- `refund`: `CAWaitState`. -/
  | refundMark (left : Nat) (mark : Option ν)
  | refund (left : Nat) (readAt : Nat)
  | settled

/-- What a step of `attempt` meets. -/
inductive ChainInput (ν : Type)
  | go
  /-- `ReserveACME` grants. -/
  | granted
  | refused
  /-- An error of the store or of a time limit. -/
  | fails
  /-- The wait state of the account. -/
  | waitState (cool : Int) (mark : Option ν)
  /-- `PrepayACME` has set `n` requests aside. -/
  | prepaid (n : Nat)
  /-- It could not. -/
  | short
  /-- The time is over, or the authority has answered `429`. -/
  | giveUp
  /-- The goroutine has returned; `ok` tells whether its result is a certificate that can be
  used. -/
  | result (ok : Bool)

/-- What a call settles a reserved bucket with. -/
inductive Call
  | committed (b : Key)
  | released (b : Key)
  deriving DecidableEq

/-- The bucket of a call. -/
def Call.bucket : Call → Key
  | .committed b | .released b => b

/-- A use of prepaid requests: by a request, or by a refund. -/
structure Use where
  /-- When they were prepaid. -/
  prepaidAt : Nat
  /-- When the wait state that allowed the use was read. -/
  readAt : Nat
  deriving DecidableEq

/-- An order, and what has happened to it. -/
structure Order (υ ν : Type) where
  track : Track υ ν
  /-- The waiting goroutine. -/
  chain : Chain ν
  /-- The goroutine of the order. -/
  worker : Worker υ ν
  startedAt : Nat
  /-- The requests whose round trip is over, the last one first. -/
  log : List (Sent υ)
  /-- The calls that settled a bucket, the last one first. -/
  calls : List Call
  prepaid : Nat
  prepaidAt : Nat
  /-- Where prepaid requests went. -/
  uses : List Use
  /-- The tokens of the request bucket that takes have spent. -/
  taken : Nat
  refunded : Nat

/-- What the transport of an account is configured with. -/
structure Config where
  account : Account
  /-- How long after the finalize request the order is first polled. -/
  firstPoll : Int
  /-- How far polls are apart. -/
  pollEvery : Int

/-- An order that is not begun. -/
def Order.new {υ ν : Type} : Order υ ν where
  track := .new
  chain := .reserve
  worker := .off
  startedAt := 0
  log := []
  calls := []
  prepaid := 0
  prepaidAt := 0
  uses := []
  taken := 0
  refunded := 0

namespace Order

variable {υ ν : Type} [DecidableEq υ] [DecidableEq ν]

/-- How many tokens of the account's request bucket a take of `charge` spends. -/
def requestTokens (a : Account) (charge : List Key) : Nat :=
  match (prepayBucket a).1 with
  | some k => charge.count k
  | none => 0

/-- The charge of a request: without the bucket it was prepaid from, if it was. -/
def charge (a : Account) (r : Request υ) (prepaidKey : Option Key) (paid : Bool) : List Key :=
  if paid then (requestBuckets a r.cert).filter fun b => some b ≠ prepaidKey
  else requestBuckets a r.cert

/-- One step of `before`.  A request that is refused goes back to the library as an error. -/
def before (cfg : Config) (clock : Nat) (o : Order υ ν) (r : Request υ) :
    Before ν → Input υ ν → Option (Order υ ν)
  | .check, .go =>
    some { o with worker := if o.track.done then .idle else .before r .waitState }
  | .waitState, .waitState cool mark =>
    some { o with worker := .before r (.loop ⟨cool, mark, true, clock⟩) }
  | .waitState, .fails =>
    some { o with worker := .before r (.loop ⟨0, none, false, clock⟩) }
  | .loop w, .clock now =>
    -- The wait of the account comes first, then the pace of the polls.
    if 0 < w.cool ∨
        (o.track.IsPoll r.url ∧ 0 < o.track.pollDue cfg.firstPoll cfg.pollEvery - now) then
      some { o with worker := .before r .sleep }
    else some { o with worker := .before r (.drop w) }
  | .sleep, .wake => some { o with worker := .before r .waitState }
  | .sleep, .quit => some { o with worker := .idle }
  | .drop w, .go =>
    some { o with track := o.track.dropPrepaid w.mark w.known, worker := .before r (.use w.readAt) }
  | .use readAt, .go =>
    if 0 < o.track.prepaid then
      some { o with
        track := o.track.usePrepaid
        uses := ⟨o.prepaidAt, readAt⟩ :: o.uses
        worker := .before r (.take true (charge cfg.account r o.track.prepaidKey true)) }
    else
      some { o with
        worker := .before r (.take false (charge cfg.account r o.track.prepaidKey false)) }
  | .take paid bs, .took wait =>
    if bs ≠ [] ∧ 0 < wait then some { o with worker := .before r (.short paid) }
    else
      some { o with
        taken := o.taken + requestTokens cfg.account bs
        worker := .before r (.markPoll ⟨paid, requestTokens cfg.account bs, none⟩) }
  | .take paid bs, .takeFails e =>
    -- The request is sent anyway.
    if bs = [] then none
    else
      let n := if e = .timedOut true then requestTokens cfg.account bs else 0
      some { o with
        taken := o.taken + n
        worker := .before r (.markPoll ⟨paid, n, some e⟩) }
  | .short paid, .go =>
    some { o with
      track := if paid then o.track.returnPrepaid else o.track
      worker := .before r .sleep }
  | .markPoll pay, .clock now =>
    some { o with
      track := if o.track.IsPoll r.url then o.track.markPoll now else o.track
      worker := .trip r pay .markSent }
  | _, _ => none

/-- The round trip is over. -/
def ends (o : Order υ ν) (r : Request υ) (pay : Pay) (f : Fate υ) : Order υ ν :=
  { o with log := ⟨r, pay, f⟩ :: o.log, worker := .idle }

/-- One step of `roundTrip` after `before`, but for the handling of a `429`. -/
def trip (o : Order υ ν) (r : Request υ) (pay : Pay) :
    Trip υ → Input υ ν → Option (Order υ ν)
  | .markSent, .go =>
    some { o with
      track := o.track.markSent r.post r.url
      worker := .trip r pay (.check (o.track.sent r.post r.url)) }
  | .check sent, .go =>
    some { o with worker := .trip r pay (if o.track.done then .unmark sent else .send sent) }
  | .unmark sent, .go =>
    some { o with
      track := o.track.markAnswered sent
      worker := if pay.paid then .trip r pay .giveBack else .idle }
  | .giveBack, .go => some { o with track := o.track.returnPrepaid, worker := .idle }
  | .send sent, .go => some { o with worker := .trip r pay (.await sent) }
  | .await _, .fails => some (o.ends r pay .lost)
  | .await sent, .answer a =>
    some { o with
      worker := .trip r pay (if a.status = 429 then .limited sent a .setWait else .observe sent a) }
  | .observe sent a, .go =>
    if o.track.IsFinalize r.url then
      some { o with worker := .trip r pay (if a.Ok then .finalized sent a else .answered sent a) }
    else if a.status ≠ 201 ∨ a.location = none ∨ o.track.created = true then
      some { o with worker := .trip r pay (.answered sent a) }
    else some { o with worker := .trip r pay (.body sent a) }
  | .finalized sent a, .clock now =>
    some { o with track := o.track.markFinalized now, worker := .trip r pay (.answered sent a) }
  | .body sent a, .go =>
    some { o with
      worker := .trip r pay (match a.location, a.finalize with
        | some location, some finalize => .setOrder sent a location finalize
        | _, _ => .answered sent a) }
  | .body _ _, .fails => some (o.ends r pay .lost)
  | .setOrder sent a location finalize, .go =>
    some { o with
      track := o.track.setOrder location finalize
      worker := .trip r pay (.answered sent a) }
  | .answered sent a, .go =>
    some ({ o with track := o.track.markAnswered sent }.ends r pay (.answered a))
  | _, _ => none

/-- What the end of a step of `rateLimited` does to the round trip it is part of. -/
def handled (o : Order υ ν) (r : Request υ) (pay : Pay) (sent : SentRequest) (a : Answer υ) :
    Handled → Order υ ν
  | .next h => { o with worker := .trip r pay (.limited sent a h) }
  | .answered => { o with worker := .trip r pay (.answered sent a) }
  | .lost => o.ends r pay .lost

/-- One step of the goroutine of the order. -/
def work (cfg : Config) (clock : Nat) (o : Order υ ν) (i : Input υ ν) : Option (Order υ ν) :=
  match o.worker, i with
  | .idle, .request r => some { o with worker := .before r .check }
  | .idle, .finish ok => some { o with worker := .finished ok }
  | .before r b, i => o.before cfg clock r b i
  | .trip r pay p, i => o.trip r pay p i
  | _, _ => none

/-- The account is tried: a new track, and the goroutine starts. -/
def start (cfg : Config) (clock : Nat) (o : Order υ ν) (n : Nat) (mark : Option ν) : Order υ ν :=
  { o with
    track := Track.new.setPrepaid (prepayBucket cfg.account).1 n mark
    prepaid := n
    prepaidAt := clock
    worker := .idle
    chain := .run }

/-- What `settle` spends. -/
def spend (a : Account) (n : Subject) (ok : Bool) (out : OrderOutcome) : List Key :=
  (if ok || out.created then onCreate a n else []) ++
    (if ok || out.finalized then onSuccess a n else [])

/-- What it releases. -/
def release (a : Account) (n : Subject) (ok : Bool) (out : OrderOutcome) : List Key :=
  (if ok || out.created then [] else onCreate a n) ++
    (if ok || out.finalized then [] else onSuccess a n)

/-- Where `attempt` goes once the buckets are reserved, or could not be and the account is tried
anyway. -/
def reserved (a : Account) : Chain ν :=
  if 0 < (prepayBucket a).2 then .mark else .prepay none 0

/-- One step of `attempt` and `settle`, for an order of `n`. -/
def attempt (cfg : Config) (n : Subject) (clock : Nat) (o : Order υ ν) (i : ChainInput ν) :
    Option (Order υ ν) :=
  match o.chain, i with
  | .reserve, .granted | .reserve, .fails =>
    some { o with startedAt := clock, chain := reserved cfg.account }
  | .reserve, .refused => some { o with startedAt := clock, chain := .refused }
  | .mark, .waitState _ mark => some { o with chain := .prepay mark (prepayBucket cfg.account).2 }
  | .mark, .fails => some { o with chain := .prepay none 0 }
  | .prepay mark most, .prepaid k => if k ≤ most then some (o.start cfg clock k mark) else none
  | .prepay mark _, .fails => some (o.start cfg clock 0 mark)
  | .prepay _ _, .short => some { o with chain := .giveBack }
  | .giveBack, .go =>
    some { o with
      calls := (orderBuckets cfg.account n).map .released ++ o.calls
      chain := .skipped }
  | .run, .giveUp => some { o with chain := .abandoning }
  | .run, .result ok =>
    match o.worker with
    | .finished got => if ok = true → got = true then some { o with chain := .outcome ok } else none
    | _ => none
  | .abandoning, .go => some { o with track := o.track.abandon, chain := .outcome false }
  | .outcome ok, .go => some { o with chain := .abandon ok o.track.outcome }
  | .abandon ok out, .go =>
    some { o with
      track := o.track.abandon
      chain := .commit (spend cfg.account n ok out) (release cfg.account n ok out) }
  | .commit (b :: spend) release, .go =>
    some { o with calls := .committed b :: o.calls, chain := .commit spend release }
  | .commit [] release, .go =>
    some { o with calls := release.map .released ++ o.calls, chain := .drain }
  | .drain, .go =>
    some { o with
      track := o.track.drainPrepaid
      chain := if 0 < o.track.prepaid then .refundMark o.track.prepaid o.track.prepaidMark
        else .settled }
  | .refundMark left mark, .waitState _ current =>
    some { o with
      chain := if current ≠ none ∧ current ≠ mark then .settled else .refund left clock }
  | .refundMark _ _, .fails => some { o with chain := .settled }
  | .refund left readAt, .go =>
    some { o with
      refunded := o.refunded + left
      uses := ⟨o.prepaidAt, readAt⟩ :: o.uses
      chain := .settled }
  | .refund _ _, .fails => some { o with chain := .settled }
  | _, _ => none

end Order

end Tunneld.Acme

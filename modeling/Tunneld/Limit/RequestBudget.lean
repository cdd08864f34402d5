import Tunneld.Limit.BucketLedger

/-!
# The certificate authorities' request budgets

An authority also limits the requests an account may send.  `limit.TakeACME` takes one token of each
bucket a request counts against, `PrepayACME` takes the tokens of a whole order in advance, and
`RefundACME` gives back those the order did not need.  `ResyncACME` empties a bucket for as long as
the authority has asked for.  All four are sections under the authority's budget lock: read the
clock, read the levels (`HMGET`), decide, and write them back, each with an `HSET` and a `PEXPIRE`.

`step` is that system one command at a time, for the buckets `β` of one authority and any number of
callers `κ`, each of which makes one call after the other.  The lock is exclusive, as in
`Tunneld.Limit.AcmeBudget`: no section outlives its time to live.  A caller tries for the lock
`budgetLockTries` times and then gives up.

`State.log` is the ledger of each bucket: what every write took and left, and its clock reading.
-/

namespace Tunneld.RequestBudget

open Function Clock TokenBucket
open AcmeBudget (Hash parseBucket hset hpexpire bucketTTL budgetLockTTL)

/-- `budgetLockTries`. -/
def budgetLockTries : Nat := 100

/-- The request buckets of one authority. -/
structure Config (β : Type) where
  bucket : β → TokenBucket
  /-- A bucket holds at least one token. -/
  one_le_capacity : ∀ b, 1 ≤ (bucket b).capacity
  refill_pos : ∀ b, 0 < (bucket b).refill

/-- A call of the limiter. -/
inductive Op (β : Type)
  | take (bs : List β)
  | prepay (b : β) (n : Int)
  | refund (b : β) (n : Int)
  | resync (bs : List β) (retryAfter : Int)

/-- What a call returns. -/
inductive Answer
  /-- The tokens prepaid, and how long to wait if there were too few. -/
  | answered (n : Int) (wait : Int)
  /-- `ErrBudgetLockContended`. -/
  | contended
  deriving DecidableEq

/-- A level that is to be written. -/
structure Write (β : Type) where
  bucket : β
  level : Level
  /-- The tokens this takes. -/
  amount : ℚ

namespace Op

variable {β : Type}

/-- The buckets a call is about. -/
def buckets : Op β → List β
  | .take bs | .resync bs _ => bs
  | .prepay b _ | .refund b _ => [b]

/-- The buckets it reads. -/
def reads : Op β → List β
  | .take bs => bs
  | .prepay b _ | .refund b _ => [b]
  | .resync .. => []

/-- The call empties its buckets. -/
def resyncs : Op β → Bool
  | .resync .. => true
  | _ => false

end Op

variable {β κ : Type} [DecidableEq β] [DecidableEq κ] (cfg : Config β)

/-- The requests `PrepayACME` sets out to prepay. -/
def prepayable (b : β) (n : Int) : Int := min n ⌊(cfg.bucket b).capacity⌋

/-- The call returns without a look at the store. -/
def Idle : Op β → Prop
  | .take bs | .resync bs _ => bs = []
  | .prepay b n => prepayable cfg b n ≤ 0
  | .refund _ n => n ≤ 0

instance (op : Op β) : Decidable (Idle cfg op) := by
  unfold Idle; split <;> infer_instance

/-- One round of the loop of `TakeACME` that works out `wait`. -/
def longer (now : Int) (states : β → Level) (wait : Int) (b : β) : Int :=
  if (cfg.bucket b).tokensAt (states b) now < 1 then
    max (max wait ((cfg.bucket b).waitFor (states b) now 1)) millisecond
  else wait

/-- What a section does with the levels it has read: the writes, and the answer. -/
def outcome (now : Int) (states : β → Level) : Op β → List (Write β) × Answer
  | .take bs =>
    let wait := bs.foldl (longer cfg now states) 0
    if 0 < wait then ([], .answered 0 wait)
    else (bs.map fun b => ⟨b, (cfg.bucket b).spend (states b) now, 1⟩, .answered 0 0)
  | .prepay b n =>
    let n := prepayable cfg b n
    if (cfg.bucket b).tokensAt (states b) now < n then
      ([], .answered 0 (max ((cfg.bucket b).waitFor (states b) now n) millisecond))
    else ([⟨b, (cfg.bucket b).spendN (states b) now n, n⟩], .answered n 0)
  | .refund b n =>
    if now < (states b).since then ([], .answered 0 0)
    else
      let tokens := min (cfg.bucket b).capacity ((cfg.bucket b).tokensAt (states b) now + n)
      ([⟨b, ⟨tokens, now⟩, -n⟩], .answered 0 0)
  | .resync bs retryAfter =>
    (bs.map fun b => ⟨b, ⟨0, now + (retryAfter - (cfg.bucket b).refill)⟩, 0⟩, .answered 0 0)

/-- Where a caller stands.  A constructor that names a command is about to run it. -/
inductive Phase (β : Type)
  | idle
  /-- `SETNX` of the lock, after so many failed tries. -/
  | lock (op : Op β) (tries : Nat)
  /-- `now := l.now()`. -/
  | clock (op : Op β)
  /-- `HMGET` of the buckets in `todo`. -/
  | read (op : Op β) (now : Int) (states : β → Level) (todo : List β)
  /-- The `HSET` of `writeBucket` for the first write. -/
  | set (now : Int) (ws : List (Write β)) (answer : Answer)
  /-- The `PEXPIRE` of `writeBucket` for the write `w`. -/
  | expire (now : Int) (w : Write β) (ws : List (Write β)) (answer : Answer)
  | unlock (answer : Answer)
  | returned (answer : Answer)

/-- What a call that is over has returned. -/
def Phase.answer {β : Type} : Phase β → Option Answer
  | .returned answer => some answer
  | _ => none

/-- The whole system. -/
structure State (β κ : Type) where
  /-- The clock, in nanoseconds. -/
  now : Int
  /-- The hashes `acme-budget:{key}`. -/
  budget : β → Option Hash
  lock : Option κ
  lockedAt : Int
  phase : κ → Phase β
  /-- The writes to each bucket, newest first. -/
  log : β → List Entry

/-- What can happen next. -/
inductive Act (β κ : Type)
  | call (k : κ) (op : Op β)
  /-- The next command of its section, or the next try for the lock. -/
  | cmd (k : κ)
  | lapse (b : β)
  | tick (d : Nat)

namespace State

/-- A caller moves on. -/
def setPhase (s : State β κ) (k : κ) (ph : Phase β) : State β κ :=
  { s with phase := update s.phase k ph }

/-- A bucket's hash changes. -/
def setBudget (s : State β κ) (b : β) (h : Option Hash) : State β κ :=
  { s with budget := update s.budget b h }

/-- A write is entered in the ledger of its bucket. -/
def enter (s : State β κ) (b : β) (e : Entry) : State β κ :=
  { s with log := update s.log b (e :: s.log b) }

end State

/-- The next command of a caller. -/
def next (s : State β κ) (k : κ) : Option (State β κ) :=
  match s.phase k with
  | .lock op tries =>
    if s.lock = none then
      some { s.setPhase k (.clock op) with lock := some k, lockedAt := s.now }
    else if tries + 1 < budgetLockTries then some (s.setPhase k (.lock op (tries + 1)))
    else some (s.setPhase k (.returned .contended))
  | .clock op => some (s.setPhase k (.read op s.now (fun _ => ⟨0, 0⟩) op.reads))
  | .read op now states [] =>
    let (ws, answer) := outcome cfg now states op
    some (s.setPhase k (.set now ws answer))
  | .read op now states (b :: todo) =>
    let level := parseBucket (cfg.bucket b) (s.budget b) now
    some (s.setPhase k (.read op now (update states b level) todo))
  | .set _ [] answer => some (s.setPhase k (.unlock answer))
  | .set now (w :: ws) answer =>
    let s' := s.setBudget w.bucket (hset (s.budget w.bucket) w.level)
    some ((s'.enter w.bucket ⟨now, w.amount, w.level.tokens⟩).setPhase k
      (.expire now w ws answer))
  | .expire now w ws answer =>
    let ttl := formatMs (bucketTTL (cfg.bucket w.bucket) w.level now)
    some ((s.setBudget w.bucket (hpexpire (s.budget w.bucket) (unixMilli s.now) ttl)).setPhase k
      (.set now ws answer))
  | .unlock answer => some { s.setPhase k (.returned answer) with lock := none }
  | .idle | .returned _ => none

/-- The state after an action, if it is possible. -/
def step (s : State β κ) : Act β κ → Option (State β κ)
  | .call k op =>
    match s.phase k with
    | .idle | .returned _ =>
      -- the buckets of a request have different keys
      if op.buckets.Nodup then
        some (s.setPhase k (if Idle cfg op then .returned (.answered 0 0) else .lock op 0))
      else none
    | _ => none
  | .cmd k => next cfg s k
  | .lapse b =>
    (s.budget b).bind fun h => h.deadline.bind fun d =>
      if d < unixMilli s.now then some (s.setBudget b none) else none
  | .tick d =>
    -- a section is over before its lock runs out
    if s.lock = none ∨ s.now + d ≤ s.lockedAt + budgetLockTTL then
      some { s with now := s.now + d }
    else none

/-- The requests at one authority. -/
def system : Lts (State β κ) (Act β κ) :=
  ⟨⟨0, fun _ => none, none, 0, fun _ => .idle, fun _ => []⟩, step cfg⟩

end Tunneld.RequestBudget

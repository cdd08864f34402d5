import Tunneld.Lib.Lts
import Tunneld.Lib.SortedSet
import Tunneld.Lib.TokenBucket
import Mathlib.Data.List.ProdSigma

/-!
# The certificate authorities' budgets

An order at a certificate authority counts against several token buckets, shared by all nodes.
`limit.ReserveACME` sets one token of each bucket aside before the order starts, `CommitACME` spends
it once the authority has counted the order, and `ReleaseACME` gives it back.

A bucket is a hash `acme-budget:{key}` with the level at some instant; a missing hash is a full
bucket.  Reservations are members of the sorted sets `acme:inflight:{key}:{node}`, one set for each
node, scored with the deadline of the order, so that a node that dies stops counting.  Reserving
and committing are sections under one lock for each authority; releasing is a bare `ZREM`.

`step` is that system one command at a time, for the buckets `β` of one authority, the live nodes
`η` and the orders `μ`, each with a member name of its own.  An order reserves once; then it may
commit or release each of its buckets.  The lock is exclusive: no section outlives its time to
live, so time only passes inside a section while the lock lasts.
-/

namespace Tunneld.AcmeBudget

open Function Clock

/-! ## Buckets -/

/-- `limit.Rate`. -/
structure Rate where
  count : Int
  period : Int
  /-- How many are kept. -/
  burst : Int

/-- `Rate.Bucket`. -/
def Rate.bucket (r : Rate) : TokenBucket where
  capacity := r.burst
  refill := if 0 < r.count then Int.tdiv r.period r.count else r.period

/-- `budgetLockTTL`. -/
def budgetLockTTL : Int := 2 * second

/-- `budgetKeyMargin`. -/
def budgetKeyMargin : Int := 3600 * second

/-- `inflightKeyMargin`. -/
def inflightKeyMargin : Int := 60 * second

/-- The buckets of one authority and the nodes that order from it. -/
structure Config (β η μ : Type) where
  rate : β → Rate
  /-- `ParseRate` refuses a burst that is not positive. -/
  burst_pos : ∀ b, 0 < (rate b).burst
  live : List η
  /-- Every node that orders is live. -/
  live_all : ∀ n, n ∈ live
  node : μ → η

/-- The bucket of a key. -/
def Config.bucket {β η μ : Type} (cfg : Config β η μ) (b : β) : TokenBucket := (cfg.rate b).bucket

/-- The hash `acme-budget:{key}`. -/
structure Hash where
  t : ℚ
  /-- The field `at`, in milliseconds. -/
  atMs : Int
  /-- When the key runs out, in milliseconds. -/
  deadline : Option Int

/-- `parseBucket`: a missing hash is a full bucket. -/
def parseBucket (b : TokenBucket) (h : Option Hash) (now : Int) : TokenBucket.Level :=
  match h with
  | none => ⟨b.capacity, now⟩
  | some h => ⟨h.t, h.atMs * millisecond⟩

/-- The `HSET` of `writeBucket`. -/
def hset (h : Option Hash) (s : TokenBucket.Level) : Option Hash :=
  some ⟨s.tokens, unixMilli s.since, h.bind Hash.deadline⟩

/-- The time to live that `writeBucket` gives the hash: until the bucket is full again, and an
hour. -/
def bucketTTL (b : TokenBucket) (s : TokenBucket.Level) (now : Int) : Int :=
  duration ((b.capacity - min s.tokens b.capacity) * b.refill) + budgetKeyMargin +
    if now < s.since then s.since - now else 0

/-- The `PEXPIRE` of `writeBucket`, at the store's time `nowMs`. -/
def hpexpire (h : Option Hash) (nowMs ttl : Int) : Option Hash :=
  if ttl ≤ 0 then none else h.map fun h => { h with deadline := some (nowMs + ttl) }

/-! ## Orders -/

/-- What a `ReserveACME` has found out so far. -/
structure Reserve (β : Type) where
  bs : List β
  /-- The clock reading it works with. -/
  now : Int
  /-- The levels it has read. -/
  states : β → TokenBucket.Level
  /-- The reservations it has counted. -/
  held : β → Nat

namespace Reserve

variable {β : Type} [DecidableEq β]

/-- A level has been read. -/
def setLevel (r : Reserve β) (b : β) (level : TokenBucket.Level) : Reserve β :=
  { r with states := update r.states b level }

/-- A set has been counted. -/
def addHeld (r : Reserve β) (b : β) (count : Nat) : Reserve β :=
  { r with held := update r.held b (r.held b + count) }

end Reserve

/-- Where an order stands.  A constructor that names a command is about to run it. -/
inductive Phase (β η : Type)
  | idle
  /-- `ReserveACME` waits for the lock. -/
  | lock (bs : List β)
  /-- `now := l.now()`. -/
  | clock (bs : List β)
  /-- `HMGET` of the buckets in `todo`. -/
  | read (r : Reserve β) (todo : List β)
  /-- `ZREMRANGEBYSCORE` of the first set in `todo`. -/
  | prune (r : Reserve β) (todo : List (β × η))
  /-- `ZCARD` of the set. -/
  | card (r : Reserve β) (b : β) (n : η) (todo : List (β × η))
  /-- Is every bucket good for one more? -/
  | check (r : Reserve β)
  /-- `ZADD` for the first bucket in `todo`. -/
  | zadd (r : Reserve β) (todo : List β)
  | expireNX (r : Reserve β) (b : β) (todo : List β)
  | expireGT (r : Reserve β) (b : β) (todo : List β)
  /-- Release of the lock; a positive `wait` is a refusal. -/
  | unlock (wait : Int)
  /-- `ReserveACME` returned false and how long to wait. -/
  | refused (wait : Int)
  /-- `ReserveACME` returned true. -/
  | reserved
  /-- `CommitACME` waits for the lock. -/
  | commitLock (b : β)
  /-- `now := l.now()`. -/
  | commitClock (b : β)
  /-- `HMGET`. -/
  | commitRead (b : β) (now : Int)
  /-- The `HSET` of `writeBucket`. -/
  | commitSet (b : β) (now : Int) (s : TokenBucket.Level)
  /-- The `PEXPIRE` of `writeBucket`. -/
  | commitExpire (b : β) (now : Int) (s : TokenBucket.Level)
  /-- `ZREM`. -/
  | commitRem (b : β)
  | commitUnlock

/-- What has become of an order's token of a bucket. -/
inductive Token
  | none
  | reserved
  | spent
  | released
  deriving DecidableEq

/-- The whole system. -/
structure State (β η μ : Type) where
  /-- The clock, in nanoseconds. -/
  now : Int
  /-- The hashes `acme-budget:{key}`. -/
  budget : β → Option Hash
  /-- The sets `acme:inflight:{key}:{node}`. -/
  inflight : β → η → SortedSet μ
  lock : Option μ
  lockedAt : Int
  phase : μ → Phase β η
  /-- What has become of each order's tokens. -/
  token : μ → β → Token
  /-- The deadline each order reserved with. -/
  deadline : μ → Int

/-- What can happen next. -/
inductive Act (β η μ : Type)
  | reserve (m : μ) (bs : List β) (deadline : Int)
  | commit (m : μ) (b : β)
  /-- The next command of the section an order is in or waits for. -/
  | cmd (m : μ)
  /-- The `ZREM` of a `ReleaseACME` for one of its buckets. -/
  | release (m : μ) (b : β)
  | lapseBudget (b : β)
  | lapseInflight (b : β) (n : η)
  | tick (d : Nat)

variable {β η μ : Type} [DecidableEq β] [DecidableEq η] [DecidableEq μ] (cfg : Config β η μ)

namespace State

/-- An order moves on. -/
def setPhase (s : State β η μ) (m : μ) (ph : Phase β η) : State β η μ :=
  { s with phase := update s.phase m ph }

/-- A bucket's hash changes. -/
def setBudget (s : State β η μ) (b : β) (h : Option Hash) : State β η μ :=
  { s with budget := update s.budget b h }

/-- A set of reservations changes. -/
def setInflight (s : State β η μ) (b : β) (n : η) (z : SortedSet μ) : State β η μ :=
  { s with inflight := update s.inflight b (update (s.inflight b) n z) }

/-- An order's token of a bucket changes. -/
def setToken (s : State β η μ) (m : μ) (b : β) (t : Token) : State β η μ :=
  { s with token := update s.token m (update (s.token m) b t) }

end State

/-- The tokens of a bucket that `ReserveACME` finds free. -/
def spare (r : Reserve β) (b : β) : ℚ := (cfg.bucket b).tokensAt (r.states b) r.now - r.held b

/-- One round of the loop that works out `wait`. -/
def longer (r : Reserve β) (wait : Int) (b : β) : Int :=
  if spare cfg r b < 1 then
    max (max wait ((cfg.bucket b).waitFor (r.states b) r.now (r.held b + 1))) second
  else wait

/-- The `wait` of `ReserveACME`: positive as soon as one bucket is short. -/
def shortage (r : Reserve β) : Int := r.bs.foldl (longer cfg r) 0

/-- The time to live of the sets a reservation is written to, in milliseconds. -/
def inflightTTL (deadline now : Int) : Int := formatSec (deadline - now + inflightKeyMargin) * 1000

/-- The next command of an order's section. -/
def next (s : State β η μ) (m : μ) : Option (State β η μ) :=
  let n := cfg.node m
  match s.phase m with
  | .lock bs =>
    if s.lock = none then
      some { s.setPhase m (.clock bs) with lock := some m, lockedAt := s.now }
    else none
  | .clock bs =>
    let r : Reserve β := ⟨bs, s.now, fun _ => ⟨0, 0⟩, fun _ => 0⟩
    some (s.setPhase m (.read r bs))
  | .read r [] => some (s.setPhase m (.prune r (r.bs.product cfg.live)))
  | .read r (b :: todo) =>
    some (s.setPhase m (.read (r.setLevel b (parseBucket (cfg.bucket b) (s.budget b) r.now)) todo))
  | .prune r [] => some (s.setPhase m (.check r))
  | .prune r ((b, n) :: todo) =>
    let z := (s.inflight b n).zremrangebyscore (unixMilli r.now)
    some ((s.setInflight b n z).setPhase m (.card r b n todo))
  | .card r b n todo =>
    some (s.setPhase m (.prune (r.addHeld b (s.inflight b n).zcard) todo))
  | .check r =>
    if 0 < shortage cfg r then some (s.setPhase m (.unlock (shortage cfg r)))
    else some (s.setPhase m (.zadd r r.bs))
  | .zadd _ [] => some (s.setPhase m (.unlock 0))
  | .zadd r (b :: todo) =>
    let z := (s.inflight b n).zadd m (unixMilli (s.deadline m))
    some (((s.setInflight b n z).setToken m b .reserved).setPhase m (.expireNX r b todo))
  | .expireNX r b todo =>
    let z := (s.inflight b n).expireNX (unixMilli s.now) (inflightTTL (s.deadline m) r.now)
    some ((s.setInflight b n z).setPhase m (.expireGT r b todo))
  | .expireGT r b todo =>
    let z := (s.inflight b n).expireGT (unixMilli s.now) (inflightTTL (s.deadline m) r.now)
    some ((s.setInflight b n z).setPhase m (.zadd r todo))
  | .unlock wait =>
    some { s.setPhase m (if 0 < wait then .refused wait else .reserved) with lock := none }
  | .commitLock b =>
    if s.lock = none then
      some { s.setPhase m (.commitClock b) with lock := some m, lockedAt := s.now }
    else none
  | .commitClock b => some (s.setPhase m (.commitRead b s.now))
  | .commitRead b now =>
    some (s.setPhase m (.commitSet b now (parseBucket (cfg.bucket b) (s.budget b) now)))
  | .commitSet b now level =>
    let spent := (cfg.bucket b).spend level now
    some (((s.setBudget b (hset (s.budget b) spent)).setToken m b .spent).setPhase m
      (.commitExpire b now spent))
  | .commitExpire b now level =>
    let ttl := formatMs (bucketTTL (cfg.bucket b) level now)
    some ((s.setBudget b (hpexpire (s.budget b) (unixMilli s.now) ttl)).setPhase m (.commitRem b))
  | .commitRem b =>
    some ((s.setInflight b n ((s.inflight b n).zrem m)).setPhase m .commitUnlock)
  | .commitUnlock => some { s.setPhase m .reserved with lock := none }
  | .idle | .refused _ | .reserved => none

/-- The state after an action, if it is possible. -/
def step (s : State β η μ) : Act β η μ → Option (State β η μ)
  | .reserve m bs deadline =>
    match s.phase m with
    | .idle =>
      if bs.Nodup then
        let s' := { s with deadline := update s.deadline m deadline }
        some (s'.setPhase m (if bs = [] then .reserved else .lock bs))
      else none
    | _ => none
  | .commit m b =>
    match s.phase m, s.token m b with
    | .reserved, .reserved => some (s.setPhase m (.commitLock b))
    | _, _ => none
  | .cmd m => next cfg s m
  | .release m b =>
    match s.phase m, s.token m b with
    | .reserved, .reserved =>
      let n := cfg.node m
      some ((s.setInflight b n ((s.inflight b n).zrem m)).setToken m b .released)
    | _, _ => none
  | .lapseBudget b =>
    (s.budget b).bind fun h => h.deadline.bind fun d =>
      if d < unixMilli s.now then some (s.setBudget b none) else none
  | .lapseInflight b n =>
    if (s.inflight b n).Lapsed (unixMilli s.now) then some (s.setInflight b n .empty) else none
  | .tick d =>
    -- a section is over before its lock runs out
    if s.lock = none ∨ s.now + d ≤ s.lockedAt + budgetLockTTL then
      some { s with now := s.now + d }
    else none

section Cases

variable (s : State β η μ)

/-- The commands of a section, case by case. -/
inductive Next (m : μ) : State β η μ → Prop
  | lock {bs} (hp : s.phase m = .lock bs) (hl : s.lock = none) :
      Next m { s.setPhase m (.clock bs) with lock := some m, lockedAt := s.now }
  | clock {bs} (hp : s.phase m = .clock bs) :
      Next m (s.setPhase m (.read ⟨bs, s.now, fun _ => ⟨0, 0⟩, fun _ => 0⟩ bs))
  | startCount {r} (hp : s.phase m = .read r []) :
      Next m (s.setPhase m (.prune r (r.bs.product cfg.live)))
  | read {r b todo} (hp : s.phase m = .read r (b :: todo)) :
      Next m (s.setPhase m
        (.read (r.setLevel b (parseBucket (cfg.bucket b) (s.budget b) r.now)) todo))
  | startCheck {r} (hp : s.phase m = .prune r []) : Next m (s.setPhase m (.check r))
  | prune {r b n todo} (hp : s.phase m = .prune r ((b, n) :: todo)) :
      Next m ((s.setInflight b n ((s.inflight b n).zremrangebyscore (unixMilli r.now))).setPhase m
        (.card r b n todo))
  | count {r b n todo} (hp : s.phase m = .card r b n todo) :
      Next m (s.setPhase m (.prune (r.addHeld b (s.inflight b n).zcard) todo))
  | refuse {r} (hp : s.phase m = .check r) (hshort : 0 < shortage cfg r) :
      Next m (s.setPhase m (.unlock (shortage cfg r)))
  | grant {r} (hp : s.phase m = .check r) (hroom : ¬ 0 < shortage cfg r) :
      Next m (s.setPhase m (.zadd r r.bs))
  | written {r} (hp : s.phase m = .zadd r []) : Next m (s.setPhase m (.unlock 0))
  | zadd {r b todo} (hp : s.phase m = .zadd r (b :: todo)) :
      Next m (((s.setInflight b (cfg.node m) ((s.inflight b (cfg.node m)).zadd m
        (unixMilli (s.deadline m)))).setToken m b .reserved).setPhase m (.expireNX r b todo))
  | expireNX {r b todo} (hp : s.phase m = .expireNX r b todo) :
      Next m ((s.setInflight b (cfg.node m) ((s.inflight b (cfg.node m)).expireNX (unixMilli s.now)
        (inflightTTL (s.deadline m) r.now))).setPhase m (.expireGT r b todo))
  | expireGT {r b todo} (hp : s.phase m = .expireGT r b todo) :
      Next m ((s.setInflight b (cfg.node m) ((s.inflight b (cfg.node m)).expireGT (unixMilli s.now)
        (inflightTTL (s.deadline m) r.now))).setPhase m (.zadd r todo))
  | unlock {wait} (hp : s.phase m = .unlock wait) :
      Next m { s.setPhase m (if 0 < wait then .refused wait else .reserved) with lock := none }
  | commitLock {b} (hp : s.phase m = .commitLock b) (hl : s.lock = none) :
      Next m { s.setPhase m (.commitClock b) with lock := some m, lockedAt := s.now }
  | commitClock {b} (hp : s.phase m = .commitClock b) : Next m (s.setPhase m (.commitRead b s.now))
  | commitRead {b now} (hp : s.phase m = .commitRead b now) :
      Next m (s.setPhase m (.commitSet b now (parseBucket (cfg.bucket b) (s.budget b) now)))
  | commitSet {b now level} (hp : s.phase m = .commitSet b now level) :
      Next m (((s.setBudget b (hset (s.budget b) ((cfg.bucket b).spend level now))).setToken m b
        .spent).setPhase m (.commitExpire b now ((cfg.bucket b).spend level now)))
  | commitExpire {b now level} (hp : s.phase m = .commitExpire b now level) :
      Next m ((s.setBudget b (hpexpire (s.budget b) (unixMilli s.now)
        (formatMs (bucketTTL (cfg.bucket b) level now)))).setPhase m (.commitRem b))
  | commitRem {b} (hp : s.phase m = .commitRem b) :
      Next m ((s.setInflight b (cfg.node m) ((s.inflight b (cfg.node m)).zrem m)).setPhase m
        .commitUnlock)
  | commitUnlock (hp : s.phase m = .commitUnlock) :
      Next m { s.setPhase m .reserved with lock := none }

/-- The actions, case by case. -/
inductive Step : Act β η μ → State β η μ → Prop
  | reserve {m bs deadline} (hp : s.phase m = .idle) (hbs : bs.Nodup) :
      Step (.reserve m bs deadline) ({ s with deadline := update s.deadline m deadline }.setPhase m
        (if bs = [] then .reserved else .lock bs))
  | commit {m b} (hp : s.phase m = .reserved) (ht : s.token m b = .reserved) :
      Step (.commit m b) (s.setPhase m (.commitLock b))
  | cmd {m s'} (hn : Next cfg s m s') : Step (.cmd m) s'
  | release {m b} (hp : s.phase m = .reserved) (ht : s.token m b = .reserved) :
      Step (.release m b) ((s.setInflight b (cfg.node m)
        ((s.inflight b (cfg.node m)).zrem m)).setToken m b .released)
  | lapseBudget {b h d} (hh : s.budget b = some h) (hd : h.deadline = some d)
      (hout : d < unixMilli s.now) : Step (.lapseBudget b) (s.setBudget b none)
  | lapseInflight {b n} (hl : (s.inflight b n).Lapsed (unixMilli s.now)) :
      Step (.lapseInflight b n) (s.setInflight b n .empty)
  | tick {d : Nat} (hd : s.lock = none ∨ s.now + d ≤ s.lockedAt + budgetLockTTL) :
      Step (.tick d) { s with now := s.now + d }

end Cases

section Cases

variable {cfg} {s s' : State β η μ}

theorem next_cases {m : μ} (hs : next cfg s m = some s') : Next cfg s m s' := by
  revert hs
  fun_cases next cfg s m <;> rintro ⟨⟩
  all_goals constructor <;> assumption

theorem step_cases {a : Act β η μ} (hs : step cfg s a = some s') : Step cfg s a s' := by
  revert hs
  fun_cases step cfg s a <;> first | rintro ⟨⟩ | intro hs
  all_goals try first | (constructor <;> assumption) | exact .cmd (next_cases hs)
  -- what is left is a hash that runs out
  obtain ⟨h, hh, hs⟩ := Option.bind_eq_some_iff.1 hs
  obtain ⟨d, hd, hs⟩ := Option.bind_eq_some_iff.1 hs
  split at hs <;> cases hs
  exact .lapseBudget hh hd ‹_›

end Cases

/-- The orders at one authority. -/
def system : Lts (State β η μ) (Act β η μ) :=
  ⟨⟨0, fun _ => none, fun _ _ => .empty, none, 0, fun _ => .idle, fun _ _ => .none, fun _ => 0⟩,
    step cfg⟩

namespace State

/-- The refilled token count of a bucket. -/
def tokens (s : State β η μ) (b : β) : ℚ :=
  (cfg.bucket b).tokensAt (parseBucket (cfg.bucket b) (s.budget b) s.now) s.now

/-- The order's reservation has not expired, counted in milliseconds as the store does. -/
def Unexpired (s : State β η μ) (m : μ) : Prop := unixMilli s.now < unixMilli (s.deadline m)

/-- The order has a live reservation of the bucket: set aside, not expired, and neither spent nor
given back. -/
def Live (s : State β η μ) (m : μ) (b : β) : Prop := s.token m b = .reserved ∧ s.Unexpired m

end State

end Tunneld.AcmeBudget

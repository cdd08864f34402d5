import Tunneld.Acme.Prepaid

/-!
# The pace of the requests of an order

`before` holds a request back until the account may send it.  It waits while the account waits,
keeps polls of a finalized order apart, and pays for the request: with a request that is prepaid,
for the bucket it was prepaid from, and with a take for the others.  If the take is refused, the
prepaid request goes back, and it all starts again after a pause.

What it did for a request is not in the state, so it is recorded (`Event`), and what is asked of a
request that is let through is asked of the record: the wait state was read after the last pause and
said that the account does not wait; if the request polls the order, the clock was read when a poll
was due; and every bucket that the request counts against was charged once.

## Main results

* `Paced.work`: every step of the goroutine of an order leaves the record as it should be;
* `let_through_paced`: what the record says of a request that is let through.
-/

namespace Tunneld.Acme

/-! ## The record -/

/-- What `before` does for a request. -/
inductive Event
  /-- It reads the wait state, and how long the account has to wait. -/
  | read (cool : Int)
  | pause
  /-- It reads the clock, to see whether a poll is due. -/
  | checked (now : Int)
  /-- It uses a request that was prepaid from this bucket. -/
  | used (key : Option Key)
  /-- It gives it back. -/
  | gaveBack (key : Option Key)
  /-- A take of these buckets is granted. -/
  | took (bs : List Key)
  | refused (bs : List Key)
  deriving DecidableEq

namespace Event

/-- What the last read of the wait state said, if no pause came after it. -/
def lastRead : List Event → Option Int
  | [] | .pause :: _ => none
  | .read cool :: _ => some cool
  | .checked _ :: l | .used _ :: l | .gaveBack _ :: l | .took _ :: l | .refused _ :: l => lastRead l

/-- What the clock said at the last check. -/
def lastChecked : List Event → Option Int
  | [] => none
  | .checked now :: _ => some now
  | .read _ :: l | .pause :: l | .used _ :: l | .gaveBack _ :: l | .took _ :: l
  | .refused _ :: l => lastChecked l

/-- How often a bucket was charged by the prepaid balance: the uses that were not given back. -/
def prepaidOf (b : Key) : List Event → Int
  | [] => 0
  | .used key :: l => prepaidOf b l + if key = some b then 1 else 0
  | .gaveBack key :: l => prepaidOf b l - if key = some b then 1 else 0
  | .read _ :: l | .pause :: l | .checked _ :: l | .took _ :: l | .refused _ :: l => prepaidOf b l

/-- The takes that were granted. -/
def grants : List Event → List (List Key)
  | [] => []
  | .took bs :: l => bs :: grants l
  | .read _ :: l | .pause :: l | .checked _ :: l | .used _ :: l | .gaveBack _ :: l
  | .refused _ :: l => grants l

/-- How often a bucket was charged. -/
def charged (b : Key) (l : List Event) : Int := prepaidOf b l + (grants l).flatten.count b

end Event

open Event

variable {ο η υ ν : Type} [DecidableEq ο] [DecidableEq η] [DecidableEq υ] [DecidableEq ν]

/-- What a step of the goroutine of an order adds to the record.  The record begins anew with every
request. -/
def Order.note (cfg : Config) (o : Order υ ν) (i : Input υ ν) (l : List Event) : List Event :=
  match o.worker, i with
  | .idle, .request _ => []
  | .before _ .waitState, .waitState cool _ => .read cool :: l
  | .before r (.loop w), .clock now =>
    if 0 < w.cool then .pause :: l
    else if o.track.IsPoll r.url then
      if 0 < o.track.pollDue cfg.firstPoll cfg.pollEvery - now then .pause :: .checked now :: l
      else .checked now :: l
    else l
  | .before _ (.use _), .go => if 0 < o.track.prepaid then .used o.track.prepaidKey :: l else l
  | .before _ (.take _ bs), .took wait =>
    if bs ≠ [] ∧ 0 < wait then .refused bs :: l else .took bs :: l
  | .before _ (.take _ bs), .takeFails (.timedOut true) => .took bs :: l
  | .before _ (.short paid), .go =>
    if paid then .pause :: .gaveBack o.track.prepaidKey :: l else .pause :: l
  | _, _ => l

/-- The account with a record for every order. -/
def paced (cfg : Setup ο) : Lts (State ο η υ ν × (ο → List Event)) (Act ο η υ ν) :=
  (system cfg).recording (fun _ => []) fun s a _ l =>
    match a with
    | .work k i => Function.update l k ((s.orders k).note cfg.toConfig i (l k))
    | _ => l

/-- The goroutine reads the wait state next. -/
def Worker.readsWait : Worker υ ν → Bool
  | .before _ .waitState => true
  | _ => false

/-- No read of the wait state and no take fails. -/
def ControlWorks (s : State ο η υ ν) : Act ο η υ ν → Prop
  | .work _ (.takeFails _) => False
  | .work k .fails => (s.orders k).worker.readsWait = false
  | _ => True

instance (s : State ο η υ ν) (a : Act ο η υ ν) : Decidable (ControlWorks s a) := by
  unfold ControlWorks
  rcases a with ⟨_, _ | _⟩ | _ <;> infer_instance

/-! ## What the record says in each phase -/

namespace Order

/-- Nothing is charged. -/
def Clear (l : List Event) : Prop := (∀ b, prepaidOf b l = 0) ∧ grants l = []

/-- The request may go as far as the account and the polls are concerned. -/
structure Ready (cfg : Config) (t : Track υ ν) (r : Request υ) (l : List Event) : Prop where
  read : ∃ cool ≤ 0, lastRead l = some cool
  poll : t.IsPoll r.url →
    ∃ now, lastChecked l = some now ∧ t.pollDue cfg.firstPoll cfg.pollEvery ≤ now

/-- The prepaid request at hand is charged, and nothing is taken. -/
def Holds (t : Track υ ν) (paid : Bool) (l : List Event) : Prop :=
  (∀ b, prepaidOf b l = if paid = true ∧ t.prepaidKey = some b then 1 else 0) ∧ grants l = []

/-- What the record of a request says, by where `before` stands with it. -/
def Stands (cfg : Config) (t : Track υ ν) (r : Request υ) (l : List Event) : Before ν → Prop
  | .check | .waitState | .sleep => Clear l
  | .loop w => Clear l ∧ lastRead l = some w.cool
  | .drop _ | .use _ => Clear l ∧ Ready cfg t r l
  | .take paid bs =>
    Holds t paid l ∧ Ready cfg t r l ∧ bs = charge cfg.account r t.prepaidKey paid
  | .short paid => Holds t paid l
  | .markPoll _ => Ready cfg t r l ∧ ∃ paid : Bool,
      (∀ b, prepaidOf b l = if paid = true ∧ t.prepaidKey = some b then 1 else 0) ∧
        grants l = [charge cfg.account r t.prepaidKey paid]

/-- The record of an order is as its goroutine stands. -/
def Paced (cfg : Config) (o : Order υ ν) (l : List Event) : Prop :=
  ∀ r b, o.worker = .before r b → Stands cfg o.track r l b

variable {cfg : Config} {clock : Nat} {o o' : Order υ ν} {r : Request υ} {b : Before ν}
  {i : Input υ ν} {l : List Event} {t t' : Track υ ν}

/-- What the record is compared with stays the same. -/
structure SamePace (t t' : Track υ ν) : Prop where
  key : t'.prepaidKey = t.prepaidKey
  order : t'.orderURL = t.orderURL
  finalized : t'.finalizedAt = t.finalizedAt
  polled : t'.lastPoll = t.lastPoll

omit [DecidableEq υ] [DecidableEq ν] in
theorem SamePace.ready (h : SamePace t t') (hr : Ready cfg t r l) : Ready cfg t' r l := by
  refine ⟨hr.read, fun hp => ?_⟩
  rw [Track.IsPoll, h.finalized, h.order] at hp
  obtain ⟨now, hnow, hdue⟩ := hr.poll hp
  refine ⟨now, hnow, ?_⟩
  rwa [Track.pollDue, h.finalized, h.polled]

omit [DecidableEq υ] [DecidableEq ν] in
theorem SamePace.stands (h : SamePace t t') (hs : Stands cfg t r l b) :
    Stands cfg t' r l b := by
  cases b with
  | check | waitState | sleep | loop => exact hs
  | drop | use => exact ⟨hs.1, h.ready hs.2⟩
  | take paid bs =>
    obtain ⟨hh, hr, hbs⟩ := hs
    exact ⟨by rwa [Holds, h.key], h.ready hr, by rwa [h.key]⟩
  | short paid => exact (by rwa [Stands, Holds, h.key])
  | markPoll pay =>
    obtain ⟨hr, hpaid⟩ := hs
    exact ⟨h.ready hr, by rwa [h.key]⟩

omit [DecidableEq υ] in
theorem SamePace.dropPrepaid (t : Track υ ν) (mark : Option ν) (known : Bool) :
    SamePace t (t.dropPrepaid mark known) := by
  rw [Track.dropPrepaid_eq]
  exact ⟨rfl, rfl, rfl, rfl⟩

/-- A step of `before` leaves the record as it should be. -/
theorem Stands.before (hs : Stands cfg o.track r l b) (hw : o.worker = .before r b)
    (hfails : b = .waitState → i ≠ .fails) (htake : ∀ e, i ≠ .takeFails e)
    (h : o.before cfg clock r b i = some o') : Paced cfg o' (o.note cfg i l) := by
  cases befores_of_before h with
  | refuses | quits | polls | passes => rintro r' b' ⟨⟩
  | enters =>
    rintro r' b' ⟨⟩
    have hnote : o.note cfg .go l = l := by simp [note, hw]
    rw [hnote]
    exact hs
  | wakes =>
    rintro r' b' ⟨⟩
    have hnote : o.note cfg .wake l = l := by simp [note, hw]
    rw [hnote]
    exact hs
  | readsWait =>
    rintro r' b' ⟨⟩
    simpa [note, hw, Stands, Clear, prepaidOf, grants, lastRead] using hs
  | missesWait => exact absurd rfl (hfails rfl)
  | @pauses w now hwait =>
    rintro r' b' ⟨⟩
    have hnote : o.note cfg (.clock now) l = .pause :: l ∨
        o.note cfg (.clock now) l = .pause :: .checked now :: l := by
      simp only [note, hw]
      split
      · exact .inl rfl
      · rename_i hcool
        obtain ⟨hpoll, hdue⟩ := hwait.resolve_left hcool
        rw [if_pos hpoll, if_pos hdue]
        exact .inr rfl
    rcases hnote with hnote | hnote <;> rw [hnote] <;> exact hs.1
  | @goesOn w now hcool hpoll =>
    rintro r' b' ⟨⟩
    obtain ⟨hclear, hread⟩ := hs
    by_cases hp : o.track.IsPoll r.url
    · have hdue := hpoll hp
      have hnote : o.note cfg (.clock now) l = .checked now :: l := by
        simp only [note, hw]
        rw [if_neg (not_lt.2 hcool), if_pos hp, if_neg (by omega)]
      rw [hnote]
      exact ⟨hclear, ⟨w.cool, hcool, hread⟩, fun _ => ⟨now, rfl, hdue⟩⟩
    · have hnote : o.note cfg (.clock now) l = l := by
        simp only [note, hw]
        rw [if_neg (not_lt.2 hcool), if_neg hp]
      rw [hnote]
      exact ⟨hclear, ⟨w.cool, hcool, hread⟩, fun h => absurd h hp⟩
  | drops =>
    rintro r' b' ⟨⟩
    have hnote : o.note cfg .go l = l := by simp [note, hw]
    rw [hnote]
    exact (SamePace.dropPrepaid ..).stands (b := .use _) hs
  | uses hpos =>
    rintro r' b' ⟨⟩
    obtain ⟨⟨hzero, hgrants⟩, hready⟩ := hs
    have hnote : o.note cfg .go l = .used o.track.prepaidKey :: l := by simp [note, hw, hpos]
    rw [hnote]
    refine ⟨⟨fun b => ?_, hgrants⟩, ⟨hready.read, hready.poll⟩, rfl⟩
    simp [prepaidOf, hzero, Track.usePrepaid]
  | hasNone hzero =>
    rintro r' b' ⟨⟩
    obtain ⟨⟨hnone, hgrants⟩, hready⟩ := hs
    have hnote : o.note cfg .go l = l := by simp [note, hw, hzero]
    rw [hnote]
    exact ⟨⟨fun b => by simp [hnone], hgrants⟩, hready, rfl⟩
  | @isShort paid bs wait hwait =>
    rintro r' b' ⟨⟩
    have hnote : o.note cfg (.took wait) l = .refused bs :: l := by
      simp only [note, hw]
      exact if_pos hwait
    rw [hnote]
    exact hs.1
  | @takes paid bs wait hwait =>
    rintro r' b' ⟨⟩
    obtain ⟨⟨hpaid, hgrants⟩, hready, hbs⟩ := hs
    have hnote : o.note cfg (.took wait) l = .took bs :: l := by
      simp only [note, hw]
      exact if_neg hwait
    rw [hnote]
    refine ⟨⟨hready.read, hready.poll⟩, paid, hpaid, ?_⟩
    rw [grants, hgrants, hbs]
  | takesBlindly => exact absurd rfl (htake _)
  | returnsPrepaid =>
    rintro r' b' ⟨⟩
    obtain ⟨hpaid, hgrants⟩ := hs
    have hnote : o.note cfg .go l = .pause :: .gaveBack o.track.prepaidKey :: l := by
      simp [note, hw]
    rw [hnote]
    exact ⟨fun b => by simp [prepaidOf, hpaid], hgrants⟩
  | returnsNothing =>
    rintro r' b' ⟨⟩
    obtain ⟨hpaid, hgrants⟩ := hs
    have hnote : o.note cfg .go l = .pause :: l := by simp [note, hw]
    rw [hnote]
    exact ⟨fun b => by simpa [prepaidOf] using hpaid b, hgrants⟩

theorem Paced.work (hp : Paced cfg o l)
    (hfails : i = .fails → o.worker.readsWait = false) (htake : ∀ e, i ≠ .takeFails e)
    (h : o.work cfg clock i = some o') : Paced cfg o' (o.note cfg i l) := by
  unfold Order.work at h
  split at h
  · -- a new request
    rename_i r hw
    cases h
    have hnote : o.note cfg (.request r) l = [] := by simp [note, hw]
    rw [hnote]
    rintro r b ⟨⟩
    exact ⟨fun _ => rfl, rfl⟩
  · cases h
    rintro r b ⟨⟩
  · rename_i r b hw
    refine (hp r b hw).before hw (fun hb hi => ?_) htake h
    have := hfails hi
    rw [hw, hb] at this
    cases this
  · rename_i r pay p hw
    intro r' b' hw'
    cases tripStep_of_trip hw h <;> cases hw'
  · cases h

omit [DecidableEq υ] [DecidableEq ν] in
theorem Paced.chainStep {n : Subject} {j : ChainInput ν} (hp : Paced cfg o l)
    (h : ChainStep cfg n clock o j o') : Paced cfg o' l := by
  have hsame : o'.worker = .idle ∨ o'.worker = o.worker ∧ SamePace o.track o'.track := by
    cases h with
    | starts => exact .inl rfl
    | begins | readsMark | isShort | givesBack | givesUp | returns | abandons | readsOutcome
    | settles | commits | releases | drains | drainsNothing | findsMark | keeps | refunds =>
      exact .inr ⟨rfl, rfl, rfl, rfl, rfl⟩
  intro r b hw
  rcases hsame with hidle | ⟨hworker, htrack⟩
  · rw [hidle] at hw
    cases hw
  · exact htrack.stands (hp r b (hworker ▸ hw))

omit [DecidableEq υ] [DecidableEq ν] in
theorem Paced.handled {pay : Pay} {sent : SentRequest} {a : Answer υ} (res : Handled) :
    Paced cfg (o.handled r pay sent a res) l := by
  cases res <;> rintro r' b ⟨⟩

/-- Only the last step of `before` lets a request through. -/
theorem markPoll_of_trip {r' : Request υ} {pay : Pay} {p : Trip υ}
    (h : o.before cfg clock r b i = some o') (hw : o'.worker = .trip r' pay p) :
    ∃ pay', b = .markPoll pay' := by
  cases befores_of_before h with
  | polls | passes => exact ⟨_, rfl⟩
  | refuses | enters | readsWait | missesWait | pauses | goesOn | wakes | quits | drops | uses
  | hasNone | isShort | takes | takesBlindly | returnsPrepaid | returnsNothing => cases hw

end Order

/-! ## Every run -/

variable {cfg : Setup ο} {s t : State ο η υ ν × (ο → List Event)}

theorem paced_of_reach (h : (paced cfg).Reach (fun s a => ControlWorks s.1 a) s) (k : ο) :
    Order.Paced cfg.toConfig (s.1.orders k) (s.2 k) := by
  refine h.invariant (P := fun s => Order.Paced cfg.toConfig (s.1.orders k) (s.2 k))
    (fun r b hw => by cases hw) fun s a t _ hp hg hs => ?_
  obtain ⟨hstep, hnote⟩ := Lts.recording_step hs
  by_cases hmine : ∃ i, a = .work k i
  · obtain ⟨i, rfl⟩ := hmine
    have hwork : (s.1.orders k).work cfg.toConfig s.1.clock i = some (t.1.orders k) := by
      obtain ⟨-, hmap⟩ := Option.ite_none_right_eq_some.1 hstep
      obtain ⟨o, ho, ht⟩ := Option.map_eq_some_iff.1 hmap
      simp [← ht, State.put, ho]
    rw [hnote]
    simp only [Function.update_self]
    refine hp.work (fun hi => ?_) (fun e hi => ?_) hwork
    · rw [hi] at hg
      exact hg
    · rw [hi] at hg
      exact hg
  · have hrec : t.2 k = s.2 k := by
      rw [hnote]
      cases a with
      | work j i =>
        have hne : k ≠ j := fun hkj => hmine ⟨i, by rw [hkj]⟩
        exact Function.update_of_ne hne ..
      | chain | handle | limited | handleOther | expire => rfl
    rw [hrec]
    obtain heq | ⟨i, rfl, -⟩ | ⟨i, -, hc⟩ | ⟨i, r, pay, sent, b, hd, res, -, -, -, ht⟩ :=
      order_step hstep k
    · rw [heq]
      exact hp
    · exact absurd ⟨i, rfl⟩ hmine
    · exact hp.chainStep (Order.chainStep_of_attempt hc)
    · rw [ht]
      exact Order.Paced.handled res

/-- A request counts against no bucket twice. -/
theorem nodup_requestBuckets (a : Account) (cert : Bool) : (requestBuckets a cert).Nodup := by
  unfold requestBuckets
  cases a.ca <;> cases cert <;> simp

omit [DecidableEq υ] in
/-- What is prepaid and what is taken is what the request counts against. -/
theorem charged_eq {a : Account} {r : Request υ} {key : Option Key}
    (hkey : key = (prepayBucket a).1) {l : List Event} {paid : Bool}
    (hpaid : ∀ b, prepaidOf b l = if paid = true ∧ key = some b then 1 else 0)
    (hgrants : grants l = [Order.charge a r key paid]) (b : Key) :
    charged b l = (requestBuckets a r.cert).count b := by
  rw [charged, hgrants, hpaid, List.flatten_cons, List.flatten_nil, List.append_nil]
  cases paid with
  | false => simp [Order.charge]
  | true =>
    by_cases hb : key = some b
    · have hnone : (Order.charge a r key true).count b = 0 := by
        rw [List.count_eq_zero]
        simp [Order.charge, hb]
      rw [if_pos ⟨rfl, hb⟩, hnone, count_requestBuckets (hkey.symm.trans hb)]
      rfl
    · rw [if_neg fun h => hb h.2, zero_add, Order.charge, if_pos rfl]
      congr 1
      exact List.count_filter (by simpa using fun h => hb h.symm)

/-- **The pace of requests.**  When a request of an order is let through, the last read of the wait
state, which came after the last pause, said that the account does not wait; if the request polls
the order that is finalized, the clock was read at or after the instant when a poll was due; and
each bucket that it counts against was charged once, by the prepaid balance or by the one take that
was granted, and no other was charged. -/
theorem let_through_paced (h : (paced cfg).Reach (fun s a => ControlWorks s.1 a) s) {k : ο}
    {i : Input υ ν} (hs : (paced cfg).step s (.work k i) = some t) {r r' : Request υ}
    {b : Before ν} (hbefore : (s.1.orders k).worker = .before r b) {pay : Pay} {p : Trip υ}
    (hthrough : (t.1.orders k).worker = .trip r' pay p) :
    (∃ cool ≤ 0, lastRead (s.2 k) = some cool) ∧
    ((s.1.orders k).track.IsPoll r.url → ∃ now, lastChecked (s.2 k) = some now ∧
      (∀ finalized ∈ (s.1.orders k).track.finalizedAt, finalized + cfg.firstPoll ≤ now) ∧
      ∀ last ∈ (s.1.orders k).track.lastPoll, last + cfg.pollEvery ≤ now) ∧
    (∀ c, charged c (s.2 k) = if c ∈ requestBuckets cfg.account r.cert then 1 else 0) ∧
    (grants (s.2 k)).length = 1 := by
  have hstands := paced_of_reach h k r b hbefore
  -- only the last step of `before` lets it through
  have hb : ∃ pay, b = .markPoll pay := by
    obtain ⟨-, hmap⟩ := Option.ite_none_right_eq_some.1 (Lts.recording_step hs).1
    obtain ⟨o, ho, ht⟩ := Option.map_eq_some_iff.1 hmap
    have hto : t.1.orders k = o := by simp [← ht, State.put]
    simp only [Order.work, hbefore] at ho
    exact Order.markPoll_of_trip ho (hto ▸ hthrough)
  obtain ⟨pay', rfl⟩ := hb
  obtain ⟨⟨hread, hpoll⟩, paid, hpaid, hgrants⟩ := hstands
  refine ⟨hread, fun hp => ?_, fun c => ?_, by rw [hgrants]; rfl⟩
  · obtain ⟨now, hnow, hdue⟩ := hpoll hp
    refine ⟨now, hnow, fun f hf => ?_, fun last hl => ?_⟩
    · rw [Track.pollDue, Option.mem_def.1 hf] at hdue
      split at hdue
      · exact (le_max_left _ _).trans hdue
      · exact hdue
    · rw [Track.pollDue, Option.mem_def.1 hl] at hdue
      exact (le_max_right _ _).trans hdue
  · have hkey : (s.1.orders k).track.prepaidKey = (prepayBucket cfg.account).1 := by
      have hpaying := (balanced_of_reach h.of_recording k).worker
      rw [hbefore] at hpaying
      exact hpaying.1
    rw [charged_eq hkey hpaid hgrants, (nodup_requestBuckets _ _).count]
    split <;> rfl

/-- A download of a certificate is let through at the third try: the account waits, then the take of
its second bucket is refused, and its prepaid request goes back. -/
def triesThrice : List (Act Unit Unit Nat Nat) :=
  [Act.chain () .granted, .chain () (.waitState 0 none), .chain () (.prepaid 9),
    .work () (.request ⟨.other, true, 0, true⟩), .work () .go, .work () (.waitState 5 none),
    .work () (.clock 0), .work () .wake, .work () (.waitState 0 none), .work () (.clock 5),
    .work () .go, .work () .go, .work () (.took 7), .work () .go, .work () .wake,
    .work () (.waitState 0 none), .work () (.clock 12), .work () .go, .work () .go,
    .work () (.took 0)]

theorem let_through_paced_third_try :
    ∃ s t : State Unit Unit Nat Nat × (Unit → List Event),
      (paced (oneOrder .gts)).Reach (fun s a => ControlWorks s.1 a) s ∧
      (paced (oneOrder .gts)).step s (.work () (.clock 12)) = some t ∧
      charged ⟨.gtsRequests, "id"⟩ (s.2 ()) = 1 ∧ charged ⟨.gtsCertPolls, "id"⟩ (s.2 ()) = 1 := by
  have hrun : ((paced (oneOrder .gts)).execWith (fun s a => ControlWorks s.1 a)
      (paced (oneOrder .gts)).init triesThrice).any
      (fun s => (s.1.orders ()).worker =
          .before ⟨.other, true, 0, true⟩ (.markPoll ⟨true, 0, none⟩) ∧
        ((paced (oneOrder .gts)).step s (.work () (.clock 12))).any (fun t =>
          (t.1.orders ()).worker =
            .trip ⟨.other, true, 0, true⟩ ⟨true, 0, none⟩ .markSent)) = true := by
    decide +kernel
  obtain ⟨s, hreach, hbefore, hany⟩ := Lts.exists_reach_of_any hrun
  obtain ⟨t, hs, hthrough⟩ := (Option.any_eq_true ..).1 hany
  have hcharged := (let_through_paced hreach hs hbefore (of_decide_eq_true hthrough)).2.2.1
  exact ⟨s, t, hreach, hs, (hcharged _).trans rfl, (hcharged _).trans rfl⟩

end Tunneld.Acme

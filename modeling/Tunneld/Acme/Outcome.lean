import Tunneld.Acme.Account
import Mathlib.Data.List.Perm.Basic

/-!
# What an order that is over has spent

`settle` commits the buckets reserved for the creation of an order if the order was created, for all
that is known, and releases them otherwise, and likewise the buckets reserved for its success.  What
is known is read off the track while the goroutine of the order may still be running.

The two goroutines never wait for each other.  A request is marked as sent *before* the goroutine of
the order looks whether it was given up on, and the order is given up on *before* its outcome is
read (or the goroutine has returned by then).  So a request that gets past the check was marked
before the outcome was read, and one that was not marked by then does not get past the check.

`Library` is what this rests on outside the program: how the ACME library goes about an order, and
what an authority answers with an order.

## Main results

* `Tracked.work`: whatever the goroutine of the order does next, the track knows of every request
  that may have reached the authority. `Tunneld.Acme.Settle` is about what is done with it.
-/

namespace Tunneld.Acme

variable {ο η υ ν : Type}

/-! ## The library and the authority -/

/-- The finalize URL of the order this request has created. -/
def Sent.named (e : Sent υ) : Option υ :=
  match e.fate with
  | .answered a => if e.request.purpose = .newOrder ∧ a.IsOrder then a.finalize else none
  | .lost => none

/-- The finalize URL of the order that exists. -/
def accepted (l : List (Sent υ)) : Option υ := l.findSome? Sent.named

/-- A newOrder or a finalize request has ended in an error. -/
def Lost (l : List (Sent υ)) : Prop := ∃ e ∈ l, e.request.purpose ≠ .other ∧ e.fate = .lost

instance [DecidableEq υ] (l : List (Sent υ)) : Decidable (Lost l) :=
  inferInstanceAs (Decidable (∃ e ∈ l, _))

/-- The library may make the request `r` after those in `l`.  An order is created by a `POST`, once,
and before that nothing else is posted; a finalize request goes to the URL the order names, and no
other request does.  Neither is made any more once one of them has ended in an error. -/
def Makes (l : List (Sent υ)) (r : Request υ) : Prop :=
  (r.purpose = .newOrder → r.post = true ∧ accepted l = none ∧ ¬ Lost l) ∧
  (r.purpose = .finalize → accepted l = some r.url ∧ ¬ Lost l) ∧
  (r.purpose = .other → accepted l ≠ some r.url ∧ (r.post = true → accepted l ≠ none))

instance [DecidableEq υ] (l : List (Sent υ)) (r : Request υ) : Decidable (Makes l r) :=
  inferInstanceAs (Decidable (_ ∧ _ ∧ _))

/-- The request at hand. -/
def Worker.request : Worker υ ν → Option (Request υ)
  | .before r _ | .trip r _ _ => some r
  | .off | .idle | .finished _ => none

/-- The library and the authority follow the protocol: requests are made as `Makes` says, and only
a newOrder request is answered with an order. -/
def Library (s : State ο η υ ν) : Act ο η υ ν → Prop
  | .work k (.request r) => Makes (s.orders k).log r
  | .work k (.answer a) =>
    a.IsOrder → ∀ r ∈ (s.orders k).worker.request, r.purpose = .newOrder
  | _ => True

instance [DecidableEq υ] (s : State ο η υ ν) (a : Act ο η υ ν) : Decidable (Library s a) := by
  unfold Library; split <;> infer_instance

/-! ## Requests that may have had an effect -/

/-- The answer with which a request for this purpose is accepted. -/
def Purpose.Accepts : Purpose → Answer υ → Prop
  | .newOrder, a => a.IsOrder
  | .finalize, a => a.Ok
  | .other, _ => False

/-- The request that is past the check, until its round trip is over. -/
@[simp] def Worker.sending : Worker υ ν → Option (Request υ)
  | .trip r _ p =>
    match p with
    | .markSent | .check _ | .unmark _ | .giveBack => none
    | .send _ | .await _ | .limited .. | .observe .. | .finalized .. | .body .. | .setOrder ..
    | .answered .. => some r
  | .off | .idle | .before .. | .finished _ => none

/-- No request for the purpose `p` was accepted or left unanswered, and none is being sent. -/
def Order.NoneOpen (p : Purpose) (o : Order υ ν) : Prop :=
  (∀ e ∈ o.log, e.request.purpose = p → ∃ a, e.fate = .answered a ∧ ¬ p.Accepts a) ∧
    ∀ r ∈ o.worker.sending, r.purpose ≠ p

/-! ## The track and the requests so far -/

/-- The track knows the order. -/
def Known (t : Track υ ν) (l : List (Sent υ)) : Prop :=
  t.finalizeURL = accepted l ∧ t.created = (accepted l).isSome

/-- A request was marked as what it is. -/
def Flagged (t : Track υ ν) (r : Request υ) (sent : SentRequest) : Prop :=
  (r.purpose = .newOrder → sent = .order ∧ t.orderSent = true) ∧
  (r.purpose = .finalize → sent = .finalize ∧ t.finalSent = true) ∧
  (r.purpose = .other → sent = .other)

/-- What is known at each point of a round trip.  An answer that creates the order is in the track
one step before the round trip is over. -/
def Trip.Sound (t : Track υ ν) (l : List (Sent υ)) (r : Request υ) (pay : Pay) : Trip υ → Prop
  | .markSent | .giveBack => Known t l
  | .check sent | .unmark sent | .send sent | .await sent => Known t l ∧ Flagged t r sent
  | .limited sent a _ => Known t l ∧ Flagged t r sent ∧ a.status = 429
  | .observe sent a => Known t l ∧ Flagged t r sent ∧ (a.IsOrder → r.purpose = .newOrder)
  | .finalized sent _ => Known t l ∧ Flagged t r sent ∧ r.purpose = .finalize
  | .body sent a =>
    Known t l ∧ Flagged t r sent ∧ (a.IsOrder → r.purpose = .newOrder) ∧
      a.status = 201 ∧ t.created = false
  | .setOrder sent a _ finalize =>
    Flagged t r sent ∧ a.IsOrder ∧ r.purpose = .newOrder ∧ a.finalize = some finalize
  | .answered sent a =>
    Known t (⟨r, pay, .answered a⟩ :: l) ∧ Flagged t r sent ∧
      (r.purpose = .finalize → a.Ok → t.finalizedAt.isSome = true)

/-- What is known wherever the goroutine of the order stands. -/
def Worker.Sound (t : Track υ ν) (l : List (Sent υ)) : Worker υ ν → Prop
  | .off | .idle | .finished _ => Known t l
  | .before r _ => Makes l r ∧ Known t l
  | .trip r pay p => Makes l r ∧ p.Sound t l r pay

/-- The track remembers the requests that may have had an effect. -/
structure Remembers (t : Track υ ν) (l : List (Sent υ)) : Prop where
  orders : ∀ e ∈ l, e.request.purpose = .newOrder → e.fate = .lost → t.orderSent = true
  finals : ∀ e ∈ l, e.request.purpose = .finalize → e.fate = .lost → t.finalSent = true
  finalized : ∀ e ∈ l, ∀ a, e.request.purpose = .finalize → e.fate = .answered a → a.Ok →
    t.finalizedAt.isSome = true

/-- Two tracks agree on how far the order has come. -/
structure Track.SameOrder (t t' : Track υ ν) : Prop where
  finalizeURL : t'.finalizeURL = t.finalizeURL
  created : t'.created = t.created
  orderSent : t'.orderSent = t.orderSent
  finalSent : t'.finalSent = t.finalSent
  finalizedAt : t'.finalizedAt = t.finalizedAt

section Facts

variable {t t' : Track υ ν} {l : List (Sent υ)} {r : Request υ} {pay : Pay} {sent : SentRequest}
  {a : Answer υ} {e : Sent υ}

theorem Track.SameOrder.refl (t : Track υ ν) : t.SameOrder t := ⟨rfl, rfl, rfl, rfl, rfl⟩

theorem Known.of_same (h : t.SameOrder t') (hk : Known t l) : Known t' l := by
  rw [Known, h.finalizeURL, h.created]
  exact hk

theorem Flagged.of_same (h : t.SameOrder t') (hf : Flagged t r sent) : Flagged t' r sent := by
  rw [Flagged, h.orderSent, h.finalSent]
  exact hf

theorem Remembers.of_same (h : t.SameOrder t') (hr : Remembers t l) : Remembers t' l := by
  refine ⟨?_, ?_, ?_⟩
  · rw [h.orderSent]
    exact hr.orders
  · rw [h.finalSent]
    exact hr.finals
  · rw [h.finalizedAt]
    exact hr.finalized

theorem Trip.Sound.of_same (h : t.SameOrder t') {p : Trip υ} (hp : p.Sound t l r pay) :
    p.Sound t' l r pay := by
  cases p with
  | markSent | giveBack => exact Known.of_same h hp
  | check | unmark | send | await => exact ⟨hp.1.of_same h, hp.2.of_same h⟩
  | limited | observe | finalized => exact ⟨hp.1.of_same h, hp.2.1.of_same h, hp.2.2⟩
  | body =>
    obtain ⟨hk, hf, ho, hst, hc⟩ := hp
    exact ⟨hk.of_same h, hf.of_same h, ho, hst, h.created.trans hc⟩
  | setOrder => exact ⟨hp.1.of_same h, hp.2⟩
  | answered =>
    refine ⟨hp.1.of_same h, hp.2.1.of_same h, ?_⟩
    rw [h.finalizedAt]
    exact hp.2.2

theorem Worker.Sound.of_same (h : t.SameOrder t') {w : Worker υ ν} (hw : w.Sound t l) :
    w.Sound t' l := by
  cases w with
  | off | idle | finished => exact Known.of_same h hw
  | before => exact ⟨hw.1, hw.2.of_same h⟩
  | trip => exact ⟨hw.1, hw.2.of_same h⟩

theorem accepted_cons : accepted (e :: l) = e.named.or (accepted l) := by
  rw [accepted, List.findSome?_cons]
  cases e.named <;> rfl

theorem named_of_not (h : ¬ (r.purpose = .newOrder ∧ a.IsOrder)) :
    Sent.named ⟨r, pay, .answered a⟩ = none := if_neg h

theorem named_of_order (hr : r.purpose = .newOrder) (ha : a.IsOrder) :
    Sent.named ⟨r, pay, .answered a⟩ = a.finalize := if_pos ⟨hr, ha⟩

/-- A request that did not create the order does not change what the track should know. -/
theorem Known.cons (hk : Known t l) (he : e.named = none) : Known t (e :: l) := by
  rw [Known, accepted_cons, he]
  exact hk

/-- A marked request is marked as what it is, since the track knows the order. -/
theorem flagged_markSent [DecidableEq υ] (hk : Known t l) (hr : Makes l r) :
    Flagged (t.markSent r.post r.url) r (t.sent r.post r.url) := by
  obtain ⟨hn, hf, ho⟩ := hr
  rw [Track.markSent_eq]
  refine ⟨fun hp => ?_, fun hp => ?_, fun hp => ?_⟩
  · obtain ⟨hpost, hnone, -⟩ := hn hp
    have hurl : ¬ t.IsFinalize r.url := by rw [Track.IsFinalize, hk.1, hnone]; simp
    have hsent : t.sent r.post r.url = .order := by
      rw [Track.sent, if_neg hurl, if_pos ⟨by rw [hk.2, hnone]; rfl, hpost⟩]
    exact ⟨hsent, by simp [hsent]⟩
  · have hsent : t.sent r.post r.url = .finalize := if_pos (hk.1.trans (hf hp).1)
    exact ⟨hsent, by simp [hsent]⟩
  · obtain ⟨hurl, hpost⟩ := ho hp
    rw [Track.sent, if_neg (by rwa [Track.IsFinalize, hk.1]), if_neg]
    rintro ⟨hc, hp⟩
    have hsome := Option.ne_none_iff_isSome.1 (hpost hp)
    rw [hk.2, hsome] at hc
    exact absurd hc (by decide)

theorem Remembers.markSent [DecidableEq υ] (hr : Remembers t l) (post : Bool) (u : υ) :
    Remembers (t.markSent post u) l := by
  rw [Track.markSent_eq]
  exact ⟨fun e he hp hf => by simp [hr.orders e he hp hf],
    fun e he hp hf => by simp [hr.finals e he hp hf], hr.finalized⟩

/-- A flag is only lowered for a request the library makes while none is lost. -/
theorem Remembers.markAnswered (hr : Remembers t l) (hm : Makes l r) (hf : Flagged t r sent) :
    Remembers (t.markAnswered sent) l := by
  by_cases hp : r.purpose = .other
  · rw [hf.2.2 hp]
    exact hr
  · have hlost : ¬ Lost l := by
      cases hpr : r.purpose with
      | newOrder => exact (hm.1 hpr).2.2
      | finalize => exact (hm.2.1 hpr).2
      | other => exact absurd hpr hp
    rw [Track.markAnswered_eq]
    exact ⟨fun e he hp hl => absurd ⟨e, he, by simp [hp], hl⟩ hlost,
      fun e he hp hl => absurd ⟨e, he, by simp [hp], hl⟩ hlost, hr.finalized⟩

/-- A round trip that ends in an error leaves its flag up. -/
theorem Remembers.lost (hr : Remembers t l) (hf : Flagged t r sent) :
    Remembers t (⟨r, pay, .lost⟩ :: l) := by
  refine ⟨?_, ?_, ?_⟩
  · intro e he hp hl
    rcases List.mem_cons.1 he with rfl | he
    · exact (hf.1 hp).2
    · exact hr.orders e he hp hl
  · intro e he hp hl
    rcases List.mem_cons.1 he with rfl | he
    · exact (hf.2.1 hp).2
    · exact hr.finals e he hp hl
  · intro e he a hp hans hok
    rcases List.mem_cons.1 he with rfl | he
    · cases hans
    · exact hr.finalized e he a hp hans hok

theorem Remembers.answered (hr : Remembers t l)
    (hok : r.purpose = .finalize → a.Ok → t.finalizedAt.isSome = true) :
    Remembers t (⟨r, pay, .answered a⟩ :: l) := by
  refine ⟨?_, ?_, ?_⟩
  · intro e he hp hl
    rcases List.mem_cons.1 he with rfl | he
    · cases hl
    · exact hr.orders e he hp hl
  · intro e he hp hl
    rcases List.mem_cons.1 he with rfl | he
    · cases hl
    · exact hr.finals e he hp hl
  · intro e he b hp hans hb
    rcases List.mem_cons.1 he with rfl | he
    · cases hans
      exact hok hp hb
    · exact hr.finalized e he b hp hans hb

end Facts

variable [DecidableEq υ]

/-! ## Steps of the goroutine of the order -/

namespace Order

variable {cfg : Config} {clock : Nat} {o o' : Order υ ν} {r : Request υ} {pay : Pay} {p : Trip υ}
  {i : Input υ ν}

/-- The track is right about the order. -/
structure Tracked (o : Order υ ν) : Prop where
  sound : o.worker.Sound o.track o.log
  remembers : Remembers o.track o.log

variable (cfg clock o r) in
/-- A step of `before`, branch by branch. -/
inductive Befores [DecidableEq ν] : Before ν → Input υ ν → Order υ ν → Prop
  | refuses (hdone : o.track.done = true) : Befores .check .go { o with worker := .idle }
  | enters (hdone : o.track.done = false) :
    Befores .check .go { o with worker := .before r .waitState }
  | readsWait {cool mark} :
    Befores .waitState (.waitState cool mark)
      { o with worker := .before r (.loop ⟨cool, mark, true, clock⟩) }
  | missesWait :
    Befores .waitState .fails { o with worker := .before r (.loop ⟨0, none, false, clock⟩) }
  | pauses {w now} (hwait : 0 < w.cool ∨
      (o.track.IsPoll r.url ∧ 0 < o.track.pollDue cfg.firstPoll cfg.pollEvery - now)) :
    Befores (.loop w) (.clock now) { o with worker := .before r .sleep }
  | goesOn {w now} (hcool : w.cool ≤ 0)
    (hpoll : o.track.IsPoll r.url → o.track.pollDue cfg.firstPoll cfg.pollEvery ≤ now) :
    Befores (.loop w) (.clock now) { o with worker := .before r (.drop w) }
  | wakes : Befores .sleep .wake { o with worker := .before r .waitState }
  | quits : Befores .sleep .quit { o with worker := .idle }
  | drops {w} :
    Befores (.drop w) .go
      { o with track := o.track.dropPrepaid w.mark w.known, worker := .before r (.use w.readAt) }
  | uses {readAt} (hpos : 0 < o.track.prepaid) :
    Befores (.use readAt) .go
      { o with
        track := o.track.usePrepaid
        uses := ⟨o.prepaidAt, readAt⟩ :: o.uses
        worker := .before r (.take true (charge cfg.account r o.track.prepaidKey true)) }
  | hasNone {readAt} (hzero : ¬ 0 < o.track.prepaid) :
    Befores (.use readAt) .go
      { o with worker := .before r (.take false (charge cfg.account r o.track.prepaidKey false)) }
  | isShort {paid bs wait} (hwait : bs ≠ [] ∧ 0 < wait) :
    Befores (.take paid bs) (.took wait) { o with worker := .before r (.short paid) }
  | takes {paid bs wait} (hwait : ¬ (bs ≠ [] ∧ 0 < wait)) :
    Befores (.take paid bs) (.took wait)
      { o with
        taken := o.taken + requestTokens cfg.account bs
        worker := .before r (.markPoll ⟨paid, requestTokens cfg.account bs, none⟩) }
  | takesBlindly {paid bs e n}
    (hn : n = if e = .timedOut true then requestTokens cfg.account bs else 0) :
    Befores (.take paid bs) (.takeFails e)
      { o with taken := o.taken + n, worker := .before r (.markPoll ⟨paid, n, some e⟩) }
  | returnsPrepaid :
    Befores (.short true) .go
      { o with track := o.track.returnPrepaid, worker := .before r .sleep }
  | returnsNothing :
    Befores (.short false) .go { o with worker := .before r .sleep }
  | polls {pay : Pay} {now : Int} (hpoll : o.track.IsPoll r.url) :
    Befores (.markPoll pay) (.clock now)
      { o with track := o.track.markPoll now, worker := .trip r pay .markSent }
  | passes {pay : Pay} {now : Int} (hpoll : ¬ o.track.IsPoll r.url) :
    Befores (.markPoll pay) (.clock now) { o with worker := .trip r pay .markSent }

variable {b : Before ν}

theorem befores_of_before [DecidableEq ν] (h : o.before cfg clock r b i = some o') :
    Befores cfg clock o r b i o' := by
  revert h
  fun_cases before cfg clock o r b i <;> rintro ⟨⟩
  all_goals first
    | (cases hdone : o.track.done <;> constructor <;> assumption)
    | exact .takesBlindly rfl
    | exact .goesOn (by grind) (by grind)
    | (cases ‹Bool› <;> constructor)
    | (split <;> constructor <;> assumption)

/-- What a step of `before` leaves alone, and where it can lead. -/
structure BeforeStep (o : Order υ ν) (r : Request υ) (o' : Order υ ν) : Prop where
  track : o.track.SameOrder o'.track
  done : o'.track.done = o.track.done
  log : o'.log = o.log
  chain : o'.chain = o.chain
  calls : o'.calls = o.calls
  worker : o'.worker = .idle ∨ (∃ b, o'.worker = .before r b) ∨
    ∃ pay, o'.worker = .trip r pay .markSent

theorem beforeStep_of_before [DecidableEq ν] (h : o.before cfg clock r b i = some o') :
    BeforeStep o r o' := by
  have hsame := Track.SameOrder.refl o.track
  cases befores_of_before h with
  | refuses | quits => exact ⟨hsame, rfl, rfl, rfl, rfl, .inl rfl⟩
  | enters | readsWait | missesWait | pauses | goesOn | wakes | hasNone | isShort | takes
  | takesBlindly | returnsNothing =>
    exact ⟨hsame, rfl, rfl, rfl, rfl, .inr (.inl ⟨_, rfl⟩)⟩
  | drops =>
    rw [Track.dropPrepaid_eq]
    exact ⟨⟨rfl, rfl, rfl, rfl, rfl⟩, rfl, rfl, rfl, rfl, .inr (.inl ⟨_, rfl⟩)⟩
  | uses | returnsPrepaid =>
    exact ⟨⟨rfl, rfl, rfl, rfl, rfl⟩, rfl, rfl, rfl, rfl, .inr (.inl ⟨_, rfl⟩)⟩
  | polls => exact ⟨⟨rfl, rfl, rfl, rfl, rfl⟩, rfl, rfl, rfl, rfl, .inr (.inr ⟨_, rfl⟩)⟩
  | passes => exact ⟨hsame, rfl, rfl, rfl, rfl, .inr (.inr ⟨_, rfl⟩)⟩

theorem Tracked.before [DecidableEq ν] (ht : o.Tracked) (hw : o.worker = .before r b)
    (h : o.before cfg clock r b i = some o') : o'.Tracked := by
  have hb := beforeStep_of_before h
  have hs := ht.sound
  rw [hw] at hs
  have hk : Known o'.track o.log := hs.2.of_same hb.track
  refine ⟨?_, by rw [hb.log]; exact ht.remembers.of_same hb.track⟩
  rw [hb.log]
  rcases hb.worker with hw' | ⟨b', hw'⟩ | ⟨pay, hw'⟩ <;> rw [hw']
  · exact hk
  · exact ⟨hs.1, hk⟩
  · exact ⟨hs.1, hk⟩

variable {sent : SentRequest}

omit [DecidableEq υ] in
theorem Tracked.ends_lost (hr : Remembers o.track o.log) (hk : Known o.track o.log)
    (hf : Flagged o.track r sent) : (o.ends r pay .lost).Tracked :=
  ⟨hk.cons rfl, hr.lost hf⟩

variable {a : Answer υ}

theorem Tracked.observe (ht : o.Tracked) (hw : o.worker = .trip r pay (.observe sent a))
    (h : o.trip r pay (.observe sent a) .go = some o') : o'.Tracked := by
  have hr := ht.remembers
  have hs := ht.sound
  rw [hw] at hs
  obtain ⟨hm, hk, hf, horder⟩ := hs
  simp only [Order.trip] at h
  split at h
  · -- The answer to the finalize request.
    rename_i hfin
    have hacc : accepted o.log = some r.url := hk.1.symm.trans hfin
    have hpur : r.purpose = .finalize := by
      cases hp : r.purpose with
      | newOrder => exact absurd ((hm.1 hp).2.1.symm.trans hacc) (by simp)
      | finalize => rfl
      | other => exact absurd hacc (hm.2.2 hp).1
    cases h
    refine ⟨⟨hm, ?_⟩, hr⟩
    by_cases hok : a.Ok
    · rw [if_pos hok]
      exact ⟨hk, hf, hpur⟩
    · rw [if_neg hok]
      exact ⟨hk.cons (named_of_not fun hn => absurd (hpur.symm.trans hn.1) (by decide)), hf,
        fun _ h => absurd h hok⟩
  · rename_i hfin
    have hnot : r.purpose ≠ .finalize := fun hp => hfin (hk.1.trans (hm.2.1 hp).1)
    split at h
    · -- An answer that names no order.
      rename_i hno
      cases h
      refine ⟨⟨hm, hk.cons (named_of_not ?_), hf, fun hp => absurd hp hnot⟩, hr⟩
      rintro ⟨hnew, hst, hloc, -⟩
      rcases hno with hno | hno | hno
      · exact hno hst
      · rw [hno] at hloc
        cases hloc
      · rw [hk.2, (hm.1 hnew).2.1] at hno
        cases hno
    · rename_i hyes
      simp only [not_or, ne_eq, not_not, Bool.not_eq_true] at hyes
      cases h
      exact ⟨⟨hm, hk, hf, horder, hyes.1, hyes.2.2⟩, hr⟩

/-- The body of a `201` is read: it names the order, or is none that can be used. -/
theorem Tracked.body (ht : o.Tracked) (hw : o.worker = .trip r pay (.body sent a))
    (h : o.trip r pay (.body sent a) .go = some o') : o'.Tracked := by
  have hs := ht.sound
  rw [hw] at hs
  obtain ⟨hm, hk, hf, horder, hst, hc⟩ := hs
  have hnone : accepted o.log = none := by
    rw [hk.2] at hc
    exact Option.isSome_eq_false_iff.1 hc |> Option.isNone_iff_eq_none.1
  cases h
  refine ⟨⟨hm, ?_⟩, ht.remembers⟩
  split
  · rename_i location finalize hloc hfin
    have his : a.IsOrder := ⟨hst, by rw [hloc]; rfl, by rw [hfin]; rfl⟩
    exact ⟨hf, his, horder his, hfin⟩
  · rename_i hno
    refine ⟨hk.cons (named_of_not ?_), hf, fun hp => ?_⟩
    · rintro ⟨-, -, hloc, hfin⟩
      exact hno _ _ (Option.some_get hloc).symm (Option.some_get hfin).symm
    · exact absurd ((hm.2.1 hp).1.symm.trans hnone) (by simp)

theorem Tracked.trip (ht : o.Tracked) (hw : o.worker = .trip r pay p)
    (hans : ∀ a, i = .answer a → a.IsOrder → r.purpose = .newOrder)
    (h : o.trip r pay p i = some o') : o'.Tracked := by
  have hr := ht.remembers
  have hs := ht.sound
  rw [hw] at hs
  obtain ⟨hm, hs⟩ := hs
  unfold Order.trip at h
  split at h
  · -- `markSent`
    cases h
    have hk : Known (o.track.markSent r.post r.url) o.log := by
      rw [Track.markSent_eq]
      exact hs
    exact ⟨⟨hm, hk, flagged_markSent hs hm⟩, hr.markSent _ _⟩
  · -- `check`
    cases h
    refine ⟨⟨hm, ?_⟩, hr⟩
    split <;> exact hs
  · -- `unmark`
    rename_i sent
    cases h
    have hk : Known (o.track.markAnswered sent) o.log := by
      rw [Track.markAnswered_eq]
      exact hs.1
    refine ⟨?_, hr.markAnswered hm hs.2⟩
    dsimp only
    split
    · exact ⟨hm, hk⟩
    · exact hk
  · -- `giveBack`
    cases h
    exact ⟨hs, hr.orders, hr.finals, hr.finalized⟩
  · -- `send`
    cases h
    exact ⟨⟨hm, hs⟩, hr⟩
  · -- `await`, an error
    cases h
    exact Tracked.ends_lost hr hs.1 hs.2
  · -- `await`, an answer
    rename_i sent a
    cases h
    refine ⟨⟨hm, ?_⟩, hr⟩
    by_cases h429 : a.status = 429
    · rw [if_pos h429]
      exact ⟨hs.1, hs.2, h429⟩
    · rw [if_neg h429]
      exact ⟨hs.1, hs.2, hans a rfl⟩
  · -- `observe`
    exact ht.observe hw h
  · -- `markFinalized`
    rename_i sent a now
    obtain ⟨hk, hf, hpur⟩ := hs
    cases h
    have hk' : Known (o.track.markFinalized now) (⟨r, pay, .answered a⟩ :: o.log) :=
      Known.cons hk (named_of_not fun hn => absurd (hpur.symm.trans hn.1) (by decide))
    exact ⟨⟨hm, hk', hf, fun _ _ => rfl⟩, hr.orders, hr.finals, fun _ _ _ _ _ _ => rfl⟩
  · -- the body of a `201`
    exact ht.body hw h
  · -- a body that cannot be read
    cases h
    exact Tracked.ends_lost hr hs.1 hs.2.1
  · -- `setOrder`
    rename_i sent a location finalize
    obtain ⟨hf, his, hnew, hfin⟩ := hs
    cases h
    have hnamed : accepted (⟨r, pay, .answered a⟩ :: o.log) = some finalize := by
      rw [accepted_cons, named_of_order hnew his, hfin]
      rfl
    refine ⟨⟨hm, ⟨hnamed.symm, by rw [hnamed]; rfl⟩, hf, fun hp => ?_⟩,
      hr.orders, hr.finals, hr.finalized⟩
    exact absurd (hnew.symm.trans hp) (by decide)
  · -- `markAnswered`
    rename_i sent a
    obtain ⟨hk, hf, hok⟩ := hs
    cases h
    refine ⟨?_, (hr.markAnswered hm hf).answered ?_⟩
    · rw [Track.markAnswered_eq]
      exact hk
    · rw [Track.markAnswered_eq]
      exact hok
  · cases h

omit [DecidableEq υ] in
theorem Tracked.handled (ht : o.Tracked) {hd : Handling}
    (hw : o.worker = .trip r pay (.limited sent a hd)) (res : Handled) :
    (o.handled r pay sent a res).Tracked := by
  have hr := ht.remembers
  have hs := ht.sound
  rw [hw] at hs
  obtain ⟨hm, hk, hf, hst⟩ := hs
  cases res with
  | next h => exact ⟨⟨hm, hk, hf, hst⟩, hr⟩
  | answered =>
    -- A `429` neither creates the order nor finalizes it.
    have hnot : ¬ a.IsOrder := fun h => absurd (hst.symm.trans h.1) (by decide)
    have hnok : ¬ a.Ok := by
      rw [Answer.Ok, hst]
      decide
    exact ⟨⟨hm, hk.cons (named_of_not fun h => hnot h.2), hf, fun _ h => absurd h hnok⟩, hr⟩
  | lost => exact Tracked.ends_lost hr hk hf

/-- **The track is right about the order** whatever its goroutine does next. -/
theorem Tracked.work [DecidableEq ν] (ht : o.Tracked) (hreq : ∀ r, i = .request r → Makes o.log r)
    (hans : ∀ a, i = .answer a → a.IsOrder → ∀ r ∈ o.worker.request, r.purpose = .newOrder)
    (h : o.work cfg clock i = some o') : o'.Tracked := by
  have hs := ht.sound
  unfold Order.work at h
  split at h
  · rename_i r hw
    rw [hw] at hs
    cases h
    exact ⟨⟨hreq _ rfl, hs⟩, ht.remembers⟩
  · rename_i ok hw
    rw [hw] at hs
    cases h
    exact ⟨hs, ht.remembers⟩
  · rename_i hw
    exact ht.before hw h
  · rename_i r pay p hw
    refine ht.trip hw (fun a ha his => hans a ha his r ?_) h
    rw [hw]
    rfl
  · cases h

end Order

end Tunneld.Acme

import Tunneld.Acme.Outcome

/-!
# Settling an order

What `settle` releases is decided by the outcome, and the outcome is read when no further request
can get past the check: `Order.Settling.stopped`.  From then on a purpose for which no request is
open stays so (`Order.NoneOpen.workStep`), which is what makes the release of its buckets safe.

That each reserved bucket is settled once is a matter of lists: the buckets of the calls so far and
of those still to come are the buckets of the order, `Order.Settling.buckets`.

## Main results

* `Tracked.free_of_release`: what the outcome releases was not used;
* `settled_as_it_came_out`: nor will it be, and each reserved bucket is settled exactly once.
-/

namespace Tunneld.Acme

variable {ο η υ ν : Type} [DecidableEq ο] [DecidableEq η]

/-! ## The chain -/

namespace Chain

/-- The goroutine of the order is not started. -/
def Early : Chain ν → Prop
  | .reserve | .refused | .mark | .prepay .. | .giveBack | .skipped => True
  | _ => False

/-- `obtain` has returned. -/
def Over : Chain ν → Prop
  | .outcome _ | .abandon .. | .commit .. | .drain | .refundMark .. | .refund .. | .settled => True
  | _ => False

/-- The buckets that are still to be settled. -/
def pending (a : Account) (n : Subject) : Chain ν → List Key
  | .commit spend release => spend ++ release
  | .drain | .refundMark .. | .refund .. | .settled | .skipped => []
  | _ => orderBuckets a n

/-- The buckets that are to be released. -/
@[simp] def releasing (a : Account) (n : Subject) : Chain ν → List Key
  | .abandon ok out => Order.release a n ok out
  | .commit _ release => release
  | .giveBack => orderBuckets a n
  | _ => []

theorem not_early_of_over {c : Chain ν} (h : c.Over) : ¬ c.Early := by
  cases c with
  | reserve | refused | mark | prepay | giveBack | skipped | run | abandoning => exact h.elim
  | _ => exact id

end Chain

namespace Order

variable {cfg : Config} {n : Subject} {clock : Nat} {o o' : Order υ ν} {r : Request υ} {pay : Pay}
  {p : Trip υ} {i : Input υ ν} {q : Purpose}

theorem spend_append_release (a : Account) (n : Subject) (ok : Bool) (out : OrderOutcome) :
    (spend a n ok out ++ release a n ok out).Perm (orderBuckets a n) := by
  unfold spend release orderBuckets
  cases ok || out.created <;> cases ok || out.finalized
  · exact List.Perm.refl _
  · simpa using List.perm_append_comm
  · simp
  · simp

/-! ## What a step of the goroutine of the order does -/

/-- A step of the goroutine of the order: the rest of the order stays as it is, a request gets past
the check only if the order was not given up on, and a round trip that is over was a request that
had been sent. -/
structure WorkStep (o o' : Order υ ν) : Prop where
  live : o.worker ≠ .off ∧ ∀ ok, o.worker ≠ .finished ok
  done : o'.track.done = o.track.done
  chain : o'.chain = o.chain
  calls : o'.calls = o.calls
  sends : (o'.log = o.log ∧
      ∀ r ∈ o'.worker.sending, r ∈ o.worker.sending ∨ o.track.done = false) ∨
    ∃ e, o'.log = e :: o.log ∧ o'.worker = .idle ∧ e.request ∈ o.worker.sending

theorem workStep_of_before [DecidableEq υ] [DecidableEq ν] {b : Before ν}
    (hw : o.worker = .before r b) (h : o.before cfg clock r b i = some o') : WorkStep o o' := by
  have hb := beforeStep_of_before h
  refine ⟨by simp [hw], hb.done, hb.chain, hb.calls, .inl ⟨hb.log, fun r hr => ?_⟩⟩
  rcases hb.worker with hw' | ⟨b, hw'⟩ | ⟨pay, hw'⟩ <;> rw [hw'] at hr <;> cases hr

/-- What a step of a round trip leaves alone of the track. -/
structure SamePrepaid (t t' : Track υ ν) : Prop where
  done : t'.done = t.done
  key : t'.prepaidKey = t.prepaidKey
  mark : t'.prepaidMark = t.prepaidMark
  prepaid : t'.prepaid = t.prepaid

/-- What a step of `roundTrip` after `before` can do to the order, but for what the track knows of
the order of the authority. -/
inductive TripStep (o : Order υ ν) (r : Request υ) (pay : Pay) (p : Trip υ) : Order υ ν → Prop
  | goesOn {t q} (ht : SamePrepaid o.track t)
    (hsend : ∀ r' ∈ (Worker.trip r pay q : Worker υ ν).sending,
      r' ∈ o.worker.sending ∨ o.track.done = false)
    (hback : q = .giveBack → pay.paid = true)
    (hlimited : ∀ sent a h, q = .limited sent a h → h = .setWait) :
    TripStep o r pay p { o with track := t, worker := .trip r pay q }
  | stops {t} (ht : SamePrepaid o.track t) :
    TripStep o r pay p { o with track := t, worker := .idle }
  | returnsPrepaid (hp : p = .giveBack) :
    TripStep o r pay p { o with track := o.track.returnPrepaid, worker := .idle }
  | ends {t f} (ht : SamePrepaid o.track t) (hsend : r ∈ o.worker.sending) :
    TripStep o r pay p ({ o with track := t }.ends r pay f)

theorem tripStep_of_trip [DecidableEq υ] (hw : o.worker = .trip r pay p)
    (h : o.trip r pay p i = some o') : TripStep o r pay p o' := by
  have hsame : SamePrepaid o.track o.track := ⟨rfl, rfl, rfl, rfl⟩
  have hanswered (sent) : SamePrepaid o.track (o.track.markAnswered sent) := by
    rw [Track.markAnswered_eq]
    exact ⟨rfl, rfl, rfl, rfl⟩
  have hmarked : SamePrepaid o.track (o.track.markSent r.post r.url) := by
    rw [Track.markSent_eq]
    exact ⟨rfl, rfl, rfl, rfl⟩
  -- A step that lets no request through.
  have hon : ∀ {t : Track υ ν} {q : Trip υ}, SamePrepaid o.track t →
      (Worker.trip r pay q : Worker υ ν).sending = o.worker.sending → q ≠ .giveBack →
      (∀ sent a h, q = .limited sent a h → h = .setWait) →
      TripStep o r pay p { o with track := t, worker := .trip r pay q } :=
    fun ht hsend hback hlimited =>
      .goesOn ht (fun r' hr' => .inl (hsend ▸ hr')) (fun h => absurd h hback) hlimited
  revert h
  fun_cases trip o r pay p i <;> rintro ⟨⟩
  all_goals first
    | exact .returnsPrepaid rfl
    | exact .ends hsame (by rw [hw]; rfl)
    | exact .ends (hanswered _) (by rw [hw]; rfl)
    | exact hon hsame (by rw [hw]; rfl) (by simp) (by simp)
    | exact hon ⟨rfl, rfl, rfl, rfl⟩ (by rw [hw]; rfl) (by simp) (by simp)
    | exact hon hmarked (by rw [hw]; rfl) (by simp) (by simp)
    | (split <;> exact hon hsame (by rw [hw]; rfl) (by simp) (by simp))
    | (split <;> [exact hon hsame (by rw [hw]; rfl) (by simp) (by simp);
        exact .goesOn hsame (fun _ _ => .inr (by simp [*])) (by simp) (by simp)])
    | (split <;> [exact .goesOn (hanswered _) (by simp) (fun _ => ‹_›) (by simp);
        exact .stops (hanswered _)])

theorem workStep_of_trip [DecidableEq υ] (hw : o.worker = .trip r pay p)
    (h : o.trip r pay p i = some o') : WorkStep o o' := by
  have hlive : o.worker ≠ .off ∧ ∀ ok, o.worker ≠ .finished ok := by simp [hw]
  cases tripStep_of_trip hw h with
  | goesOn ht hsend => exact ⟨hlive, ht.done, rfl, rfl, .inl ⟨rfl, hsend⟩⟩
  | stops ht => exact ⟨hlive, ht.done, rfl, rfl, .inl ⟨rfl, by simp⟩⟩
  | returnsPrepaid => exact ⟨hlive, rfl, rfl, rfl, .inl ⟨rfl, by simp⟩⟩
  | ends ht hsend => exact ⟨hlive, ht.done, rfl, rfl, .inr ⟨_, rfl, rfl, hsend⟩⟩

theorem workStep_of_work [DecidableEq υ] [DecidableEq ν] (h : o.work cfg clock i = some o') :
    WorkStep o o' := by
  unfold Order.work at h
  split at h
  · rename_i hw
    cases h
    exact ⟨by simp [hw], rfl, rfl, rfl, .inl ⟨rfl, by simp⟩⟩
  · rename_i hw
    cases h
    exact ⟨by simp [hw], rfl, rfl, rfl, .inl ⟨rfl, by simp⟩⟩
  · rename_i hw
    exact workStep_of_before hw h
  · rename_i hw
    exact workStep_of_trip hw h
  · cases h

theorem workStep_handled {sent : SentRequest} {a : Answer υ} {hd : Handling}
    (hw : o.worker = .trip r pay (.limited sent a hd)) (res : Handled) :
    WorkStep o (o.handled r pay sent a res) := by
  have hlive : o.worker ≠ .off ∧ ∀ ok, o.worker ≠ .finished ok := by simp [hw]
  cases res with
  | next | answered =>
    exact ⟨hlive, rfl, rfl, rfl, .inl ⟨rfl, fun r' hr' => .inl (by rw [hw]; exact hr')⟩⟩
  | lost => exact ⟨hlive, rfl, rfl, rfl, .inr ⟨_, rfl, rfl, by rw [hw]; rfl⟩⟩

/-- Once the order was given up on, a purpose with no open request stays so. -/
theorem NoneOpen.workStep (hn : o.NoneOpen q) (hw : WorkStep o o') (hd : o.track.done = true) :
    o'.NoneOpen q := by
  obtain ⟨hlog, hsend⟩ := hn
  rcases hw.sends with ⟨hl, hs⟩ | ⟨e, hl, hidle, he⟩
  · refine ⟨by rw [hl]; exact hlog, fun r hr => ?_⟩
    rcases hs r hr with hr | hr
    · exact hsend r hr
    · rw [hd] at hr
      cases hr
  · refine ⟨fun e' he' hp => ?_, by simp [hidle]⟩
    rw [hl] at he'
    rcases List.mem_cons.1 he' with rfl | he'
    · exact absurd hp (hsend _ he)
    · exact hlog e' he' hp

/-! ## What the outcome tells -/

theorem accepted_eq_none (hs : o.worker.Sound o.track o.log) (hc : o.track.created = false) :
    accepted o.log = none := by
  have hknown : ∀ {l : List (Sent υ)}, Known o.track l → accepted l = none := by
    intro l hk
    rw [hk.2] at hc
    exact Option.not_isSome_iff_eq_none.1 (by simp [hc])
  cases hw : o.worker with
  | off | idle | finished =>
    rw [hw] at hs
    exact hknown hs
  | before =>
    rw [hw] at hs
    exact hknown hs.2
  | trip r pay p =>
    rw [hw] at hs
    obtain ⟨hm, hs⟩ := hs
    cases p with
    | markSent | giveBack => exact hknown hs
    | check | unmark | send | await | limited | observe | finalized | body => exact hknown hs.1
    | setOrder => exact (hm.1 hs.2.2.1).2.1
    | answered =>
      have hcons := hknown hs.1
      rw [accepted_cons, Option.or_eq_none_iff] at hcons
      exact hcons.2

theorem flagged_of_sending (hs : o.worker.Sound o.track o.log) (hr : r ∈ o.worker.sending) :
    ∃ sent, Flagged o.track r sent := by
  cases hw : o.worker with
  | off | idle | finished | before =>
    rw [hw] at hr
    cases hr
  | trip r' pay p =>
    rw [hw] at hs hr
    obtain ⟨-, hs⟩ := hs
    cases p with
    | markSent | giveBack | check | unmark => cases hr
    | send | await =>
      cases hr
      exact ⟨_, hs.2⟩
    | limited | observe | finalized | body | answered =>
      cases hr
      exact ⟨_, hs.2.1⟩
    | setOrder =>
      cases hr
      exact ⟨_, hs.1⟩

/-- If the order is not known to be created, then no newOrder request is open. -/
theorem Tracked.noneOpen_newOrder (ht : o.Tracked) (hout : o.track.outcome.created = false) :
    o.NoneOpen .newOrder := by
  obtain ⟨hc, hsent⟩ := Bool.or_eq_false_iff.1 hout
  refine ⟨fun e he hp => ?_, fun r hr hp => ?_⟩
  · cases hf : e.fate with
    | lost => exact absurd (ht.remembers.orders e he hp hf) (by simp [hsent])
    | answered a =>
      refine ⟨a, rfl, fun hord => ?_⟩
      have hnone := List.findSome?_eq_none_iff.1 (accepted_eq_none ht.sound hc) e he
      rw [Sent.named, hf] at hnone
      have hfin : a.finalize = none := (if_pos ⟨hp, hord⟩).symm.trans hnone
      have hsome := hord.2.2
      rw [hfin] at hsome
      cases hsome
  · obtain ⟨sent, hfl⟩ := flagged_of_sending ht.sound hr
    exact absurd (hfl.1 hp).2 (by simp [hsent])

/-- If it is not known to be finalized, then no finalize request is open. -/
theorem Tracked.noneOpen_finalize (ht : o.Tracked) (hout : o.track.outcome.finalized = false) :
    o.NoneOpen .finalize := by
  obtain ⟨hat, hsent⟩ := Bool.or_eq_false_iff.1 hout
  refine ⟨fun e he hp => ?_, fun r hr hp => ?_⟩
  · cases hf : e.fate with
    | lost => exact absurd (ht.remembers.finals e he hp hf) (by simp [hsent])
    | answered a =>
      refine ⟨a, rfl, fun hok => ?_⟩
      rw [ht.remembers.finalized e he a hp hf hok] at hat
      cases hat
  · obtain ⟨sent, hfl⟩ := flagged_of_sending ht.sound hr
    exact absurd (hfl.2.1 hp).2 (by simp [hsent])

/-! ## The invariant of an attempt -/

/-- A bucket that no open request counts against. -/
def Free (a : Account) (n : Subject) (o : Order υ ν) (b : Key) : Prop :=
  (b ∈ onCreate a n → o.NoneOpen .newOrder) ∧ (b ∈ onSuccess a n → o.NoneOpen .finalize)

/-- What holds of an attempt at every point. -/
structure Settling (a : Account) (n : Subject) (o : Order υ ν) : Prop where
  early : o.chain.Early → o.worker = .off ∧ o.log = []
  stopped : o.chain.Over → o.track.done = true ∨ ∃ ok, o.worker = .finished ok
  free : ∀ b, b ∈ o.chain.releasing a n ∨ .released b ∈ o.calls → o.Free a n b
  buckets : (o.calls.map Call.bucket ++ o.chain.pending a n).Perm (orderBuckets a n)

variable {a : Account} {b : Key}

theorem settling_new : (Order.new : Order υ ν).Settling a n :=
  ⟨fun _ => ⟨rfl, rfl⟩, fun h => h.elim, fun _ h => by simp [Order.new] at h,
    List.Perm.refl _⟩

/-- Nothing is settled while all buckets are still to be. -/
theorem Settling.calls_eq_nil (hs : o.Settling a n)
    (hp : o.chain.pending a n = orderBuckets a n) : o.calls = [] := by
  have hlen := hs.buckets.length_eq
  rw [hp, List.length_append, List.length_map] at hlen
  exact List.length_eq_zero_iff.1 (by omega)

/-- Buckets are only released before the goroutine of the order is started, and when `obtain` has
returned. -/
theorem Settling.early_or_over (hs : o.Settling a n)
    (hb : b ∈ o.chain.releasing a n ∨ .released b ∈ o.calls) : o.chain.Early ∨ o.chain.Over := by
  cases hc : o.chain with
  | reserve | refused | mark | prepay | giveBack | skipped => exact .inl trivial
  | outcome | abandon | commit | drain | refundMark | refund | settled => exact .inr trivial
  | run | abandoning =>
    have hnil := hs.calls_eq_nil (by rw [hc]; rfl)
    rw [hc, hnil] at hb
    simp at hb

theorem Settling.workStep (hs : o.Settling a n) (hw : WorkStep o o') : o'.Settling a n := by
  have hdone : o.chain.Over → o.track.done = true := fun ho => by
    rcases hs.stopped ho with hd | ⟨ok, hfin⟩
    · exact hd
    · exact absurd hfin (hw.live.2 ok)
  refine ⟨?_, ?_, ?_, ?_⟩
  · rw [hw.chain]
    exact fun he => absurd (hs.early he).1 hw.live.1
  · rw [hw.chain, hw.done]
    exact fun ho => .inl (hdone ho)
  · intro b hb
    rw [hw.chain, hw.calls] at hb
    rcases hs.early_or_over hb with he | ho
    · exact absurd (hs.early he).1 hw.live.1
    · obtain ⟨hcreate, hsuccess⟩ := hs.free b hb
      exact ⟨fun h => (hcreate h).workStep hw (hdone ho),
        fun h => (hsuccess h).workStep hw (hdone ho)⟩
  · rw [hw.chain, hw.calls]
    exact hs.buckets

/-- Before the goroutine of the order is started no request is open. -/
theorem noneOpen_off (hoff : o.worker = .off) (hlog : o.log = []) (q : Purpose) :
    o.NoneOpen q := by
  refine ⟨by simp [hlog], ?_⟩
  rw [hoff]
  simp

/-- What the outcome releases is free. -/
theorem Tracked.free_of_release (ht : o.Tracked) {ok : Bool}
    (hb : b ∈ release a n ok o.track.outcome) : o.Free a n b := by
  have hnodup := nodup_orderBuckets a n
  rw [orderBuckets, List.nodup_append'] at hnodup
  rw [release, List.mem_append] at hb
  refine ⟨fun hc => ?_, fun hsu => ?_⟩
  · rcases hb with hb | hb <;> split at hb
    · cases hb
    · rename_i hno
      exact ht.noneOpen_newOrder (Bool.or_eq_false_iff.1 (Bool.eq_false_iff.2 hno)).2
    · cases hb
    · exact absurd hb (hnodup.2.2 hc)
  · rcases hb with hb | hb <;> split at hb
    · cases hb
    · exact absurd hsu (hnodup.2.2 hb)
    · cases hb
    · rename_i hno
      exact ht.noneOpen_finalize (Bool.or_eq_false_iff.1 (Bool.eq_false_iff.2 hno)).2

variable {j : ChainInput ν}

/-! ## One step of the chain -/

variable (cfg n clock o j) in
/-- What a step of `attempt` or `settle` can do to the order. -/
inductive ChainStep : Order υ ν → Prop
  | begins {c} (hc : o.chain = .reserve)
    (hnext : c = reserved cfg.account ∨ c = .refused) :
    ChainStep { o with startedAt := clock, chain := c }
  | readsMark {mark most} (hc : o.chain = .mark)
    (hmark : mark = none ∨ ∃ cool, j = .waitState cool mark) :
    ChainStep { o with chain := .prepay mark most }
  | starts {mark most k} (hc : o.chain = .prepay mark most) :
    ChainStep (o.start cfg clock k mark)
  | isShort {mark most} (hc : o.chain = .prepay mark most) : ChainStep { o with chain := .giveBack }
  | givesBack (hc : o.chain = .giveBack) : ChainStep { o with
      calls := (orderBuckets cfg.account n).map .released ++ o.calls
      chain := .skipped }
  | givesUp (hc : o.chain = .run) : ChainStep { o with chain := .abandoning }
  | returns {ok got} (hc : o.chain = .run) (hw : o.worker = .finished got) :
    ChainStep { o with chain := .outcome ok }
  | abandons (hc : o.chain = .abandoning) :
    ChainStep { o with track := o.track.abandon, chain := .outcome false }
  | readsOutcome {ok} (hc : o.chain = .outcome ok) :
    ChainStep { o with chain := .abandon ok o.track.outcome }
  | settles {ok out} (hc : o.chain = .abandon ok out) : ChainStep { o with
      track := o.track.abandon
      chain := .commit (spend cfg.account n ok out) (release cfg.account n ok out) }
  | commits {b spend release} (hc : o.chain = .commit (b :: spend) release) :
    ChainStep { o with calls := .committed b :: o.calls, chain := .commit spend release }
  | releases {release} (hc : o.chain = .commit [] release) :
    ChainStep { o with calls := release.map .released ++ o.calls, chain := .drain }
  | drains (hc : o.chain = .drain) : ChainStep { o with
      track := o.track.drainPrepaid
      chain := .refundMark o.track.prepaid o.track.prepaidMark }
  | drainsNothing (hc : o.chain = .drain) :
    ChainStep { o with track := o.track.drainPrepaid, chain := .settled }
  | findsMark {left mark current} (hc : o.chain = .refundMark left mark)
    (hj : ∃ cool, j = .waitState cool current)
    (hmark : current = none ∨ current = mark) : ChainStep { o with chain := .refund left clock }
  | keeps {c} (hc : o.chain = c) (hover : c.Over) (hset : c ≠ .settled)
    (hpend : c.pending cfg.account n = []) : ChainStep { o with chain := .settled }
  | refunds {left readAt} (hc : o.chain = .refund left readAt) : ChainStep { o with
      refunded := o.refunded + left
      uses := ⟨o.prepaidAt, readAt⟩ :: o.uses
      chain := .settled }

theorem chainStep_of_attempt [DecidableEq ν] (h : o.attempt cfg n clock j = some o') :
    ChainStep cfg n clock o j o' := by
  revert h
  fun_cases attempt cfg n clock o j <;> rintro ⟨⟩
  all_goals
    have hc := ‹o.chain = _›
    first
      | exact .begins hc (.inl rfl)
      | exact .begins hc (.inr rfl)
      | exact .readsMark hc (.inr ⟨_, rfl⟩)
      | exact .readsMark hc (.inl rfl)
      | exact .keeps hc trivial (by simp) rfl
      | (constructor <;> assumption)
      | (split <;> [exact .drains hc; exact .drainsNothing hc])
      | (split <;> [exact .keeps hc trivial (by simp) rfl; exact .findsMark hc ⟨_, rfl⟩ (by grind)])

theorem Tracked.start (hlog : o.log = []) (k : Nat) (mark : Option ν) :
    (o.start cfg clock k mark).Tracked := by
  refine ⟨?_, ?_⟩
  · show Known _ o.log
    rw [hlog]
    exact ⟨rfl, rfl⟩
  · show Remembers _ o.log
    rw [hlog]
    exact ⟨by simp, by simp, by simp⟩

theorem Tracked.chainStep (ht : o.Tracked) (hs : o.Settling cfg.account n)
    (h : ChainStep cfg n clock o j o') : o'.Tracked := by
  have hsame : ∀ {t : Track υ ν}, o.track.SameOrder t →
      o.worker.Sound t o.log ∧ Remembers t o.log :=
    fun h => ⟨ht.sound.of_same h, ht.remembers.of_same h⟩
  cases h with
  | starts hc => exact .start (hs.early (by rw [hc]; trivial)).2 _ _
  | abandons | settles =>
    obtain ⟨hsound, hrem⟩ := hsame (t := o.track.abandon) ⟨rfl, rfl, rfl, rfl, rfl⟩
    exact ⟨hsound, hrem⟩
  | drains | drainsNothing =>
    obtain ⟨hsound, hrem⟩ := hsame (t := o.track.drainPrepaid) ⟨rfl, rfl, rfl, rfl, rfl⟩
    exact ⟨hsound, hrem⟩
  | _ => exact ⟨ht.sound, ht.remembers⟩

theorem Settling.moved (hs : o.Settling a n) (hworker : o'.worker = o.worker)
    (hlog : o'.log = o.log) (hcalls : o'.calls = o.calls)
    (hearly : o'.chain.Early → o.chain.Early)
    (hover : o'.chain.Over → o'.track.done = true ∨ ∃ ok, o.worker = .finished ok)
    (hrel : ∀ b ∈ o'.chain.releasing a n, o.Free a n b)
    (hpend : (o'.chain.pending a n).Perm (o.chain.pending a n)) : o'.Settling a n := by
  refine ⟨?_, ?_, ?_, ?_⟩
  · rw [hworker, hlog]
    exact fun he => hs.early (hearly he)
  · rw [hworker]
    exact hover
  · intro b hb
    have hfree : o.Free a n b := by
      rcases hb with hb | hb
      · exact hrel b hb
      · exact hs.free b (.inr (hcalls ▸ hb))
    rw [Free, NoneOpen, NoneOpen, hlog, hworker]
    exact hfree
  · rw [hcalls]
    exact (hpend.append_left _).trans hs.buckets

theorem Settling.start (hs : o.Settling cfg.account n)
    (hp : o.chain.pending cfg.account n = orderBuckets cfg.account n) (k : Nat)
    (mark : Option ν) : (o.start cfg clock k mark).Settling cfg.account n := by
  have hnil := hs.calls_eq_nil hp
  refine ⟨fun h => h.elim, fun h => h.elim, fun b hb => ?_, ?_⟩
  · simp [Order.start, hnil] at hb
  · simp [Order.start, Chain.pending, hnil]

theorem bucket_map_released (l : List Key) :
    (l.map Call.released).map Call.bucket = l := by
  rw [List.map_map]
  exact List.map_id l

theorem Settling.commit (hs : o.Settling a n) {spend release : List Key}
    (hc : o.chain = .commit (b :: spend) release) :
    Settling a n
      { o with calls := .committed b :: o.calls, chain := .commit spend release } := by
  refine ⟨fun h => h.elim, fun _ => hs.stopped (by rw [hc]; trivial), ?_, ?_⟩
  · intro b' hb'
    refine hs.free b' ?_
    rw [hc]
    simpa using hb'
  · have hperm := hs.buckets
    rw [hc] at hperm
    exact List.perm_middle.symm.trans hperm

theorem Settling.released (hs : o.Settling a n) {release : List Key} {c : Chain ν}
    (hfree : ∀ b ∈ release, o.Free a n b) (hpend : o.chain.pending a n = release)
    (hearly : c.Early → o.chain.Early) (hover : c.Over → o.chain.Over)
    (hrel : c.releasing a n = []) (hnone : c.pending a n = []) :
    Settling a n { o with calls := release.map .released ++ o.calls, chain := c } := by
  refine ⟨fun h => hs.early (hearly h), fun h => hs.stopped (hover h), ?_, ?_⟩
  · intro b' hb'
    simp only [hrel, List.not_mem_nil, false_or, List.mem_append, List.mem_map] at hb'
    rcases hb' with ⟨b, hb, heq⟩ | hb
    · cases heq
      exact hfree _ hb
    · exact hs.free b' (.inr hb)
  · have hperm := hs.buckets
    rw [hpend] at hperm
    rw [hnone, List.append_nil, List.map_append, bucket_map_released]
    exact List.perm_append_comm.trans hperm

theorem Settling.chainStep (hs : o.Settling cfg.account n) (ht : o.Tracked)
    (h : ChainStep cfg n clock o j o') : o'.Settling cfg.account n := by
  cases h with
  | begins hc hnext =>
    -- Where `attempt` goes from `reserve` the goroutine of the order is not started either.
    have hreserved : ∀ {c : Chain ν}, (c = reserved cfg.account ∨ c = .refused) →
        ¬ c.Over ∧ c.releasing cfg.account n = [] ∧
          c.pending cfg.account n = orderBuckets cfg.account n := by
      rintro c (rfl | rfl)
      · unfold reserved
        split <;> exact ⟨id, rfl, rfl⟩
      · exact ⟨id, rfl, rfl⟩
    obtain ⟨ho, hrel, hpend⟩ := hreserved hnext
    refine hs.moved rfl rfl rfl (fun _ => by rw [hc]; trivial) (fun h => absurd h ho)
      (by rw [hrel]; simp) ?_
    rw [hpend, hc]
    exact List.Perm.refl _
  | readsMark hc =>
    exact hs.moved rfl rfl rfl (fun _ => by rw [hc]; trivial) (fun h => h.elim)
      (by simp) (by rw [hc]; exact List.Perm.refl _)
  | starts hc => exact hs.start (by rw [hc]; rfl) _ _
  | isShort hc =>
    obtain ⟨hoff, hlog⟩ := hs.early (by rw [hc]; trivial)
    exact hs.moved rfl rfl rfl (fun _ => by rw [hc]; trivial) (fun h => h.elim)
      (fun b _ => ⟨fun _ => noneOpen_off hoff hlog _, fun _ => noneOpen_off hoff hlog _⟩)
      (by rw [hc]; exact List.Perm.refl _)
  | givesBack hc =>
    exact hs.released (fun b hb => hs.free b (.inl (by rw [hc]; exact hb))) (by rw [hc]; rfl)
      (fun _ => by rw [hc]; trivial) (fun h => h.elim) rfl rfl
  | givesUp hc =>
    exact hs.moved rfl rfl rfl (fun h => h.elim) (fun h => h.elim) (by simp)
      (by rw [hc]; exact List.Perm.refl _)
  | returns hc hw =>
    exact hs.moved rfl rfl rfl (fun h => h.elim) (fun _ => .inr ⟨_, hw⟩)
      (by simp) (by rw [hc]; exact List.Perm.refl _)
  | abandons hc =>
    exact hs.moved rfl rfl rfl (fun h => h.elim) (fun _ => .inl rfl) (by simp)
      (by rw [hc]; exact List.Perm.refl _)
  | readsOutcome hc =>
    exact hs.moved rfl rfl rfl (fun h => h.elim) (fun _ => hs.stopped (by rw [hc]; trivial))
      (fun b hb => ht.free_of_release hb) (by rw [hc]; exact List.Perm.refl _)
  | settles hc =>
    refine hs.moved rfl rfl rfl (fun h => h.elim) (fun _ => .inl rfl)
      (fun b hb => hs.free b (.inl (by rw [hc]; exact hb))) ?_
    rw [hc]
    exact spend_append_release _ _ _ _
  | commits hc => exact hs.commit hc
  | releases hc =>
    exact hs.released (fun b hb => hs.free b (.inl (by rw [hc]; exact hb))) (by rw [hc]; rfl)
      (fun h => h.elim) (fun _ => by rw [hc]; trivial) rfl rfl
  | drains hc | drainsNothing hc | findsMark hc | refunds hc =>
    exact hs.moved rfl rfl rfl (fun h => h.elim) (fun _ => hs.stopped (by rw [hc]; trivial))
      (by simp) (by rw [hc]; exact List.Perm.refl _)
  | keeps hc hover _ hpend =>
    refine hs.moved rfl rfl rfl (fun h => h.elim) (fun _ => hs.stopped (by rw [hc]; exact hover))
      (by simp) ?_
    rw [hc, hpend]
    exact List.Perm.refl _

/-- A call is never taken back. -/
theorem ChainStep.calls_subset (h : ChainStep cfg n clock o j o') : o.calls ⊆ o'.calls := by
  cases h with
  | givesBack | releases => exact List.subset_append_right _ _
  | commits => exact List.subset_cons_self _ _
  | _ => exact fun _ h => h

end Order

/-! ## Every run -/

variable {cfg : Setup ο} {s t : State ο η υ ν} {k : ο} [DecidableEq υ] [DecidableEq ν]

theorem settling_of_reach (h : (system cfg).Reach Library s) (k : ο) :
    (s.orders k).Tracked ∧ (s.orders k).Settling cfg.account (cfg.subject k) := by
  refine reach_order
    (P := fun k o => o.Tracked ∧ o.Settling cfg.account (cfg.subject k)) ?_ ?_ ?_ ?_ h k
  · exact fun k => ⟨⟨⟨rfl, rfl⟩, by simp [Order.new], by simp [Order.new], by simp [Order.new]⟩,
      Order.settling_new⟩
  · intro s k i o ho hg hw
    refine ⟨ho.1.work ?_ ?_ hw, ho.2.workStep (Order.workStep_of_work hw)⟩
    · rintro r rfl
      exact hg
    · rintro a rfl
      exact hg
  · intro s k i o ho _ hc
    have hstep := Order.chainStep_of_attempt hc
    exact ⟨ho.1.chainStep ho.2 hstep, ho.2.chainStep ho.1 hstep⟩
  · intro o k r pay sent a hd res ho hw
    exact ⟨ho.1.handled hw res, ho.2.workStep (Order.workStep_handled hw res)⟩

theorem calls_later {g : State ο η υ ν → Act ο η υ ν → Prop} {c : Call}
    (h : (system cfg).Later g s t) (hc : c ∈ (s.orders k).calls) : c ∈ (t.orders k).calls := by
  refine Lts.Later.stable (P := fun s => c ∈ (s.orders k).calls) ?_ h hc
  intro s a t hc _ hs
  obtain heq | ⟨i, -, hw⟩ | ⟨i, -, ha⟩ | ⟨i, r, pay, sent, b, hd, res, -, hw, -, ht⟩ :=
    order_step hs k
  · rwa [heq]
  · rwa [(Order.workStep_of_work hw).calls]
  · exact (Order.chainStep_of_attempt ha).calls_subset hc
  · rwa [ht, (Order.workStep_handled hw res).calls]

/-- **Order outcome accounting.**  If the buckets of an order's creation are released, then no
newOrder request was accepted or left unanswered, and none is sent at any later point of the run;
the same holds of its success and finalize requests.  Each reserved bucket is settled at most once,
and exactly once when the attempt is over. -/
theorem settled_as_it_came_out (h : (system cfg).Reach Library s) (k : ο) :
    (∀ b ∈ onCreate cfg.account (cfg.subject k), .released b ∈ (s.orders k).calls →
      ∀ t, (system cfg).Later Library s t → (t.orders k).NoneOpen .newOrder) ∧
    (∀ b ∈ onSuccess cfg.account (cfg.subject k), .released b ∈ (s.orders k).calls →
      ∀ t, (system cfg).Later Library s t → (t.orders k).NoneOpen .finalize) ∧
    ∀ b ∈ orderBuckets cfg.account (cfg.subject k),
      ((s.orders k).calls.map Call.bucket).count b ≤ 1 ∧
      ((s.orders k).chain = .settled ∨ (s.orders k).chain = .skipped →
        ((s.orders k).calls.map Call.bucket).count b = 1) := by
  have hfree : ∀ b, .released b ∈ (s.orders k).calls →
      ∀ t, (system cfg).Later Library s t →
        (t.orders k).Free cfg.account (cfg.subject k) b := fun b hb t ht =>
    (settling_of_reach (h.later ht) k).2.free b (.inr (calls_later ht hb))
  refine ⟨fun b hb hrel t ht => (hfree b hrel t ht).1 hb,
    fun b hb hrel t ht => (hfree b hrel t ht).2 hb, fun b hb => ?_⟩
  have hperm := (settling_of_reach h k).2.buckets.count_eq b
  rw [List.count_eq_one_of_mem (nodup_orderBuckets _ _) hb, List.count_append] at hperm
  refine ⟨by omega, fun hover => ?_⟩
  have hnone : (s.orders k).chain.pending cfg.account (cfg.subject k) = [] := by
    rcases hover with hover | hover <;> rw [hover] <;> rfl
  rw [hnone, List.count_nil] at hperm
  exact hperm

/-- The order is given up on while its newOrder request waits to be marked. -/
def givenUp : List (Act Unit Unit Nat Nat) :=
  [.chain () .granted, .chain () (.prepaid 0), .work () (.request ⟨.newOrder, true, 0, false⟩),
    .work () .go, .work () (.waitState 0 none), .work () (.clock 0), .work () .go, .work () .go,
    .work () (.took 0), .work () (.clock 0), .chain () .giveUp, .chain () .go, .chain () .go,
    .work () .go, .work () .go, .work () .go, .chain () .go, .chain () .go]

/-- The request is not sent, and all three buckets are released. -/
theorem given_up_before_the_order :
    ∃ s : State Unit Unit Nat Nat, (system (oneOrder .letsEncrypt)).Reach Library s ∧
      .released ⟨.leOrders, "id"⟩ ∈ (s.orders ()).calls ∧ (s.orders ()).NoneOpen .newOrder := by
  have hrun : ((system (oneOrder .letsEncrypt)).execWith Library
      (system (oneOrder .letsEncrypt)).init givenUp).any
      (fun s => .released ⟨.leOrders, "id"⟩ ∈ (s.orders ()).calls) = true := by decide +kernel
  obtain ⟨s, hr, hrel⟩ := Lts.exists_reach_of_any hrun
  exact ⟨s, hr, hrel, (settled_as_it_came_out hr ()).1 _ (by decide) hrel s
    Relation.ReflTransGen.refl⟩

end Tunneld.Acme

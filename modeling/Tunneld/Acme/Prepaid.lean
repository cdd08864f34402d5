import Tunneld.Acme.Settle
import Tunneld.Limit.Conformance

/-!
# What the requests of an order are paid with

An order prepays its requests.  A request uses one of those that are left, or takes a token of the
account's request bucket; a prepaid request that turns out not to be needed, because another bucket
is short or the order was given up on, goes back.  `settle` drains what is left and refunds it while
the goroutine of the order may still be at a request.

`Order.Balanced.prepaid` counts the prepaid requests: those left, the one at hand, those that paid
for a request, those drained and those refunded.  `Order.Balanced.fair` says that a request is paid
with one token: a prepaid one, in which case the request bucket is left out of the take, or one of
the take.

The take can fail without any error of the store: other callers may hold the budget lock for all of
`budgetLockTries`.  The request is then sent anyway, and nothing pays for it.

## Main results

* `requests_are_paid`: prepaid requests are neither lost nor used twice, and a request is sent for
  one token unless its take failed;
* `sent_for_nothing`: a take that failed because the lock was held.
-/

namespace Tunneld.Acme

variable {ο η υ ν : Type} [DecidableEq ο] [DecidableEq η]

/-- The tokens of the request bucket spent on a request. -/
def Pay.tokens (pay : Pay) : Nat := pay.paid.toNat + pay.taken

/-- A request is paid with one token, and with at most one if the take was in error. -/
def Pay.Fair (pay : Pay) : Prop := pay.tokens ≤ 1 ∧ (pay.error = none → pay.tokens = 1)

/-- The prepaid requests at hand. -/
@[simp] def Worker.holds : Worker υ ν → Nat
  | .before _ (.take paid _) | .before _ (.short paid) => paid.toNat
  | .before _ (.markPoll pay) | .trip _ pay _ => pay.paid.toNat
  | _ => 0

/-- The tokens taken for the request at hand. -/
@[simp] def Worker.taken : Worker υ ν → Nat
  | .before _ (.markPoll pay) | .trip _ pay _ => pay.taken
  | _ => 0

/-- The prepaid requests that are drained and not refunded yet. -/
@[simp] def Chain.left : Chain ν → Nat
  | .refundMark left _ | .refund left _ => left
  | _ => 0

/-- Where the goroutine of the order stands with the payment of a request. -/
def Worker.Paying (a : Account) (key : Option Key) : Worker υ ν → Prop
  | .off => True
  | .idle | .finished _ => key = (prepayBucket a).1
  | .before _ b =>
    key = (prepayBucket a).1 ∧
      match b with
      | .take paid bs =>
        (prepayBucket a).1.isSome = true → paid.toNat + Order.requestTokens a bs = 1
      | .markPoll pay => (prepayBucket a).1.isSome = true → pay.Fair
      | _ => True
  | .trip _ pay p =>
    key = (prepayBucket a).1 ∧ ((prepayBucket a).1.isSome = true → pay.Fair) ∧
      (p = .giveBack → pay.paid = true)

/-- The requests that were paid with a prepaid one. -/
def paidFor (l : List Pay) : Nat := l.countP fun pay => pay.paid

/-- The tokens that were taken for them. -/
def takenFor (l : List Pay) : Nat := (l.map Pay.taken).sum

@[simp] theorem paidFor_cons (pay : Pay) (l : List Pay) :
    paidFor (pay :: l) = paidFor l + pay.paid.toNat := by
  rw [paidFor, List.countP_cons]
  cases pay.paid <;> rfl

@[simp] theorem takenFor_cons (pay : Pay) (l : List Pay) :
    takenFor (pay :: l) = pay.taken + takenFor l := by
  simp [takenFor]

namespace Order

/-- What was paid for the requests whose round trip is over. -/
def pays (o : Order υ ν) : List Pay := o.log.map Sent.pay

/-- The books of an order. -/
structure Balanced (a : Account) (o : Order υ ν) : Prop where
  early : o.chain.Early → o.worker = .off ∧ o.log = [] ∧ o.refunded = 0
  prepaid : o.track.prepaid + o.worker.holds + paidFor o.pays + o.chain.left + o.refunded ≤
    o.prepaid
  taken : takenFor o.pays + o.worker.taken ≤ o.taken
  worker : o.worker.Paying a o.track.prepaidKey
  fair : ∀ pay ∈ o.pays, (prepayBucket a).1.isSome = true → pay.Fair

variable {cfg : Config} {n : Subject} {clock : Nat} {o o' : Order υ ν} {r : Request υ} {pay : Pay}
  {p : Trip υ} {i : Input υ ν} {a : Account}

/-- A charge and what is prepaid make one token of the request bucket. -/
theorem requestTokens_charge {key : Option Key} (hkey : key = (prepayBucket a).1)
    (hb : (prepayBucket a).1.isSome = true) (paid : Bool) :
    paid.toNat + requestTokens a (Order.charge a r key paid) = 1 := by
  obtain ⟨k, hk⟩ := Option.isSome_iff_exists.1 hb
  rw [requestTokens, hk]
  cases paid with
  | false => simp [Order.charge, count_requestBuckets hk]
  | true =>
    have hnone : ((requestBuckets a r.cert).filter fun b => some b ≠ key).count k = 0 := by
      rw [List.count_eq_zero]
      simp [hkey, hk]
    simp only [Order.charge, if_true, hnone]
    rfl

/-- A step that ends no round trip and refunds nothing. -/
theorem Balanced.stays (hb : o.Balanced a) (hlive : o.worker ≠ .off) (hchain : o'.chain = o.chain)
    (hlog : o'.log = o.log) (hrefunded : o'.refunded = o.refunded)
    (hprepaid : o'.prepaid = o.prepaid)
    (hp : o'.track.prepaid + o'.worker.holds ≤ o.track.prepaid + o.worker.holds)
    (ht : o'.worker.taken + o.taken ≤ o'.taken + o.worker.taken)
    (hw : o'.worker.Paying a o'.track.prepaidKey) : o'.Balanced a := by
  have hpays : o'.pays = o.pays := congrArg (List.map Sent.pay) hlog
  refine ⟨?_, ?_, ?_, hw, ?_⟩
  · rw [hchain]
    exact fun he => absurd (hb.early he).1 hlive
  · have := hb.prepaid
    rw [hpays, hchain, hrefunded, hprepaid]
    omega
  · have := hb.taken
    rw [hpays]
    omega
  · rw [hpays]
    exact hb.fair

theorem Balanced.ends (hb : o.Balanced a) (hw : o.worker = .trip r pay p) {t : Track υ ν}
    (ht : t.prepaid = o.track.prepaid) (hkey : t.prepaidKey = o.track.prepaidKey) (f : Fate υ) :
    ({ o with track := t }.ends r pay f).Balanced a := by
  have hpaying := hb.worker
  rw [hw] at hpaying
  refine ⟨?_, ?_, ?_, ?_, ?_⟩
  · intro he
    have hoff := (hb.early he).1
    rw [hw] at hoff
    cases hoff
  · have hle := hb.prepaid
    rw [hw] at hle
    show t.prepaid + 0 + paidFor (pay :: o.pays) + o.chain.left + o.refunded ≤ o.prepaid
    have hhold : (Worker.trip r pay p : Worker υ ν).holds = pay.paid.toNat := rfl
    rw [ht, paidFor_cons]
    omega
  · have hle := hb.taken
    rw [hw] at hle
    show takenFor (pay :: o.pays) + 0 ≤ o.taken
    have hhold : (Worker.trip r pay p : Worker υ ν).taken = pay.taken := rfl
    rw [takenFor_cons]
    omega
  · show t.prepaidKey = _
    rw [hkey]
    exact hpaying.1
  · intro pay' hpay'
    rcases List.mem_cons.1 hpay' with rfl | hpay'
    · exact hpaying.2.1
    · exact hb.fair pay' hpay'

theorem Balanced.before [DecidableEq υ] [DecidableEq ν] (hb : o.Balanced cfg.account)
    {b : Before ν} (hw : o.worker = .before r b) (h : o.before cfg clock r b i = some o') :
    o'.Balanced cfg.account := by
  have hlive : o.worker ≠ .off := by simp [hw]
  have hpaying := hb.worker
  rw [hw] at hpaying
  obtain ⟨hkey, hpaying⟩ := hpaying
  cases befores_of_before h with
  | refuses | quits =>
    exact hb.stays hlive rfl rfl rfl rfl (by simp [hw]) (by simp [hw])
      hkey
  | enters | readsWait | missesWait | pauses | goesOn | wakes | isShort | returnsNothing =>
    exact hb.stays hlive rfl rfl rfl rfl (by simp [hw]) (by simp [hw])
      ⟨hkey, trivial⟩
  | drops =>
    rw [Track.dropPrepaid_eq]
    refine hb.stays hlive rfl rfl rfl rfl ?_ (by simp [hw]) ⟨hkey, trivial⟩
    dsimp only
    rw [hw]
    split <;> simp
  | uses hpos =>
    refine hb.stays hlive rfl rfl rfl rfl ?_ (by simp [hw])
      ⟨hkey, fun hbk => requestTokens_charge hkey hbk true⟩
    simp only [hw, Worker.holds, Track.usePrepaid, Bool.toNat_true]
    omega
  | hasNone =>
    exact hb.stays hlive rfl rfl rfl rfl (by simp [hw])
      (by simp [hw]) ⟨hkey, fun hbk => requestTokens_charge hkey hbk false⟩
  | takes =>
    refine hb.stays hlive rfl rfl rfl rfl (by simp [hw]) ?_
      ⟨hkey, fun hbk => ⟨(hpaying hbk).le, fun _ => hpaying hbk⟩⟩
    simp only [hw, Worker.taken]
    omega
  | takesBlindly hn =>
    refine hb.stays hlive rfl rfl rfl rfl (by simp [hw]) ?_
      ⟨hkey, fun hbk => ⟨?_, fun hnone => by cases hnone⟩⟩
    · simp only [hw, Worker.taken]
      omega
    · have hone := hpaying hbk
      dsimp only [Pay.tokens]
      rw [hn]
      split <;> omega
  | returnsPrepaid =>
    exact hb.stays hlive rfl rfl rfl rfl (by simp [hw, Track.returnPrepaid])
      (by simp [hw]) ⟨hkey, trivial⟩
  | polls | passes =>
    exact hb.stays hlive rfl rfl rfl rfl (by rw [hw]; exact le_refl _)
      (by simp [hw, Nat.add_comm]) ⟨hkey, hpaying, fun h => by cases h⟩

theorem Balanced.trip [DecidableEq υ] (hb : o.Balanced a) (hw : o.worker = .trip r pay p)
    (h : o.trip r pay p i = some o') : o'.Balanced a := by
  have hlive : o.worker ≠ .off := by simp [hw]
  have hpaying := hb.worker
  rw [hw] at hpaying
  obtain ⟨hkey, hfair, hback⟩ := hpaying
  cases tripStep_of_trip hw h with
  | goesOn ht _ hpaid =>
    refine hb.stays hlive rfl rfl rfl rfl ?_ ?_ ⟨ht.key.trans hkey, hfair, hpaid⟩
    · rw [hw]
      exact (congrArg (· + pay.paid.toNat) ht.prepaid).le
    · rw [hw]
      exact (Nat.add_comm _ _).le
  | stops ht =>
    refine hb.stays hlive rfl rfl rfl rfl ?_ ?_ (ht.key.trans hkey)
    · simp [ht.prepaid]
    · simp
  | returnsPrepaid hp =>
    refine hb.stays hlive rfl rfl rfl rfl ?_ (by simp) hkey
    simp [hw, hback hp, Track.returnPrepaid]
  | ends ht => exact hb.ends hw ht.prepaid ht.key _

theorem Balanced.handled (hb : o.Balanced a) {sent : SentRequest} {b : Answer υ} {hd : Handling}
    (hw : o.worker = .trip r pay (.limited sent b hd)) (res : Handled) :
    (o.handled r pay sent b res).Balanced a := by
  have hlive : o.worker ≠ .off := by simp [hw]
  have hpaying := hb.worker
  rw [hw] at hpaying
  cases res with
  | next | answered =>
    exact hb.stays hlive rfl rfl rfl rfl (by rw [hw]; exact le_refl _)
      (by rw [hw]; exact (Nat.add_comm _ _).le) ⟨hpaying.1, hpaying.2.1, fun h => by cases h⟩
  | lost => exact hb.ends hw rfl rfl _

theorem Balanced.work [DecidableEq υ] [DecidableEq ν] (hb : o.Balanced cfg.account)
    (h : o.work cfg clock i = some o') : o'.Balanced cfg.account := by
  have hpaying := hb.worker
  unfold Order.work at h
  split at h
  · rename_i hw
    rw [hw] at hpaying
    cases h
    exact hb.stays (by simp [hw]) rfl rfl rfl rfl (by simp [hw])
      (by simp [hw]) ⟨hpaying, trivial⟩
  · rename_i hw
    rw [hw] at hpaying
    cases h
    exact hb.stays (by simp [hw]) rfl rfl rfl rfl (by simp [hw])
      (by simp [hw]) hpaying
  · rename_i hw
    exact hb.before hw h
  · rename_i hw
    exact hb.trip hw h
  · cases h

variable {j : ChainInput ν}

theorem Balanced.start (hb : o.Balanced cfg.account) (he : o.chain.Early) (k : Nat)
    (mark : Option ν) : (o.start cfg clock k mark).Balanced cfg.account := by
  obtain ⟨-, hlog, hrefunded⟩ := hb.early he
  have hpays : (o.start cfg clock k mark).pays = [] := congrArg (List.map Sent.pay) hlog
  refine ⟨fun h => h.elim, ?_, ?_, rfl, by simp [hpays]⟩
  · rw [hpays]
    simp [Order.start, Track.setPrepaid, hrefunded, paidFor]
  · rw [hpays]
    simp [takenFor, Order.start]

theorem Balanced.moved (hb : o.Balanced a) (hworker : o'.worker = o.worker)
    (hlog : o'.log = o.log) (hkey : o'.track.prepaidKey = o.track.prepaidKey)
    (htaken : o'.taken = o.taken) (hprepaid : o'.prepaid = o.prepaid)
    (hearly : o'.chain.Early → o.chain.Early ∧ o'.refunded = o.refunded)
    (hle : o'.track.prepaid + o'.chain.left + o'.refunded ≤
      o.track.prepaid + o.chain.left + o.refunded) : o'.Balanced a := by
  have hpays : o'.pays = o.pays := congrArg (List.map Sent.pay) hlog
  refine ⟨?_, ?_, ?_, ?_, ?_⟩
  · intro he
    obtain ⟨he, hr⟩ := hearly he
    rw [hworker, hlog, hr]
    exact hb.early he
  · have := hb.prepaid
    rw [hpays, hworker, hprepaid]
    omega
  · rw [hpays, hworker, htaken]
    exact hb.taken
  · rw [hworker, hkey]
    exact hb.worker
  · rw [hpays]
    exact hb.fair

theorem Balanced.chainStep (hb : o.Balanced cfg.account)
    (h : ChainStep cfg n clock o j o') : o'.Balanced cfg.account := by
  cases h with
  | begins hc hnext =>
    refine hb.moved rfl rfl rfl rfl rfl (fun _ => ⟨by rw [hc]; trivial, rfl⟩) ?_
    rcases hnext with rfl | rfl
    · unfold reserved
      split <;> simp
    · simp
  | readsMark hc | isShort hc | givesBack hc =>
    exact hb.moved rfl rfl rfl rfl rfl (fun _ => ⟨by rw [hc]; trivial, rfl⟩)
      (by simp [hc])
  | starts hc => exact hb.start (by rw [hc]; trivial) _ _
  | givesUp hc | returns hc | readsOutcome hc | commits hc | releases hc | findsMark hc
  | keeps hc =>
    exact hb.moved rfl rfl rfl rfl rfl (fun h => h.elim) (by simp [hc])
  | abandons hc | settles hc =>
    exact hb.moved rfl rfl rfl rfl rfl (fun h => h.elim) (by simp [hc, Track.abandon])
  | drains | drainsNothing =>
    exact hb.moved rfl rfl rfl rfl rfl (fun h => h.elim) (by simp [Track.drainPrepaid])
  | refunds hc =>
    refine hb.moved rfl rfl rfl rfl rfl (fun h => h.elim) ?_
    simp only [hc, Chain.left]
    omega

end Order

/-! ## Every run -/

variable [DecidableEq υ] [DecidableEq ν]

/-- What was paid for the request that is past the check, until its round trip is over. -/
def Worker.sendingPay (w : Worker υ ν) : Option Pay :=
  match w with
  | .trip _ pay _ => if w.sending.isSome then some pay else none
  | _ => none

/-- What was paid for the requests that were sent. -/
def Order.sentPays (o : Order υ ν) : List Pay := o.worker.sendingPay.toList ++ o.pays

variable {cfg : Setup ο} {s : State ο η υ ν}

theorem balanced_of_reach {g : State ο η υ ν → Act ο η υ ν → Prop}
    (h : (system cfg).Reach g s) (k : ο) : (s.orders k).Balanced cfg.account := by
  refine reach_order (P := fun _ o => o.Balanced cfg.account) ?_ ?_ ?_ ?_ h k
  · exact fun _ => ⟨fun _ => ⟨rfl, rfl, rfl⟩, le_refl _, le_refl _, trivial, by
      simp [Order.new, Order.pays]⟩
  · exact fun s k i o ho _ hw => ho.work hw
  · exact fun s k i o ho _ hc => ho.chainStep (Order.chainStep_of_attempt hc)
  · exact fun o k r pay sent b hd res ho hw => ho.handled hw res

/-- **Prepaid requests are conserved.**  The requests of an order that were paid with a prepaid one
and those refunded are no more than were prepaid, the tokens taken for its requests are no more than
its takes have spent, and on an account with a request bucket each request is sent for one token,
unless its take returned an error. -/
theorem requests_are_paid (h : (system cfg).Reach Lts.always s) (k : ο) :
    paidFor (s.orders k).sentPays + (s.orders k).refunded ≤ (s.orders k).prepaid ∧
    takenFor (s.orders k).sentPays ≤ (s.orders k).taken ∧
    ∀ pay ∈ (s.orders k).sentPays, (prepayBucket cfg.account).1.isSome = true →
      pay.tokens ≤ 1 ∧ (pay.error = none → pay.tokens = 1) := by
  have hb := balanced_of_reach h k
  generalize s.orders k = o at hb ⊢
  have hprepaid := hb.prepaid
  have htaken := hb.taken
  have hpaying := hb.worker
  -- The request that is being sent is at hand.
  have hsending : o.worker.sendingPay = none ∨
      ∃ r pay p, o.worker = .trip r pay p ∧ o.worker.sendingPay = some pay := by
    cases hw : o.worker with
    | off | idle | before | finished => exact .inl rfl
    | trip r pay p =>
      simp only [Worker.sendingPay]
      split
      · exact .inr ⟨r, pay, p, rfl, rfl⟩
      · exact .inl rfl
  rcases hsending with hnone | ⟨r, pay, p, hw, hsome⟩
  · rw [Order.sentPays, hnone]
    exact ⟨by simpa using by omega, by simpa using by omega, hb.fair⟩
  · have hhold : o.worker.holds = pay.paid.toNat := by rw [hw]; rfl
    have htake : o.worker.taken = pay.taken := by rw [hw]; rfl
    rw [hw] at hpaying
    rw [Order.sentPays, hsome, Option.toList_some, List.singleton_append, paidFor_cons,
      takenFor_cons]
    refine ⟨by omega, by omega, fun pay' hpay' => ?_⟩
    rcases List.mem_cons.1 hpay' with rfl | hpay'
    · exact hpaying.2.1
    · exact hb.fair pay' hpay'

/-- No step meets an error of the store. -/
def StoreWorks (_ : State ο η υ ν) : Act ο η υ ν → Prop
  | .work _ .fails | .work _ (.takeFails .store) | .chain _ .fails | .handle _ .fails
  | .handleOther _ .fails => False
  | _ => True

instance (s : State ο η υ ν) (a : Act ο η υ ν) : Decidable (StoreWorks s a) := by
  unfold StoreWorks
  rcases a with ⟨_, i⟩ | ⟨_, _ | _⟩ | ⟨_, _ | _⟩ | _ | ⟨_, _ | _⟩
  · rcases i with _ | _ | _ | _ | _ | _ | _ | _ | _ | ⟨_ | _⟩ <;> infer_instance
  all_goals infer_instance

/-- What a request gets of the answer of its `TakeACME`. -/
def takeInput : RequestBudget.Answer → Input υ ν
  | .answered _ wait => .took wait
  | .contended => .takeFails .contended

/-- The order prepays its requests, and another request is answered with `429`, so that they are
dropped and the first request has to take a token. -/
def dropsAndTakes : List (Act Unit Unit Nat Nat) :=
  [.chain () .granted, .chain () (.waitState 0 none), .chain () (.prepaid 9), .limited (),
    .handleOther () .done, .handleOther () (.wrote 1),
    .work () (.request ⟨.newOrder, true, 0, false⟩), .work () .go, .work () (.waitState 0 (some 1)),
    .work () (.clock 0), .work () .go, .work () .go]

/-- One caller holds the budget lock while another tries for it. -/
def outOfTries : List (RequestBudget.Act Unit Bool) :=
  [RequestBudget.Act.call true (.take [()]), .cmd true, .call false (.take [()])] ++
    List.replicate RequestBudget.budgetLockTries (RequestBudget.Act.cmd false)

/-- The store works, and a `TakeACME` is over: the lock was held at each of its tries.  An order
that gets its answer sends the request, and no token was spent on it. -/
theorem sent_for_nothing :
    ∃ (b : RequestBudget.State Unit Bool) (answer : RequestBudget.Answer),
      (RequestBudget.system Conformance.hourly).Reach Lts.always b ∧
      (b.phase false).answer = some answer ∧
      ∃ s : State Unit Unit Nat Nat,
        (system (oneOrder .gts)).execWith StoreWorks (system (oneOrder .gts)).init
          (dropsAndTakes ++ [Act.work () (takeInput answer), .work () (.clock 0), .work () .go,
            .work () .go]) = some s ∧
        ∃ pay ∈ (s.orders ()).sentPays, pay.tokens = 0 ∧ pay.error = some .contended := by
  have htries : ((RequestBudget.system Conformance.hourly).execWith Lts.always
      (RequestBudget.system Conformance.hourly).init outOfTries).any
        (fun s => (s.phase false).answer = some .contended) = true := by decide +kernel
  obtain ⟨b, hb, hanswer⟩ := Lts.exists_reach_of_any htries
  have hsends : ((system (oneOrder .gts)).execWith StoreWorks (system (oneOrder .gts)).init
      (dropsAndTakes ++ [Act.work () (takeInput .contended), .work () (.clock 0), .work () .go,
        .work () .go])).any (fun s => ∃ pay ∈ (s.orders ()).sentPays,
          pay.tokens = 0 ∧ pay.error = some .contended) = true := by decide +kernel
  obtain ⟨s, hs, hpay⟩ := (Option.any_eq_true _ _).1 hsends
  exact ⟨b, .contended, hb, hanswer, s, hs, of_decide_eq_true hpay⟩

/-- The order sends its first request for one of the nine it has prepaid. -/
def sendsOne : List (Act Unit Unit Nat Nat) :=
  [.chain () .granted, .chain () (.waitState 0 none), .chain () (.prepaid 9),
    .work () (.request ⟨.newOrder, true, 0, false⟩), .work () .go, .work () (.waitState 0 none),
    .work () (.clock 0), .work () .go, .work () .go, .work () (.took 0), .work () (.clock 0),
    .work () .go, .work () .go]

theorem sent_for_a_prepaid_one :
    ∃ s : State Unit Unit Nat Nat, (system (oneOrder .gts)).Reach Lts.always s ∧
      (s.orders ()).sentPays = [⟨true, 0, none⟩] ∧
      paidFor (s.orders ()).sentPays + (s.orders ()).refunded ≤ (s.orders ()).prepaid := by
  have hrun : ((system (oneOrder .gts)).execWith Lts.always (system (oneOrder .gts)).init
      sendsOne).any (fun s => (s.orders ()).sentPays = [⟨true, 0, none⟩]) = true := by
    decide +kernel
  obtain ⟨s, hreach, hs⟩ := Lts.exists_reach_of_any hrun
  exact ⟨s, hreach, hs, (requests_are_paid hreach ()).1⟩

end Tunneld.Acme

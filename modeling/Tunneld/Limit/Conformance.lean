import Tunneld.Limit.RequestLedger
import Tunneld.Limit.OrderLedger

/-!
# Budgets bound what is spent

What the authorities' limits ask of a bucket is that no interval sees more tokens spent than the
bucket holds, and what comes in during the interval.  Both kinds of bucket, those of requests and
those of orders, live up to that, up to the millisecond by which each write dates itself early; and
a hash that runs out makes no difference to anyone.

There is one way to get around it.  `writeBucket` sends an `HSET` and a `PEXPIRE`, and an `HSET`
leaves the time to live of a key alone.  If the time to live that an earlier write had set runs out
between the two, the new level goes with it, and the bucket is full again.  It takes a write in the
very millisecond in which the hash runs out, an hour after the bucket was full.

## Main results

* `spending_conforms`: the bound, for both kinds of bucket;
* `spent_twice_in_a_millisecond`: the way around it.
-/

namespace Tunneld.Conformance

open Function Clock TokenBucket AcmeBudget

section

variable {β κ η μ : Type} [DecidableEq β] [DecidableEq κ] [DecidableEq η] [DecidableEq μ]

/-- **Token-bucket conformance.**  In every run of `TakeACME`, `PrepayACME` and `RefundACME` calls,
and in every run of orders whose `CommitACME`s are covered by live reservations, provided no hash
runs out between the `HSET` and the `PEXPIRE` of a write to it:

* the tokens of a bucket spent in any interval, net of refunds, are at most its capacity and what
  comes in during the interval and a millisecond for each write in it;
* a hash that runs out changes the token count of no later read, not even of one whose clock reading
  is from before, by no more than a section may last. -/
theorem spending_conforms :
    (∀ (cfg : RequestBudget.Config β) (s : RequestBudget.State β κ),
      (RequestBudget.system cfg).Reach RequestBudget.Kept s → ∀ b,
        Conforms (cfg.bucket b) (s.log b) ∧
        ∀ s', RequestBudget.Kept s (.lapse b) → RequestBudget.step cfg s (.lapse b) = some s' →
          ∀ now, s.now ≤ now + budgetLockTTL →
            found (cfg.bucket b) (s'.budget b) now = found (cfg.bucket b) (s.budget b) now) ∧
    ∀ (cfg : Config β η μ) (s : OrderLedger.State β η μ),
      (OrderLedger.system cfg).Reach OrderLedger.Kept s → ∀ b, 0 < (cfg.bucket b).refill →
        Conforms (cfg.bucket b) (s.log b) ∧
        ∀ s', OrderLedger.Kept s (.lapseBudget b) →
          (OrderLedger.system cfg).step s (.lapseBudget b) = some s' →
          ∀ now, s.orders.now ≤ now + budgetLockTTL →
            found (cfg.bucket b) (s'.orders.budget b) now =
              found (cfg.bucket b) (s.orders.budget b) now := by
  refine ⟨fun cfg s hreach b => ?_, fun cfg s hreach b hrefill => ?_⟩
  · have hi := RequestBudget.inv_of_reach hreach
    have hcap : 0 ≤ (cfg.bucket b).capacity := le_trans zero_le_one (cfg.one_le_capacity b)
    refine ⟨(hi.booked b).conforms (cfg.refill_pos b) hcap, fun s' hg hs now hread => ?_⟩
    rw [RequestBudget.step] at hs
    simp only [Option.bind_eq_some_iff] at hs
    obtain ⟨x, hx, d, hd, hs⟩ := hs
    split at hs
    · rename_i hout
      cases hs
      have htimed := (hi.timed b).resolve_right fun hk => by
        obtain ⟨k, hk⟩ := hk
        exact hg k ((hi.lock k).1 (RequestBudget.holds_of_expiring hk)) hk
      show found _ (update s.budget b none b) now = _
      rw [update_self]
      exact (hi.booked b).found_none htimed (cfg.refill_pos b) hx hd hout hread
    · cases hs
  · have hi := OrderLedger.inv_of_reach hrefill hreach
    have hbase := AcmeBudget.inv_of_reach (OrderLedger.orders_reach hreach)
    refine ⟨hi.booked.conforms hrefill (capacity_nonneg cfg b), fun s' hg hs now hread => ?_⟩
    obtain ⟨t, ht, rfl⟩ := Option.map_eq_some_iff.1 hs
    cases AcmeBudget.step_cases ht with
    | lapseBudget hx hd hout =>
      have htimed := hi.timed.resolve_right fun hm => by
        obtain ⟨m, hm⟩ := hm
        exact hg.2 m (hbase.lock m (AcmeBudget.Phase.holds_of_writing hm)) hm
      show found _ (update s.orders.budget b none b) now = _
      rw [update_self]
      exact hi.booked.found_none htimed hrefill hx hd hout hread

end

/-- One bucket of one token an hour. -/
def hourly : RequestBudget.Config Unit where
  bucket := fun _ => ⟨1, 3600 * second⟩
  one_le_capacity := fun _ => le_refl _
  refill_pos := fun _ => by decide

/-- Nobody resyncs a bucket. -/
def NoResync (_ : RequestBudget.State Unit Unit) : RequestBudget.Act Unit Unit → Prop
  | .call _ op => op.resyncs = false
  | _ => True

instance (s : RequestBudget.State Unit Unit) (a : RequestBudget.Act Unit Unit) :
    Decidable (NoResync s a) := by
  unfold NoResync; split <;> infer_instance

/-- A `TakeACME` of the bucket, up to some command. -/
def takeSome (n : Nat) : List (RequestBudget.Act Unit Unit) :=
  .call () (.take [()]) :: List.replicate n (.cmd ())

/-- The token is taken, and taken again two hours later, in the millisecond in which the hash runs
out; the new level has been written by then, and its time to live has not. -/
def lapseInWrite : List (RequestBudget.Act Unit Unit) :=
  takeSome 8 ++ [RequestBudget.Act.tick 7200000000000] ++ takeSome 5 ++
    [RequestBudget.Act.tick 1000000]

/-- A token that was spent a millisecond ago is there again, and can be spent again. -/
theorem spent_twice_in_a_millisecond :
    (∃ s, (RequestBudget.system hourly).Reach NoResync s ∧
      ¬ Conforms (hourly.bucket ()) (s.log ())) ∧
    ∃ s s', (RequestBudget.system hourly).Reach NoResync s ∧
      RequestBudget.step hourly s (.lapse ()) = some s' ∧
      found (hourly.bucket ()) (s'.budget ()) s.now ≠
        found (hourly.bucket ()) (s.budget ()) s.now := by
  refine ⟨?_, ?_⟩
  · have hrun : ((RequestBudget.system hourly).execWith NoResync (RequestBudget.system hourly).init
        (lapseInWrite ++ [RequestBudget.Act.lapse ()] ++
          List.replicate 3 (RequestBudget.Act.cmd ()) ++ takeSome 8)).any (fun s =>
          (hourly.bucket ()).capacity + ((1000000 + (within 7200000000000 7200001000000
            (s.log ())).length * millisecond : Int) : ℚ) / ((hourly.bucket ()).refill : ℚ) <
              spent (within 7200000000000 7200001000000 (s.log ()))) = true := by decide +kernel
    obtain ⟨s, hreach, hmore⟩ := Lts.exists_reach_of_any hrun
    refine ⟨s, hreach, fun hc => not_lt.2 ?_ hmore⟩
    exact hc 7200000000000 7200001000000 (by decide)
  · have hrun : ((RequestBudget.system hourly).execWith NoResync (RequestBudget.system hourly).init
        lapseInWrite).any (fun s => ((RequestBudget.step hourly s (.lapse ())).any fun s' =>
          found (hourly.bucket ()) (s'.budget ()) s.now ≠
            found (hourly.bucket ()) (s.budget ()) s.now) = true) = true := by decide +kernel
    obtain ⟨s, hreach, hs⟩ := Lts.exists_reach_of_any hrun
    obtain ⟨s', hs', hne⟩ := (Option.any_eq_true _ _).1 hs
    exact ⟨s, s', hreach, hs', of_decide_eq_true hne⟩

/-- A request takes the token, the hash runs out two hours later, and another request takes the
token again; an order reserves a token and spends it. -/
theorem taken_and_committed :
    (∃ s, (RequestBudget.system (κ := Unit) hourly).Reach RequestBudget.Kept s ∧
      (s.log ()).length = 2 ∧ Conforms (hourly.bucket ()) (s.log ())) ∧
    ∃ s, (OrderLedger.system oneToken).Reach OrderLedger.Kept s ∧
      (s.log ()).length = 1 ∧ Conforms (oneToken.bucket ()) (s.log ()) := by
  refine ⟨?_, ?_⟩
  · have hrun : ((RequestBudget.system (κ := Unit) hourly).execWith RequestBudget.Kept
        (RequestBudget.system hourly).init (takeSome 8 ++
          [RequestBudget.Act.tick 7200001000000, .lapse ()] ++ takeSome 8)).any
          (fun s => (s.log ()).length = 2) = true := by decide +kernel
    obtain ⟨s, hreach, htwo⟩ := Lts.exists_reach_of_any hrun
    exact ⟨s, hreach, htwo,
      ((spending_conforms (η := Unit) (μ := Unit)).1 hourly s hreach ()).1⟩
  · have hrun : ((OrderLedger.system oneToken).execWith OrderLedger.Kept
        (OrderLedger.system oneToken).init (reserveAll true (60 * second) ++
          commitSpend true)).any (fun s => (s.log ()).length = 1) = true := by decide +kernel
    obtain ⟨s, hreach, hone⟩ := Lts.exists_reach_of_any hrun
    exact ⟨s, hreach, hone,
      ((spending_conforms (κ := Unit)).2 oneToken s hreach () (by decide)).1⟩

end Tunneld.Conformance

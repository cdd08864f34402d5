import Tunneld.Limit.AcmeSafety
import Tunneld.Limit.BucketLedger

/-!
# The order budgets keep their ledgers

`Tunneld.Limit.AcmeBudget` follows the reservations of orders; here the same runs are followed
together with the ledger of each bucket, to which every `HSET` of a `CommitACME` adds an entry.

That a commit takes no more than was there is what reservations are for: a `CommitACME` that looks
at the clock while its reservation is live finds at least the token it has reserved
(`AcmeBudget.Inv.knows`).  The rest is as for the request budgets: the books are kept from the clock
reading of the commit on, as long as the hash does not run out between its `HSET` and its `PEXPIRE`
(`Kept`).

## Main results

* `next`: every command of an order keeps the books (`Tunneld.Limit.Conformance` has the bound).
-/

namespace Tunneld

open Function

namespace AcmeBudget.Phase

variable {β η : Type}

/-- The clock reading of a commit that has not set the time to live yet. -/
def reading : Phase β η → Option Int
  | .commitRead _ now | .commitSet _ now _ | .commitExpire _ now _ => some now
  | _ => none

/-- The bucket that has a new level and not yet its time to live. -/
def writing : Phase β η → Option β
  | .commitExpire b _ _ => some b
  | _ => none

theorem holds_of_reading {ph : Phase β η} {r : Int} (h : ph.reading = some r) :
    ph.holds = true := by
  cases ph <;> first | rfl | cases h

theorem holds_of_writing {ph : Phase β η} {b : β} (h : ph.writing = some b) : ph.holds = true := by
  cases ph <;> first | rfl | cases h

end AcmeBudget.Phase

namespace OrderLedger

open Clock TokenBucket AcmeBudget

variable {β η μ : Type} (cfg : Config β η μ)

/-- The orders of an authority, and the writes to each bucket, newest first. -/
structure State (β η μ : Type) where
  orders : AcmeBudget.State β η μ
  log : β → List Entry

/-- The write that the next command of an order makes. -/
def entry : Phase β η → Option (β × Entry)
  | .commitSet b now level => some (b, ⟨now, 1, ((cfg.bucket b).spend level now).tokens⟩)
  | _ => none

/-- The write that a step makes. -/
def write (s : AcmeBudget.State β η μ) : Act β η μ → Option (β × Entry)
  | .cmd m => entry cfg (s.phase m)
  | _ => none

/-- The ledgers after a step. -/
def enter [DecidableEq β] (log : β → List Entry) : Option (β × Entry) → β → List Entry
  | none => log
  | some (b, e) => update log b (e :: log b)

/-- The orders of one authority, with their ledgers. -/
def system [DecidableEq β] [DecidableEq η] [DecidableEq μ] : Lts (State β η μ) (Act β η μ) where
  init := ⟨(AcmeBudget.system cfg).init, fun _ => []⟩
  step s a := (AcmeBudget.step cfg s.orders a).map fun t => ⟨t, enter s.log (write cfg s.orders a)⟩

/-- No hash runs out between the `HSET` and the `PEXPIRE` of a write to it. -/
def Unbroken (s : AcmeBudget.State β η μ) : Act β η μ → Prop
  | .lapseBudget b => ∀ m ∈ s.lock, (s.phase m).writing ≠ some b
  | _ => True

instance [DecidableEq β] (s : AcmeBudget.State β η μ) (a : Act β η μ) :
    Decidable (Unbroken s a) := by
  unfold Unbroken; rcases a with _ | _ <;> infer_instance

/-- The assumptions on a run: a commit looks at the clock while its reservation is live, and no
write is broken. -/
def Kept (s : State β η μ) (a : Act β η μ) : Prop := InTime s.orders a ∧ Unbroken s.orders a

instance [DecidableEq β] (s : State β η μ) (a : Act β η μ) : Decidable (Kept s a) :=
  inferInstanceAs (Decidable (_ ∧ _))

variable {cfg} {s s' : State β η μ} {m : μ}

/-- The orders themselves run as before. -/
theorem orders_reach [DecidableEq β] [DecidableEq η] [DecidableEq μ]
    (h : (system cfg).Reach Kept s) : (AcmeBudget.system cfg).Reach InTime s.orders := by
  have hinit : (AcmeBudget.system cfg).Reach InTime (system cfg).init.orders :=
    Relation.ReflTransGen.refl
  refine h.invariant (P := fun s => (AcmeBudget.system cfg).Reach InTime s.orders) hinit
    fun s a t _ hr hg hs => ?_
  obtain ⟨u, hu, rfl⟩ := Option.map_eq_some_iff.1 hs
  exact hr.tail ⟨a, hg.1, hu⟩

/-- The clock reading a commit may still use. -/
def since (s : AcmeBudget.State β η μ) : Int :=
  match s.lock with
  | none => s.now
  | some m => (s.phase m).reading.getD s.now

theorem since_of_free {t : AcmeBudget.State β η μ} (h : t.lock = none) : since t = t.now := by
  rw [since, h]

theorem since_of_held {t : AcmeBudget.State β η μ} (h : t.lock = some m) :
    since t = (t.phase m).reading.getD t.now := by
  rw [since, h]

theorem since_tick (t : AcmeBudget.State β η μ) (d : Nat) :
    since t ≤ since { t with now := t.now + d } := by
  rw [since, since]
  cases t.lock with
  | none => show t.now ≤ t.now + d; omega
  | some m =>
    show (t.phase m).reading.getD t.now ≤ (t.phase m).reading.getD (t.now + d)
    cases (t.phase m).reading with
    | none => show t.now ≤ t.now + d; omega
    | some r => exact le_refl _

/-- What a commit of the bucket knows of its books. -/
def Knows (cfg : Config β η μ) (s : State β η μ) (b : β) : AcmeBudget.Phase β η → Prop
  | .commitSet b' now level => b' = b → Seen (cfg.bucket b) (s.log b) now level
  | .commitExpire b' now level => b' = b → level.since = now ∧
    level.tokens ≤ (cfg.bucket b).capacity ∧
    ∃ x, s.orders.budget b = some x ∧ x.t = level.tokens ∧ x.atMs = unixMilli now
  | _ => True

/-- **What is always true** of a bucket. -/
structure Inv (cfg : Config β η μ) (b : β) (s : State β η μ) : Prop where
  /-- The clock reading of a commit was taken inside its section. -/
  reading : ∀ m r, (s.orders.phase m).reading = some r →
    s.orders.lockedAt ≤ r ∧ r ≤ s.orders.now
  /-- The books are kept. -/
  booked : Booked (cfg.bucket b) (s.orders.budget b) (s.log b) (since s.orders)
  /-- The bucket is full before its hash runs out, unless it has just been written to. -/
  timed : Timed (cfg.bucket b) (s.orders.budget b) ∨
    ∃ m, (s.orders.phase m).writing = some b
  /-- What each commit knows. -/
  knows : ∀ m, Knows cfg s b (s.orders.phase m)

variable {b : β}

theorem Knows.of_not_reading {ph : AcmeBudget.Phase β η} (h : ph.reading = none) :
    Knows cfg s b ph := by
  cases ph <;> trivial

namespace Inv

theorem since_le (h : Inv cfg b s) : since s.orders ≤ s.orders.now := by
  rw [since]
  split
  · exact le_refl _
  · rename_i m hm
    cases hr : (s.orders.phase m).reading with
    | none => exact le_refl _
    | some r => exact (h.reading m r hr).2

/-- The present is at most a section's length after the reading. -/
theorem le_since (h : Inv cfg b s) (hi : AcmeBudget.Inv cfg s.orders) :
    s.orders.now ≤ since s.orders + budgetLockTTL := by
  have hpos : (0 : Int) ≤ budgetLockTTL := by decide
  rw [since]
  split
  · omega
  · rename_i m hm
    have ht := hi.time (by rw [hm]; exact Option.some_ne_none m)
    cases hr : (s.orders.phase m).reading with
    | none => rw [Option.getD_none]; omega
    | some r =>
      have := (h.reading m r hr).1
      rw [Option.getD_some]
      omega

variable [DecidableEq μ]

/-- An order moves on, and the books of the bucket are still kept. -/
theorem moved {ph : AcmeBudget.Phase β η} (h : Inv cfg b s)
    (hphase : s'.orders.phase = update s.orders.phase m ph)
    (hreading : ∀ r, ph.reading = some r → s'.orders.lockedAt ≤ r ∧ r ≤ s'.orders.now)
    (hothers : ∀ m' ≠ m, (s.orders.phase m').reading ≠ none →
      s'.orders.lockedAt = s.orders.lockedAt ∧ s.orders.now ≤ s'.orders.now ∧
      s'.orders.budget b = s.orders.budget b ∧ s'.log b = s.log b)
    (hbooked : Booked (cfg.bucket b) (s'.orders.budget b) (s'.log b) (since s'.orders))
    (htimed : Timed (cfg.bucket b) (s'.orders.budget b) ∨ ph.writing = some b ∨
      ∃ m' ≠ m, (s.orders.phase m').writing = some b)
    (hknows : Knows cfg s' b ph) : Inv cfg b s' := by
  have hself : s'.orders.phase m = ph := by rw [hphase, update_self]
  have hother : ∀ {m'}, m' ≠ m → s'.orders.phase m' = s.orders.phase m' := fun hne => by
    rw [hphase, update_of_ne hne]
  refine ⟨fun m' r hr => ?_, hbooked, ?_, fun m' => ?_⟩
  · by_cases hm : m' = m
    · subst hm
      exact hreading r (hself ▸ hr)
    · rw [hother hm] at hr
      obtain ⟨hlo, hhi⟩ := h.reading m' r hr
      obtain ⟨hlocked, hnow, -, -⟩ := hothers m' hm (by rw [hr]; exact Option.some_ne_none r)
      exact ⟨hlocked ▸ hlo, le_trans hhi hnow⟩
  · rcases htimed with ht | hw | ⟨m', hm, hw⟩
    · exact .inl ht
    · exact .inr ⟨m, hself ▸ hw⟩
    · exact .inr ⟨m', (hother hm) ▸ hw⟩
  · by_cases hm : m' = m
    · subst hm
      exact hself ▸ hknows
    · rw [hother hm]
      cases hr : (s.orders.phase m').reading with
      | none => exact .of_not_reading hr
      | some r =>
        obtain ⟨-, -, hbudget, hlog⟩ := hothers m' hm (by rw [hr]; exact Option.some_ne_none r)
        have hk := h.knows m'
        cases hp : s.orders.phase m' with
        | commitSet b' now level =>
          rw [hp] at hk
          intro hb
          rw [hlog]
          exact hk hb
        | commitExpire b' now level =>
          rw [hp] at hk
          intro hb
          rw [hbudget]
          exact hk hb
        | _ => trivial

/-- An order moves on, and nothing happens to hash and ledger of the bucket. -/
theorem same_store {ph : AcmeBudget.Phase β η} (h : Inv cfg b s)
    (hphase : s'.orders.phase = update s.orders.phase m ph)
    (hbudget : s'.orders.budget b = s.orders.budget b) (hlog : s'.log b = s.log b)
    (hsince : since s.orders ≤ since s'.orders)
    (hreading : ∀ r, ph.reading = some r → s'.orders.lockedAt ≤ r ∧ r ≤ s'.orders.now)
    (hothers : ∀ m' ≠ m, (s.orders.phase m').reading ≠ none →
      s'.orders.lockedAt = s.orders.lockedAt ∧ s.orders.now ≤ s'.orders.now)
    (hwriting : (s.orders.phase m).writing = some b → ph.writing = some b)
    (hknows : Knows cfg s' b ph) : Inv cfg b s' := by
  refine h.moved hphase hreading (fun m' hm hr => ?_) ?_ ?_ hknows
  · obtain ⟨hlocked, hnow⟩ := hothers m' hm hr
    exact ⟨hlocked, hnow, hbudget, hlog⟩
  · rw [hbudget, hlog]
    exact h.booked.mono hsince
  · rw [hbudget]
    rcases h.timed with ht | ⟨m', hw⟩
    · exact .inl ht
    · by_cases hm : m' = m
      · subst hm
        exact .inr (.inl (hwriting hw))
      · exact .inr (.inr ⟨m', hm, hw⟩)

end Inv

/-! ## The commands of an order -/

variable [DecidableEq μ]

/-- A command that is none of those of a commit before its `ZREM` leaves hashes and ledgers
alone. -/
theorem next_plain [DecidableEq β] [DecidableEq η] {t t' : AcmeBudget.State β η μ}
    (hn : Next cfg t m t') (hread : (t.phase m).reading = none)
    (hclock : ∀ b, t.phase m ≠ .commitClock b) :
    t'.budget = t.budget ∧ t'.now = t.now ∧
    (∃ ph, t'.phase = update t.phase m ph ∧ ph.reading = none) ∧
    (t'.lock = t.lock ∧ t'.lockedAt = t.lockedAt ∨ t'.lock = none ∧ t'.lockedAt = t.lockedAt ∨
      t.lock = none ∧ t'.lock = some m) := by
  cases hn with
  | commitClock hp => exact absurd hp (hclock _)
  | commitRead hp | commitSet hp | commitExpire hp => rw [hp] at hread; cases hread
  | lock _ hl | commitLock _ hl => exact ⟨rfl, rfl, ⟨_, rfl, rfl⟩, .inr (.inr ⟨hl, rfl⟩)⟩
  | unlock => exact ⟨rfl, rfl, ⟨_, rfl, by split <;> rfl⟩, .inr (.inl ⟨rfl, rfl⟩)⟩
  | commitUnlock => exact ⟨rfl, rfl, ⟨_, rfl, rfl⟩, .inr (.inl ⟨rfl, rfl⟩)⟩
  | _ => exact ⟨rfl, rfl, ⟨_, rfl, rfl⟩, .inl ⟨rfl, rfl⟩⟩

theorem writing_of_not_reading {ph : AcmeBudget.Phase β η} (h : ph.reading = none) :
    ph.writing = none := by
  cases ph <;> first | rfl | cases h

namespace Inv

variable {now : Int} {level : Level} {t : AcmeBudget.State β η μ}

theorem plain [DecidableEq β] [DecidableEq η] (h : Inv cfg b s) (hi : AcmeBudget.Inv cfg s.orders)
    (hn : Next cfg s.orders m t) (hread : (s.orders.phase m).reading = none)
    (hclock : ∀ b, s.orders.phase m ≠ .commitClock b) : Inv cfg b ⟨t, s.log⟩ := by
  obtain ⟨hbudget, hnow, ⟨ph, hphase, hph⟩, hlock⟩ := next_plain hn hread hclock
  refine h.same_store hphase (by rw [hbudget]) rfl ?_
    (fun r hr => absurd (hph.symm.trans hr) (Option.some_ne_none r).symm) (fun m' hm hr => ?_)
    (fun hw => ?_) (.of_not_reading hph)
  · -- the reading that counts is that of another order, or the present
    have hle := h.since_le
    show since s.orders ≤ since t
    rcases hlock with ⟨hl, -⟩ | ⟨hl, -⟩ | ⟨hl, hl'⟩
    · cases hl' : s.orders.lock with
      | none => rw [since_of_free (hl.trans hl'), hnow]; exact hle
      | some m' =>
        rw [since_of_held hl', since_of_held (hl.trans hl'), hnow, hphase]
        by_cases hm : m' = m
        · subst hm
          rw [update_self, hread, hph]
        · rw [update_of_ne hm]
    · rw [since_of_free hl, hnow]
      exact hle
    · rw [since_of_held hl', hphase, update_self, hph, hnow]
      exact hle
  · rcases hlock with ⟨-, hat⟩ | ⟨-, hat⟩ | ⟨hl, -⟩
    · exact ⟨hat, le_of_eq hnow.symm⟩
    · exact ⟨hat, le_of_eq hnow.symm⟩
    · obtain ⟨r, hr⟩ := Option.ne_none_iff_exists'.1 hr
      have := hi.lock m' (AcmeBudget.Phase.holds_of_reading hr)
      rw [hl] at this
      cases this
  · rw [writing_of_not_reading hread] at hw
    cases hw

omit [DecidableEq μ] in
theorem nobody_else (hi : AcmeBudget.Inv cfg s.orders) (hm : (s.orders.phase m).holds = true)
    {m' : μ} (hne : m' ≠ m) : ¬ (s.orders.phase m').reading ≠ none := by
  intro hr
  obtain ⟨r, hr⟩ := Option.ne_none_iff_exists'.1 hr
  have hholds := AcmeBudget.Phase.holds_of_reading hr
  rw [hi.others hm hne] at hholds
  cases hholds

variable {b' : β}

theorem commitClock (h : Inv cfg b s) (hi : AcmeBudget.Inv cfg s.orders)
    (hp : s.orders.phase m = .commitClock b') :
    Inv cfg b ⟨s.orders.setPhase m (.commitRead b' s.orders.now), s.log⟩ := by
  have hholds : (s.orders.phase m).holds = true := by rw [hp]; rfl
  have hlock := hi.lock m hholds
  refine h.same_store rfl rfl rfl ?_ (fun r hr => ?_)
    (fun m' hm hr => absurd hr (nobody_else hi hholds hm)) (fun hw => by rw [hp] at hw; cases hw)
    trivial
  · refine le_trans h.since_le (le_of_eq ?_)
    have hlock' : (s.orders.setPhase m (.commitRead b' s.orders.now)).lock = some m := hlock
    show s.orders.now = since (s.orders.setPhase m (.commitRead b' s.orders.now))
    rw [since_of_held hlock']
    show _ = (update s.orders.phase m _ m).reading.getD _
    rw [update_self]
    rfl
  · obtain rfl : s.orders.now = r := Option.some_inj.1 hr
    exact ⟨(hi.time (by rw [hlock]; exact Option.some_ne_none m)).1, le_refl _⟩

/-- A section that has read the clock keeps its reading. -/
theorem since_setPhase {ph : AcmeBudget.Phase β η} (hi : AcmeBudget.Inv cfg s.orders)
    (hr : (s.orders.phase m).reading = some now) (hlock : t.lock = s.orders.lock)
    (hphase : t.phase = update s.orders.phase m ph) (hph : ph.reading = some now) :
    since s.orders = now ∧ since t = now := by
  have hl := hi.lock m (AcmeBudget.Phase.holds_of_reading hr)
  refine ⟨?_, ?_⟩
  · rw [since_of_held hl, hr, Option.getD_some]
  · rw [since_of_held (hlock.trans hl), hphase, update_self, hph, Option.getD_some]

theorem commitRead (h : Inv cfg b s) (hi : AcmeBudget.Inv cfg s.orders)
    (hp : s.orders.phase m = .commitRead b' now) :
    Inv cfg b ⟨s.orders.setPhase m (.commitSet b' now
      (parseBucket (cfg.bucket b') (s.orders.budget b') now)), s.log⟩ := by
  have hr : (s.orders.phase m).reading = some now := by rw [hp]; rfl
  have hholds := AcmeBudget.Phase.holds_of_reading hr
  obtain ⟨hold, hnew⟩ := since_setPhase (t := s.orders.setPhase m (.commitSet b' now
    (parseBucket (cfg.bucket b') (s.orders.budget b') now))) hi hr rfl rfl rfl
  refine h.same_store rfl rfl rfl (by rw [hold, hnew]) (fun r hr' => ?_)
    (fun m' hm hr => absurd hr (nobody_else hi hholds hm)) (fun hw => by rw [hp] at hw; cases hw)
    fun hb => ?_
  · exact h.reading m r (hr.trans hr')
  · subst hb
    exact (hold ▸ h.booked).seen (capacity_nonneg cfg b')

variable [DecidableEq β]

/-- **A commit writes what it may**: its own reservation is still there. -/
theorem commitSet (h : Inv cfg b s) (hi : AcmeBudget.Inv cfg s.orders)
    (hrefill : 0 < (cfg.bucket b).refill) (hp : s.orders.phase m = .commitSet b' now level) :
    Inv cfg b ⟨((s.orders.setBudget b' (hset (s.orders.budget b')
        ((cfg.bucket b').spend level now))).setToken m b' .spent).setPhase m
          (.commitExpire b' now ((cfg.bucket b').spend level now)),
      update s.log b' (⟨now, 1, ((cfg.bucket b').spend level now).tokens⟩ ::
        s.log b')⟩ := by
  have hr : (s.orders.phase m).reading = some now := by rw [hp]; rfl
  have hholds := AcmeBudget.Phase.holds_of_reading hr
  have hothers : ∀ m' ≠ m, ¬ (s.orders.phase m').reading ≠ none := fun m' hm =>
    nobody_else hi hholds hm
  generalize ht : ((s.orders.setBudget b' (hset (s.orders.budget b')
    ((cfg.bucket b').spend level now))).setToken m b' .spent).setPhase m
      (.commitExpire b' now ((cfg.bucket b').spend level now)) = t
  have hphase : t.phase = update s.orders.phase m
      (.commitExpire b' now ((cfg.bucket b').spend level now)) := by rw [← ht]; rfl
  have hframe : t.lock = s.orders.lock ∧ t.lockedAt = s.orders.lockedAt ∧
      t.now = s.orders.now := by rw [← ht]; exact ⟨rfl, rfl, rfl⟩
  have hbudget : t.budget = update s.orders.budget b' (hset (s.orders.budget b')
      ((cfg.bucket b').spend level now)) := by rw [← ht]; rfl
  obtain ⟨hold, hnew⟩ := since_setPhase hi hr hframe.1 hphase rfl
  have hreading : ∀ r, some now = some r → t.lockedAt ≤ r ∧ r ≤ t.now := fun r hr' => by
    rw [hframe.2.1, hframe.2.2]
    exact h.reading m r (hr.trans hr')
  by_cases hb : b' = b
  · subst hb
    have hknows := h.knows m
    have hbase := hi.knows m
    rw [hp] at hknows hbase
    have hseen := hknows rfl
    have hone : (1 : ℚ) ≤ (cfg.bucket b').tokensAt level now := by
      have hle := hbase.2.2.2.2 {m} fun m' hm => by
        rw [Finset.mem_singleton.1 hm]
        exact ⟨hbase.1, .inr (by rw [hp]; rfl)⟩
      simpa using hle
    have hdue := hseen.spendN zero_le_one hone
    refine h.moved hphase hreading (fun m' hm hr => absurd hr (hothers m' hm)) ?_
      (.inr (.inl rfl)) fun _ => ⟨hdue.since, hdue.capped, ?_⟩
    · show Booked _ (t.budget b') (update s.log b' _ b') (since t)
      rw [hbudget, update_self, update_self, hnew]
      exact hdue.booked hrefill (hold ▸ h.booked)
    · refine ⟨_, (congrFun hbudget b').trans (update_self ..), rfl, ?_⟩
      show unixMilli ((cfg.bucket b').spend level now).since = unixMilli now
      rw [show ((cfg.bucket b').spend level now).since = now from hdue.since]
  · refine h.same_store hphase ?_ (update_of_ne (Ne.symm hb) ..) (by rw [hold, hnew])
      hreading (fun m' hm hr => absurd hr (hothers m' hm)) (fun hw => by rw [hp] at hw; cases hw)
      fun heq => absurd heq hb
    rw [hbudget, update_of_ne (Ne.symm hb)]

theorem commitExpire (h : Inv cfg b s) (hi : AcmeBudget.Inv cfg s.orders)
    (hrefill : 0 < (cfg.bucket b).refill) (hp : s.orders.phase m = .commitExpire b' now level) :
    Inv cfg b ⟨(s.orders.setBudget b' (hpexpire (s.orders.budget b') (unixMilli s.orders.now)
      (formatMs (bucketTTL (cfg.bucket b') level now)))).setPhase m (.commitRem b'), s.log⟩ := by
  have hr : (s.orders.phase m).reading = some now := by rw [hp]; rfl
  have hholds := AcmeBudget.Phase.holds_of_reading hr
  have hothers : ∀ m' ≠ m, ¬ (s.orders.phase m').reading ≠ none := fun m' hm =>
    nobody_else hi hholds hm
  generalize ht : (s.orders.setBudget b' (hpexpire (s.orders.budget b') (unixMilli s.orders.now)
    (formatMs (bucketTTL (cfg.bucket b') level now)))).setPhase m (.commitRem b') = t
  have hphase : t.phase = update s.orders.phase m (.commitRem b') := by rw [← ht]; rfl
  have hbudget : t.budget = update s.orders.budget b' (hpexpire (s.orders.budget b')
      (unixMilli s.orders.now) (formatMs (bucketTTL (cfg.bucket b') level now))) := by
    rw [← ht]; rfl
  have hframe : t.lock = s.orders.lock ∧ t.now = s.orders.now := by rw [← ht]; exact ⟨rfl, rfl⟩
  have hsince : since s.orders ≤ since t := by
    rw [since_of_held (hframe.1.trans (hi.lock m hholds)), hphase, update_self, hframe.2]
    exact h.since_le
  by_cases hb : b' = b
  · subst hb
    have hknows := h.knows m
    rw [hp] at hknows
    obtain ⟨hlevel, hcap, x, hx, hxt, hat⟩ := hknows rfl
    have hlevel' : level = ⟨x.t, now⟩ := by rw [hxt, ← hlevel]
    refine h.moved hphase (fun r hr => by cases hr) (fun m' hm hr => absurd hr (hothers m' hm)) ?_
      (.inl ?_) trivial
    · show Booked _ (t.budget b') (s.log b') (since t)
      rw [hbudget, update_self, hx]
      exact (hx ▸ h.booked.mono hsince).hpexpire (bucketTTL_pos hrefill _ _)
    · show Timed _ (t.budget b')
      rw [hbudget, update_self, hx, hlevel']
      exact timed_hpexpire hrefill (hxt ▸ hcap) hat (unixMilli_mono (h.reading m now hr).2)
  · refine h.same_store hphase ?_ rfl hsince (fun r hr => by cases hr)
      (fun m' hm hr => absurd hr (hothers m' hm)) (fun hw => ?_) trivial
    · rw [hbudget, update_of_ne (Ne.symm hb)]
    · rw [hp] at hw
      exact absurd (Option.some_inj.1 hw) hb

theorem next [DecidableEq η] (h : Inv cfg b s) (hi : AcmeBudget.Inv cfg s.orders)
    (hrefill : 0 < (cfg.bucket b).refill) (hn : Next cfg s.orders m t) :
    Inv cfg b ⟨t, enter s.log (entry cfg (s.orders.phase m))⟩ := by
  have hplain := h.plain hi hn
  cases hn with
  | commitClock hp => rw [hp]; exact h.commitClock hi hp
  | commitRead hp => rw [hp]; exact h.commitRead hi hp
  | commitSet hp => rw [hp]; exact h.commitSet hi hrefill hp
  | commitExpire hp => rw [hp]; exact h.commitExpire hi hrefill hp
  | _ =>
    have hp := ‹s.orders.phase m = _›
    rw [hp] at hplain ⊢
    exact hplain rfl fun _ hb => by cases hb

omit [DecidableEq β] in
/-- An action that only moves an order which is not in a section. -/
theorem outside {ph : AcmeBudget.Phase β η} (h : Inv cfg b s)
    (hold : (s.orders.phase m).reading = none) (hnew : ph.reading = none)
    (hphase : t.phase = update s.orders.phase m ph) (hlock : t.lock = s.orders.lock)
    (hlockedAt : t.lockedAt = s.orders.lockedAt) (hnow : t.now = s.orders.now)
    (hbudget : t.budget = s.orders.budget) : Inv cfg b ⟨t, s.log⟩ := by
  refine h.same_store hphase (by rw [hbudget]) rfl ?_
    (fun r hr => absurd (hnew.symm.trans hr) (Option.some_ne_none r).symm)
    (fun _ _ _ => ⟨hlockedAt, le_of_eq hnow.symm⟩) (fun hw => ?_) (.of_not_reading hnew)
  · show since s.orders ≤ since t
    cases hl : s.orders.lock with
    | none => rw [since_of_free hl, since_of_free (hlock.trans hl), hnow]
    | some m' =>
      rw [since_of_held hl, since_of_held (hlock.trans hl), hnow, hphase]
      by_cases hm : m' = m
      · subst hm
        rw [update_self, hold, hnew]
      · rw [update_of_ne hm]
  · rw [writing_of_not_reading hold] at hw
    cases hw

omit [DecidableEq μ] in
/-- The hash of the bucket runs out, and nobody is about to set its time to live. -/
theorem lapse {x : Hash} {d : Int} (h : Inv cfg b s) (hi : AcmeBudget.Inv cfg s.orders)
    (hrefill : 0 < (cfg.bucket b).refill) (hx : s.orders.budget b = some x)
    (hd : x.deadline = some d) (hout : d < unixMilli s.orders.now)
    (hquiet : ∀ m, (s.orders.phase m).writing ≠ some b) :
    Inv cfg b ⟨s.orders.setBudget b none, s.log⟩ := by
  have htimed := h.timed.resolve_right fun hm => hm.elim hquiet
  refine ⟨h.reading, ?_, .inl ?_, fun m => ?_⟩
  · show Booked _ (update s.orders.budget b none b) (s.log b) (since s.orders)
    rw [update_self]
    exact h.booked.lapse htimed hrefill hx hd
      (le_trans (le_of_lt hout) (unixMilli_mono (h.le_since hi)))
  · show Timed _ (update s.orders.budget b none b)
    rw [update_self]
    exact timed_none
  · have hk := h.knows m
    have hne := hquiet m
    show Knows cfg _ b (s.orders.phase m)
    cases hp : s.orders.phase m with
    | commitSet b' now level => rw [hp] at hk; exact hk
    | commitExpire b' now level =>
      intro hb
      rw [hp] at hne
      exact absurd (congrArg some hb) hne
    | _ => trivial

omit [DecidableEq μ] in
theorem other (h : Inv cfg b s) (hb : b' ≠ b) : Inv cfg b ⟨s.orders.setBudget b' none, s.log⟩ := by
  have hsame : update s.orders.budget b' none b = s.orders.budget b :=
    update_of_ne (Ne.symm hb) ..
  refine ⟨h.reading, ?_, ?_, fun m => ?_⟩
  · show Booked _ (update s.orders.budget b' none b) _ _
    rw [hsame]
    exact h.booked
  · show Timed _ (update s.orders.budget b' none b) ∨ _
    rw [hsame]
    exact h.timed
  · have hk := h.knows m
    show Knows cfg _ b (s.orders.phase m)
    cases hp : s.orders.phase m with
    | commitSet b'' now level => rw [hp] at hk; exact hk
    | commitExpire b'' now level =>
      rw [hp] at hk
      intro heq
      show _ ∧ _ ∧ ∃ x, update s.orders.budget b' none b = some x ∧ _
      rw [hsame]
      exact hk heq
    | _ => trivial

theorem step [DecidableEq η] {a : Act β η μ} (h : Inv cfg b s) (hi : AcmeBudget.Inv cfg s.orders)
    (hrefill : 0 < (cfg.bucket b).refill) (hg : Unbroken s.orders a)
    (hs : AcmeBudget.step cfg s.orders a = some t) :
    Inv cfg b ⟨t, enter s.log (write cfg s.orders a)⟩ := by
  cases AcmeBudget.step_cases hs with
  | reserve hp => exact h.outside (by rw [hp]; rfl) (by split <;> rfl) rfl rfl rfl rfl rfl
  | @commit m _ hp => exact h.outside (m := m) (by rw [hp]; rfl) rfl rfl rfl rfl rfl rfl
  | cmd hn => exact h.next hi hrefill hn
  | release | lapseInflight => exact ⟨h.reading, h.booked, h.timed, h.knows⟩
  | @lapseBudget b' _ _ hx hd hout =>
    by_cases hb : b' = b
    · subst hb
      exact h.lapse hi hrefill hx hd hout fun m hw =>
        hg m (hi.lock m (AcmeBudget.Phase.holds_of_writing hw)) hw
    · exact h.other hb
  | @tick d =>
    refine ⟨fun m r hr => ⟨(h.reading m r hr).1, ?_⟩, h.booked.mono (since_tick _ d), h.timed,
      h.knows⟩
    have := (h.reading m r hr).2
    show r ≤ s.orders.now + d
    omega

end Inv

variable [DecidableEq β] [DecidableEq η]

theorem init_inv (cfg : Config β η μ) (b : β) : Inv cfg b (system cfg).init where
  reading := fun _ _ h => absurd h.symm (Option.some_ne_none _)
  booked := booked_nil _
  timed := .inl timed_none
  knows := fun _ => trivial

theorem inv_of_reach (hrefill : 0 < (cfg.bucket b).refill) (h : (system cfg).Reach Kept s) :
    Inv cfg b s := by
  refine h.invariant (init_inv cfg b) fun s a t hr hinv hg hs => ?_
  obtain ⟨u, hu, rfl⟩ := Option.map_eq_some_iff.1 hs
  exact hinv.step (AcmeBudget.inv_of_reach (orders_reach hr)) hrefill hg.2 hu

end OrderLedger
end Tunneld

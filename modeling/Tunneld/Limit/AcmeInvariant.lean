import Tunneld.Limit.AcmeBudget
import Mathlib.Tactic.LinearCombination

/-!
# What the budgets rest on

Why the reservations of `Tunneld.Limit.AcmeBudget` are never worth more than the tokens behind
them.

The counts a section works with are out of date by the time it acts on them: buckets are read
before the sets are counted, orders give reservations back without the lock, keys run out.  But
inside a section all of this errs on the safe side.  A level that is left alone only rises, a
missing hash is a full bucket, and reservations only go away (`Quiet`).  So what a section has
found out stays true of the present, as a bound (`Knows`), and `Quiet.knows` is the one lemma that
says so.

A reservation counts until its token is spent, given back or expired.  An order that is inside its
`CommitACME` when its deadline passes still counts (`State.InForce`), because nobody can have
looked meanwhile.

The other half is that a reservation that counts is *there*: in the set of its node, when somebody
counts.  The set's key outlives its members by almost a minute (`Inv.ttl`), and no section lasts
that long.

## Main results

* `Quiet.knows`: what a section knows outlasts what happens outside it;
* `Inv.environment`: what happens without an order keeps the invariant.

The commands of the sections follow in `Tunneld.Limit.AcmeReserve` and `Tunneld.Limit.AcmeSafety`.
-/

namespace Tunneld.AcmeBudget

open Function Clock

variable {β η μ : Type} {cfg : Config β η μ}

/-! ## What a phase stands for -/

namespace Phase

/-- The order is inside a section. -/
def holds : Phase β η → Bool
  | .idle | .lock _ | .refused _ | .reserved | .commitLock _ => false
  | _ => true

/-- The bucket an order is committing and has not spent yet. -/
def committing : Phase β η → Option β
  | .commitRead b _ | .commitSet b _ _ => some b
  | _ => none

/-- The bucket an order has spent while its reservation is still there. -/
def removing : Phase β η → Option β
  | .commitExpire b _ _ | .commitRem b => some b
  | _ => none

/-- The bucket whose set has the new reservation and not yet its time to live. -/
def expiring : Phase β η → Option β
  | .expireNX _ b _ | .expireGT _ b _ => some b
  | _ => none

/-- The bucket whose set may have no time to live at all. -/
def keyless : Phase β η → Option β
  | .expireNX _ b _ => some b
  | _ => none

/-- The buckets an order has yet to write its reservation to. -/
def pending : Phase β η → List β
  | .lock bs | .clock bs => bs
  | .read r _ | .prune r _ | .card r _ _ _ | .check r => r.bs
  | .zadd _ todo | .expireNX _ _ todo | .expireGT _ _ todo => todo
  | _ => []

/-- The order has not written any reservation. -/
def early : Phase β η → Bool
  | .idle | .lock _ | .clock _ | .read .. | .prune .. | .card .. | .check _ => true
  | _ => false

end Phase

namespace State

/-- The order's reservation of the bucket counts: it is live, or about to be spent. -/
def InForce (s : State β η μ) (m : μ) (b : β) : Prop :=
  s.token m b = .reserved ∧ (s.Unexpired m ∨ (s.phase m).committing = some b)

/-- The bucket is good for one more reservation. -/
def Room (cfg : Config β η μ) (s : State β η μ) (b : β) : Prop :=
  ∀ f : Finset μ, (∀ m ∈ f, s.InForce m b) → (f.card : ℚ) + 1 ≤ s.tokens cfg b

/-- What a reader of the bucket at the instant `now` would find. -/
def tokensRead (cfg : Config β η μ) (s : State β η μ) (b : β) (now : Int) : ℚ :=
  (cfg.bucket b).tokensAt (parseBucket (cfg.bucket b) (s.budget b) now) now

end State

/-- The clock reading of a section was taken inside it. -/
def InSection (s : State β η μ) (now : Int) : Prop := s.lockedAt ≤ now ∧ now ≤ s.now

/-- The levels that have been read are still there. -/
def Levels (cfg : Config β η μ) (s : State β η μ) (r : Reserve β) (todo : List β) : Prop :=
  ∀ b ∈ r.bs, b ∉ todo → (cfg.bucket b).tokensAt (r.states b) r.now ≤ s.tokens cfg b

/-- The reservations in the sets that have been counted are no more than the count. -/
def Counted (cfg : Config β η μ) (s : State β η μ) (r : Reserve β) (todo : List (β × η)) : Prop :=
  ∀ b ∈ r.bs, ∀ f : Finset μ, (∀ m ∈ f, s.InForce m b ∧ (b, cfg.node m) ∉ todo) →
    f.card ≤ r.held b

/-- The sets that have been pruned hold no expired reservation. -/
def Pruned (s : State β η μ) (r : Reserve β) (todo : List (β × η)) : Prop :=
  ∀ b ∈ r.bs, ∀ n, (b, n) ∉ todo → ∀ m ∈ (s.inflight b n).members,
    unixMilli r.now < (s.inflight b n).score m

/-- There is room in every bucket that is still to be written to, and its set is pruned. -/
def Ready (cfg : Config β η μ) (s : State β η μ) (m : μ) (r : Reserve β) (todo : List β) : Prop :=
  InSection s r.now ∧ ∀ b ∈ todo, s.Room cfg b ∧ ∀ m' ∈ (s.inflight b (cfg.node m)).members,
    unixMilli r.now < (s.inflight b (cfg.node m)).score m'

/-- **What a section knows**, at each of its commands. -/
def Knows (cfg : Config β η μ) (s : State β η μ) (m : μ) : Phase β η → Prop
  | .read r todo => InSection s r.now ∧ Levels cfg s r todo
  | .prune r todo => InSection s r.now ∧ Levels cfg s r [] ∧ Counted cfg s r todo ∧ Pruned s r todo
  | .card r b n todo =>
    InSection s r.now ∧ Levels cfg s r [] ∧ Counted cfg s r ((b, n) :: todo) ∧ Pruned s r todo
  | .check r => InSection s r.now ∧ Levels cfg s r [] ∧ Counted cfg s r [] ∧ Pruned s r []
  | .zadd r todo => Ready cfg s m r todo
  | .expireNX r b todo =>
    Ready cfg s m r todo ∧ ((s.inflight b (cfg.node m)).deadline = none →
      ∀ m' ∈ (s.inflight b (cfg.node m)).members, m' = m)
  | .expireGT r _ todo => Ready cfg s m r todo
  | .commitLock b | .commitClock b => s.token m b = .reserved
  | .commitRead b now => s.token m b = .reserved ∧ InSection s now ∧
    unixMilli now < unixMilli (s.deadline m) ∧
    ∀ f : Finset μ, (∀ m' ∈ f, s.InForce m' b) → (f.card : ℚ) ≤ s.tokensRead cfg b now
  | .commitSet b now level => s.token m b = .reserved ∧ InSection s now ∧
    unixMilli now < unixMilli (s.deadline m) ∧ level.tokens ≤ (cfg.bucket b).capacity ∧
    ∀ f : Finset μ, (∀ m' ∈ f, s.InForce m' b) →
      (f.card : ℚ) ≤ (cfg.bucket b).tokensAt level now
  | .commitExpire b _ _ | .commitRem b => s.token m b = .spent
  | _ => True

/-- No level exceeds the capacity of its bucket. -/
def Capped (cfg : Config β η μ) (s : State β η μ) : Prop :=
  ∀ b h, s.budget b = some h → h.t ≤ (cfg.bucket b).capacity

/-- **What is always true.** -/
structure Inv (cfg : Config β η μ) (s : State β η μ) : Prop where
  /-- Only the holder of the lock is in a section. -/
  lock : ∀ m, (s.phase m).holds = true → s.lock = some m
  /-- The section does not outlive the lock. -/
  time : s.lock ≠ none → s.lockedAt ≤ s.now ∧ s.now ≤ s.lockedAt + budgetLockTTL
  /-- No level exceeds the capacity. -/
  capped : Capped cfg s
  /-- The reservations that count are covered. -/
  safe : ∀ b (f : Finset μ), (∀ m ∈ f, s.InForce m b) → (f.card : ℚ) ≤ s.tokens cfg b
  /-- A reservation that counts is in the set of its node. -/
  mem : ∀ m b, s.InForce m b → m ∈ (s.inflight b (cfg.node m)).members
  /-- A member is an order's reservation, with its deadline. -/
  score : ∀ b n m, m ∈ (s.inflight b n).members → cfg.node m = n ∧
    (s.inflight b n).score m = unixMilli (s.deadline m) ∧
    (s.token m b = .reserved ∨ (s.phase m).removing = some b)
  /-- A set outlives its members. -/
  ttl : ∀ b n m d, m ∈ (s.inflight b n).members → (s.inflight b n).deadline = some d →
    unixMilli (s.deadline m) + 58000 ≤ d ∨
    ((s.phase m).expiring = some b ∧ unixMilli s.lockedAt + 58000 ≤ d)
  /-- A set without members has no time to live. -/
  alive : ∀ b n, (s.inflight b n).members = ∅ → (s.inflight b n).deadline = none
  /-- A set with members has one, unless it has just been written to. -/
  keyed : ∀ b n, (s.inflight b n).deadline = none → (s.inflight b n).members = ∅ ∨
    ∃ m, (s.phase m).keyless = some b ∧ cfg.node m = n
  /-- An order that has yet to write a reservation has none. -/
  fresh : ∀ m b, (s.phase m).early = true ∨ b ∈ (s.phase m).pending → s.token m b = .none
  /-- No bucket is written to twice. -/
  nodup : ∀ m, (s.phase m).pending.Nodup
  /-- What each section knows. -/
  knows : ∀ m, Knows cfg s m (s.phase m)

/-! ## What a section knows stays true -/

/-- Nothing has happened that a section would have to fear: time has passed, hashes have run out,
reservations have gone away. -/
structure Quiet (s s' : State β η μ) : Prop where
  /-- Time does not go back. -/
  now : s.now ≤ s'.now
  /-- It is the same section. -/
  lockedAt : s'.lockedAt = s.lockedAt
  /-- A level is left alone, or its hash is gone. -/
  budget : ∀ b, s'.budget b = none ∨ ∃ h h', s.budget b = some h ∧ s'.budget b = some h' ∧
    h'.t = h.t ∧ h'.atMs = h.atMs
  /-- No reservation counts that did not before. -/
  inForce : ∀ m b, s'.InForce m b → s.InForce m b
  /-- Members only go away. -/
  members : ∀ b n m, m ∈ (s'.inflight b n).members →
    m ∈ (s.inflight b n).members ∧ (s'.inflight b n).score m = (s.inflight b n).score m
  /-- A set does not lose its time to live, unless it is gone. -/
  deadline : ∀ b n, (s'.inflight b n).deadline = none →
    (s'.inflight b n).members = ∅ ∨ (s.inflight b n).deadline = none

variable {s s' : State β η μ} {m : μ}

theorem capacity_nonneg (cfg : Config β η μ) (b : β) : 0 ≤ (cfg.bucket b).capacity := by
  have h : (0 : ℚ) < ((cfg.rate b).burst : ℚ) := by exact_mod_cast cfg.burst_pos b
  exact le_of_lt h

theorem tokens_parseBucket (b : TokenBucket) (h : Option Hash) (now : Int)
    (hcap : ∀ x, h = some x → x.t ≤ b.capacity) : (parseBucket b h now).tokens ≤ b.capacity := by
  cases h with
  | none => exact le_refl _
  | some x => exact hcap x rfl

namespace Quiet

/-- What a reader finds never falls. -/
theorem tokensRead_le (hq : Quiet s s') (hcap : Capped cfg s) (b : β) (now : Int) :
    s.tokensRead cfg b now ≤ s'.tokensRead cfg b now := by
  rw [State.tokensRead, State.tokensRead]
  rcases hq.budget b with hnone | ⟨h, h', hold, hnew, ht, hat⟩
  · rw [hnone, parseBucket, TokenBucket.tokensAt_full]
    exact TokenBucket.tokensAt_le (tokens_parseBucket _ _ _ (hcap b))
  · rw [hold, hnew, parseBucket, parseBucket, ht, hat]

theorem tokens_le (hq : Quiet s s') (hcap : Capped cfg s) (b : β) :
    s.tokens cfg b ≤ s'.tokens cfg b := by
  rw [State.tokens, State.tokens]
  rcases hq.budget b with hnone | ⟨h, h', hold, hnew, ht, hat⟩
  · rw [hnone, parseBucket, TokenBucket.tokensAt_full]
    exact TokenBucket.tokensAt_le (tokens_parseBucket _ _ _ (hcap b))
  · rw [hold, hnew, parseBucket, parseBucket, ht, hat]
    exact TokenBucket.tokensAt_mono (hcap b h hold) hq.now

theorem capped (hq : Quiet s s') (hcap : Capped cfg s) : Capped cfg s' := by
  intro b h hb
  rcases hq.budget b with hnone | ⟨h₀, h', hold, hnew, ht, -⟩
  · rw [hnone] at hb; cases hb
  · obtain rfl : h' = h := Option.some_inj.1 (hnew.symm.trans hb)
    rw [ht]; exact hcap b h₀ hold

theorem inSection (hq : Quiet s s') {now : Int} (h : InSection s now) : InSection s' now :=
  ⟨hq.lockedAt ▸ h.1, le_trans h.2 hq.now⟩

theorem room (hq : Quiet s s') (hcap : Capped cfg s) {b : β} (h : s.Room cfg b) :
    s'.Room cfg b := fun f hf =>
  le_trans (h f fun m hm => hq.inForce m b (hf m hm)) (hq.tokens_le hcap b)

variable {r : Reserve β}

theorem levels (hq : Quiet s s') (hcap : Capped cfg s) {todo : List β} (h : Levels cfg s r todo) :
    Levels cfg s' r todo :=
  fun b hb hd => le_trans (h b hb hd) (hq.tokens_le hcap b)

theorem counted (hq : Quiet s s') {todo : List (β × η)} (h : Counted cfg s r todo) :
    Counted cfg s' r todo := fun b hb f hf =>
  h b hb f fun m hm => ⟨hq.inForce m b (hf m hm).1, (hf m hm).2⟩

theorem pruned (hq : Quiet s s') {todo : List (β × η)} (h : Pruned s r todo) :
    Pruned s' r todo := fun b hb n hn m hm => by
  obtain ⟨hold, hscore⟩ := hq.members b n m hm
  rw [hscore]
  exact h b hb n hn m hold

theorem ready (hq : Quiet s s') (hcap : Capped cfg s) {todo : List β} (h : Ready cfg s m r todo) :
    Ready cfg s' m r todo := by
  refine ⟨hq.inSection h.1, fun b hb => ⟨hq.room hcap (h.2 b hb).1, fun m' hm' => ?_⟩⟩
  obtain ⟨hold, hscore⟩ := hq.members b _ m' hm'
  rw [hscore]
  exact (h.2 b hb).2 m' hold

/-- **What a section knows outlasts whatever happens outside it.** -/
theorem knows (hq : Quiet s s') (hcap : Capped cfg s) (htok : ∀ b, s'.token m b = s.token m b)
    (hdl : s'.deadline m = s.deadline m) {ph : Phase β η} (h : Knows cfg s m ph) :
    Knows cfg s' m ph := by
  cases ph with
  | idle | lock | clock | unlock | refused | reserved | commitUnlock => trivial
  | read r todo => exact ⟨hq.inSection h.1, hq.levels hcap h.2⟩
  | prune r todo | card r b n todo | check r =>
    exact ⟨hq.inSection h.1, hq.levels hcap h.2.1, hq.counted h.2.2.1, hq.pruned h.2.2.2⟩
  | zadd r todo | expireGT r b todo => exact hq.ready hcap h
  | expireNX r b todo =>
    refine ⟨hq.ready hcap h.1, fun hnone m' hm' => ?_⟩
    rcases hq.deadline b (cfg.node m) hnone with hempty | hold
    · rw [hempty] at hm'; cases hm'
    · exact h.2 hold m' (hq.members b _ m' hm').1
  | commitLock b | commitClock b | commitExpire b | commitRem b => exact (htok b).trans h
  | commitRead b now =>
    refine ⟨(htok b).trans h.1, hq.inSection h.2.1, hdl ▸ h.2.2.1, fun f hf => ?_⟩
    exact le_trans (h.2.2.2 f fun m' hm' => hq.inForce m' b (hf m' hm'))
      (hq.tokensRead_le hcap b now)
  | commitSet b now level =>
    exact ⟨(htok b).trans h.1, hq.inSection h.2.1, hdl ▸ h.2.2.1, h.2.2.2.1,
      fun f hf => h.2.2.2.2 f fun m' hm' => hq.inForce m' b (hf m' hm')⟩

end Quiet

variable {ph : Phase β η}

/-- An order outside any section knows only which token it is about to commit. -/
theorem Knows.of_not_holds (hh : ph.holds = false) (htok : ∀ b, s'.token m b = s.token m b)
    (h : Knows cfg s m ph) : Knows cfg s' m ph := by
  cases ph with
  | idle | lock | refused | reserved => trivial
  | commitLock b => exact (htok b).trans h
  | clock | read | prune | card | check | zadd | expireNX | expireGT | unlock | commitClock |
    commitRead | commitSet | commitExpire | commitRem | commitUnlock => cases hh

variable {b : β}

theorem holds_of_expiring (h : ph.expiring = some b) : ph.holds = true := by
  cases ph <;> first | rfl | cases h

theorem holds_of_committing (h : ph.committing = some b) : ph.holds = true := by
  cases ph <;> first | rfl | cases h

theorem expiring_of_keyless (h : ph.keyless = some b) : ph.expiring = some b := by
  cases ph <;> first | exact h | cases h

theorem keyless_eq_none (h : ph.expiring = none) : ph.keyless = none :=
  Option.eq_none_iff_forall_ne_some.2 fun b hk => by rw [expiring_of_keyless hk] at h; cases h

/-! ## Steps outside the sections -/

variable [DecidableEq β]

theorem budget_same (h : Option Hash) :
    h = none ∨ ∃ x x', h = some x ∧ h = some x' ∧ x'.t = x.t ∧ x'.atMs = x.atMs := by
  cases h with
  | none => exact .inl rfl
  | some x => exact .inr ⟨x, x, rfl, rfl, rfl, rfl⟩

theorem inflight_setInflight [DecidableEq η] (s : State β η μ) (b : β) (n : η) (z : SortedSet μ)
    (b' : β) (n' : η) :
    (b' = b ∧ n' = n ∧ (s.setInflight b n z).inflight b' n' = z) ∨
      ((b' ≠ b ∨ n' ≠ n) ∧ (s.setInflight b n z).inflight b' n' = s.inflight b' n') := by
  by_cases hb : b' = b
  · subst hb
    by_cases hn : n' = n
    · subst hn
      exact .inl ⟨rfl, rfl, by simp [State.setInflight]⟩
    · exact .inr ⟨.inr hn, by simp [State.setInflight, hn]⟩
  · exact .inr ⟨.inl hb, by simp [State.setInflight, hb]⟩

theorem budget_setBudget (s : State β η μ) (b : β) (h : Option Hash) (b' : β) :
    (b' = b ∧ (s.setBudget b h).budget b' = h) ∨
      (b' ≠ b ∧ (s.setBudget b h).budget b' = s.budget b') := by
  by_cases hb : b' = b
  · exact .inl ⟨hb, hb ▸ update_self ..⟩
  · exact .inr ⟨hb, update_of_ne hb ..⟩

theorem token_setToken [DecidableEq μ] (s : State β η μ) (m : μ) (b : β) (t : Token) (m' : μ)
    (b' : β) :
    (m' = m ∧ b' = b ∧ (s.setToken m b t).token m' b' = t) ∨
      ((m' ≠ m ∨ b' ≠ b) ∧ (s.setToken m b t).token m' b' = s.token m' b') := by
  by_cases hm : m' = m
  · subst hm
    by_cases hb : b' = b
    · subst hb
      exact .inl ⟨rfl, rfl, by simp [State.setToken]⟩
    · exact .inr ⟨.inr hb, by simp [State.setToken, hb]⟩
  · exact .inr ⟨.inl hm, by simp [State.setToken, hm]⟩

omit [DecidableEq β] in
theorem phase_setPhase [DecidableEq μ] (s : State β η μ) (m : μ) (ph : Phase β η) (m' : μ) :
    (m' = m ∧ (s.setPhase m ph).phase m' = ph) ∨
      (m' ≠ m ∧ (s.setPhase m ph).phase m' = s.phase m') := by
  by_cases hm : m' = m
  · exact .inl ⟨hm, hm ▸ update_self ..⟩
  · exact .inr ⟨hm, update_of_ne hm ..⟩

/-- A removal from a set leaves the time to live alone, or nothing at all. -/
theorem deadline_restrict [DecidableEq η] [DecidableEq μ] (s : State β η μ) (b : β) (n : η)
    (t : Finset μ) (b' : β) (n' : η) :
    ((s.setInflight b n ((s.inflight b n).restrict t)).inflight b' n').members = ∅ ∨
      ((s.setInflight b n ((s.inflight b n).restrict t)).inflight b' n').deadline =
        (s.inflight b' n').deadline := by
  rcases inflight_setInflight s b n ((s.inflight b n).restrict t) b' n' with
    ⟨rfl, rfl, he⟩ | ⟨-, he⟩ <;> rw [he]
  · exact SortedSet.restrict_deadline _ t
  · exact .inr rfl

/-- A removal from a set is nothing to fear. -/
theorem quiet_restrict [DecidableEq η] [DecidableEq μ] (s : State β η μ) (b : β) (n : η)
    (t : Finset μ) :
    Quiet s (s.setInflight b n ((s.inflight b n).restrict t)) where
  now := le_refl _
  lockedAt := rfl
  budget := fun b => budget_same (s.budget b)
  inForce := fun _ _ h => h
  members := fun b' n' m hm => by
    rcases inflight_setInflight s b n ((s.inflight b n).restrict t) b' n' with
      ⟨rfl, rfl, he⟩ | ⟨-, he⟩ <;> rw [he] at hm ⊢
    · exact ⟨(SortedSet.mem_restrict.1 hm).1, SortedSet.score_restrict hm⟩
    · exact ⟨hm, rfl⟩
  deadline := fun b' n' hnone =>
    (deadline_restrict s b n t b' n').imp_right fun he => he.symm.trans hnone

theorem unixMilli_le_of_section {a c : Int} (h : a ≤ c + budgetLockTTL) :
    unixMilli a ≤ unixMilli c + 2001 := by
  simp only [unixMilli, millisecond, budgetLockTTL, second] at *
  omega

namespace Inv

omit [DecidableEq β] in
/-- What happens without any order moving on. -/
theorem environment (h : Inv cfg s) (hq : Quiet s s') (hphase : s'.phase = s.phase)
    (hlock : s'.lock = s.lock) (hdl : s'.deadline = s.deadline)
    (htime : s.lock ≠ none → s'.now ≤ s.lockedAt + budgetLockTTL)
    (hkeep : ∀ b n, (s'.inflight b n).members = ∅ ∨
      (s'.inflight b n).deadline = (s.inflight b n).deadline)
    (hmem : ∀ m b, s'.InForce m b → m ∈ (s.inflight b (cfg.node m)).members →
      m ∈ (s'.inflight b (cfg.node m)).members)
    (halive : ∀ b n, (s'.inflight b n).members = ∅ → (s'.inflight b n).deadline = none)
    (htok : ∀ m b, s'.token m b = s.token m b ∨
      (s.phase m = .reserved ∧ s.token m b = .reserved ∧ ∀ n, m ∉ (s'.inflight b n).members)) :
    Inv cfg s' where
  lock := fun m hm => by rw [hlock]; exact h.lock m (hphase ▸ hm)
  time := fun hl => by
    rw [hlock] at hl
    rw [hq.lockedAt]
    exact ⟨le_trans (h.time hl).1 hq.now, htime hl⟩
  capped := hq.capped h.capped
  safe := fun b f hf =>
    le_trans (h.safe b f fun m hm => hq.inForce m b (hf m hm)) (hq.tokens_le h.capped b)
  mem := fun m b hm => hmem m b hm (h.mem m b (hq.inForce m b hm))
  score := fun b n m hm => by
    obtain ⟨hold, hscore⟩ := hq.members b n m hm
    obtain ⟨h1, h2, h3⟩ := h.score b n m hold
    refine ⟨h1, by rw [hscore, hdl]; exact h2, ?_⟩
    rw [hphase]
    rcases htok m b with he | ⟨-, -, hnot⟩
    · rw [he]; exact h3
    · exact absurd hm (hnot n)
  ttl := fun b n m d hm hd => by
    obtain ⟨hold, -⟩ := hq.members b n m hm
    rw [hphase, hdl, hq.lockedAt]
    rcases hkeep b n with he | he
    · rw [he] at hm; cases hm
    · exact h.ttl b n m d hold (he ▸ hd)
  alive := halive
  keyed := fun b n hd => by
    rcases hkeep b n with he | he
    · exact .inl he
    · rcases h.keyed b n (he ▸ hd) with hempty | hm
      · refine .inl (Finset.eq_empty_of_forall_notMem fun m hm => ?_)
        have hold := (hq.members b n m hm).1
        rw [hempty] at hold; cases hold
      · rw [hphase]; exact .inr hm
  fresh := fun m b hm => by
    rw [hphase] at hm
    rcases htok m b with he | ⟨hp, -, -⟩
    · rw [he]; exact h.fresh m b hm
    · rw [hp] at hm
      rcases hm with hm | hm <;> cases hm
  nodup := fun m => hphase ▸ h.nodup m
  knows := fun m => by
    rw [hphase]
    by_cases hp : s.phase m = .reserved
    · rw [hp]; trivial
    · refine hq.knows h.capped (fun b => ?_) (by rw [hdl]) (h.knows m)
      exact (htok m b).resolve_right fun hr => hp hr.1

omit [DecidableEq β] in
/-- A reservation that an order in no section of its own holds is a live one. -/
theorem unexpired (h : Inv cfg s) (hm : (s.phase m).holds = true) {m' : μ}
    (hcommit : (s.phase m).committing = none) (hf : s.InForce m' b) : s.Unexpired m' := by
  refine hf.2.resolve_right fun hc => ?_
  have hh : (s.phase m').holds = true := holds_of_committing hc
  obtain rfl : m = m' := Option.some_inj.1 ((h.lock m hm).symm.trans (h.lock m' hh))
  rw [hcommit] at hc; cases hc

/-- A set loses members that do not count. -/
theorem restrict [DecidableEq η] [DecidableEq μ] {n : η} {t : Finset μ} (h : Inv cfg s)
    (hkeep : ∀ m, s.InForce m b → cfg.node m = n → m ∈ t) :
    Inv cfg (s.setInflight b n ((s.inflight b n).restrict t)) := by
  refine h.environment (quiet_restrict s b n t) rfl rfl rfl (fun hl => (h.time hl).2)
    (deadline_restrict s b n t) (fun m b' hm hmem => ?_) (fun b' n' hempty => ?_) fun _ _ => .inl rfl
  · rcases inflight_setInflight s b n ((s.inflight b n).restrict t) b' (cfg.node m) with
      ⟨rfl, hn, he⟩ | ⟨-, he⟩ <;> rw [he]
    · subst hn
      exact SortedSet.mem_restrict.2 ⟨hmem, hkeep m hm rfl⟩
    · exact hmem
  · rcases inflight_setInflight s b n ((s.inflight b n).restrict t) b' n' with
      ⟨rfl, rfl, he⟩ | ⟨-, he⟩ <;> rw [he] at hempty ⊢
    · exact SortedSet.deadline_restrict_of_empty hempty
    · exact h.alive b' n' hempty

theorem release [DecidableEq η] [DecidableEq μ] (h : Inv cfg s) (hp : s.phase m = .reserved)
    (ht : s.token m b = .reserved) :
    Inv cfg ((s.setInflight b (cfg.node m) ((s.inflight b (cfg.node m)).zrem m)).setToken m b
      .released) := by
  have hq := quiet_restrict s b (cfg.node m) ((s.inflight b (cfg.node m)).members.erase m)
  set z := (s.inflight b (cfg.node m)).zrem m with hz
  have hin : ∀ m' b', ((s.setInflight b (cfg.node m) z).setToken m b .released).InForce m' b' →
      (m' ≠ m ∨ b' ≠ b) ∧ s.InForce m' b' := by
    intro m' b' hm'
    rcases token_setToken (s.setInflight b (cfg.node m) z) m b .released m' b' with
      ⟨-, -, he⟩ | ⟨hne, he⟩
    · have htok := hm'.1
      rw [he] at htok; cases htok
    · exact ⟨hne, he ▸ hm'.1, hm'.2⟩
  have hmembers : ∀ b' n' m', m' ∈ (s.inflight b' n').members → (m' ≠ m ∨ b' ≠ b) →
      m' ∈ ((s.setInflight b (cfg.node m) z).inflight b' n').members := by
    intro b' n' m' hm' hne
    rcases inflight_setInflight s b (cfg.node m) z b' n' with ⟨rfl, rfl, he⟩ | ⟨-, he⟩ <;> rw [he]
    · exact SortedSet.mem_zrem.2 ⟨hne.resolve_right fun hb => hb rfl, hm'⟩
    · exact hm'
  refine h.environment ⟨hq.now, hq.lockedAt, hq.budget, fun m' b' hm' => (hin m' b' hm').2,
    hq.members, hq.deadline⟩ rfl rfl rfl (fun hl => (h.time hl).2) (deadline_restrict s b _ _)
    (fun m' b' hm' hmem => hmembers b' _ m' hmem (hin m' b' hm').1) (fun b' n' hempty => ?_)
    fun m' b' => ?_
  · have hempty' : ((s.setInflight b (cfg.node m) z).inflight b' n').members = ∅ := hempty
    show ((s.setInflight b (cfg.node m) z).inflight b' n').deadline = none
    rcases inflight_setInflight s b (cfg.node m) z b' n' with ⟨rfl, rfl, he⟩ | ⟨-, he⟩ <;>
      rw [he] at hempty' ⊢
    · exact SortedSet.deadline_restrict_of_empty hempty'
    · exact h.alive b' n' hempty'
  · rcases token_setToken (s.setInflight b (cfg.node m) z) m b .released m' b' with
      ⟨rfl, rfl, -⟩ | ⟨-, he⟩
    · refine .inr ⟨hp, ht, fun n hn => ?_⟩
      have hn' : m' ∈ ((s.setInflight b' (cfg.node m') z).inflight b' n).members := hn
      rcases inflight_setInflight s b' (cfg.node m') z b' n with ⟨-, rfl, he⟩ | ⟨hne, he⟩ <;>
        rw [he] at hn'
      · exact (SortedSet.mem_zrem.1 hn').1 rfl
      · exact hne.elim (fun hb => hb rfl) fun hnode => hnode (h.score b' n m' hn').1.symm
    · exact .inl he

theorem lapseBudget (h : Inv cfg s) : Inv cfg (s.setBudget b none) := by
  refine h.environment ⟨le_refl _, rfl, fun b' => ?_, fun _ _ hm => hm, fun _ _ _ hm => ⟨hm, rfl⟩,
    fun _ _ hd => .inr hd⟩ rfl rfl rfl (fun hl => (h.time hl).2) (fun _ _ => .inr rfl)
    (fun _ _ _ hm => hm) h.alive fun _ _ => .inl rfl
  rcases budget_setBudget s b none b' with ⟨-, he⟩ | ⟨-, he⟩ <;> rw [he]
  · exact .inl rfl
  · exact budget_same (s.budget b')

omit [DecidableEq β] in
theorem tick {d : Nat} (h : Inv cfg s)
    (hd : s.lock = none ∨ s.now + d ≤ s.lockedAt + budgetLockTTL) :
    Inv cfg { s with now := s.now + d } := by
  have hle : s.now ≤ s.now + d := by omega
  refine h.environment ⟨hle, rfl, fun b => budget_same (s.budget b), fun m b hm => ?_,
    fun _ _ _ hm => ⟨hm, rfl⟩, fun _ _ hd => .inr hd⟩ rfl rfl rfl
    (fun hl => hd.resolve_left hl) (fun _ _ => .inr rfl) (fun _ _ _ hm => hm) h.alive
    fun _ _ => .inl rfl
  exact ⟨hm.1, hm.2.imp (lt_of_le_of_lt (unixMilli_mono hle)) id⟩

omit [DecidableEq β] in
/-- A reservation that counts has not reached the end of its set's time to live. -/
theorem not_lapsed {d : Int} (h : Inv cfg s) (hm : s.InForce m b)
    (hd : (s.inflight b (cfg.node m)).deadline = some d) : unixMilli s.now ≤ d := by
  have hmem := h.mem m b hm
  rcases h.ttl b _ m d hmem hd with hlate | ⟨hexp, hlate⟩
  · rcases hm.2 with hlive | hcommit
    · have hlt : unixMilli s.now < unixMilli (s.deadline m) := hlive
      omega
    · -- it is being committed: the deadline lay ahead when the section looked at the clock
      have hknows := h.knows m
      cases hp : s.phase m with
      | commitRead b' now | commitSet b' now level =>
        rw [hp] at hknows
        have hl : s.lock ≠ none := by
          rw [h.lock m (by rw [hp]; rfl)]
          exact Option.some_ne_none m
        have hnow : s.now ≤ now + budgetLockTTL := by
          have h1 := (h.time hl).2
          have h2 : s.lockedAt ≤ now := hknows.2.1.1
          omega
        have h3 := unixMilli_le_of_section hnow
        have h4 : unixMilli now < unixMilli (s.deadline m) := hknows.2.2.1
        omega
      | _ => rw [hp] at hcommit; cases hcommit
  · have hl : s.lock ≠ none := by
      rw [h.lock m (holds_of_expiring hexp)]
      exact Option.some_ne_none m
    have h3 := unixMilli_le_of_section (h.time hl).2
    omega

theorem lapseInflight [DecidableEq η] [DecidableEq μ] {n : η} (h : Inv cfg s)
    (hl : (s.inflight b n).Lapsed (unixMilli s.now)) : Inv cfg (s.setInflight b n .empty) := by
  have he : (s.inflight b n).restrict ∅ = .empty := by simp [SortedSet.restrict]
  rw [← he]
  refine h.restrict fun m hm hn => ?_
  subst hn
  obtain ⟨d, hd, hlt⟩ := hl
  exact absurd hlt (not_lt.2 (h.not_lapsed hm hd))

end Inv

end Tunneld.AcmeBudget

import Tunneld.Limit.AcmeBudget

/-!
# What is stored of a budget, and what it stands for

`readBuckets` and `writeBucket` are all that ever looks at a hash `acme-budget:{key}`.  This file is
about one such hash and the ledger of the writes to its bucket, whoever makes them:

* `Booked` ties the two together: from some instant on, a reader of the hash finds no more than the
  ledger has available.  What is read then is `Seen`, what may be written is `Due`, and writing it
  keeps the books (`Due.booked`) although a write rounds its instant down to a millisecond.
* `Timed`: the bucket is full again well before the hash runs out, which is what `writeBucket`'s
  `PEXPIRE` is for (`timed_hpexpire`).  So a hash that runs out says what a missing one says
  (`Timed.tokensAt_eq`), and is missed by nobody (`Booked.lapse`).

Between the `HSET` and the `PEXPIRE` of a write a hash is not `Timed`: it may still have the time to
live of the write before.
-/

namespace Tunneld.AcmeBudget

open Clock TokenBucket

variable {b : TokenBucket} {h : Option Hash} {l : List Entry} {since now : Int}

/-- **The books of a bucket**, for readers with a clock reading of `since` or later. -/
structure Booked (b : TokenBucket) (h : Option Hash) (l : List Entry) (since : Int) : Prop where
  /-- The writes are a ledger. -/
  ledger : b.Ledger millisecond l
  /-- None is dated later than the next one may be. -/
  dated : ∀ p ∈ l.head?, p.now ≤ since
  /-- A stored level is between nothing and the capacity, and not from the future. -/
  stored : ∀ x, h = some x → 0 ≤ x.t ∧ x.t ≤ b.capacity ∧ x.atMs ≤ unixMilli since
  /-- A reader finds no more than the ledger has. -/
  backed : ∀ now, since ≤ now →
    b.tokensAt (parseBucket b h now) now ≤ b.available millisecond l now

/-- When the hash runs out the bucket has been full for as long as a section may last. -/
def Timed (b : TokenBucket) (h : Option Hash) : Prop :=
  ∀ x d, h = some x → x.deadline = some d →
    b.capacity ≤ x.t + ((d - x.atMs) * millisecond - budgetLockTTL : Int) / (b.refill : ℚ)

/-- A level that a reader has found. -/
structure Seen (b : TokenBucket) (l : List Entry) (now : Int) (level : Level) : Prop where
  /-- It is not from the future. -/
  since : level.since ≤ now
  /-- It is not a debt. -/
  nonneg : 0 ≤ level.tokens
  /-- It does not exceed the capacity. -/
  capped : level.tokens ≤ b.capacity
  /-- It is available. -/
  covered : b.tokensAt level now ≤ b.available millisecond l now

/-- A level that may be written, taking so many tokens. -/
structure Due (b : TokenBucket) (l : List Entry) (now : Int) (level : Level) (amount : ℚ) :
    Prop where
  /-- It is dated at the writer's clock reading. -/
  since : level.since = now
  /-- It is not a debt. -/
  nonneg : 0 ≤ level.tokens
  /-- It does not overfill the bucket. -/
  capped : level.tokens ≤ b.capacity
  /-- What is taken and left is available. -/
  covered : amount + level.tokens ≤ b.available millisecond l now

theorem unixMilli_mul_le (t : Int) : unixMilli t * millisecond ≤ t := by
  simp only [unixMilli, millisecond]
  omega

theorem lt_unixMilli_mul (t : Int) : t < unixMilli t * millisecond + millisecond := by
  simp only [unixMilli, millisecond]
  omega

/-- The tokens a read of the hash finds, with the clock reading `now`. -/
def found (b : TokenBucket) (h : Option Hash) (now : Int) : ℚ :=
  b.tokensAt (parseBucket b h now) now

/-- **Conformance.**  The writes of any interval take at most a bucket's worth, and what comes in
during the interval and a millisecond for each write. -/
def Conforms (b : TokenBucket) (l : List Entry) : Prop :=
  ∀ t₀ t₁, t₀ ≤ t₁ → spent (within t₀ t₁ l) ≤
    b.capacity + (t₁ - t₀ + (within t₀ t₁ l).length * millisecond : Int) / (b.refill : ℚ)

theorem tokensAt_parse_none (now : Int) : b.tokensAt (parseBucket b none now) now = b.capacity :=
  tokensAt_full

/-! ## Reading and writing -/

theorem Booked.mono {since' : Int} (hb : Booked b h l since) (hle : since ≤ since') :
    Booked b h l since' where
  ledger := hb.ledger
  dated := fun p hp => le_trans (hb.dated p hp) hle
  stored := fun x hx => by
    obtain ⟨hpos, hcap, hat⟩ := hb.stored x hx
    exact ⟨hpos, hcap, le_trans hat (unixMilli_mono hle)⟩
  backed := fun now hnow => hb.backed now (le_trans hle hnow)

theorem booked_nil (since : Int) : Booked b none [] since where
  ledger := .nil
  dated := fun _ hp => absurd hp.symm (Option.some_ne_none _)
  stored := fun _ hx => absurd hx.symm (Option.some_ne_none _)
  backed := fun now _ => le_of_eq (tokensAt_parse_none now)

theorem timed_none : Timed b none := fun _ _ h => absurd h.symm (Option.some_ne_none _)

/-- What a reader finds is available. -/
theorem Booked.seen (hb : Booked b h l now) (hcap : 0 ≤ b.capacity) :
    Seen b l now (parseBucket b h now) := by
  have hcovered := hb.backed now (le_refl _)
  cases h with
  | none => exact ⟨le_refl _, hcap, le_refl _, hcovered⟩
  | some x =>
    obtain ⟨hpos, hle, hat⟩ := hb.stored x rfl
    refine ⟨?_, hpos, hle, hcovered⟩
    have hlo := unixMilli_mul_le now
    show x.atMs * millisecond ≤ now
    simp only [millisecond] at *
    omega

variable {level : Level}

theorem Seen.tokensAt_nonneg (hs : Seen b l now level) :
    0 ≤ b.tokensAt level now := le_trans hs.nonneg (le_tokensAt hs.capped)

/-- Tokens that were found may be spent. -/
theorem Seen.spendN {n : ℚ} (hs : Seen b l now level) (hn : 0 ≤ n)
    (hle : n ≤ b.tokensAt level now) : Due b l now (b.spendN level now n) n := by
  have hcap : b.tokensAt level now ≤ b.capacity := tokensAt_le hs.capped
  refine ⟨?_, ?_, ?_, ?_⟩
  · rw [TokenBucket.spendN, if_neg (not_lt.2 hs.since)]
  · rw [tokens_spendN]
    linarith
  · rw [tokens_spendN]
    linarith
  · rw [tokens_spendN]
    linarith [hs.covered]

/-- **A write keeps the books.**  Its instant is stored up to a millisecond early, and the ledger
allows for that. -/
theorem Due.booked {amount : ℚ} (hd : Due b l now level amount) (hrefill : 0 < b.refill)
    (hb : Booked b h l now) : Booked b (hset h level) (⟨now, amount, level.tokens⟩ :: l) now := by
  obtain ⟨left, since⟩ := level
  obtain rfl : since = now := hd.since
  have hr : (0 : ℚ) < (b.refill : ℚ) := by exact_mod_cast hrefill
  refine ⟨.cons hb.ledger hb.dated hd.nonneg hd.covered, fun p hp => ?_, fun x hx => ?_,
    fun now' hle => ?_⟩
  · cases hp
    exact le_refl _
  · rw [hset, Option.some_inj] at hx
    subst hx
    exact ⟨hd.nonneg, hd.capped, le_refl _⟩
  · have hlo := unixMilli_mul_le since
    have hhi := lt_unixMilli_mul since
    have hnot : ¬ (now' < unixMilli since * millisecond ∨ b.refill ≤ 0) := by omega
    rw [hset, parseBucket, tokensAt, if_neg hnot, available]
    refine min_le_min (le_refl _) (add_le_add (le_refl _) ?_)
    refine div_le_div_of_nonneg_right ?_ (le_of_lt hr)
    have hlong : now' - unixMilli since * millisecond ≤ now' - since + millisecond := by omega
    exact_mod_cast hlong

/-! ## The time to live -/

theorem bucketTTL_pos (hrefill : 0 < b.refill) (s : Level) (now : Int) :
    0 < formatMs (bucketTTL b s now) := by
  have hr : (0 : ℚ) < (b.refill : ℚ) := by exact_mod_cast hrefill
  have hmiss : 0 ≤ (b.capacity - min s.tokens b.capacity) * b.refill :=
    mul_nonneg (by linarith [min_le_right s.tokens b.capacity]) (le_of_lt hr)
  have hfloor := Int.floor_nonneg.2 hmiss
  refine formatMs_pos ?_
  rw [bucketTTL, duration, if_pos hmiss, budgetKeyMargin, second]
  split <;> omega

variable {x : Hash}

/-- Setting a time to live changes nothing a reader looks at. -/
theorem Booked.hpexpire {nowMs ttl : Int} (hb : Booked b (some x) l since) (hpos : 0 < ttl) :
    Booked b (hpexpire (some x) nowMs ttl) l since := by
  rw [AcmeBudget.hpexpire, if_neg (by omega)]
  refine ⟨hb.ledger, hb.dated, fun y hy => ?_, hb.backed⟩
  cases hy
  exact hb.stored x rfl

/-- A write is followed by a time to live that outlasts the refill. -/
theorem timed_hpexpire (hrefill : 0 < b.refill) {nowMs : Int} (hcap : x.t ≤ b.capacity)
    (hat : x.atMs = unixMilli now) (hms : unixMilli now ≤ nowMs) :
    Timed b (hpexpire (some x) nowMs (formatMs (bucketTTL b ⟨x.t, now⟩ now))) := by
  intro y d hy hd
  have hr : (0 : ℚ) < (b.refill : ℚ) := by exact_mod_cast hrefill
  rw [hpexpire] at hy
  split at hy
  · cases hy
  · cases hy
    obtain rfl : nowMs + formatMs (bucketTTL b ⟨x.t, now⟩ now) = d := Option.some_inj.1 hd
    -- the duration is the time to refill, rounded down to nanoseconds, and an hour
    have hmiss : 0 ≤ (b.capacity - min x.t b.capacity) * b.refill :=
      mul_nonneg (by rw [min_eq_left hcap]; linarith) (le_of_lt hr)
    have hdur := Int.lt_floor_add_one ((b.capacity - min x.t b.capacity) * b.refill)
    have hfloor : 0 ≤ ⌊(b.capacity - min x.t b.capacity) * (b.refill : ℚ)⌋ :=
      Int.floor_nonneg.2 hmiss
    rw [bucketTTL, duration, if_pos hmiss, if_neg (lt_irrefl now), formatMs,
      min_eq_left hcap] at *
    generalize ⌊(b.capacity - x.t) * (b.refill : ℚ)⌋ = f at *
    rw [if_neg (by simp only [budgetKeyMargin, millisecond, second]; omega),
      Int.tdiv_eq_ediv_of_nonneg (by simp only [budgetKeyMargin, second]; omega)]
    have hlong : f + 1 ≤ (nowMs + (f + budgetKeyMargin + 0) / millisecond - x.atMs) * millisecond -
        budgetLockTTL := by
      simp only [budgetKeyMargin, budgetLockTTL, millisecond, second]
      omega
    have hlong' : ((f + 1 : Int) : ℚ) ≤ ((nowMs + (f + budgetKeyMargin + 0) / millisecond -
        x.atMs) * millisecond - budgetLockTTL : Int) := by exact_mod_cast hlong
    rw [← sub_le_iff_le_add', le_div_iff₀ hr]
    push_cast at hlong' ⊢
    linarith

/-- A hash that has run out stands for a full bucket, and did so for as long as a section may
last. -/
theorem Timed.tokensAt_eq (ht : Timed b h) (hrefill : 0 < b.refill) {d : Int} (hx : h = some x)
    (hcap : x.t ≤ b.capacity) (hd : x.deadline = some d)
    (hout : d ≤ unixMilli (now + budgetLockTTL)) :
    b.tokensAt (parseBucket b h now) now = b.capacity := by
  have hr : (0 : ℚ) < (b.refill : ℚ) := by exact_mod_cast hrefill
  have hfull := ht x d hx hd
  have hhi := unixMilli_mul_le (now + budgetLockTTL)
  have hle : (d - x.atMs) * millisecond - budgetLockTTL ≤ now - x.atMs * millisecond := by
    simp only [millisecond] at *
    omega
  -- the time to live was not negative, so the level is not from the future
  have hgain : (0 : ℚ) ≤ ((d - x.atMs) * millisecond - budgetLockTTL : Int) / (b.refill : ℚ) := by
    linarith
  have hpos : (0 : ℚ) ≤ ((d - x.atMs) * millisecond - budgetLockTTL : Int) := by
    have := mul_nonneg hgain (le_of_lt hr)
    rwa [div_mul_cancel₀ _ (ne_of_gt hr)] at this
  have hpos' : 0 ≤ (d - x.atMs) * millisecond - budgetLockTTL := by exact_mod_cast hpos
  have hnot : ¬ (now < x.atMs * millisecond ∨ b.refill ≤ 0) := by omega
  subst hx
  rw [parseBucket, tokensAt, if_neg hnot]
  refine min_eq_left (le_trans hfull (add_le_add (le_refl _) ?_))
  refine div_le_div_of_nonneg_right ?_ (le_of_lt hr)
  exact_mod_cast hle

/-- A hash that runs out is missed by nobody. -/
theorem Booked.lapse (hb : Booked b h l since) (ht : Timed b h) (hrefill : 0 < b.refill) {d : Int}
    (hx : h = some x) (hd : x.deadline = some d) (hout : d ≤ unixMilli (since + budgetLockTTL)) :
    Booked b none l since := by
  refine ⟨hb.ledger, hb.dated, fun _ hn => absurd hn.symm (Option.some_ne_none _),
    fun now hle => ?_⟩
  have hfull : b.tokensAt (parseBucket b h now) now = b.capacity :=
    ht.tokensAt_eq hrefill hx (hb.stored x hx).2.1 hd
      (le_trans hout (unixMilli_mono (by omega)))
  rw [tokensAt_parse_none, ← hfull]
  exact hb.backed now hle

/-- Whether the hash has run out or is still there makes no difference to any read from now on,
whose clock reading may be as old as a section may last. -/
theorem Booked.found_none (hb : Booked b h l since) (ht : Timed b h) (hrefill : 0 < b.refill)
    {d now' : Int} (hx : h = some x) (hd : x.deadline = some d) (hout : d < unixMilli now)
    (hread : now ≤ now' + budgetLockTTL) : found b none now' = found b h now' := by
  rw [found, found, tokensAt_parse_none]
  exact (ht.tokensAt_eq hrefill hx (hb.stored x hx).2.1 hd
    (le_trans (le_of_lt hout) (unixMilli_mono hread))).symm

theorem Booked.conforms (hb : Booked b h l since) (hrefill : 0 < b.refill)
    (hcap : 0 ≤ b.capacity) : Conforms b l := fun _ _ ht =>
  hb.ledger.spent_le hrefill hcap (by decide) ht

end Tunneld.AcmeBudget

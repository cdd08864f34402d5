import Tunneld.Limit.WaitHint

/-!
# A bucket that is held

When an authority answers `429`, `ResyncACME` empties the bucket it names until `Retry-After` is
over.  It stores no tokens, at an instant that is one refill before that end, so that the first
token comes in when the wait is over.  That instant may be past or to come, and it is stored rounded
down to a millisecond.

Nothing that asks for a token gets one before that, up to the millisecond (`Held`).  The one call
that writes to the bucket meanwhile is `CommitACME`, which spends a token whether there is one or
not.  It rounds the instant it writes down again, which may be worth more than the token it spends
if the bucket refills in less than a millisecond; but then the instant is the same millisecond as
before.

## Main results

* `resync_holds`: no token before the end of the wait, and one after it.
-/

namespace Tunneld.AcmeBudget

open Clock TokenBucket

/-! ## One bucket -/

section Bucket

variable {b : TokenBucket} {till now : Int} {x : Hash}

/-- A hash that comes up to a token at `till` or later. -/
structure Held (b : TokenBucket) (till : Int) (x : Hash) : Prop where
  empty : x.t ≤ 0
  less : x.t + (till - x.atMs * millisecond : Int) / (b.refill : ℚ) ≤ 1
  /-- A bucket that refills in less than a millisecond does so in the one that is stored. -/
  fast : b.refill < millisecond → till ≤ x.atMs * millisecond + b.refill

/-- Before that there is no token. -/
theorem Held.tokensAt_lt (h : Held b till x) (hrefill : 0 < b.refill) (hnow : now < till) :
    b.tokensAt (parseBucket b (some x) now) now < 1 := by
  have hr : (0 : ℚ) < (b.refill : ℚ) := by exact_mod_cast hrefill
  rw [parseBucket, tokensAt]
  split
  · exact lt_of_le_of_lt h.empty one_pos
  · refine min_lt_of_right_lt (lt_of_lt_of_le ?_ h.less)
    have hlt : ((now - x.atMs * millisecond : Int) : ℚ) < (till - x.atMs * millisecond : Int) := by
      exact_mod_cast by omega
    have hdiv := div_lt_div_of_pos_right hlt hr
    linarith

/-- What `ResyncACME` writes is held, up to a millisecond. -/
theorem held_resync (hrefill : 0 < b.refill) (t retryAfter nowMs : Int) :
    Held b (t + retryAfter - millisecond)
      (written b t nowMs ⟨0, t + (retryAfter - b.refill)⟩) := by
  have hr : (0 : ℚ) < (b.refill : ℚ) := by exact_mod_cast hrefill
  have hhi := lt_unixMilli_mul (t + (retryAfter - b.refill))
  refine ⟨le_refl _, ?_, fun _ => ?_⟩
  · have hle : t + retryAfter - millisecond -
        unixMilli (t + (retryAfter - b.refill)) * millisecond ≤ b.refill := by omega
    simp only [written, zero_add]
    rw [div_le_one hr]
    exact_mod_cast hle
  · simp only [written]
    omega

/-- A commit keeps it so. -/
theorem Held.spend (h : Held b till x) (hrefill : 0 < b.refill) (hnow : now < till) (nowMs : Int) :
    Held b till (written b now nowMs (b.spend (parseBucket b (some x) now) now)) := by
  have hr : (0 : ℚ) < (b.refill : ℚ) := by exact_mod_cast hrefill
  have hlt := h.tokensAt_lt hrefill hnow
  by_cases hearly : now < x.atMs * millisecond
  · -- the token is taken from what is there, and the instant stays
    have hsame : unixMilli (x.atMs * millisecond) = x.atMs := by
      simp only [unixMilli, millisecond]
      omega
    rw [TokenBucket.spend, spendN, parseBucket, if_pos hearly]
    refine ⟨by simp only [written]; linarith [h.empty], ?_, fun hfast => ?_⟩
    · simp only [written, hsame]
      linarith [h.less]
    · simp only [written, hsame]
      exact h.fast hfast
  · have hlate : ¬ (now < x.atMs * millisecond ∨ b.refill ≤ 0) := by omega
    have hle : b.tokensAt (parseBucket b (some x) now) now ≤
        x.t + (now - x.atMs * millisecond : Int) / (b.refill : ℚ) := by
      rw [parseBucket, tokensAt, if_neg hlate]
      exact min_le_right _ _
    have hspend : b.spend (parseBucket b (some x) now) now =
        ⟨b.tokensAt (parseBucket b (some x) now) now - 1, now⟩ := by
      rw [TokenBucket.spend, spendN]
      exact if_neg hearly
    have hlo := unixMilli_mul_le now
    have hhi := lt_unixMilli_mul now
    have hsame : b.refill < millisecond → unixMilli now = x.atMs := by
      intro hfast
      have := h.fast hfast
      simp only [unixMilli, millisecond] at *
      omega
    rw [hspend]
    refine ⟨by simp only [written]; linarith, ?_, fun hfast => ?_⟩
    · -- what the rounding gains is at most what is spent
      have hgain : now - x.atMs * millisecond + (till - unixMilli now * millisecond) ≤
          till - x.atMs * millisecond + b.refill := by
        by_cases hfast : b.refill < millisecond
        · have := h.fast hfast
          rw [hsame hfast]
          omega
        · omega
      have hgain' : ((now - x.atMs * millisecond : Int) : ℚ) +
          (till - unixMilli now * millisecond : Int) ≤
            (till - x.atMs * millisecond : Int) + b.refill := by exact_mod_cast hgain
      have hdiv := div_le_div_of_nonneg_right hgain' (le_of_lt hr)
      rw [add_div, add_div, div_self (ne_of_gt hr)] at hdiv
      simp only [written]
      linarith [h.less]
    · simp only [written, hsame hfast]
      exact h.fast hfast

/-- When the wait is over there is a token, unless somebody has spent it. -/
theorem one_le_seen_resync (hcap : 1 ≤ b.capacity) (hrefill : 0 < b.refill)
    {t retryAfter nowMs : Int} (hnow : t + retryAfter ≤ now) :
    1 ≤ seen b (some (written b t nowMs ⟨0, t + (retryAfter - b.refill)⟩)) now := by
  have hr : (0 : ℚ) < (b.refill : ℚ) := by exact_mod_cast hrefill
  rw [seen, found]
  rcases visible_cases (some (written b t nowMs ⟨0, t + (retryAfter - b.refill)⟩))
    (unixMilli now) with hv | ⟨hv, -⟩
  · have hlo := unixMilli_mul_le (t + (retryAfter - b.refill))
    have hlate : ¬ (now < unixMilli (t + (retryAfter - b.refill)) * millisecond ∨
        b.refill ≤ 0) := by omega
    have hfull : b.refill ≤ now - unixMilli (t + (retryAfter - b.refill)) * millisecond := by omega
    rw [hv, parseBucket, written, tokensAt, if_neg hlate]
    refine le_min hcap ?_
    rw [zero_add, one_le_div hr]
    exact_mod_cast hfull
  · rw [hv, tokensAt_parse_none]
    exact hcap

end Bucket

variable {β η μ : Type}
variable {bucket : β → TokenBucket} {now till : Int} {s : Store β η μ} {op : Op β η μ} {b : β}

/-- The buckets that a call fills or empties anew. -/
def Op.resets : Op β η μ → List β
  | .refund b _ => [b]
  | .resync bs _ => bs
  | _ => []

/-! ## Sequences of calls -/

/-- The bucket is held. -/
structure HeldIn (bucket : β → TokenBucket) (b : β) (till : Int) (s : Store β η μ) : Prop where
  kept : Kept (bucket b) (s.budget b)
  held : ∃ x, s.budget b = some x ∧ Held (bucket b) till x

namespace HeldIn

/-- What is read of the bucket is what is stored. -/
theorem visible_eq (h : HeldIn bucket b till s) (hcap : 1 ≤ (bucket b).capacity)
    (hrefill : 0 < (bucket b).refill) (hnow : now < till) :
    visible (s.budget b) (unixMilli now) = s.budget b := by
  obtain ⟨x, hx, hheld⟩ := h.held
  refine visible_eq_of_lt h.kept hrefill ?_
  rw [hx]
  exact lt_of_lt_of_le (hheld.tokensAt_lt hrefill hnow) hcap

theorem tokens_lt (h : HeldIn bucket b till s) (hcap : 1 ≤ (bucket b).capacity)
    (hrefill : 0 < (bucket b).refill) (hnow : now < till) : s.tokens bucket now b < 1 := by
  obtain ⟨x, hx, hheld⟩ := h.held
  rw [Store.tokens, Store.read, h.visible_eq hcap hrefill hnow, hx]
  exact hheld.tokensAt_lt hrefill hnow

variable [DecidableEq β] [DecidableEq η] [DecidableEq μ]

/-- No call gets a token of it. -/
theorem refused (h : HeldIn bucket b till s) (hcap : 1 ≤ (bucket b).capacity)
    (hrefill : 0 < (bucket b).refill) (hnow : now < till) (hb : b ∈ op.asks bucket) :
    ∃ w, (exec bucket now s op).2 = .wait w := by
  refine exec_wait hb (lt_of_lt_of_le (h.tokens_lt hcap hrefill hnow) ?_)
  cases op with
  | take bs => exact le_refl _
  | prepay c n =>
    have hn : ¬ prepayable bucket c n ≤ 0 := fun hn => by simp [Op.asks, hn] at hb
    rw [Op.need]
    exact_mod_cast not_le.1 hn
  | reserve | commit | release | refund | resync =>
    exact le_add_of_nonneg_left (Nat.cast_nonneg _)

/-- Every call but a refund or another resync leaves it held. -/
theorem exec (h : HeldIn bucket b till s) (hcap : 1 ≤ (bucket b).capacity)
    (hrefill : 0 < (bucket b).refill) (hnow : now < till) (hop : b ∉ op.resets) :
    HeldIn bucket b till (exec bucket now s op).1 := by
  refine ⟨h.kept.exec hrefill, ?_⟩
  by_cases hasks : b ∈ op.asks bucket
  · obtain ⟨w, hw⟩ := h.refused hcap hrefill hnow hasks
    exact congrFun (refused_of_exec hw).budget b ▸ h.held
  by_cases hwrites : b ∈ op.writes bucket
  · cases op with
    | commit c node member =>
      obtain rfl : b = c := by simpa [Op.writes] using hwrites
      obtain ⟨x, hx, hheld⟩ := h.held
      have hread : s.read bucket now b = parseBucket (bucket b) (some x) now := by
        rw [Store.read, h.visible_eq hcap hrefill hnow, hx]
      have hnew : (AcmeBudget.exec bucket now s (.commit b node member)).1.budget b =
          some (written (bucket b) now (unixMilli now)
            ((bucket b).spend (s.read bucket now b) now)) := by
        exact Store.budget_write_self hrefill ..
      rw [hread] at hnew
      exact ⟨_, hnew, hheld.spend hrefill hnow _⟩
    | take bs => exact absurd hwrites hasks
    | prepay c n => exact absurd hwrites hasks
    | reserve | release => exact absurd hwrites List.not_mem_nil
    | refund c n => exact absurd hwrites hop
    | resync bs retryAfter => exact absurd hwrites hop
  · have hsame : (AcmeBudget.exec bucket now s op).1.budget b = s.budget b :=
      budget_exec hrefill hwrites
    exact hsame ▸ h.held

theorem runs (h : HeldIn bucket b till s) (hcap : 1 ≤ (bucket b).capacity)
    (hrefill : 0 < (bucket b).refill) {l : List (Int × Op β η μ)}
    (hl : ∀ p ∈ l, p.1 < till ∧ b ∉ p.2.resets) : HeldIn bucket b till (runs bucket s l) := by
  induction l generalizing s with
  | nil => exact h
  | cons p l ih =>
    rw [List.forall_mem_cons] at hl
    exact ih (h.exec hcap hrefill hl.1.1 hl.1.2) hl.2

end HeldIn

variable [DecidableEq β] [DecidableEq η] [DecidableEq μ]

/-- In a sequence of calls no token of the bucket is spent: a call does not write to it, or is
refused. -/
def Unspent (bucket : β → TokenBucket) (b : β) (s : Store β η μ) : List (Int × Op β η μ) → Prop
  | [] => True
  | (now, op) :: l => (b ∉ op.writes bucket ∨ ∃ w, (exec bucket now s op).2 = .wait w) ∧
      Unspent bucket b (exec bucket now s op).1 l

theorem Unspent.budget_eq {l : List (Int × Op β η μ)} (h : Unspent bucket b s l)
    (hrefill : 0 < (bucket b).refill) :
    (runs bucket s l).budget b = s.budget b := by
  induction l generalizing s with
  | nil => rfl
  | cons p l ih =>
    obtain ⟨hp, hl⟩ := h
    rw [runs, ih hl]
    rcases hp with hp | ⟨w, hw⟩
    · exact budget_exec hrefill hp
    · exact congrFun (refused_of_exec hw).budget b

theorem budget_resync {bs : List β} (hrefill : 0 < (bucket b).refill) (hb : b ∈ bs)
    (s : Store β η μ) (t retryAfter : Int) :
    (exec bucket t s (.resync bs retryAfter)).1.budget b =
      some (written (bucket b) t (unixMilli t) ⟨0, t + (retryAfter - (bucket b).refill)⟩) :=
  budget_foldl_write_of_mem hrefill (fun b => ⟨0, t + (retryAfter - (bucket b).refill)⟩) bs s hb

/-- **A resync holds the bucket.**  After `ResyncACME` at `t`, no call that asks for a token of the
bucket gets it before `t + retryAfter`, less a millisecond, whatever calls come first that neither
refund nor resync the bucket.  From `t + retryAfter` on a token can be taken, if none was spent. -/
theorem resync_holds {bs : List β} (hcap : ∀ b ∈ bs, 1 ≤ (bucket b).capacity)
    (hrefill : ∀ b ∈ bs, 0 < (bucket b).refill) (s : Store β η μ) (t retryAfter : Int)
    (l : List (Int × Op β η μ)) :
    (∀ b ∈ bs, (∀ p ∈ l, p.1 < t + retryAfter - millisecond ∧ b ∉ p.2.resets) →
      ∀ now op, now < t + retryAfter - millisecond → b ∈ op.asks bucket →
        ∃ w, (exec bucket now
          (runs bucket (exec bucket t s (.resync bs retryAfter)).1 l) op).2 = .wait w) ∧
    ∀ bs' : List β,
      (∀ b ∈ bs', b ∈ bs ∧ Unspent bucket b (exec bucket t s (.resync bs retryAfter)).1 l) →
      ∀ now, t + retryAfter ≤ now →
        (exec bucket now (runs bucket (exec bucket t s (.resync bs retryAfter)).1 l)
          (.take bs')).2 = .done 0 := by
  refine ⟨fun b hb hl now op hnow hasks => ?_, fun bs' hbs' now hnow => ?_⟩
  · have hstart : HeldIn bucket b (t + retryAfter - millisecond)
        (exec bucket t s (.resync bs retryAfter)).1 := by
      have hnew := budget_resync (hrefill b hb) hb s t retryAfter
      exact ⟨hnew ▸ kept_written _ _, _, hnew, held_resync (hrefill b hb) t retryAfter _⟩
    exact (hstart.runs (hcap b hb) (hrefill b hb) hl).refused (hcap b hb) (hrefill b hb) hnow hasks
  · refine exec_done fun b hb => ?_
    obtain ⟨hmem, hun⟩ := hbs' b hb
    rw [tokens_eq_seen, hun.budget_eq (hrefill b hmem), budget_resync (hrefill b hmem) hmem]
    exact one_le_seen_resync (hcap b hmem) (hrefill b hmem) hnow

/-- A resync for five seconds holds a bucket for that long, although a request that was on its way
spends a token meanwhile; and a request that is refused meanwhile does not delay the next. -/
theorem resync_holds_five_seconds :
    (∃ w, (exec slowBucket 4998999999 (runs slowBucket (exec slowBucket 0 inDebt
      (.resync [()] 5000000000)).1 [(1000000000, .commit () () ())]) (.take [()])).2 = .wait w) ∧
    (exec slowBucket 5000000000 (runs slowBucket (exec slowBucket 0 inDebt
      (.resync [()] 5000000000)).1 [(4000000000, .take [()])]) (.take [()])).2 = .done 0 := by
  refine ⟨(resync_holds (by decide +kernel) (by decide) inDebt 0 5000000000 _).1 () (by decide)
    (by decide) _ _ (by decide) (by decide),
    (resync_holds (by decide +kernel) (by decide) inDebt 0 5000000000 _).2 [()] (fun _ hmem => ?_) _
      (by decide)⟩
  have hwait : (exec slowBucket 4000000000
      (exec slowBucket 0 inDebt (.resync [()] 5000000000)).1 (.take [()])).2 =
        .wait 1000000000 := by decide +kernel
  exact ⟨hmem, .inr ⟨_, hwait⟩, trivial⟩

end Tunneld.AcmeBudget

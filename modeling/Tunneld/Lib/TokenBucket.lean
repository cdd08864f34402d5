import Mathlib.Data.Rat.Floor

/-!
# Token buckets

A bucket holds at most `capacity` tokens and gains one every `refill` nanoseconds.  Nobody runs the
refill: what is stored is a *level*, how many tokens there were at some instant, and a reader works
out what has come in since (`TokenBucket.tokensAt`).  Counts are exact rationals.

Everything a user of a bucket needs is how `tokensAt` moves: it never falls while the level is left
alone (`tokensAt_mono`), it never exceeds the capacity (`tokensAt_le`), and spending takes away
exactly what it says (`tokens_spendN`).  `waitFor` computes in two ways when there will be enough
tokens, and both give the same instant (`add_waitFor`), up to which there are too few and after
which there are enough.

The last part is about what a bucket is *for*.  A `Ledger` is the list of its writes, each of which
took no more than a reader could find; `Ledger.spent_le` bounds what the writes of any interval have
taken together, by a bucket's worth and what comes in during the interval.  Instants may be stored
rounded down by less than a grain, which costs a grain for each write.
-/

/-- A duration computed as a fraction, rounded towards zero. -/
def Clock.duration (q : ℚ) : Int := if 0 ≤ q then ⌊q⌋ else ⌈q⌉

/-- A bucket: how much it holds, and how long a token takes to come in. -/
structure TokenBucket where
  capacity : ℚ
  /-- The time between two tokens; a bucket with none is never refilled. -/
  refill : Int

namespace TokenBucket

/-- What is stored of a bucket. -/
structure Level where
  /-- How many tokens there were. -/
  tokens : ℚ
  /-- When that was. -/
  since : Int

variable (b : TokenBucket)

/-- The tokens at the instant `now`. -/
def tokensAt (s : Level) (now : Int) : ℚ :=
  if now < s.since ∨ b.refill ≤ 0 then s.tokens
  else min b.capacity (s.tokens + (now - s.since : Int) / (b.refill : ℚ))

/-- How long until there are `need` tokens. -/
def waitFor (s : Level) (now : Int) (need : ℚ) : Int :=
  if b.capacity < need then b.refill
  else if now < s.since then s.since - now + Clock.duration ((need - s.tokens) * b.refill)
  else Clock.duration ((need - b.tokensAt s now) * b.refill)

/-- Take `n` tokens at the instant `now`. -/
def spendN (s : Level) (now : Int) (n : ℚ) : Level :=
  if now < s.since then ⟨s.tokens - n, s.since⟩ else ⟨b.tokensAt s now - n, now⟩

/-- Take one token. -/
def spend (s : Level) (now : Int) : Level := b.spendN s now 1

variable {b} {s : Level} {now now' : Int}

theorem tokensAt_le (h : s.tokens ≤ b.capacity) : b.tokensAt s now ≤ b.capacity := by
  rw [tokensAt]
  split
  · exact h
  · exact min_le_left _ _

theorem le_tokensAt (h : s.tokens ≤ b.capacity) : s.tokens ≤ b.tokensAt s now := by
  rw [tokensAt]
  split
  · exact le_refl _
  · rename_i hcase
    obtain ⟨hnow, hrefill⟩ := not_or.1 hcase
    have hnum : (0 : ℚ) ≤ ((now - s.since : Int) : ℚ) := by exact_mod_cast by omega
    have hden : (0 : ℚ) ≤ (b.refill : ℚ) := by exact_mod_cast by omega
    have hgain : (0 : ℚ) ≤ ((now - s.since : Int) : ℚ) / (b.refill : ℚ) := div_nonneg hnum hden
    exact le_min h (by linarith)

/-- A level that is left alone never falls. -/
theorem tokensAt_mono (h : s.tokens ≤ b.capacity) (hle : now ≤ now') :
    b.tokensAt s now ≤ b.tokensAt s now' := by
  by_cases hearly : now < s.since ∨ b.refill ≤ 0
  · rw [tokensAt, if_pos hearly]
    exact le_tokensAt h
  · obtain ⟨hnow, hrefill⟩ := not_or.1 hearly
    have hlate : ¬ (now' < s.since ∨ b.refill ≤ 0) := not_or.2 ⟨by omega, hrefill⟩
    rw [tokensAt, tokensAt, if_neg hearly, if_neg hlate]
    have hden : (0 : ℚ) ≤ (b.refill : ℚ) := by exact_mod_cast by omega
    have hnum : ((now - s.since : Int) : ℚ) ≤ ((now' - s.since : Int) : ℚ) := by
      exact_mod_cast by omega
    have hdiv := div_le_div_of_nonneg_right hnum hden
    exact min_le_min (le_refl _) (by linarith)

/-- A full bucket is full. -/
theorem tokensAt_full : b.tokensAt ⟨b.capacity, now⟩ now = b.capacity := by
  rw [tokensAt]
  split
  · rfl
  · simp

theorem tokens_spendN (n : ℚ) : (b.spendN s now n).tokens = b.tokensAt s now - n := by
  rw [spendN]
  split
  · rename_i h
    rw [tokensAt, if_pos (.inl h)]
  · rfl

/-! ## How long to wait -/

variable (b) in
/-- The last instant at which there may be too few tokens, if there are too few now. -/
def ready (s : Level) (need : ℚ) : Int := s.since + ⌊(need - s.tokens) * b.refill⌋

variable {need : ℚ}

/-- A level that is short of what fits the bucket has not come up to the capacity. -/
theorem lt_of_tokensAt_lt (hneed : need ≤ b.capacity) (h : b.tokensAt s now < need) :
    s.tokens < need ∧ (s.since ≤ now → 0 < b.refill →
      b.tokensAt s now = s.tokens + (now - s.since : Int) / (b.refill : ℚ)) := by
  rw [tokensAt] at h ⊢
  split at h
  · rename_i hearly
    rw [if_pos hearly]
    exact ⟨h, fun hsince hrefill => by omega⟩
  · rename_i hearly
    rw [if_neg hearly]
    obtain ⟨hnow, hrefill⟩ := not_or.1 hearly
    have hgain : (0 : ℚ) ≤ ((now - s.since : Int) : ℚ) / (b.refill : ℚ) :=
      div_nonneg (by exact_mod_cast by omega) (by exact_mod_cast by omega)
    rcases min_lt_iff.1 h with h | h
    · exact absurd hneed (not_le.2 h)
    · exact ⟨by linarith, fun _ _ => min_eq_right (by linarith)⟩

/-- Whether the level is from the future or not, the wait ends at the same instant. -/
theorem add_waitFor (hrefill : 0 < b.refill) (hneed : need ≤ b.capacity)
    (h : b.tokensAt s now < need) : now + b.waitFor s now need = b.ready s need := by
  have hr : (0 : ℚ) < (b.refill : ℚ) := by exact_mod_cast hrefill
  obtain ⟨hshort, hexact⟩ := lt_of_tokensAt_lt hneed h
  rw [waitFor, if_neg (not_lt.2 hneed), ready]
  split
  · have hpos : 0 ≤ (need - s.tokens) * (b.refill : ℚ) := mul_nonneg (by linarith) (le_of_lt hr)
    rw [Clock.duration, if_pos hpos]
    omega
  · rename_i hnow
    have hpos : 0 ≤ (need - b.tokensAt s now) * (b.refill : ℚ) :=
      mul_nonneg (by linarith) (le_of_lt hr)
    have hsplit : (need - b.tokensAt s now) * (b.refill : ℚ) =
        (need - s.tokens) * b.refill - (now - s.since : Int) := by
      rw [hexact (not_lt.1 hnow) hrefill]
      field_simp
      ring
    rw [Clock.duration, if_pos hpos, hsplit, Int.floor_sub_intCast]
    omega

/-- After that instant there are enough tokens. -/
theorem le_tokensAt_of_ready_lt (hrefill : 0 < b.refill) (hneed : need ≤ b.capacity)
    (hshort : s.tokens < need) (h : b.ready s need < now) : need ≤ b.tokensAt s now := by
  have hr : (0 : ℚ) < (b.refill : ℚ) := by exact_mod_cast hrefill
  have hpos : 0 ≤ ⌊(need - s.tokens) * (b.refill : ℚ)⌋ :=
    Int.floor_nonneg.2 (mul_nonneg (by linarith) (le_of_lt hr))
  rw [ready] at h
  have hfloor := Int.lt_floor_add_one ((need - s.tokens) * (b.refill : ℚ))
  have hlate : ¬ (now < s.since ∨ b.refill ≤ 0) := by omega
  rw [tokensAt, if_neg hlate]
  refine le_min hneed ?_
  have hint : ⌊(need - s.tokens) * (b.refill : ℚ)⌋ + 1 ≤ now - s.since := by omega
  have hint' : ((⌊(need - s.tokens) * (b.refill : ℚ)⌋ : ℚ) + 1) ≤ (now - s.since : Int) := by
    exact_mod_cast hint
  rw [← sub_le_iff_le_add', le_div_iff₀ hr]
  linarith

/-- Before it there are not. -/
theorem tokensAt_lt_of_lt_ready (hshort : s.tokens < need) (h : now < b.ready s need) :
    b.tokensAt s now < need := by
  rw [tokensAt]
  split
  · exact hshort
  · rename_i hlate
    obtain ⟨hnow, hrefill⟩ := not_or.1 hlate
    have hr : (0 : ℚ) < (b.refill : ℚ) := by exact_mod_cast not_le.1 hrefill
    have hfloor := Int.floor_le ((need - s.tokens) * (b.refill : ℚ))
    rw [ready] at h
    have hint : now - s.since < ⌊(need - s.tokens) * (b.refill : ℚ)⌋ := by omega
    have hint' : ((now - s.since : Int) : ℚ) < ⌊(need - s.tokens) * (b.refill : ℚ)⌋ := by
      exact_mod_cast hint
    refine min_lt_of_right_lt ?_
    rw [← lt_sub_iff_add_lt', div_lt_iff₀ hr]
    linarith

/-! ## The writes of a bucket -/

/-- One write of a level. -/
structure Entry where
  /-- The clock reading it was made with. -/
  now : Int
  /-- The tokens it took; a negative amount gives tokens back. -/
  amount : ℚ
  /-- The tokens it left. -/
  left : ℚ

variable (b) in
/-- The most a reader can find at `now` after the writes of a list, newest first: what the last one
left, what has come in since, and what comes in during one grain. -/
def available (grain : Int) (l : List Entry) (now : Int) : ℚ :=
  match l with
  | [] => b.capacity
  | e :: _ => min b.capacity (e.left + (now - e.now + grain : Int) / (b.refill : ℚ))

variable (b) in
/-- **A ledger**: the writes of a bucket, newest first.  Their clock readings are in order, each
took no more than was available, and none left a debt. -/
inductive Ledger (grain : Int) : List Entry → Prop
  | nil : Ledger grain []
  | cons {e : Entry} {l : List Entry} (hl : Ledger grain l) (hnow : ∀ p ∈ l.head?, p.now ≤ e.now)
      (hleft : 0 ≤ e.left) (hamount : e.amount + e.left ≤ b.available grain l e.now) :
      Ledger grain (e :: l)

/-- The writes made with a clock reading between two instants. -/
def within (t₀ t₁ : Int) (l : List Entry) : List Entry :=
  l.filter fun e => t₀ ≤ e.now ∧ e.now ≤ t₁

/-- The tokens a list of writes took, net of what it gave back. -/
def spent (l : List Entry) : ℚ := (l.map Entry.amount).sum

@[simp] theorem spent_nil : spent [] = 0 := rfl

@[simp] theorem spent_cons (e : Entry) (l : List Entry) : spent (e :: l) = e.amount + spent l := by
  simp [spent]

theorem available_le (grain : Int) (l : List Entry) (now : Int) :
    b.available grain l now ≤ b.capacity := by
  cases l with
  | nil => exact le_refl _
  | cons e l => exact min_le_left _ _

namespace Ledger

variable {grain t₀ t₁ : Int} {e : Entry} {l : List Entry}

/-- The last write has the latest clock reading. -/
theorem now_le (h : b.Ledger grain (e :: l)) : ∀ p ∈ l, p.now ≤ e.now := by
  induction l generalizing e with
  | nil => simp
  | cons p l ih =>
    intro q hq
    cases h with
    | cons hl hnow _ _ =>
      have hp : p.now ≤ e.now := hnow p rfl
      rcases List.mem_cons.1 hq with rfl | hq
      · exact hp
      · exact le_trans (ih hl q hq) hp

/-- The bound, from an instant up to the last write, with what that write left on the side of what
has been taken. -/
theorem spent_since (h : b.Ledger grain (e :: l)) (hrefill : 0 < b.refill) (hgrain : 0 ≤ grain)
    (ht : t₀ ≤ e.now) :
    spent ((e :: l).filter fun p => t₀ ≤ p.now) + e.left ≤ b.capacity +
      (e.now - t₀ + ((e :: l).filter fun p => t₀ ≤ p.now).length * grain : Int) /
        (b.refill : ℚ) := by
  have hr : (0 : ℚ) < (b.refill : ℚ) := by exact_mod_cast hrefill
  rw [List.filter_cons_of_pos (by simpa using ht), spent_cons, List.length_cons]
  induction l generalizing e with
  | nil =>
    cases h with
    | cons _ _ _ hamount =>
      have hgain : (0 : ℚ) ≤ (e.now - t₀ + ((0 + 1 : Nat) : Int) * grain : Int) / (b.refill : ℚ) :=
        div_nonneg (by exact_mod_cast by omega) (le_of_lt hr)
      simp only [available, List.filter_nil, spent_nil, List.length_nil] at *
      linarith
  | cons p l ih =>
    have hold := h.now_le
    cases h with
    | cons hl hnow _ hamount =>
      have hp : p.now ≤ e.now := hnow p rfl
      by_cases hin : t₀ ≤ p.now
      · -- the write before this one is in the interval as well
        have hle := ih hl hin
        have havail := le_trans hamount (min_le_right _ _)
        rw [List.filter_cons_of_pos (by simpa using hin), spent_cons, List.length_cons]
        rw [← sub_nonneg] at hle havail ⊢
        have hsum := add_nonneg hle havail
        refine le_trans hsum (le_of_eq ?_)
        push_cast
        ring
      · -- this write is the first one of the interval
        have hnone : (p :: l).filter (fun q => decide (t₀ ≤ q.now)) = [] := by
          rw [List.filter_eq_nil_iff]
          intro q hq
          rcases List.mem_cons.1 hq with rfl | hq
          · simpa using hin
          · have := hl.now_le q hq
            simp only [decide_eq_true_eq]
            omega
        rw [hnone, spent_nil, List.length_nil]
        have hgain : (0 : ℚ) ≤ (e.now - t₀ + ((0 + 1 : Nat) : Int) * grain : Int) /
            (b.refill : ℚ) := div_nonneg (by exact_mod_cast by omega) (le_of_lt hr)
        have havail := le_trans hamount (available_le _ _ _)
        linarith

/-- **What a bucket is for.**  The writes of an interval take at most a bucket's worth, and what
comes in during the interval and one grain for each write. -/
theorem spent_le (h : b.Ledger grain l) (hrefill : 0 < b.refill) (hcap : 0 ≤ b.capacity)
    (hgrain : 0 ≤ grain) (ht : t₀ ≤ t₁) :
    spent (within t₀ t₁ l) ≤ b.capacity +
      (t₁ - t₀ + (within t₀ t₁ l).length * grain : Int) / (b.refill : ℚ) := by
  have hr : (0 : ℚ) < (b.refill : ℚ) := by exact_mod_cast hrefill
  induction h with
  | nil =>
    have hgain : (0 : ℚ) ≤ (t₁ - t₀ + ((0 : Nat) : Int) * grain : Int) / (b.refill : ℚ) :=
      div_nonneg (by exact_mod_cast by omega) (le_of_lt hr)
    simp only [within, List.filter_nil, spent_nil, List.length_nil]
    linarith
  | cons hl hnow hleft hamount ih =>
    rename_i e l
    have h := Ledger.cons hl hnow hleft hamount
    by_cases hin : t₀ ≤ e.now ∧ e.now ≤ t₁
    · have hall : within t₀ t₁ (e :: l) = (e :: l).filter fun p => t₀ ≤ p.now := by
        refine List.filter_congr fun p hp => ?_
        have hp : p.now ≤ e.now := by
          rcases List.mem_cons.1 hp with rfl | hp
          · exact le_refl _
          · exact h.now_le p hp
        have : p.now ≤ t₁ := le_trans hp hin.2
        simp [this]
      have hle := h.spent_since hrefill hgrain hin.1
      rw [hall]
      refine le_trans (by linarith) (le_trans hle (add_le_add (le_refl _) ?_))
      refine div_le_div_of_nonneg_right ?_ (le_of_lt hr)
      exact_mod_cast by omega
    · have hskip : within t₀ t₁ (e :: l) = within t₀ t₁ l := by
        rw [within, List.filter_cons_of_neg (by simpa using hin), ← within]
      rw [hskip]
      exact ih

end Ledger

end TokenBucket

import Tunneld.Limit.BucketLedger

/-!
# The budget calls as sections

Every call of `limit/acme_budget.go` but `ReleaseACME` is a section under the authority's lock: it
reads the clock and the store, decides, and writes.  `Tunneld.Limit.AcmeBudget` and
`Tunneld.Limit.RequestBudget` run these sections command by command.  Here a section is one step at
one instant, `exec`, and all the calls are there together, over the same hashes and sorted sets, so
that one can follow a bucket through any sequence of them.

A key that has run out is not there for whoever looks (`visible`, `present`).  For the hash of a
bucket that makes no difference: `writeBucket` gives it a time to live that outlasts the refill
(`Kept`), and a bucket that has been refilled is what a missing hash stands for
(`tokensAt_visible`).

Buckets are `β`, nodes `η` and the members of the reservation sets `μ`, of any type; the rates of
the buckets are arbitrary.

## Main results

* `kept_runs`: so it is in every sequence of calls on a store that was empty at first.
-/

namespace Tunneld.AcmeBudget

open Function Clock TokenBucket

/-! ## The store -/

/-- What the store has for the buckets of one authority. -/
structure Store (β η μ : Type) where
  /-- The hashes `acme-budget:{key}`. -/
  budget : β → Option Hash
  /-- The sets `acme:inflight:{key}:{node}`. -/
  inflight : β → η → SortedSet μ

/-- The hash that a command finds at the store's time `nowMs`. -/
def visible (h : Option Hash) (nowMs : Int) : Option Hash :=
  h.filter fun x => x.deadline.all fun d => nowMs ≤ d

/-- The set that a command finds. -/
def present {μ : Type} [DecidableEq μ] (z : SortedSet μ) (nowMs : Int) : SortedSet μ :=
  if z.Lapsed nowMs then .empty else z

/-- One round of a loop that works out how long to wait, over the buckets that are short. -/
def worse {β : Type} (least : Int) (short : β → Prop) [DecidablePred short] (hint : β → Int)
    (wait : Int) (b : β) : Int :=
  if short b then max (max wait (hint b)) least else wait

section Exec

variable {β η μ : Type} [DecidableEq β] [DecidableEq η] [DecidableEq μ]
variable (bucket : β → TokenBucket)

namespace Store

variable (s : Store β η μ) (now : Int)

/-- `readBuckets`, for one bucket. -/
def read (b : β) : Level := parseBucket (bucket b) (visible (s.budget b) (unixMilli now)) now

/-- The tokens of a bucket. -/
def tokens (b : β) : ℚ := (bucket b).tokensAt (s.read bucket now b) now

/-- `writeBucket`. -/
def write (b : β) (level : Level) : Store β η μ :=
  { s with
    budget := update s.budget b
      (hpexpire (hset (visible (s.budget b) (unixMilli now)) level) (unixMilli now)
        (formatMs (bucketTTL (bucket b) level now))) }

/-- The sets of `bs` on the nodes `live` without the reservations that have expired. -/
def prune (bs : List β) (live : List η) : Store β η μ :=
  { s with
    inflight := fun b n =>
      if b ∈ bs ∧ n ∈ live then
        (present (s.inflight b n) (unixMilli now)).zremrangebyscore (unixMilli now)
      else s.inflight b n }

/-- `inflightCounts`, for one bucket of a store that is pruned. -/
def held (live : List η) (b : β) : Nat :=
  live.foldl (fun k n => k + (s.inflight b n).zcard) 0

/-- A reservation is added to the set of one bucket. -/
def add (node : η) (member : μ) (deadline : Int) (b : β) : Store β η μ :=
  let ttl := formatSec (deadline - now + inflightKeyMargin) * 1000
  let z := (present (s.inflight b node) (unixMilli now)).zadd member (unixMilli deadline)
  { s with
    inflight := update s.inflight b (update (s.inflight b) node
      ((z.expireNX (unixMilli now) ttl).expireGT (unixMilli now) ttl)) }

/-- A reservation is taken out of the set of one bucket. -/
def rem (node : η) (member : μ) (b : β) : Store β η μ :=
  { s with
    inflight := update s.inflight b (update (s.inflight b) node
      ((present (s.inflight b node) (unixMilli now)).zrem member)) }

end Store

/-! ## The calls -/

/-- A call of the limiter. -/
inductive Op (β η μ : Type)
  | take (bs : List β)
  | prepay (b : β) (n : Int)
  | reserve (bs : List β) (node : η) (member : μ) (deadline : Int) (live : List η)
  | commit (b : β) (node : η) (member : μ)
  | release (bs : List β) (node : η) (member : μ)
  | refund (b : β) (n : Int)
  | resync (bs : List β) (retryAfter : Int)

/-- What a call returns. -/
inductive Answer
  /-- It is done; `PrepayACME` says how many tokens it has taken. -/
  | done (n : Int)
  /-- It is refused, and says how long to wait. -/
  | wait (d : Int)
  deriving DecidableEq

/-- The requests `PrepayACME` sets out to prepay. -/
def prepayable (b : β) (n : Int) : Int := min n ⌊(bucket b).capacity⌋

/-- The `wait` of `TakeACME`. -/
def takeWait (now : Int) (states : β → Level) (bs : List β) : Int :=
  bs.foldl (worse millisecond (fun b => (bucket b).tokensAt (states b) now < 1)
    fun b => (bucket b).waitFor (states b) now 1) 0

/-- The `wait` of `ReserveACME`. -/
def reserveWait (now : Int) (states : β → Level) (held : β → Nat) (bs : List β) : Int :=
  bs.foldl (worse second (fun b => (bucket b).tokensAt (states b) now - held b < 1)
    fun b => (bucket b).waitFor (states b) now (held b + 1)) 0

/-- One call, at one instant. -/
def exec (now : Int) (s : Store β η μ) : Op β η μ → Store β η μ × Answer
  | .take bs =>
    let wait := takeWait bucket now (s.read bucket now) bs
    if 0 < wait then (s, .wait wait)
    else
      let states := s.read bucket now
      (bs.foldl (fun s' b => s'.write bucket now b ((bucket b).spend (states b) now)) s, .done 0)
  | .prepay b n =>
    let n := prepayable bucket b n
    if n ≤ 0 then (s, .done 0)
    else if s.tokens bucket now b < n then
      (s, .wait (max ((bucket b).waitFor (s.read bucket now b) now n) millisecond))
    else (s.write bucket now b ((bucket b).spendN (s.read bucket now b) now n), .done n)
  | .reserve bs node member deadline live =>
    if bs = [] then (s, .done 0)
    else
      let s' := s.prune now bs live
      let wait := reserveWait bucket now (s.read bucket now) (s'.held live) bs
      if 0 < wait then (s', .wait wait)
      else (bs.foldl (fun s' b => s'.add now node member deadline b) s', .done 0)
  | .commit b node member =>
    ((s.write bucket now b ((bucket b).spend (s.read bucket now b) now)).rem now node member b,
      .done 0)
  | .release bs node member =>
    (bs.foldl (fun s' b => s'.rem now node member b) s, .done 0)
  | .refund b n =>
    if n ≤ 0 ∨ now < (s.read bucket now b).since then (s, .done 0)
    else
      (s.write bucket now b ⟨min (bucket b).capacity (s.tokens bucket now b + n), now⟩, .done 0)
  | .resync bs retryAfter =>
    (bs.foldl (fun s' b =>
      s'.write bucket now b ⟨0, now + (retryAfter - (bucket b).refill)⟩) s, .done 0)

/-- Calls one after the other, each at an instant of its own. -/
def runs (s : Store β η μ) : List (Int × Op β η μ) → Store β η μ
  | [] => s
  | (now, op) :: l => runs (exec bucket now s op).1 l

end Exec

/-! ## The loop over the buckets -/

section Worse

variable {β : Type} {least : Int} {short : β → Prop} [DecidablePred short] {hint : β → Int}

theorem foldl_worse_le_iff (bs : List β) (wait bound : Int) :
    bs.foldl (worse least short hint) wait ≤ bound ↔
      wait ≤ bound ∧ ∀ b ∈ bs, short b → hint b ≤ bound ∧ least ≤ bound := by
  induction bs generalizing wait with
  | nil => simp
  | cons b bs ih =>
    rw [List.foldl_cons, ih, List.forall_mem_cons, worse]
    split
    · rename_i hb
      rw [max_le_iff, max_le_iff]
      tauto
    · rename_i hb
      tauto

/-- The wait is positive as soon as one bucket is short. -/
theorem foldl_worse_pos_iff (hleast : 0 < least) (bs : List β) :
    0 < bs.foldl (worse least short hint) 0 ↔ ∃ b ∈ bs, short b := by
  rw [← not_le, foldl_worse_le_iff]
  constructor
  · intro h
    by_contra hno
    exact h ⟨le_refl _, fun b hb hs => absurd ⟨b, hb, hs⟩ hno⟩
  · rintro ⟨b, hb, hs⟩ ⟨-, hall⟩
    exact absurd (hall b hb hs).2 (not_le.2 hleast)

/-- It is at least as long as what is worked out for each bucket that is short. -/
theorem hint_le_foldl_worse {bs : List β} {b : β} (hb : b ∈ bs) (hs : short b) :
    hint b ≤ bs.foldl (worse least short hint) 0 :=
  (((foldl_worse_le_iff bs 0 _).1 (le_refl _)).2 b hb hs).1

/-- For one bucket it is what is worked out for it, unless that is less than the least wait. -/
theorem foldl_worse_singleton {b : β} (hleast : 0 < least)
    (h : least < [b].foldl (worse least short hint) 0) :
    [b].foldl (worse least short hint) 0 = hint b := by
  simp only [List.foldl_cons, List.foldl_nil, worse] at h ⊢
  split at h <;> rename_i hb
  · rw [if_pos hb]
    omega
  · omega

end Worse

/-! ## The time to live of a hash -/

section Hash

/-- The hash that `writeBucket` leaves, if the store's time is `nowMs`. -/
def written (b : TokenBucket) (now nowMs : Int) (level : Level) : Hash :=
  ⟨level.tokens, unixMilli level.since, some (nowMs + formatMs (bucketTTL b level now))⟩

/-- A hash as `writeBucket` leaves it: some level, written at some instant, with the time to live
for that.  The store may be a little later than the clock. -/
def Kept (b : TokenBucket) (h : Option Hash) : Prop :=
  ∀ x ∈ h, ∃ (level : Level) (now nowMs : Int),
    unixMilli now ≤ nowMs ∧ x = written b now nowMs level

variable {b : TokenBucket} {h : Option Hash} {now : Int}

theorem hpexpire_hset (hrefill : 0 < b.refill) (old : Option Hash) (level : Level) (now : Int) :
    hpexpire (hset old level) (unixMilli now) (formatMs (bucketTTL b level now)) =
      some (written b now (unixMilli now) level) := by
  rw [hpexpire, if_neg (not_le.2 (bucketTTL_pos hrefill level now))]
  rfl

theorem kept_written (now : Int) (level : Level) :
    Kept b (some (written b now (unixMilli now) level)) := by
  rintro x ⟨⟩
  exact ⟨level, now, unixMilli now, le_refl _, rfl⟩

/-- **A bucket is full before its hash runs out.** -/
theorem Kept.full (hk : Kept b h) (hrefill : 0 < b.refill) {x : Hash} (hx : h = some x) {d : Int}
    (hd : x.deadline = some d) (hout : d < unixMilli now) :
    b.tokensAt (parseBucket b h now) now = b.capacity := by
  have hr : (0 : ℚ) < (b.refill : ℚ) := by exact_mod_cast hrefill
  obtain ⟨level, wrote, nowMs, hms, rfl⟩ := hk x hx
  obtain rfl : nowMs + formatMs (bucketTTL b level wrote) = d := Option.some.inj hd
  subst hx
  have hmiss : 0 ≤ (b.capacity - min level.tokens b.capacity) * b.refill :=
    mul_nonneg (by linarith [min_le_right level.tokens b.capacity]) (le_of_lt hr)
  have hfloor := Int.lt_floor_add_one ((b.capacity - min level.tokens b.capacity) * b.refill)
  have hnn : 0 ≤ ⌊(b.capacity - min level.tokens b.capacity) * (b.refill : ℚ)⌋ :=
    Int.floor_nonneg.2 hmiss
  rw [bucketTTL, duration, if_pos hmiss] at hout
  generalize hf : ⌊(b.capacity - min level.tokens b.capacity) * (b.refill : ℚ)⌋ = f at *
  -- the time to refill has passed since the instant that is stored
  have hlong : unixMilli level.since * millisecond + f + 1 ≤ now := by
    have hlo := unixMilli_mul_le level.since
    rw [formatMs, if_neg (by
      simp only [budgetKeyMargin, millisecond, second]; split <;> omega),
      Int.tdiv_eq_ediv_of_nonneg (by simp only [budgetKeyMargin, second]; split <;> omega)] at hout
    simp only [unixMilli, budgetKeyMargin, millisecond, second] at *
    split at hout <;> omega
  have hlong' : ((f : ℚ) + 1) ≤ (now - unixMilli level.since * millisecond : Int) := by
    exact_mod_cast by omega
  have hlate : ¬ (now < unixMilli level.since * millisecond ∨ b.refill ≤ 0) := by omega
  rw [parseBucket, written, tokensAt, if_neg hlate]
  refine min_eq_left ?_
  rw [← sub_le_iff_le_add', le_div_iff₀ hr]
  have hmin : (b.capacity - level.tokens) * (b.refill : ℚ) ≤
      (b.capacity - min level.tokens b.capacity) * b.refill :=
    mul_le_mul_of_nonneg_right (by linarith [min_le_left level.tokens b.capacity]) (le_of_lt hr)
  linarith

/-- A hash is there, or has run out. -/
theorem visible_cases (h : Option Hash) (nowMs : Int) :
    visible h nowMs = h ∨
      visible h nowMs = none ∧ ∃ x d, h = some x ∧ x.deadline = some d ∧ d < nowMs := by
  cases h with
  | none => exact .inl rfl
  | some x =>
    rw [visible, Option.filter_some]
    split
    · exact .inl rfl
    · rename_i hout
      refine .inr ⟨rfl, x, ?_⟩
      cases hx : x.deadline with
      | none => simp [hx] at hout
      | some d => exact ⟨d, rfl, rfl, by simpa [hx] using hout⟩

/-- Whether a hash has run out makes no difference to the tokens. -/
theorem tokensAt_visible (hk : Kept b h) (hrefill : 0 < b.refill) :
    b.tokensAt (parseBucket b (visible h (unixMilli now)) now) now =
      b.tokensAt (parseBucket b h now) now := by
  rcases visible_cases h (unixMilli now) with hv | ⟨hv, x, d, hx, hd, hout⟩
  · rw [hv]
  · rw [hv, tokensAt_parse_none, hk.full hrefill hx hd hout]

/-- A level that is short of its capacity is still there. -/
theorem visible_eq_of_lt (hk : Kept b h) (hrefill : 0 < b.refill)
    (hshort : b.tokensAt (parseBucket b h now) now < b.capacity) :
    visible h (unixMilli now) = h := by
  rcases visible_cases h (unixMilli now) with hv | ⟨-, x, d, hx, hd, hout⟩
  · exact hv
  · exact absurd (hk.full hrefill hx hd hout) (ne_of_lt hshort)

end Hash

/-! ## The hashes that a call writes -/

section Budget

variable {β η μ : Type} [DecidableEq β]
variable {bucket : β → TokenBucket} {now : Int} {s : Store β η μ} {op : Op β η μ} {b : β}

theorem Store.budget_write_self (hrefill : 0 < (bucket b).refill) (s : Store β η μ)
    (level : Level) :
    (s.write bucket now b level).budget b =
      some (written (bucket b) now (unixMilli now) level) :=
  (update_self ..).trans (hpexpire_hset hrefill ..)

theorem budget_foldl_write (f : β → Level) (bs : List β) (s : Store β η μ) (hb : b ∉ bs) :
    (bs.foldl (fun s' c => s'.write bucket now c (f c)) s).budget b = s.budget b := by
  induction bs generalizing s with
  | nil => rfl
  | cons c bs ih =>
    rw [List.mem_cons, not_or] at hb
    rw [List.foldl_cons, ih _ hb.2]
    exact update_of_ne hb.1 ..

theorem budget_foldl_write_of_mem (hrefill : 0 < (bucket b).refill) (f : β → Level) (bs : List β)
    (s : Store β η μ) (hb : b ∈ bs) :
    (bs.foldl (fun s' c => s'.write bucket now c (f c)) s).budget b =
      some (written (bucket b) now (unixMilli now) (f b)) := by
  induction bs generalizing s with
  | nil => exact absurd hb List.not_mem_nil
  | cons c bs ih =>
    rw [List.foldl_cons]
    by_cases hmem : b ∈ bs
    · exact ih _ hmem
    · obtain rfl : b = c := (List.mem_cons.1 hb).resolve_right hmem
      rw [budget_foldl_write f bs _ hmem]
      exact Store.budget_write_self hrefill ..

variable [DecidableEq η] [DecidableEq μ]

theorem budget_foldl_rem (node : η) (member : μ) (bs : List β) (s : Store β η μ) :
    (bs.foldl (fun s' c => s'.rem now node member c) s).budget = s.budget := by
  induction bs generalizing s with
  | nil => rfl
  | cons c bs ih => exact ih _

theorem budget_foldl_add (node : η) (member : μ) (deadline : Int) (bs : List β)
    (s : Store β η μ) :
    (bs.foldl (fun s' c => s'.add now node member deadline c) s).budget = s.budget := by
  induction bs generalizing s with
  | nil => rfl
  | cons c bs ih => exact ih _

/-- The buckets whose hashes a call may write. -/
def Op.writes (bucket : β → TokenBucket) : Op β η μ → List β
  | .take bs | .resync bs _ => bs
  | .prepay b n => if prepayable bucket b n ≤ 0 then [] else [b]
  | .commit b _ _ | .refund b _ => [b]
  | .reserve .. | .release .. => []

/-- A call leaves the hash of a bucket alone, or writes some level to it. -/
theorem budget_exec_cases (hrefill : 0 < (bucket b).refill) (now : Int) (s : Store β η μ)
    (op : Op β η μ) :
    (exec bucket now s op).1.budget b = s.budget b ∨
      b ∈ op.writes bucket ∧ ∃ level, (exec bucket now s op).1.budget b =
        some (written (bucket b) now (unixMilli now) level) := by
  have hfold (f : β → Level) (bs : List β) :
      (bs.foldl (fun s' c => s'.write bucket now c (f c)) s).budget b = s.budget b ∨
        b ∈ bs ∧ ∃ level, (bs.foldl (fun s' c => s'.write bucket now c (f c)) s).budget b =
          some (written (bucket b) now (unixMilli now) level) := by
    by_cases hb : b ∈ bs
    · exact .inr ⟨hb, _, budget_foldl_write_of_mem hrefill f bs s hb⟩
    · exact .inl (budget_foldl_write f bs s hb)
  have hone (c : β) (level : Level) : (s.write bucket now c level).budget b = s.budget b ∨
      b ∈ [c] ∧ ∃ level', (s.write bucket now c level).budget b =
        some (written (bucket b) now (unixMilli now) level') := hfold (fun _ => level) [c]
  cases op with
  | take bs =>
    simp only [exec]
    split
    · exact .inl rfl
    · exact hfold _ bs
  | prepay c n =>
    simp only [exec, Op.writes]
    split
    · exact .inl rfl
    · split
      · exact .inl rfl
      · exact hone c _
  | reserve bs node member deadline live =>
    simp only [exec]
    split
    · exact .inl rfl
    · split
      · exact .inl rfl
      · exact .inl (congrFun (budget_foldl_add node member deadline bs _) b)
  | commit c node member => exact hone c _
  | release bs node member => exact .inl (congrFun (budget_foldl_rem node member bs s) b)
  | refund c n =>
    simp only [exec]
    split
    · exact .inl rfl
    · exact hone c _
  | resync bs retryAfter => exact hfold _ bs

theorem budget_exec (hrefill : 0 < (bucket b).refill) (hb : b ∉ op.writes bucket) :
    (exec bucket now s op).1.budget b = s.budget b :=
  (budget_exec_cases hrefill now s op).resolve_right fun h => hb h.1

theorem Kept.exec (h : Kept (bucket b) (s.budget b)) (hrefill : 0 < (bucket b).refill) :
    Kept (bucket b) ((exec bucket now s op).1.budget b) := by
  rcases budget_exec_cases hrefill now s op with hsame | ⟨-, level, hnew⟩
  · exact hsame ▸ h
  · exact hnew ▸ kept_written now level

/-- So every hash is as `writeBucket` leaves it, if the store was empty at first. -/
theorem kept_runs (h : Kept (bucket b) (s.budget b)) (hrefill : 0 < (bucket b).refill)
    (l : List (Int × Op β η μ)) : Kept (bucket b) ((runs bucket s l).budget b) := by
  induction l generalizing s with
  | nil => exact h
  | cons p l ih => exact ih (h.exec hrefill)

end Budget

end Tunneld.AcmeBudget

import Mathlib.Data.Finset.Card

/-!
# Sorted sets with a time to live

A sorted set of a key-value store: finitely many members, each with a score, under a key that may
carry a deadline.  The commands are the documented ones.  Two conventions of the store matter to
everything built on it:

* a key exists exactly while its set is non-empty, so the command that removes the last member
  deletes the key and its deadline with it (`SortedSet.restrict`), and a command that sets a
  deadline does nothing to a missing key;
* a key whose deadline has passed is gone as a whole, whatever the scores of its members say.  A
  deadline has passed once the clock reads *more* than it (`SortedSet.Lapsed`).

Times are integers: instants in nanoseconds on the client side, milliseconds in the store.
`unixMilli` is the conversion a client makes before it writes a score or a bound, and `formatMs`
and `formatSec` are how a client writes a duration as the argument of `PEXPIRE` and `EXPIRE`.
-/

/-! ## Time -/

namespace Clock

/-- One millisecond, in nanoseconds. -/
def millisecond : Int := 1000000

/-- One second, in nanoseconds. -/
def second : Int := 1000000000

/-- The millisecond an instant falls in. -/
def unixMilli (t : Int) : Int := t / millisecond

/-- A duration as whole milliseconds, at least one for a positive duration. -/
def formatMs (d : Int) : Int := if 0 < d ∧ d < millisecond then 1 else Int.tdiv d millisecond

/-- A duration as whole seconds, at least one for a positive duration. -/
def formatSec (d : Int) : Int := if 0 < d ∧ d < second then 1 else Int.tdiv d second

theorem unixMilli_mono {a b : Int} (h : a ≤ b) : unixMilli a ≤ unixMilli b := by
  simp only [unixMilli, millisecond]
  omega

variable {d : Int}

/-- Rounding both parts of a sum down loses less than a millisecond more than rounding the sum. -/
theorem unixMilli_add_le (hd : 0 < d) (t : Int) :
    unixMilli (t + d) ≤ unixMilli t + formatMs d + 1 := by
  rw [formatMs, unixMilli, unixMilli]
  split
  · simp only [millisecond] at *
    omega
  · rw [Int.tdiv_eq_ediv_of_nonneg (by omega)]
    simp only [millisecond] at *
    omega

theorem formatMs_pos (hd : 0 < d) : 0 < formatMs d := by
  rw [formatMs]
  split
  · omega
  · rw [Int.tdiv_eq_ediv_of_nonneg (by omega)]
    simp only [millisecond] at *
    omega

/-- Rounding a positive duration to seconds loses less than one, and leaves something. -/
theorem formatSec_pos (hd : 0 < d) : 0 < formatSec d ∧ d < (formatSec d + 1) * second := by
  rw [formatSec]
  split
  · rename_i h
    simp only [second] at *
    omega
  · rename_i h
    rw [Int.tdiv_eq_ediv_of_nonneg (by omega)]
    simp only [second] at *
    omega

theorem formatSec_nonpos (hd : d ≤ 0) : formatSec d ≤ 0 := by
  have hflip : Int.tdiv d second = -Int.tdiv (-d) second := by rw [Int.neg_tdiv, Int.neg_neg]
  rw [formatSec, if_neg (by omega), hflip, Int.tdiv_eq_ediv_of_nonneg (by omega)]
  simp only [second]
  omega

end Clock

universe u

/-- A sorted set and the deadline of its key. -/
structure SortedSet (μ : Type u) where
  /-- The members; the key exists while there are any. -/
  members : Finset μ
  /-- The score of each member; of no meaning elsewhere. -/
  score : μ → Int
  /-- When the key runs out, in milliseconds, if it has been given a time to live. -/
  deadline : Option Int

namespace SortedSet

variable {μ : Type u}

/-! ## The commands -/

/-- The missing key. -/
def empty : SortedSet μ := ⟨∅, fun _ => 0, none⟩

@[simp] theorem members_empty : (empty : SortedSet μ).members = ∅ := rfl

@[simp] theorem deadline_empty : (empty : SortedSet μ).deadline = none := rfl

variable [DecidableEq μ]

/-- Keep only the members in `t`; the key goes with its last member. -/
def restrict (z : SortedSet μ) (t : Finset μ) : SortedSet μ :=
  if z.members ∩ t = ∅ then empty else { z with members := z.members ∩ t }

/-- `ZADD`. -/
def zadd (z : SortedSet μ) (m : μ) (x : Int) : SortedSet μ :=
  { z with members := insert m z.members, score := Function.update z.score m x }

/-- `ZADD XX`: update a member that is there, never add one. -/
def zaddXX (z : SortedSet μ) (m : μ) (x : Int) : SortedSet μ :=
  if m ∈ z.members then { z with score := Function.update z.score m x } else z

/-- `ZREM`. -/
def zrem (z : SortedSet μ) (m : μ) : SortedSet μ := z.restrict (z.members.erase m)

/-- `ZREMRANGEBYSCORE key -inf hi`. -/
def zremrangebyscore (z : SortedSet μ) (hi : Int) : SortedSet μ :=
  z.restrict (z.members.filter fun m => hi < z.score m)

/-- `ZCARD`. -/
def zcard (z : SortedSet μ) : Nat := z.members.card

/-- Give the key the time to live `ttl`, at the store's time `now`: a missing key stays missing,
and a time to live that is not positive deletes the key. -/
def setTTL (z : SortedSet μ) (now ttl : Int) : SortedSet μ :=
  if z.members = ∅ then z else if ttl ≤ 0 then empty else { z with deadline := some (now + ttl) }

/-- `PEXPIRE`, and `EXPIRE` once the duration is in milliseconds. -/
def pexpire (z : SortedSet μ) (now ttl : Int) : SortedSet μ := z.setTTL now ttl

/-- `EXPIRE NX`: only a key without a deadline gets one. -/
def expireNX (z : SortedSet μ) (now ttl : Int) : SortedSet μ :=
  if z.deadline = none then z.setTTL now ttl else z

/-- `EXPIRE GT`: only a later deadline replaces the current one, and none is the latest of all. -/
def expireGT (z : SortedSet μ) (now ttl : Int) : SortedSet μ :=
  match z.deadline with
  | none => z
  | some d => if d < now + ttl then z.setTTL now ttl else z

/-- The key's time to live has run out at the store's time `now`. -/
def Lapsed (z : SortedSet μ) (now : Int) : Prop := ∃ d, z.deadline = some d ∧ d < now

instance (z : SortedSet μ) (now : Int) : Decidable (z.Lapsed now) :=
  decidable_of_iff (z.deadline.any (· < now) = true) (by simp [Lapsed, Option.any_eq_true])

/-! ## What the commands do to the members -/

variable {t : Finset μ}

@[simp] theorem mem_restrict {z : SortedSet μ} {m : μ} :
    m ∈ (z.restrict t).members ↔ m ∈ z.members ∧ m ∈ t := by
  rw [restrict]
  split
  · rename_i h
    rw [← Finset.mem_inter, h]
    rfl
  · exact Finset.mem_inter

@[simp] theorem mem_zadd {z : SortedSet μ} {m n : μ} {x : Int} :
    n ∈ (z.zadd m x).members ↔ n = m ∨ n ∈ z.members :=
  Finset.mem_insert

@[simp] theorem members_zaddXX (z : SortedSet μ) (m : μ) (x : Int) :
    (z.zaddXX m x).members = z.members := by
  rw [zaddXX]; split <;> rfl

@[simp] theorem mem_zrem {z : SortedSet μ} {m n : μ} :
    n ∈ (z.zrem m).members ↔ n ≠ m ∧ n ∈ z.members := by
  rw [zrem, mem_restrict, Finset.mem_erase]
  tauto

@[simp] theorem mem_zremrangebyscore {z : SortedSet μ} {hi : Int} {n : μ} :
    n ∈ (z.zremrangebyscore hi).members ↔ n ∈ z.members ∧ hi < z.score n := by
  rw [zremrangebyscore, mem_restrict, Finset.mem_filter]
  tauto

variable {now ttl : Int}

theorem members_setTTL {z : SortedSet μ} (h : 0 < ttl) :
    (z.setTTL now ttl).members = z.members := by
  rw [setTTL]
  split
  · rfl
  · rw [if_neg (by omega)]

@[simp] theorem members_pexpire {z : SortedSet μ} (h : 0 < ttl) :
    (z.pexpire now ttl).members = z.members :=
  members_setTTL h

/-! ## Scores and deadlines -/

/-- A member that survives a removal keeps its score. -/
theorem score_restrict {z : SortedSet μ} {m : μ} (h : m ∈ (z.restrict t).members) :
    (z.restrict t).score m = z.score m := by
  rw [restrict] at h ⊢
  split
  · rename_i he
    rw [if_pos he] at h
    exact absurd h (by simp)
  · rfl

/-- A key that has lost its last member has lost its deadline. -/
theorem deadline_restrict_of_empty {z : SortedSet μ} (h : (z.restrict t).members = ∅) :
    (z.restrict t).deadline = none := by
  rw [restrict] at h ⊢
  split
  · rfl
  · rename_i hne
    rw [if_neg hne] at h
    exact absurd h hne

/-- A removal keeps the deadline unless it deletes the key. -/
theorem restrict_deadline (z : SortedSet μ) (t : Finset μ) :
    (z.restrict t).members = ∅ ∨ (z.restrict t).deadline = z.deadline := by
  rw [restrict]
  split
  · exact .inl rfl
  · exact .inr rfl

/-- A removal keeps the deadline, or deletes the key. -/
theorem deadline_restrict {z : SortedSet μ} {d : Int} (h : (z.restrict t).deadline = some d) :
    z.deadline = some d := by
  rw [restrict] at h
  split at h
  · exact absurd h (by simp)
  · exact h

theorem score_zadd (z : SortedSet μ) (m n : μ) (x : Int) :
    (z.zadd m x).score n = if n = m then x else z.score n := by
  simp [zadd, Function.update_apply]

theorem score_zaddXX (z : SortedSet μ) (m n : μ) (x : Int) :
    (z.zaddXX m x).score n = if n = m ∧ m ∈ z.members then x else z.score n := by
  rw [zaddXX]
  split
  · rename_i h
    simp [Function.update_apply, h]
  · rename_i h
    simp [h]

theorem score_setTTL {z : SortedSet μ} (h : 0 < ttl) (m : μ) :
    (z.setTTL now ttl).score m = z.score m := by
  rw [setTTL]
  split
  · rfl
  · rw [if_neg (by omega)]

theorem deadline_setTTL {z : SortedSet μ} (h : 0 < ttl) (hz : z.members ≠ ∅) :
    (z.setTTL now ttl).deadline = some (now + ttl) := by
  rw [setTTL, if_neg hz, if_neg (by omega)]

/-- After `EXPIRE NX` a key that exists has a deadline. -/
theorem deadline_expireNX {z : SortedSet μ} (h : (z.expireNX now ttl).deadline = none) :
    (z.expireNX now ttl).members = ∅ := by
  rw [expireNX, setTTL] at *
  by_cases hd : z.deadline = none
  · rw [if_pos hd] at *
    by_cases he : z.members = ∅
    · rw [if_pos he]; exact he
    · rw [if_neg he] at *
      by_cases hpos : ttl ≤ 0
      · rw [if_pos hpos]; rfl
      · rw [if_neg hpos] at h; cases h
  · rw [if_neg hd] at h
    exact absurd h hd

end SortedSet

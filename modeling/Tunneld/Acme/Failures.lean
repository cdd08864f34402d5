import Tunneld.Limit.Cooldown

/-!
# The failures of an account

An attempt that fails for a passing reason puts its account on a backoff.  `handleFailure` reads
the account's cooldown, and if there is none it counts the failure (`BumpCAFailures`) and sets a
cooldown that doubles with every failure in a row (`setCooldown`).  An attempt that fails while the
account already waits is not counted, so that attempts which fail together count once.

These are separate commands, and so is what they consist of: `INCR` and `PEXPIRE` on the count,
`EXPIRE GT` and `SET NX` on the cooldown, and a `PTTL` to read it before and after.  `step` is the
system of any number of attempts `κ` on one account, one command at a time.  Failures count once as
long as no attempt reads the cooldown between another's read and its `SET NX` (`Alone`); if two read
it before either has set it, both count.

Time is the store's, in milliseconds; durations are in nanoseconds.

## Main results

* `failures_count_once`: attempts that fail one after another (`Alone`) count once for a cooldown;
* `failures_count_twice`: two that overlap count twice.
-/

namespace Tunneld.Failures

open Clock
open Cooldown (wrap ttl ttl_pos)

/-! ## The system -/

/-- The durations that the operator sets. -/
structure Config where
  backoffInitial : Int
  backoffMax : Int

/-- What the loop of `backoff` returns, if it has `i` rounds to go. -/
def double (maxDur : Int) : Nat → Int → Int
  | 0, d => if maxDur < d then maxDur else d
  | i + 1, d => if maxDur ≤ wrap (d * 2) then maxDur else double maxDur i (wrap (d * 2))

/-- `backoff`. -/
def backoff (initial maxDur : Int) (n : Nat) : Int := double maxDur (max n 1 - 1) initial

/-- Where an attempt stands.  From its failure on it has the number of that failure. -/
inductive Phase
  | idle
  /-- It has found that the account does not wait, and is under way. -/
  | working
  /-- `CACooldown`. -/
  | read (nth : Nat)
  | incr (nth : Nat)
  /-- `PEXPIRE`, of an attempt that has counted `n` failures. -/
  | pexpire (nth n : Nat)
  /-- `EXPIRE GT`, for the cooldown `d`. -/
  | expireGT (nth : Nat) (d : Int)
  /-- `SET NX`. -/
  | setNX (nth : Nat) (d : Int)
  /-- The `CACooldown` of `setCooldown`. -/
  | readBack (nth : Nat) (d : Int)
  /-- `handleFailure` has returned `cooldown`. -/
  | returned (nth : Nat) (cooldown : Int)
  deriving DecidableEq

/-- A cooldown that was set. -/
structure Wait where
  /-- The failure that it was set for. -/
  nth : Nat
  since : Int
  till : Int
  deriving DecidableEq

/-- The keys of one account, and the attempts on it. -/
structure State (κ : Type) where
  /-- The store's clock, in milliseconds. -/
  now : Int
  /-- When `acme-cooldown:{account}` runs out. -/
  cooldown : Option Int
  /-- The count in `acme-fail:{account}`, and when it runs out. -/
  streak : Option (Nat × Option Int)
  phase : κ → Phase
  fails : Nat
  /-- How often the count was incremented. -/
  bumps : Nat
  /-- The cooldowns that were set. -/
  waits : List Wait
  /-- When the count was given its time to live. -/
  bumped : Int

/-- What can happen next. -/
inductive Act (κ : Type)
  /-- `run` finds that the account does not wait, and starts an attempt. -/
  | start (k : κ)
  | fail (k : κ)
  /-- The next command of an attempt that has failed. -/
  | cmd (k : κ)
  | tick (n : Nat)

variable {κ : Type} {s t : State κ}

namespace State

/-- The end of the cooldown that a command finds. -/
def waitEnd (s : State κ) : Option Int := s.cooldown.filter fun e => s.now ≤ e

/-- The count that a command finds. -/
def found (s : State κ) : Option (Nat × Option Int) :=
  s.streak.filter fun c => c.2.all fun e => s.now ≤ e

/-- `CACooldown`, in milliseconds. -/
def caCooldown (s : State κ) : Int := s.waitEnd.elim 0 fun e => e - s.now

/-- `INCR`. -/
def incr (s : State κ) : State κ :=
  { s with
    streak := some ((s.found.getD (0, none)).1 + 1, (s.found.getD (0, none)).2)
    bumps := s.bumps + 1 }

/-- `PEXPIRE`. -/
def pexpire (s : State κ) (ms : Int) : State κ :=
  { s with
    streak := (s.found.map fun c => (c.1, some (s.now + ms))).or s.streak
    bumped := s.now }

/-- The cooldown is set to `d` for a failure. -/
def wait (s : State κ) (nth : Nat) (d : Int) : State κ :=
  { s with
    cooldown := some (s.now + ttl d)
    waits := s.waits ++ [⟨nth, s.now, s.now + ttl d⟩] }

/-- The cooldown that was set first has not ended, or none was set. -/
def Early (s : State κ) : Prop := ∀ x ∈ s.waits.head?, s.now < x.till

/-- The number of failures that is stored. -/
def count (s : State κ) : Nat := s.streak.elim 0 Prod.fst

end State

theorem waitEnd_eq_some {e : Int} : s.waitEnd = some e ↔ s.cooldown = some e ∧ s.now ≤ e := by
  simp [State.waitEnd]

theorem waitEnd_eq_none : s.waitEnd = none ↔ ∀ e, s.cooldown = some e → e < s.now := by
  simp [State.waitEnd]

/-- A cooldown that has run out stays so. -/
theorem waitEnd_later (h : s.waitEnd = none) (n : Nat) :
    ({ s with now := s.now + n } : State κ).waitEnd = none := by
  refine waitEnd_eq_none.2 fun e he => ?_
  have hlt := waitEnd_eq_none.1 h e he
  show e < s.now + n
  omega

/-- A cooldown that has ended, and that `EXPIRE GT` leaves alone, has run out. -/
theorem waitEnd_eq_none_of_past {d : Int} (hpast : ∀ e, s.cooldown = some e → e ≤ s.now)
    (hleft : ∀ e, s.waitEnd = some e → ¬ e < s.now + ttl d) : s.waitEnd = none := by
  cases hend : s.waitEnd with
  | none => rfl
  | some e =>
    have hle := hpast e (waitEnd_eq_some.1 hend).1
    have hpos := ttl_pos d
    exact absurd (by omega) (hleft e hend)

/-- The account waits if its cooldown has an end to come. -/
theorem caCooldown_pos_iff : 0 < s.caCooldown ↔ ∃ e, s.cooldown = some e ∧ s.now < e := by
  rw [State.caCooldown]
  cases he : s.waitEnd with
  | none =>
    refine ⟨fun h => absurd h (lt_irrefl 0), ?_⟩
    rintro ⟨e, hc, hlt⟩
    have := waitEnd_eq_none.1 he e hc
    omega
  | some e =>
    obtain ⟨hc, hle⟩ := waitEnd_eq_some.1 he
    constructor
    · intro h
      exact ⟨e, hc, by simpa using h⟩
    · rintro ⟨e', hc', hlt⟩
      rw [hc] at hc'
      cases hc'
      simpa using hlt

theorem count_pexpire (s : State κ) (ms : Int) : (s.pexpire ms).count = s.count := by
  rw [State.count, State.pexpire, State.found, State.count]
  cases s.streak with
  | none => rfl
  | some c =>
    rw [Option.filter_some]
    split <;> rfl

variable [DecidableEq κ]

/-- An attempt goes on to its next phase. -/
def State.goTo (s : State κ) (k : κ) (p : Phase) : State κ :=
  { s with phase := Function.update s.phase k p }

/-- The state after an action, if it is possible. -/
def step (cfg : Config) (s : State κ) : Act κ → Option (State κ)
  | .start k =>
    if s.phase k = .idle ∧ s.caCooldown = 0 then some (s.goTo k .working) else none
  | .fail k =>
    if s.phase k = .working then
      some { s.goTo k (.read (s.fails + 1)) with fails := s.fails + 1 }
    else none
  | .cmd k =>
    match s.phase k with
    | .read nth =>
      if 0 < s.caCooldown then some (s.goTo k (.returned nth (s.caCooldown * millisecond)))
      else some (s.goTo k (.incr nth))
    | .incr nth => some (s.incr.goTo k (.pexpire nth ((s.found.getD (0, none)).1 + 1)))
    | .pexpire nth n =>
      some ((s.pexpire (formatMs cfg.backoffMax)).goTo k
        (.expireGT nth (backoff cfg.backoffInitial cfg.backoffMax n)))
    | .expireGT nth d =>
      if s.waitEnd.any fun e => e < s.now + ttl d then some ((s.wait nth d).goTo k (.setNX nth d))
      else some (s.goTo k (.setNX nth d))
    | .setNX nth d =>
      if s.waitEnd = none then some ((s.wait nth d).goTo k (.readBack nth d))
      else some (s.goTo k (.readBack nth d))
    | .readBack nth d =>
      some (s.goTo k (.returned nth (max d (s.caCooldown * millisecond))))
    | .idle | .working | .returned .. => none
  | .tick n => some { s with now := s.now + n }

/-- The attempts on an account, with what the store has for it at first. -/
def system (cfg : Config) (now : Int) (cooldown : Option Int)
    (streak : Option (Nat × Option Int)) : Lts (State κ) (Act κ) :=
  ⟨⟨now, cooldown, streak, fun _ => .idle, 0, 0, [], now⟩, step cfg⟩

/-! ## What a step does -/

/-- The steps one by one. -/
inductive Step (cfg : Config) (s : State κ) : Act κ → State κ → Prop
  | start {k} (hk : s.phase k = .idle) (hc : s.caCooldown = 0) :
    Step cfg s (.start k) (s.goTo k .working)
  | fail {k} (hk : s.phase k = .working) :
    Step cfg s (.fail k) { s.goTo k (.read (s.fails + 1)) with fails := s.fails + 1 }
  /-- The account waits already. -/
  | waits {k nth} (hk : s.phase k = .read nth) (hc : 0 < s.caCooldown) :
    Step cfg s (.cmd k) (s.goTo k (.returned nth (s.caCooldown * millisecond)))
  | read {k nth} (hk : s.phase k = .read nth) (hc : ¬ 0 < s.caCooldown) :
    Step cfg s (.cmd k) (s.goTo k (.incr nth))
  | incr {k nth} (hk : s.phase k = .incr nth) :
    Step cfg s (.cmd k) (s.incr.goTo k (.pexpire nth ((s.found.getD (0, none)).1 + 1)))
  | pexpire {k nth n} (hk : s.phase k = .pexpire nth n) :
    Step cfg s (.cmd k) ((s.pexpire (formatMs cfg.backoffMax)).goTo k
      (.expireGT nth (backoff cfg.backoffInitial cfg.backoffMax n)))
  /-- `EXPIRE GT` finds a cooldown that ends earlier. -/
  | moved {k nth d e} (hk : s.phase k = .expireGT nth d) (he : s.waitEnd = some e)
      (hlt : e < s.now + ttl d) :
    Step cfg s (.cmd k) ((s.wait nth d).goTo k (.setNX nth d))
  /-- `EXPIRE GT` finds none that does. -/
  | left {k nth d} (hk : s.phase k = .expireGT nth d)
      (he : ∀ e, s.waitEnd = some e → ¬ e < s.now + ttl d) :
    Step cfg s (.cmd k) (s.goTo k (.setNX nth d))
  /-- `SET NX` makes the key. -/
  | made {k nth d} (hk : s.phase k = .setNX nth d) (he : s.waitEnd = none) :
    Step cfg s (.cmd k) ((s.wait nth d).goTo k (.readBack nth d))
  /-- `SET NX` finds the key. -/
  | there {k nth d} (hk : s.phase k = .setNX nth d) (he : s.waitEnd ≠ none) :
    Step cfg s (.cmd k) (s.goTo k (.readBack nth d))
  | readBack {k nth d} (hk : s.phase k = .readBack nth d) :
    Step cfg s (.cmd k) (s.goTo k (.returned nth (max d (s.caCooldown * millisecond))))
  | tick (n : Nat) : Step cfg s (.tick n) { s with now := s.now + n }

variable {cfg : Config} {a : Act κ}

theorem step_cases (h : step cfg s a = some t) : Step cfg s a t := by
  cases a with
  | start k =>
    obtain ⟨⟨hk, hc⟩, rfl⟩ := Lts.taken h
    exact .start hk hc
  | fail k =>
    obtain ⟨hk, rfl⟩ := Lts.taken h
    exact .fail hk
  | tick n =>
    cases h
    exact .tick n
  | cmd k =>
    simp only [step] at h
    cases hk : s.phase k with
    | idle | working | returned => simp [hk] at h
    | read nth =>
      simp only [hk] at h
      split at h <;> rename_i hc <;> cases h
      · exact .waits hk hc
      · exact .read hk hc
    | incr nth =>
      simp only [hk] at h
      cases h
      exact .incr hk
    | pexpire nth n =>
      simp only [hk] at h
      cases h
      exact .pexpire hk
    | expireGT nth d =>
      simp only [hk] at h
      split at h <;> rename_i hany <;> cases h
      · obtain ⟨e, he, hlt⟩ := (Option.any_eq_true ..).1 hany
        exact .moved hk he (of_decide_eq_true hlt)
      · refine .left hk fun e he hlt => hany ?_
        rw [he]
        exact decide_eq_true hlt
    | setNX nth d =>
      simp only [hk] at h
      split at h <;> rename_i he <;> cases h
      · exact .made hk he
      · exact .there hk he
    | readBack nth d =>
      simp only [hk] at h
      cases h
      exact .readBack hk

/-! ## Failures that count once -/

namespace Phase

/-- From the read that found no cooldown to the `SET NX`. -/
@[simp] def inside : Phase → Bool
  | .incr _ | .pexpire .. | .expireGT .. | .setNX .. => true
  | _ => false

/-- Within that, after the count was incremented. -/
def counted : Phase → Bool
  | .pexpire .. | .expireGT .. | .setNX .. => true
  | _ => false

/-- After the `SET NX`, or where none is needed. -/
def finished : Phase → Bool
  | .readBack .. | .returned .. => true
  | _ => false

/-- The attempt reads the cooldown next. -/
def reads : Phase → Bool
  | .read _ => true
  | _ => false

theorem inside_of_counted {p : Phase} (h : p.counted = true) : p.inside = true := by
  cases p <;> first | rfl | cases h

end Phase

/-- The runs in which no attempt reads the cooldown while another has read it and not yet set it. -/
def Alone (s : State κ) : Act κ → Prop
  | .cmd k => (s.phase k).reads = true → ∀ j, (s.phase j).inside = false
  | _ => True

instance [Fintype κ] (s : State κ) (a : Act κ) : Decidable (Alone s a) := by
  unfold Alone; split <;> infer_instance

/-- What holds until the first cooldown has ended, if the count was `count₀` at first. -/
structure Once (count₀ : Nat) (s : State κ) : Prop where
  single : ∀ j k, (s.phase j).inside = true → (s.phase k).inside = true → j = k
  /-- Before a cooldown is set, an attempt has counted if it is past its `INCR`. -/
  counted : s.waits = [] → ∀ k, (s.phase k).counted = true → s.bumps = 1
  uncounted : s.waits = [] → (∀ k, (s.phase k).counted = false) → s.bumps = 0
  past : s.waits = [] → ∀ e, s.cooldown = some e → e ≤ s.now
  unfinished : s.waits = [] → ∀ k, (s.phase k).finished = false
  lapsed : s.waits = [] → ∀ k nth d, s.phase k = .setNX nth d → s.waitEnd = none
  /-- Once it is set, one attempt has counted and no other will. -/
  one : ∀ x ∈ s.waits.head?, s.bumps = 1 ∧ (∀ k nth, s.phase k ≠ .incr nth) ∧
    ∃ e, s.cooldown = some e ∧ x.till ≤ e
  count : s.count = count₀ + s.bumps ∨ s.count = s.bumps

namespace Once

variable {count₀ : Nat} {k : κ} {p : Phase}

theorem goTo (h : Once count₀ s) (hin : p.inside = true →
      (s.phase k).inside = true ∨ ∀ j, (s.phase j).inside = false)
    (hcount : s.waits = [] → p.counted = (s.phase k).counted)
    (hfin : s.waits = [] → p.finished = false)
    (hset : s.waits = [] → ∀ nth d, p = .setNX nth d → s.waitEnd = none)
    (hincr : s.waits ≠ [] → ∀ nth, p ≠ .incr nth) : Once count₀ (s.goTo k p) := by
  have hphase : ∀ j, (s.goTo k p).phase j = if j = k then p else s.phase j := fun j => by
    simp [State.goTo, Function.update_apply]
  have hcounted : s.waits = [] → ∀ j, ((s.goTo k p).phase j).counted = (s.phase j).counted := by
    intro hw j
    rw [hphase]
    split
    · rename_i hj
      rw [hj, hcount hw]
    · rfl
  refine ⟨fun i j hi hj => ?_, fun hw j hj => h.counted hw j ((hcounted hw j).symm.trans hj),
    fun hw hall => h.uncounted hw fun j => (hcounted hw j).symm.trans (hall j), h.past,
    fun hw j => ?_, fun hw j nth d hj => ?_, fun x hx => ⟨(h.one x hx).1, fun j nth => ?_,
    (h.one x hx).2.2⟩, h.count⟩
  · -- whoever is inside at the new phase was inside, or nobody was
    have hwas : ∀ j, ((s.goTo k p).phase j).inside = true →
        (s.phase j).inside = true ∨ j = k ∧ ∀ i, (s.phase i).inside = false := by
      intro j hj
      rw [hphase] at hj
      split at hj
      · rename_i hjk
        rw [hjk]
        exact (hin hj).imp_right fun hall => ⟨rfl, hall⟩
      · exact .inl hj
    rcases hwas i hi with hi' | ⟨hik, hall⟩
    · rcases hwas j hj with hj' | ⟨-, hall⟩
      · exact h.single i j hi' hj'
      · rw [hall i] at hi'
        cases hi'
    · rcases hwas j hj with hj' | ⟨hjk, -⟩
      · rw [hall j] at hj'
        cases hj'
      · rw [hik, hjk]
  · rw [hphase]
    split
    · exact hfin hw
    · exact h.unfinished hw j
  · rw [hphase] at hj
    split at hj
    · exact hset hw nth d hj
    · exact h.lapsed hw j nth d hj
  · rw [hphase]
    split
    · exact hincr (fun hw => by simp [hw, State.goTo] at hx) nth
    · exact (h.one x hx).2.1 j nth

/-- Once the cooldown is set, an attempt may go on but not to its `INCR`. -/
theorem goTo_of_waits (h : Once count₀ s) (hne : s.waits ≠ [])
    (hin : p.inside = true → (s.phase k).inside = true) (hincr : ∀ nth, p ≠ .incr nth) :
    Once count₀ (s.goTo k p) :=
  h.goTo (fun hp => .inl (hin hp)) (fun hw => absurd hw hne) (fun hw => absurd hw hne)
    (fun hw => absurd hw hne) fun _ => hincr

omit [DecidableEq κ] in
theorem wait (h : Once count₀ s) (hk : (s.phase k).counted = true) (nth : Nat) {d : Int}
    (hlater : ∀ e, s.waitEnd = some e → e < s.now + ttl d) (hearly : s.Early) :
    Once count₀ (s.wait nth d) := by
  have hne : (s.wait nth d).waits ≠ [] := by simp [State.wait]
  refine ⟨h.single, fun hw => absurd hw hne, fun hw => absurd hw hne, fun hw => absurd hw hne,
    fun hw => absurd hw hne, fun hw => absurd hw hne, fun x hx => ?_, h.count⟩
  cases hw : s.waits with
  | nil =>
    have hx' : x = ⟨nth, s.now, s.now + ttl d⟩ := by
      simpa [State.wait, hw] using hx.symm
    refine ⟨h.counted hw k hk, fun j n hj => ?_, _, rfl, by rw [hx']⟩
    -- the attempt that sets the cooldown is the only one inside
    replace hj : s.phase j = .incr n := hj
    have hjk := h.single j k (by rw [hj]; rfl) (Phase.inside_of_counted hk)
    rw [← hjk, hj] at hk
    cases hk
  | cons y l =>
    have hy : y ∈ s.waits.head? := by simp [hw]
    obtain rfl : y = x := by simpa [State.wait, hw] using hx
    obtain ⟨hone, hno, e, he, hle⟩ := h.one y hy
    have hnow := hearly y hy
    have := hlater e (waitEnd_eq_some.2 ⟨he, by omega⟩)
    exact ⟨hone, hno, _, rfl, by omega⟩

omit [DecidableEq κ] in
theorem of_tick {n : Nat} (h : Once count₀ s) : Once count₀ { s with now := s.now + n } := by
  refine ⟨h.single, h.counted, h.uncounted, fun hw e he => ?_, h.unfinished,
    fun hw k nth d hk => ?_, h.one, h.count⟩
  · have := h.past hw e he
    show e ≤ s.now + n
    omega
  · exact waitEnd_later (h.lapsed hw k nth d hk) n

theorem incr (h : Once count₀ s) {nth : Nat} (hk : s.phase k = .incr nth) (p : Phase)
    (hp : p.counted = true) (hp' : ∀ nth d, p ≠ .setNX nth d) :
    Once count₀ (s.incr.goTo k p) := by
  have hwaits : s.waits = [] := by
    cases hw : s.waits with
    | nil => rfl
    | cons y l => exact absurd hk ((h.one y (by simp [hw])).2.1 k nth)
  have hothers : ∀ j, j ≠ k → (s.phase j).inside = false := by
    intro j hj
    by_contra hin
    exact hj (h.single j k (Bool.of_not_eq_false hin) (by rw [hk]; rfl))
  have hbumps : s.bumps = 0 := by
    refine h.uncounted hwaits fun j => ?_
    by_cases hj : j = k
    · rw [hj, hk]
      rfl
    · by_contra hc
      have := Phase.inside_of_counted (Bool.of_not_eq_false hc)
      rw [hothers j hj] at this
      cases this
  have hphase : ∀ j, (s.incr.goTo k p).phase j = if j = k then p else s.phase j := fun j => by
    simp [State.goTo, State.incr, Function.update_apply]
  refine ⟨fun i j hi hj => ?_, fun _ j _ => ?_, fun _ hall => ?_, h.past, fun hw j => ?_,
    fun hw j n d hj => ?_, fun x hx => ?_, ?_⟩
  · rw [hphase] at hi hj
    split at hi
    · split at hj
      · simp_all
      · rw [hothers j ‹_›] at hj
        cases hj
    · rw [hothers i ‹_›] at hi
      cases hi
  · show s.bumps + 1 = 1
    omega
  · have := hall k
    rw [hphase, if_pos rfl, hp] at this
    cases this
  · rw [hphase]
    split
    · cases p <;> first | rfl | cases hp
    · exact h.unfinished hw j
  · rw [hphase] at hj
    split at hj
    · exact absurd hj (hp' n d)
    · exact h.lapsed hwaits j n d hj
  · have hx' : x ∈ s.waits.head? := hx
    simp [hwaits] at hx'
  · show (s.found.getD (0, none)).1 + 1 = count₀ + (s.bumps + 1) ∨
      (s.found.getD (0, none)).1 + 1 = s.bumps + 1
    have hcount : s.count = count₀ ∨ s.count = 0 := by
      have := h.count
      omega
    rw [State.found]
    cases hs : s.streak with
    | none => exact .inr (by simp [hbumps])
    | some c =>
      rw [Option.filter_some]
      split
      · simpa [State.count, hs, hbumps] using hcount
      · exact .inr (by simp [hbumps])

end Once

omit [DecidableEq κ] in
theorem Once.pexpire {count₀ : Nat} (h : Once count₀ s) (ms : Int) :
    Once count₀ (s.pexpire ms) :=
  ⟨h.single, h.counted, h.uncounted, h.past, h.unfinished, h.lapsed, h.one,
    (count_pexpire s ms).symm ▸ h.count⟩

/-- What was early after a step was early before it. -/
theorem early_of_step (h : Step cfg s a t) (ht : t.Early) : s.Early := by
  intro x hx
  have hmem : x ∈ t.waits.head? := by
    cases h with
    | moved | made =>
      cases hw : s.waits with
      | nil => simp [hw] at hx
      | cons y l =>
        obtain rfl : y = x := by simpa [hw] using hx
        simp [State.goTo, State.wait, hw]
    | start | fail | waits | read | incr | pexpire | left | there | readBack | tick => exact hx
  have hlt := ht x hmem
  have hnow : s.now ≤ t.now := by
    cases h with
    | tick n =>
      show s.now ≤ s.now + n
      omega
    | start | fail | waits | read | incr | pexpire | moved | left | made | there | readBack =>
      exact le_refl s.now
  omega

theorem Once.step {count₀ : Nat} (h : Once count₀ s) (hearly : s.Early) (hg : Alone s a)
    (hs : Step cfg s a t) : Once count₀ t := by
  cases hs with
  | start hk hc =>
    exact h.goTo (by simp) (fun _ => by rw [hk]; rfl) (fun _ => rfl) (by simp)
      (by simp)
  | fail hk =>
    have hread := h.goTo (p := .read (s.fails + 1)) (by simp)
      (fun _ => by rw [hk]; rfl) (fun _ => rfl) (by simp) (by simp)
    exact ⟨hread.single, hread.counted, hread.uncounted, hread.past, hread.unfinished,
      hread.lapsed, hread.one, hread.count⟩
  | waits hk hc =>
    refine h.goTo (by simp) (fun _ => by rw [hk]; rfl) (fun hw => ?_) (by simp)
      (by simp)
    -- only a cooldown that was set can make it wait
    obtain ⟨e, he, hlt⟩ := caCooldown_pos_iff.1 hc
    exact absurd (h.past hw e he) (not_le.2 hlt)
  | read hk hc =>
    refine h.goTo (fun _ => .inr (hg (by rw [hk]; rfl))) (fun _ => by rw [hk]; rfl) (fun _ => rfl)
      (by simp) fun hw => ?_
    obtain ⟨y, l, hyl⟩ := List.exists_cons_of_ne_nil hw
    have hy : y ∈ s.waits.head? := by simp [hyl]
    obtain ⟨-, -, e, he, hle⟩ := h.one y hy
    have hnow := hearly y hy
    exact absurd (caCooldown_pos_iff.2 ⟨e, he, by omega⟩) hc
  | incr hk => exact h.incr hk _ rfl (by simp)
  | pexpire hk =>
    exact (h.pexpire _).goTo (fun _ => .inl (by show (s.phase _).inside = true; rw [hk]; rfl))
      (fun _ => by show _ = (s.phase _).counted; rw [hk]; rfl) (fun _ => rfl) (by simp) (by simp)
  | @moved k nth d e hk he hlt =>
    have hwait := h.wait (k := k) (d := d) (by rw [hk]; rfl) nth
      (fun e' he' => Option.some.inj (he.symm.trans he') ▸ hlt) hearly
    exact hwait.goTo_of_waits (by simp [State.wait])
      (fun _ => by show (s.phase _).inside = true; rw [hk]; rfl) (by simp)
  | @left k nth d hk he =>
    refine h.goTo (fun _ => .inl (by rw [hk]; rfl)) (fun _ => by rw [hk]; rfl) (fun _ => rfl)
      (fun hw _ _ _ => ?_) (by simp)
    exact waitEnd_eq_none_of_past (h.past hw) he
  | @made k nth d hk he =>
    have hwait := h.wait (k := k) (d := d) (by rw [hk]; rfl) nth
      (fun e' he' => by rw [he] at he'; cases he') hearly
    exact hwait.goTo_of_waits (by simp [State.wait]) (by simp) (by simp)
  | there hk he =>
    -- the key that it finds was set by an attempt
    have hne : s.waits ≠ [] := fun hw => he (h.lapsed hw _ _ _ hk)
    exact h.goTo_of_waits hne (by simp) (by simp)
  | @readBack k nth d hk =>
    have hne : s.waits ≠ [] := fun hw => by
      have := h.unfinished hw k
      rw [hk] at this
      cases this
    exact h.goTo_of_waits hne (by simp) (by simp)
  | tick n => exact h.of_tick

section Once

variable {now : Int} {cooldown : Option Int} {streak : Option (Nat × Option Int)}

theorem once_init (hc : ∀ e, cooldown = some e → e ≤ now) :
    Once (streak.elim 0 Prod.fst) (system (κ := κ) cfg now cooldown streak).init where
  single _ _ h := by cases h
  counted _ _ h := by cases h
  uncounted _ _ := rfl
  past _ := hc
  unfinished _ _ := rfl
  lapsed _ _ _ _ h := by cases h
  one _ h := by cases h
  count := .inl rfl

/-- **Failures that do not overlap count once.**  The attempts start while the account does not
wait.  If none reads the cooldown between another's read and its `SET NX`, the count is incremented
at most once until the cooldown that is set first has ended, and exactly once as soon as one of them
has been dealt with. -/
theorem failures_count_once (hc : ∀ e, cooldown = some e → e ≤ now)
    (h : (system (κ := κ) cfg now cooldown streak).Reach Alone s) (hearly : s.Early) :
    s.bumps ≤ 1 ∧ (∀ k nth c, s.phase k = .returned nth c → s.bumps = 1) ∧
      (s.count = streak.elim 0 Prod.fst + s.bumps ∨ s.count = s.bumps) := by
  have honce : s.Early → Once (streak.elim 0 Prod.fst) s :=
    h.invariant (P := fun s => s.Early → Once (streak.elim 0 Prod.fst) s)
      (fun _ => once_init hc) fun u a t _ ih hg hs ht =>
        have hstep := step_cases hs
        (ih (early_of_step hstep ht)).step (early_of_step hstep ht) hg hstep
  obtain ⟨hsingle, hcounted, huncounted, -, hunfinished, -, hone, hcount⟩ := honce hearly
  cases hw : s.waits with
  | nil =>
    refine ⟨?_, fun k nth c hk => ?_, hcount⟩
    · by_cases hall : ∀ k, (s.phase k).counted = false
      · rw [huncounted hw hall]
        exact Nat.zero_le 1
      · obtain ⟨k, hk⟩ := not_forall.1 hall
        exact (hcounted hw k (Bool.of_not_eq_false hk)).le
    · have := hunfinished hw k
      rw [hk] at this
      cases this
  | cons x l =>
    have hbumps := (hone x (by simp [hw])).1
    exact ⟨hbumps.le, fun _ _ _ _ => hbumps, hcount⟩

end Once

/-- The defaults: a minute, doubled up to six hours. -/
def defaults : Config := ⟨60 * second, 21600 * second⟩

/-- Two attempts fail one after the other, the second while the first is waited for. -/
theorem failures_count_once_two : ∃ s : State Bool,
    (system (κ := Bool) defaults 0 none none).Reach Alone s ∧
    (∃ c, s.phase true = .returned 2 c) ∧ s.bumps = 1 := by
  have hrun : ((system (κ := Bool) defaults 0 none none).execWith Alone
      (system (κ := Bool) defaults 0 none none).init
      [Act.start false, .start true, .fail false, .tick 5, .fail true, .cmd false, .cmd false,
        .cmd false, .tick 5, .cmd false, .cmd false, .cmd true, .cmd false, .tick 1000]).any
      (fun s => s.phase true = .returned 2 60000000000 ∧ s.waits = [⟨1, 10, 60010⟩] ∧
        s.now = 1010) = true := by
    decide +kernel
  obtain ⟨s, hreach, hret, hwaits, hnow⟩ := Lts.exists_reach_of_any hrun
  have hearly : s.Early := by
    rintro x hx
    obtain rfl : ⟨1, 10, 60010⟩ = x := by simpa [hwaits] using hx
    rw [hnow]
    decide
  exact ⟨s, hreach, ⟨_, hret⟩, (failures_count_once (by simp) hreach hearly).2.1 true _ _ hret⟩

/-- Two attempts read the cooldown before either has set it, and both count: the account waits
for two minutes instead of one. -/
theorem failures_count_twice : ∃ s : State Bool,
    (system (κ := Bool) defaults 0 none none).Reach Lts.always s ∧ s.Early ∧
    (∃ c, s.phase true = .returned 2 c) ∧ s.bumps = 2 ∧ s.count = 2 := by
  have hrun : ((system (κ := Bool) defaults 0 none none).execWith Lts.always
      (system (κ := Bool) defaults 0 none none).init
      [Act.start false, .start true, .fail false, .fail true, .cmd false, .cmd true, .cmd false,
        .cmd true, .cmd false, .cmd true, .cmd false, .cmd false, .cmd true, .cmd true,
        .cmd false, .cmd true]).any
      (fun s => s.waits = [⟨1, 0, 60000⟩, ⟨2, 0, 120000⟩] ∧ s.now = 0 ∧
        s.phase true = .returned 2 120000000000 ∧ s.bumps = 2 ∧ s.count = 2) = true := by
    decide +kernel
  obtain ⟨s, hreach, hwaits, hnow, hret, hbumps, hcount⟩ := Lts.exists_reach_of_any hrun
  refine ⟨s, hreach, fun x hx => ?_, ⟨_, hret⟩, hbumps, hcount⟩
  obtain rfl : ⟨1, 0, 60000⟩ = x := by simpa [hwaits] using hx
  rw [hnow]
  decide

end Tunneld.Failures

import Tunneld.Lib.Lts
import Tunneld.Lib.SortedSet
import Mathlib.Data.Fintype.Basic

/-!
# The wait-until of an account

An account that was rate-limited, or whose orders fail, waits: the key `acme-cooldown:{account}`
exists, and its time to live is the wait.  `SetCACooldown` is meant never to shorten a wait.  It
sends `EXPIRE GT`, which replaces the end of a wait by a later one, and then `SET NX EX`, for the
case that there was no key.

No command moves the end of a wait earlier: `EXPIRE GT` only moves it later, and `SET NX` only acts
where there is none.  But the two commands are not one.  Two calls that find no key both do nothing
with their `EXPIRE GT`; then the first `SET NX` wins, and the wait is as long as that call asks for,
not as long as the longer one does.

`step` is that system for any number of calls `κ`, one command at a time.  Time is the store's, in
milliseconds, in which it counts every time to live; durations are in nanoseconds.

## Main results

* `command_of_step`: what the two commands do to the end of a wait;
* `wait_is_never_shortened`: a wait is as long as was asked for, if the calls that race ask for no
  more;
* `wait_of_ten_seconds`: the race above.
-/

namespace Tunneld.Cooldown

open Function Clock

/-! ## Durations -/

/-- A product as `time.Duration` has it, in 64 bits. -/
def wrap (x : Int) : Int := (x + 9223372036854775808) % 18446744073709551616 - 9223372036854775808

/-- The wait that `SetCACooldown` sets for `d`: whole seconds, rounded up, and at least one.  The
source rounds a `float64`, which has every nanosecond of a duration up to `longest`. -/
def roundUp (d : Int) : Int := max (wrap (-((-d) / second) * second)) second

/-- `2 ^ 24` seconds.  Up to there `math.Ceil(d.Seconds())` is the exact ceiling: the last bit of
the number is less than two nanoseconds. -/
def longest : Int := 16777216 * second

theorem second_le_roundUp (d : Int) : second ≤ roundUp d := le_max_right _ _

variable {d : Int}

/-- What is asked for is rounded up to seconds, unless it is too long. -/
theorem roundUp_of_pos (hpos : 0 < d) (hd : d ≤ longest) :
    roundUp d = -((-d) / second) * second := by
  simp only [roundUp, wrap, longest, second] at *
  rw [Int.emod_eq_of_lt (by omega) (by omega)]
  omega

/-- The time to live in milliseconds: the store is told whole seconds. -/
def ttl (d : Int) : Int := formatSec (roundUp d) * 1000

theorem ttl_pos (d : Int) : 0 < ttl d := by
  have hpos : 0 < roundUp d := lt_of_lt_of_le (by decide) (second_le_roundUp d)
  have := (formatSec_pos hpos).1
  rw [ttl]
  omega

theorem ttl_of_pos (hpos : 0 < d) (hd : d ≤ longest) : ttl d = -((-d) / second) * 1000 := by
  have hsec := second_le_roundUp d
  rw [ttl, formatSec, if_neg (by omega), Int.tdiv_eq_ediv_of_nonneg (hsec.trans' (by decide)),
    roundUp_of_pos hpos hd, Int.mul_ediv_cancel _ (by decide)]

/-- The wait is at least as long as was asked for. -/
theorem le_ttl (hd : d ≤ longest) : d ≤ ttl d * millisecond := by
  have hpos := ttl_pos d
  by_cases h : d ≤ 0
  · simp only [millisecond]
    omega
  · rw [ttl_of_pos (not_le.1 h) hd]
    simp only [millisecond, second]
    omega

/-! ## The system -/

/-- Where a call stands. -/
inductive Phase
  | idle
  /-- `EXPIRE GT`, of a call for `d` that was made at `since`. -/
  | expireGT (d since : Int)
  | setNX (d since : Int)
  | returned (d since : Int)
  deriving DecidableEq

/-- The key of one account, and the calls for it. -/
structure State (κ : Type) where
  /-- The store's clock, in milliseconds. -/
  now : Int
  /-- When the key runs out, in milliseconds. -/
  deadline : Option Int
  phase : κ → Phase

/-- What can happen next. -/
inductive Act (κ : Type)
  /-- `SetCACooldown`. -/
  | call (k : κ) (d : Int)
  | cmd (k : κ)
  | tick (n : Nat)

variable {κ : Type}

/-- The end of the wait that a command finds: a key that has run out is not there. -/
def State.waitEnd (s : State κ) : Option Int := s.deadline.filter fun e => s.now ≤ e

/-- The state after an action, if it is possible. -/
def step [DecidableEq κ] (s : State κ) : Act κ → Option (State κ)
  | .call k d =>
    match s.phase k with
    | .idle => some { s with phase := update s.phase k (.expireGT d s.now) }
    | _ => none
  | .cmd k =>
    match s.phase k with
    | .expireGT d since =>
      let s' := { s with phase := update s.phase k (.setNX d since) }
      match s.waitEnd with
      | some e =>
        if e < s.now + ttl d then some { s' with deadline := some (s.now + ttl d) } else some s'
      | none => some s'
    | .setNX d since =>
      let s' := { s with phase := update s.phase k (.returned d since) }
      match s.waitEnd with
      | some _ => some s'
      | none => some { s' with deadline := some (s.now + ttl d) }
    | .idle | .returned .. => none
  | .tick n => some { s with now := s.now + n }

/-- The calls for one account. -/
def system [DecidableEq κ] : Lts (State κ) (Act κ) := ⟨⟨0, none, fun _ => .idle⟩, step⟩

/-- `CACooldown`, in milliseconds: what is left of the wait. -/
def State.caCooldown (s : State κ) : Int :=
  match s.waitEnd with
  | some e => e - s.now
  | none => 0

/-- The end of the wait that a call for `d`, made at `since`, asks for, in nanoseconds. -/
def asked (d since : Int) : Int := since * millisecond + d

variable {s t : State κ} {e : Int}

theorem waitEnd_eq_some : s.waitEnd = some e ↔ s.deadline = some e ∧ s.now ≤ e := by
  simp [State.waitEnd]

theorem caCooldown_nonneg (s : State κ) : 0 ≤ s.caCooldown := by
  unfold State.caCooldown
  split
  case h_1 e he =>
    have := (waitEnd_eq_some.1 he).2
    omega
  · exact le_rfl

/-- The wait that a command leaves, if it sets the end of it to `e`. -/
theorem waitEnd_of_deadline (hd : t.deadline = some e) (hnow : t.now ≤ e) : t.waitEnd = some e :=
  waitEnd_eq_some.2 ⟨hd, hnow⟩

theorem waitEnd_congr (hn : t.now = s.now) (hd : t.deadline = s.deadline) :
    t.waitEnd = s.waitEnd := by
  rw [State.waitEnd, State.waitEnd, hn, hd]

/-! ## What a command does -/

/-- What the next command of call `k` does. -/
structure Command [DecidableEq κ] (s t : State κ) (k : κ) (before after : Phase) : Prop where
  now : t.now = s.now
  phase : t.phase = update s.phase k after
  stood : s.phase k = before

variable {k : κ}

/-- A command is an `EXPIRE GT`, which moves the end of a wait if that is later, or a `SET NX`,
which sets it where there is no wait. -/
theorem command_of_step [DecidableEq κ] (h : step s (.cmd k) = some t) : ∃ d since,
    (Command s t k (.expireGT d since) (.setNX d since) ∧
      t.waitEnd = s.waitEnd.map fun e => max e (s.now + ttl d)) ∨
    (Command s t k (.setNX d since) (.returned d since) ∧
      t.waitEnd = some (s.waitEnd.getD (s.now + ttl d))) := by
  simp only [step] at h
  split at h
  case h_1 d since hk =>
    refine ⟨d, since, .inl ?_⟩
    have hpos := ttl_pos d
    split at h
    case h_1 e he =>
      split at h <;> rename_i hlt <;> cases h <;> refine ⟨⟨rfl, rfl, hk⟩, ?_⟩
      · rw [he, Option.map_some, max_eq_right hlt.le]
        exact waitEnd_of_deadline rfl (by show s.now ≤ s.now + ttl d; omega)
      · rw [he, Option.map_some, max_eq_left (not_lt.1 hlt), ← he]
        exact waitEnd_congr rfl rfl
    case h_2 he =>
      cases h
      refine ⟨⟨rfl, rfl, hk⟩, ?_⟩
      rw [he, Option.map_none, ← he]
      exact waitEnd_congr rfl rfl
  case h_2 d since hk =>
    refine ⟨d, since, .inr ?_⟩
    have hpos := ttl_pos d
    split at h
    case h_1 e he =>
      cases h
      refine ⟨⟨rfl, rfl, hk⟩, ?_⟩
      rw [he, Option.getD_some, ← he]
      exact waitEnd_congr rfl rfl
    case h_2 he =>
      cases h
      refine ⟨⟨rfl, rfl, hk⟩, ?_⟩
      rw [he, Option.getD_none]
      exact waitEnd_of_deadline rfl (by show s.now ≤ s.now + ttl d; omega)
  · cases h
  · cases h

/-- No command moves the end of a wait earlier. -/
theorem waitEnd_later [DecidableEq κ] (h : step s (.cmd k) = some t) (he : s.waitEnd = some e) :
    ∃ e', t.waitEnd = some e' ∧ e ≤ e' := by
  obtain ⟨d, since, ⟨-, ht⟩ | ⟨-, ht⟩⟩ := command_of_step h
  · rw [he, Option.map_some] at ht
    exact ⟨_, ht, le_max_left _ _⟩
  · rw [he, Option.getD_some] at ht
    exact ⟨_, ht, le_rfl⟩

/-! ## What is left of a wait -/

/-- The duration and the start of a call that has only its `SET NX` left. -/
def Phase.racing : Phase → Option (Int × Int)
  | .setNX d since => some (d, since)
  | _ => none

/-- The runs in which waits are as long as was asked for.  Durations are rounded up exactly, and
where `SET NX` makes the key, no call that has its `EXPIRE GT` behind it asks for a later end. -/
def LongestFirst (s : State κ) : Act κ → Prop
  | .call _ d => d ≤ longest
  | .cmd k => ∀ a ∈ (s.phase k).racing, s.waitEnd = none →
      ∀ j, j ≠ k → ∀ b ∈ (s.phase j).racing, asked b.1 b.2 ≤ (s.now + ttl a.1) * millisecond
  | .tick _ => True

instance [DecidableEq κ] [Fintype κ] (s : State κ) (a : Act κ) : Decidable (LongestFirst s a) := by
  unfold LongestFirst; split <;> infer_instance

theorem LongestFirst.setNX {d since : Int} (h : LongestFirst s (.cmd k))
    (hk : s.phase k = .setNX d since) (hs : s.waitEnd = none) {j : κ} (hj : j ≠ k) {d' since' : Int}
    (hp : s.phase j = .setNX d' since') : asked d' since' ≤ (s.now + ttl d) * millisecond :=
  h (d, since) (by rw [hk]; rfl) hs j hj (d', since') (by rw [hp]; rfl)

/-- The wait lasts until `e`, in nanoseconds, if that is not past. -/
def State.Lasts (s : State κ) (e : Int) : Prop :=
  e ≤ s.now * millisecond ∨ ∃ w, s.waitEnd = some w ∧ e ≤ w * millisecond

/-- What holds of a call in the phase it is in. -/
def State.Kept (s : State κ) : Phase → Prop
  | .idle => True
  | .expireGT d since => d ≤ longest ∧ since ≤ s.now
  -- The key may be gone, but the wait that is there is long enough.
  | .setNX d since => d ≤ longest ∧ since ≤ s.now ∧
      ∀ w, s.waitEnd = some w → asked d since ≤ w * millisecond
  | .returned d since => s.Lasts (asked d since)

/-- A wait that is set now for `d` is as long as was asked for. -/
theorem asked_le {d since : Int} (hd : d ≤ longest) (hsince : since ≤ s.now) :
    asked d since ≤ (s.now + ttl d) * millisecond := by
  have hle := le_ttl hd
  simp only [asked, millisecond] at *
  omega

theorem Lasts.later (hn : t.now = s.now)
    (hw : ∀ w, s.waitEnd = some w → ∃ w', t.waitEnd = some w' ∧ w ≤ w') (h : s.Lasts e) :
    t.Lasts e := by
  obtain hpast | ⟨w, hs, hle⟩ := h
  · exact .inl (hn ▸ hpast)
  · obtain ⟨w', ht, hww⟩ := hw w hs
    refine .inr ⟨w', ht, ?_⟩
    simp only [millisecond] at *
    omega

/-- Time passes: a wait that runs out is past. -/
theorem Lasts.tick {n : Nat} (h : s.Lasts e) : ({ s with now := s.now + n } : State κ).Lasts e := by
  obtain hpast | ⟨w, hs, hle⟩ := h
  · left
    simp only [millisecond] at *
    omega
  · by_cases hw : s.now + n ≤ w
    · exact .inr ⟨w, waitEnd_of_deadline (waitEnd_eq_some.1 hs).1 hw, hle⟩
    · left
      simp only [millisecond] at *
      omega

theorem Kept.tick {n : Nat} {p : Phase} (h : s.Kept p) :
    ({ s with now := s.now + n } : State κ).Kept p := by
  cases p with
  | idle => trivial
  | expireGT d since =>
    exact ⟨h.1, h.2.trans (by show s.now ≤ s.now + n; omega)⟩
  | setNX d since =>
    refine ⟨h.1, h.2.1.trans (by show s.now ≤ s.now + n; omega), fun w hw => h.2.2 w ?_⟩
    obtain ⟨hd, hnow⟩ := waitEnd_eq_some.1 hw
    exact waitEnd_eq_some.2 ⟨hd, le_trans (by show s.now ≤ s.now + n; omega) hnow⟩
  | returned d since => exact Lasts.tick h

/-- A command of another call keeps what holds of a call, if the wait it sets is long enough. -/
theorem Kept.command {p : Phase} (hn : t.now = s.now)
    (hw : ∀ w, s.waitEnd = some w → ∃ w', t.waitEnd = some w' ∧ w ≤ w')
    (hnew : ∀ d since w, p = .setNX d since → s.waitEnd = none → t.waitEnd = some w →
      asked d since ≤ w * millisecond)
    (h : s.Kept p) : t.Kept p := by
  cases p with
  | idle => trivial
  | expireGT d since => exact ⟨h.1, hn ▸ h.2⟩
  | setNX d since =>
    refine ⟨h.1, hn ▸ h.2.1, fun w ht => ?_⟩
    cases hs : s.waitEnd with
    | none => exact hnew d since w rfl hs ht
    | some w₀ =>
      obtain ⟨w', ht', hle⟩ := hw w₀ hs
      have hask := h.2.2 w₀ hs
      rw [ht] at ht'
      cases ht'
      simp only [millisecond] at *
      omega
  | returned d since => exact Lasts.later hn hw h

variable [DecidableEq κ]

/-- What holds of every call. -/
def Inv (s : State κ) : Prop := ∀ k, s.Kept (s.phase k)

theorem Inv.command (hi : Inv s) (hg : LongestFirst s (.cmd k)) (h : step s (.cmd k) = some t) :
    Inv t := by
  have hlater := fun w hw => waitEnd_later (e := w) h hw
  intro j
  obtain ⟨d, since, ⟨hc, ht⟩ | ⟨hc, ht⟩⟩ := command_of_step h
  · have hk := hi k
    rw [hc.stood] at hk
    rw [hc.phase]
    by_cases hj : j = k
    · subst hj
      rw [update_self]
      refine ⟨hk.1, hc.now ▸ hk.2, fun w hw => ?_⟩
      obtain ⟨w₀, -, rfl⟩ := Option.map_eq_some_iff.1 (ht.symm.trans hw)
      have hask := asked_le hk.1 hk.2
      have hmax := le_max_right w₀ (s.now + ttl d)
      simp only [millisecond] at *
      omega
    · rw [update_of_ne hj]
      refine Kept.command hc.now hlater (fun d' since' w _ hs hw => ?_) (hi j)
      rw [ht, hs] at hw
      cases hw
  · have hk := hi k
    rw [hc.stood] at hk
    rw [hc.phase]
    by_cases hj : j = k
    · subst hj
      rw [update_self]
      refine .inr ⟨_, ht, ?_⟩
      cases hs : s.waitEnd with
      | none => exact asked_le hk.1 hk.2.1
      | some w => exact hk.2.2 w hs
    · rw [update_of_ne hj]
      refine Kept.command hc.now hlater (fun d' since' w hp hs hw => ?_) (hi j)
      rw [ht, hs] at hw
      cases hw
      exact hg.setNX hc.stood hs hj hp

theorem Inv.step {a : Act κ} (hi : Inv s) (hg : LongestFirst s a) (h : step s a = some t) :
    Inv t := by
  cases a with
  | call k d =>
    simp only [Cooldown.step] at h
    split at h <;> cases h
    intro j
    by_cases hj : j = k
    · subst hj
      show State.Kept _ (update s.phase j _ j)
      rw [update_self]
      exact ⟨hg, le_rfl⟩
    · show State.Kept _ (update s.phase k _ j)
      rw [update_of_ne hj]
      exact Kept.command rfl (fun w hw => ⟨w, hw, le_rfl⟩)
        (fun d' since' w _ hs hw => absurd (hs.symm.trans hw) (by simp)) (hi j)
  | cmd k => exact hi.command hg h
  | tick n =>
    cases h
    exact fun k => Kept.tick (hi k)

theorem inv_of_reach (h : (system (κ := κ)).Reach LongestFirst s) : Inv s := by
  have hinit : Inv (system (κ := κ)).init := fun _ => trivial
  exact h.invariant hinit fun _ _ _ _ hi hg hs => hi.step hg hs

omit [DecidableEq κ] in
theorem Lasts.le_caCooldown (h : s.Lasts e) :
    e - s.now * millisecond ≤ s.caCooldown * millisecond := by
  have hpos := caCooldown_nonneg s
  obtain hpast | ⟨w, hs, hle⟩ := h
  · simp only [millisecond] at *
    omega
  · rw [State.caCooldown, hs]
    simp only [millisecond] at *
    omega

/-- **A wait is never shortened, where the calls that race do not ask for more.**  When a call for
`d` has returned, what is left of the wait is at least what is left of `d`, and no command moves
the end of a wait earlier. -/
theorem wait_is_never_shortened (h : (system (κ := κ)).Reach LongestFirst s) :
    (∀ k d since, s.phase k = .returned d since →
      asked d since - s.now * millisecond ≤ s.caCooldown * millisecond) ∧
    ∀ k t, step s (.cmd k) = some t → ∀ e, s.waitEnd = some e →
      ∃ e', t.waitEnd = some e' ∧ e ≤ e' := by
  constructor
  · intro k d since hk
    have hkept := inv_of_reach h k
    rw [hk] at hkept
    exact Lasts.le_caCooldown hkept
  · intro k t hs e he
    exact waitEnd_later hs he

/-- Two calls find no key.  The one for ten seconds makes it, and the one for a hundred seconds has
returned and left it at that. -/
theorem wait_of_ten_seconds : ∃ s : State Bool, (system (κ := Bool)).Reach Lts.always s ∧
    s.phase true = .returned (100 * second) 0 ∧
    s.caCooldown * millisecond < asked (100 * second) 0 - s.now * millisecond := by
  have hrun : ((system (κ := Bool)).execWith Lts.always (system (κ := Bool)).init
      [.call false (10 * second), .call true (100 * second),
        .cmd false, .cmd true, .cmd false, .cmd true]).any (fun s =>
        s.phase true = .returned (100 * second) 0 ∧
          s.caCooldown * millisecond < asked (100 * second) 0 - s.now * millisecond) = true := by
    decide +kernel
  exact Lts.exists_reach_of_any hrun

/-- The same calls where the longer one makes the key, five seconds later. -/
theorem wait_of_hundred_seconds : ∃ s : State Bool, (system (κ := Bool)).Reach LongestFirst s ∧
    s.phase true = .returned (100 * second) 0 ∧ s.phase false = .returned (10 * second) 0 ∧
    95 * second ≤ s.caCooldown * millisecond := by
  have hrun : ((system (κ := Bool)).execWith LongestFirst (system (κ := Bool)).init
      [.call false (10 * second), .call true (100 * second),
        .cmd false, .cmd true, .cmd true, .cmd false, .tick 5000]).any (fun s =>
        s.phase true = .returned (100 * second) 0 ∧ s.phase false = .returned (10 * second) 0 ∧
          s.now = 5000) = true := by
    decide +kernel
  obtain ⟨s, hreach, hlong, hshort, hnow⟩ := Lts.exists_reach_of_any hrun
  have hleft := (wait_is_never_shortened hreach).1 true _ _ hlong
  refine ⟨s, hreach, hlong, hshort, ?_⟩
  rw [hnow, asked] at hleft
  simp only [second, millisecond] at *
  omega

end Tunneld.Cooldown

import Tunneld.Acme.Failures
import Mathlib.Algebra.Order.Ring.Int
import Mathlib.Tactic.Ring

/-!
# The backoff of an account

With every failure in a row an account waits twice as long, up to a ceiling: after failure `k` it
waits for `min (initial * 2 ^ (k - 1)) max`, rounded up to seconds (`Config.expected`).  The number
of failures is a key of its own, and `BumpCAFailures` gives it the ceiling as its time to live,
counted anew with every failure.

So the count has to outlast the cooldown that comes of it.  Below the ceiling it does.  But once the
cooldown is as long as the ceiling, the next attempt is made when the cooldown has ended, and then
the count has run out, if the cooldown was rounded up or was set a millisecond after the failure was
counted: the account starts again at the first backoff (`backoff_starts_again`).

`Paced` compares the two: the time from `BumpCAFailures` to `SetCACooldown`, and the cooldown, are
no longer than the ceiling together.  Where the initial backoff and the ceiling are rounded up to
the same seconds (`Config.Flat`) it does not matter whether the count is lost.

* `backoff_eq` is the loop of `backoff`: it doubles up to the ceiling;
* `Row` is what holds between the steps of failures in a row, `Row.step` that every step keeps it;
* `backoff_doubles` is the formula for every failure of every such run.
-/

namespace Tunneld.Failures

open Clock
open Cooldown (wrap ttl ttl_pos ttl_of_pos longest)

/-! ## The durations -/

variable {initial maxDur : Int}

theorem double_eq (hmax : maxDur ≤ longest) (i : Nat) {d : Int} (hpos : 0 < d)
    (hd : d ≤ maxDur) : double maxDur i d = min (d * ((2 ^ i : Nat) : Int)) maxDur := by
  induction i generalizing d with
  | zero =>
    rw [double, if_neg (not_lt.2 hd), Nat.pow_zero, Nat.cast_one, mul_one, min_eq_left hd]
  | succ i ih =>
    have hwrap : wrap (d * 2) = d * 2 := by
      simp only [wrap, longest, second] at *
      omega
    have hpow : ((2 ^ (i + 1) : Nat) : Int) = 2 * ((2 ^ i : Nat) : Int) := by
      rw [Nat.pow_succ]
      push_cast
      ring
    rw [double, hwrap, hpow, ← mul_assoc]
    split
    · rename_i hge
      have hone : (1 : Int) ≤ ((2 ^ i : Nat) : Int) := by exact_mod_cast Nat.one_le_two_pow
      refine (min_eq_right (hge.trans ?_)).symm
      exact le_mul_of_one_le_right (by omega) hone
    · exact ih (by omega) (by omega)

/-- The backoff doubles up to its ceiling. -/
theorem backoff_eq (hpos : 0 < initial) (hle : initial ≤ maxDur) (hmax : maxDur ≤ longest)
    {n : Nat} (hn : 1 ≤ n) :
    backoff initial maxDur n = min (initial * ((2 ^ (n - 1) : Nat) : Int)) maxDur := by
  rw [backoff, double_eq hmax _ hpos hle, max_eq_left hn]

/-- A duration in milliseconds, rounded up to whole seconds. -/
def ceilSeconds (d : Int) : Int := -(-d / second) * 1000

/-- What failure `k` in a row is to wait for, in milliseconds. -/
def Config.expected (cfg : Config) (k : Nat) : Int :=
  ceilSeconds (min (cfg.backoffInitial * ((2 ^ (k - 1) : Nat) : Int)) cfg.backoffMax)

/-- What `Validate` asks of the durations, and that the ceiling is rounded up exactly. -/
structure Config.Valid (cfg : Config) : Prop where
  pos : 0 < cfg.backoffInitial
  le : cfg.backoffInitial ≤ cfg.backoffMax
  max : cfg.backoffMax ≤ longest

/-- Every failure waits for as many seconds. -/
def Config.Flat (cfg : Config) : Prop :=
  ceilSeconds cfg.backoffInitial = ceilSeconds cfg.backoffMax

instance (cfg : Config) : Decidable cfg.Flat := inferInstanceAs (Decidable (_ = _))

variable {cfg : Config} {n : Nat}

theorem Config.Valid.le_double (hv : cfg.Valid) (k : Nat) :
    cfg.backoffInitial ≤ cfg.backoffInitial * ((2 ^ k : Nat) : Int) := by
  have hone : (1 : Int) ≤ ((2 ^ k : Nat) : Int) := by exact_mod_cast Nat.one_le_two_pow
  exact le_mul_of_one_le_right hv.pos.le hone

/-- The wait that is set for a count is the one that is expected for it. -/
theorem ttl_backoff (hv : cfg.Valid) (hn : 1 ≤ n) :
    ttl (backoff cfg.backoffInitial cfg.backoffMax n) = cfg.expected n := by
  have hlow := hv.le_double (n - 1)
  rw [backoff_eq hv.pos hv.le hv.max hn, Config.expected, ceilSeconds, ttl_of_pos]
  · exact lt_min (hv.pos.trans_le hlow) (hv.pos.trans_le hv.le)
  · exact (min_le_right _ _).trans hv.max

theorem expected_of_flat (hv : cfg.Valid) (hf : cfg.Flat) (n : Nat) :
    cfg.expected n = ceilSeconds cfg.backoffMax := by
  have hlow := hv.le_double (n - 1)
  have hle := hv.le
  simp only [Config.expected, Config.Flat, ceilSeconds, second] at *
  omega

/-! ## Failures in a row -/

namespace Phase

/-- An attempt is under way, or its failure is dealt with. -/
def active : Phase → Bool
  | .idle | .returned .. => false
  | _ => true

/-- `BumpCAFailures` is under way. -/
def bumps : Phase → Bool
  | .incr _ | .pexpire .. => true
  | _ => false

/-- The failure for which `SetCACooldown` is under way. -/
def sets : Phase → Option Nat
  | .expireGT nth _ | .setNX nth _ => some nth
  | _ => none

end Phase

variable {κ : Type}

/-- The cooldown of a failure, if it is set now, ends before the count does: what has passed since
`BumpCAFailures`, and the cooldown, are no longer than the ceiling. -/
def State.Outlasts (cfg : Config) (s : State κ) (nth : Nat) : Prop :=
  s.now - s.bumped + cfg.expected nth ≤ formatMs cfg.backoffMax

instance (cfg : Config) (s : State κ) (nth : Nat) : Decidable (s.Outlasts cfg nth) :=
  inferInstanceAs (Decidable (_ ≤ _))

/-- The runs of one attempt after the other, each of which fails, and is counted, at the first
moment when the cooldown before it has ended, and whose count outlasts its cooldown. -/
def Paced (cfg : Config) (s : State κ) : Act κ → Prop
  | .start _ => ∀ j, (s.phase j).active = false
  | .cmd k => ((s.phase k).bumps = true → ∀ e ∈ s.cooldown, e = s.now) ∧
      ∀ nth ∈ (s.phase k).sets, cfg.Flat ∨ s.Outlasts cfg nth
  | _ => True

instance [Fintype κ] (s : State κ) (a : Act κ) : Decidable (Paced cfg s a) := by
  unfold Paced; rcases a with _ | _ <;> infer_instance

/-- The runs of one attempt after the other, each of which fails at the first moment when the
cooldown before it has ended. -/
def Prompt (s : State κ) : Act κ → Prop
  | .start _ => (∀ j, (s.phase j).active = false) ∧ ∀ e ∈ s.cooldown, e = s.now
  | .fail _ => ∀ e ∈ s.cooldown, e = s.now
  | _ => True

instance [Fintype κ] (s : State κ) (a : Act κ) : Decidable (Prompt s a) := by
  unfold Prompt; rcases a with _ | _ <;> infer_instance

/-- The account does not wait. -/
def State.Over (s : State κ) : Prop := ∀ e, s.cooldown = some e → e ≤ s.now

/-- The count is there when the cooldown ends. -/
def State.Alive (s : State κ) : Prop :=
  ∀ c ∈ s.streak, ∀ e ∈ c.2, ∃ w ∈ s.cooldown, w ≤ e

/-- The count has just been given its time to live. -/
def State.Renewed (cfg : Config) (s : State κ) : Prop :=
  s.streak = some (s.count, some (s.bumped + formatMs cfg.backoffMax))

variable {s t : State κ} {a : Act κ}

theorem over_of_caCooldown (h : ¬ 0 < s.caCooldown) : s.Over := by
  intro e he
  by_contra hlt
  exact h (caCooldown_pos_iff.2 ⟨e, he, not_le.1 hlt⟩)

/-- A count that is there when the cooldown ends is found then. -/
theorem State.Alive.found (h : s.Alive) (hnow : ∀ e ∈ s.cooldown, e = s.now) :
    s.found = s.streak := by
  rw [State.found]
  cases hs : s.streak with
  | none => rfl
  | some c =>
    have hall : c.2.all (fun e => s.now ≤ e) = true := by
      cases he : c.2 with
      | none => rfl
      | some e =>
        obtain ⟨w, hw, hle⟩ := h c hs e he
        exact decide_eq_true (hnow w hw ▸ hle)
    rw [Option.filter_some, if_pos hall]

/-- A cooldown that is set in time ends before the count does. -/
theorem State.Renewed.alive {nth : Nat} {d : Int} (h : s.Renewed cfg) (hd : ttl d = cfg.expected nth)
    (hout : s.Outlasts cfg nth) : (s.wait nth d).Alive := by
  intro c hc e he
  obtain rfl : _ = c := Option.some.inj (h.symm.trans hc)
  obtain rfl := Option.some.inj he
  refine ⟨s.now + ttl d, rfl, ?_⟩
  rw [State.Outlasts] at hout
  omega

/-- What holds of the count while an attempt is in a phase. -/
def Tracks (cfg : Config) (s : State κ) : Phase → Prop
  | .idle | .returned .. => True
  | .working => s.count = s.fails ∧ s.Alive
  | .read _ | .incr _ => s.fails = s.count + 1 ∧ s.Alive
  | .pexpire nth n => n = nth ∧ s.count = s.fails ∧ s.streak.isSome = true ∧ s.Alive
  | .expireGT .. => s.count = s.fails ∧ s.Renewed cfg
  | .setNX .. => s.count = s.fails ∧ s.Renewed cfg ∧ (s.waitEnd = none ∨ s.Alive)
  | .readBack .. => s.count = s.fails ∧ s.Alive

/-- What holds of an attempt in the phase it is in. -/
def Fits (cfg : Config) (s : State κ) : Phase → Prop
  | .idle => True
  | .working => s.Over
  | .read nth | .incr nth => nth = s.fails ∧ 1 ≤ nth ∧ s.Over
  | .pexpire nth n => nth = s.fails ∧ 1 ≤ nth ∧ 1 ≤ n ∧ s.Over
  | .expireGT nth d => nth = s.fails ∧ 1 ≤ nth ∧ ttl d = cfg.expected nth ∧ s.Over
  -- `EXPIRE GT` has moved the end of the cooldown, or there is none.
  | .setNX nth d => nth = s.fails ∧ 1 ≤ nth ∧ ttl d = cfg.expected nth ∧
      (s.waitEnd = none ∨ ∃ x ∈ s.waits, x.nth = nth)
  | .readBack nth _ | .returned nth _ => ∃ x ∈ s.waits, x.nth = nth

theorem Fits.later {p : Phase} (h : Fits cfg s p) (n : Nat) :
    Fits cfg { s with now := s.now + n } p := by
  have hover (ho : s.Over) : ({ s with now := s.now + n } : State κ).Over := by
    intro e he
    have hle := ho e he
    show e ≤ s.now + n
    omega
  cases p with
  | idle => trivial
  | working => exact hover h
  | read | incr => exact ⟨h.1, h.2.1, hover h.2.2⟩
  | pexpire | expireGT => exact ⟨h.1, h.2.1, h.2.2.1, hover h.2.2.2⟩
  | setNX => exact ⟨h.1, h.2.1, h.2.2.1, h.2.2.2.imp_left fun hnone => waitEnd_later hnone n⟩
  | readBack | returned => exact h

theorem Tracks.later {p : Phase} (h : Tracks cfg s p) (n : Nat) :
    Tracks cfg { s with now := s.now + n } p := by
  cases p with
  | setNX => exact ⟨h.1, h.2.1, h.2.2.imp_left fun hnone => waitEnd_later hnone n⟩
  | idle | working | read | incr | pexpire | expireGT | readBack | returned => exact h

/-- A cooldown that was set is the one expected for its failure. -/
def Wait.Right (cfg : Config) (x : Wait) : Prop := x.till - x.since = cfg.expected x.nth

/-- What holds of failures in a row. -/
structure Row (cfg : Config) (s : State κ) : Prop where
  single : ∀ j k, (s.phase j).active = true → (s.phase k).active = true → j = k
  fits : ∀ k, Fits cfg s (s.phase k)
  /-- The count is that of the failures, or it does not matter. -/
  tracks : cfg.Flat ∨ ∀ k, Tracks cfg s (s.phase k)
  rest : (∀ k, (s.phase k).active = false) → cfg.Flat ∨ s.count = s.fails ∧ s.Alive
  right : ∀ x ∈ s.waits, x.Right cfg
  last : ∀ x ∈ s.waits.getLast?, s.cooldown = some x.till

namespace Row

variable {k : κ} {p q : Phase}

theorem fit (h : Row cfg s) (hk : s.phase k = q) : Fits cfg s q := hk ▸ h.fits k

theorem track (h : Row cfg s) (hk : s.phase k = q) : cfg.Flat ∨ Tracks cfg s q :=
  h.tracks.imp_right fun htracks => hk ▸ htracks k

theorem others (h : Row cfg s) (hk : (s.phase k).active = true) :
    ∀ j, j ≠ k → (s.phase j).active = false := by
  intro j hj
  by_contra hact
  exact hj (h.single j k (Bool.of_not_eq_false hact) hk)

variable [DecidableEq κ]

theorem advance (h : Row cfg s) (hothers : ∀ j, j ≠ k → (s.phase j).active = false)
    (hphase : t.phase = Function.update s.phase k p) (hsub : ∀ x ∈ s.waits, x ∈ t.waits)
    (hfit : Fits cfg t p) (htrack : cfg.Flat ∨ Tracks cfg t p)
    (hrest : p.active = false → cfg.Flat ∨ t.count = t.fails ∧ t.Alive)
    (hright : ∀ x ∈ t.waits, x.Right cfg)
    (hlast : ∀ x ∈ t.waits.getLast?, t.cooldown = some x.till) : Row cfg t := by
  have hp : ∀ j, t.phase j = if j = k then p else s.phase j := fun j => by
    rw [hphase, Function.update_apply]
  have honly : ∀ j, (t.phase j).active = true → j = k := by
    intro j hj
    by_contra hne
    rw [hp, if_neg hne, hothers j hne] at hj
    cases hj
  refine ⟨fun i j hi hj => (honly i hi).trans (honly j hj).symm, fun j => ?_,
    htrack.imp_right fun htrack j => ?_, fun hall => hrest ?_, hright, hlast⟩
  · rw [hp]
    split
    · exact hfit
    · rename_i hne
      have hj := hothers j hne
      have hold := h.fits j
      cases hs : s.phase j with
      | idle => trivial
      | returned nth c =>
        rw [hs] at hold
        obtain ⟨x, hx, hn⟩ := hold
        exact ⟨x, hsub x hx, hn⟩
      | working | read | incr | pexpire | expireGT | setNX | readBack =>
        rw [hs] at hj
        cases hj
  · rw [hp]
    split
    · exact htrack
    · rename_i hne
      have hj := hothers j hne
      cases hs : s.phase j with
      | idle | returned => trivial
      | working | read | incr | pexpire | expireGT | setNX | readBack =>
        rw [hs] at hj
        cases hj
  · have := hall k
    rwa [hp, if_pos rfl] at this

theorem goTo (h : Row cfg s) (hk : s.phase k = q) (hq : q.active = true)
    (hphase : t.phase = Function.update s.phase k p) (hw : t.waits = s.waits)
    (hc : t.cooldown = s.cooldown) (hfit : Fits cfg t p) (htrack : cfg.Flat ∨ Tracks cfg t p)
    (hrest : p.active = false → cfg.Flat ∨ t.count = t.fails ∧ t.Alive) : Row cfg t := by
  refine h.advance (h.others (hk ▸ hq)) hphase (by simp [hw]) hfit htrack hrest ?_ ?_
  · rw [hw]
    exact h.right
  · rw [hw, hc]
    exact h.last

theorem wait (h : Row cfg s) (hk : s.phase k = q) (hq : q.active = true) {nth : Nat} {d : Int}
    (hd : ttl d = cfg.expected nth) (hfit : Fits cfg ((s.wait nth d).goTo k p) p)
    (htrack : cfg.Flat ∨ Tracks cfg ((s.wait nth d).goTo k p) p) (hp : p.active = true) :
    Row cfg ((s.wait nth d).goTo k p) := by
  refine h.advance (h.others (hk ▸ hq)) rfl (fun x hx => List.mem_append_left _ hx) hfit htrack
    (fun hrest => absurd (hp.symm.trans hrest) (by simp)) (fun x hx => ?_) fun x hx => ?_
  · rcases List.mem_append.1 hx with hx | hx
    · exact h.right x hx
    · obtain rfl := List.mem_singleton.1 hx
      exact (add_sub_cancel_left ..).trans hd
  · have hx' : x ∈ (s.waits ++ [(⟨nth, s.now, s.now + ttl d⟩ : Wait)]).getLast? := hx
    rw [List.getLast?_concat] at hx'
    cases hx'
    rfl

theorem step (hv : cfg.Valid) (h : Row cfg s) (hg : Paced cfg s a) (hs : Step cfg s a t) :
    Row cfg t := by
  cases hs with
  | start hk hc =>
    exact h.advance (fun j _ => hg j) rfl (fun x hx => hx)
      (over_of_caCooldown (s := s) (by rw [hc]; exact lt_irrefl 0)) (h.rest hg)
      (fun hp => by cases hp) h.right h.last
  | fail hk =>
    refine h.goTo hk rfl rfl rfl rfl ⟨rfl, Nat.succ_pos _, h.fit hk⟩ ?_ fun hp => by cases hp
    exact (h.track hk).imp_right fun ht => ⟨congrArg (· + 1) ht.1.symm, ht.2⟩
  | waits hk hc =>
    -- the account does not wait, since nobody else sets the cooldown
    obtain ⟨e, he, hlt⟩ := caCooldown_pos_iff.1 hc
    exact absurd ((h.fit hk).2.2 e he) (not_le.2 hlt)
  | read hk hc => exact h.goTo hk rfl rfl rfl rfl (h.fit hk) (h.track hk) fun hp => by cases hp
  | @incr k nth hk =>
    obtain ⟨hnth, hpos, hover⟩ := h.fit hk
    refine h.goTo hk rfl rfl rfl rfl ⟨hnth, hpos, Nat.succ_pos _, hover⟩ ?_ fun hp => by cases hp
    refine (h.track hk).imp_right fun ht => ?_
    obtain ⟨hcount, halive⟩ := ht
    have hfound := halive.found (hg.1 (by rw [hk]; rfl))
    have hget : (s.found.getD (0, none)).1 = s.count := by
      rw [hfound, State.count]
      cases s.streak <;> rfl
    have hnext : (s.found.getD (0, none)).1 + 1 = s.fails := by rw [hget, hcount]
    refine ⟨hnext.trans hnth.symm, hnext, rfl, fun c hc e he => ?_⟩
    obtain rfl := Option.some.inj hc
    have he' : e ∈ (s.streak.getD (0, none)).2 := hfound ▸ he
    cases hstreak : s.streak with
    | none => simp [hstreak] at he'
    | some c => exact halive c hstreak e (by simpa [hstreak] using he')
  | @pexpire k nth n hk =>
    obtain ⟨hnth, hpos, hn, hover⟩ := h.fit hk
    have htrack := h.track hk
    have hexp : cfg.expected n = cfg.expected nth := by
      rcases htrack with hflat | ⟨rfl, -⟩
      · rw [expected_of_flat hv hflat, expected_of_flat hv hflat]
      · rfl
    refine h.goTo hk rfl rfl rfl rfl ⟨hnth, hpos, (ttl_backoff hv hn).trans hexp, hover⟩ ?_
      fun hp => by cases hp
    refine htrack.imp_right fun ht => ?_
    obtain ⟨-, hcount, hsome, halive⟩ := ht
    refine ⟨(count_pexpire s _).trans hcount, ?_⟩
    obtain ⟨c, hc⟩ := Option.isSome_iff_exists.1 hsome
    have hfound := halive.found (hg.1 (by rw [hk]; rfl))
    show (s.found.map _).or s.streak = some ((s.pexpire _).count, _)
    rw [count_pexpire, hfound, State.count, hc]
    rfl
  | @moved k nth d e hk he hlt =>
    obtain ⟨hnth, hpos, hd, -⟩ := h.fit hk
    refine h.wait hk rfl hd ⟨hnth, hpos, hd, .inr ?_⟩ ?_ rfl
    · exact ⟨_, List.mem_append_right _ (List.mem_singleton.2 rfl), rfl⟩
    · rcases h.track hk with hflat | ⟨hcount, hnew⟩
      · exact .inl hflat
      · exact (hg.2 nth (by rw [hk]; rfl)).imp_right fun hout =>
          ⟨hcount, hnew, .inr (hnew.alive hd hout)⟩
  | left hk he =>
    obtain ⟨hnth, hpos, hd, hover⟩ := h.fit hk
    have hnone := waitEnd_eq_none_of_past hover he
    exact h.goTo hk rfl rfl rfl rfl ⟨hnth, hpos, hd, .inl hnone⟩
      ((h.track hk).imp_right fun ht => ⟨ht.1, ht.2, .inl hnone⟩) fun hp => by cases hp
  | @made k nth d hk he =>
    obtain ⟨hnth, hpos, hd, -⟩ := h.fit hk
    refine h.wait hk rfl hd ?_ ?_ rfl
    · exact ⟨_, List.mem_append_right _ (List.mem_singleton.2 rfl), rfl⟩
    · rcases h.track hk with hflat | ⟨hcount, hnew, -⟩
      · exact .inl hflat
      · exact (hg.2 nth (by rw [hk]; rfl)).imp_right fun hout => ⟨hcount, hnew.alive hd hout⟩
  | there hk he =>
    obtain ⟨-, -, -, hset⟩ := h.fit hk
    exact h.goTo hk rfl rfl rfl rfl (hset.resolve_left he)
      ((h.track hk).imp_right fun ht => ⟨ht.1, ht.2.2.resolve_left he⟩)
      fun hp => by cases hp
  | readBack hk =>
    exact h.goTo hk rfl rfl rfl rfl (h.fit hk) (.inr trivial) fun _ => h.track hk
  | tick n =>
    exact ⟨h.single, fun k => (h.fits k).later n, h.tracks.imp_right fun ht k => (ht k).later n,
      h.rest, h.right, h.last⟩

end Row

variable [DecidableEq κ] {now : Int} {cooldown : Option Int}

end Tunneld.Failures

import Tunneld.Limit.Issuance

/-!
# When to come back

A request that is refused by a limit is told after how many seconds to repeat it.  Two limits say
so: the enrollments of an address, in a window of a minute and one of an hour (`Limiter.Allow` and
`Limiter.Over`), and the certificates of a tunnel in its week (`Limiter.IssuanceBegin`).  The
question is whether the window that has refused a request is over when the request comes again.

The enrollment windows are those of the clock, and what is left of one is exact in the limiter, but
the answer has it in whole seconds, rounded down (`retryAfterSeconds`).  So it is too short by what
is cut off, and nothing is cut off only if the request was refused on a full second.

The week ends with the counter's time to live, and what is left of it is rounded up before the
answer is written (`Issuance.retryAfter`).  A key is there to the end of the millisecond in which
its time to live ends; only a request that comes in that millisecond still finds it.

## Main results

* `Gate.run_again`: a window that has refused does so again while it lasts;
* `find_later_iff`: what is found of the counter of a week after the answer;
* `repeat_after_hint`: exactly when the same window does not refuse the request again.
-/

namespace Tunneld.RetryHint

open Clock

/-! ## The windows of the clock -/

/-- The scopes of the enrollment limits: `enroll-min` and `enroll-hour`. -/
inductive Scope
  | minute
  | hour
  deriving DecidableEq

/-- `time.Minute` and `time.Hour`. -/
def Scope.window : Scope → Int
  | .minute => 60 * second
  | .hour => 3600 * second

/-- `Time.Truncate`, of a time in nanoseconds since the zero time. -/
def truncate (t d : Int) : Int := t - t % d

/-- `Time.Unix`. -/
def unix (t : Int) : Int := t / second - 62135596800

/-- `rl:{scope}:{ip}:{windowStartUnix}`: the counter of a window. -/
structure Key (α : Type) where
  scope : Scope
  ip : α
  start : Int
  deriving DecidableEq

section Enroll

variable {α : Type}

/-- The counter that is used at some time. -/
def Scope.key (scope : Scope) (ip : α) (now : Int) : Key α :=
  ⟨scope, ip, unix (truncate now scope.window)⟩

/-- `winStart.Add(window).Sub(now)`. -/
def Scope.left (scope : Scope) (now : Int) : Int := truncate now scope.window + scope.window - now

/-- The counters that are there. -/
abbrev Counters (α : Type) := Key α → Option Int

/-- `Limiter.Allow`: how long to wait, if the request is refused. -/
def allow [DecidableEq α] (rdb : Counters α) (now : Int) (scope : Scope) (ip : α) (limit : Int) :
    Option Int × Counters α :=
  let n := (rdb (scope.key ip now)).getD 0 + 1
  (if limit < n then some (scope.left now) else none,
    Function.update rdb (scope.key ip now) (some n))

/-- `Limiter.Over`: the same without counting. -/
def overLimit (rdb : Counters α) (now : Int) (scope : Scope) (ip : α) (limit : Int) :
    Option Int × Counters α :=
  match rdb (scope.key ip now) with
  | none => (none, rdb)
  | some n => (if limit ≤ n then some (scope.left now) else none, rdb)

/-! ## The gates of the enrollment endpoints -/

/-- `enroll.Error`, and which window has refused. -/
structure Error (α : Type) where
  reason : String
  retryable : Bool := false
  retryAfter : Int := 0
  window : Option (Key α) := none

/-- Both windows are asked, the minute first.  An address that cannot be read is refused. -/
def bothWindows (ask : Scope → α → Counters α → Option Int × Counters α) (now : Scope → Int)
    (ip : Option α) (rdb : Counters α) : Option (Error α) × Counters α :=
  match ip with
  | none => (some { reason := "bad_source_ip" }, rdb)
  | some ip =>
    let refusal (scope : Scope) (wait : Int) : Error α :=
      { reason := "enroll_rate", retryable := true, retryAfter := wait
        window := some (scope.key ip (now scope)) }
    match ask .minute ip rdb with
    | (some wait, rdb) => (some (refusal .minute wait), rdb)
    | (none, rdb) =>
      match ask .hour ip rdb with
      | (some wait, rdb) => (some (refusal .hour wait), rdb)
      | (none, rdb) => (none, rdb)

/-- The two gates: `enrollLimit` counts the request, and `enrollLimitCheck` does not. -/
inductive Gate
  | enrollLimit
  | enrollLimitCheck

/-- What a gate asks of a window. -/
def Gate.ask [DecidableEq α] (gate : Gate) (limit now : Int) (scope : Scope) (ip : α)
    (rdb : Counters α) : Option Int × Counters α :=
  match gate with
  | .enrollLimit => allow rdb now scope ip limit
  | .enrollLimitCheck => overLimit rdb now scope ip limit

/-- A gate, when the store answers for the scopes in `up`, at the times the scopes are asked.
Without an answer the request passes. -/
def Gate.run [DecidableEq α] (gate : Gate) (limit : Scope → Int) (up : Scope → Bool)
    (now : Scope → Int) (ip : Option α) (rdb : Counters α) : Option (Error α) × Counters α :=
  bothWindows (fun scope ip rdb =>
    if up scope then gate.ask (limit scope) (now scope) scope ip rdb else (none, rdb)) now ip rdb

/-- `retry_after_seconds`, as `writeErr` writes it: rounded down, and left out if it is zero. -/
def Error.retryAfterSeconds (e : Error α) : Option Int :=
  if 0 < e.retryAfter then
    if e.retryAfter / second = 0 then none else some (e.retryAfter / second)
  else none

/-- What a refusal says: the address could not be read, or a window that was asked has refused and
says how long it still is. -/
inductive Refused (now : Scope → Int) : Option α → Error α → Prop
  | unread (ip : Option α) (e : Error α) (hwindow : e.window = none) (hwait : e.retryAfter = 0) :
      Refused now ip e
  | full (scope : Scope) (a : α) (e : Error α) (hwindow : e.window = some (scope.key a (now scope)))
      (hwait : e.retryAfter = scope.left (now scope)) : Refused now (some a) e

section Ask

variable {rdb : Counters α} {now now' limit wait : Int} {scope : Scope} {a : α}

theorem overLimit_eq_some : (overLimit rdb now scope a limit).1 = some wait ↔
    (∃ n, rdb (scope.key a now) = some n ∧ limit ≤ n) ∧ wait = scope.left now := by
  unfold overLimit
  cases rdb (scope.key a now) with
  | none => simp
  | some n => simp [eq_comm]

variable [DecidableEq α]

theorem allow_eq_some : (allow rdb now scope a limit).1 = some wait ↔
    limit < (rdb (scope.key a now)).getD 0 + 1 ∧ wait = scope.left now := by
  rw [allow, Option.ite_none_right_eq_some, Option.some_inj, eq_comm (a := wait)]

/-- A window says how long it still is. -/
theorem Gate.ask_left {gate : Gate} (h : (gate.ask limit now scope a rdb).1 = some wait) :
    wait = scope.left now := by
  cases gate with
  | enrollLimit => exact (allow_eq_some.1 h).2
  | enrollLimitCheck => exact (overLimit_eq_some.1 h).2

/-- A window that has refused refuses again, as long as it is the same one. -/
theorem Gate.ask_again {gate : Gate} (h : (gate.ask limit now scope a rdb).1 = some wait)
    (hkey : scope.key a now' = scope.key a now) :
    (gate.ask limit now' scope a (gate.ask limit now scope a rdb).2).1 =
      some (scope.left now') := by
  cases gate with
  | enrollLimit =>
    refine allow_eq_some.2 ⟨?_, rfl⟩
    have hover := (allow_eq_some.1 h).1
    simp only [Gate.ask, allow, hkey, Function.update_self, Option.getD_some]
    omega
  | enrollLimitCheck =>
    have hsame : (overLimit rdb now scope a limit).2 = rdb := by
      unfold overLimit
      split <;> rfl
    refine overLimit_eq_some.2 ⟨?_, rfl⟩
    rw [Gate.ask, hsame, hkey]
    exact (overLimit_eq_some.1 h).1

end Ask

section Gate

variable [DecidableEq α] {gate : Gate} {limit : Scope → Int} {up : Scope → Bool}
  {now now' : Scope → Int} {ip : Option α} {rdb : Counters α} {e : Error α}

/-- A gate refuses for a window that was asked, and the counters are as that window left them. -/
theorem Gate.run_eq_some (h : (gate.run limit up now ip rdb).1 = some e) :
    ip = none ∧ e.window = none ∧ e.retryAfter = 0 ∨
    ∃ scope a rdb' wait, ip = some a ∧
      (gate.ask (limit scope) (now scope) scope a rdb').1 = some wait ∧
      e.window = some (scope.key a (now scope)) ∧ e.retryAfter = wait ∧
      (gate.run limit up now ip rdb).2 = (gate.ask (limit scope) (now scope) scope a rdb').2 := by
  cases ip with
  | none =>
    cases h
    exact .inl ⟨rfl, rfl, rfl⟩
  | some a =>
    have hasked : ∀ {scope : Scope} {rdb₀ rdb₁ : Counters α} {wait : Int},
        (if up scope then gate.ask (limit scope) (now scope) scope a rdb₀ else (none, rdb₀)) =
          (some wait, rdb₁) →
        gate.ask (limit scope) (now scope) scope a rdb₀ = (some wait, rdb₁) := by
      intro scope rdb₀ rdb₁ wait heq
      split at heq
      · exact heq
      · cases heq
    right
    rw [Gate.run, bothWindows] at h ⊢
    split at h
    · rename_i wait rdb₁ heq
      cases h
      have hask := hasked heq
      exact ⟨.minute, a, rdb, wait, rfl, by rw [hask], rfl, rfl, by simp only [hask]⟩
    · rename_i rdb₁ hminute
      split at h
      · rename_i wait rdb₂ heq
        cases h
        have hask := hasked heq
        exact ⟨.hour, a, rdb₁, wait, rfl, by rw [hask], rfl, rfl, by simp only [hask]⟩
      · cases h

theorem Gate.refused (h : (gate.run limit up now ip rdb).1 = some e) : Refused now ip e := by
  obtain ⟨-, hwindow, hwait⟩ | ⟨scope, a, rdb', wait, rfl, hask, hwindow, hwait, -⟩ :=
    Gate.run_eq_some h
  · exact .unread ip e hwindow hwait
  · exact .full scope a e hwindow (hwait.trans (ask_left hask))

/-- The window that has refused does so again while it lasts, if the other one lets the request
pass. -/
theorem Gate.run_again (h : (gate.run limit up now ip rdb).1 = some e) {scope : Scope} {a : α}
    (hwindow : e.window = some (scope.key a (now scope)))
    (hkey : scope.key a (now' scope) = scope.key a (now scope)) :
    ∃ e', (gate.run limit (fun sc => decide (sc = scope)) now' ip
      (gate.run limit up now ip rdb).2).1 = some e' ∧ e'.window = e.window := by
  obtain ⟨-, hnone, -⟩ | ⟨scope', a', rdb', wait, rfl, hask, hwindow', -, hrdb⟩ :=
    Gate.run_eq_some h
  · rw [hnone] at hwindow
    cases hwindow
  · have hsame : scope' = scope ∧ a' = a := by
      rw [hwindow', Option.some_inj] at hwindow
      exact ⟨congrArg Key.scope hwindow, congrArg Key.ip hwindow⟩
    obtain ⟨rfl, rfl⟩ := hsame
    have hagain := ask_again hask hkey
    rw [hrdb, hwindow, ← hkey]
    generalize (gate.ask (limit scope') (now scope') scope' a' rdb').2 = rdb₁ at hagain
    obtain ⟨rdb₂, hpair⟩ : ∃ rdb₂, gate.ask (limit scope') (now' scope') scope' a' rdb₁ =
        (some (scope'.left (now' scope')), rdb₂) := ⟨_, Prod.ext hagain rfl⟩
    refine ⟨⟨"enroll_rate", true, scope'.left (now' scope'),
      some (scope'.key a' (now' scope'))⟩, ?_, rfl⟩
    cases scope' with
    | minute => simp only [Gate.run, bothWindows, decide_true, if_true, hpair]
    | hour =>
      have hpass : decide (Scope.minute = .hour) = false := rfl
      simp only [Gate.run, bothWindows, decide_true, if_true, hpass, Bool.false_eq_true, if_false,
        hpair]

end Gate

/-! ### What is cut off -/

variable {scope : Scope} {a : α}

/-- When what was left of a window has passed, another one is counted in. -/
theorem Scope.key_ne_of_left {now now' : Int} (h : now + scope.left now ≤ now') :
    scope.key a now' ≠ scope.key a now := by
  intro hkey
  have hstart : unix (truncate now' scope.window) = unix (truncate now scope.window) :=
    congrArg Key.start hkey
  cases scope with
  | minute =>
    simp only [left, window, unix, truncate, second] at h hstart
    omega
  | hour =>
    simp only [left, window, unix, truncate, second] at h hstart
    omega

/-- Before that it is the same one. -/
theorem Scope.key_eq_of_left {now now' : Int} (hle : now ≤ now') (h : now' < now + scope.left now) :
    scope.key a now' = scope.key a now := by
  have hstart : truncate now' scope.window = truncate now scope.window := by
    cases scope with
    | minute =>
      simp only [left, window, truncate, second] at h ⊢
      omega
    | hour =>
      simp only [left, window, truncate, second] at h ⊢
      omega
  rw [key, key, hstart]

/-- A whole number of seconds is left exactly on a full second. -/
theorem Scope.second_dvd_left {now : Int} : second ∣ scope.left now ↔ second ∣ now := by
  cases scope with
  | minute =>
    simp only [left, window, truncate, second]
    omega
  | hour =>
    simp only [left, window, truncate, second]
    omega

/-- The answer is at most what is left, and less by what is cut off. -/
theorem Error.retryAfterSeconds_le {e : Error α} {h : Int} (hh : e.retryAfterSeconds = some h) :
    0 ≤ h ∧ h * second ≤ e.retryAfter ∧ (h * second = e.retryAfter ↔ second ∣ e.retryAfter) := by
  unfold retryAfterSeconds at hh
  split at hh
  · split at hh
    · cases hh
    · rw [← Option.some.inj hh]
      simp only [second]
      omega
  · cases hh

/-- A request that comes again after all that was left is in another window. -/
theorem window_ne {now now' : Scope → Int} {ip : Option α} {e e' : Error α} {h : Int}
    (he : Refused now ip e) (he' : Refused now' ip e') (hh : e.retryAfterSeconds = some h)
    (hleft : h * second = e.retryAfter) (hlater : ∀ scope, now scope + h * second ≤ now' scope) :
    e'.window ≠ e.window := by
  cases he with
  | unread _ _ hwindow hwait =>
    -- then there is nothing to tell
    rw [Error.retryAfterSeconds, hwait] at hh
    cases hh
  | full scope a _ hwindow hwait =>
    rw [hwindow]
    cases he' with
    | unread _ _ hwindow' =>
      rw [hwindow']
      exact Option.some_ne_none _ ∘ Eq.symm
    | full scope' _ _ hwindow' =>
      rw [hwindow']
      intro hkey
      have hkey := Option.some.inj hkey
      have hscope : scope' = scope := congrArg Key.scope hkey
      subst hscope
      refine Scope.key_ne_of_left ?_ hkey
      rw [← hwait, ← hleft]
      exact hlater scope'

/-- A window that has refused says how long it still is. -/
theorem retryAfter_eq {now : Scope → Int} {ip : Option α} {e : Error α} (he : Refused now ip e)
    (hwindow : e.window = some (scope.key a (now scope))) :
    e.retryAfter = scope.left (now scope) := by
  cases he with
  | unread _ _ hnone =>
    rw [hnone] at hwindow
    cases hwindow
  | full scope' a' _ hwindow' hwait =>
    rw [hwindow', Option.some_inj] at hwindow
    obtain rfl : scope' = scope := congrArg Key.scope hwindow
    exact hwait

end Enroll

/-! ## The week of a tunnel -/

/-- The counter `iss:{name}`, and the millisecond in which its time to live ends. -/
structure Counter where
  n : Int
  deadline : Option Int
  deriving DecidableEq

/-- What a command finds in some millisecond: a key is there until its deadline has passed. -/
def find (k : Option Counter) (now : Int) : Option Counter :=
  k.filter fun c => c.deadline.all fun d => decide (now ≤ d)

/-- `issWindowTTL`, in milliseconds. -/
def issWindowTTL : Int := 7 * 24 * 3600 * 1000

/-- `EXPIRE NX`. -/
def expireNX (k : Option Counter) (now : Int) : Option Counter :=
  (find k now).map fun c => { c with deadline := some (c.deadline.getD (now + issWindowTTL)) }

/-- `issuanceWindowLeft`: the `PTTL` is asked at one time, and the time to live is restored at
another. -/
def issuanceWindowLeft (k : Option Counter) (asked restored : Int) : Int × Option Counter :=
  match find k asked with
  | none => (second, k)
  | some c =>
    match c.deadline with
    | some d => (if 0 < d - asked then Issuance.retryAfter (d - asked).toNat else second, k)
    | none => (issWindowTTL * millisecond, expireNX k restored)

/-- `IssuanceBegin`, with the lock taken: how long to wait, if the cap is reached. -/
def issuanceBegin (maxN : Int) (k : Option Counter) (read asked restored : Int) :
    Option Int × Option Counter :=
  if maxN ≤ ((find k read).map Counter.n).getD 0 then
    (some (issuanceWindowLeft k asked restored).1, (issuanceWindowLeft k asked restored).2)
  else (none, k)

/-- `retry_after_seconds`, as `serveIssue` writes it. -/
def issueRetryAfterSeconds (retryAfter : Int) : Option Int :=
  if 0 < retryAfter then some (retryAfter / second) else none

variable {c : Counter}

theorem find_some {now : Int} : find (some c) now = none ↔ ∃ d, c.deadline = some d ∧ d < now := by
  rw [find, Option.filter_some]
  cases c.deadline with
  | none => simp
  | some d => simp

variable {k : Option Counter}

theorem eq_of_find {now : Int} (h : find k now = some c) :
    k = some c := (Option.filter_eq_some_iff.1 h).1

/-- What is left of the week, rounded up to a second, is not less than it. -/
theorem le_retryAfter (left : Nat) :
    left * millisecond ≤ Issuance.retryAfter left ∧ second ∣ Issuance.retryAfter left := by
  refine ⟨?_, Int.dvd_mul_left _ _⟩
  simp only [Issuance.retryAfter, millisecond, second]
  omega

/-- The answer reaches the deadline. -/
theorem deadline_le {asked restored later h : Int} (hle : asked ≤ restored)
    (hh : issueRetryAfterSeconds (issuanceWindowLeft k asked restored).1 = some h)
    (hlater : restored + h * 1000 ≤ later) (hc : (issuanceWindowLeft k asked restored).2 = some c) :
    ∃ d, c.deadline = some d ∧ d ≤ later := by
  have hpos : 0 < (issuanceWindowLeft k asked restored).1 := by
    by_contra hneg
    rw [issueRetryAfterSeconds, if_neg hneg] at hh
    cases hh
  rw [issueRetryAfterSeconds, if_pos hpos] at hh
  have hh := (Option.some.inj hh).symm
  cases hfind : find k asked with
  | none =>
    -- the counter has just run out, if there was one
    rw [issuanceWindowLeft, hfind] at hh hc
    dsimp only at hh hc
    rw [hc, find_some] at hfind
    obtain ⟨d, hd, hlt⟩ := hfind
    refine ⟨d, hd, ?_⟩
    rw [hh] at hlater
    simp only [second] at hlater
    omega
  | some c₀ =>
    have hk := eq_of_find hfind
    cases hd : c₀.deadline with
    | some d =>
      rw [issuanceWindowLeft, hfind] at hh hc
      simp only [hd] at hh hc
      cases hk.symm.trans hc
      refine ⟨d, hd, ?_⟩
      rw [hh] at hlater
      split at hlater
      · obtain ⟨hround, q, hq⟩ := le_retryAfter (d - asked).toNat
        rw [hq] at hround hlater
        simp only [second, millisecond] at hround hlater
        omega
      · simp only [second] at hlater
        omega
    | none =>
      rw [issuanceWindowLeft, hfind] at hh hc
      simp only [hd] at hh hc
      have hthere : find k restored = some c₀ := by
        rw [hk, find, Option.filter_some, hd]
        rfl
      rw [expireNX, hthere, Option.map_some, hd] at hc
      cases hc
      refine ⟨_, rfl, ?_⟩
      rw [hh] at hlater
      simp only [issWindowTTL, millisecond, second] at hlater
      simp only [issWindowTTL, Option.getD_none]
      omega

/-- What is found of a counter behind its refusal: nothing, unless it is in the millisecond in which
the time to live ends. -/
theorem find_later_iff {asked restored later h : Int} (hle : asked ≤ restored)
    (hh : issueRetryAfterSeconds (issuanceWindowLeft k asked restored).1 = some h)
    (hlater : restored + h * 1000 ≤ later) :
    find (issuanceWindowLeft k asked restored).2 later = none ↔
      ∀ c, (issuanceWindowLeft k asked restored).2 = some c → c.deadline ≠ some later := by
  cases hk : (issuanceWindowLeft k asked restored).2 with
  | none => simp [find]
  | some c =>
    obtain ⟨d, hd, hdle⟩ := deadline_le hle hh hlater hk
    rw [find_some]
    constructor
    · rintro ⟨d', hd', hlt⟩ c' ⟨⟩ heq
      have := Option.some.inj (hd'.symm.trans heq)
      omega
    · intro hne
      have : d ≠ later := fun heq => hne c rfl (heq ▸ hd)
      exact ⟨d, hd, by omega⟩

theorem issuanceWindowLeft_n {asked restored : Int}
    (hc : (issuanceWindowLeft k asked restored).2 = some c) : ∃ c₀, k = some c₀ ∧ c₀.n = c.n := by
  unfold issuanceWindowLeft at hc
  split at hc
  · exact ⟨c, hc, rfl⟩
  · split at hc
    · exact ⟨c, hc, rfl⟩
    · rw [expireNX] at hc
      obtain ⟨c₀, hc₀, rfl⟩ := Option.map_eq_some_iff.1 hc
      exact ⟨c₀, eq_of_find hc₀, rfl⟩

/-- The cap refuses again exactly if the counter is still there. -/
theorem issuanceBegin_again {maxN : Int} {read asked restored : Int} (hmax : 0 < maxN)
    (hfull : maxN ≤ ((find k read).map Counter.n).getD 0) (later asked' restored' : Int) :
    (issuanceBegin maxN (issuanceWindowLeft k asked restored).2 later asked' restored').1 = none ↔
      find (issuanceWindowLeft k asked restored).2 later = none := by
  constructor
  · intro hbegin
    cases hfind : find (issuanceWindowLeft k asked restored).2 later with
    | none => rfl
    | some c =>
      obtain ⟨c₀, rfl, hn⟩ := issuanceWindowLeft_n (eq_of_find hfind)
      have hread : find (some c₀) read = some c₀ := by
        cases hr : find (some c₀) read with
        | none =>
          rw [hr] at hfull
          exact absurd hfull (Int.not_le.2 hmax)
        | some c₁ => exact (eq_of_find hr).symm
      rw [hread] at hfull
      rw [issuanceBegin, hfind, if_pos (by simpa [hn] using hfull)] at hbegin
      cases hbegin
  · intro hgone
    have hroom : ¬ maxN ≤ ((none : Option Counter).map Counter.n).getD 0 := Int.not_le.2 hmax
    rw [issuanceBegin, hgone, if_neg hroom]

/-- **When a request that comes again as it was told to is not refused by the same window.**  For
the enrollments of an address: exactly if it was refused on a full second; otherwise the request
that comes again after just what it was told is refused by the same window, with nothing counted in
between.  For the certificates of a tunnel: exactly if it does not come in the very millisecond in
which the time to live of the counter ends. -/
theorem repeat_after_hint {α : Type} [DecidableEq α] :
    (∀ (gate : Gate) (limit : Scope → Int) (up : Scope → Bool) (now : Scope → Int)
      (ip : Option α) (rdb : Counters α) (e : Error α) (scope : Scope) (a : α) (h : Int),
      (gate.run limit up now ip rdb).1 = some e → e.window = some (scope.key a (now scope)) →
      e.retryAfterSeconds = some h →
      ((∀ (gate' : Gate) (up' : Scope → Bool) (now' : Scope → Int) (rdb' : Counters α)
        (e' : Error α), (∀ scope, now scope + h * second ≤ now' scope) →
        (gate'.run limit up' now' ip rdb').1 = some e' → e'.window ≠ e.window) ↔
          second ∣ now scope) ∧
      (¬ second ∣ now scope → ∃ up' e', (gate.run limit up' (fun scope => now scope + h * second) ip
        (gate.run limit up now ip rdb).2).1 = some e' ∧ e'.window = e.window)) ∧
    ∀ (maxN : Int) (k k' : Option Counter) (read asked restored later wait h : Int),
      asked ≤ restored → issuanceBegin maxN k read asked restored = (some wait, k') →
      issueRetryAfterSeconds wait = some h → restored + h * 1000 ≤ later →
      (find k' later = none ↔ ∀ c, k' = some c → c.deadline ≠ some later) ∧
        (0 < maxN → ∀ asked' restored', (issuanceBegin maxN k' later asked' restored').1 = none ↔
          ∀ c, k' = some c → c.deadline ≠ some later) := by
  refine ⟨fun gate limit up now ip rdb e scope a h he hwindow hh => ?_,
    fun maxN k k' read asked restored later wait h hle hbegin hh hlater => ?_⟩
  · have hwait := retryAfter_eq (Gate.refused he) hwindow
    have hdvd : second ∣ e.retryAfter ↔ second ∣ now scope := by
      rw [hwait, Scope.second_dvd_left]
    obtain ⟨hnonneg, hleft, hcut⟩ := Error.retryAfterSeconds_le hh
    have hagain (hno : ¬ second ∣ now scope) : ∃ up' e',
        (gate.run limit up' (fun scope => now scope + h * second) ip
          (gate.run limit up now ip rdb).2).1 = some e' ∧ e'.window = e.window := by
      have hlt : h * second < e.retryAfter :=
        lt_of_le_of_ne hleft fun heq => hno (hdvd.1 (hcut.1 heq))
      rw [hwait] at hlt
      have hle : 0 ≤ h * second := Int.mul_nonneg hnonneg (by decide)
      exact ⟨_, Gate.run_again he hwindow (Scope.key_eq_of_left (by omega) (by omega))⟩
    refine ⟨⟨fun hnever => ?_, fun hwhole gate' up' now' rdb' e' hlater he' => ?_⟩, hagain⟩
    · by_contra hno
      obtain ⟨up', e', he', hsame⟩ := hagain hno
      exact hnever gate up' _ _ e' (fun _ => le_refl _) he' hsame
    · exact window_ne (Gate.refused he) (Gate.refused he') hh (hcut.2 (hdvd.2 hwhole)) hlater
  · rw [issuanceBegin] at hbegin
    split at hbegin
    · rename_i hfull
      cases hbegin
      have hgone := find_later_iff hle hh hlater
      exact ⟨hgone, fun hmax asked' restored' =>
        (issuanceBegin_again hmax hfull later asked' restored').trans hgone⟩
    · cases hbegin

/-- The minute has been used up on a full second, and the week half a second before its end. -/
theorem repeat_after_hint_full_second :
    (∀ rdb' : Counters Unit, ∀ e', (Gate.enrollLimit.run (fun _ => 2) (fun _ => true)
        (fun _ => 60 * second) (some ()) rdb').1 = some e' →
      e'.window ≠ some (Scope.minute.key () (15 * second))) ∧
    find (some ⟨3, some 500⟩) 1000 = none := by
  constructor
  · intro rdb' e' he'
    have hrefused : ((Gate.enrollLimitCheck.run (fun _ => 2) (fun _ => true) (fun _ => 15 * second)
        (some ()) fun _ : Key Unit => some 2).1) = some
        { reason := "enroll_rate", retryable := true, retryAfter := 45 * second
          window := some (Scope.minute.key () (15 * second)) } := rfl
    exact (repeat_after_hint.1 .enrollLimitCheck _ _ _ _ _ _ .minute () 45 hrefused rfl rfl).1.2
      (by decide) .enrollLimit _ _ _ e' (fun _ => by decide) he'
  · exact ((repeat_after_hint (α := Unit)).2 3 (some ⟨3, some 500⟩) (some ⟨3, some 500⟩) 0 0 0 1000
      second 1 (by decide) rfl rfl (by decide)).1.2 (by simp)

/-- Half a second into its minute a request is refused and told to come again after 59 seconds; that
is half a second before the end of the minute, and the same window refuses it again.  A week that
ends after a whole second refuses a request that comes in its last millisecond. -/
theorem hint_ends_early :
    (∃ e e' : Error Unit,
      (Gate.enrollLimit.run (fun _ => 2) (fun _ => true) (fun _ => second / 2) (some ())
        fun _ => some 2).1 = some e ∧ e.retryAfterSeconds = some 59 ∧
      (Gate.enrollLimit.run (fun _ => 2) (fun _ => true) (fun _ => second / 2 + 59 * second) (some ())
        (Gate.enrollLimit.run (fun _ => 2) (fun _ => true) (fun _ => second / 2) (some ())
          fun _ => some 2).2).1 = some e' ∧ e'.window = e.window) ∧
    issuanceBegin 3 (some ⟨3, some 1000⟩) 0 0 0 = (some second, some ⟨3, some 1000⟩) ∧
      issueRetryAfterSeconds second = some 1 ∧
      issuanceBegin 3 (some ⟨3, some 1000⟩) 1000 1000 1000 = (some second, some ⟨3, some 1000⟩) :=
  ⟨⟨_, _, rfl, by decide, rfl, by decide⟩, rfl, by decide, rfl⟩

end Tunneld.RetryHint

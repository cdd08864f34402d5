import Tunneld.Lib.Lts
import Mathlib.Algebra.Order.Ring.Int

/-!
# What `Charge` and `TrafficExhausted` decide

`limit.Charge` counts a chunk in four windows at once: the bytes and the reads of the current
second, the bytes of the day and the bytes of the week.  The windows are aligned to the clock, so
that the instant of a chunk says which four counters are its own and when each window ends.
Instants are in nanoseconds since the epoch, and may be before it; counters may hold any number or
something else, caps may have either sign.  Go rounds the division of the seconds into days and
weeks towards zero.

`Charge` adds a chunk to the four counters of its instant and fails if one of them takes no more:
then the chunk is forwarded, and the caller is told of the error.  Otherwise the answer is a matter
of which of the new totals exceed their caps and when those windows end (`Law`).
`TrafficExhausted` reads the counters of the day and the week of both directions and compares with
`>=` what `Charge`, after its increment, compares with `>`.

## Main results

* `law_answer`: the answer is the one that is due for the totals it is told;
* `charge_total`: a charge without an error has added its chunk to each of the four counters;
* `charge_and_exhausted`: both calls decide as they should.
-/

namespace Tunneld.Traffic

/-- A second. -/
def second : Int := 1000000000

/-- `maxPacingWait`. -/
def maxPacingWait : Int := 5 * second

/-! ## The windows -/

/-- What is counted. -/
inductive Meter
  /-- `bw:{name}:{dir}:{second}`. -/
  | bytes
  /-- `pkt:{name}:{dir}:{second}`. -/
  | packets
  /-- `traf:{name}:{dir}:day:{day}`. -/
  | day
  /-- `traf:{name}:{dir}:week:{week}`. -/
  | week
  deriving DecidableEq

/-- The window of a unix second, as `chargeKeys` has it. -/
def window : Meter → Int → Int
  | .bytes, sec | .packets, sec => sec
  | .day, sec => sec.tdiv 86400
  | .week, sec => (sec.tdiv 86400).tdiv 7

/-- How long a window is, in seconds. -/
def span : Meter → Int
  | .bytes | .packets => 1
  | .day => 86400
  | .week => 7 * 86400

/-- The end of the window of an instant. -/
def ends (m : Meter) (now : Int) : Int := (window m (now / second) + 1) * span m * second

/-- How long it is to the end of the window: `secReset`, `dayReset` and `weekReset`. -/
def reset (m : Meter) (now : Int) : Int := ends m now - now

/-! ## The counters -/

/-- The direction of a copy, `"in"` or `"out"`. -/
inductive Dir
  | inbound
  | outbound
  deriving DecidableEq

/-- The counters of a tunnel have a key for each of these. -/
structure Key where
  meter : Meter
  dir : Dir
  window : Int
  deriving DecidableEq

/-- What is stored under a key. -/
inductive Cell
  | missing
  | int (v : Int)
  /-- Nothing that `INCRBY` takes for an integer; `strconv.ParseInt` may. -/
  | other (parsed : Option Int)
  deriving DecidableEq

/-- `atoiCap`. -/
def Cell.value : Cell → Int
  | .missing => 0
  | .int v => v
  | .other parsed => parsed.getD 0

/-- `INCRBY`: the new total, unless the value is no integer or the total is out of range. -/
def Cell.incrBy (c : Cell) (n : Int) : Option Int :=
  match c with
  | .other _ => none
  | .missing | .int _ =>
    if -9223372036854775808 ≤ c.value + n ∧ c.value + n ≤ 9223372036854775807 then
      some (c.value + n)
    else none

/-- The counters of a tunnel. -/
abbrev Store := Key → Cell

/-- The key of a counter at an instant. -/
def keyOf (dir : Dir) (now : Int) (m : Meter) : Key := ⟨m, dir, window m (now / second)⟩

/-- What a chunk adds to a counter: `INCRBY` its size, or `INCR`. -/
def weight (size : Int) : Meter → Int
  | .packets => 1
  | .bytes | .day | .week => size

/-- The total of a counter with a chunk of that instant. -/
def newTotal (store : Store) (dir : Dir) (now size : Int) (m : Meter) : Int :=
  (store (keyOf dir now m)).value + weight size m

/-- One increment of the pipeline. -/
def Store.incr (store : Store) (dir : Dir) (now size : Int) (m : Meter) : Store :=
  match (store (keyOf dir now m)).incrBy (weight size m) with
  | some v => Function.update store (keyOf dir now m) (.int v)
  | none => store

/-! ## The answers -/

/-- The caps of the limiter. -/
structure Caps where
  bwRate : Int
  pktCap : Int
  dayCap : Int
  weekCap : Int

/-- The cap of a counter. -/
def Caps.cap (caps : Caps) : Meter → Int
  | .bytes => caps.bwRate
  | .packets => caps.pktCap
  | .day => caps.dayCap
  | .week => caps.weekCap

/-- What `Charge` answers. -/
inductive Answer
  | proceed
  | wait (d : Int)
  /-- `ChargeKill`, and the window that is exhausted. -/
  | kill (window : String)
  deriving DecidableEq

/-- The longer of a wait and the time to the end of a window that is over. -/
def longer (wait : Int) (isOver : Bool) (reset : Int) : Int :=
  if isOver ∧ reset > wait then reset else wait

/-- The total is over its cap; the reads may have none. -/
def overCap (caps : Caps) (totals : Meter → Int) : Meter → Bool
  | .bytes => totals .bytes > caps.bwRate
  | .packets => caps.pktCap > 0 ∧ totals .packets > caps.pktCap
  | .day => totals .day > caps.dayCap
  | .week => totals .week > caps.weekCap

/-- How long to wait: to the end of the last window that is over. -/
def wait (caps : Caps) (now : Int) (totals : Meter → Int) : Int :=
  let wait := longer 0 (overCap caps totals .bytes || overCap caps totals .packets)
    (reset .bytes now)
  let wait := longer wait (overCap caps totals .day) (reset .day now)
  longer wait (overCap caps totals .week) (reset .week now)

/-- The answer of `Charge`, from the clock and the four totals it is told. -/
def answer (caps : Caps) (now : Int) (totals : Meter → Int) : Answer :=
  if overCap caps totals .week ∧ reset .week now > maxPacingWait then .kill "week"
  else if overCap caps totals .day ∧ reset .day now > maxPacingWait then .kill "day"
  else if wait caps now totals > 0 then .wait (wait caps now totals)
  else .proceed

/-- Every counter takes its increment. -/
def Counts (store : Store) (dir : Dir) (now size : Int) : Prop :=
  ∀ m ∈ [Meter.bytes, .packets, .day, .week],
    ((store (keyOf dir now m)).incrBy (weight size m)).isSome = true

instance (store : Store) (dir : Dir) (now size : Int) : Decidable (Counts store dir now size) :=
  inferInstanceAs (Decidable (∀ m ∈ _, _))

/-- `Charge`: the counters after it, and the answer, none if it returns an error (and
`ChargeProceed`).  The rest of the pipeline may fail too. -/
def charge (caps : Caps) (store : Store) (dir : Dir) (now size : Int) (rest : Bool) :
    Store × Option Answer :=
  let after := [Meter.bytes, .packets, .day, .week].foldl (fun s m => s.incr dir now size m) store
  (after, if Counts store dir now size ∧ rest then
    some (answer caps now (newTotal store dir now size)) else none)

/-- `TrafficExhausted`: whether the day is, and whether the week is. -/
def trafficExhausted (caps : Caps) (store : Store) (now : Int) : Bool × Bool :=
  let value (m : Meter) (dir : Dir) : Int := (store (keyOf dir now m)).value
  (value .day .inbound ≥ caps.dayCap ∨ value .day .outbound ≥ caps.dayCap,
    value .week .inbound ≥ caps.weekCap ∨ value .week .outbound ≥ caps.weekCap)

/-! ## The law of `Charge` -/

theorem ediv_le_tdiv (a : Int) {b : Int} (hb : 0 < b) : a / b ≤ a.tdiv b := by
  rw [Int.tdiv_eq_ediv, Int.sign_eq_one_of_pos hb]
  split <;> omega

theorem lt_ends (m : Meter) (now : Int) : now < ends m now := by
  have hday := ediv_le_tdiv (now / second) (b := 86400) (by decide)
  have hweek := ediv_le_tdiv ((now / second).tdiv 86400) (b := 7) (by decide)
  cases m <;> simp only [ends, window, span, second] at hday hweek ⊢ <;> omega

theorem reset_pos (m : Meter) (now : Int) : 0 < reset m now := by
  have hlt := lt_ends m now
  rw [reset]
  omega

/-- The end of the second is near. -/
theorem reset_bytes_le (now : Int) : reset .bytes now ≤ maxPacingWait := by
  simp only [reset, ends, window, span, maxPacingWait, second]
  omega

section Law

variable {caps : Caps} {now : Int} {totals : Meter → Int}

theorem le_longer (wait : Int) (isOver : Bool) (reset : Int) : wait ≤ longer wait isOver reset := by
  unfold longer
  split
  · rename_i h
    exact h.2.le
  · exact le_refl _

theorem reset_le_longer (wait reset : Int) : reset ≤ longer wait true reset := by
  unfold longer
  split
  · exact le_refl _
  · rename_i h
    simpa using h

theorem longer_cases (wait : Int) (isOver : Bool) (reset : Int) :
    longer wait isOver reset = wait ∨ isOver = true ∧ longer wait isOver reset = reset := by
  unfold longer
  split
  · rename_i h
    exact .inr ⟨h.1, rfl⟩
  · exact .inl rfl

/-- The wait reaches to the end of every window that is over. -/
theorem reset_le_wait {m : Meter} (h : overCap caps totals m = true) :
    reset m now ≤ wait caps now totals := by
  unfold wait
  cases m with
  | bytes =>
    rw [h, Bool.true_or]
    exact (reset_le_longer _ _).trans ((le_longer _ _ _).trans (le_longer _ _ _))
  | packets =>
    rw [h, Bool.or_true]
    exact (reset_le_longer _ _).trans ((le_longer _ _ _).trans (le_longer _ _ _))
  | day =>
    rw [h]
    exact (reset_le_longer _ _).trans (le_longer _ _ _)
  | week =>
    rw [h]
    exact reset_le_longer _ _

/-- There is no wait, or it ends with a window that is over. -/
theorem wait_cases (caps : Caps) (now : Int) (totals : Meter → Int) :
    wait caps now totals = 0 ∨
      ∃ m, overCap caps totals m = true ∧ wait caps now totals = reset m now := by
  unfold wait
  rcases longer_cases _ (overCap caps totals .week) (reset .week now) with hweek | ⟨hover, hweek⟩
  · rw [hweek]
    rcases longer_cases _ (overCap caps totals .day) (reset .day now) with hday | ⟨hover, hday⟩
    · rw [hday]
      rcases longer_cases 0 (overCap caps totals .bytes || overCap caps totals .packets)
        (reset .bytes now) with hsec | ⟨hover, hsec⟩
      · exact .inl hsec
      · rcases Bool.or_eq_true_iff.1 hover with hover | hover
        · exact .inr ⟨.bytes, hover, hsec⟩
        · exact .inr ⟨.packets, hover, hsec⟩
    · exact .inr ⟨.day, hover, hday⟩
  · exact .inr ⟨.week, hover, hweek⟩

theorem wait_pos_iff : 0 < wait caps now totals ↔ ∃ m, overCap caps totals m = true := by
  constructor
  · intro hpos
    rcases wait_cases caps now totals with hzero | ⟨m, hover, -⟩
    · omega
    · exact ⟨m, hover⟩
  · rintro ⟨m, hover⟩
    exact (reset_pos m now).trans_le (reset_le_wait hover)

/-- The window of a day or a week is over, and its end is too far to wait for. -/
def Killing (caps : Caps) (now : Int) (totals : Meter → Int) : Prop :=
  ∃ m, (m = .day ∨ m = .week) ∧ overCap caps totals m = true ∧ now + maxPacingWait < ends m now

theorem wait_le (h : ¬ Killing caps now totals) : wait caps now totals ≤ maxPacingWait := by
  rcases wait_cases caps now totals with hzero | ⟨m, hover, hwait⟩
  · rw [hzero]
    decide
  · rw [hwait]
    cases m with
    | bytes => exact reset_bytes_le now
    | packets => exact reset_bytes_le now
    | day =>
      by_contra hlt
      refine h ⟨.day, .inl rfl, hover, ?_⟩
      rw [reset] at hlt
      omega
    | week =>
      by_contra hlt
      refine h ⟨.week, .inr rfl, hover, ?_⟩
      rw [reset] at hlt
      omega

/-- The answer is `Kill`, or it depends on the wait. -/
theorem answer_cases (caps : Caps) (now : Int) (totals : Meter → Int) :
    (Killing caps now totals ∧ ∃ window, answer caps now totals = .kill window) ∨
    (¬ Killing caps now totals ∧ answer caps now totals =
      if wait caps now totals > 0 then .wait (wait caps now totals) else .proceed) := by
  have hfar (m : Meter) : reset m now > maxPacingWait ↔ now + maxPacingWait < ends m now := by
    rw [reset]
    omega
  unfold answer
  split
  · rename_i hweek
    exact .inl ⟨⟨.week, .inr rfl, hweek.1, (hfar .week).1 hweek.2⟩, _, rfl⟩
  · rename_i hweek
    split
    · rename_i hday
      exact .inl ⟨⟨.day, .inl rfl, hday.1, (hfar .day).1 hday.2⟩, _, rfl⟩
    · rename_i hday
      refine .inr ⟨?_, rfl⟩
      rintro ⟨m, rfl | rfl, hover, hlt⟩
      · exact hday ⟨hover, (hfar .day).2 hlt⟩
      · exact hweek ⟨hover, (hfar .week).2 hlt⟩

/-- Which answer is due: `Kill` if a day or a week is over and ends too late to wait for; otherwise
`Wait` if some window is over, for a wait that is not too long and reaches to the end of every such
window; otherwise `Proceed`. -/
structure Law (caps : Caps) (now : Int) (totals : Meter → Int) (a : Answer) : Prop where
  kill : (∃ window, a = .kill window) ↔ Killing caps now totals
  wait : ¬ Killing caps now totals →
    ((∃ d, a = .wait d) ↔ ∃ m, overCap caps totals m = true)
  proceed : ¬ Killing caps now totals →
    (a = .proceed ↔ ∀ m, overCap caps totals m = false)
  bounds : ∀ d, a = .wait d → 0 < d ∧ d ≤ maxPacingWait ∧
    ∀ m, overCap caps totals m = true → ends m now ≤ now + d

theorem law_answer (caps : Caps) (now : Int) (totals : Meter → Int) :
    Law caps now totals (answer caps now totals) := by
  have hnone : (∀ m, overCap caps totals m = false) ↔ ¬ ∃ m, overCap caps totals m = true := by
    simp
  rcases answer_cases caps now totals with ⟨hkill, w, hw⟩ | ⟨hkill, hw⟩
  · rw [hw]
    exact ⟨by simp [hkill], fun hno => absurd hkill hno, fun hno => absurd hkill hno,
      fun d hd => by cases hd⟩
  · rw [hw]
    split
    · rename_i hpos
      have hover := wait_pos_iff.1 hpos
      refine ⟨by simp [hkill], fun _ => by simp [hover], fun _ => ?_, fun d hd => ?_⟩
      · rw [hnone]
        simp [hover]
      · cases hd
        refine ⟨hpos, wait_le hkill, fun m hm => ?_⟩
        have hle : reset m now ≤ wait caps now totals := reset_le_wait hm
        rw [reset] at hle
        omega
    · rename_i hzero
      have hover : ¬ ∃ m, overCap caps totals m = true := fun hex => hzero (wait_pos_iff.2 hex)
      exact ⟨by simp [hkill], fun _ => by simp [hover], fun _ => by simp [hnone, hover],
        fun d hd => by cases hd⟩

end Law

/-! ## The calls -/

section Calls

variable {caps : Caps} {store : Store} {dir : Dir} {now size : Int} {m : Meter} {l : List Meter}

theorem Cell.incrBy_eq {c : Cell} {n v : Int} (h : c.incrBy n = some v) : v = c.value + n := by
  cases c with
  | missing => exact (Lts.taken h).2
  | int v => exact (Lts.taken h).2
  | other parsed => cases h

theorem keyOf_injective : Function.Injective (keyOf dir now) := by
  intro m m' h
  exact congrArg Key.meter h

theorem foldl_incr_of_notMem (h : m ∉ l) :
    (l.foldl (fun s m => s.incr dir now size m) store) (keyOf dir now m) =
      store (keyOf dir now m) := by
  induction l generalizing store with
  | nil => rfl
  | cons m' l ih =>
    rw [List.mem_cons, not_or] at h
    rw [List.foldl_cons, ih h.2, Store.incr]
    cases (store (keyOf dir now m')).incrBy (weight size m') with
    | some v => exact Function.update_of_ne (fun hkey => h.1 (keyOf_injective hkey)) ..
    | none => rfl

/-- A counter is incremented once, and the increments of the others do not touch it. -/
theorem foldl_incr (hl : l.Nodup) (hm : m ∈ l) {v : Int}
    (hv : (store (keyOf dir now m)).incrBy (weight size m) = some v) :
    (l.foldl (fun s m => s.incr dir now size m) store) (keyOf dir now m) = .int v := by
  induction l generalizing store with
  | nil => cases hm
  | cons m' l ih =>
    obtain ⟨hnot, hl⟩ := List.nodup_cons.1 hl
    rw [List.foldl_cons]
    by_cases hmm : m = m'
    · subst hmm
      rw [foldl_incr_of_notMem hnot, Store.incr, hv]
      exact Function.update_self ..
    · have hkeep : (store.incr dir now size m') (keyOf dir now m) = store (keyOf dir now m) :=
        foldl_incr_of_notMem (l := [m']) (by simpa using hmm)
      exact ih hl ((List.mem_cons.1 hm).resolve_left hmm) (hkeep ▸ hv)

/-- After a charge without an error the counters hold the new totals. -/
theorem charge_total (h : Counts store dir now size) (rest : Bool) (m : Meter) :
    (charge caps store dir now size rest).1 (keyOf dir now m) =
      .int (newTotal store dir now size m) := by
  have hm : m ∈ [Meter.bytes, .packets, .day, .week] := by cases m <;> decide
  obtain ⟨v, hv⟩ := Option.isSome_iff_exists.1 (h m hm)
  rw [newTotal, ← Cell.incrBy_eq hv]
  exact foldl_incr (by decide) hm hv

theorem charge_eq_some {rest : Bool} {a : Answer}
    (h : (charge caps store dir now size rest).2 = some a) :
    Counts store dir now size ∧ a = answer caps now (newTotal store dir now size) := by
  obtain ⟨hc, ha⟩ := Lts.taken h
  exact ⟨hc.1, ha⟩

/-- One more byte is too many exactly if the counter has reached its cap. -/
theorem reached_iff (caps : Caps) (store : Store) (now : Int) (hm : m = .day ∨ m = .week) :
    ((store (keyOf .inbound now m)).value ≥ caps.cap m ∨
        (store (keyOf .outbound now m)).value ≥ caps.cap m) ↔
      ∃ dir, overCap caps (newTotal store dir now 1) m = true := by
  have hover (dir : Dir) : overCap caps (newTotal store dir now 1) m = true ↔
      (store (keyOf dir now m)).value ≥ caps.cap m := by
    rcases hm with rfl | rfl
    · rw [overCap, decide_eq_true_iff, newTotal, weight, Caps.cap]
      omega
    · rw [overCap, decide_eq_true_iff, newTotal, weight, Caps.cap]
      omega
  constructor
  · rintro (hin | hout)
    · exact ⟨.inbound, (hover _).2 hin⟩
    · exact ⟨.outbound, (hover _).2 hout⟩
  · rintro ⟨dir, hdir⟩
    cases dir with
    | inbound => exact .inl ((hover _).1 hdir)
    | outbound => exact .inr ((hover _).1 hdir)

/-- **The decisions of the two calls.**  A charge that returns without an error has added the chunk
to the four counters, and its answer is the one that is due for the new totals; it returns without
an error if every counter takes the chunk and the rest of the pipeline succeeds.  The day or the
week is reported as exhausted exactly if in some direction one more byte would exceed its cap. -/
theorem charge_and_exhausted (caps : Caps) (store : Store) (now : Int) :
    (∀ dir size rest a, (charge caps store dir now size rest).2 = some a →
      (∀ m, (charge caps store dir now size rest).1 (keyOf dir now m) =
        .int (newTotal store dir now size m)) ∧
      Law caps now (newTotal store dir now size) a) ∧
    (∀ dir size, Counts store dir now size →
      ∃ a, (charge caps store dir now size true).2 = some a) ∧
    ((trafficExhausted caps store now).1 = true ↔
      ∃ dir, overCap caps (newTotal store dir now 1) .day = true) ∧
    ((trafficExhausted caps store now).2 = true ↔
      ∃ dir, overCap caps (newTotal store dir now 1) .week = true) := by
  refine ⟨fun dir size rest a ha => ?_, fun dir size hc => ?_, ?_, ?_⟩
  · obtain ⟨hc, rfl⟩ := charge_eq_some ha
    exact ⟨charge_total hc rest, law_answer ..⟩
  · exact ⟨_, if_pos ⟨hc, rfl⟩⟩
  · rw [← reached_iff caps store now (.inl rfl)]
    exact decide_eq_true_iff
  · rw [← reached_iff caps store now (.inr rfl)]
    exact decide_eq_true_iff

end Calls

/-- Two seconds before midnight, a chunk that is over the cap of the day: the copy waits for
midnight. -/
theorem charge_and_exhausted_before_midnight :
    (charge ⟨1000, 0, 5000, 90000⟩ (fun k => if k.meter = .day then .int 4990 else .missing)
      .inbound (86398 * second) 20 true).2 = some (.wait (2 * second)) ∧
    Law ⟨1000, 0, 5000, 90000⟩ (86398 * second)
      (newTotal (fun k => if k.meter = .day then .int 4990 else .missing) .inbound
        (86398 * second) 20) (.wait (2 * second)) := by
  have ha : (charge ⟨1000, 0, 5000, 90000⟩
      (fun k => if k.meter = .day then .int 4990 else .missing) .inbound (86398 * second) 20
        true).2 = some (.wait (2 * second)) := by decide +kernel
  exact ⟨ha, ((charge_and_exhausted _ _ _).1 _ _ _ _ ha).2⟩

end Tunneld.Traffic

import Tunneld.Limit.Traffic

/-!
# What the copies of a tunnel are charged

A copy charges its chunks after the epoch, for counters that only go up: its instants, the counts
and the caps are natural numbers.  Here are the windows and the answer of `Tunneld.Limit.Traffic`
for these.

## Main results

* `Meter.windowAt_eq`: the windows are intervals of one length;
* `Meter.windowAt_lt_of_ttl`: a counter outlasts its window;
* `not_over_of_proceed`, `ends_le_of_wait`: a chunk that is over some cap is not forwarded before
  the end of that window.  It is killed, or it waits at least that long.
-/

namespace Tunneld

/-! ## The windows -/

namespace Traffic

/-- What a chunk adds to a counter. -/
def Meter.weight (m : Meter) (size : Nat) : Nat := (Traffic.weight size m).toNat

/-- The window of an instant. -/
def Meter.windowAt (m : Meter) (t : Nat) : Nat := (window m ((t : Int) / second)).toNat

/-- How long a window is. -/
def Meter.span (m : Meter) : Nat := (Traffic.span m * second).toNat

/-- `bwWindowTTL`, `trafDayTTL` and `trafWeekTTL`, in milliseconds. -/
def Meter.ttl : Meter → Nat
  | .bytes | .packets => 3000
  | .day => 25 * 3600000
  | .week => (7 * 24 + 1) * 3600000

theorem Meter.weight_mono (m : Meter) : Monotone m.weight := by
  intro n n' h
  cases m with
  | packets => exact le_rfl
  | bytes | day | week => exact h

/-- After the epoch it does not matter how Go rounds. -/
theorem window_ofNat (m : Meter) (t : Nat) :
    window m ((t : Int) / second) = (t : Int) / second / Traffic.span m := by
  have hday : ((t : Int) / second).tdiv 86400 = (t : Int) / second / 86400 :=
    Int.tdiv_eq_ediv_of_nonneg (by rw [second]; omega)
  have hweek : ((t : Int) / second / 86400).tdiv 7 = (t : Int) / second / 86400 / 7 :=
    Int.tdiv_eq_ediv_of_nonneg (by rw [second]; omega)
  cases m <;> simp only [window, Traffic.span, hday, hweek] <;> omega

theorem Meter.windowAt_eq (m : Meter) (t : Nat) : m.windowAt t = t / m.span := by
  rw [windowAt, window_ofNat]
  cases m <;> simp only [span, Traffic.span, second, Int.reduceMul, Int.reduceToNat] <;> omega

theorem Meter.span_pos (m : Meter) : 0 < m.span := by cases m <;> decide

theorem Meter.windowAt_mono (m : Meter) : Monotone m.windowAt := by
  intro t t' h
  rw [windowAt_eq, windowAt_eq]
  exact Nat.div_le_div_right h

/-- The window of an instant ends where the next one starts. -/
theorem ends_ofNat (m : Meter) (t : Nat) : ends m t = ((m.windowAt t + 1) * m.span : Nat) := by
  rw [ends, Meter.windowAt, window_ofNat]
  cases m <;> simp only [Meter.span, Traffic.span, second, Int.reduceMul, Int.reduceToNat] <;> omega

/-- After the end of a window comes another one. -/
theorem Meter.windowAt_lt_of_ends_le {m : Meter} {t t' : Nat} (h : ends m t ≤ t') :
    m.windowAt t < m.windowAt t' := by
  rw [ends_ofNat, Int.ofNat_le] at h
  rw [m.windowAt_eq t', Nat.lt_iff_add_one_le, Nat.le_div_iff_mul_le m.span_pos]
  exact h

/-- A counter that is given its time to live in its window or later outlasts the window. -/
theorem Meter.windowAt_lt_of_ttl {m : Meter} {t now t' : Nat} (hle : t ≤ now)
    (h : now / 1000000 + m.ttl < t' / 1000000) : m.windowAt t < m.windowAt t' := by
  rw [windowAt_eq, windowAt_eq]
  cases m <;> simp only [ttl, span, Traffic.span, second, Int.reduceMul, Int.reduceToNat] at * <;>
  omega

end Traffic

/-! ## The answer -/

namespace Charge

open Traffic

/-- `wire.ChunkSize`. -/
def chunkSize : Nat := 16384

/-- The caps of the limiter. -/
structure Config where
  bwRate : Nat
  /-- No cap if it is 0. -/
  pktCap : Nat
  dayCap : Nat
  weekCap : Nat

/-- The caps, as `Charge` takes them. -/
def Config.caps (cfg : Config) : Caps := ⟨cfg.bwRate, cfg.pktCap, cfg.dayCap, cfg.weekCap⟩

/-- The cap of a counter. -/
def Config.cap (cfg : Config) (m : Meter) : Nat := (cfg.caps.cap m).toNat

/-- The counter has a cap. -/
def Config.capped (cfg : Config) : Meter → Bool
  | .packets => 0 < cfg.pktCap
  | .bytes | .day | .week => true

/-- The answer of `Charge`, from the clock and the four counts it has read. -/
def charge (cfg : Config) (now : Nat) (vals : Meter → Nat) : Answer :=
  answer cfg.caps now (fun m => vals m)

section Answer

variable {cfg : Config} {now : Nat} {vals : Meter → Nat} {m : Meter}

/-- A count over its cap, in natural numbers. -/
theorem overCap_iff :
    overCap cfg.caps (fun m => vals m) m = true ↔ cfg.capped m = true ∧ cfg.cap m < vals m := by
  cases m <;> simp [overCap, Config.caps, Config.capped, Config.cap, Caps.cap]

/-- A chunk proceeds only if no count is over its cap. -/
theorem not_over_of_proceed (h : charge cfg now vals = .proceed) (hm : cfg.capped m = true) :
    vals m ≤ cfg.cap m := by
  have hlaw := law_answer cfg.caps now (fun m => vals m)
  have hkill : ¬ Killing cfg.caps now (fun m => vals m) := by
    intro hkill
    obtain ⟨window, hw⟩ := hlaw.kill.2 hkill
    cases h.symm.trans hw
  have hover := (hlaw.proceed hkill).1 h m
  by_contra hlt
  rw [overCap_iff.2 ⟨hm, Nat.not_le.1 hlt⟩] at hover
  cases hover

/-- A chunk that waits does so to the end of every window that is over. -/
theorem ends_le_of_wait {d : Int} (h : charge cfg now vals = .wait d)
    (hm : cfg.capped m = true) (hover : cfg.cap m < vals m) : ends m now ≤ now + d :=
  ((law_answer ..).bounds d h).2.2 m (overCap_iff.2 ⟨hm, hover⟩)

end Answer

end Charge
end Tunneld

import Mathlib.Data.List.Induction
import Mathlib.Data.List.Nodup
import Tunneld.Lib.Utf8

/-!
# The log of cap hits

The first hit of a tunnel and reason is logged at once and starts a window; further hits in the
window are counted, and summed up in one line when the window ends.  It ends with the next hit of
its own after its length, with a hit of another key that sweeps the map, or with a flush.

The state is the map of windows, and Go's map order is any list of its keys without repetition
(`Enumerates`).  A run has the calls made, the map and the lines logged, each with the number of the
call that logged it.

The lines of one key can be told from the others since a key is read back from its map entry
(`splitKey_key`), so that each step is seen from one key (`retire_lines`).  `View` is what there is
to see then: windows that have ended, perhaps one that has not, and the lines they have logged.

## Main results

* `View.hit`, `View.retire`: a call, seen from one key;
* `hits_conserved`: every hit of a key is logged by its own call or counted in one summary.
-/

namespace Tunneld.Caplog

open Utf8 (Bytes ascii)

/-! ## The logger -/

inductive Level
  | info
  | warn
  deriving DecidableEq

structure Phrasing where
  first : Bytes
  repeated : Bytes
  level : Level
  deriving DecidableEq

/-- What a line says besides its text: a hit, or how many there were and from how many addresses
(and whether from more than were counted). -/
inductive Body
  | first (clientIP : Bytes) (fields : List Bytes)
  | summary (count : Nat) (ips : Nat) (ipsCapped : Bool)
  deriving DecidableEq

structure Line where
  level : Level
  msg : Bytes
  tunnel : Bytes
  reason : Bytes
  body : Body
  deriving DecidableEq

/-- `state`. -/
structure St where
  count : Nat
  ips : List Bytes
  ipsCapped : Bool
  windowStart : Int
  deriving DecidableEq

abbrev States := Bytes → Option St

/-- The table of texts, and the length of a window. -/
structure Config where
  phrasings : Bytes → Option Phrasing
  window : Int

def maxTrackedIPs : Nat := 1024

def newState (now : Int) (clientIP : Bytes) : St :=
  ⟨1, if clientIP ≠ [] then [clientIP] else [], false, now⟩

/-- A further hit in the window. -/
def St.again (st : St) (clientIP : Bytes) : St :=
  let st := { st with count := st.count + 1 }
  if clientIP ≠ [] then
    if st.ips.length < maxTrackedIPs then { st with ips := st.ips.insert clientIP }
    else { st with ipsCapped := true }
  else st

def key (tunnel reason : Bytes) : Bytes := tunnel ++ 124 :: reason

/-- The parts of a key before and after its first bar. -/
def splitKey (k : Bytes) : Bytes × Bytes := (k.takeWhile (· ≠ 124), (k.dropWhile (· ≠ 124)).tail)

section Model

variable (cfg : Config)

def describe (tunnel reason : Bytes) : Phrasing :=
  let reason :=
    if reason = ascii "ban".toList ∧ tunnel ≠ [] then ascii "ban-tunnel".toList
    else if reason = ascii "csr-mismatch".toList ∧ tunnel = [] then
      ascii "csr-mismatch-enroll".toList
    else reason
  (cfg.phrasings reason).getD ⟨ascii "refused a request: ".toList ++ reason,
    ascii "refused requests repeatedly within one minute: ".toList ++ reason, .warn⟩

def logImmediate (tunnel reason clientIP : Bytes) (fields : List Bytes) : Line :=
  let p := describe cfg tunnel reason
  ⟨p.level, p.first, tunnel, reason, .first clientIP fields⟩

def emitSummary (tunnel reason : Bytes) (st : St) : List Line :=
  if st.count ≤ 1 then []
  else
    let p := describe cfg tunnel reason
    [⟨p.level, p.repeated, tunnel, reason, .summary st.count st.ips.length st.ipsCapped⟩]

/-- The loop of `Flush` and `sweep` over the map, in the order given: the entries that `p` selects
are summed up and deleted. -/
def retire (p : Bytes → St → Bool) (order : List Bytes) (states : States) : List Line × States :=
  (order.flatMap fun k => ((states k).filter (p k)).elim [] fun st =>
      emitSummary cfg (splitKey k).1 (splitKey k).2 st,
    fun k => (states k).filter fun st => !p k st)

def expired (now : Int) (st : St) : Bool := cfg.window ≤ now - st.windowStart

def sweep (now : Int) (except : Bytes) : List Bytes → States → List Line × States :=
  retire cfg fun k st => k ≠ except && expired cfg now st

/-- The `switch` of `Hit`. -/
def hitKey (now : Int) (tunnel reason clientIP : Bytes) (fields : List Bytes) :
    Option St → List Line × St
  | none => ([logImmediate cfg tunnel reason clientIP fields], newState now clientIP)
  | some st =>
    if expired cfg now st then
      (emitSummary cfg tunnel reason st ++ [logImmediate cfg tunnel reason clientIP fields],
        newState now clientIP)
    else ([], st.again clientIP)

/-- The call of `Hit` without the sweep it ends with. -/
def hit (now : Int) (tunnel reason clientIP : Bytes) (fields : List Bytes) (states : States) :
    List Line × States :=
  let p := hitKey cfg now tunnel reason clientIP fields (states (key tunnel reason))
  (p.1, Function.update states (key tunnel reason) (some p.2))

end Model

/-! ## Runs -/

inductive Call
  | hit (now : Int) (tunnel reason clientIP : Bytes) (fields : List Bytes)
  | flush

/-- An order in which the map may be gone through. -/
def Enumerates (order : List Bytes) (states : States) : Prop :=
  order.Nodup ∧ ∀ k, k ∈ order ↔ (states k).isSome = true

/-- The calls, the map after them and the lines they have logged, with the number of the call. -/
inductive Run (cfg : Config) : List Call → States → List (Nat × Line) → Prop
  | start : Run cfg [] (fun _ => none) []
  | hit {calls states log now}
      {tunnel reason clientIP fields order}
      (h : Run cfg calls states log)
      (horder : Enumerates order (hit cfg now tunnel reason clientIP fields states).2) :
      Run cfg (calls ++ [.hit now tunnel reason clientIP fields])
        (sweep cfg now (key tunnel reason) order
          (hit cfg now tunnel reason clientIP fields states).2).2
        (log ++ ((hit cfg now tunnel reason clientIP fields states).1 ++
          (sweep cfg now (key tunnel reason) order
            (hit cfg now tunnel reason clientIP fields states).2).1).map (calls.length, ·))
  | flush {calls states log order}
      (h : Run cfg calls states log) (horder : Enumerates order states) :
      Run cfg (calls ++ [.flush]) (retire cfg (fun _ _ => true) order states).2
        (log ++ (retire cfg (fun _ _ => true) order states).1.map (calls.length, ·))

/-! ## What there is to see of one key -/

/-- A hit: the number of its call, when it was and what came with it. -/
structure Hit where
  index : Nat
  time : Int
  clientIP : Bytes
  fields : List Bytes

/-- The hits of a window, of which there is at least one. -/
structure Window where
  first : Hit
  others : List Hit

def Window.hits (w : Window) : List Hit := w.first :: w.others

/-- What a line of a key says: a hit, logged by a call, or how many there were. -/
inductive Seen
  | first (index : Nat) (clientIP : Bytes) (fields : List Bytes)
  | summary (count : Nat)

def see (l : Nat × Line) : Seen :=
  match l.2.body with
  | .first clientIP fields => .first l.1 clientIP fields
  | .summary count _ _ => .summary count

/-- The line of the first hit. -/
def Window.opening (w : Window) : List Seen := [.first w.first.index w.first.clientIP w.first.fields]

/-- The summary of a window that has ended. -/
def Window.closing (w : Window) : List Seen :=
  if 1 < w.hits.length then [.summary w.hits.length] else []

/-- The time of a call, if it is a hit. -/
def Call.time : Call → Option Int
  | .hit now .. => some now
  | .flush => none

def times (calls : List Call) : List Int := calls.filterMap Call.time

section OneKey

variable (tunnel reason : Bytes)

def own (l : Line) : Bool := l.tunnel = tunnel ∧ l.reason = reason

/-- The call as a hit of the key. -/
def hitOf (index : Nat) : Call → Option Hit
  | .hit now t r clientIP fields =>
    if t = tunnel ∧ r = reason then some ⟨index, now, clientIP, fields⟩ else none
  | .flush => none

def hitsOf (calls : List Call) : List Hit :=
  calls.zipIdx.filterMap fun p => hitOf tunnel reason p.2 p.1

/-- The lines of the key. -/
def linesOf (log : List (Nat × Line)) : List Seen :=
  (log.filter fun l => own tunnel reason l.2).map see

end OneKey

/-- There is a flush between two calls. -/
def FlushBetween (calls : List Call) (i j : Nat) : Prop :=
  ∃ n, i < n ∧ n < j ∧ calls[n]? = some .flush

/-- The windows start at least the length of a window apart, or a flush lies between them. -/
def Apart (cfg : Config) (calls : List Call) (w v : Window) : Prop :=
  cfg.window ≤ v.first.time - w.first.time ∨ FlushBetween calls w.first.index v.first.index

/-- A window that starts with the next call will be apart from this one. -/
def Past (cfg : Config) (calls : List Call) (w : Window) : Prop :=
  (∃ now ∈ times calls, cfg.window ≤ now - w.first.time) ∨
    FlushBetween calls w.first.index calls.length

/-- The entry of the map is that of the window. -/
inductive Tracks : Option St → Option Window → Prop
  | none : Tracks none none
  | some {st w} (hcount : st.count = w.hits.length)
      (hstart : st.windowStart = w.first.time) : Tracks (some st) (some w)

/-- The windows of a key, those that have ended and the one that has not. -/
structure View (cfg : Config) (tunnel reason : Bytes) (calls : List Call) (entry : Option St)
    (seen : List Seen) (done : List Window) (cur : Option Window) : Prop where
  hits : (done ++ cur.toList).flatMap Window.hits = hitsOf tunnel reason calls
  lines : seen = done.flatMap (fun w => w.opening ++ w.closing) ++ cur.toList.flatMap Window.opening
  tracks : Tracks entry cur
  apart : (done ++ cur.toList).Pairwise (Apart cfg calls)
  past : ∀ w ∈ done, Past cfg calls w

/-! ## Keys -/

theorem splitKey_key {tunnel : Bytes} (h : 124 ∉ tunnel) (reason : Bytes) :
    splitKey (key tunnel reason) = (tunnel, reason) := by
  have hne : ∀ b ∈ tunnel, (decide (b ≠ 124)) = true := fun b hb =>
    decide_eq_true fun hb' => h (hb' ▸ hb)
  rw [splitKey, key, List.takeWhile_append_of_pos hne, List.dropWhile_append_of_pos hne,
    List.takeWhile_cons_of_neg (by simp), List.dropWhile_cons_of_neg (by simp), List.append_nil]
  rfl

theorem key_inj {t t' r r' : Bytes} (h : 124 ∉ t) (h' : 124 ∉ t') (heq : key t r = key t' r') :
    t = t' ∧ r = r' := by
  have := congrArg splitKey heq
  rw [splitKey_key h, splitKey_key h'] at this
  exact Prod.mk.inj this

/-- Every entry of the map is one of a tunnel without a bar. -/
def Keyed (states : States) : Prop :=
  ∀ k, (states k).isSome = true → ∃ t r, 124 ∉ t ∧ k = key t r

section Retire

variable {cfg : Config} {tunnel reason : Bytes} {states : States} {p : Bytes → St → Bool}
  {order : List Bytes}

theorem own_emitSummary (st : St) {t r : Bytes} :
    (emitSummary cfg t r st).filter (own tunnel reason) =
      if t = tunnel ∧ r = reason then emitSummary cfg t r st else [] := by
  rw [emitSummary]
  split
  · split <;> rfl
  · split
    · next h => simp [own, h]
    · next h => simp [own, h]

/-- Whatever the order, the loop logs for a key what it does with its entry. -/
theorem retire_lines (hkeyed : Keyed states) (horder : Enumerates order states)
    (htunnel : 124 ∉ tunnel) :
    (retire cfg p order states).1.filter (own tunnel reason) =
      ((states (key tunnel reason)).filter (p (key tunnel reason))).elim []
        (emitSummary cfg tunnel reason) := by
  have hsingle : ∀ (l : List Bytes) (k : Bytes) (g : List Line), l.Nodup →
      (l.flatMap fun k' => if k' = k then g else []) = if k ∈ l then g else [] := by
    intro l k g hl
    induction l with
    | nil => rfl
    | cons k' l ih =>
      obtain ⟨hnot, hl⟩ := List.nodup_cons.1 hl
      rw [List.flatMap_cons, ih hl]
      by_cases hk : k' = k
      · subst hk
        simp [hnot]
      · simp [hk, Ne.symm hk]
  have hlines : ∀ k ∈ order, (((states k).filter (p k)).elim [] fun st =>
      emitSummary cfg (splitKey k).1 (splitKey k).2 st).filter (own tunnel reason) =
        if k = key tunnel reason then ((states (key tunnel reason)).filter
          (p (key tunnel reason))).elim [] (emitSummary cfg tunnel reason) else [] := by
    intro k hk
    obtain ⟨t, r, ht, rfl⟩ := hkeyed k ((horder.2 k).1 hk)
    rw [splitKey_key ht]
    by_cases heq : t = tunnel ∧ r = reason
    · obtain ⟨rfl, rfl⟩ := heq
      rw [if_pos rfl]
      cases (states (key t r)).filter (p (key t r)) with
      | none => rfl
      | some st => exact (own_emitSummary st).trans (if_pos ⟨rfl, rfl⟩)
    · rw [if_neg fun h => heq (key_inj ht htunnel h)]
      cases (states (key t r)).filter (p (key t r)) with
      | none => rfl
      | some st => exact (own_emitSummary st).trans (if_neg heq)
  rw [retire, List.filter_flatMap, List.flatMap_congr hlines, hsingle _ _ _ horder.1]
  split
  · rfl
  · next h =>
    rw [horder.2, Option.not_isSome_iff_eq_none] at h
    rw [h]
    rfl

end Retire

/-! ## One call, seen from one key -/

section Steps

variable {cfg : Config} {tunnel reason : Bytes} {calls : List Call} {entry : Option St}
  {seen : List Seen} {done : List Window} {cur : Option Window} {c : Call} {w v : Window}

theorem hitsOf_append (c : Call) : hitsOf tunnel reason (calls ++ [c]) =
    hitsOf tunnel reason calls ++ (hitOf tunnel reason calls.length c).toList := by
  rw [hitsOf, List.zipIdx_append, List.filterMap_append, hitsOf]
  cases h : hitOf tunnel reason calls.length c <;> simp [h]

theorem index_lt {h : Hit} (hh : h ∈ hitsOf tunnel reason calls) : h.index < calls.length := by
  obtain ⟨⟨c, i⟩, hp, hi⟩ := List.mem_filterMap.1 hh
  have hlt := (List.mem_zipIdx' hp).1
  cases c with
  | hit now t r clientIP fields =>
    obtain ⟨-, heq⟩ := Option.ite_none_right_eq_some.1 hi
    cases heq
    exact hlt
  | flush => cases hi

theorem FlushBetween.append {i j : Nat} (h : FlushBetween calls i j) (c : Call) :
    FlushBetween (calls ++ [c]) i j := by
  obtain ⟨n, hi, hj, hflush⟩ := h
  refine ⟨n, hi, hj, ?_⟩
  rw [List.getElem?_append_left (List.getElem?_eq_some_iff.1 hflush).1, hflush]

theorem Apart.append (h : Apart cfg calls w v) (c : Call) : Apart cfg (calls ++ [c]) w v :=
  h.imp_right fun h => h.append c

theorem Past.append (h : Past cfg calls w) (c : Call) : Past cfg (calls ++ [c]) w := by
  rcases h with ⟨now, hnow, hle⟩ | h
  · refine .inl ⟨now, ?_, hle⟩
    rw [times, List.filterMap_append]
    exact List.mem_append_left _ hnow
  · obtain ⟨n, hi, hj, h⟩ := h.append c
    exact .inr ⟨n, hi, by simp; omega, h⟩

/-- A window that starts with a hit that is not before the others is apart from those past. -/
theorem Past.apart (h : Past cfg calls w) (hv : v.first.index = calls.length)
    (htime : ∀ now ∈ times calls, now ≤ v.first.time) : Apart cfg calls w v := by
  rcases h with ⟨now, hnow, hle⟩ | h
  · have := htime now hnow
    exact .inl (by omega)
  · exact .inr (hv ▸ h)

theorem View.skip (h : View cfg tunnel reason calls entry seen done cur)
    (hc : hitOf tunnel reason calls.length c = none) :
    View cfg tunnel reason (calls ++ [c]) entry seen done cur where
  hits := by rw [h.hits, hitsOf_append, hc, Option.toList_none, List.append_nil]
  lines := h.lines
  tracks := h.tracks
  apart := h.apart.imp fun h => h.append c
  past w hw := (h.past w hw).append c

theorem see_emitSummary {st : St} (h : st.count = w.hits.length) (i : Nat) :
    (emitSummary cfg tunnel reason st).map (fun l => see (i, l)) = w.closing := by
  rw [emitSummary, Window.closing, h]
  by_cases hlen : 1 < w.hits.length
  · rw [if_neg (Nat.not_le.2 hlen), if_pos hlen]
    rfl
  · rw [if_pos (Nat.not_lt.1 hlen), if_neg hlen]
    rfl

theorem View.close {st : St} (h : View cfg tunnel reason calls (some st) seen done (some w))
    (hw : Past cfg calls w) (i : Nat) : View cfg tunnel reason calls none
      (seen ++ (emitSummary cfg tunnel reason st).map fun l => see (i, l)) (done ++ [w]) none := by
  obtain ⟨hhits, hlines, ⟨⟩ | ⟨hcount, -⟩, hapart, hpast⟩ := h
  refine ⟨by simpa using hhits, ?_, .none, by simpa using hapart, ?_⟩
  · rw [see_emitSummary hcount, hlines]
    simp
  · exact fun v hv => (List.mem_append.1 hv).elim (hpast v) fun hv => List.mem_singleton.1 hv ▸ hw

/-- A hit that starts a window: the windows before it are past, or it is their length after them. -/
theorem View.begin {st : St} {hit : Hit} (hhits : done.flatMap Window.hits = hitsOf tunnel reason calls)
    (hlines : seen = done.flatMap fun w => w.opening ++ w.closing)
    (hapart : done.Pairwise (Apart cfg calls))
    (hpast : ∀ w ∈ done, Past cfg calls w ∨ cfg.window ≤ hit.time - w.first.time)
    (hc : hitOf tunnel reason calls.length c = some hit) (hindex : hit.index = calls.length)
    (hnow : c.time = some hit.time) (htime : ∀ now ∈ times calls, now ≤ hit.time)
    (hcount : st.count = 1) (hstart : st.windowStart = hit.time) :
    View cfg tunnel reason (calls ++ [c]) (some st)
      (seen ++ [.first hit.index hit.clientIP hit.fields]) done (some ⟨hit, []⟩) := by
  refine ⟨?_, ?_, .some hcount hstart, ?_, fun w hw => ?_⟩
  · rw [hitsOf_append, ← hhits, hc]
    simp [Window.hits]
  · rw [hlines]
    simp [Window.opening]
  · refine List.pairwise_append.2 ⟨hapart.imp fun h => h.append c, List.pairwise_singleton _ _, ?_⟩
    rintro w hw v hv
    obtain rfl := List.mem_singleton.1 hv
    rcases hpast w hw with hw | hw
    · exact (hw.apart (v := ⟨hit, []⟩) hindex htime).append c
    · exact .inl hw
  · rcases hpast w hw with hw | hw
    · exact hw.append c
    · refine .inl ⟨hit.time, ?_, hw⟩
      rw [times, List.filterMap_append]
      exact List.mem_append_right _ (by simp [hnow])

theorem View.add {st st' : St} {hit : Hit}
    (h : View cfg tunnel reason calls (some st) seen done (some w))
    (hc : hitOf tunnel reason calls.length c = some hit) (hcount : st'.count = st.count + 1)
    (hstart : st'.windowStart = st.windowStart) :
    View cfg tunnel reason (calls ++ [c]) (some st') seen done
      (some ⟨w.first, w.others ++ [hit]⟩) := by
  obtain ⟨hhits, hlines, ⟨⟩ | ⟨hcount', hstart'⟩, hapart, hpast⟩ := h
  refine ⟨?_, hlines, .some ?_ (hstart.trans hstart'), ?_, fun w hw => (hpast w hw).append c⟩
  · rw [hitsOf_append, ← hhits, hc]
    simp [Window.hits]
  · rw [hcount, hcount']
    simp [Window.hits]
  · obtain ⟨hdone, -, hcur⟩ := List.pairwise_append.1 hapart
    refine List.pairwise_append.2 ⟨hdone.imp fun h => h.append c, List.pairwise_singleton _ _, ?_⟩
    rintro v hv u hu
    obtain rfl := List.mem_singleton.1 hu
    exact (hcur v hv w (List.mem_singleton.2 rfl)).append c

/-- A loop over the map ends the window of the key or leaves it as it is. -/
theorem View.retire (h : View cfg tunnel reason calls entry seen done cur) (q : St → Bool)
    (hpast : ∀ st w, entry = some st → cur = some w → st.windowStart = w.first.time →
      q st = true → Past cfg calls w) (i : Nat) :
    ∃ done' cur', View cfg tunnel reason calls (entry.filter fun st => !q st)
      (seen ++ ((entry.filter q).elim [] (emitSummary cfg tunnel reason)).map fun l => see (i, l))
      done' cur' := by
  cases h.tracks with
  | none => exact ⟨done, none, by simpa using h⟩
  | @some st w hcount hstart =>
    rw [Option.filter_some, Option.filter_some]
    cases hq : q st with
    | false => exact ⟨done, some w, by simpa using h⟩
    | true => exact ⟨done ++ [w], none, h.close (hpast st w rfl rfl hstart hq) i⟩

/-- A hit of the key, before the sweep it ends with. -/
theorem View.hit (h : View cfg tunnel reason calls entry seen done cur) {now : Int}
    {clientIP : Bytes} {fields : List Bytes} (htime : ∀ τ ∈ times calls, τ ≤ now) :
    ∃ done' cur', View cfg tunnel reason (calls ++ [.hit now tunnel reason clientIP fields])
      (some (hitKey cfg now tunnel reason clientIP fields entry).2)
      (seen ++ (hitKey cfg now tunnel reason clientIP fields entry).1.map
        fun l => see (calls.length, l)) done' cur' := by
  have hc : hitOf tunnel reason calls.length (.hit now tunnel reason clientIP fields) =
      some ⟨calls.length, now, clientIP, fields⟩ := if_pos ⟨rfl, rfl⟩
  have h' := h
  obtain ⟨hhits, hlines, htracks, hapart, hpast⟩ := h'
  cases htracks with
  | none =>
    rw [Option.toList_none, List.append_nil] at hhits hapart
    rw [Option.toList_none, List.flatMap_nil, List.append_nil] at hlines
    exact ⟨done, _, .begin hhits hlines hapart (fun w hw => .inl (hpast w hw)) hc rfl rfl htime rfl rfl⟩
  | @some st w hcount hstart =>
    rw [hitKey]
    split
    · next hexpired =>
      refine ⟨done ++ [w], some ⟨⟨calls.length, now, clientIP, fields⟩, []⟩, ?_⟩
      rw [List.map_append, see_emitSummary hcount, ← List.append_assoc]
      refine .begin (by simpa using hhits) (by simp [hlines]) (by simpa using hapart) ?_ hc rfl rfl
        htime rfl rfl
      intro v hv
      rcases List.mem_append.1 hv with hv | hv
      · exact .inl (hpast v hv)
      · obtain rfl := List.mem_singleton.1 hv
        exact .inr (hstart ▸ of_decide_eq_true hexpired)
    · rw [List.map_nil, List.append_nil]
      refine ⟨done, _, h.add hc ?_ ?_⟩ <;>
        · rw [St.again]
          dsimp only
          split
          · split <;> rfl
          · rfl

end Steps

/-! ## Runs, seen from one key -/

section Runs

variable {cfg : Config} {calls : List Call} {states : States} {log : List (Nat × Line)}
  {tunnel reason : Bytes}

/-- The calls are of tunnels without a bar, at times that do not decrease. -/
def Regular (calls : List Call) : Prop :=
  (∀ c ∈ calls, ∀ now t r clientIP fields, c = .hit now t r clientIP fields → 124 ∉ t) ∧
    (times calls).Pairwise (· ≤ ·)

theorem Keyed.retire (h : Keyed states) (p : Bytes → St → Bool) (order : List Bytes) :
    Keyed (retire cfg p order states).2 := by
  intro k hk
  refine h k ?_
  cases hstate : states k with
  | none => simp [Caplog.retire, hstate] at hk
  | some st => rfl

theorem Keyed.hit (h : Keyed states) {t : Bytes} (ht : 124 ∉ t) (now : Int) (r clientIP : Bytes)
    (fields : List Bytes) : Keyed (hit cfg now t r clientIP fields states).2 := by
  intro k hk
  by_cases hkey : k = key t r
  · exact ⟨t, r, ht, hkey⟩
  · refine h k ?_
    simpa only [Caplog.hit, Function.update_of_ne hkey] using hk

theorem hitKey_own {now : Int} {t r clientIP : Bytes} {fields : List Bytes} {e : Option St} :
    (hitKey cfg now t r clientIP fields e).1.filter (own tunnel reason) =
      if t = tunnel ∧ r = reason then (hitKey cfg now t r clientIP fields e).1 else [] := by
  have hfirst : [logImmediate cfg t r clientIP fields].filter (own tunnel reason) =
      if t = tunnel ∧ r = reason then [logImmediate cfg t r clientIP fields] else [] := by
    simp [List.filter_cons, own, logImmediate]
  cases e with
  | none => exact hfirst
  | some st =>
    rw [hitKey]
    split
    · rw [List.filter_append, own_emitSummary, hfirst]
      split <;> rfl
    · split <;> rfl

theorem linesOf_append (log : List (Nat × Line)) (i : Nat) (l : List Line) :
    linesOf tunnel reason (log ++ l.map (i, ·)) =
      linesOf tunnel reason log ++ (l.filter (own tunnel reason)).map fun m => see (i, m) := by
  rw [linesOf, List.filter_append, List.map_append, List.filter_map, List.map_map]
  rfl

theorem Regular.of_append {c : Call} (h : Regular (calls ++ [c])) : Regular calls := by
  refine ⟨fun d hd => h.1 d (List.mem_append_left _ hd), ?_⟩
  have := h.2
  rw [times, List.filterMap_append] at this
  exact (List.pairwise_append.1 this).1

theorem Run.view (h : Run cfg calls states log) (hreg : Regular calls) :
    Keyed states ∧ ∀ tunnel reason, 124 ∉ tunnel →
      ∃ done cur, View cfg tunnel reason calls (states (key tunnel reason))
        (linesOf tunnel reason log) done cur := by
  induction h with
  | start =>
    refine ⟨fun k hk => (by cases hk), fun tunnel reason _ => ?_⟩
    exact ⟨[], none, rfl, rfl, .none, .nil, by simp⟩
  | @hit calls states log now t r clientIP fields order h horder ih =>
    obtain ⟨hkeyed, ih⟩ := ih hreg.of_append
    have ht : 124 ∉ t := hreg.1 _ (by simp) now t r clientIP fields rfl
    have hkeyed' : Keyed (Caplog.hit cfg now t r clientIP fields states).2 :=
      hkeyed.hit ht now r clientIP fields
    have htime : ∀ τ ∈ times calls, τ ≤ now := by
      have := hreg.2
      rw [times, List.filterMap_append] at this
      exact fun τ hτ => (List.pairwise_append.1 this).2.2 τ hτ now List.mem_cons_self
    refine ⟨hkeyed'.retire _ _, fun tunnel reason htunnel => ?_⟩
    obtain ⟨done, cur, hview⟩ := ih tunnel reason htunnel
    rw [linesOf_append, List.filter_append, sweep, retire_lines hkeyed' horder htunnel]
    by_cases hown : t = tunnel ∧ r = reason
    · obtain ⟨rfl, rfl⟩ := hown
      -- the sweep passes over the key of the hit
      obtain ⟨done', cur', hhit⟩ := hview.hit htime
      refine ⟨done', cur', ?_⟩
      simpa [Caplog.retire, Caplog.hit, hitKey_own, Option.filter_some] using hhit
    · have hne : key tunnel reason ≠ key t r := fun h =>
        hown ((key_inj htunnel ht h).imp Eq.symm Eq.symm)
      have hskip := hview.skip (c := .hit now t r clientIP fields) (if_neg hown)
      have hnow : now ∈ times (calls ++ [.hit now t r clientIP fields]) := by
        rw [times, List.filterMap_append]
        exact List.mem_append_right _ List.mem_cons_self
      obtain ⟨done', cur', hretire⟩ := hskip.retire (expired cfg now)
        (fun st w _ _ hstart hq => .inl ⟨now, hnow, hstart ▸ of_decide_eq_true hq⟩) calls.length
      refine ⟨done', cur', ?_⟩
      simpa [Caplog.retire, Caplog.hit, hitKey_own, hown, hne] using hretire
  | @flush calls states log order h horder ih =>
    obtain ⟨hkeyed, ih⟩ := ih hreg.of_append
    refine ⟨hkeyed.retire _ _, fun tunnel reason htunnel => ?_⟩
    obtain ⟨done, cur, hview⟩ := ih tunnel reason htunnel
    rw [linesOf_append, retire_lines hkeyed horder htunnel]
    refine (hview.skip (c := .flush) rfl).retire (fun _ => true) (fun st w _ hcur _ _ => .inr ?_) _
    have hfirst : w.first ∈ hitsOf tunnel reason calls := by
      rw [← hview.hits, hcur]
      exact List.mem_flatMap.2 ⟨w, by simp, List.mem_cons_self⟩
    exact ⟨calls.length, index_lt hfirst, by simp, by simp⟩

/-- **Every hit is logged or counted.**  The hits of a key are divided into windows, which start at
least the length of a window apart if no flush lies between them.  Each window has logged its first
hit in the call that made it, and those that have ended a summary with the number of their hits, if
they are several; after a flush all have ended. -/
theorem hits_conserved (h : Run cfg calls states log) (hreg : Regular calls)
    (htunnel : 124 ∉ tunnel) : ∃ done cur,
      (done ++ Option.toList cur).flatMap Window.hits = hitsOf tunnel reason calls ∧
      (done ++ cur.toList).Pairwise (Apart cfg calls) ∧
      linesOf tunnel reason log =
        done.flatMap (fun w => w.opening ++ w.closing) ++ cur.toList.flatMap Window.opening ∧
      (calls.getLast? = some .flush → cur = none) := by
  obtain ⟨done, cur, hview⟩ := (h.view hreg).2 tunnel reason htunnel
  refine ⟨done, cur, hview.hits, hview.apart, hview.lines, fun hlast => ?_⟩
  have hnone : states (key tunnel reason) = none := by
    cases h with
    | start => rfl
    | hit h _ => simp at hlast
    | flush h _ => simp [Caplog.retire]
  have htracks := hview.tracks
  rw [hnone] at htracks
  cases htracks
  rfl

theorem Enumerates.retire (p : Bytes → St → Bool) {order : List Bytes} {states : States}
    (h : Enumerates order states) (order' : List Bytes) :
    ∃ order'', Enumerates order'' (retire cfg p order' states).2 := by
  refine ⟨order.filter fun k => ((states k).filter fun st => !p k st).isSome, h.1.filter _, fun k => ?_⟩
  rw [List.mem_filter, h.2]
  cases hk : states k <;> simp [Caplog.retire, hk]

/-- Whatever is called, there are orders in which the map is gone through. -/
theorem exists_run (cfg : Config) (calls : List Call) :
    ∃ states log order, Run cfg calls states log ∧ Enumerates order states := by
  induction calls using List.reverseRecOn with
  | nil => exact ⟨_, _, [], .start, List.nodup_nil, by simp⟩
  | append_singleton calls c ih =>
    obtain ⟨states, log, order, hrun, horder⟩ := ih
    cases c with
    | flush =>
      obtain ⟨order', horder'⟩ := horder.retire (fun _ _ => true) order
      exact ⟨_, _, order', .flush hrun horder, horder'⟩
    | hit now t r clientIP fields =>
      have hhit : Enumerates (order.insert (key t r)) (hit cfg now t r clientIP fields states).2 := by
        refine ⟨horder.1.insert, fun k => ?_⟩
        rw [List.mem_insert_iff, horder.2, hit]
        by_cases hk : k = key t r <;> simp [hk]
      obtain ⟨order', horder'⟩ := hhit.retire _ _
      exact ⟨_, _, order', .hit hrun hhit, horder'⟩

/-- Two hits and a flush. -/
theorem hits_conserved_two : ∃ states log,
    Run ⟨fun _ => none, 60⟩ [.hit 0 [1] [2] [] [], .hit 5 [1] [2] [] [], .flush] states log ∧
    ∃ done : List Window, done.flatMap Window.hits =
        hitsOf [1] [2] [.hit 0 [1] [2] [] [], .hit 5 [1] [2] [] [], .flush] ∧
      linesOf [1] [2] log = done.flatMap fun w => w.opening ++ w.closing := by
  obtain ⟨states, log, -, hrun, -⟩ := exists_run ⟨fun _ => none, 60⟩
    [.hit 0 [1] [2] [] [], .hit 5 [1] [2] [] [], .flush]
  have hreg : Regular [.hit 0 [1] [2] [] [], .hit 5 [1] [2] [] [], .flush] := by
    refine ⟨?_, by decide⟩
    rintro c hc now t r clientIP fields rfl
    simp only [List.mem_cons, Call.hit.injEq, reduceCtorEq, List.not_mem_nil, or_self, or_false] at hc
    obtain ⟨-, rfl, -⟩ | ⟨-, rfl, -⟩ := hc <;> decide
  have htunnel : 124 ∉ ([1] : Bytes) := by decide
  obtain ⟨done, cur, hhits, -, hlines, hflush⟩ := hits_conserved hrun hreg htunnel
  obtain rfl := hflush rfl
  exact ⟨states, log, hrun, done, by simpa using hhits, by simpa using hlines⟩

end Runs

end Tunneld.Caplog

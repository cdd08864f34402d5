import Tunneld.Limit.StreamCap
import Mathlib.Data.Fintype.Prod

/-!
# How long a stream keeps its slot

A public connection that `AcquireStream` admits has a member in `conc:{name}`, whose score is three
times `--limit-conn-idle` ahead.  Only traffic moves it: `pacedCopy` calls `Charge` for what it has
read, and `Charge` writes a new score.  Until the first read, and between reads, the slot has to
outlast whatever the connection waits for.

There are two waits that `--limit-conn-idle` knows nothing of.  Before the connection is spliced,
`openFar` waits for the phone to dial back, for as long as `--limit-dialback-timeout` says and then
perhaps once more.  And a copy that is over a cap waits for the window to end, up to five seconds,
with its chunk already charged.  `Validate` asks that both limits be positive and no more.  With an
idle limit of a second, a connection loses its slot while it waits for its phone, and another one is
admitted in its place.

`step` puts `handleTunnel`, its two copies and their waits over the limiter of
`Tunneld.Limit.StreamCap`: every action is a move of the connection, and maybe one of the limiter.
The slot is kept in every run in which a member is refreshed, or its slot given back, before its
score (`Fresh`).

## Main results

* `keeps_its_slot`, and `pruned_while_waiting` for the two waits.
-/

namespace Tunneld.StreamSlot

open Function Clock

/-! ## The connections -/

/-- The limits that `Validate` has accepted. -/
structure Config where
  /-- `--limit-concurrent`. -/
  maxN : Nat
  /-- `--limit-conn-idle`. -/
  connIdle : Int
  /-- `--limit-dialback-timeout`. -/
  dialBackTimeout : Int
  /-- `Validate` refuses a limit that is not positive. -/
  connIdle_pos : 0 < connIdle
  dialBackTimeout_pos : 0 < dialBackTimeout

/-- The limiter that `server.Run` makes. -/
def Config.limiter (cfg : Config) : StreamCap.Config where
  maxN := cfg.maxN
  streamTTL := 3 * cfg.connIdle
  streamTTL_pos := by
    have := cfg.connIdle_pos
    omega

/-- `maxPacingWait`. -/
def maxPacingWait : Int := 5 * second

/-- Where `handleTunnel` stands. -/
inductive Stage
  | idle
  /-- `AcquireStream`, or `evictAndAcquire`. -/
  | acquiring
  /-- `openFar`, the first time or the second, since that instant. -/
  | dialing (again : Bool) (since : Int)
  /-- The phone could not be reached, and `LookupRoute` is asked again. -/
  | rerouting
  /-- The phone could not be reached. -/
  | failed
  | spliced
  | closed
  deriving DecidableEq

/-- Where a `pacedCopy` stands. -/
inductive Copy
  | off
  | reading
  | charging
  /-- It waits until that instant. -/
  | waiting (till : Int)
  | writing
  | done
  deriving DecidableEq

/-- What `Charge` answers. -/
inductive Answer
  | proceed
  | wait (d : Int)
  | kill

/-- The connections of a tunnel, on all nodes. -/
structure State (μ : Type) where
  /-- The limiter; a copy is named by its connection and its direction. -/
  cap : StreamCap.State μ (μ × Bool)
  stage : μ → Stage
  copy : μ × Bool → Copy

/-- What can happen next. -/
inductive Act (μ : Type)
  | tick (d : Nat)
  | lapse
  | connect (m : μ)
  /-- The next command of its `AcquireStream`. -/
  | acquire (m : μ)
  /-- `evictAndAcquire` tries again. -/
  | retry (m : μ)
  | admitted (m : μ)
  /-- `openFar` returns a connection. -/
  | opened (m : μ)
  /-- `openFar` fails. -/
  | dialFails (m : μ)
  /-- `LookupRoute` answers, with another route or not. -/
  | rerouted (m : μ) (differs : Bool)
  /-- `evictLeastActive` gives its slot back. -/
  | evict (m : μ)
  /-- `handleTunnel` gives its slot back. -/
  | giveBack (m : μ)
  /-- `handleTunnel` returns; the slot was given back before. -/
  | leave (m : μ)
  /-- The `ZREM` of `ReleaseStream`. -/
  | release (m : μ)
  /-- A copy has read a chunk and calls `Charge`. -/
  | read (k : μ × Bool)
  /-- The next command of its `Charge`. -/
  | charge (k : μ × Bool)
  /-- `Charge` returns. -/
  | charged (k : μ × Bool) (ans : Answer)
  | wake (k : μ × Bool)
  | abandon (k : μ × Bool)
  | wrote (k : μ × Bool)
  /-- It cannot read or write any more. -/
  | ended (k : μ × Bool)

variable {μ : Type} [DecidableEq μ]

/-- What an action does at the limiter. -/
def Act.limiter : Act μ → Option (StreamCap.Act μ (μ × Bool))
  | .tick d => some (.tick d)
  | .lapse => some .lapse
  | .connect m => some (.acquire m)
  | .acquire m | .release m => some (.slot m)
  | .retry m => some (.retry m)
  | .evict m | .giveBack m => some (.release m)
  | .read k => some (.charge k k.1)
  | .charge k => some (.flow k)
  | .admitted _ | .opened _ | .dialFails _ | .rerouted .. | .leave _ | .charged .. | .wake _
  | .abandon _ | .wrote _ | .ended _ => none

def State.setStage (s : State μ) (m : μ) (p : Stage) : State μ :=
  { s with stage := update s.stage m p }

def State.setCopy (s : State μ) (k : μ × Bool) (p : Copy) : State μ :=
  { s with copy := update s.copy k p }

/-- `handleTunnel` has nothing left to do but to give the slot back. -/
def State.returning (s : State μ) (m : μ) : Bool :=
  match s.stage m with
  | .failed => true
  | .spliced => s.copy (m, false) = .done && s.copy (m, true) = .done
  | _ => false

/-- What an action does to the connection, if it is possible there. -/
def move (s : State μ) : Act μ → Option (State μ)
  | .tick _ | .lapse => some s
  | .connect m => if s.stage m = .idle then some (s.setStage m .acquiring) else none
  | .acquire m | .retry m => if s.stage m = .acquiring then some s else none
  | .admitted m =>
    if s.stage m = .acquiring ∧ s.cap.slot m = .held then
      some (s.setStage m (.dialing false s.cap.now))
    else none
  | .opened m =>
    match s.stage m with
    | .dialing .. =>
      some (((s.setStage m .spliced).setCopy (m, false) .reading).setCopy (m, true) .reading)
    | _ => none
  | .dialFails m =>
    match s.stage m with
    | .dialing false _ => some (s.setStage m .rerouting)
    | .dialing true _ => some (s.setStage m .failed)
    | _ => none
  | .rerouted m differs =>
    match s.stage m with
    | .rerouting => some (s.setStage m (if differs then .dialing true s.cap.now else .failed))
    | _ => none
  | .evict m => if s.stage m = .spliced then some s else none
  | .giveBack m => if s.returning m then some (s.setStage m .closed) else none
  | .leave m =>
    if s.returning m ∧ s.cap.slot m ≠ .held then some (s.setStage m .closed) else none
  | .release m => if s.cap.slot m = .releasing then some s else none
  | .read k => if s.copy k = .reading then some (s.setCopy k .charging) else none
  | .charge k => if s.copy k = .charging then some s else none
  | .charged k ans =>
    if s.copy k = .charging ∧ s.cap.charge k = .idle then
      match ans with
      | .proceed => some (s.setCopy k .writing)
      | .wait d =>
        if 0 < d ∧ d ≤ maxPacingWait then some (s.setCopy k (.waiting (s.cap.now + d))) else none
      | .kill => some (s.setCopy k .done)
    else none
  | .wake k =>
    match s.copy k with
    | .waiting till => if till ≤ s.cap.now then some (s.setCopy k .writing) else none
    | _ => none
  | .abandon k =>
    match s.copy k with
    | .waiting _ => some (s.setCopy k .writing)
    | _ => none
  | .wrote k => if s.copy k = .writing then some (s.setCopy k .reading) else none
  | .ended k =>
    if s.copy k = .reading ∨ s.copy k = .writing then some (s.setCopy k .done) else none

/-- The state after an action, if it is possible. -/
def step (cfg : Config) (s : State μ) (a : Act μ) : Option (State μ) :=
  (move s a).bind fun s' =>
    match a.limiter with
    | none => some s'
    | some b => (StreamCap.step cfg.limiter s.cap b).map fun c => { s' with cap := c }

/-- The connections of one tunnel. -/
def system (cfg : Config) : Lts (State μ) (Act μ) :=
  ⟨⟨StreamCap.init, fun _ => .idle, fun _ => .off⟩, step cfg⟩

/-! ## Members that are refreshed in time -/

section Limiter

variable {κ : Type} {lim : StreamCap.Config} {c c' : StreamCap.State μ κ}

/-- The clock reading of an `AcquireStream` that is about to add its member. -/
def adding : StreamCap.Slot → Option Int
  | .add _ now => some now
  | _ => none

/-- The clock reading of a `Charge` that is about to refresh a member. -/
def refreshing : StreamCap.Charge μ → Option Int
  | .refresh _ now => some now
  | _ => none

/-- The runs in which members are refreshed in time.  A score that is written lies ahead; time does
not reach the score of a member whose slot is not given back; and the key does not run out while a
pipeline stands between its `ZADD` and its `PEXPIRE`. -/
def Fresh (lim : StreamCap.Config) (c : StreamCap.State μ κ) : StreamCap.Act μ κ → Prop
  | .slot m => ∀ now ∈ adding (c.slot m), unixMilli c.now < StreamCap.score lim now
  | .flow k => ∀ now ∈ refreshing (c.charge k), unixMilli c.now < StreamCap.score lim now
  | .tick d => ∀ m, (c.slot m).added lim.maxN = true → unixMilli (c.now + d) < c.expiry m
  | .lapse => ¬ StreamCap.Busy c
  | _ => True

/-- The members whose slots are not given back have not expired. -/
def Current (lim : StreamCap.Config) (c : StreamCap.State μ κ) : Prop :=
  ∀ m, (c.slot m).added lim.maxN = true → unixMilli c.now < c.expiry m

/-- A connection moves on, and has not added its member with it. -/
theorem Current.setSlot (h : Current lim c) {m : μ} {p : StreamCap.Slot}
    (hp : p.added lim.maxN = true → (c.slot m).added lim.maxN = true) {z : SortedSet μ} :
    Current lim { c.setSlot m p with conc := z } := by
  intro n hn
  by_cases hnm : n = m
  · subst hnm
    exact h n (hp (by simpa [StreamCap.State.setSlot] using hn))
  · exact h n (by simpa [StreamCap.State.setSlot, update_of_ne hnm] using hn)

theorem Current.slotStep (h : Current lim c) {m : μ} (hg : Fresh lim c (.slot m))
    (hs : StreamCap.slotStep lim c m = some c') : Current lim c' := by
  unfold StreamCap.slotStep at hs
  split at hs
  case h_2 tries now hm =>
    cases hs
    have hahead := hg now (by rw [hm]; rfl)
    intro n hn
    show unixMilli c.now < update c.expiry m _ n
    by_cases hnm : n = m
    · subst hnm
      rwa [update_self]
    · rw [update_of_ne hnm]
      exact h n (by simpa [StreamCap.State.setSlot, update_of_ne hnm] using hn)
  case h_4 tries card hm =>
    cases hs
    refine h.setSlot fun hp => ?_
    rw [hm]
    split at hp
    case isTrue hle => simpa using hle
    case isFalse => cases hp
  case h_7 => cases hs
  all_goals
    rename_i hm
    cases hs
    refine h.setSlot fun hp => ?_
    rw [hm]
    first | rfl | exact absurd hp (by simp)

theorem Current.chargeStep [DecidableEq κ] (h : Current lim c) {k : κ} (hg : Fresh lim c (.flow k))
    (hs : StreamCap.chargeStep lim c k = some c') : Current lim c' := by
  unfold StreamCap.chargeStep at hs
  split at hs
  case h_1 => cases hs
  case h_2 m now hk =>
    cases hs
    have hahead := hg now (by rw [hk]; rfl)
    intro n hn
    show unixMilli c.now < (if m ∈ c.conc.members then _ else c.expiry) n
    split
    · by_cases hnm : n = m
      · subst hnm
        rwa [update_self]
      · rw [update_of_ne hnm]
        exact h n hn
    · exact h n hn
  case h_3 =>
    cases hs
    exact h

theorem Current.step [DecidableEq κ] (h : Current lim c) {b : StreamCap.Act μ κ}
    (hg : Fresh lim c b) (hs : StreamCap.step lim c b = some c') : Current lim c' := by
  cases b with
  | tick d =>
    cases hs
    exact hg
  | acquire m =>
    obtain ⟨-, rfl⟩ := Lts.taken hs
    exact h.setSlot
      (by simp)
  | slot m => exact h.slotStep hg hs
  | retry m =>
    rw [StreamCap.step] at hs
    split at hs
    · obtain ⟨-, rfl⟩ := Lts.taken hs
      exact h.setSlot (by simp)
    · cases hs
  | release m =>
    obtain ⟨hm, rfl⟩ := Lts.taken hs
    exact h.setSlot fun _ => by rw [hm]; rfl
  | charge k m =>
    obtain ⟨-, rfl⟩ := Lts.taken hs
    exact h
  | flow k => exact h.chargeStep hg hs
  | lapse =>
    obtain ⟨-, rfl⟩ := Lts.taken hs
    exact h

omit [DecidableEq μ] in
theorem noLapse_of_fresh {b : StreamCap.Act μ κ} (hg : Fresh lim c b) :
    StreamCap.NoLapseInPipeline c b := by
  rintro rfl
  exact hg

end Limiter

/-! ## Every run -/

/-- The runs in which members are refreshed in time. -/
def Refreshed (cfg : Config) (s : State μ) (a : Act μ) : Prop :=
  ∀ b ∈ a.limiter, Fresh cfg.limiter s.cap b

variable {cfg : Config} {s t : State μ} {a : Act μ}

/-- A connection moves, and the limiter does nothing. -/
theorem cap_move (h : move s a = some t) : t.cap = s.cap := by
  unfold move at h
  repeat' split at h
  all_goals cases h
  all_goals rfl

/-- A step is one of the limiter, or the limiter does nothing. -/
theorem limiter_of_step (h : step cfg s a = some t) :
    t.cap = s.cap ∨ ∃ b ∈ a.limiter, StreamCap.step cfg.limiter s.cap b = some t.cap := by
  obtain ⟨s', hmove, h⟩ := Option.bind_eq_some_iff.1 h
  split at h
  · cases h
    exact .inl (cap_move hmove)
  · rename_i b hb
    obtain ⟨c, hc, rfl⟩ := Option.map_eq_some_iff.1 h
    exact .inr ⟨b, hb, hc⟩

/-- What holds of the limiter. -/
structure Kept (cfg : Config) (s : State μ) : Prop where
  inv : StreamCap.Inv cfg.limiter s.cap
  current : Current cfg.limiter s.cap

theorem kept_of_reach (h : (system cfg).Reach (Refreshed cfg) s) : Kept cfg s := by
  have hinit : Kept cfg (system (μ := μ) cfg).init := by
    refine ⟨StreamCap.inv_init, fun m hm => ?_⟩
    cases hm
  refine h.invariant hinit fun s a t _ hk hg hs => ?_
  obtain hsame | ⟨b, hb, hs⟩ := limiter_of_step hs
  · exact ⟨hsame ▸ hk.inv, hsame ▸ hk.current⟩
  · have hfresh := hg b hb
    exact ⟨hk.inv.step (noLapse_of_fresh hfresh) hs, hk.current.step hfresh hs⟩

/-- **A stream keeps its slot, if it is refreshed in time.**  From the moment a connection is
admitted until its slot is released, whatever it waits for, its member is in the set. -/
theorem keeps_its_slot (h : (system cfg).Reach (Refreshed cfg) s) (m : μ)
    (hm : (s.cap.slot m).admitted = true) : m ∈ s.cap.conc.members := by
  obtain ⟨hinv, hcur⟩ := kept_of_reach h
  have hadded : (s.cap.slot m).added cfg.limiter.maxN = true := by
    cases hslot : s.cap.slot m <;> rw [hslot] at hm <;> first | rfl | cases hm
  obtain hin | hexp := hinv.present m hadded
  · exact hin
  · exact absurd (hcur m hadded) (not_lt.2 hexp)

/-! ## Two waits that are too long -/

/-- The time limit of `openFar`. -/
def Config.openFarTimeout (cfg : Config) : Int :=
  if cfg.dialBackTimeout ≤ 0 then 10 * second else cfg.dialBackTimeout

/-- When the wait of a connection for its phone must be over. -/
def Stage.deadline (cfg : Config) : Stage → Option Int
  | .dialing _ since => some (since + cfg.openFarTimeout)
  | _ => none

/-- The runs in which no `openFar` takes longer than its time limit. -/
def WithinLimits (cfg : Config) (s : State μ) : Act μ → Prop
  | .tick d => ∀ m, ∀ e ∈ (s.stage m).deadline cfg, s.cap.now + d ≤ e
  | _ => True

instance [Fintype μ] (cfg : Config) (s : State μ) (a : Act μ) :
    Decidable (WithinLimits cfg s a) := by
  unfold WithinLimits; split <;> infer_instance

/-- An idle limit of a second, and ten seconds for the phone to dial back. -/
def shortIdle : Config := ⟨8, second, 10 * second, by decide, by decide⟩

/-- The commands of `AcquireStream`, up to the admission. -/
def admits (m : Bool) : List (Act Bool) :=
  [.connect m, .acquire m, .acquire m, .acquire m, .acquire m, .admitted m]

/-- Five seconds before midnight a connection is admitted, and its first chunk is over the cap of
the day. -/
def waitsForMidnight : List (Act Bool) :=
  [Act.tick 86395000000000] ++ admits false ++
    [Act.opened false, .read (false, false), .charge (false, false), .charge (false, false),
      .charged (false, false) (.wait (5 * second))]

/-- A connection waits four seconds for its phone to dial back, and another one is admitted: the
first one's member is gone.  A connection waits four seconds for midnight, and the key has run
out. -/
theorem pruned_while_waiting :
    (∃ s : State Bool, (system shortIdle).Reach (WithinLimits shortIdle) s ∧
      s.stage false = .dialing false 0 ∧ s.cap.slot false = .held ∧
      false ∉ s.cap.conc.members) ∧
    ∃ s : State Bool, (system shortIdle).Reach (WithinLimits shortIdle) s ∧
      s.copy (false, false) = .waiting (86400 * second) ∧ s.cap.slot false = .held ∧
      false ∉ s.cap.conc.members := by
  constructor
  · have hrun : ((system shortIdle).execWith (WithinLimits shortIdle) (system shortIdle).init
        (admits false ++ [Act.tick 4000000000] ++ admits true)).any (fun s =>
          s.stage false = .dialing false 0 ∧ s.cap.slot false = .held ∧
          false ∉ s.cap.conc.members) = true := by decide +kernel
    exact Lts.exists_reach_of_any hrun
  · have hrun : ((system shortIdle).execWith (WithinLimits shortIdle) (system shortIdle).init
        (waitsForMidnight ++ [Act.tick 4000000000, .lapse])).any (fun s =>
          s.copy (false, false) = .waiting (86400 * second) ∧ s.cap.slot false = .held ∧
          false ∉ s.cap.conc.members) = true := by decide +kernel
    exact Lts.exists_reach_of_any hrun

instance {κ : Type} [DecidableEq κ] [Fintype μ] [Fintype κ] (lim : StreamCap.Config)
    (c : StreamCap.State μ κ) (b : StreamCap.Act μ κ) : Decidable (Fresh lim c b) := by
  unfold Fresh; split <;> infer_instance

instance [Fintype μ] (cfg : Config) (s : State μ) (a : Act μ) : Decidable (Refreshed cfg s a) := by
  unfold Refreshed; infer_instance

/-- After two seconds in which it waits for its phone, a connection has its slot, also when another
one is admitted. -/
theorem kept_for_two_seconds :
    ∃ s : State Bool, (system shortIdle).Reach (Refreshed shortIdle) s ∧
      s.stage false = .dialing false 0 ∧ s.cap.slot true = .held ∧
      false ∈ s.cap.conc.members := by
  have hrun : ((system shortIdle).execWith (Refreshed shortIdle) (system shortIdle).init
      (admits false ++ [Act.tick 2000000000] ++ admits true)).any (fun s =>
        s.stage false = .dialing false 0 ∧ s.cap.slot true = .held ∧
        (s.cap.slot false).admitted = true) = true := by decide +kernel
  obtain ⟨s, hreach, hdial, hother, hadm⟩ := Lts.exists_reach_of_any hrun
  exact ⟨s, hreach, hdial, hother, keeps_its_slot hreach false hadm⟩

end Tunneld.StreamSlot

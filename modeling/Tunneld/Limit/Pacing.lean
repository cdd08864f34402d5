import Tunneld.Lib.Windows
import Tunneld.Limit.Charge
import Mathlib.Algebra.BigOperators.Group.Finset.Piecewise

/-!
# How much the copies of a tunnel forward

`edge.pacedCopy` reads a chunk, calls `Charge`, waits if it is told to, and writes the chunk.  The
copies of one tunnel and direction run on any nodes and share the counters, and nothing orders their
commands: a chunk that is over a cap has been counted all the same, and one that has waited is
written in a later window than the one it was counted in.

So the caps are not exact.  What is counted and written in one window is within the cap: `INCRBY`
tells each chunk what the count was with it, and the chunks that were told a count within the cap
weigh no more than that count (`Inv.book`).  What is written in a window and was counted in an
earlier one is at most one chunk for each copy.

`step` is that system for one tunnel and direction, one command at a time, with any number of places
`κ` for copies; a place may run one copy after another.  A call of `Charge` may also fail, and a
wait may be abandoned: then the chunk is written at once, and there is no bound.

## Main results

* `Inv.forwarded_le`: the bound for one window;
* `overshoot_of_one_chunk`: the bounds for all of them, by the caps of the second, the day and the
  week.
-/

namespace Tunneld.Pacing

open Function Charge Windows
open Traffic (Meter)

/-! ## The copies and the counters -/

/-- The commands of `Charge` on the counters. -/
inductive Command
  /-- `INCRBY`, or `INCR`. -/
  | incr (m : Meter)
  | expireNX (m : Meter)
  deriving DecidableEq

/-- The pipeline of `Charge`, as far as the counters go. -/
def pipeline : List Command :=
  [.incr .bytes, .incr .packets, .incr .day, .incr .week,
    .expireNX .bytes, .expireNX .packets, .expireNX .day, .expireNX .week]

/-- A chunk that has been read. -/
structure Chunk where
  size : Nat
  /-- The clock as `Charge` has read it. -/
  now : Nat
  /-- For the proof: a counter was told within its cap, in the window the chunk is counted in. -/
  granted : Meter → Bool

/-- A counter was told, within its cap or not. -/
def Chunk.grant (c : Chunk) (m : Meter) (ok : Bool) : Chunk :=
  { c with granted := update c.granted m ok }

/-- Where a copy stands. -/
inductive Phase
  | off
  | reading
  /-- `Charge`, with the commands to come and the counts it has been told. -/
  | charging (c : Chunk) (todo : List Command) (vals : Meter → Nat)
  /-- It waits until that instant. -/
  | waiting (c : Chunk) (till : Nat)
  | writing (c : Chunk)

/-- The chunk of a copy. -/
def Phase.chunk : Phase → Option Chunk
  | .off | .reading => none
  | .charging c .. | .waiting c _ | .writing c => some c

/-- A counter in the store. -/
structure Counter where
  value : Nat
  /-- When the key runs out, in milliseconds. -/
  deadline : Option Nat

/-- The copies of one tunnel and direction. -/
structure State (κ : Type) where
  now : Nat
  /-- The counter of each window. -/
  counter : Meter → Nat → Counter
  phase : κ → Phase
  /-- What was written, the last first: when it was counted, when it was written, and its size. -/
  log : κ → List Work

/-- What can happen next. -/
inductive Act (κ : Type)
  | tick (n : Nat)
  | lapse (m : Meter) (i : Nat)
  | start (k : κ)
  /-- `Read` returns that many bytes. -/
  | read (k : κ) (size : Nat)
  | ended (k : κ)
  /-- The next command of `Charge`. -/
  | cmd (k : κ)
  /-- `Charge` fails. -/
  | fails (k : κ)
  /-- `Charge` returns. -/
  | charged (k : κ)
  | wake (k : κ)
  /-- The wait is abandoned: the connection is torn down. -/
  | abandon (k : κ)
  /-- `Write` has written the chunk. -/
  | write (k : κ)
  /-- `Write` fails after that many bytes. -/
  | writeFails (k : κ) (n : Nat)

variable {κ : Type} [DecidableEq κ]

/-- A copy is now somewhere else. -/
def State.goto (s : State κ) (k : κ) (p : Phase) : State κ :=
  { s with phase := update s.phase k p }

/-- A counter has changed. -/
def State.setCounter (s : State κ) (m : Meter) (i : Nat) (c : Counter) : State κ :=
  { s with counter := update s.counter m (update (s.counter m) i c) }

/-- Something was written. -/
def State.forward (s : State κ) (k : κ) (c : Chunk) (size : Nat) : State κ :=
  { s with log := update s.log k (⟨c.now, s.now, size⟩ :: s.log k) }

/-- The store's clock. -/
def State.milli (s : State κ) : Nat := s.now / 1000000

/-- The next command of a `Charge`. -/
def command (cfg : Config) (s : State κ) (k : κ) (c : Chunk) (todo : List Command)
    (vals : Meter → Nat) : Command → State κ
  | .incr m =>
    let i := m.windowAt c.now
    let old := s.counter m i
    let value := old.value + m.weight c.size
    (s.setCounter m i { old with value := value }).goto k
      (.charging (c.grant m (value ≤ cfg.cap m ∧ m.windowAt s.now = i)) todo
        (update vals m value))
  | .expireNX m =>
    let i := m.windowAt c.now
    let old := s.counter m i
    -- A counter of 0 is a key that does not exist.
    let new := if 0 < old.value ∧ old.deadline = none then
      { old with deadline := some (s.milli + m.ttl) } else old
    (s.setCounter m i new).goto k (.charging c todo vals)

/-- The state after an action, if it is possible. -/
def step (cfg : Config) (s : State κ) : Act κ → Option (State κ)
  | .tick n => some { s with now := s.now + n }
  | .lapse m i =>
    match (s.counter m i).deadline with
    | some d => if d < s.milli then some (s.setCounter m i ⟨0, none⟩) else none
    | none => none
  | .start k =>
    match s.phase k with
    | .off => some (s.goto k .reading)
    | _ => none
  | .read k size =>
    match s.phase k with
    | .reading =>
      if 0 < size ∧ size ≤ chunkSize then
        some (s.goto k (.charging ⟨size, s.now, fun _ => false⟩ pipeline fun _ => 0))
      else none
    | _ => none
  | .ended k =>
    match s.phase k with
    | .reading => some (s.goto k .off)
    | _ => none
  | .cmd k =>
    match s.phase k with
    | .charging c (x :: todo) vals => some (command cfg s k c todo vals x)
    | _ => none
  | .fails k =>
    match s.phase k with
    | .charging c _ _ => some (s.goto k (.writing c))
    | _ => none
  | .charged k =>
    match s.phase k with
    | .charging c [] vals =>
      match charge cfg c.now vals with
      | .proceed => some (s.goto k (.writing c))
      | .wait d => some (s.goto k (.waiting c (s.now + d.toNat)))
      | .kill _ => some (s.goto k .off)
    | _ => none
  | .wake k =>
    match s.phase k with
    | .waiting c till => if till ≤ s.now then some (s.goto k (.writing c)) else none
    | _ => none
  | .abandon k =>
    match s.phase k with
    | .waiting c _ => some (s.goto k (.writing c))
    | _ => none
  | .write k =>
    match s.phase k with
    | .writing c => some ((s.forward k c c.size).goto k .reading)
    | _ => none
  | .writeFails k n =>
    match s.phase k with
    | .writing c => if n ≤ c.size then some ((s.forward k c n).goto k .off) else none
    | _ => none

/-- The copies of one tunnel and direction, before anything was counted. -/
def system (cfg : Config) : Lts (State κ) (Act κ) :=
  ⟨⟨0, fun _ _ => ⟨0, none⟩, fun _ => .off, fun _ => []⟩, step cfg⟩

/-- What was written in a window. -/
def forwarded [Fintype κ] (s : State κ) (m : Meter) (i : Nat) : Nat :=
  ∑ k, amount m.weight (doneIn m.windowAt i) (s.log k)

/-- The runs in which `Charge` does not fail and no wait is abandoned. -/
def NoFaults (_ : State κ) : Act κ → Prop
  | .fails _ | .abandon _ => False
  | _ => True

instance (s : State κ) (a : Act κ) : Decidable (NoFaults s a) := by
  unfold NoFaults; split <;> infer_instance

/-! ## What is within the caps -/

/-- What a copy may still write in window `i` of what was told within the cap. -/
def Phase.pending (m : Meter) (i : Nat) (p : Phase) : Nat :=
  match p.chunk with
  | some c => if c.granted m = true ∧ m.windowAt c.now = i then m.weight c.size else 0
  | none => 0

/-- What a copy has counted and written in window `i`, and what it may still write. -/
def State.share (s : State κ) (m : Meter) (i : Nat) (k : κ) : Nat :=
  amount m.weight (within m.windowAt i) (s.log k) + (s.phase k).pending m i

/-- The same for all copies. -/
def State.booked [Fintype κ] (s : State κ) (m : Meter) (i : Nat) : Nat := ∑ k, s.share m i k

/-- What holds of a chunk, with what was written before it. -/
structure Chunk.Ok (now : Nat) (log : List Work) (c : Chunk) : Prop where
  now_le : c.now ≤ now
  size_le : c.size ≤ chunkSize
  after : ∀ w ∈ log, w.done ≤ c.now

/-- What holds of a copy: a counter that was told over its cap keeps the chunk until the end of its
window. -/
def Phase.Ok (cfg : Config) (now : Nat) : Phase → Prop
  | .off | .reading => True
  | .charging c todo vals => todo.Nodup ∧ ∀ m,
      (.incr m ∈ todo → c.granted m = false) ∧
      (.incr m ∉ todo →
        c.granted m = true ∨ cfg.cap m < vals m ∨ m.windowAt c.now < m.windowAt now)
  | .waiting c till => ∀ m, cfg.capped m = true →
      c.granted m = true ∨ Traffic.ends m c.now ≤ till ∨ m.windowAt c.now < m.windowAt now
  | .writing c => ∀ m, cfg.capped m = true →
      c.granted m = true ∨ m.windowAt c.now < m.windowAt now

/-- What holds in every run without faults. -/
structure Inv [Fintype κ] (cfg : Config) (s : State κ) : Prop where
  /-- A copy writes one chunk after another. -/
  sequential : ∀ k, Sequential (s.log k)
  logged : ∀ k, ∀ w ∈ s.log k, w.done ≤ s.now ∧ w.size ≤ chunkSize
  chunk : ∀ k, ∀ c ∈ (s.phase k).chunk, c.Ok s.now (s.log k)
  phase : ∀ k, (s.phase k).Ok cfg s.now
  /-- What is counted and written in a window is within the cap. -/
  book : ∀ m i, cfg.capped m = true → s.booked m i ≤ cfg.cap m
  /-- Until the window ends, it is within the count. -/
  counted : ∀ m i, cfg.capped m = true → m.windowAt s.now ≤ i →
    s.booked m i ≤ (s.counter m i).value
  /-- A counter outlasts its window. -/
  lasts : ∀ m i d, (s.counter m i).deadline = some d →
    ∀ t, d < t / 1000000 → i < m.windowAt t

variable {cfg : Config} {s : State κ} {p : Phase}

theorem Phase.Ok.mono {now now' : Nat} (hle : now ≤ now') (h : p.Ok cfg now) : p.Ok cfg now' := by
  have hwin {m : Meter} {t : Nat} (ht : m.windowAt t < m.windowAt now) :
      m.windowAt t < m.windowAt now' := ht.trans_le (m.windowAt_mono hle)
  cases p with
  | off => trivial
  | reading => trivial
  | charging c todo vals =>
    exact ⟨h.1, fun m => ⟨(h.2 m).1, fun hm => ((h.2 m).2 hm).imp_right (Or.imp_right hwin)⟩⟩
  | waiting c till => exact fun m hm => (h m hm).imp_right (Or.imp_right hwin)
  | writing c => exact fun m hm => (h m hm).imp_right hwin

variable [Fintype κ]

theorem inv_init : Inv cfg (system (κ := κ) cfg).init := by
  have hzero : ∀ m i, (system (κ := κ) cfg).init.booked m i = 0 := by
    intro m i
    exact Finset.sum_eq_zero fun k _ => rfl
  refine ⟨fun k => .nil, ?_, ?_, fun k => trivial, ?_, ?_, ?_⟩
  · intro k w hw
    cases hw
  · intro k c hc
    cases hc
  · intro m i _
    rw [hzero]
    exact Nat.zero_le _
  · intro m i _ _
    rw [hzero]
    exact Nat.zero_le _
  · intro m i d hd
    cases hd

omit [DecidableEq κ] in
theorem Inv.tick (h : Inv cfg s) (n : Nat) : Inv cfg { s with now := s.now + n } := by
  have hle : s.now ≤ s.now + n := Nat.le_add_right ..
  refine ⟨h.sequential, ?_, ?_, fun k => (h.phase k).mono hle, h.book, ?_, h.lasts⟩
  · intro k w hw
    exact ⟨(h.logged k w hw).1.trans hle, (h.logged k w hw).2⟩
  · intro k c hc
    have hok := h.chunk k c hc
    exact ⟨hok.now_le.trans hle, hok.size_le, hok.after⟩
  · intro m i hm hi
    exact h.counted m i hm ((m.windowAt_mono hle).trans hi)

variable {k : κ}

/-- A copy moves on, and may not write more than before. -/
theorem Inv.goto (h : Inv cfg s) (hchunk : ∀ c ∈ p.chunk, c.Ok s.now (s.log k))
    (hok : p.Ok cfg s.now) (hpend : ∀ m i, p.pending m i ≤ (s.phase k).pending m i) :
    Inv cfg (s.goto k p) := by
  have hbooked : ∀ m i, (s.goto k p).booked m i ≤ s.booked m i := by
    intro m i
    refine Finset.sum_le_sum fun j _ => Nat.add_le_add_left ?_ _
    by_cases hj : j = k
    · subst hj
      simpa [State.goto] using hpend m i
    · simp [State.goto, update_of_ne hj]
  refine ⟨h.sequential, h.logged, ?_, ?_, ?_, ?_, h.lasts⟩
  · exact (forall_update_iff s.phase
      (p := fun j ph => ∀ c ∈ ph.chunk, c.Ok s.now (s.log j))).2 ⟨hchunk, fun j _ => h.chunk j⟩
  · exact (forall_update_iff s.phase (p := fun _ ph => ph.Ok cfg s.now)).2
      ⟨hok, fun j _ => h.phase j⟩
  · exact fun m i hm => (hbooked m i).trans (h.book m i hm)
  · exact fun m i hm hi => (hbooked m i).trans (h.counted m i hm hi)

theorem pending_of_none (hp : p.chunk = none) (m : Meter) (i : Nat) : p.pending m i = 0 := by
  rw [Phase.pending, hp]

theorem Inv.drop (h : Inv cfg s) (hp : p.chunk = none) (hok : p.Ok cfg s.now) :
    Inv cfg (s.goto k p) := by
  refine h.goto (fun c hc => ?_) hok fun m i => ?_
  · rw [hp] at hc
    cases hc
  · rw [pending_of_none hp]
    exact Nat.zero_le _

theorem Inv.keep (h : Inv cfg s) (hp : p.chunk = (s.phase k).chunk) (hok : p.Ok cfg s.now) :
    Inv cfg (s.goto k p) := by
  refine h.goto (fun c hc => h.chunk k c (hp ▸ hc)) hok fun m i => ?_
  rw [Phase.pending, Phase.pending, hp]

theorem Inv.read (h : Inv cfg s) (k : κ) {size : Nat} (hsize : size ≤ chunkSize) :
    Inv cfg (s.goto k (.charging ⟨size, s.now, fun _ => false⟩ pipeline fun _ => 0)) := by
  refine h.goto (fun c hc => ?_) ⟨by decide, fun m => ⟨fun _ => rfl, fun hm => ?_⟩⟩ fun m i => ?_
  · cases hc
    exact ⟨le_rfl, hsize, fun w hw => (h.logged k w hw).1⟩
  · exact absurd (by cases m <;> decide) hm
  · rw [Phase.pending, Phase.chunk]
    simp

/-! ### The commands on the counters -/

omit [DecidableEq κ] [Fintype κ] in
theorem counter_setCounter (s : State κ) (m m' : Meter) (i i' : Nat) (c : Counter) :
    (s.setCounter m i c).counter m' i' = if m' = m ∧ i' = i then c else s.counter m' i' := by
  by_cases hm : m' = m
  · subst hm
    simp [State.setCounter, update_apply]
  · simp [State.setCounter, hm]

variable {m : Meter}

omit [DecidableEq κ] in
/-- A counter changes, and does not count less before its window ends. -/
theorem Inv.setCounter (h : Inv cfg s) {i : Nat} {c : Counter}
    (hvalue : m.windowAt s.now ≤ i → (s.counter m i).value ≤ c.value)
    (hlasts : ∀ d, c.deadline = some d → ∀ t, d < t / 1000000 → i < m.windowAt t) :
    Inv cfg (s.setCounter m i c) := by
  refine ⟨h.sequential, h.logged, h.chunk, h.phase, h.book, ?_, ?_⟩
  · intro m' i' hm hi
    rw [counter_setCounter]
    refine (h.counted m' i' hm hi).trans ?_
    split
    · rename_i he
      obtain ⟨rfl, rfl⟩ := he
      exact hvalue hi
    · exact le_rfl
  · intro m' i' d hd
    rw [counter_setCounter] at hd
    split at hd
    · rename_i he
      obtain ⟨rfl, rfl⟩ := he
      exact hlasts d hd
    · exact h.lasts m' i' d hd

omit [DecidableEq κ] in
theorem Inv.lapse (h : Inv cfg s) {i d : Nat} (hd : (s.counter m i).deadline = some d)
    (hlt : d < s.milli) : Inv cfg (s.setCounter m i ⟨0, none⟩) := by
  refine h.setCounter (fun hi => ?_) fun d hd => by cases hd
  exact absurd (h.lasts m i d hd s.now hlt) (not_lt.2 hi)

variable {c : Chunk} {todo : List Command} {vals : Meter → Nat}

/-- `EXPIRE NX` lets the counter outlast its window. -/
theorem Inv.expireNX (h : Inv cfg s) (hk : s.phase k = .charging c (.expireNX m :: todo) vals) :
    Inv cfg (command cfg s k c todo vals (.expireNX m)) := by
  have hc := h.chunk k c (by rw [hk]; rfl)
  have hok := h.phase k
  rw [hk] at hok
  have hset : Inv cfg (s.setCounter m (m.windowAt c.now)
      (if 0 < (s.counter m (m.windowAt c.now)).value ∧
          (s.counter m (m.windowAt c.now)).deadline = none then
        { s.counter m (m.windowAt c.now) with deadline := some (s.milli + m.ttl) }
      else s.counter m (m.windowAt c.now))) := by
    refine h.setCounter (fun _ => by split <;> exact le_rfl) fun d hd t ht => ?_
    split at hd
    · cases hd
      exact Meter.windowAt_lt_of_ttl hc.now_le ht
    · exact h.lasts m _ d hd t ht
  refine hset.goto ?_ ?_ ?_
  · intro c' hc'
    cases hc'
    exact hc
  · refine ⟨hok.1.of_cons, fun m' => ?_⟩
    show (_ → _) ∧ (_ → _ ∨ _ ∨ m'.windowAt c.now < m'.windowAt s.now)
    simpa using hok.2 m'
  · intro m' i
    show _ ≤ (s.phase k).pending m' i
    rw [hk]
    rfl

theorem sum_le_add {f f' : κ → Nat} {d : Nat} (h : ∀ j, f' j ≤ f j + if j = k then d else 0) :
    ∑ j, f' j ≤ ∑ j, f j + d := by
  calc ∑ j, f' j ≤ ∑ j, (f j + if j = k then d else 0) := Finset.sum_le_sum fun j _ => h j
    _ = ∑ j, f j + d := by
      rw [Finset.sum_add_distrib, Finset.sum_ite_eq' Finset.univ k, if_pos (Finset.mem_univ k)]

/-- A counter that is told adds to what a copy may still write, if it was told within the cap. -/
theorem pending_grant (hfalse : c.granted m = false) (ok : Bool) (m' : Meter) (i : Nat)
    {todo todo' : List Command} {vals vals' : Meter → Nat} :
    (Phase.charging (c.grant m ok) todo vals).pending m' i ≤
      (Phase.charging c todo' vals').pending m' i +
        if m' = m ∧ i = m.windowAt c.now ∧ ok = true then m.weight c.size else 0 := by
  simp only [Phase.pending, Phase.chunk, Chunk.grant]
  by_cases hm : m' = m
  · subst hm
    by_cases hi : m'.windowAt c.now = i <;> cases ok <;> simp [hfalse, hi]
  · simp [hm]

/-- A counter that is told is within its cap, or over it, or its window is over. -/
theorem charging_told {now : Nat} (hok : (Phase.charging c (.incr m :: todo) vals).Ok cfg now)
    (hle : c.now ≤ now) (value : Nat) :
    (Phase.charging (c.grant m (value ≤ cfg.cap m ∧ m.windowAt now = m.windowAt c.now)) todo
      (update vals m value)).Ok cfg now := by
  obtain ⟨hnodup, htold⟩ := hok
  refine ⟨hnodup.of_cons, fun m' => ?_⟩
  simp only [Chunk.grant]
  by_cases hm : m' = m
  · subst hm
    refine ⟨fun hin => absurd hin (List.nodup_cons.1 hnodup).1, fun _ => ?_⟩
    rw [update_self, update_self, decide_eq_true_eq]
    have hwin := m'.windowAt_mono hle
    omega
  · rw [update_of_ne hm, update_of_ne hm]
    simpa [hm] using htold m'

/-- `INCRBY` counts a chunk, and tells whether it is within the cap. -/
theorem Inv.incr (h : Inv cfg s) (hk : s.phase k = .charging c (.incr m :: todo) vals) :
    Inv cfg (command cfg s k c todo vals (.incr m)) := by
  have hc := h.chunk k c (by rw [hk]; rfl)
  have hok := h.phase k
  rw [hk] at hok
  have hfalse : c.granted m = false := (hok.2 m).1 List.mem_cons_self
  set i := m.windowAt c.now with hi
  set value := (s.counter m i).value + m.weight c.size with hvalue
  set ok : Bool := decide (value ≤ cfg.cap m ∧ m.windowAt s.now = i) with hok'
  set t := command cfg s k c todo vals (.incr m) with ht
  have hphase : t.phase = update s.phase k
      (.charging (c.grant m ok) todo (update vals m value)) := rfl
  have hcounter : ∀ m' i', t.counter m' i' =
      if m' = m ∧ i' = i then { s.counter m i with value := value } else s.counter m' i' :=
    fun m' i' => counter_setCounter s m m' i i' _
  have hbooked : ∀ m' i', t.booked m' i' ≤ s.booked m' i' +
      if m' = m ∧ i' = i ∧ ok = true then m.weight c.size else 0 := by
    intro m' i'
    refine sum_le_add (k := k) fun j => ?_
    rw [State.share, State.share, hphase]
    by_cases hj : j = k
    · subst hj
      rw [update_self, if_pos rfl, hk, Nat.add_assoc]
      exact Nat.add_le_add_left (pending_grant hfalse ok m' i') _
    · rw [update_of_ne hj, if_neg hj]
      exact le_rfl
  refine ⟨h.sequential, h.logged, ?_, ?_, ?_, ?_, ?_⟩
  · rw [hphase]
    refine (forall_update_iff s.phase
      (p := fun j ph => ∀ c ∈ ph.chunk, c.Ok s.now (s.log j))).2
      ⟨fun c' hc' => ?_, fun j _ => h.chunk j⟩
    cases hc'
    exact ⟨hc.now_le, hc.size_le, hc.after⟩
  · rw [hphase]
    exact (forall_update_iff s.phase (p := fun _ ph => ph.Ok cfg s.now)).2
      ⟨charging_told hok hc.now_le value, fun j _ => h.phase j⟩
  · intro m' i' hm
    refine (hbooked m' i').trans ?_
    split
    · rename_i hwithin
      obtain ⟨rfl, rfl, hin⟩ := hwithin
      obtain ⟨hle, hwin⟩ := of_decide_eq_true hin
      exact (Nat.add_le_add_right (h.counted m' i hm hwin.le) _).trans hle
    · exact h.book m' i' hm
  · intro m' i' hm hnow
    refine (hbooked m' i').trans ?_
    have hcount := h.counted m' i' hm hnow
    by_cases hkey : m' = m ∧ i' = i
    · obtain ⟨rfl, rfl⟩ := hkey
      have hnew : (t.counter m' i).value = value := by rw [hcounter, if_pos ⟨rfl, rfl⟩]
      rw [hnew]
      refine Nat.add_le_add hcount ?_
      split
      · exact le_rfl
      · exact Nat.zero_le _
    · rw [hcounter, if_neg hkey, if_neg fun hw => hkey ⟨hw.1, hw.2.1⟩]
      exact hcount
  · intro m' i' d hd
    rw [hcounter] at hd
    split at hd
    · rename_i hkey
      obtain ⟨rfl, rfl⟩ := hkey
      exact h.lasts m' i d hd
    · exact h.lasts m' i' d hd

/-! ### Writing -/

/-- What is written in the window it was counted in was told within the cap. -/
theorem written_le_pending {now n : Nat} (hn : n ≤ c.size)
    (htold : c.granted m = true ∨ m.windowAt c.now < m.windowAt now) (i : Nat) :
    (if within m.windowAt i ⟨c.now, now, n⟩ then m.weight n else 0) ≤
      (Phase.writing c).pending m i := by
  split
  · rename_i hin
    obtain ⟨hbegun, hdone⟩ : m.windowAt c.now = i ∧ m.windowAt now = i := by
      simpa [within] using hin
    have hgranted : c.granted m = true := htold.resolve_right (by omega)
    simp only [Phase.pending, Phase.chunk, hgranted, hbegun, and_self, if_true]
    exact m.weight_mono hn
  · exact Nat.zero_le _

/-- A copy writes its chunk, or part of it. -/
theorem Inv.forward (h : Inv cfg s) (hk : s.phase k = .writing c) {n : Nat} (hn : n ≤ c.size)
    (hp : p.chunk = none) (hok : p.Ok cfg s.now) : Inv cfg ((s.forward k c n).goto k p) := by
  have hc := h.chunk k c (by rw [hk]; rfl)
  have htold := h.phase k
  rw [hk] at htold
  set t := (s.forward k c n).goto k p with ht
  have hlog : t.log = update s.log k (⟨c.now, s.now, n⟩ :: s.log k) := rfl
  have hphase : t.phase = update s.phase k p := rfl
  have hbooked : ∀ m i, cfg.capped m = true → t.booked m i ≤ s.booked m i := by
    intro m i hm
    refine Finset.sum_le_sum fun j _ => ?_
    rw [State.share, State.share, hlog, hphase]
    by_cases hj : j = k
    · subst hj
      rw [update_self, update_self, hk, amount_cons, pending_of_none hp]
      have hle := written_le_pending hn (htold m hm) i
      dsimp only
      omega
    · rw [update_of_ne hj, update_of_ne hj]
  refine ⟨?_, ?_, ?_, ?_, ?_, ?_, h.lasts⟩
  · rw [hlog]
    exact (forall_update_iff s.log (p := fun _ l => Sequential l)).2
      ⟨(h.sequential k).cons hc.now_le hc.after, fun j _ => h.sequential j⟩
  · rw [hlog]
    refine (forall_update_iff s.log
      (p := fun _ l => ∀ w ∈ l, w.done ≤ s.now ∧ w.size ≤ chunkSize)).2
      ⟨fun w hw => ?_, fun j _ => h.logged j⟩
    obtain rfl | hw := List.mem_cons.1 hw
    · exact ⟨le_rfl, hn.trans hc.size_le⟩
    · exact h.logged k w hw
  · intro j c' hc'
    rw [hphase] at hc'
    by_cases hj : j = k
    · subst hj
      rw [update_self, hp] at hc'
      cases hc'
    · rw [update_of_ne hj] at hc'
      rw [hlog, update_of_ne hj]
      exact h.chunk j c' hc'
  · rw [hphase]
    exact (forall_update_iff s.phase (p := fun _ ph => ph.Ok cfg s.now)).2
      ⟨hok, fun j _ => h.phase j⟩
  · exact fun m i hm => (hbooked m i hm).trans (h.book m i hm)
  · exact fun m i hm hi => (hbooked m i hm).trans (h.counted m i hm hi)

/-! ### Every step -/

/-- A chunk that is answered is within each cap, or waits for the end of the window, or the window
is over. -/
theorem charged_ok {now : Nat} (hok : (Phase.charging c [] vals).Ok cfg now) (hle : c.now ≤ now) :
    (charge cfg c.now vals = .proceed → (Phase.writing c).Ok cfg now) ∧
      ∀ d, charge cfg c.now vals = .wait d → (Phase.waiting c (now + d.toNat)).Ok cfg now := by
  constructor
  · intro hproceed m hm
    have hunder := not_over_of_proceed hproceed hm
    obtain hg | hover | hwin := (hok.2 m).2 List.not_mem_nil
    · exact .inl hg
    · omega
    · exact .inr hwin
  · intro d hwait m hm
    obtain hg | hover | hwin := (hok.2 m).2 List.not_mem_nil
    · exact .inl hg
    · have hends := ends_le_of_wait hwait hm hover
      exact .inr (.inl (by omega))
    · exact .inr (.inr hwin)

theorem Inv.step (h : Inv cfg s) {a : Act κ} {t : State κ} (hg : NoFaults s a)
    (hs : step cfg s a = some t) : Inv cfg t := by
  cases a with
  | tick n =>
    cases hs
    exact h.tick n
  | lapse m i =>
    simp only [Pacing.step] at hs
    split at hs
    · split at hs <;> cases hs
      exact h.lapse ‹_› ‹_›
    · cases hs
  | start k | ended k =>
    simp only [Pacing.step] at hs
    split at hs <;> cases hs
    exact h.drop rfl trivial
  | read k size =>
    simp only [Pacing.step] at hs
    split at hs
    · split at hs <;> rename_i hsize <;> cases hs
      exact h.read k hsize.2
    · cases hs
  | cmd k =>
    simp only [Pacing.step] at hs
    split at hs <;> cases hs
    rename_i c x todo vals hk
    cases x with
    | incr m => exact h.incr hk
    | expireNX m => exact h.expireNX hk
  | fails k => exact hg.elim
  | charged k =>
    simp only [Pacing.step] at hs
    split at hs
    · rename_i c vals hk
      have hok := h.phase k
      rw [hk] at hok
      obtain ⟨hproceed, hwait⟩ := charged_ok hok (h.chunk k c (by rw [hk]; rfl)).now_le
      split at hs <;> rename_i hans <;> cases hs
      · exact h.keep (by rw [hk]; rfl) (hproceed hans)
      · exact h.keep (by rw [hk]; rfl) (hwait _ hans)
      · exact h.drop rfl trivial
    · cases hs
  | wake k =>
    simp only [Pacing.step] at hs
    split at hs
    · rename_i c till hk
      have hok := h.phase k
      rw [hk] at hok
      split at hs <;> rename_i hle <;> cases hs
      refine h.keep (by rw [hk]; rfl) fun m hm => ?_
      obtain hg | hends | hwin := hok m hm
      · exact .inl hg
      · exact .inr (Meter.windowAt_lt_of_ends_le (hends.trans (Int.ofNat_le.2 hle)))
      · exact .inr hwin
    · cases hs
  | abandon k => exact hg.elim
  | write k =>
    simp only [Pacing.step] at hs
    split at hs <;> cases hs
    rename_i c hk
    exact h.forward hk le_rfl rfl trivial
  | writeFails k n =>
    simp only [Pacing.step] at hs
    split at hs
    · rename_i c hk
      split at hs <;> cases hs
      exact h.forward hk ‹_› rfl trivial
    · cases hs

theorem inv_of_reach (h : (system cfg).Reach NoFaults s) : Inv cfg s :=
  h.invariant inv_init fun _ _ _ _ hi hg hs => hi.step hg hs

omit [DecidableEq κ] in
/-- What is written in a window is within the cap, but for one chunk of each copy. -/
theorem Inv.forwarded_le (h : Inv cfg s) (hm : cfg.capped m = true) (i : Nat) :
    forwarded s m i ≤ cfg.cap m + Fintype.card κ * m.weight chunkSize := by
  have hone := sum_doneIn_le h.sequential m.windowAt_mono
    (fun k w hw => m.weight_mono (h.logged k w hw).2) i
  have hwithin : ∑ k, amount m.weight (within m.windowAt i) (s.log k) ≤ s.booked m i :=
    Finset.sum_le_sum fun k _ => Nat.le_add_right ..
  exact hone.trans (Nat.add_le_add_right (hwithin.trans (h.book m i hm)) _)

/-- **The overshoot of the caps is one chunk for each copy.**  In every second, the bytes that are
forwarded are within the byte cap and a chunk for each copy, and the reads within the packet cap, if
there is one, and one for each copy; the bytes of every day and of every week are within their caps
and a chunk for each copy. -/
theorem overshoot_of_one_chunk (h : (system cfg).Reach NoFaults s) (i : Nat) :
    forwarded s .bytes i ≤ cfg.bwRate + Fintype.card κ * chunkSize ∧
    (0 < cfg.pktCap → forwarded s .packets i ≤ cfg.pktCap + Fintype.card κ) ∧
    forwarded s .day i ≤ cfg.dayCap + Fintype.card κ * chunkSize ∧
    forwarded s .week i ≤ cfg.weekCap + Fintype.card κ * chunkSize := by
  have hinv := inv_of_reach h
  refine ⟨hinv.forwarded_le rfl i, fun hp => ?_, hinv.forwarded_le rfl i, hinv.forwarded_le rfl i⟩
  have hle := hinv.forwarded_le (m := .packets) (decide_eq_true hp) i
  have hone : Meter.packets.weight chunkSize = 1 := rfl
  rwa [hone, Nat.mul_one] at hle

/-- A cap that takes one chunk of a second, and not two. -/
def oneChunk : Config := ⟨20000, 10, 1000000, 1000000⟩

/-- A copy reads a chunk and is answered. -/
def reads (k : Bool) : List (Act Bool) :=
  .read k chunkSize :: List.replicate 8 (Act.cmd k) ++ [Act.charged k]

/-- Two copies read a chunk each, and one of them has to wait.  In the next second it writes its
chunk, and the other one another: both are forwarded. -/
theorem two_chunks_in_a_second :
    ∃ s : State Bool, (system oneChunk).Reach NoFaults s ∧ forwarded s .bytes 1 = 2 * chunkSize ∧
      oneChunk.bwRate < forwarded s .bytes 1 ∧
      forwarded s .bytes 1 ≤ oneChunk.bwRate + 2 * chunkSize := by
  have hrun : ((system oneChunk).execWith NoFaults (system oneChunk).init
      ([Act.start false, .start true] ++ reads false ++ reads true ++
        [Act.write false, .tick 1000000000, .wake true, .write true] ++ reads false ++
        [Act.write false])).any (fun s => forwarded s .bytes 1 = 2 * chunkSize) = true := by
    decide +kernel
  obtain ⟨s, hreach, hs⟩ := Lts.exists_reach_of_any hrun
  refine ⟨s, hreach, hs, ?_, (overshoot_of_one_chunk hreach 1).1⟩
  rw [hs]
  decide

end Tunneld.Pacing

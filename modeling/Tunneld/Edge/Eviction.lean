import Tunneld.Lib.Lts
import Mathlib.Data.List.Sort

/-!
# Evicting a stream to make room for another

A tunnel may have so many public streams at a time, over all nodes; the slots are kept in Valkey.
A connection that finds no slot evicts a stream: the least active one on its own node or, if there
is none it may evict, one on another node, which it asks over the mesh.  `evictLeastActive` chooses
a stream under the lock of the node's streams, but marks it after the lock is gone.  Between the
two, the stream may end on its own or be chosen by somebody else; so the mark is a compare-and-swap,
and whoever loses it looks for another stream.  The slot of a stream is released by whoever comes
first, the evictor or the stream's own handler, through a `sync.Once`.

The reads of one scan are modelled one by one, since the streams go on meanwhile: their activity is
stored in atomics that the lock does not protect.  Clocks are inputs, so they may show anything.

The proof is an outline: `Outline` says what is true where a call stands, `Frame.outline` that no
other step makes it false, and one lemma for each step of a call that it moves on to what is true
next.

## Main results

* `eviction_frees_one_slot`: a call that returns true has marked a stream of its own, which it was
  allowed to evict, and each slot is released once;
* `true_without_eviction`: two calls that return true for another reason.
-/

namespace Tunneld.Eviction

open Function

/-! ## Streams and calls -/

/-- A `sync.Once`. -/
inductive Once
  | fresh
  /-- Somebody is in the function; others wait. -/
  | running
  | done
  deriving DecidableEq

/-- The node a public connection came to, and the tunnel it names. -/
structure Req where
  node : String
  tunnel : String
  deriving DecidableEq

/-- How `AcquireStream` answers. -/
inductive Acquired
  | taken
  | full
  | failed
  deriving DecidableEq

/-- `slotRetries`. -/
def slotRetries : Nat := 5

/-- `slotFreeConcurrency`. -/
def slotFreeConcurrency : Nat := 32

/-- Where `handleTunnel` stands. -/
inductive Stage (χ ρ : Type)
  | idle
  /-- `AcquireStream` is next; so many tries of `evictAndAcquire` are left after it. -/
  | acquire (left : Nat)
  /-- The head of the loop in `evictAndAcquire`. -/
  | retry (left : Nat)
  /-- In `evictLeastActive`, the call `x`. -/
  | evicting (left : Nat) (x : χ)
  /-- In `FreeRemoteSlot`, the call `r`. -/
  | freeing (left : Nat) (r : ρ)
  | refused
  /-- It has a slot, and `releaseSlot` is deferred; `openFar` is under way. -/
  | opening
  /-- It is tracked, and spliced. -/
  | splicing
  /-- The deferred `untrackStream` is next. -/
  | untracking
  /-- The deferred `cancel` is next. -/
  | cancelling
  /-- The deferred `releaseSlot` is next. -/
  | releasing
  | inRelease
  | returned
  deriving DecidableEq

/-- A public connection to a tunnel, and its `activeStream`. -/
structure Stream (χ ρ : Type) where
  stage : Stage χ ρ
  connID : String
  /-- When it last had traffic, in nanoseconds. -/
  lastAct : Int
  /-- Its traffic in the rolling window, in bytes. -/
  recent : Int
  evicted : Bool
  cancelled : Bool
  /-- `slotOnce`. -/
  once : Once
  /-- How often `ReleaseStream` was called for it.  No code reads this. -/
  released : Nat

/-- Who called `leastActive`. -/
inductive Op (σ ρ : Type)
  /-- `evictAndAcquire`, for the stream `c`. -/
  | own (c : σ)
  /-- `FreeSlot`, for the `FreeRemoteSlot` call `r` of another node. -/
  | free (r : ρ)
  | candidate
  deriving DecidableEq

/-- Where a call of `evictLeastActive` or `SlotCandidate` stands. -/
inductive Pc (σ : Type)
  | idle
  /-- The clock is read next. -/
  | started
  /-- The lock is taken next. -/
  | clocked (now : Int)
  /-- In the loop over the streams, with the victim so far and how long it has been idle. -/
  | scan (now : Int) (todo : List σ) (best : Option (σ × Int))
  /-- `lastAct` of `v` is read next. -/
  | idleOf (now : Int) (v : σ) (todo : List σ) (best : Option (σ × Int))
  /-- `recent` of `v` is read next. -/
  | rateOf (now : Int) (v : σ) (idle : Int) (todo : List σ) (best : Option (σ × Int))
  /-- The compare-and-swap is next. -/
  | chosen (v : σ)
  /-- `cancel` is next. -/
  | marked (v : σ)
  /-- `release` is next. -/
  | cancelled (v : σ)
  | inRelease (v : σ)
  /-- `evictLeastActive` has returned: true, with the victim, or false. -/
  | returned (victim : Option σ)
  /-- `SlotCandidate` has returned. -/
  | offered (idle : Option Int)
  deriving DecidableEq

/-- A call of `evictLeastActive` or `SlotCandidate`. -/
structure Call (σ ρ : Type) where
  node : String
  tunnel : String
  op : Op σ ρ
  pc : Pc σ

/-- What `FreeRemoteSlot` found. -/
inductive Verdict (χ : Type)
  | none
  /-- A peer answered that its `FreeSlot`, the call `x`, was true. -/
  | applied (x : χ)
  /-- The mesh call failed. -/
  | lost
  deriving DecidableEq

/-- What `FreeRemoteSlot` returns. -/
def Verdict.freed {χ : Type} : Verdict χ → Bool
  | .none => false
  | .applied _ | .lost => true

/-- Where a call of `FreeRemoteSlot` stands. -/
inductive RemotePc (χ : Type)
  | idle
  /-- It asks the other nodes for candidates. -/
  | querying
  /-- It has these nodes left to ask for a slot. -/
  | trying (offers : List String)
  /-- It has sent the request that the call `x` serves. -/
  | waiting (x : χ) (offers : List String)
  | returned (v : Verdict χ)
  deriving DecidableEq

/-- A call of `FreeRemoteSlot`. -/
structure Remote (χ : Type) where
  node : String
  tunnel : String
  pc : RemotePc χ

/-- How a node answers `slot-candidate`. -/
inductive Reply
  | failed
  | notApplied
  | applied (idleMS : Int)

/-- `offers`: the other nodes that have a candidate, the idlest first. -/
def offers (self : String) (replies : List (String × Reply)) : List (String × Int) :=
  (replies.filterMap fun p => match p.2 with
    | .applied idle => if p.1 = self then none else some (p.1, idle)
    | .failed | .notApplied => none).insertionSort fun a b => b.2 ≤ a.2

/-- Where a call of `EvictTunnelStreams` or `EvictConnStreams` stands; only the second answers. -/
inductive Purge (σ : Type)
  | idle
  | todo (victims : List σ) (answer : Option Bool)
  | returned (answer : Option Bool)
  deriving DecidableEq

/-- The nodes, with their streams and the calls on them. -/
structure State (σ χ ρ π : Type) where
  stream : σ → Stream χ ρ
  streams : String → List σ
  /-- Who holds `e.smu` from one step to the next. -/
  smu : String → Option χ
  call : χ → Call σ ρ
  remote : ρ → Remote χ
  /-- The length of `inflight`. -/
  inflight : String → Nat
  purge : π → Purge σ

/-- What can happen next. -/
inductive Act (σ χ ρ π : Type)
  /-- `handleTunnel` comes to the slots. -/
  | handle (c : σ)
  | acquired (c : σ) (a : Acquired)
  /-- A round of `evictAndAcquire`, which calls `evictLeastActive` unless its time is up. -/
  | retry (c : σ) (expired : Bool) (x : χ)
  /-- `evictLeastActive` has returned to it; if it was false, `FreeRemoteSlot` is called. -/
  | evicted (c : σ) (r : ρ)
  /-- `FreeRemoteSlot` has returned to it. -/
  | freed (c : σ)
  | openFailed (c : σ)
  /-- The far side is open; the stream is tracked. -/
  | opened (c : σ) (connID : String) (now : Int)
  /-- `lastAct.Store`. -/
  | act (c : σ) (now : Int)
  /-- `recent.Add`. -/
  | bytes (c : σ) (n : Int)
  /-- `recent.Store`, in the watcher. -/
  | rolling (c : σ) (n : Int)
  /-- The splice is over, or panics. -/
  | ended (c : σ)
  /-- The next deferred call of `handleTunnel`. -/
  | unwind (c : σ)
  | candidate (x : χ) (node tunnel : String)
  | clock (x : χ) (now : Int)
  /-- The lock, and the order in which the loop takes the streams. -/
  | lock (x : χ) (order : List σ)
  | go (x : χ)
  /-- The answers to `slot-candidate` are in. -/
  | offers (r : ρ) (replies : List (String × Reply))
  /-- The request to the first node; the call `x` serves it. -/
  | ask (r : ρ) (x : χ)
  | exhausted (r : ρ)
  | answer (r : ρ)
  /-- No answer, or no request. -/
  | lost (r : ρ)
  | evictTunnelStreams (p : π) (node tunnel : String)
  | evictConnStreams (p : π) (node tunnel connID : String)
  /-- The next victim of one of these. -/
  | purge (p : π)

/-- `EvictIdle` and `ProtectRate`. -/
structure Cfg where
  evictIdle : Int
  protectRate : Int

section Step

variable {σ χ ρ π : Type} [DecidableEq σ] [DecidableEq χ] [DecidableEq ρ] [DecidableEq π]

def State.setStream (s : State σ χ ρ π) (c : σ) (y : Stream χ ρ) : State σ χ ρ π :=
  { s with stream := update s.stream c y }

@[simp] def State.setCall (s : State σ χ ρ π) (x : χ) (y : Call σ ρ) : State σ χ ρ π :=
  { s with call := update s.call x y }

@[simp] def State.setRemote (s : State σ χ ρ π) (r : ρ) (y : Remote χ) : State σ χ ρ π :=
  { s with remote := update s.remote r y }

def State.setPurge (s : State σ χ ρ π) (p : π) (y : Purge σ) : State σ χ ρ π :=
  { s with purge := update s.purge p y }

def State.setStreams (s : State σ χ ρ π) (n : String) (l : List σ) : State σ χ ρ π :=
  { s with streams := update s.streams n l }

/-- A handler moves on. -/
def State.setStage (s : State σ χ ρ π) (c : σ) (p : Stage χ ρ) : State σ χ ρ π :=
  s.setStream c { s.stream c with stage := p }

/-- A call moves on. -/
@[simp] def State.setPc (s : State σ χ ρ π) (x : χ) (p : Pc σ) : State σ χ ρ π :=
  s.setCall x { s.call x with pc := p }

/-- `cancel` of a stream. -/
def State.cancel (s : State σ χ ρ π) (c : σ) : State σ χ ρ π :=
  s.setStream c { s.stream c with cancelled := true }

/-- A call of `FreeRemoteSlot` begins; it gives up if too many are under way. -/
def State.freeRemoteSlot (s : State σ χ ρ π) (r : ρ) (node tunnel : String) : State σ χ ρ π :=
  if s.inflight node < slotFreeConcurrency then
    { s.setRemote r ⟨node, tunnel, .querying⟩ with
      inflight := update s.inflight node (s.inflight node + 1) }
  else s.setRemote r ⟨node, tunnel, .returned .none⟩

/-- A call of `FreeRemoteSlot` ends. -/
def State.endRemote (s : State σ χ ρ π) (r : ρ) (v : Verdict χ) : State σ χ ρ π :=
  { s.setRemote r { s.remote r with pc := .returned v } with
    inflight := update s.inflight (s.remote r).node (s.inflight (s.remote r).node - 1) }

/-- How long the victim so far has been idle. -/
def victimIdle (best : Option (σ × Int)) : Int := best.elim (-1) Prod.snd

/-- What `leastActive` returns to its caller. -/
def endScan (op : Op σ ρ) (best : Option (σ × Int)) : Pc σ :=
  match op, best with
  | .candidate, best => .offered (best.map Prod.snd)
  | .own _, some b | .free _, some b => .chosen b.1
  | .own _, none | .free _, none => .returned none

/-- One step of `evictLeastActive` or `SlotCandidate`, after the lock is taken. -/
def goCall (cfg : Cfg) (req : σ → Req) (s : State σ χ ρ π) (x : χ) : Option (State σ χ ρ π) :=
  match (s.call x).pc with
  | .scan now (v :: todo) best =>
    some (s.setPc x (if (req v).tunnel ≠ (s.call x).tunnel ∨ (s.stream v).evicted = true then
      .scan now todo best else .idleOf now v todo best))
  | .idleOf now v todo best =>
    some (s.setPc x (.rateOf now v (now - (s.stream v).lastAct) todo best))
  | .rateOf now v idle todo best =>
    some (s.setPc x (.scan now todo
      (if (cfg.evictIdle ≤ idle ∨ (s.stream v).recent < cfg.protectRate) ∧ victimIdle best < idle
        then some (v, idle) else best)))
  | .scan _ [] best =>
    some { s.setPc x (endScan (s.call x).op best) with
      smu := update s.smu (s.call x).node none }
  | .chosen v =>
    if (s.stream v).evicted = true then some (s.setPc x .started)
    else some ((s.setStream v { s.stream v with evicted := true }).setPc x (.marked v))
  | .marked v => some ((s.cancel v).setPc x (.cancelled v))
  | .cancelled v =>
    match (s.stream v).once with
    | .fresh => some ((s.setStream v { s.stream v with
        once := .running, released := (s.stream v).released + 1 }).setPc x (.inRelease v))
    | .running => none
    | .done => some (s.setPc x (.returned (some v)))
  | .inRelease v =>
    some ((s.setStream v { s.stream v with once := .done }).setPc x (.returned (some v)))
  | .idle | .started | .clocked _ | .returned _ | .offered _ => none

/-- The deferred calls of `handleTunnel`, the last one first. -/
def unwind (req : σ → Req) (s : State σ χ ρ π) (c : σ) : Option (State σ χ ρ π) :=
  match (s.stream c).stage with
  | .untracking =>
    if s.smu (req c).node = none then
      some ((s.setStage c .cancelling).setStreams (req c).node
        ((s.streams (req c).node).erase c))
    else none
  | .cancelling => some (s.setStream c { s.stream c with stage := .releasing, cancelled := true })
  | .releasing =>
    match (s.stream c).once with
    | .fresh => some (s.setStream c { s.stream c with
        stage := .inRelease, once := .running, released := (s.stream c).released + 1 })
    | .running => none
    | .done => some (s.setStage c .returned)
  | .inRelease => some (s.setStream c { s.stream c with stage := .returned, once := .done })
  | .idle | .acquire _ | .retry _ | .evicting _ _ | .freeing _ _ | .refused | .opening | .splicing
  | .returned => none

/-- The state after an action, if it is possible. -/
def step (cfg : Cfg) (req : σ → Req) (s : State σ χ ρ π) :
    Act σ χ ρ π → Option (State σ χ ρ π)
  | .handle c =>
    if (s.stream c).stage = .idle then some (s.setStage c (.acquire slotRetries)) else none
  | .acquired c a =>
    match (s.stream c).stage with
    | .acquire k => some (s.setStage c (if a = .full then .retry k else .opening))
    | _ => none
  | .retry c expired x =>
    match (s.stream c).stage with
    | .retry 0 => some (s.setStage c .refused)
    | .retry (k + 1) =>
      if expired then some (s.setStage c .refused)
      else if (s.call x).pc = .idle then
        some ((s.setStage c (.evicting k x)).setCall x
          ⟨(req c).node, (req c).tunnel, .own c, .started⟩)
      else none
    | _ => none
  | .evicted c r =>
    match (s.stream c).stage with
    | .evicting k x =>
      match (s.call x).pc with
      | .returned (some _) => some (s.setStage c (.acquire k))
      | .returned none =>
        if (s.remote r).pc = .idle then
          some ((s.setStage c (.freeing k r)).freeRemoteSlot r (req c).node (req c).tunnel)
        else none
      | _ => none
    | _ => none
  | .freed c =>
    match (s.stream c).stage with
    | .freeing k r =>
      match (s.remote r).pc with
      | .returned v => some (s.setStage c (if v.freed then .acquire k else .refused))
      | _ => none
    | _ => none
  | .openFailed c => if (s.stream c).stage = .opening then some (s.setStage c .releasing) else none
  | .opened c connID now =>
    if (s.stream c).stage = .opening ∧ s.smu (req c).node = none then
      some ((s.setStream c { s.stream c with
        stage := .splicing, connID := connID, lastAct := now }).setStreams (req c).node
          (c :: s.streams (req c).node))
    else none
  | .act c now =>
    if (s.stream c).stage = .splicing then
      some (s.setStream c { s.stream c with lastAct := now })
    else none
  | .bytes c n =>
    if (s.stream c).stage = .splicing then
      some (s.setStream c { s.stream c with recent := (s.stream c).recent + n })
    else none
  | .rolling c n =>
    if (s.stream c).stage = .splicing then
      some (s.setStream c { s.stream c with recent := n })
    else none
  | .ended c =>
    if (s.stream c).stage = .splicing then some (s.setStage c .untracking) else none
  | .unwind c => unwind req s c
  | .candidate x node tunnel =>
    if (s.call x).pc = .idle then some (s.setCall x ⟨node, tunnel, .candidate, .started⟩) else none
  | .clock x now =>
    if (s.call x).pc = .started then some (s.setPc x (.clocked now)) else none
  | .lock x order =>
    match (s.call x).pc with
    | .clocked now =>
      if s.smu (s.call x).node = none ∧ order.Perm (s.streams (s.call x).node) then
        some { s.setPc x (.scan now order none) with
          smu := update s.smu (s.call x).node (some x) }
      else none
    | _ => none
  | .go x => goCall cfg req s x
  | .offers r replies =>
    if (s.remote r).pc = .querying then
      some (s.setRemote r { s.remote r with
        pc := .trying ((offers (s.remote r).node replies).map Prod.fst) })
    else none
  | .ask r x =>
    match (s.remote r).pc with
    | .trying (n :: rest) =>
      if (s.call x).pc = .idle then
        some ((s.setRemote r { s.remote r with pc := .waiting x rest }).setCall x
          ⟨n, (s.remote r).tunnel, .free r, .started⟩)
      else none
    | _ => none
  | .exhausted r =>
    if (s.remote r).pc = .trying [] then some (s.endRemote r .none) else none
  | .answer r =>
    match (s.remote r).pc with
    | .waiting x rest =>
      match (s.call x).pc with
      | .returned (some _) => some (s.endRemote r (.applied x))
      | .returned none => some (s.setRemote r { s.remote r with pc := .trying rest })
      | _ => none
    | _ => none
  | .lost r =>
    match (s.remote r).pc with
    | .trying (_ :: _) | .waiting _ _ => some (s.endRemote r .lost)
    | _ => none
  | .evictTunnelStreams p node tunnel =>
    if s.purge p = .idle ∧ s.smu node = none then
      some (s.setPurge p (.todo ((s.streams node).filter fun v => (req v).tunnel = tunnel) none))
    else none
  | .evictConnStreams p node tunnel connID =>
    if s.purge p = .idle ∧ s.smu node = none then
      let victims := (s.streams node).filter fun v =>
        (req v).tunnel = tunnel ∧ (s.stream v).connID = connID
      some (s.setPurge p (.todo victims (some (!victims.isEmpty))))
    else none
  | .purge p =>
    match s.purge p with
    | .todo (v :: rest) answer => some ((s.cancel v).setPurge p (.todo rest answer))
    | .todo [] answer => some (s.setPurge p (.returned answer))
    | _ => none

/-- A cluster before the first connection. -/
def system (cfg : Cfg) (req : σ → Req) : Lts (State σ χ ρ π) (Act σ χ ρ π) where
  init :=
    { stream _ := ⟨.idle, "", 0, 0, false, false, .fresh, 0⟩
      streams _ := []
      smu _ := none
      call _ := ⟨"", "", .candidate, .idle⟩
      remote _ := ⟨"", "", .idle⟩
      inflight _ := 0
      purge _ := .idle }
  step := step cfg req

end Step

/-! ## The streams -/

section Streams

variable {χ ρ : Type}

/-- The slot is released once, by whoever gets into the `sync.Once`; the handler returns only when
that is over. -/
structure Stream.Ok (x : Stream χ ρ) : Prop where
  released : x.released = if x.once = .fresh then 0 else 1
  inRelease : x.stage = .inRelease → x.once ≠ .fresh
  returned : x.stage = .returned → x.once = .done

/-- What a step may do to a stream: the marks stay, and a `sync.Once` moves on. -/
structure Stream.Le (x y : Stream χ ρ) : Prop where
  ok : x.Ok → y.Ok
  evicted : x.evicted = true → y.evicted = true
  cancelled : x.cancelled = true → y.cancelled = true
  begun : x.once ≠ .fresh → y.once ≠ .fresh
  done : x.once = .done → y.once = .done

namespace Stream.Le

variable {x : Stream χ ρ} {p : Stage χ ρ}

theorem refl : x.Le x := ⟨id, id, id, id, id⟩

theorem move {k : String} {l n : Int} (hp : p = .returned → x.once = .done)
    (hq : p ≠ .inRelease) : x.Le { x with stage := p, connID := k, lastAct := l, recent := n } :=
  ⟨fun h => ⟨h.released, fun hp' => absurd hp' hq, hp⟩, id, id, id, id⟩

theorem evict : x.Le { x with evicted := true } :=
  ⟨fun h => ⟨h.released, h.inRelease, h.returned⟩, fun _ => rfl, id, id, id⟩

theorem cancel : x.Le { x with cancelled := true } :=
  ⟨fun h => ⟨h.released, h.inRelease, h.returned⟩, id, fun _ => rfl, id, id⟩

theorem cancelOwn : x.Le { x with stage := .releasing, cancelled := true } :=
  ⟨fun h => ⟨h.released, by simp, by simp⟩, id, fun _ => rfl, id, id⟩

theorem run (h : x.once = .fresh) (hp : p = x.stage ∨ p = .inRelease) :
    x.Le { x with stage := p, once := .running, released := x.released + 1 } := by
  refine ⟨fun hx => ⟨by simp [hx.released, h], by simp, fun hr => ?_⟩, id, id, by simp, by simp [h]⟩
  rcases hp with rfl | rfl
  · have := hx.returned hr
    simp [h] at this
  · simp at hr

theorem finish (h : x.once ≠ .fresh) :
    x.Le { x with stage := p, once := .done } :=
  ⟨fun hx => ⟨by simp [hx.released, h], by simp, by simp⟩, id, id, by simp, by simp⟩

end Stream.Le

end Streams

/-! ## The cases -/

section Cases

variable {σ χ ρ π : Type} [DecidableEq σ] (cfg : Cfg) (req : σ → Req) (s : State σ χ ρ π)

variable (x : χ) in
/-- How a call moves from one place to the next, and what becomes of the streams and the lock. -/
inductive Go : Pc σ → Pc σ → (σ → Stream χ ρ) → (String → Option χ) → Prop
  | skip {now v todo best} : Go (.scan now (v :: todo) best) (.scan now todo best) s.stream s.smu
  | look {now v todo best} (tunnel : (req v).tunnel = (s.call x).tunnel) :
    Go (.scan now (v :: todo) best) (.idleOf now v todo best) s.stream s.smu
  | measure {now v todo best} :
    Go (.idleOf now v todo best) (.rateOf now v (now - (s.stream v).lastAct) todo best)
      s.stream s.smu
  | keep {now idle v todo best} :
    Go (.rateOf now v idle todo best) (.scan now todo best) s.stream s.smu
  | pick {now idle v todo best}
      (evictable : cfg.evictIdle ≤ idle ∨ (s.stream v).recent < cfg.protectRate) :
    Go (.rateOf now v idle todo best) (.scan now todo (some (v, idle))) s.stream s.smu
  | choose {now b} :
    Go (.scan now [] (some b)) (.chosen b.1) s.stream (update s.smu (s.call x).node none)
  | none {now} :
    Go (.scan now [] none) (.returned none) s.stream (update s.smu (s.call x).node none)
  | offer {now best r} :
    Go (.scan now [] best) (.offered r) s.stream (update s.smu (s.call x).node none)
  | again {v} : Go (.chosen v) .started s.stream s.smu
  | mark {v} (unmarked : (s.stream v).evicted = false) :
    Go (.chosen v) (.marked v) (update s.stream v { s.stream v with evicted := true }) s.smu
  | cancel {v} :
    Go (.marked v) (.cancelled v) (update s.stream v { s.stream v with cancelled := true }) s.smu
  | run {v} (fresh : (s.stream v).once = .fresh) :
    Go (.cancelled v) (.inRelease v) (update s.stream v
      { s.stream v with once := .running, released := (s.stream v).released + 1 }) s.smu
  | pass {v} (done : (s.stream v).once = .done) :
    Go (.cancelled v) (.returned (some v)) s.stream s.smu
  | finish {v} :
    Go (.inRelease v) (.returned (some v)) (update s.stream v { s.stream v with once := .done })
      s.smu

variable [DecidableEq χ]

variable {cfg req s} in
theorem go_of_goCall {t : State σ χ ρ π} {x : χ} (hs : goCall cfg req s x = some t) :
    ∃ p f m, Go cfg req s x (s.call x).pc p f m ∧
      t = { s.setPc x p with stream := f, smu := m } := by
  revert hs
  fun_cases goCall cfg req s x <;> rintro ⟨⟩ <;> refine ⟨_, _, _, ?_, rfl⟩ <;>
    rw [‹(s.call x).pc = _›]
  all_goals try first
    | exact .measure
    | exact .again
    | exact .mark (Bool.eq_false_of_not_eq_true ‹_›)
    | exact .cancel
    | exact .run ‹_›
    | exact .pass ‹_›
    | exact .finish
  · split
    · exact .skip
    · rename_i hv
      exact .look (by simpa using (not_or.1 hv).1)
  · split
    · rename_i hv
      exact .pick hv.1
    · exact .keep
  · rename_i best _
    cases (s.call x).op <;> cases best <;> simp only [endScan] <;> constructor

variable [DecidableEq ρ] [DecidableEq π]

/-- What a step can be. -/
inductive Step : Act σ χ ρ π → State σ χ ρ π → Prop
  /-- A handler moves on, or there is traffic. -/
  | stream {a c y} (le : (s.stream c).Le y) : Step a (s.setStream c y)
  /-- The handler comes out of `ReleaseStream`. -/
  | finish {c} (stage : (s.stream c).stage = .inRelease) :
    Step (.unwind c) (s.setStream c { s.stream c with stage := .returned, once := .done })
  | track {a c y l} (le : (s.stream c).Le y) (free : s.smu (req c).node = none)
      (home : ∀ v ∈ l, v ∈ s.streams (req c).node ∨ v = c) :
    Step a ((s.setStream c y).setStreams (req c).node l)
  /-- `evictAndAcquire` calls `evictLeastActive`. -/
  | evict {c k expired x} (idle : (s.call x).pc = .idle) :
    Step (.retry c expired x) ((s.setStage c (.evicting k x)).setCall x
      ⟨(req c).node, (req c).tunnel, .own c, .started⟩)
  /-- And then `FreeRemoteSlot`. -/
  | freeRemote {c r k} :
    Step (.evicted c r)
      ((s.setStage c (.freeing k r)).freeRemoteSlot r (req c).node (req c).tunnel)
  | candidate {x node tunnel} (idle : (s.call x).pc = .idle) :
    Step (.candidate x node tunnel) (s.setCall x ⟨node, tunnel, .candidate, .started⟩)
  | clock {x now} (started : (s.call x).pc = .started) :
    Step (.clock x now) (s.setPc x (.clocked now))
  | lock {x order now} (clocked : (s.call x).pc = .clocked now)
      (free : s.smu (s.call x).node = none) (perm : order.Perm (s.streams (s.call x).node)) :
    Step (.lock x order) { s.setPc x (.scan now order none) with
      smu := update s.smu (s.call x).node (some x) }
  | go {x t} (go : goCall cfg req s x = some t) : Step (.go x) t
  /-- `FreeRemoteSlot` has its offers, or one of them less. -/
  | trying {a r l} : Step a (s.setRemote r { s.remote r with pc := .trying l })
  | ask {r x n rest} (idle : (s.call x).pc = .idle) :
    Step (.ask r x) ((s.setRemote r { s.remote r with pc := .waiting x rest }).setCall x
      ⟨n, (s.remote r).tunnel, .free r, .started⟩)
  | applied {r x rest v} (waiting : (s.remote r).pc = .waiting x rest)
      (returned : (s.call x).pc = .returned (some v)) :
    Step (.answer r) (s.endRemote r (.applied x))
  /-- `FreeRemoteSlot` ends without an answer. -/
  | unanswered {a r v} (verdict : v = .none ∨ v = .lost) : Step a (s.endRemote r v)
  | purge {a p y} : Step a (s.setPurge p y)
  | cancel {p v y} : Step (.purge p) ((s.cancel v).setPurge p y)

variable {cfg req s} {t : State σ χ ρ π} {c : σ} {a : Act σ χ ρ π}

theorem step_of_unwind (hs : unwind req s c = some t) : Step cfg req s (.unwind c) t := by
  revert hs
  fun_cases Eviction.unwind req s c <;> rintro ⟨⟩
  all_goals first
    | exact .stream .cancelOwn
    | exact .stream (.run ‹_› (.inr rfl))
    | exact .finish ‹_›
    | exact .stream (.move (fun _ => ‹_›) (by simp))
    | exact .track (.move (by simp) (by simp)) ‹_› fun v hv => .inl (List.mem_of_mem_erase hv)

theorem step_cases (hs : step cfg req s a = some t) : Step cfg req s a t := by
  revert hs
  fun_cases Eviction.step cfg req s a <;> first | rintro ⟨⟩ | intro hs
  all_goals first
    | exact step_of_unwind hs
    | exact .go hs
    | exact .stream (.move (by simp) (by simp))
    | exact .stream (.move (by split <;> simp) (by split <;> simp))
    | exact .stream (.move (by simp [*]) (by simp [*]))
    | exact .track (.move (by simp) (by simp)) (‹_ ∧ _›).2 fun v hv => (List.mem_cons.1 hv).symm
    | exact .evict ‹_›
    | exact .freeRemote
    | exact .candidate ‹_›
    | exact .clock ‹_›
    | exact .lock ‹_› (‹_ ∧ _›).1 (‹_ ∧ _›).2
    | exact .trying
    | exact .ask ‹_›
    | exact .applied ‹_› ‹_›
    | exact .unanswered (by simp)
    | exact .purge
    | exact .cancel

end Cases

/-! ## The calls -/

section Calls

variable {σ χ ρ π : Type}
  {cfg : Cfg} {req : σ → Req} {s t : State σ χ ρ π} {x : χ} {v c : σ} {y : Stream χ ρ} {r : ρ}

/-- The call looks at the tracked stream `v`, and what it is about to read makes `v` evictable. -/
def Evictable (cfg : Cfg) (x : χ) (v : σ) (s : State σ χ ρ π) : Prop :=
  v ∈ s.streams (s.call x).node ∧
    ((∃ now todo best, (s.call x).pc = .idleOf now v todo best ∧
        cfg.evictIdle ≤ now - (s.stream v).lastAct) ∨
      ∃ now idle todo best, (s.call x).pc = .rateOf now v idle todo best ∧
        (s.stream v).recent < cfg.protectRate)

/-- The call looks at the tracked stream `v` and is about to find it idle for that long. -/
def Measured (now : Int) (idle : Int) (x : χ) (v : σ) (s : State σ χ ρ π) : Prop :=
  v ∈ s.streams (s.call x).node ∧
    (∃ todo best, (s.call x).pc = .idleOf now v todo best) ∧ idle = now - (s.stream v).lastAct

/-- The call has the lock, and goes over tracked streams. -/
def Locked (s : State σ χ ρ π) (x : χ) (todo : List σ) : Prop :=
  s.smu (s.call x).node = some x ∧ ∀ v ∈ todo, v ∈ s.streams (s.call x).node

/-- The stream that the call has marked. -/
@[simp] def Pc.owned : Pc σ → Option σ
  | .marked v | .cancelled v | .inRelease v => some v
  | .returned r => r
  | .idle | .started | .clocked _ | .scan _ _ _ | .idleOf _ _ _ _ | .rateOf _ _ _ _ _ | .chosen _
  | .offered _ => none

/-- The call is in the loop of `leastActive`. -/
@[simp] def Pc.scanning : Pc σ → Bool
  | .scan _ _ _ | .idleOf _ _ _ _ | .rateOf _ _ _ _ _ => true
  | .idle | .started | .clocked _ | .chosen _ | .marked _ | .cancelled _ | .inRelease _
  | .returned _ | .offered _ => false

/-- A step that is not one of the call `y`. -/
structure Frame (s t : State σ χ ρ π) (y : χ) : Prop where
  call : t.call y = s.call y
  le : ∀ v, (s.stream v).Le (t.stream v)
  lock : ∀ n, s.smu n = some y → t.smu n = some y ∧ t.streams n = s.streams n

theorem Frame.locked {y : χ} (h : Frame s t y) {todo : List σ} (hl : Locked s y todo) :
    Locked t y todo := by
  obtain ⟨hsmu, hstreams⟩ := h.lock _ hl.1
  rw [Locked, h.call, hsmu, hstreams]
  exact ⟨rfl, hl.2⟩

/-- A call keeps what it was called for, and its result. -/
def Call.Kept (c d : Call σ ρ) : Prop :=
  c.pc ≠ .idle → d.op = c.op ∧ d.tunnel = c.tunnel ∧ d.pc ≠ .idle ∧
    ∀ r, c.pc = .returned r → d.pc = .returned r

theorem Call.Kept.refl (c : Call σ ρ) : c.Kept c := fun h => ⟨rfl, rfl, h, fun _ => id⟩

/-- A step that is not one of a call. -/
structure Quiet (req : σ → Req) (s t : State σ χ ρ π) : Prop where
  call : t.call = s.call
  smu : t.smu = s.smu
  le : ∀ v, (s.stream v).Le (t.stream v)
  streams : ∀ n, t.streams n = s.streams n ∨ s.smu n = none
  home : ∀ n v, v ∈ t.streams n → v ∈ s.streams n ∨ (req v).node = n

theorem Quiet.frame (h : Quiet req s t) (y : χ) : Frame s t y := by
  refine ⟨by rw [h.call], h.le, fun n hn => ⟨by rw [h.smu, hn], ?_⟩⟩
  exact (h.streams n).resolve_right (by simp [hn])

theorem Quiet.same (ht : t.stream = s.stream) (hcall : t.call = s.call)
    (hsmu : t.smu = s.smu) (hstreams : t.streams = s.streams) : Quiet req s t := by
  refine ⟨hcall, hsmu, fun v => ?_, fun n => .inl (by rw [hstreams]), fun n v hv => .inl ?_⟩
  · rw [ht]
    exact .refl
  · rwa [hstreams] at hv

/-! ## The calls of other nodes -/

/-- The call `x` serves the request of the `FreeRemoteSlot` call `r`, and no other. -/
def Serves (s : State σ χ ρ π) (x : χ) (r : ρ) : Prop :=
  (s.call x).op = .free r ∧ (s.call x).tunnel = (s.remote r).tunnel ∧ (s.call x).pc ≠ .idle

/-- The answer that `FreeRemoteSlot` got is that of the call it made. -/
def Answered (s : State σ χ ρ π) (r : ρ) : Prop :=
  match (s.remote r).pc with
  | .waiting x _ => Serves s x r
  | .returned (.applied x) => Serves s x r ∧ ∃ v, (s.call x).pc = .returned (some v)
  | .idle | .querying | .trying _ | .returned .none | .returned .lost => True

theorem Serves.keep (h : Serves s x r) (hk : (s.call x).Kept (t.call x))
    (hr : (t.remote r).tunnel = (s.remote r).tunnel) : Serves t x r := by
  obtain ⟨hop, htunnel, hpc, -⟩ := hk h.2.2
  exact ⟨hop.trans h.1, by rw [htunnel, hr, h.2.1], hpc⟩

theorem Answered.keep (h : Answered s r) (hr : t.remote r = s.remote r)
    (hk : ∀ y, (s.call y).Kept (t.call y)) : Answered t r := by
  rw [Answered] at h ⊢
  rw [hr]
  split at h
  case h_1 x _ hpc => exact h.keep (hk x) (by rw [hr])
  case h_2 x hpc =>
    obtain ⟨v, hv⟩ := h.2
    exact ⟨h.1.keep (hk x) (by rw [hr]), v, (hk x h.1.2.2).2.2.2 _ hv⟩
  all_goals trivial

section Remote

variable [DecidableEq ρ] {z : Remote χ}

theorem answered_update (h : ∀ r, Answered s r) (ht : t.remote = update s.remote r z)
    (hk : ∀ y, (s.call y).Kept (t.call y)) (hz : Answered t r) (r' : ρ) : Answered t r' := by
  by_cases hr : r' = r
  · exact hr ▸ hz
  · exact (h r').keep (by rw [ht, update_of_ne hr]) hk

/-- A call of `FreeRemoteSlot` that begins has no answer yet. -/
theorem freeRemoteSlot_spec (s : State σ χ ρ π) (r : ρ) (node tunnel : String) :
    (s.freeRemoteSlot r node tunnel).stream = s.stream ∧
    (s.freeRemoteSlot r node tunnel).call = s.call ∧
    (s.freeRemoteSlot r node tunnel).smu = s.smu ∧
    (s.freeRemoteSlot r node tunnel).streams = s.streams ∧
    ∃ z, (z.pc = .querying ∨ z.pc = .returned .none) ∧
      (s.freeRemoteSlot r node tunnel).remote = update s.remote r z := by
  unfold State.freeRemoteSlot
  split
  · exact ⟨rfl, rfl, rfl, rfl, _, .inl rfl, rfl⟩
  · exact ⟨rfl, rfl, rfl, rfl, _, .inr rfl, rfl⟩

end Remote

variable [DecidableEq σ]

/-! ## What a step leaves alone -/

theorem update_le (h : (s.stream c).Le y) (v : σ) : (s.stream v).Le (update s.stream c y v) := by
  by_cases hv : v = c
  · subst hv
    rw [update_self]
    exact h
  · rw [update_of_ne hv]
    exact .refl

theorem Quiet.stream (hle : (s.stream c).Le y) (ht : t.stream = update s.stream c y)
    (hcall : t.call = s.call) (hsmu : t.smu = s.smu) (hstreams : t.streams = s.streams) :
    Quiet req s t := by
  refine ⟨hcall, hsmu, fun v => ?_, fun n => .inl (by rw [hstreams]), fun n v hv => .inl ?_⟩
  · rw [ht]
    exact update_le hle v
  · rwa [hstreams] at hv

/-- A stream changes, and with it the tracked streams of its node. -/
theorem Quiet.track {l : List σ} (hle : (s.stream c).Le y) (hfree : s.smu (req c).node = none)
    (hl : ∀ v ∈ l, v ∈ s.streams (req c).node ∨ v = c) :
    Quiet req s ((s.setStream c y).setStreams (req c).node l) := by
  refine ⟨rfl, rfl, update_le hle, fun n => ?_, fun n v hv => ?_⟩ <;> by_cases hn : n = (req c).node
  · exact .inr (hn ▸ hfree)
  · exact .inl (update_of_ne hn ..)
  · subst hn
    have hv : v ∈ l := by simpa [State.setStreams] using hv
    rcases hl v hv with hv | rfl
    · exact .inl hv
    · exact .inr rfl
  · left
    simpa [State.setStreams, State.setStream, hn] using hv

section Go

variable {p q : Pc σ} {f : σ → Stream χ ρ} {m : String → Option χ}

/-- Who marks a stream finds it unmarked. -/
theorem Go.owned (h : Go cfg req s x p q f m) (hq : q.owned = some v) :
    p.owned = some v ∨ (s.stream v).evicted = false := by
  cases h with
  | skip | look | measure | keep | pick | choose | none | offer | again => simp at hq
  | mark hv =>
    obtain rfl := Option.some.inj hq
    exact .inr hv
  | cancel | run | pass | finish => exact .inl hq

theorem Go.ne_idle (h : Go cfg req s x p q f m) : q ≠ .idle := by
  cases h <;> simp

theorem Go.not_returned (h : Go cfg req s x p q f m) {r : Option σ} : p ≠ .returned r := by
  cases h <;> simp

end Go

variable [DecidableEq χ] [DecidableEq ρ] [DecidableEq π] {a : Act σ χ ρ π}

/-- The stream `v` is one of the requested tunnel on this node, and was found evictable. -/
def Picked (cfg : Cfg) (req : σ → Req)
    (s : State σ χ ρ π) (x : χ) (v : σ) : Prop :=
  req v = ⟨(s.call x).node, (s.call x).tunnel⟩ ∧
    (system cfg req).Before Lts.always (Evictable cfg x v) s

/-- What is true where the call stands. -/
def Outline (cfg : Cfg) (req : σ → Req)
    (s : State σ χ ρ π) (x : χ) : Prop :=
  match (s.call x).pc with
  | .scan _ todo best => Locked s x todo ∧ ∀ b ∈ best, Picked cfg req s x b.1
  | .idleOf _ v todo best =>
    Locked s x (v :: todo) ∧ (∀ b ∈ best, Picked cfg req s x b.1) ∧
      (req v).tunnel = (s.call x).tunnel
  | .rateOf now v idle todo best =>
    Locked s x (v :: todo) ∧ (∀ b ∈ best, Picked cfg req s x b.1) ∧
      (req v).tunnel = (s.call x).tunnel ∧
      (system cfg req).Before Lts.always (Measured now idle x v) s
  | .chosen v => Picked cfg req s x v
  | .marked v => Picked cfg req s x v ∧ (s.stream v).evicted = true
  | .cancelled v =>
    Picked cfg req s x v ∧ (s.stream v).evicted = true ∧ (s.stream v).cancelled = true
  | .inRelease v =>
    Picked cfg req s x v ∧ (s.stream v).evicted = true ∧ (s.stream v).cancelled = true ∧
      (s.stream v).once ≠ .fresh
  | .returned (some v) =>
    Picked cfg req s x v ∧ (s.stream v).evicted = true ∧ (s.stream v).cancelled = true ∧
      (s.stream v).once = .done
  | .idle | .started | .clocked _ | .returned none | .offered _ => True

theorem Picked.next (h : Picked cfg req s x v) (hs : step cfg req s a = some t)
    (hn : (t.call x).node = (s.call x).node) (ht : (t.call x).tunnel = (s.call x).tunnel) :
    Picked cfg req t x v := by
  refine ⟨?_, h.2.step trivial hs⟩
  rw [hn, ht]
  exact h.1

theorem Frame.picked {y : χ} (h : Frame s t y) (hs : step cfg req s a = some t)
    (hp : Picked cfg req s y v) : Picked cfg req t y v :=
  hp.next hs (by rw [h.call]) (by rw [h.call])

/-- No step of another makes the outline of `y` false. -/
theorem Frame.outline {y : χ} (h : Frame s t y) (hs : step cfg req s a = some t)
    (ho : Outline cfg req s y) : Outline cfg req t y := by
  rw [Outline] at ho ⊢
  rw [h.call]
  cases hpc : (s.call y).pc <;> simp only [hpc] at ho ⊢
  case scan => exact ⟨h.locked ho.1, fun b hb => h.picked hs (ho.2 b hb)⟩
  case idleOf => exact ⟨h.locked ho.1, fun b hb => h.picked hs (ho.2.1 b hb), ho.2.2⟩
  case rateOf =>
    exact ⟨h.locked ho.1, fun b hb => h.picked hs (ho.2.1 b hb), ho.2.2.1,
      ho.2.2.2.step trivial hs⟩
  case chosen => exact h.picked hs ho
  case marked v => exact ⟨h.picked hs ho.1, (h.le v).evicted ho.2⟩
  case cancelled v =>
    exact ⟨h.picked hs ho.1, (h.le v).evicted ho.2.1, (h.le v).cancelled ho.2.2⟩
  case inRelease v =>
    exact ⟨h.picked hs ho.1, (h.le v).evicted ho.2.1, (h.le v).cancelled ho.2.2.1,
      (h.le v).begun ho.2.2.2⟩
  case returned r =>
    cases r with
    | none => trivial
    | some v =>
      exact ⟨h.picked hs ho.1, (h.le v).evicted ho.2.1, (h.le v).cancelled ho.2.2.1,
        (h.le v).done ho.2.2.2⟩

/-! ## A step of a call -/

namespace Go

variable {q : Pc σ} {f : σ → Stream χ ρ} {m : String → Option χ}

theorem le (h : Go cfg req s x (s.call x).pc q f m) (ho : Outline cfg req s x) :
    ∀ v, (s.stream v).Le (f v) := by
  rw [Outline] at ho
  generalize (s.call x).pc = p at h ho
  cases h with
  | skip | look | measure | keep | pick | choose | none | offer | again | pass =>
    exact fun _ => .refl
  | mark => exact update_le .evict
  | cancel => exact update_le .cancel
  | run hf => exact update_le (.run hf (.inl rfl))
  | finish => exact update_le (.finish ho.2.2.2)

/-- The lock of others is not touched: this call unlocks only what it has locked. -/
theorem smu_of (h : Go cfg req s x (s.call x).pc q f m) (ho : Outline cfg req s x) {n : String} {y : χ}
    (hy : y ≠ x) (hn : s.smu n = some y) : m n = some y := by
  rw [Outline] at ho
  generalize (s.call x).pc = p at h ho
  cases h with
  | skip | look | measure | keep | pick | again | mark | cancel | run | pass | finish => exact hn
  | choose | none | offer =>
    rw [update_of_ne]
    · exact hn
    · rintro rfl
      exact hy (Option.some.inj (hn.symm.trans ho.1.1))

theorem frame (h : Go cfg req s x (s.call x).pc q f m) (ho : Outline cfg req s x) {y : χ} (hy : y ≠ x) :
    Frame s { s.setPc x q with stream := f, smu := m } y :=
  ⟨update_of_ne hy .., h.le ho, fun _ hn => ⟨h.smu_of ho hy hn, rfl⟩⟩

/-- Each step of a call makes true what the outline says of the next place. -/
theorem outline (h : Go cfg req s x (s.call x).pc q f m) (ho : Outline cfg req s x)
    (hr : (system cfg req).Reach Lts.always s) (hhome : ∀ n v, v ∈ s.streams n → (req v).node = n)
    (hs : step cfg req s (.go x) = some { s.setPc x q with stream := f, smu := m }) :
    Outline cfg req { s.setPc x q with stream := f, smu := m } x := by
  -- the call keeps its node and tunnel, so what it has picked stays picked
  have hpc : ({ s.setPc x q with stream := f, smu := m } : State σ χ ρ π).call x =
      { s.call x with pc := q } := update_self ..
  have hpick : ∀ {v}, Picked cfg req s x v →
      Picked cfg req { s.setPc x q with stream := f, smu := m } x v := fun hp =>
    hp.next hs (by rw [hpc]) (by rw [hpc])
  have hlock : ∀ {todo}, m = s.smu → Locked s x todo →
      Locked { s.setPc x q with stream := f, smu := m } x todo := by
    intro todo hm hl
    rw [Locked, hpc, hm]
    exact hl
  have hmem : ∀ {w}, w ∈ s.streams (s.call x).node → (req w).tunnel = (s.call x).tunnel →
      req w = ⟨(s.call x).node, (s.call x).tunnel⟩ := by
    intro w hw ht
    rw [← ht, ← hhome _ _ hw]
  rw [Outline] at ho ⊢
  rw [hpc]
  generalize hp : (s.call x).pc = p at h ho
  cases h with
  | skip =>
    exact ⟨hlock rfl ⟨ho.1.1, fun v hv => ho.1.2 v (.tail _ hv)⟩, fun b hb => hpick (ho.2 b hb)⟩
  | look ht => exact ⟨hlock rfl ho.1, fun b hb => hpick (ho.2 b hb), ht⟩
  | measure =>
    refine ⟨hlock rfl ho.1, fun b hb => hpick (ho.2.1 b hb), ho.2.2, ?_⟩
    exact (Lts.Before.now hr ⟨ho.1.2 _ (.head _), ⟨_, _, hp⟩, rfl⟩).step (a := .go x) trivial hs
  | keep =>
    exact ⟨hlock rfl ⟨ho.1.1, fun v hv => ho.1.2 v (.tail _ hv)⟩, fun b hb => hpick (ho.2.1 b hb)⟩
  | @pick now idle v todo best hev =>
    obtain ⟨hl, hb, ht, hmeas⟩ := ho
    have htracked := hl.2 v (.head _)
    refine ⟨hlock rfl ⟨hl.1, fun v hv => hl.2 v (.tail _ hv)⟩, fun b hb => hpick ?_⟩
    obtain rfl : b = (v, idle) := by simpa using hb.symm
    refine ⟨hmem htracked ht, ?_⟩
    rcases hev with hidle | hrate
    · -- the idle time was read a moment ago
      refine hmeas.imp fun u hu => ?_
      obtain ⟨hv, ⟨todo, best, hu⟩, rfl⟩ := hu
      exact ⟨hv, .inl ⟨_, _, _, hu, hidle⟩⟩
    · exact .now hr ⟨htracked, .inr ⟨_, _, _, _, hp, hrate⟩⟩
  | choose => exact hpick (ho.2 _ rfl)
  | none | offer | again => trivial
  | mark => exact ⟨hpick ho, by simp⟩
  | @cancel v => exact ⟨hpick ho.1, by simpa using ho.2, by simp⟩
  | run => exact ⟨hpick ho.1, by simpa using ho.2.1, by simpa using ho.2.2, by simp⟩
  | pass hd => exact ⟨hpick ho.1, ho.2.1, ho.2.2, hd⟩
  | finish => exact ⟨hpick ho.1, by simpa using ho.2.1, by simpa using ho.2.2.1, by simp⟩

end Go

/-- A step of the call `x`. -/
structure Turn (cfg : Cfg) (req : σ → Req)
    (s t : State σ χ ρ π) (x : χ) : Prop where
  frame : ∀ y, y ≠ x → Frame s t y
  outline : Outline cfg req t x
  owned : ∀ v, (t.call x).pc.owned = some v →
    (s.call x).pc.owned = some v ∨ (s.stream v).evicted = false
  kept : (s.call x).Kept (t.call x)
  le : ∀ v, (s.stream v).Le (t.stream v)
  streams : t.streams = s.streams

theorem turn_of_go (ho : Outline cfg req s x)
    (hr : (system cfg req).Reach Lts.always s) (hhome : ∀ n v, v ∈ s.streams n → (req v).node = n)
    (hs : goCall cfg req s x = some t) : Turn cfg req s t x ∧ t.remote = s.remote := by
  obtain ⟨q, f, m, h, rfl⟩ := go_of_goCall hs
  refine ⟨⟨fun y hy => h.frame ho hy, h.outline ho hr hhome hs, fun v hv => h.owned ?_, fun hne => ?_,
    h.le ho, rfl⟩, rfl⟩
  · simpa using hv
  · simp only [State.setPc, State.setCall, update_self, true_and]
    exact ⟨h.ne_idle, fun r hr => absurd hr h.not_returned⟩

theorem turn_of_begin {c : Call σ ρ}
    (ht : t.call = update s.call x c) (hc : c.pc = .started ∨ ∃ now, c.pc = .clocked now)
    (hkept : (s.call x).Kept c) (hle : ∀ v, (s.stream v).Le (t.stream v)) (hsmu : t.smu = s.smu)
    (hstreams : t.streams = s.streams) : Turn cfg req s t x := by
  have hx : t.call x = c := by rw [ht, update_self]
  refine ⟨fun y hy => ⟨by rw [ht, update_of_ne hy], hle, fun n hn => ?_⟩, ?_, fun v => ?_,
    by rwa [hx], hle, hstreams⟩
  · rw [hsmu, hstreams]
    exact ⟨hn, rfl⟩
  · rw [Outline, hx]
    rcases hc with hc | ⟨now, hc⟩ <;> rw [hc] <;> trivial
  · rw [hx]
    rcases hc with hc | ⟨now, hc⟩ <;> simp [hc]

theorem turn_of_lock {now : Int} {order : List σ}
    (hpc : (s.call x).pc = .clocked now) (hfree : s.smu (s.call x).node = none)
    (horder : order.Perm (s.streams (s.call x).node)) :
    Turn cfg req s { s.setPc x (.scan now order none) with
      smu := update s.smu (s.call x).node (some x) } x := by
  refine ⟨fun y hy => ⟨update_of_ne hy .., fun _ => .refl, fun n hn => ⟨?_, rfl⟩⟩, ?_, ?_, ?_,
    fun _ => .refl, rfl⟩
  · refine (update_of_ne ?_ ..).trans hn
    rintro rfl
    simp [hfree] at hn
  · simp [Outline, Locked, horder.mem_iff]
  · simp
  · simp [Call.Kept, hpc]

/-! ## The invariant -/

/-- What the runs keep. -/
structure Inv (cfg : Cfg) (req : σ → Req) (s : State σ χ ρ π) : Prop where
  ok : ∀ v, (s.stream v).Ok
  home : ∀ n v, v ∈ s.streams n → (req v).node = n
  outline : ∀ x, Outline cfg req s x
  unique : ∀ x y v, (s.call x).pc.owned = some v → (s.call y).pc.owned = some v → x = y
  answered : ∀ r, Answered s r

theorem Outline.evicted (h : Outline cfg req s x) (hv : (s.call x).pc.owned = some v) :
    (s.stream v).evicted = true := by
  rw [Outline] at h
  cases hpc : (s.call x).pc <;> rw [hpc] at h hv <;> simp only [Pc.owned] at hv
  case returned =>
    subst hv
    exact h.2.1
  case marked =>
    obtain rfl := Option.some.inj hv
    exact h.2
  case cancelled | inRelease =>
    obtain rfl := Option.some.inj hv
    exact h.2.1
  all_goals simp at hv

variable {z : Remote χ}

theorem Inv.quiet (h : Inv cfg req s) (hs : step cfg req s a = some t) (hq : Quiet req s t)
    (ha : ∀ r, Answered t r) : Inv cfg req t := by
  refine ⟨fun v => (hq.le v).ok (h.ok v), fun n v hv => ?_,
    fun x => (hq.frame x).outline hs (h.outline x), ?_, ha⟩
  · rcases hq.home n v hv with hv | hv
    · exact h.home n v hv
    · exact hv
  · rw [hq.call]
    exact h.unique

theorem Turn.kept_all (h : Turn cfg req s t x) (y : χ) : (s.call y).Kept (t.call y) := by
  by_cases hy : y = x
  · exact hy ▸ h.kept
  · rw [(h.frame y hy).call]
    exact .refl _

theorem Inv.turn (h : Inv cfg req s) (hs : step cfg req s a = some t) (ht : Turn cfg req s t x)
    (ha : ∀ r, Answered t r) : Inv cfg req t := by
  refine ⟨fun v => (ht.le v).ok (h.ok v), ?_, fun y => ?_, ?_, ha⟩
  · rw [ht.streams]
    exact h.home
  · by_cases hy : y = x
    · exact hy ▸ ht.outline
    · exact (ht.frame y hy).outline hs (h.outline y)
  · -- who else has marked the stream did so before, and then it was marked
    have hother : ∀ {y v}, y ≠ x → (t.call x).pc.owned = some v → (t.call y).pc.owned = some v →
        False := by
      intro y v hy hx hyv
      rw [(ht.frame y hy).call] at hyv
      rcases ht.owned v hx with hx | hx
      · exact hy (h.unique y x v hyv hx)
      · simp [(h.outline y).evicted hyv] at hx
    intro y z v hyv hzv
    by_cases hy : y = x <;> by_cases hz : z = x
    · rw [hy, hz]
    · exact (hother hz (hy ▸ hyv) hzv).elim
    · exact (hother hy (hz ▸ hzv) hyv).elim
    · rw [(ht.frame y hy).call] at hyv
      rw [(ht.frame z hz).call] at hzv
      exact h.unique y z v hyv hzv

/-- A step of the call `x` that is in the loop of `leastActive` after it. -/
def Act.loops (x : χ) (a : Act σ χ ρ π) : Prop := a = .go x ∨ ∃ order, a = .lock x order

/-- What a step of the system is: one that is none of a call, or one of a call, which leaves the
call in the loop only if it is a step of the loop. -/
structure Moved (cfg : Cfg) (req : σ → Req) (s : State σ χ ρ π) (a : Act σ χ ρ π)
    (t : State σ χ ρ π) : Prop where
  kind : Quiet req s t ∨
    ∃ x, Turn cfg req s t x ∧ (a.loops x ∨ (t.call x).pc.scanning = false)
  answered : ∀ r, Answered t r

theorem Inv.quiet_same (h : Inv cfg req s) (hq : Quiet req s t) (hr : t.remote = s.remote) :
    Moved cfg req s a t :=
  ⟨.inl hq, fun r => (h.answered r).keep (by rw [hr]) fun _ => hq.call ▸ .refl _⟩

theorem Inv.quiet_remote (h : Inv cfg req s) (hq : Quiet req s t)
    (ht : t.remote = update s.remote r z) (hz : Answered t r) : Moved cfg req s a t :=
  ⟨.inl hq, answered_update h.answered ht (fun _ => hq.call ▸ .refl _) hz⟩

theorem Inv.setStream (h : Inv cfg req s) (hle : (s.stream c).Le y) :
    Moved cfg req s a (s.setStream c y) :=
  h.quiet_same (.stream hle rfl rfl rfl rfl) rfl

theorem Inv.setRemote (h : Inv cfg req s) (hz : Answered (s.setRemote r z) r) :
    Moved cfg req s a (s.setRemote r z) :=
  h.quiet_remote (.same rfl rfl rfl rfl) rfl hz

theorem Inv.endRemote (h : Inv cfg req s) {v : Verdict χ} (hv : Answered (s.endRemote r v) r) :
    Moved cfg req s a (s.endRemote r v) :=
  h.quiet_remote (.same rfl rfl rfl rfl) rfl hv

theorem Inv.turn_same (h : Inv cfg req s) (ht : Turn cfg req s t x)
    (hx : a.loops x ∨ (t.call x).pc.scanning = false) (hr : t.remote = s.remote) :
    Moved cfg req s a t :=
  ⟨.inr ⟨x, ht, hx⟩, fun r => (h.answered r).keep (by rw [hr]) ht.kept_all⟩

theorem Inv.of_moved (h : Inv cfg req s) (hs : step cfg req s a = some t)
    (hm : Moved cfg req s a t) : Inv cfg req t := by
  rcases hm.kind with hq | ⟨x, ht, -⟩
  · exact h.quiet hs hq hm.answered
  · exact h.turn hs ht hm.answered

theorem moved_of_step (h : Inv cfg req s) (hr : (system cfg req).Reach Lts.always s)
    (hs : step cfg req s a = some t) : Moved cfg req s a t := by
  cases step_cases hs with
  | stream le => exact h.setStream le
  | finish stage => exact h.setStream (.finish ((h.ok _).inRelease stage))
  | track le free home => exact h.quiet_same (.track le free home) rfl
  | @evict c k expired x idle =>
    exact h.turn_same (x := x) (turn_of_begin rfl (.inl rfl) (fun hne => absurd idle hne)
      (update_le (.move (by simp) (by simp))) rfl rfl)
      (.inr (by simp)) rfl
  | @freeRemote c r k =>
    obtain ⟨hstream, hcall, hsmu, hstreams, z, hz, hrem⟩ :=
      freeRemoteSlot_spec (s.setStage c (.freeing k r)) r (req c).node (req c).tunnel
    refine h.quiet_remote (.stream (.move (by simp) (by simp)) hstream hcall hsmu
      hstreams) hrem ?_
    rw [Answered, hrem, update_self]
    rcases hz with hz | hz <;> simp [hz]
  | @candidate x node tunnel idle =>
    exact h.turn_same (x := x) (turn_of_begin rfl (.inl rfl) (fun hne => absurd idle hne)
      (fun _ => .refl) rfl rfl) (.inr (by simp)) rfl
  | @clock x now started =>
    exact h.turn_same (x := x) (turn_of_begin rfl (.inr ⟨now, rfl⟩)
      (fun _ => ⟨rfl, rfl, by simp, by simp [started]⟩) (fun _ => .refl) rfl rfl)
      (.inr (by simp)) rfl
  | @lock x order now clocked free perm =>
    exact h.turn_same (turn_of_lock clocked free perm) (.inl (.inr ⟨order, rfl⟩)) rfl
  | go go =>
    obtain ⟨hturn, hrem⟩ := turn_of_go (h.outline _) hr h.home go
    exact h.turn_same hturn (.inl (.inl rfl)) hrem
  | trying => exact h.setRemote (by simp [Answered])
  | @ask r x n rest idle =>
    have hturn : Turn cfg req s _ x := turn_of_begin (t := (s.setRemote r
      { s.remote r with pc := .waiting x rest }).setCall x
        ⟨n, (s.remote r).tunnel, .free r, .started⟩) rfl (.inl rfl) (fun hne => absurd idle hne)
        (fun _ => .refl) rfl rfl
    refine ⟨.inr ⟨x, hturn, .inr (by simp)⟩,
      answered_update h.answered rfl hturn.kept_all ?_⟩
    simp [Answered, Serves]
  | @applied r x rest v waiting returned =>
    have hserves := h.answered r
    rw [Answered, waiting] at hserves
    refine h.endRemote ?_
    simpa [Answered, Serves, State.endRemote, returned] using hserves
  | unanswered verdict =>
    rcases verdict with rfl | rfl <;>
    exact h.endRemote (by simp [Answered, State.endRemote])
  | purge => exact h.quiet_same (.same rfl rfl rfl rfl) rfl
  | cancel => exact h.quiet_same (.stream .cancel rfl rfl rfl rfl) rfl

theorem inv_of_reach (h : (system cfg req).Reach Lts.always s) : Inv cfg req s := by
  refine h.invariant ?_ fun _ _ _ hr hi _ hs => hi.of_moved hs (moved_of_step hi hr hs)
  exact ⟨fun _ => ⟨rfl, by simp [system], by simp [system]⟩, by simp [system], fun _ => trivial,
    by simp [system], fun _ => trivial⟩

/-- **An eviction frees one slot.**  In every run, a call of `evictLeastActive` or `FreeSlot` that
returned true has marked and cancelled a stream of the tunnel and node it was called for, whose slot
has been released; two calls have never marked the same stream; and at some moment of the call, when
it read the stream's activity, the stream was tracked, and idle for `EvictIdle` by the clock that
the call had read, or its rolling byte count was below `ProtectRate`.  A call of `FreeRemoteSlot`
that is true because a node applied it made a `FreeSlot` call there, for it alone, that returned
true.  The slot of a stream is released at most once, and exactly once when `handleTunnel` has
returned. -/
theorem eviction_frees_one_slot (h : (system cfg req).Reach Lts.always s) :
    (∀ x v, (s.call x).pc = .returned (some v) →
      req v = ⟨(s.call x).node, (s.call x).tunnel⟩ ∧ (s.stream v).evicted = true ∧
        (s.stream v).cancelled = true ∧ (s.stream v).released = 1 ∧
        (system cfg req).Before Lts.always (Evictable cfg x v) s) ∧
    (∀ x y v, (s.call x).pc = .returned (some v) → (s.call y).pc = .returned (some v) → x = y) ∧
    (∀ r x, (s.remote r).pc = .returned (.applied x) →
      (s.call x).op = .free r ∧ (s.call x).tunnel = (s.remote r).tunnel ∧
        ∃ v, (s.call x).pc = .returned (some v)) ∧
    ∀ v, (s.stream v).released ≤ 1 ∧
      ((s.stream v).stage = .returned → (s.stream v).released = 1) := by
  have hi := inv_of_reach h
  refine ⟨fun x v hx => ?_, fun x y v hx hy => ?_, fun r x hr => ?_, fun v => ⟨?_, fun hv => ?_⟩⟩
  · have ho := hi.outline x
    rw [Outline, hx] at ho
    obtain ⟨⟨hreq, hev⟩, hmarked, hcancelled, hdone⟩ := ho
    exact ⟨hreq, hmarked, hcancelled, by simp [(hi.ok v).released, hdone], hev⟩
  · exact hi.unique x y v (by simp [hx]) (by simp [hy])
  · have ha := hi.answered r
    rw [Answered, hr] at ha
    exact ⟨ha.1.1, ha.1.2.1, ha.2⟩
  · rw [(hi.ok v).released]
    split <;> simp
  · simp [(hi.ok v).released, (hi.ok v).returned hv]

/-- A tunnel with one stream on each of two nodes, and a third connection, to the node `a`.  It
evicts the stream there, does not get the slot, and asks the node `b`, which evicts the other one.
Meanwhile the first victim ends, and finds its slot released. -/
theorem eviction_frees_one_slot_on_two_nodes :
    ∃ s : State (Fin 3) (Fin 3) (Fin 1) (Fin 1),
      (system ⟨60, 1000⟩ fun c => ⟨if c = 1 then "b" else "a", "phone"⟩).Reach Lts.always s ∧
      ((s.call 0).pc = .returned (some 0) ∧ (s.call 2).pc = .returned (some 1) ∧
        (s.remote 0).pc = .returned (.applied 2) ∧ (s.stream 0).stage = .returned) ∧
      (s.stream 0).released = 1 ∧ (s.stream 1).released = 1 ∧ (s.call 2).op = .free 0 := by
  obtain ⟨s, hr, h⟩ := Lts.exists_reach_of_any
    (L := system (σ := Fin 3) (χ := Fin 3) (ρ := Fin 1) (π := Fin 1) ⟨60, 1000⟩
      fun c => ⟨if c = 1 then "b" else "a", "phone"⟩) (g := Lts.always)
    (l := [.handle 0, .acquired 0 .taken, .opened 0 "conn" 0, .handle 1, .acquired 1 .taken,
      .opened 1 "conn" 0, .bytes 0 5000, .handle 2, .acquired 2 .full, .retry 2 false 0,
      .clock 0 70, .lock 0 [0], .go 0, .go 0, .go 0, .go 0, .go 0, .go 0, .ended 0, .go 0,
      .unwind 0, .unwind 0, .go 0, .unwind 0, .evicted 2 0, .acquired 2 .full, .retry 2 false 1,
      .clock 1 80, .lock 1 [], .go 1, .evicted 2 0, .offers 0 [("b", .applied 80)], .ask 0 2,
      .clock 2 80, .lock 2 [1], .go 2, .go 2, .go 2, .go 2, .go 2, .go 2, .go 2, .go 2,
      .answer 0, .freed 2])
    (P := fun s => (s.call 0).pc = .returned (some 0) ∧ (s.call 2).pc = .returned (some 1) ∧
      (s.remote 0).pc = .returned (.applied 2) ∧ (s.stream 0).stage = .returned)
    (by decide +kernel)
  obtain ⟨hcall, -, hremote, hslot⟩ := eviction_frees_one_slot hr
  exact ⟨s, hr, h, (hslot 0).2 h.2.2.2, (hcall 2 1 h.2.1).2.2.2.1, (hremote 0 2 h.2.2.1).1⟩

/-- Two calls that are true and have not evicted a stream each.  A `FreeRemoteSlot` call whose
request is lost is true, and nothing was evicted; and both of two `EvictConnStreams` calls for a
connection are true, with one stream in the world, which neither of them marks. -/
theorem true_without_eviction :
    (∃ s : State (Fin 1) (Fin 1) (Fin 1) (Fin 1),
      (system ⟨60, 1000⟩ fun _ => ⟨"a", "phone"⟩).Reach Lts.always s ∧
      (∃ v, (s.remote 0).pc = .returned v ∧ v.freed = true) ∧
      ∀ c, (s.stream c).evicted = false ∧ (s.stream c).cancelled = false) ∧
    ∃ s : State (Fin 1) (Fin 1) (Fin 1) (Fin 2),
      (system ⟨60, 1000⟩ fun _ => ⟨"a", "phone"⟩).Reach Lts.always s ∧
      s.purge 0 = .returned (some true) ∧ s.purge 1 = .returned (some true) ∧
      ∀ c, (s.stream c).evicted = false := by
  constructor
  · obtain ⟨s, hr, hlost, h⟩ := Lts.exists_reach_of_any
      (L := system (σ := Fin 1) (χ := Fin 1) (ρ := Fin 1) (π := Fin 1) ⟨60, 1000⟩
        fun _ => ⟨"a", "phone"⟩) (g := Lts.always)
      (l := [.handle 0, .acquired 0 .full, .retry 0 false 0, .clock 0 70, .lock 0 [], .go 0,
        .evicted 0 0, .offers 0 [("b", .applied 80)], .lost 0])
      (P := fun s => (s.remote 0).pc = .returned .lost ∧
        ∀ c, (s.stream c).evicted = false ∧ (s.stream c).cancelled = false) (by decide +kernel)
    exact ⟨s, hr, ⟨_, hlost, rfl⟩, h⟩
  · exact Lts.exists_reach_of_any
      (l := [.handle 0, .acquired 0 .taken, .opened 0 "conn" 0,
        .evictConnStreams 0 "a" "phone" "conn", .evictConnStreams 1 "a" "phone" "conn",
        .purge 0, .purge 0, .purge 1, .purge 1]) (by decide +kernel)

end Calls

end Tunneld.Eviction

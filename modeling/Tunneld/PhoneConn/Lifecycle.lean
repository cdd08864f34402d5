import Tunneld.Router.Registry

/-!
# The life of a control connection

`Handler.serveControl` mints the id of a control connection and hands it to `Manager.register`,
which binds the route and enters the connection into the node's map, under the lock of the name.
From then on two goroutines act for the connection: the handler, which ends in `teardown`, and
`heartbeatLoop`, which refreshes the route, restores it when it is gone and closes the connection
when the route has another owner.

The model has the connections `κ` of one name over the nodes `ν`.  Every call of the registry runs
command by command, on `Tunneld.Router.Pool`; here is what happens between the calls:

* `register` — `lock`, one `BindRoute` after another while the id collides (`bindReturned`), the
  entry into the map (`enter`), and its two ends, `registered` and `abandon`;
* `teardown` — the connection closes, waits for the heartbeat to be done (`leave`), leaves the map
  and calls `Unbind` (`unbound`);
* `heartbeatLoop` — a `tick` calls `Heartbeat`, `beatReturned` acts on its result, which may be to
  call the self-heal, and `hbDone` is the end of the loop.

A connection may be closed from outside at any time, a call may fail at any command, the key may
run out and the node may start to drain.  Closing a connection is cancelling its context, so a phone
that hangs up has closed it.

Four components of the state are there for the statements only and no step depends on them:
`State.writes` counts the `HSET`s of binds and self-heals, `State.writer` is the connection that
made the last one, `Conn.seq` is the number of the write with which `BindRoute` bound the
connection, and `Conn.readAt` is how many writes there had been when its `Heartbeat` last read the
owner.  The number of a connection is what "newer" and "last" mean in the results.
-/

namespace Tunneld.PhoneConn

open Function Router

/-! ## Connections -/

/-- The two goroutines of a connection. -/
inductive Who (κ : Type)
  /-- `serveControl`. -/
  | handler (c : κ)
  /-- `heartbeatLoop`. -/
  | beat (c : κ)
  deriving DecidableEq

/-- The connection a goroutine acts for. -/
@[simp] def Who.conn {κ : Type} : Who κ → κ
  | .handler c | .beat c => c

/-- Where the handler of a connection stands. -/
inductive Phase
  /-- The phone has not called yet. -/
  | idle
  /-- In `register`, waiting for the lock of the name. -/
  | waiting
  /-- In `register`, with the lock, calling `BindRoute`. -/
  | binding (attempt : Nat)
  | bound
  /-- In the map, `register` not yet done. -/
  | entered
  /-- `register` has returned. -/
  | serving
  /-- In `teardown`, closed, waiting for the heartbeat. -/
  | closing
  /-- Out of the map, calling `Unbind`, in `teardown` or in `abandon`. -/
  | unbinding (abandoned : Bool)
  /-- `teardown` or `abandon` has returned; did `Unbind` succeed? -/
  | finished (ok : Bool)
  /-- `register` has returned the error of `BindRoute`. -/
  | refused
  deriving DecidableEq

/-- How far the handler has come. -/
@[simp] def Phase.rank : Phase → Nat
  | .idle => 0
  | .waiting => 1
  | .binding _ => 2
  | .bound => 3
  | .entered => 4
  | .serving => 5
  | .closing => 6
  | .unbinding _ => 7
  | .finished _ => 8
  | .refused => 9

/-- Where the heartbeat of a connection stands. -/
inductive Beat
  | off
  /-- Waiting for the next tick. -/
  | idle
  | beating
  /-- Calling `BindRouteIfAbsentOrOwner`. -/
  | healing
  /-- The loop has returned and `hbDone` is closed. -/
  | exited
  deriving DecidableEq

/-- Why a connection was closed. -/
inductive Reason
  /-- By the `register` that replaced it in the map, or by its heartbeat, which found another
  owner. -/
  | superseded
  /-- By its own teardown, from outside, or by the phone. -/
  | other
  deriving DecidableEq

/-- A control connection. -/
structure Conn (ι : Type) where
  phase : Phase
  connID : ι
  /-- Its context is done, and why. -/
  closed : Option Reason
  beat : Beat
  /-- The number of the write that bound it, `0` before. -/
  seq : Nat
  /-- How many writes there had been at the last read of its `Heartbeat`. -/
  readAt : Nat
  deriving DecidableEq

/-- `conn.close`: the first reason stays. -/
def Conn.close {ι : Type} (x : Conn ι) (r : Reason) : Conn ι :=
  { x with closed := some (x.closed.getD r) }

/-! ## The nodes -/

/-- The nodes and the store. -/
structure State (κ ν ι : Type) where
  /-- The store and the calls of the registry in progress. -/
  pool : Pool ν ι (Who κ)
  conn : κ → Conn ι
  /-- The entry of the name in `Manager.conns`. -/
  conns : ν → Option κ
  /-- The lock of the name, `Manager.bindLock`. -/
  bindMu : ν → Option κ
  draining : ν → Bool
  /-- How many writes there have been. -/
  writes : Nat
  /-- Who made the last one. -/
  writer : Option κ

/-- What can happen next. -/
inductive Act (κ ν ι : Type)
  /-- `serveControl` accepts a connection and mints its id. -/
  | accept (c : κ) (id : ι)
  /-- `register` takes the lock of the name and calls `BindRoute`. -/
  | lock (c : κ)
  | cmd (t : Who κ)
  | fail (t : Who κ)
  /-- `register` looks at what `BindRoute` returned; `id` is the id it mints on a collision. -/
  | bindReturned (c : κ) (id : ι)
  /-- `register` enters the connection into the map and closes the one that was there. -/
  | enter (c : κ)
  /-- `register` returns, and the heartbeat starts. -/
  | registered (c : κ)
  /-- `register` panics after the entry and `abandon` takes the connection back. -/
  | abandon (c : κ)
  /-- The connection is closed from outside (`CloseAll`, `EvictBanned`, `Close`, `runControl`), or
  the phone has gone. -/
  | close (c : κ)
  /-- `teardown` closes the connection. -/
  | teardown (c : κ)
  /-- `teardown` sees `hbDone`, leaves the map and calls `Unbind`. -/
  | leave (c : κ)
  /-- `Unbind` returns to `teardown` or `abandon`. -/
  | unbound (c : κ)
  /-- A tick of `heartbeatLoop`. -/
  | tick (c : κ)
  /-- `Heartbeat` returns to `heartbeatLoop`. -/
  | beatReturned (c : κ)
  /-- The self-heal returns to `heartbeatLoop`. -/
  | healReturned (c : κ)
  /-- `heartbeatLoop` sees that the context is done. -/
  | hbDone (c : κ)
  | startDrain (n : ν)
  | lapse
  | time (ms : Nat)

variable {κ ν ι : Type} [DecidableEq κ] [DecidableEq ν] [DecidableEq ι]
variable (cfg : Router.Config) (node : κ → ν)

namespace State

/-- A connection moves on. -/
def set (s : State κ ν ι) (c : κ) (x : Conn ι) : State κ ν ι :=
  { s with conn := update s.conn c x }

/-- The lock of a node is taken or given back. -/
def setMu (s : State κ ν ι) (n : ν) (v : Option κ) : State κ ν ι :=
  { s with bindMu := update s.bindMu n v }

/-- A goroutine makes a call and its connection moves on. -/
def call (s : State κ ν ι) (t : Who κ) (op : Op ν ι) (x : Conn ι) : Option (State κ ν ι) :=
  (s.pool.start t op).map fun p => { s.set t.conn x with pool := p }

/-- A connection leaves the map, if it is the one there. -/
def remove (s : State κ ν ι) (c : κ) : State κ ν ι :=
  if s.conns (node c) = some c then
    { s with conns := update s.conns (node c) none }
  else s

/-- The connection that is in the map is closed as superseded. -/
def supersede (s : State κ ν ι) (n : ν) : State κ ν ι :=
  match s.conns n with
  | some d => s.set d ((s.conn d).close .superseded)
  | none => s

/-- A connection is put into the map. -/
def insert (s : State κ ν ι) (c : κ) : State κ ν ι :=
  { s.set c { s.conn c with phase := .entered } with
    conns := update s.conns (node c) (some c) }

/-- The books kept of a command that has left the pool `p`. -/
def ran (s : State κ ν ι) (t : Who κ) (p : Pool ν ι (Who κ)) : State κ ν ι :=
  match t, s.pool.calls t with
  | .handler c, some ⟨.bindRoute .., .set _⟩ =>
    { s.set c { s.conn c with seq := s.writes + 1 } with
      pool := p, writes := s.writes + 1, writer := some c }
  | .beat c, some ⟨.bindRouteIfAbsentOrOwner .., .set _⟩ =>
    { s with pool := p, writes := s.writes + 1, writer := some c }
  | .beat c, some ⟨.heartbeat _, .read⟩ =>
    { s.set c { s.conn c with readAt := s.writes } with pool := p }
  | _, _ => { s with pool := p }

/-- The hash `tunnel:{name}`. -/
def route (s : State κ ν ι) : Route ν ι := s.pool.store.route

end State

/-- The state after an action, if it is possible. -/
def step (s : State κ ν ι) : Act κ ν ι → Option (State κ ν ι)
  | .accept c id =>
    if (s.conn c).phase = .idle ∧ s.draining (node c) = false then
      some (s.set c { s.conn c with phase := .waiting, connID := id })
    else none
  | .lock c =>
    match (s.conn c).phase, s.bindMu (node c) with
    | .waiting, none =>
      (s.setMu (node c) (some c)).call (.handler c) (.bindRoute (node c) (s.conn c).connID)
        { s.conn c with phase := .binding 0 }
    | _, _ => none
  | .cmd t => (s.pool.cmd cfg t).map (s.ran t)
  | .fail t => (s.pool.fail t).map fun p => { s with pool := p }
  | .bindReturned c id =>
    match (s.conn c).phase, s.pool.result (.handler c) with
    | .binding _, some .bound => some (s.set c { s.conn c with phase := .bound })
    | .binding attempt, some r =>
      if r = .connIDCollision ∧ attempt < 2 then
        s.call (.handler c) (.bindRoute (node c) id)
          { s.conn c with phase := .binding (attempt + 1), connID := id }
      else some ((s.setMu (node c) none).set c { s.conn c with phase := .refused })
    | _, _ => none
  | .enter c =>
    match (s.conn c).phase with
    | .bound => some ((s.supersede (node c)).insert node c)
    | _ => none
  | .registered c =>
    match (s.conn c).phase with
    | .entered =>
      some ((s.setMu (node c) none).set c { s.conn c with phase := .serving, beat := .idle })
    | _ => none
  | .abandon c =>
    match (s.conn c).phase with
    | .entered =>
      (s.remove node c).call (.handler c) (.unbind (s.conn c).connID)
        { (s.conn c).close .other with phase := .unbinding true }
    | _ => none
  | .close c =>
    match (s.conn c).phase with
    | .entered | .serving => some (s.set c ((s.conn c).close .other))
    | _ => none
  | .teardown c =>
    match (s.conn c).phase with
    | .serving => some (s.set c { (s.conn c).close .other with phase := .closing })
    | _ => none
  | .leave c =>
    match (s.conn c).phase, (s.conn c).beat with
    | .closing, .exited =>
      (s.remove node c).call (.handler c) (.unbind (s.conn c).connID)
        { s.conn c with phase := .unbinding false }
    | _, _ => none
  | .unbound c =>
    match (s.conn c).phase, s.pool.result (.handler c) with
    | .unbinding abandoned, some r =>
      -- `register` gives its lock back after `abandon`
      some ((if abandoned then s.setMu (node c) none else s).set c
        { s.conn c with phase := .finished (r = .ok) })
    | _, _ => none
  | .tick c =>
    match (s.conn c).beat with
    | .idle => s.call (.beat c) (.heartbeat (s.conn c).connID) { s.conn c with beat := .beating }
    | _ => none
  | .beatReturned c =>
    match (s.conn c).beat, s.pool.result (.beat c) with
    | .beating, some .notOwner =>
      if s.draining (node c) then some (s.set c { s.conn c with beat := .exited })
      else some (s.set c { (s.conn c).close .superseded with beat := .exited })
    | .beating, some .missing =>
      s.call (.beat c) (.bindRouteIfAbsentOrOwner (node c) (s.conn c).connID)
        { s.conn c with beat := .healing }
    | .beating, some _ => some (s.set c { s.conn c with beat := .idle })
    | _, _ => none
  | .healReturned c =>
    match (s.conn c).beat, s.pool.result (.beat c) with
    | .healing, some _ => some (s.set c { s.conn c with beat := .idle })
    | _, _ => none
  | .hbDone c =>
    match (s.conn c).beat, (s.conn c).closed with
    | .idle, some _ => some (s.set c { s.conn c with beat := .exited })
    | _, _ => none
  | .startDrain n => some { s with draining := update s.draining n true }
  | .lapse => s.pool.lapse.map fun p => { s with pool := p }
  | .time ms => some { s with pool := s.pool.tick ms }

/-- The nodes before the first phone calls.  The id of a connection means nothing before it is
minted. -/
def system [Inhabited ι] : Lts (State κ ν ι) (Act κ ν ι) :=
  ⟨⟨.init, fun _ => ⟨.idle, default, none, .off, 0, 0⟩, fun _ => none, fun _ => none,
    fun _ => false, 0, none⟩, step cfg node⟩

/-! ## Runs to replay -/

/-- The steps of a `register` that nothing disturbs. -/
def registerRun (c : κ) (id : ι) : List (Act κ ν ι) :=
  [Act.accept c id, .lock c] ++ List.replicate 5 (Act.cmd (.handler c)) ++
    [Act.bindReturned c id, .enter c, .registered c]

/-- The steps of a tick of `heartbeatLoop` that finds no route and binds it again. -/
def healRun (c : κ) : List (Act κ ν ι) :=
  [Act.tick c, .cmd (.beat c), .beatReturned c] ++ List.replicate 5 (Act.cmd (.beat c)) ++
    [Act.healReturned c]

end Tunneld.PhoneConn

import Tunneld.Lib.Lts
import Mathlib.Tactic.Tauto

/-!
# The routing table, command by command

`router.Registry` keeps the route of a tunnel in one hash, `tunnel:{name}`: the node that holds the
phone, the id of the phone's control connection, and two byte counters, under a key with a time to
live.  Five calls touch it.  `BindRoute`, `BindRouteIfAbsentOrOwner` (the self-heal) and `Unbind`
run under the per-name lock; `Heartbeat` and `AddTraffic` take no lock at all.  Each call is several
commands, and between two of them anything else may happen to the key, which may also run out.

This file has the hash and its commands, and one function, `Call.next`, that runs the next command
of a call in progress.  Both the calls on their own (`Tunneld.Router.Ownership`) and the connections
that make them (`Tunneld.PhoneConn.Lifecycle`) are systems built on `Call.next`.

What a call has read is only worth something while nobody else writes the fields it read.
`Call.Knows` says what each call still knows about the owner of the route when it is about to write,
and the two facts that carry every later argument are

* `Call.Knows.mono` — it keeps knowing it as long as the owner fields are left alone or dropped,
  which is all that calls without the lock, and the store itself, ever do (`Call.next_owner`);
* `Call.knows_body` — its own commands establish it.

The lock is taken as exclusive: `withLock` holds it from its `SET NX` to the end of its release,
so the lock is the name of the call that has it.  Node and connection ids are never empty strings,
so an empty field is a missing one.
-/

namespace Tunneld.Router

/-! ## The hash -/

/-- The hash `tunnel:{name}`. -/
structure Route (ν ι : Type) where
  /-- The node that holds the phone. -/
  node : Option ν
  /-- The id of the phone's control connection. -/
  connID : Option ι
  /-- Bytes from the public side. -/
  bytesIn : Option Int
  /-- Bytes from the phone. -/
  bytesOut : Option Int
  /-- When the key runs out, in milliseconds. -/
  deadline : Option Nat
  deriving DecidableEq

variable {ν ι τ : Type}

namespace Route

/-- The missing key. -/
def absent : Route ν ι := ⟨none, none, none, none, none⟩

/-- The key exists while it has a field. -/
def present (r : Route ν ι) : Bool :=
  r.node.isSome || r.connID.isSome || r.bytesIn.isSome || r.bytesOut.isSome

/-- The `HSET` of `bindHSet`: the routing fields, and the byte counters of a fresh owner. -/
def bindHSet (r : Route ν ι) (node : ν) (conn : ι) (resetBytes : Bool) : Route ν ι :=
  { r with
    node := some node
    connID := some conn
    bytesIn := if resetBytes then some 0 else r.bytesIn
    bytesOut := if resetBytes then some 0 else r.bytesOut }

/-- `PEXPIRE`; a missing key stays missing. -/
def pexpire (r : Route ν ι) (now ttl : Nat) : Route ν ι :=
  if r.present then { r with deadline := some (now + ttl) } else r

/-- `EXPIRE NX`. -/
def expireNX (r : Route ν ι) (now ttl : Nat) : Route ν ι :=
  if r.deadline = none then r.pexpire now ttl else r

/-- `HINCRBY bytes_in`, skipped for no bytes. -/
def addBytesIn (r : Route ν ι) (n : Int) : Route ν ι :=
  if n = 0 then r else { r with bytesIn := some (r.bytesIn.getD 0 + n) }

/-- `HINCRBY bytes_out`, skipped for no bytes. -/
def addBytesOut (r : Route ν ι) (n : Int) : Route ν ι :=
  if n = 0 then r else { r with bytesOut := some (r.bytesOut.getD 0 + n) }

/-- The key has run out. -/
def Lapsed (r : Route ν ι) (now : Nat) : Prop := ∃ d ∈ r.deadline, d < now

instance (r : Route ν ι) (now : Nat) : Decidable (r.Lapsed now) :=
  decidable_of_iff (r.deadline.any (· < now) = true) (by simp [Lapsed, Option.any_eq_true])

/-- `LookupRoute`: the owning node and connection, if the name is routable. -/
def lookupRoute (r : Route ν ι) : Option (ν × Option ι) := r.node.map fun n => (n, r.connID)

/-- The routing fields are the same. -/
def SameOwner (r r' : Route ν ι) : Prop := r'.node = r.node ∧ r'.connID = r.connID

/-- The byte counters are the same. -/
def SameBytes (r r' : Route ν ι) : Prop := r'.bytesIn = r.bytesIn ∧ r'.bytesOut = r.bytesOut

theorem SameOwner.lookupRoute {r r' : Route ν ι} (h : r.SameOwner r') :
    r'.lookupRoute = r.lookupRoute := by
  rw [Route.lookupRoute, h.1, h.2, Route.lookupRoute]

theorem same_pexpire (r : Route ν ι) (now ttl : Nat) :
    r.SameOwner (r.pexpire now ttl) ∧ r.SameBytes (r.pexpire now ttl) := by
  rw [pexpire]; split <;> exact ⟨⟨rfl, rfl⟩, rfl, rfl⟩

theorem same_expireNX (r : Route ν ι) (now ttl : Nat) :
    r.SameOwner (r.expireNX now ttl) ∧ r.SameBytes (r.expireNX now ttl) := by
  rw [expireNX]
  split
  · exact r.same_pexpire now ttl
  · exact ⟨⟨rfl, rfl⟩, rfl, rfl⟩

theorem sameOwner_addBytesIn (r : Route ν ι) (n : Int) : r.SameOwner (r.addBytesIn n) := by
  rw [addBytesIn]; split <;> exact ⟨rfl, rfl⟩

theorem sameOwner_addBytesOut (r : Route ν ι) (n : Int) : r.SameOwner (r.addBytesOut n) := by
  rw [addBytesOut]; split <;> exact ⟨rfl, rfl⟩

end Route

/-! ## The calls -/

/-- A call of the registry, with its arguments. -/
inductive Op (ν ι : Type)
  | bindRoute (node : ν) (conn : ι)
  | bindRouteIfAbsentOrOwner (node : ν) (conn : ι)
  | heartbeat (conn : ι)
  | unbind (conn : ι)
  | addTraffic (bytesIn bytesOut : Int)
  deriving DecidableEq

/-- How a call ends. -/
inductive Outcome
  /-- The route is bound to the caller. -/
  | bound
  | connIDCollision
  /-- The route belongs to another connection. -/
  | notOwner
  | refreshed
  /-- There is no route. -/
  | missing
  /-- The call had nothing more to report than that it did not fail. -/
  | ok
  /-- A command failed, or the lock could not be had. -/
  | failed
  deriving DecidableEq

/-- Where a call stands: the command it runs next. -/
inductive Pc
  /-- `SET NX` of the lock. -/
  | lock
  /-- The read of the routing fields. -/
  | read
  /-- The `HSET` of `bindHSet`. -/
  | set (resetBytes : Bool)
  /-- The `PEXPIRE`. -/
  | expire
  | del
  /-- `HINCRBY bytes_in`. -/
  | addIn
  /-- `HINCRBY bytes_out`. -/
  | addOut
  | expireNX
  | unlock (r : Outcome)
  | done (r : Outcome)
  deriving DecidableEq

/-- A call in progress. -/
structure Call (ν ι : Type) where
  op : Op ν ι
  pc : Pc
  deriving DecidableEq

/-- The calls that run under the lock. -/
def Op.locks : Op ν ι → Bool
  | .bindRoute .. | .bindRouteIfAbsentOrOwner .. | .unbind _ => true
  | .heartbeat _ | .addTraffic .. => false

/-- The connection a call is made for. -/
def Op.conn : Op ν ι → Option ι
  | .bindRoute _ c | .bindRouteIfAbsentOrOwner _ c | .heartbeat c | .unbind c => some c
  | .addTraffic .. => none

/-- A call that has just been made. -/
def Op.start (op : Op ν ι) : Call ν ι :=
  ⟨op, match op with
    | .heartbeat _ => .read
    | .addTraffic .. => .addIn
    | _ => .lock⟩

/-- The call is inside its critical section. -/
def Call.holds (c : Call ν ι) : Bool :=
  c.op.locks && match c.pc with
    | .read | .set _ | .expire | .del | .unlock _ => true
    | _ => false

/-- The call has returned. -/
def Call.returned (c : Call ν ι) : Option Outcome :=
  match c.pc with
  | .done r => some r
  | _ => none

/-- The store as the calls see it. -/
structure Store (ν ι τ : Type) where
  /-- The clock, in milliseconds. -/
  now : Nat
  /-- The key `tunnel:{name}`. -/
  route : Route ν ι
  /-- Who holds `lock:{name}`. -/
  lock : Option τ

/-- `--route-ttl` and `router.orphanTTL`, in milliseconds. -/
structure Config where
  ttl : Nat
  /-- The time to live of a hash that has only byte counters. -/
  orphanTTL : Nat

section Commands

variable [DecidableEq ι] (cfg : Config)

section Bodies

variable (r : Route ν ι) (now : Nat)

/-- `BindRoute`. -/
def bindRoute (node : ν) (conn : ι) : Pc → Option (Route ν ι × Pc)
  | .read => some (r, if r.connID = some conn then .unlock .connIDCollision else .set true)
  | .set resetBytes => some (r.bindHSet node conn resetBytes, .expire)
  | .expire => some (r.pexpire now cfg.ttl, .unlock .bound)
  | _ => none

/-- `BindRouteIfAbsentOrOwner`. -/
def bindRouteIfAbsentOrOwner (node : ν) (conn : ι) : Pc → Option (Route ν ι × Pc)
  | .read => some (r,
      if r.node = none then .set true
      else if r.connID = some conn then .set false
      else .unlock .notOwner)
  | .set resetBytes => some (r.bindHSet node conn resetBytes, .expire)
  | .expire => some (r.pexpire now cfg.ttl, .unlock .bound)
  | _ => none

/-- `Heartbeat`. -/
def heartbeat (conn : ι) : Pc → Option (Route ν ι × Pc)
  | .read => some (r,
      if r.connID = none then .done .missing
      else if r.connID = some conn then .expire
      else .done .notOwner)
  | .expire => some (r.pexpire now cfg.ttl, .done (if r.present then .refreshed else .missing))
  | _ => none

/-- `Unbind`. -/
def unbind (conn : ι) : Pc → Option (Route ν ι × Pc)
  | .read => some (r, if r.connID = some conn then .del else .unlock .ok)
  | .del => some (.absent, .unlock .ok)
  | _ => none

/-- `AddTraffic`. -/
def addTraffic (bytesIn bytesOut : Int) : Pc → Option (Route ν ι × Pc)
  | .addIn => some (r.addBytesIn bytesIn, .addOut)
  | .addOut => some (r.addBytesOut bytesOut, .expireNX)
  | .expireNX => some (r.expireNX now cfg.orphanTTL, .done .ok)
  | _ => none

/-- The next command of a call on the hash. -/
def Op.body : Op ν ι → Pc → Option (Route ν ι × Pc)
  | .bindRoute node conn => Router.bindRoute cfg r now node conn
  | .bindRouteIfAbsentOrOwner node conn => Router.bindRouteIfAbsentOrOwner cfg r now node conn
  | .heartbeat conn => Router.heartbeat cfg r now conn
  | .unbind conn => Router.unbind r conn
  | .addTraffic bytesIn bytesOut => Router.addTraffic cfg r now bytesIn bytesOut

end Bodies

namespace Call

/-- The next command of a call made by `t`; the two commands of `withLock` stand around the
others. -/
def next [DecidableEq τ] (st : Store ν ι τ) (t : τ) (c : Call ν ι) :
    Option (Store ν ι τ × Call ν ι) :=
  match c.pc with
  | .lock =>
    if c.op.locks ∧ st.lock = none then some ({ st with lock := some t }, ⟨c.op, .read⟩) else none
  | .unlock res =>
    -- `release` drops the lock only if it still carries its own token
    if c.op.locks then
      some ({ st with lock := if st.lock = some t then none else st.lock }, ⟨c.op, .done res⟩)
    else none
  | pc => (c.op.body cfg st.route st.now pc).map fun x => ({ st with route := x.1 }, ⟨c.op, x.2⟩)

/-- A command of the call fails, or its context is cancelled: the call gives up, and the deferred
release is all that is left of it if it had the lock. -/
def fail (c : Call ν ι) : Option (Call ν ι) :=
  match c.pc with
  | .done _ => none
  | _ => some ⟨c.op, if c.holds then .unlock .failed else .done .failed⟩

end Call

end Commands

/-! ## What a call knows -/

/-- The owner fields are left alone or dropped. -/
def Route.Fades (r r' : Route ν ι) : Prop := r.SameOwner r' ∨ (r'.node = none ∧ r'.connID = none)

theorem Route.fades_absent (r : Route ν ι) : r.Fades .absent := .inr ⟨rfl, rfl⟩

namespace Call

/-- The write of a bind or of a self-heal: which call it is, for whom, and with which reset. -/
def Writes (c : Call ν ι) (node : ν) (conn : ι) (resetBytes : Bool) : Prop :=
  c.pc = .set resetBytes ∧
    (c.op = .bindRoute node conn ∨ c.op = .bindRouteIfAbsentOrOwner node conn)

/-- The `DEL` of an unbind. -/
def Deletes (c : Call ν ι) (conn : ι) : Prop := c = ⟨.unbind conn, .del⟩

/-- What a call knows of the owner when it is about to write: it has read the fields under the
lock, and all that can have happened to them since is that they were dropped. -/
def Knows (r : Route ν ι) : Call ν ι → Prop
  | ⟨.bindRoute _ conn, .set reset⟩ => reset = true ∧ r.connID ≠ some conn
  | ⟨.bindRouteIfAbsentOrOwner _ conn, .set reset⟩ =>
    if reset then r.connID = none else ∀ x ∈ r.connID, x = conn
  | ⟨.unbind conn, .del⟩ => ∀ x ∈ r.connID, x = conn
  | _ => True

variable {r r' : Route ν ι} {c : Call ν ι} {node : ν} {conn : ι} {reset : Bool}

/-- A call outside its critical section knows nothing. -/
theorem knows_of_not_holds (h : c.holds = false) : c.Knows r := by
  obtain ⟨op, pc⟩ := c
  cases op <;> cases pc <;> trivial

/-- What a call knows stays true while the owner fields are left alone or dropped. -/
theorem Knows.mono (h : c.Knows r) (hf : r.Fades r') : c.Knows r' := by
  have hcid : r'.connID = r.connID ∨ r'.connID = none := hf.imp And.right And.right
  obtain ⟨op, pc⟩ := c
  cases op <;> cases pc <;> try trivial
  case bindRoute.set =>
    refine ⟨h.1, ?_⟩
    rcases hcid with e | e
    · exact e ▸ h.2
    · simp [e]
  case bindRouteIfAbsentOrOwner.set reset =>
    cases reset <;> rcases hcid with e | e <;> simp_all [Knows]
  case unbind.del =>
    rcases hcid with e | e <;> simp_all [Knows]

/-- An unbind deletes only a route that carries its own id. -/
theorem Deletes.knows (h : c.Deletes conn) (hk : c.Knows r) : ∀ x ∈ r.connID, x = conn := by
  rw [h] at hk; exact hk

/-- A self-heal writes only over a missing route or one that carries its own id. -/
theorem knows_selfHeal (hop : c.op = .bindRouteIfAbsentOrOwner node conn) (hpc : c.pc = .set reset)
    (hk : c.Knows r) : if reset then r.connID = none else ∀ x ∈ r.connID, x = conn := by
  obtain ⟨op, pc⟩ := c
  subst hop hpc
  exact hk

theorem knows_bindRoute (hop : c.op = .bindRoute node conn) (hpc : c.pc = .set reset)
    (hk : c.Knows r) : reset = true ∧ r.connID ≠ some conn := by
  obtain ⟨op, pc⟩ := c
  subst hop hpc
  exact hk

@[simp] theorem holds_done (op : Op ν ι) (res : Outcome) :
    (Call.mk op (.done res)).holds = false := by
  simp [holds]

/-- A call that changes the owner fields is in its critical section. -/
theorem Writes.holds (h : c.Writes node conn reset) : c.holds = true := by
  obtain ⟨hpc, hop⟩ := h
  rcases hop with hop | hop <;> simp [Call.holds, hpc, hop, Op.locks]

theorem Deletes.holds (h : c.Deletes conn) : c.holds = true := by
  rw [h]; rfl

end Call

/-! ## What one command does -/

section Commands

variable [DecidableEq ι] {cfg : Config} {r r' : Route ν ι} {now : Nat} {op : Op ν ι} {pc pc' : Pc}

/-- **The fields change in three ways only**: by the write of a bind or a self-heal, by the `DEL` of
an unbind, and by the increments of `AddTraffic`. -/
theorem Op.body_cases (h : op.body cfg r now pc = some (r', pc')) :
    (∃ node conn reset, (Call.mk op pc).Writes node conn reset ∧
      r' = r.bindHSet node conn reset ∧ pc' = .expire) ∨
    (∃ conn, (Call.mk op pc).Deletes conn ∧ r' = .absent ∧ pc' = .unlock .ok) ∨
    (∃ bytesIn bytesOut, op = .addTraffic bytesIn bytesOut ∧
      (r' = r.addBytesIn bytesIn ∨ r' = r.addBytesOut bytesOut)) ∨
    r.SameOwner r' ∧ r.SameBytes r' := by
  cases op <;> cases pc <;> injection h <;> cases ‹_ = (_, _)›
  case bindRoute.read | bindRouteIfAbsentOrOwner.read | heartbeat.read | unbind.read =>
    exact .inr (.inr (.inr ⟨⟨rfl, rfl⟩, rfl, rfl⟩))
  case bindRoute.set => exact .inl ⟨_, _, _, ⟨rfl, .inl rfl⟩, rfl, rfl⟩
  case bindRouteIfAbsentOrOwner.set => exact .inl ⟨_, _, _, ⟨rfl, .inr rfl⟩, rfl, rfl⟩
  case bindRoute.expire | bindRouteIfAbsentOrOwner.expire | heartbeat.expire =>
    exact .inr (.inr (.inr (r.same_pexpire _ _)))
  case unbind.del => exact .inr (.inl ⟨_, rfl, rfl, rfl⟩)
  case addTraffic.addIn => exact .inr (.inr (.inl ⟨_, _, rfl, .inl rfl⟩))
  case addTraffic.addOut => exact .inr (.inr (.inl ⟨_, _, rfl, .inr rfl⟩))
  case addTraffic.expireNX => exact .inr (.inr (.inr (r.same_expireNX _ _)))

/-- Only the write of a bind or a self-heal and the `DEL` of an unbind touch the owner fields. -/
theorem Op.body_owner (h : op.body cfg r now pc = some (r', pc')) :
    (∃ node conn reset, (Call.mk op pc).Writes node conn reset ∧
      r' = r.bindHSet node conn reset ∧ pc' = .expire) ∨
    (∃ conn, (Call.mk op pc).Deletes conn ∧ r' = .absent ∧ pc' = .unlock .ok) ∨
    r.SameOwner r' := by
  rcases Op.body_cases h with hw | hd | ⟨_, _, -, rfl | rfl⟩ | hsame
  · exact .inl hw
  · exact .inr (.inl hd)
  · exact .inr (.inr (r.sameOwner_addBytesIn _))
  · exact .inr (.inr (r.sameOwner_addBytesOut _))
  · exact .inr (.inr hsame.1)

namespace Call

/-- A command of a call establishes what the call knows at the next one. -/
theorem knows_body (hr : r.node.isSome = r.connID.isSome)
    (h : op.body cfg r now pc = some (r', pc')) : (Call.mk op pc').Knows r' := by
  cases op <;> cases pc <;> injection h <;> cases ‹_ = (_, _)›
  case bindRoute.read conn =>
    split
    · trivial
    · exact ⟨rfl, ‹_›⟩
  case bindRouteIfAbsentOrOwner.read conn =>
    split
    · rename_i hn
      rw [hn] at hr
      simpa [Knows] using hr.symm
    · split
      · rename_i he
        simp [Knows, he]
      · trivial
  case heartbeat.read => split <;> [trivial; (split <;> trivial)]
  case unbind.read =>
    split
    · rename_i he
      simp [Knows, he]
    · trivial
  all_goals trivial

/-- The commands between the two of `withLock` neither take nor release the lock. -/
theorem holds_body (h : op.body cfg r now pc = some (r', pc')) :
    (Call.mk op pc').holds = (Call.mk op pc).holds := by
  cases op <;> cases pc <;> injection h <;> cases ‹_ = (_, _)›
  all_goals first | rfl | skip
  case bindRoute.read | unbind.read => split <;> rfl
  case bindRouteIfAbsentOrOwner.read => split <;> [rfl; (split <;> rfl)]

variable [DecidableEq τ] {st st' : Store ν ι τ} {t : τ} {c c' : Call ν ι}

/-- **The commands of a call**: the two of `withLock`, and those in between. -/
theorem next_cases (h : c.next cfg st t = some (st', c')) :
    (c.pc = .lock ∧ c.op.locks ∧ st.lock = none ∧
      st' = { st with lock := some t } ∧ c' = ⟨c.op, .read⟩) ∨
    (∃ res, c.pc = .unlock res ∧ c.op.locks ∧
      st' = { st with lock := if st.lock = some t then none else st.lock } ∧
      c' = ⟨c.op, .done res⟩) ∨
    (∃ r pc', c.op.body cfg st.route st.now c.pc = some (r, pc') ∧
      st' = { st with route := r } ∧ c' = ⟨c.op, pc'⟩) := by
  rw [next] at h
  split at h
  · rename_i hpc
    split at h
    · rename_i hc
      obtain ⟨rfl, rfl⟩ := Prod.mk.inj (Option.some.inj h)
      exact .inl ⟨hpc, hc.1, hc.2, rfl, rfl⟩
    · cases h
  · rename_i res hpc
    split at h
    · obtain ⟨rfl, rfl⟩ := Prod.mk.inj (Option.some.inj h)
      exact .inr (.inl ⟨res, hpc, ‹_›, rfl, rfl⟩)
    · cases h
  · obtain ⟨⟨r, pc'⟩, hb, he⟩ := Option.map_eq_some_iff.1 h
    obtain ⟨rfl, rfl⟩ := Prod.mk.inj he
    exact .inr (.inr ⟨r, pc', hb, rfl, rfl⟩)

theorem next_op (h : c.next cfg st t = some (st', c')) : c'.op = c.op := by
  rcases next_cases h with ⟨-, -, -, -, rfl⟩ | ⟨_, -, -, -, rfl⟩ | ⟨_, _, -, -, rfl⟩ <;> rfl

/-- A command that touches the route is one of those between the two of `withLock`. -/
theorem next_route (h : c.next cfg st t = some (st', c')) :
    st'.route = st.route ∨ c.op.body cfg st.route st.now c.pc = some (st'.route, c'.pc) := by
  rcases next_cases h with ⟨-, -, -, rfl, -⟩ | ⟨_, -, -, rfl, -⟩ | ⟨r, pc', hb, rfl, rfl⟩
  · exact .inl rfl
  · exact .inl rfl
  · exact .inr hb

/-- **The owner fields change in two ways only**: the write of a bind or a self-heal, and the
`DEL` of an unbind. -/
theorem next_owner (h : c.next cfg st t = some (st', c')) :
    (∃ node conn reset, c.Writes node conn reset ∧
      st'.route = st.route.bindHSet node conn reset ∧ c'.pc = .expire) ∨
    (∃ conn, c.Deletes conn ∧ st'.route = .absent ∧ c'.pc = .unlock .ok) ∨
    st.route.SameOwner st'.route := by
  rcases next_route h with he | hb
  · exact .inr (.inr ⟨by rw [he], by rw [he]⟩)
  · exact Op.body_owner hb

/-- The byte counters change in three ways only: a write that resets them, the `DEL`, and the
increments of `AddTraffic`. -/
theorem next_bytes (h : c.next cfg st t = some (st', c')) :
    (∃ node conn, c.Writes node conn true ∧ st'.route = st.route.bindHSet node conn true) ∨
    (∃ conn, c.Deletes conn ∧ st'.route = .absent) ∨
    (∃ bytesIn bytesOut, c.op = .addTraffic bytesIn bytesOut ∧
      (st'.route = st.route.addBytesIn bytesIn ∨ st'.route = st.route.addBytesOut bytesOut)) ∨
    st.route.SameBytes st'.route := by
  rcases next_route h with he | hb
  · exact .inr (.inr (.inr ⟨by rw [he], by rw [he]⟩))
  rcases Op.body_cases hb with ⟨node, conn, reset, hw, hr, -⟩ | ⟨conn, hd, hr, -⟩ | hadd | hsame
  · cases reset
    · exact .inr (.inr (.inr ⟨by rw [hr]; rfl, by rw [hr]; rfl⟩))
    · exact .inl ⟨node, conn, hw, hr⟩
  · exact .inr (.inl ⟨conn, hd, hr⟩)
  · exact .inr (.inr (.inl hadd))
  · exact .inr (.inr (.inr hsame.2))

end Call

end Commands

/-! ## Many calls at once -/

/-- The store and the calls in progress, at most one for each caller. -/
structure Pool (ν ι τ : Type) where
  store : Store ν ι τ
  /-- The last call of each caller. -/
  calls : τ → Option (Call ν ι)

namespace Pool

/-- An empty store, and nobody calling. -/
def init : Pool ν ι τ := ⟨⟨0, .absent, none⟩, fun _ => none⟩

/-- The result of the last call of `t`, once it has returned. -/
def result (p : Pool ν ι τ) (t : τ) : Option Outcome := (p.calls t).bind Call.returned

/-- The caller has no call in progress. -/
def Free (p : Pool ν ι τ) (t : τ) : Prop := p.calls t = none ∨ (p.result t).isSome

instance (p : Pool ν ι τ) (t : τ) : Decidable (p.Free t) := by
  unfold Free; infer_instance

/-- The route's key runs out. -/
def lapse (p : Pool ν ι τ) : Option (Pool ν ι τ) :=
  if p.store.route.Lapsed p.store.now then
    some { p with store := { p.store with route := .absent } }
  else none

/-- Time passes. -/
def tick (p : Pool ν ι τ) (ms : Nat) : Pool ν ι τ :=
  { p with store := { p.store with now := p.store.now + ms } }

/-- **What is always true of the calls in progress.** -/
structure Inv (p : Pool ν ι τ) : Prop where
  /-- The lock is held by the call that is in its critical section. -/
  lock : ∀ t c, p.calls t = some c → c.holds = true → p.store.lock = some t
  /-- What a call has read under the lock is still good. -/
  knows : ∀ t c, p.calls t = some c → c.Knows p.store.route
  /-- The two owner fields are written and dropped together. -/
  owner : p.store.route.node.isSome = p.store.route.connID.isSome

variable {cfg : Config} {p p' : Pool ν ι τ} {t u : τ} {c d : Call ν ι} {st : Store ν ι τ}

theorem init_inv : (init : Pool ν ι τ).Inv where
  lock := fun _ _ h => nomatch h
  knows := fun _ _ h => nomatch h
  owner := rfl

theorem lapse_cases (h : p.lapse = some p') :
    p.store.route.Lapsed p.store.now ∧
      p' = { p with store := { p.store with route := .absent } } := by
  rw [lapse] at h
  split at h
  · exact ⟨‹_›, (Option.some_inj.1 h).symm⟩
  · cases h

namespace Inv

/-- Only one caller is in its critical section. -/
theorem unique (h : p.Inv) (hc : p.calls t = some c) (hd : p.calls u = some d)
    (hch : c.holds = true) (hdh : d.holds = true) : u = t := by
  have h1 : p.store.lock = some t := h.lock t c hc hch
  have h2 : p.store.lock = some u := h.lock u d hd hdh
  exact Option.some_inj.1 (h2.symm.trans h1)

/-- The owner fields may be dropped at any time. -/
theorem fade (h : p.Inv) (hl : st.lock = p.store.lock) (hf : p.store.route.Fades st.route) :
    ({ p with store := st } : Pool ν ι τ).Inv where
  lock := fun t c hc hh => hl.trans (h.lock t c hc hh)
  knows := fun t c hc => (h.knows t c hc).mono hf
  owner := by
    rcases hf with hf | hf
    · show st.route.node.isSome = st.route.connID.isSome
      rw [hf.1, hf.2]; exact h.owner
    · show st.route.node.isSome = st.route.connID.isSome
      rw [hf.1, hf.2]; rfl

theorem lapse (h : p.Inv) (hs : p.lapse = some p') : p'.Inv := by
  obtain ⟨-, rfl⟩ := lapse_cases hs
  exact h.fade rfl p.store.route.fades_absent

theorem tick (h : p.Inv) (ms : Nat) : (p.tick ms).Inv := h.fade rfl (.inl ⟨rfl, rfl⟩)

section Body

variable [DecidableEq ι] {r : Route ν ι} {pc : Pc}

/-- What the others know survives a command of `t`: a call that writes the owner fields has the
lock, so no other call is where it knows anything. -/
theorem knows_others (h : p.Inv) (hc : p.calls t = some c)
    (hb : c.op.body cfg p.store.route p.store.now c.pc = some (r, pc)) (u : τ) (d : Call ν ι)
    (hu : u ≠ t) (hd : p.calls u = some d) : d.Knows r := by
  by_cases hh : d.holds = true
  · have hch : c.holds ≠ true := fun hch => hu (h.unique hc hd hch hh)
    rcases Op.body_owner hb with ⟨_, _, _, hw, _⟩ | ⟨_, hw, _⟩ | hsame
    · exact absurd hw.holds hch
    · exact absurd hw.holds hch
    · exact (h.knows u d hd).mono (.inl hsame)
  · exact Call.knows_of_not_holds (by simpa using hh)

theorem owner_body (h : p.Inv)
    (hb : c.op.body cfg p.store.route p.store.now c.pc = some (r, pc)) :
    r.node.isSome = r.connID.isSome := by
  rcases Op.body_owner hb with ⟨_, _, _, _, rfl, _⟩ | ⟨_, _, rfl, _⟩ | hsame
  · rfl
  · rfl
  · rw [hsame.1, hsame.2]; exact h.owner

end Body

end Inv

variable [DecidableEq τ]

/-- The pool after a caller's call moved on. -/
def put (p : Pool ν ι τ) (t : τ) (st : Store ν ι τ) (c : Call ν ι) : Pool ν ι τ :=
  ⟨st, Function.update p.calls t (some c)⟩

/-- A caller makes a call. -/
def start (p : Pool ν ι τ) (t : τ) (op : Op ν ι) : Option (Pool ν ι τ) :=
  if p.Free t then some (p.put t p.store op.start) else none

/-- The next command of a caller. -/
def cmd [DecidableEq ι] (cfg : Config) (p : Pool ν ι τ) (t : τ) : Option (Pool ν ι τ) :=
  (p.calls t).bind fun c => (c.next cfg p.store t).map fun x => p.put t x.1 x.2

/-- A caller's call fails. -/
def fail (p : Pool ν ι τ) (t : τ) : Option (Pool ν ι τ) :=
  (p.calls t).bind fun c => c.fail.map fun c' => p.put t p.store c'

theorem cmd_cases [DecidableEq ι] (h : p.cmd cfg t = some p') :
    ∃ c st' c', p.calls t = some c ∧ c.next cfg p.store t = some (st', c') ∧
      p' = p.put t st' c' := by
  obtain ⟨c, hc, h⟩ := Option.bind_eq_some_iff.1 h
  obtain ⟨⟨st', c'⟩, hn, rfl⟩ := Option.map_eq_some_iff.1 h
  exact ⟨c, st', c', hc, hn, rfl⟩

theorem fail_cases (h : p.fail t = some p') :
    ∃ c, p.calls t = some c ∧ c.returned = none ∧
      p' = p.put t p.store ⟨c.op, if c.holds then .unlock .failed else .done .failed⟩ := by
  obtain ⟨c, hc, h⟩ := Option.bind_eq_some_iff.1 h
  obtain ⟨c', hf, rfl⟩ := Option.map_eq_some_iff.1 h
  refine ⟨c, hc, ?_⟩
  rw [Call.fail] at hf
  split at hf
  · cases hf
  · rename_i hpc
    rw [Call.returned, ← Option.some_inj.1 hf]
    refine ⟨?_, rfl⟩
    split
    · exact absurd ‹_› (hpc _)
    · rfl

theorem start_cases {op : Op ν ι} (h : p.start t op = some p') :
    p.Free t ∧ p' = p.put t p.store op.start := by
  rw [start] at h
  split at h
  · exact ⟨‹_›, (Option.some_inj.1 h).symm⟩
  · cases h

@[simp] theorem put_calls_self : (p.put t st c).calls t = some c := Function.update_self ..

theorem put_calls_of_ne (h : u ≠ t) : (p.put t st c).calls u = p.calls u :=
  Function.update_of_ne h ..

namespace Inv

theorem put (h : p.Inv) (hlock : c.holds = true → st.lock = some t)
    (hothers : ∀ u, u ≠ t → p.store.lock = some u → st.lock = some u)
    (hknows : c.Knows st.route)
    (hrest : ∀ u d, u ≠ t → p.calls u = some d → d.Knows st.route)
    (howner : st.route.node.isSome = st.route.connID.isSome) : (p.put t st c).Inv := by
  refine ⟨fun u d hd hh => ?_, fun u d hd => ?_, howner⟩
  · by_cases hu : u = t
    · subst hu
      rw [put_calls_self, Option.some_inj] at hd
      exact hlock (hd ▸ hh)
    · rw [put_calls_of_ne hu] at hd
      exact hothers u hu (h.lock u d hd hh)
  · by_cases hu : u = t
    · subst hu
      rw [put_calls_self, Option.some_inj] at hd
      exact hd ▸ hknows
    · rw [put_calls_of_ne hu] at hd
      exact hrest u d hu hd

theorem start {op : Op ν ι} (h : p.Inv) (hs : p.start t op = some p') : p'.Inv := by
  obtain ⟨-, rfl⟩ := start_cases hs
  have hno : (op.start).holds = false := by cases op <;> rfl
  exact h.put (fun hh => absurd hh (by simp [hno])) (fun _ _ hl => hl)
    (Call.knows_of_not_holds hno) (fun u d _ hd => h.knows u d hd) h.owner

/-- **A command keeps the invariant.** -/
theorem cmd [DecidableEq ι] (h : p.Inv) (hs : p.cmd cfg t = some p') : p'.Inv := by
  obtain ⟨c, st', c', hc, hn, rfl⟩ := cmd_cases hs
  rcases Call.next_cases hn with ⟨-, -, hfree, rfl, rfl⟩ | ⟨res, hpc, hl, rfl, rfl⟩ |
    ⟨r, pc', hb, rfl, rfl⟩
  · refine h.put (fun _ => rfl) (fun u _ hu => ?_) ?_ (fun u d _ hd => h.knows u d hd) h.owner
    · rw [hfree] at hu; cases hu
    · cases c.op <;> trivial
  · have hch : c.holds = true := by simp [Call.holds, hpc, hl]
    have hlock : p.store.lock = some t := h.lock t c hc hch
    refine h.put (fun hh => ?_) (fun u hu hlu => ?_) ?_ (fun u d _ hd => h.knows u d hd) h.owner
    · rw [Call.holds_done] at hh; cases hh
    · exact absurd (Option.some_inj.1 (hlu.symm.trans hlock)) hu
    · cases c.op <;> trivial
  · refine h.put (fun hh => h.lock t c hc ?_) (fun _ _ hu => hu) (Call.knows_body h.owner hb)
      (h.knows_others hc hb) (h.owner_body hb)
    rw [Call.holds_body hb] at hh
    exact hh

theorem fail (h : p.Inv) (hs : p.fail t = some p') : p'.Inv := by
  obtain ⟨c, hc, -, rfl⟩ := fail_cases hs
  refine h.put (fun hh => h.lock t c hc ?_) (fun _ _ hu => hu) ?_ (fun u d _ hd => h.knows u d hd)
    h.owner
  · by_contra hno
    rw [if_neg hno, Call.holds_done] at hh
    cases hh
  · cases c.op <;> split <;> trivial

end Inv

end Pool

end Tunneld.Router

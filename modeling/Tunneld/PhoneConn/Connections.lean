import Tunneld.PhoneConn.Lifecycle

/-!
# What one step does to the connections

The results about control connections are about the route, so what they need to know of a step is
little: who wrote the owner, whether the owner was lost, and how the connections have moved on.
This file says it once.

* `Conn.WF` — how a connection and its two calls fit together: which call the handler and the
  heartbeat are in, and whether the connection's `BindRoute` has written yet.
* `Inv` — all connections are well formed, their numbers are distinct, and the owner of the route
  is the connection that wrote it.
* `Effect` — the five kinds of step: a bind writes, a self-heal writes, an unbind deletes, the key
  runs out, or the owner stays as it is and the connections `Moves` on.
* `Inv.cmd`, `Inv.fail`, `Inv.lapse` — what a command does, which is the part of a step that
  touches the route.

`Tunneld.PhoneConn.Steps` has the rest of the steps, which move one connection on.
-/

namespace Tunneld.PhoneConn

open Function Router

variable {κ ν ι : Type}
variable (cfg : Router.Config) (node : κ → ν)

/-! ## A connection and its calls -/

namespace Conn

/-- The call the handler is in. -/
def handlerOp (n : ν) (x : Conn ι) : Option (Op ν ι) :=
  match x.phase with
  | .binding _ => some (.bindRoute n x.connID)
  | .unbinding _ => some (.unbind x.connID)
  | _ => none

/-- The call the heartbeat is in. -/
def beatOp (n : ν) (x : Conn ι) : Option (Op ν ι) :=
  match x.beat with
  | .beating => some (.heartbeat x.connID)
  | .healing => some (.bindRouteIfAbsentOrOwner n x.connID)
  | _ => none

end Conn

/-- A goroutine that is in a call has made it, and one that is in none has no call in progress. -/
def Follows : Option (Op ν ι) → Option (Call ν ι) → Prop
  | some op, call => ∃ pc, call = some ⟨op, pc⟩
  | none, call => ∀ c, call = some c → c.returned.isSome = true

/-- A `BindRoute` that stands here has not written. -/
def unwritten : Pc → Bool
  | .lock | .read | .set _ | .unlock .connIDCollision | .done .connIDCollision => true
  | _ => false

/-- A `BindRoute` that stands here has written. -/
def written : Pc → Bool
  | .expire | .unlock .bound | .done .bound => true
  | _ => false

/-- How far a connection has come, and what it has to show for it. -/
structure Conn.Stage (x : Conn ι) : Prop where
  /-- Its number is that of the write of its `BindRoute`. -/
  early : x.phase.rank ≤ 1 → x.seq = 0
  late : 3 ≤ x.phase.rank → x.phase.rank ≤ 8 → x.seq ≠ 0
  /-- The heartbeat runs from the end of `register` to the teardown. -/
  off : x.phase.rank ≤ 4 ∨ x.phase.rank = 9 → x.beat = .off
  exited : 7 ≤ x.phase.rank → x.beat = .off ∨ x.beat = .exited
  /-- The teardown has closed the connection. -/
  closed : 6 ≤ x.phase.rank → x.phase.rank ≤ 8 → x.closed ≠ none

/-- **A connection on the node `n` fits its two calls**, `h` of the handler and `b` of the
heartbeat. -/
structure Conn.WF (n : ν) (x : Conn ι) (h b : Option (Call ν ι)) : Prop extends x.Stage where
  handler : Follows (x.handlerOp n) h
  beat : Follows (x.beatOp n) b
  /-- While it binds, it has its number if the call has written. -/
  unwritten : ∀ k op pc, x.phase = .binding k → h = some ⟨op, pc⟩ →
    PhoneConn.unwritten pc = true → x.seq = 0
  written : ∀ k op pc, x.phase = .binding k → h = some ⟨op, pc⟩ →
    PhoneConn.written pc = true → x.seq ≠ 0

section Calls

variable {cfg} {st st' : Store ν ι (Who κ)} {t : Who κ} {op : Op ν ι} {c c' : Call ν ι} {pc : Pc}

theorem follows_start : Follows (some op) (some op.start) := ⟨_, rfl⟩

/-- A call that has a next command has not returned. -/
theorem returned_of_next [DecidableEq κ] [DecidableEq ι] (h : c.next cfg st t = some (st', c')) :
    c.returned = none := by
  rcases Call.next_cases h with ⟨hpc, -⟩ | ⟨r, hpc, -⟩ | ⟨r, pc', hb, -⟩
  · rw [Call.returned, hpc]
  · rw [Call.returned, hpc]
  · cases hpc : c.pc with
    | done r =>
      rw [hpc] at hb
      cases hop : c.op <;> rw [hop] at hb <;> cases hb
    | _ => rw [Call.returned, hpc]

/-- A call in progress is the one its goroutine is in. -/
theorem Follows.op_eq {o : Option (Op ν ι)} (h : Follows o (some c)) (hc : c.returned = none) :
    o = some c.op := by
  cases o with
  | none =>
    have hr := h c rfl
    rw [hc] at hr; cases hr
  | some op =>
    obtain ⟨pc, he⟩ := h
    cases he; rfl

theorem Follows.of_op_eq {o : Option (Op ν ι)} (h : o = some c.op) : Follows o (some c) := by
  subst h; exact ⟨c.pc, rfl⟩

/-- Once the call a goroutine is in has returned, it is done. -/
theorem Follows.result {p : Pool ν ι (Who κ)} {r : Outcome} (h : Follows (some op) (p.calls t))
    (hr : p.result t = some r) : p.calls t = some ⟨op, .done r⟩ := by
  obtain ⟨pc, he⟩ := h
  rw [Pool.result, he] at hr
  cases pc <;> cases hr
  exact he

/-- A goroutine whose call has returned may go on to something that is no call. -/
theorem follows_none {p : Pool ν ι (Who κ)} {r : Outcome} (hr : p.result t = some r) :
    Follows none (p.calls t) := by
  intro c hc
  rw [Pool.result, hc] at hr
  rw [show c.returned = some r from hr]; rfl

variable [DecidableEq κ] [DecidableEq ι]

/-- `BindRoute` writes with its `HSET` and not before. -/
theorem bindRoute_next {n : ν} {i : ι} (hop : c.op = .bindRoute n i)
    (h : c.next cfg st t = some (st', c')) :
    (unwritten c'.pc = true → unwritten c.pc = true ∧ ∀ b, c.pc ≠ .set b) ∧
    (written c'.pc = true → written c.pc = true ∨ ∃ b, c.pc = .set b) := by
  obtain ⟨op, pc⟩ := c
  cases hop
  rcases Call.next_cases h with ⟨hpc, -, -, -, rfl⟩ | ⟨r, hpc, -, -, rfl⟩ | ⟨r, pc', hb, -, rfl⟩
  · cases hpc
    exact ⟨fun _ => ⟨rfl, by simp⟩, fun hw => nomatch hw⟩
  · cases hpc
    cases r <;> simp [unwritten, written]
  · cases pc <;> simp only [Op.body, bindRoute, Option.some.injEq, Prod.mk.injEq,
      reduceCtorEq] at hb
    all_goals obtain ⟨rfl, rfl⟩ := hb
    · split <;> simp [unwritten, written]
    · simp [unwritten, written]
    · simp [unwritten, written]

/-- The write of a bind or a self-heal puts its own id into the route. -/
theorem connID_of_write {n : ν} {i : ι} {r : Bool} (hw : c.Writes n i r)
    (h : c.next cfg st t = some (st', c')) : st'.route.connID = some i := by
  obtain ⟨op, pc⟩ := c
  obtain ⟨hpc, hop⟩ := hw
  cases hpc
  rcases Call.next_cases h with ⟨hpc, -⟩ | ⟨_, hpc, -⟩ | ⟨_, _, hb, rfl, -⟩
  · cases hpc
  · cases hpc
  · rcases hop with hop | hop <;> cases hop <;> cases hb <;> rfl

end Calls

namespace Conn.WF

variable {cfg} {n : ν} {x : Conn ι} {h b : Option (Call ν ι)} {c c' : Call ν ι} [DecidableEq κ]
variable {st st' : Store ν ι (Who κ)} {t : Who κ}

theorem handler_next [DecidableEq ι] (hw : x.WF n (some c) b)
    (hn : c.next cfg st t = some (st', c')) (hset : ∀ m i r, c ≠ ⟨.bindRoute m i, .set r⟩) :
    x.WF n (some c') b := by
  have hop : x.handlerOp n = some c.op := hw.handler.op_eq (returned_of_next hn)
  have hop' : c'.op = c.op := Call.next_op hn
  have hbind : ∀ k, x.phase = .binding k → c.op = .bindRoute n x.connID := by
    intro k hk
    rw [Conn.handlerOp, hk] at hop
    exact (Option.some_inj.1 hop).symm
  refine { hw with
    handler := .of_op_eq (hop.trans (by rw [hop']))
    unwritten := fun k op pc hk he hu => ?_
    written := fun k op pc hk he hu => ?_ } <;> cases he
  · exact hw.unwritten k _ _ hk rfl ((bindRoute_next (hbind k hk) hn).1 hu).1
  · rcases (bindRoute_next (hbind k hk) hn).2 hu with hu | ⟨r, hr⟩
    · exact hw.written k _ _ hk rfl hu
    · refine absurd ?_ (hset n x.connID r)
      rw [← hbind k hk, ← hr]

/-- The write of `BindRoute` gives the connection its number. -/
theorem handler_write [DecidableEq ι] {i : ι} {m : ν} {r : Bool} {k w : Nat}
    (hk : x.phase = .binding k) (hw : x.WF n (some ⟨.bindRoute m i, .set r⟩) b)
    (hn : (Call.mk (.bindRoute m i) (.set r)).next cfg st t = some (st', c')) :
    ({ x with seq := w + 1 } : Conn ι).WF n (some c') b := by
  have hop : x.handlerOp n = some (.bindRoute m i) := hw.handler.op_eq rfl
  have hop' : c'.op = .bindRoute m i := Call.next_op hn
  refine { hw with
    handler := .of_op_eq (hop.trans (by rw [hop']))
    unwritten := fun k op pc hk he hu => ?_
    written := fun _ _ _ _ _ _ => Nat.succ_ne_zero w
    early := fun hr => ?_
    late := fun _ _ => Nat.succ_ne_zero w }
  · rw [show ({ x with seq := w + 1 } : Conn ι).phase = .binding k from hk] at hr
    simp at hr
  · cases he
    exact absurd rfl (((bindRoute_next rfl hn).1 hu).2 r)

theorem beat_next [DecidableEq ι] (hw : x.WF n h (some c)) (hn : c.next cfg st t = some (st', c')) :
    x.WF n h (some c') := by
  have hop : x.beatOp n = some c.op := hw.beat.op_eq (returned_of_next hn)
  exact { hw with beat := .of_op_eq (hop.trans (by rw [Call.next_op hn])) }

theorem handler_fail (hw : x.WF n (some c) b) (hr : c.returned = none) :
    x.WF n (some ⟨c.op, if c.holds then .unlock .failed else .done .failed⟩) b := by
  have hop : x.handlerOp n = some c.op := hw.handler.op_eq hr
  refine { hw with
    handler := .of_op_eq hop
    unwritten := fun k op pc hk he hu => ?_
    written := fun k op pc hk he hu => ?_ } <;> cases he <;> revert hu <;> split <;>
      exact fun hu => nomatch hu

/-- A heartbeat that runs is that of a connection that has been registered. -/
theorem rank_of_beat (hw : x.WF n h b) (hoff : x.beat ≠ .off) (hexit : x.beat ≠ .exited) :
    5 ≤ x.phase.rank ∧ x.phase.rank ≤ 6 := by
  have h1 : ¬ (x.phase.rank ≤ 4 ∨ x.phase.rank = 9) := fun hr => hoff (hw.off hr)
  have h2 : ¬ 7 ≤ x.phase.rank := fun hr => (hw.exited hr).elim hoff hexit
  omega

theorem seq_of_beat (hw : x.WF n h b) (hoff : x.beat ≠ .off) (hexit : x.beat ≠ .exited) :
    x.seq ≠ 0 := by
  have hr := hw.rank_of_beat hoff hexit
  exact hw.late (by omega) (by omega)

theorem of_quiet (hst : x.Stage) (hq : x.handlerOp n = none) (hh : Follows none h)
    (hb : Follows (x.beatOp n) b) : x.WF n h b := by
  have hno : ∀ k, x.phase ≠ .binding k := fun k hk => by
    rw [Conn.handlerOp, hk] at hq; cases hq
  exact ⟨hst, hq ▸ hh, hb, fun k _ _ hk => absurd hk (hno k), fun k _ _ hk => absurd hk (hno k)⟩

theorem of_binding {k : Nat} (hp : x.phase = .binding k) (hseq : x.seq = 0) (hoff : x.beat = .off)
    (hb : Follows none b) : x.WF n (some (Op.bindRoute n x.connID).start) b := by
  refine ⟨by constructor <;> simp [hp, hoff], ?_, ?_, fun _ _ _ _ _ _ => hseq, ?_⟩
  · rw [Conn.handlerOp, hp]; exact follows_start
  · rw [Conn.beatOp, hoff]; exact hb
  · rintro _ _ _ _ ⟨⟩ hpc
    cases hpc

theorem beat_fail (hw : x.WF n h (some c)) (hr : c.returned = none) :
    x.WF n h (some ⟨c.op, if c.holds then .unlock .failed else .done .failed⟩) :=
  { hw with beat := .of_op_eq (hw.beat.op_eq hr) }

end Conn.WF

/-! ## The invariant, and what a step does -/

/-- **What is always true of the connections.** -/
structure Inv (s : State κ ν ι) : Prop where
  pool : s.pool.Inv
  wf : ∀ c, (s.conn c).WF (node c) (s.pool.calls (.handler c)) (s.pool.calls (.beat c))
  seq_le : ∀ c, (s.conn c).seq ≤ s.writes
  seq_inj : ∀ c d, (s.conn c).seq ≠ 0 → (s.conn c).seq = (s.conn d).seq → c = d
  readAt_le : ∀ c, (s.conn c).readAt ≤ s.writes
  /-- The owner of the route is the connection that wrote it. -/
  owner : ∀ i, s.route.connID = some i →
    ∃ c, s.writer = some c ∧ (s.conn c).connID = i ∧ (s.conn c).seq ≠ 0

/-- The connection is about to be closed as superseded: its heartbeat has found another owner, or
it is in the map and another connection of its node is about to be entered. -/
def State.Superseded (s : State κ ν ι) (d : κ) : Prop :=
  (∃ i, s.pool.calls (.beat d) = some ⟨.heartbeat i, .done .notOwner⟩) ∨
    ∃ c, (s.conn c).phase = .bound ∧ s.conns (node c) = some d

/-- The connection `c` has moved on from `s` to `x`, without a write of its `BindRoute`. -/
structure Moves (s : State κ ν ι) (c : κ) (x : Conn ι) : Prop where
  seq : x.seq = (s.conn c).seq
  connID : (s.conn c).seq ≠ 0 → x.connID = (s.conn c).connID
  rank : (s.conn c).phase.rank ≤ x.phase.rank
  exited : (s.conn c).beat = .exited → x.beat = .exited
  readAt : x.readAt = (s.conn c).readAt ∨
    (∃ i, s.pool.calls (.beat c) = some ⟨.heartbeat i, .read⟩) ∧ x.readAt = s.writes
  closed : x.closed = (s.conn c).closed ∨ (s.conn c).closed = none ∧
    (x.closed = some .other ∨ x.closed = some .superseded ∧ s.Superseded node c)
  finished : x.phase = .finished true → (s.conn c).phase = .finished true ∨
    ∃ i, s.pool.calls (.handler c) = some ⟨.unbind i, .done .ok⟩

/-- The owner of the route stays as it is, and the connections move on. -/
structure Calm (s s' : State κ ν ι) : Prop where
  owner : s.route.SameOwner s'.route
  writes : s'.writes = s.writes
  writer : s'.writer = s.writer
  conn : ∀ c, Moves node s c (s'.conn c)

/-- The connection `c` has written the route. -/
structure Wrote (s s' : State κ ν ι) (c : κ) : Prop where
  connID : s'.route.connID = some (s.conn c).connID
  writes : s'.writes = s.writes + 1
  writer : s'.writer = some c

/-- The route is gone. -/
structure Lost (s s' : State κ ν ι) : Prop where
  connID : s'.route.connID = none
  writes : s'.writes = s.writes
  writer : s'.writer = s.writer
  conn : s'.conn = s.conn

/-- **The kinds of step.** -/
inductive Effect [DecidableEq κ] (s s' : State κ ν ι) : Act κ ν ι → Prop
  /-- A `BindRoute` writes, and the connection gets its number. -/
  | bind (c : κ) (r : Bool)
      (hcall : s.pool.calls (.handler c) = some ⟨.bindRoute (node c) (s.conn c).connID, .set r⟩)
      (hwrote : Wrote s s' c)
      (hconn : s'.conn = update s.conn c { s.conn c with seq := s.writes + 1 }) :
      Effect s s' (.cmd (.handler c))
  /-- A self-heal writes. -/
  | heal (c : κ) (r : Bool)
      (hcall : s.pool.calls (.beat c) =
        some ⟨.bindRouteIfAbsentOrOwner (node c) (s.conn c).connID, .set r⟩)
      (hwrote : Wrote s s' c) (hconn : s'.conn = s.conn) : Effect s s' (.cmd (.beat c))
  /-- An unbind deletes. -/
  | delete (c : κ) (hcall : s.pool.calls (.handler c) = some ⟨.unbind (s.conn c).connID, .del⟩)
      (hlost : Lost s s') : Effect s s' (.cmd (.handler c))
  /-- The key runs out. -/
  | lapse (hlost : Lost s s') : Effect s s' .lapse
  /-- Anything else. -/
  | calm (a : Act κ ν ι) (hcalm : Calm node s s') : Effect s s' a

variable {node} {s s₁ s' : State κ ν ι} {c : κ} {x : Conn ι}

namespace Moves

theorem refl (s : State κ ν ι) (c : κ) : Moves node s c (s.conn c) :=
  ⟨rfl, fun _ => rfl, Nat.le_refl _, id, .inl rfl, .inl rfl, .inl⟩

theorem withPhase (ph : Phase) (h : Moves node s c x) (hr : x.phase.rank ≤ ph.rank)
    (hf : ph ≠ .finished true) : Moves node s c { x with phase := ph } :=
  ⟨h.seq, h.connID, Nat.le_trans h.rank hr, h.exited, h.readAt, h.closed, fun he => absurd he hf⟩

theorem withBeat {b : Beat} (h : Moves node s c x) (hb : (s.conn c).beat ≠ .exited) :
    Moves node s c { x with beat := b } :=
  ⟨h.seq, h.connID, h.rank, fun he => absurd he hb, h.readAt, h.closed, h.finished⟩

theorem withConnID {i : ι} (h : Moves node s c x) (hseq : (s.conn c).seq = 0) :
    Moves node s c { x with connID := i } :=
  ⟨h.seq, fun hne => absurd hseq hne, h.rank, h.exited, h.readAt, h.closed, h.finished⟩

/-- The first reason stays. -/
theorem close {r : Reason} (hr : r = .superseded → s.Superseded node c) :
    Moves node s c ((s.conn c).close r) := by
  refine ⟨rfl, fun _ => rfl, Nat.le_refl _, id, .inl rfl, ?_, .inl⟩
  cases hc : (s.conn c).closed with
  | some r' => exact .inl (by rw [Conn.close, hc]; rfl)
  | none =>
    refine .inr ⟨rfl, ?_⟩
    cases r with
    | other => exact .inl (by rw [Conn.close, hc]; rfl)
    | superseded => exact .inr ⟨by rw [Conn.close, hc]; rfl, hr rfl⟩

end Moves

/-- The two states differ in the map, the locks and the drain marks only. -/
structure Same (s s₁ : State κ ν ι) : Prop where
  pool : s₁.pool = s.pool
  conn : s₁.conn = s.conn
  writes : s₁.writes = s.writes
  writer : s₁.writer = s.writer

theorem Same.refl (s : State κ ν ι) : Same s s := ⟨rfl, rfl, rfl, rfl⟩

theorem same_setMu [DecidableEq ν] (s : State κ ν ι) (n : ν) (v : Option κ) :
    Same s (s.setMu n v) :=
  ⟨rfl, rfl, rfl, rfl⟩

variable [DecidableEq κ]

theorem same_remove [DecidableEq ν] (s : State κ ν ι) (c : κ) : Same s (s.remove node c) := by
  rw [State.remove]; split <;> exact ⟨rfl, rfl, rfl, rfl⟩

@[simp] theorem conn_set_self (s : State κ ν ι) (c : κ) (x : Conn ι) : (s.set c x).conn c = x :=
  update_self ..

theorem conn_set_of_ne {d : κ} (s : State κ ν ι) (x : Conn ι) (h : d ≠ c) :
    (s.set c x).conn d = s.conn d :=
  update_of_ne h ..

theorem conn_set (s : State κ ν ι) (c : κ) (x : Conn ι) (d : κ) :
    (d = c ∧ (s.set c x).conn d = x) ∨ (d ≠ c ∧ (s.set c x).conn d = s.conn d) := by
  by_cases h : d = c
  · exact .inl ⟨h, h ▸ conn_set_self ..⟩
  · exact .inr ⟨h, conn_set_of_ne s x h⟩

omit [DecidableEq κ] in
theorem Who.ne_of_conn_ne {t u : Who κ} (h : t.conn ≠ u.conn) : t ≠ u := fun he => h (he ▸ rfl)

/-- A calm step that keeps the invariant. -/
abbrev Keeps (node : κ → ν) (s s' : State κ ν ι) : Prop := Inv node s' ∧ Calm node s s'

namespace Inv

omit [DecidableEq κ] in
/-- A calm step keeps the invariant if it keeps the connections well formed. -/
theorem calm (h : Inv node s) (hc : Calm node s s') (hpool : s'.pool.Inv)
    (hwf : ∀ c, (s'.conn c).WF (node c) (s'.pool.calls (.handler c)) (s'.pool.calls (.beat c))) :
    Inv node s' where
  pool := hpool
  wf := hwf
  seq_le := fun c => by rw [(hc.conn c).seq, hc.writes]; exact h.seq_le c
  seq_inj := fun c d hne he => by
    rw [(hc.conn c).seq] at hne he
    rw [(hc.conn d).seq] at he
    exact h.seq_inj c d hne he
  readAt_le := fun c => by
    rw [hc.writes]
    rcases (hc.conn c).readAt with he | ⟨-, he⟩
    · rw [he]; exact h.readAt_le c
    · exact Nat.le_of_eq he
  owner := fun i hi => by
    rw [hc.owner.2] at hi
    obtain ⟨c, hw, hid, hne⟩ := h.owner i hi
    exact ⟨c, hc.writer.trans hw, ((hc.conn c).connID hne).trans hid, (hc.conn c).seq ▸ hne⟩

theorem wf_others (h : Inv node s) (hothers : ∀ d, d ≠ c → s'.conn d = s.conn d)
    (hcalls : ∀ t : Who κ, t.conn ≠ c → s'.pool.calls t = s.pool.calls t)
    (hwf : (s'.conn c).WF (node c) (s'.pool.calls (.handler c)) (s'.pool.calls (.beat c))) (d : κ) :
    (s'.conn d).WF (node d) (s'.pool.calls (.handler d)) (s'.pool.calls (.beat d)) := by
  by_cases hd : d = c
  · exact hd ▸ hwf
  · rw [hothers d hd, hcalls (.handler d) hd, hcalls (.beat d) hd]
    exact h.wf d

theorem move (h : Inv node s) (hpool : s'.pool.Inv) (howner : s.route.SameOwner s'.route)
    (hwrites : s'.writes = s.writes) (hwriter : s'.writer = s.writer)
    (hothers : ∀ d, d ≠ c → s'.conn d = s.conn d)
    (hcalls : ∀ t : Who κ, t.conn ≠ c → s'.pool.calls t = s.pool.calls t)
    (hm : Moves node s c (s'.conn c))
    (hwf : (s'.conn c).WF (node c) (s'.pool.calls (.handler c)) (s'.pool.calls (.beat c))) :
    Keeps node s s' := by
  have hcalm : Calm node s s' := by
    refine ⟨howner, hwrites, hwriter, fun d => ?_⟩
    by_cases hd : d = c
    · exact hd ▸ hm
    · rw [hothers d hd]; exact Moves.refl s d
  exact ⟨h.calm hcalm hpool (h.wf_others hothers hcalls hwf), hcalm⟩

theorem set (h : Inv node s) (hs : Same s s₁) (hm : Moves node s c x)
    (hwf : x.WF (node c) (s.pool.calls (.handler c)) (s.pool.calls (.beat c))) :
    Keeps node s (s₁.set c x) := by
  have hp : (s₁.set c x).pool = s.pool := hs.pool
  refine h.move (c := c) (hp ▸ h.pool) ?_ hs.writes hs.writer (fun d hd => ?_)
    (fun t _ => by rw [hp]) ?_ ?_
  · have hr : (s₁.set c x).route = s.route := by rw [State.route, hp, State.route]
    exact ⟨by rw [hr], by rw [hr]⟩
  · rw [conn_set_of_ne _ _ hd, hs.conn]
  · rw [conn_set_self]; exact hm
  · rw [conn_set_self, hp]; exact hwf

section Put

variable {t : Who κ} {st : Store ν ι (Who κ)} {q : Call ν ι}

/-- The call of `t` has moved on to `q`. -/
theorem wf_put {p : Pool ν ι (Who κ)}
    (hwf : x.WF (node t.conn)
      (if t = .handler t.conn then some q else p.calls (.handler t.conn))
      (if t = .beat t.conn then some q else p.calls (.beat t.conn))) :
    x.WF (node t.conn) ((p.put t st q).calls (.handler t.conn))
      ((p.put t st q).calls (.beat t.conn)) := by
  cases t with
  | handler c => simpa [Pool.put_calls_of_ne] using hwf
  | beat c => simpa [Pool.put_calls_of_ne] using hwf

theorem put (h : Inv node s) (hs : Same s s₁) (hpool : (s.pool.put t st q).Inv)
    (howner : s.route.SameOwner st.route) (hm : Moves node s t.conn x)
    (hwf : x.WF (node t.conn)
      (if t = .handler t.conn then some q else s.pool.calls (.handler t.conn))
      (if t = .beat t.conn then some q else s.pool.calls (.beat t.conn))) :
    Keeps node s { s₁.set t.conn x with pool := s.pool.put t st q } := by
  have hself : (s₁.set t.conn x).conn t.conn = x := conn_set_self ..
  refine h.move (c := t.conn) hpool howner hs.writes hs.writer (fun d hd => ?_)
    (fun u hu => Pool.put_calls_of_ne (Who.ne_of_conn_ne hu)) ?_ ?_
  · show (s₁.set t.conn x).conn d = s.conn d
    rw [conn_set_of_ne _ _ hd, hs.conn]
  · show Moves node s t.conn ((s₁.set t.conn x).conn t.conn)
    rw [hself]; exact hm
  · show ((s₁.set t.conn x).conn t.conn).WF _ _ _
    rw [hself]; exact wf_put hwf

theorem call_handler {op : Op ν ι} (h : Inv node s) (hs : Same s s₁)
    (hcall : s₁.call (.handler c) op x = some s') (hm : Moves node s c x)
    (hwf : x.WF (node c) (some op.start) (s.pool.calls (.beat c))) : Keeps node s s' := by
  rw [State.call, hs.pool] at hcall
  obtain ⟨p, hp, rfl⟩ := Option.map_eq_some_iff.1 hcall
  have hpool : p.Inv := h.pool.start hp
  obtain ⟨-, rfl⟩ := Pool.start_cases hp
  refine h.put (t := .handler c) hs hpool ⟨rfl, rfl⟩ hm ?_
  simpa using hwf

theorem call_beat {op : Op ν ι} (h : Inv node s)
    (hcall : s.call (.beat c) op x = some s') (hm : Moves node s c x)
    (hwf : x.WF (node c) (s.pool.calls (.handler c)) (some op.start)) : Keeps node s s' := by
  obtain ⟨p, hp, rfl⟩ := Option.map_eq_some_iff.1 hcall
  have hpool : p.Inv := h.pool.start hp
  obtain ⟨-, rfl⟩ := Pool.start_cases hp
  refine h.put (t := .beat c) (.refl s) hpool ⟨rfl, rfl⟩ hm ?_
  simpa using hwf

end Put

end Inv

/-! ## Commands -/

namespace Inv

variable {cfg} {t : Who κ} {q q' : Call ν ι} {st' : Store ν ι (Who κ)}

/-- The books of a command that does not write. -/
theorem ran_cases (node : κ → ν) (p : Pool ν ι (Who κ)) (hcall : s.pool.calls t = some q)
    (hset : ∀ r, q.pc ≠ .set r) :
    ∃ x, s.ran t p = { s.set t.conn x with pool := p } ∧ Moves node s t.conn x ∧
      ∀ (n : ν) (h b : Option (Call ν ι)), (s.conn t.conn).WF n h b → x.WF n h b := by
  have hself : s.set t.conn (s.conn t.conn) = s := by rw [State.set, update_eq_self]
  by_cases hread : ∃ c i, t = .beat c ∧ q = ⟨.heartbeat i, .read⟩
  · obtain ⟨c, i, rfl, rfl⟩ := hread
    refine ⟨{ s.conn c with readAt := s.writes }, by rw [State.ran.eq_def, hcall]; rfl,
      ⟨rfl, fun _ => rfl, Nat.le_refl _, id, .inr ⟨⟨i, hcall⟩, rfl⟩, .inl rfl, .inl⟩,
      fun n h b hw => ?_⟩
    exact ⟨⟨hw.early, hw.late, hw.off, hw.exited, hw.closed⟩, hw.handler, hw.beat, hw.unwritten,
      hw.written⟩
  · refine ⟨s.conn t.conn, ?_, Moves.refl s _, fun _ _ _ hw => hw⟩
    rw [hself, State.ran.eq_def, hcall]
    split
    · rename_i he; cases he; exact absurd rfl (hset _)
    · rename_i he; cases he; exact absurd rfl (hset _)
    · rename_i he; cases he; exact absurd ⟨_, _, rfl, rfl⟩ hread
    · rfl

theorem calm_cmd [DecidableEq ι] (h : Inv node s) (hcall : s.pool.calls t = some q)
    (hn : q.next cfg s.pool.store t = some (st', q')) (hpool : (s.pool.put t st' q').Inv)
    (hset : ∀ r, q.pc ≠ .set r) (hdel : ∀ i, ¬ q.Deletes i) :
    Keeps node s (s.ran t (s.pool.put t st' q')) := by
  obtain ⟨x, hran, hm, hwf⟩ := ran_cases node (s.pool.put t st' q') hcall hset
  have howner : s.route.SameOwner st'.route := by
    rcases Call.next_owner hn with ⟨_, _, r, hw, -⟩ | ⟨i, hd, -⟩ | hsame
    · exact absurd hw.1 (hset r)
    · exact absurd hd (hdel i)
    · exact hsame
  rw [hran]
  refine h.put (.refl s) hpool howner hm (hwf _ _ _ ?_)
  have hold := h.wf t.conn
  cases t with
  | handler c =>
    rw [show Who.conn (.handler c) = c from rfl, hcall] at hold
    simpa using hold.handler_next hn fun _ _ r he => hset r (by rw [he])
  | beat c =>
    rw [show Who.conn (.beat c) = c from rfl, hcall] at hold
    simpa using hold.beat_next hn

/-- **The write of a `BindRoute`.** -/
theorem bind_cmd [DecidableEq ι] {r : Bool} {k : Nat} (h : Inv node s)
    (hk : (s.conn c).phase = .binding k)
    (hcall : s.pool.calls (.handler c) = some ⟨.bindRoute (node c) (s.conn c).connID, .set r⟩)
    (hn : (Call.mk (.bindRoute (node c) (s.conn c).connID) (.set r)).next cfg s.pool.store
      (.handler c) = some (st', q')) (hpool : (s.pool.put (.handler c) st' q').Inv) :
    Inv node (s.ran (.handler c) (s.pool.put (.handler c) st' q')) ∧
      Effect node s (s.ran (.handler c) (s.pool.put (.handler c) st' q')) (.cmd (.handler c)) := by
  have hold := h.wf c
  rw [hcall] at hold
  have hran : s.ran (.handler c) (s.pool.put (.handler c) st' q') =
      { s.set c { s.conn c with seq := s.writes + 1 } with
        pool := s.pool.put (.handler c) st' q', writes := s.writes + 1, writer := some c } := by
    rw [State.ran.eq_def, hcall]
  have hroute := connID_of_write ⟨rfl, .inl rfl⟩ hn
  rw [hran]
  have hself : (s.set c { s.conn c with seq := s.writes + 1 }).conn c =
      { s.conn c with seq := s.writes + 1 } := conn_set_self ..
  have hseq : ∀ d, ((s.set c { s.conn c with seq := s.writes + 1 }).conn d).seq =
      if d = c then s.writes + 1 else (s.conn d).seq := fun d => by
    rcases conn_set s c { s.conn c with seq := s.writes + 1 } d with ⟨rfl, he⟩ | ⟨hd, he⟩
    · rw [he, if_pos rfl]
    · rw [he, if_neg hd]
  refine ⟨⟨hpool, ?_, fun d => ?_, fun d e hne he => ?_, fun d => ?_, fun i hi => ?_⟩,
    .bind c r hcall ⟨hroute, rfl, rfl⟩ rfl⟩
  · refine h.wf_others (c := c) (fun d hd => conn_set_of_ne s _ hd)
      (fun u hu => Pool.put_calls_of_ne (Who.ne_of_conn_ne hu)) ?_
    show ((s.set c { s.conn c with seq := s.writes + 1 }).conn c).WF _ _ _
    rw [hself]
    refine wf_put (t := .handler c) ?_
    simpa using hold.handler_write hk hn
  · show ((s.set c _).conn d).seq ≤ s.writes + 1
    have hd := h.seq_le d
    rw [hseq]; split <;> omega
  · have hne' : ((s.set c _).conn d).seq ≠ 0 := hne
    have he' : ((s.set c _).conn d).seq = ((s.set c _).conn e).seq := he
    have hd := h.seq_le d
    have hle := h.seq_le e
    rw [hseq] at hne' he'
    rw [hseq] at he'
    by_cases hdc : d = c <;> by_cases hec : e = c
    · rw [hdc, hec]
    · rw [if_pos hdc, if_neg hec] at he'; omega
    · rw [if_neg hdc, if_pos hec] at he'; omega
    · rw [if_neg hdc, if_neg hec] at he'
      rw [if_neg hdc] at hne'
      exact h.seq_inj d e hne' he'
  · show ((s.set c _).conn d).readAt ≤ s.writes + 1
    have hd := h.readAt_le d
    rcases conn_set s c { s.conn c with seq := s.writes + 1 } d with ⟨rfl, he⟩ | ⟨-, he⟩ <;>
      rw [he]
    · exact Nat.le_succ_of_le hd
    · exact Nat.le_succ_of_le hd
  · have he : some (s.conn c).connID = some i := hroute.symm.trans hi
    refine ⟨c, rfl, ?_, ?_⟩
    · show ((s.set c _).conn c).connID = i
      rw [hself]; exact Option.some_inj.1 he
    · show ((s.set c _).conn c).seq ≠ 0
      rw [hself]; exact Nat.succ_ne_zero _

omit [DecidableEq κ] in
theorem same_conn (h : Inv node s) (hpool : s'.pool.Inv) (hconn : s'.conn = s.conn)
    (hwf : ∀ d, (s'.conn d).WF (node d) (s'.pool.calls (.handler d)) (s'.pool.calls (.beat d)))
    (hwrites : s.writes ≤ s'.writes)
    (howner : ∀ i, s'.route.connID = some i →
      ∃ c, s'.writer = some c ∧ (s.conn c).connID = i ∧ (s.conn c).seq ≠ 0) : Inv node s' where
  pool := hpool
  wf := hwf
  seq_le := fun d => by rw [hconn]; exact Nat.le_trans (h.seq_le d) hwrites
  seq_inj := fun d e => by rw [hconn]; exact h.seq_inj d e
  readAt_le := fun d => by rw [hconn]; exact Nat.le_trans (h.readAt_le d) hwrites
  owner := fun i hi => by rw [hconn]; exact howner i hi

/-- **The write of a self-heal.** -/
theorem heal_cmd [DecidableEq ι] {r : Bool} (h : Inv node s) (hb : (s.conn c).beat = .healing)
    (hcall : s.pool.calls (.beat c) =
      some ⟨.bindRouteIfAbsentOrOwner (node c) (s.conn c).connID, .set r⟩)
    (hn : (Call.mk (.bindRouteIfAbsentOrOwner (node c) (s.conn c).connID) (.set r)).next cfg
      s.pool.store (.beat c) = some (st', q')) (hpool : (s.pool.put (.beat c) st' q').Inv) :
    Inv node (s.ran (.beat c) (s.pool.put (.beat c) st' q')) ∧
      Effect node s (s.ran (.beat c) (s.pool.put (.beat c) st' q')) (.cmd (.beat c)) := by
  have hold := h.wf c
  have hseq : (s.conn c).seq ≠ 0 := hold.seq_of_beat (by rw [hb]; decide) (by rw [hb]; decide)
  rw [hcall] at hold
  have hran : s.ran (.beat c) (s.pool.put (.beat c) st' q') =
      { s with pool := s.pool.put (.beat c) st' q', writes := s.writes + 1, writer := some c } := by
    rw [State.ran.eq_def, hcall]
  have hroute := connID_of_write ⟨rfl, .inr rfl⟩ hn
  rw [hran]
  refine ⟨h.same_conn hpool rfl ?_ (Nat.le_succ _) fun i hi => ?_,
    .heal c r hcall ⟨hroute, rfl, rfl⟩ rfl⟩
  · refine h.wf_others (c := c) (fun d _ => rfl)
      (fun u hu => Pool.put_calls_of_ne (Who.ne_of_conn_ne hu)) (wf_put (t := .beat c) ?_)
    simpa using hold.beat_next hn
  · exact ⟨c, rfl, Option.some_inj.1 (hroute.symm.trans hi), hseq⟩

/-- **The `DEL` of an unbind.** -/
theorem delete_cmd [DecidableEq ι] (h : Inv node s)
    (hcall : s.pool.calls (.handler c) = some ⟨.unbind (s.conn c).connID, .del⟩)
    (hn : (Call.mk (.unbind (s.conn c).connID) .del).next cfg s.pool.store (.handler c) =
      some (st', q')) (hpool : (s.pool.put (.handler c) st' q').Inv) :
    Inv node (s.ran (.handler c) (s.pool.put (.handler c) st' q')) ∧
      Effect node s (s.ran (.handler c) (s.pool.put (.handler c) st' q')) (.cmd (.handler c)) := by
  have hold := h.wf c
  rw [hcall] at hold
  have hran : s.ran (.handler c) (s.pool.put (.handler c) st' q') =
      { s with pool := s.pool.put (.handler c) st' q' } := by
    rw [State.ran.eq_def, hcall]
  have hroute : st'.route.connID = none := by
    rcases Call.next_cases hn with ⟨hpc, -⟩ | ⟨_, hpc, -⟩ | ⟨_, _, hb, rfl, -⟩ <;>
      [cases hpc; cases hpc; (cases hb; rfl)]
  rw [hran]
  refine ⟨h.same_conn hpool rfl ?_ (Nat.le_refl _) fun i hi => ?_,
    .delete c hcall ⟨hroute, rfl, rfl, rfl⟩⟩
  · refine h.wf_others (c := c) (fun d _ => rfl)
      (fun u hu => Pool.put_calls_of_ne (Who.ne_of_conn_ne hu)) (wf_put (t := .handler c) ?_)
    simpa using hold.handler_next hn fun _ _ _ he => nomatch he
  · exact nomatch hroute.symm.trans hi

/-- **A command** keeps the invariant, whatever it is. -/
theorem cmd [DecidableEq ι] {p : Pool ν ι (Who κ)} (h : Inv node s)
    (hp : s.pool.cmd cfg t = some p) :
    Inv node (s.ran t p) ∧ Effect node s (s.ran t p) (.cmd t) := by
  have hpool := h.pool.cmd hp
  obtain ⟨⟨op, pc⟩, st', q', hcall, hn, rfl⟩ := Pool.cmd_cases hp
  have hret := returned_of_next hn
  have hcalm := h.calm_cmd hcall hn hpool
  cases t with
  | handler c =>
    have hop := ((hcall ▸ (h.wf c).handler : Follows _ (some _))).op_eq hret
    cases hk : (s.conn c).phase <;>
      simp only [Conn.handlerOp, hk, reduceCtorEq, Option.some_inj] at hop <;> subst hop
    case binding k =>
      by_cases hset : ∃ r, pc = .set r
      · obtain ⟨r, rfl⟩ := hset
        exact h.bind_cmd hk hcall hn hpool
      · obtain ⟨h1, h2⟩ := hcalm (fun r he => hset ⟨r, he⟩) fun _ hd => nomatch hd
        exact ⟨h1, .calm _ h2⟩
    case unbinding b =>
      by_cases hdel : pc = .del
      · subst hdel
        exact h.delete_cmd hcall hn hpool
      · obtain ⟨h1, h2⟩ := hcalm
          (fun r he => by cases he; exact nomatch hn) fun _ hd => hdel (by cases hd; rfl)
        exact ⟨h1, .calm _ h2⟩
  | beat c =>
    have hop := ((hcall ▸ (h.wf c).beat : Follows _ (some _))).op_eq hret
    cases hb : (s.conn c).beat <;>
      simp only [Conn.beatOp, hb, reduceCtorEq, Option.some_inj] at hop <;> subst hop
    case beating =>
      obtain ⟨h1, h2⟩ := hcalm (fun r he => by cases he; exact nomatch hn) fun _ hd => nomatch hd
      exact ⟨h1, .calm _ h2⟩
    case healing =>
      by_cases hset : ∃ r, pc = .set r
      · obtain ⟨r, rfl⟩ := hset
        exact h.heal_cmd hb hcall hn hpool
      · obtain ⟨h1, h2⟩ := hcalm (fun r he => hset ⟨r, he⟩) fun _ hd => nomatch hd
        exact ⟨h1, .calm _ h2⟩

theorem fail {p : Pool ν ι (Who κ)} (h : Inv node s) (hp : s.pool.fail t = some p) :
    Keeps node s { s with pool := p } := by
  have hpool := h.pool.fail hp
  obtain ⟨q, hcall, hret, rfl⟩ := Pool.fail_cases hp
  have hself : s.set t.conn (s.conn t.conn) = s := by rw [State.set, update_eq_self]
  have hput := h.put (.refl s) hpool ⟨rfl, rfl⟩ (.refl s t.conn)
  rw [hself] at hput
  refine hput ?_
  have hold := h.wf t.conn
  cases t with
  | handler c =>
    rw [show Who.conn (.handler c) = c from rfl, hcall] at hold
    simpa using hold.handler_fail hret
  | beat c =>
    rw [show Who.conn (.beat c) = c from rfl, hcall] at hold
    simpa using hold.beat_fail hret

omit [DecidableEq κ] in
theorem lapse {p : Pool ν ι (Who κ)} (h : Inv node s) (hp : s.pool.lapse = some p) :
    Inv node { s with pool := p } ∧ Lost s { s with pool := p } := by
  have hpool := h.pool.lapse hp
  obtain ⟨-, rfl⟩ := Pool.lapse_cases hp
  exact ⟨h.same_conn hpool rfl h.wf (Nat.le_refl _) fun i hi => (nomatch hi), rfl, rfl, rfl, rfl⟩

end Inv

/-! ## One connection -/

omit [DecidableEq κ] in
/-- A `BindRoute` that writes is that of a connection without a number. -/
theorem Inv.bind_spec {n : ν} {i : ι} {r : Bool} (h : Inv node s)
    (hcall : s.pool.calls (.handler c) = some ⟨.bindRoute n i, .set r⟩) :
    (∃ k, (s.conn c).phase = .binding k) ∧ (s.conn c).seq = 0 := by
  have hw := h.wf c
  rw [hcall] at hw
  have hop := hw.handler.op_eq rfl
  cases hk : (s.conn c).phase <;> simp [Conn.handlerOp, hk] at hop
  exact ⟨⟨_, rfl⟩, hw.unwritten _ _ _ hk rfl rfl⟩

namespace Effect

variable {a : Act κ ν ι}

/-- **What a step does to one connection**: it moves on, or its `BindRoute` writes. -/
theorem moves (heff : Effect node s s' a) (h : Inv node s) (c : κ) :
    Moves node s c (s'.conn c) ∨ (∃ k, (s.conn c).phase = .binding k) ∧ (s.conn c).seq = 0 ∧
      s'.conn c = { s.conn c with seq := s.writes + 1 } := by
  cases heff with
  | bind e r hcall hwrote hconn =>
    by_cases hc : c = e
    · subst hc
      obtain ⟨hk, hseq⟩ := h.bind_spec hcall
      exact .inr ⟨hk, hseq, by rw [hconn, update_self]⟩
    · rw [hconn, update_of_ne hc]; exact .inl (.refl s c)
  | heal e r hcall hwrote hconn => rw [hconn]; exact .inl (.refl s c)
  | delete e hcall hlost => rw [hlost.conn]; exact .inl (.refl s c)
  | lapse hlost => rw [hlost.conn]; exact .inl (.refl s c)
  | calm _ hcalm => exact .inl (hcalm.conn c)

/-- A connection that has its number moves on. -/
theorem moves_of_bound (heff : Effect node s s' a) (h : Inv node s) (hne : (s.conn c).seq ≠ 0) :
    Moves node s c (s'.conn c) := by
  rcases heff.moves h c with hm | ⟨-, hseq, -⟩
  · exact hm
  · exact absurd hseq hne

end Effect

end Tunneld.PhoneConn

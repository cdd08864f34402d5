import Tunneld.PhoneConn.Steps
import Mathlib.Data.Fintype.Basic

/-!
# What a connection id guarantees

The heartbeat, the self-heal and the unbind of a connection act on the route only if it carries the
connection's id, so they act on its own route if no other connection acts under the same id.
`register` sees to that with one comparison: `BindRoute` refuses an id that the route carries at
that moment, and `register` mints another.

That is not quite enough.  A connection that was superseded and has not noticed has an id that the
route no longer carries; if a later connection mints it again, nothing collides, and the old
connection takes the new route for its own.  And a `Heartbeat` reads the owner and refreshes the
route in two commands without the lock, so a bind in between has its time to live extended by the
connection it superseded; the code knows of this and calls it harmless.

With ids that differ among the connections that are still there, `DistinctIDs`, the rest holds.
The invariant is that the only such connection with the id in the route is the one that wrote it,
`IDInv.own`.

## Main results

* `acts_on_own_route`: no route of another connection is rewritten or deleted;
* `acts_on_foreign_route`: the two runs above.
-/

namespace Tunneld.PhoneConn

open Function Router

variable {κ ν ι : Type}
variable {cfg : Router.Config} {node : κ → ν} {s s' : State κ ν ι} {c d : κ} {x : Conn ι}

/-! ## Distinct ids -/

namespace Conn

/-- The `BindRoute` of the connection has written the route. -/
def Bound (x : Conn ι) : Prop := x.seq ≠ 0

/-- And its teardown has not returned. -/
def Active (x : Conn ι) : Prop := x.seq ≠ 0 ∧ x.phase.rank ≤ 7

instance (x : Conn ι) : Decidable x.Bound := inferInstanceAs (Decidable (x.seq ≠ 0))

instance (x : Conn ι) : Decidable x.Active :=
  inferInstanceAs (Decidable (x.seq ≠ 0 ∧ x.phase.rank ≤ 7))

end Conn

/-- A property that a connection gains with the write of its `BindRoute` and in no other way. -/
structure Fading (node : κ → ν) (P : Conn ι → Prop) : Prop where
  bound : ∀ x, P x → x.Bound
  moves : ∀ (s : State κ ν ι) c x, Moves node s c x → P x → P (s.conn c)

theorem fading_bound : Fading node (Conn.Bound : Conn ι → Prop) where
  bound := fun _ h => h
  moves := fun s c x hm h => by rwa [Conn.Bound, hm.seq] at h

theorem fading_active : Fading node (Conn.Active : Conn ι → Prop) where
  bound := fun _ h => h.1
  moves := fun _ _ _ hm h => ⟨hm.seq ▸ h.1, Nat.le_trans hm.rank h.2⟩

/-- The next command of the handler of `c` is the write of its `BindRoute`. -/
def State.bindWrites (s : State κ ν ι) (c : κ) : Bool :=
  match s.pool.calls (.handler c) with
  | some ⟨.bindRoute _ _, .set _⟩ => true
  | _ => false

/-- A guard: a connection binds under an id that no other connection with the property `P` has. -/
def DistinctIDs (P : Conn ι → Prop) (s : State κ ν ι) : Act κ ν ι → Prop
  | .cmd (.handler c) => s.bindWrites c = true → ∀ d, d ≠ c → P (s.conn d) →
      (s.conn d).connID ≠ (s.conn c).connID
  | _ => True

instance [DecidableEq κ] [DecidableEq ι] [Fintype κ] (P : Conn ι → Prop) [DecidablePred P]
    (s : State κ ν ι) (a : Act κ ν ι) : Decidable (DistinctIDs P s a) := by
  unfold DistinctIDs; split <;> infer_instance

/-- The ids of the connections with the property `P` differ. -/
def Distinct (P : Conn ι → Prop) (s : State κ ν ι) : Prop :=
  ∀ c d, P (s.conn c) → P (s.conn d) → (s.conn c).connID = (s.conn d).connID → c = d

theorem Distinct.of_conn {P : Conn ι → Prop} (h : Distinct P s) (he : s'.conn = s.conn) :
    Distinct P s' := by
  rw [Distinct, he]; exact h

/-- Ids that differ whenever a connection binds differ always. -/
theorem Distinct.step [DecidableEq κ] {P : Conn ι → Prop} {a : Act κ ν ι} (h : Distinct P s)
    (hP : Fading node P) (hg : DistinctIDs P s a) (heff : Effect node s s' a) : Distinct P s' := by
  cases heff with
  | bind e r hcall hwrote hconn =>
    have hnew : ∀ d, d ≠ e → P (s.conn d) → (s.conn d).connID ≠ (s.conn e).connID :=
      hg (by rw [State.bindWrites, hcall])
    intro c d hc hd hid
    rw [hconn] at hc hd hid
    by_cases hce : c = e <;> by_cases hde : d = e
    · rw [hce, hde]
    · rw [hce, update_self, update_of_ne hde] at hid
      rw [update_of_ne hde] at hd
      exact absurd hid.symm (hnew d hde hd)
    · rw [hde, update_self, update_of_ne hce] at hid
      rw [update_of_ne hce] at hc
      exact absurd hid (hnew c hce hc)
    · rw [update_of_ne hce] at hc hid
      rw [update_of_ne hde] at hd hid
      exact h c d hc hd hid
  | heal e r hcall hwrote hconn => exact h.of_conn hconn
  | delete e hcall hlost => exact h.of_conn hlost.conn
  | lapse hlost => exact h.of_conn hlost.conn
  | calm _ hcalm =>
    intro c d hc hd hid
    have hc' := hP.moves s c _ (hcalm.conn c) hc
    have hd' := hP.moves s d _ (hcalm.conn d) hd
    rw [(hcalm.conn c).connID (hP.bound _ hc'), (hcalm.conn d).connID (hP.bound _ hd')] at hid
    exact h c d hc' hd' hid

/-! ## The calls of a connection -/

/-- The heartbeat is in the call its connection is in, and the connection is registered. -/
theorem Inv.beat_spec {q : Call ν ι} (h : Inv node s) (hcall : s.pool.calls (.beat c) = some q)
    (hret : q.returned = none) :
    (s.conn c).beatOp (node c) = some q.op ∧ 5 ≤ (s.conn c).phase.rank ∧
      (s.conn c).phase.rank ≤ 6 ∧ (s.conn c).seq ≠ 0 := by
  have hw := h.wf c
  rw [hcall] at hw
  have hop := hw.beat.op_eq hret
  have hoff : (s.conn c).beat ≠ .off := fun hb => by rw [Conn.beatOp, hb] at hop; cases hop
  have hexit : (s.conn c).beat ≠ .exited := fun hb => by rw [Conn.beatOp, hb] at hop; cases hop
  have hr := hw.rank_of_beat hoff hexit
  exact ⟨hop, hr.1, hr.2, hw.seq_of_beat hoff hexit⟩

variable {i : ι}

/-- The id of a call of the heartbeat is that of the connection. -/
theorem connID_of_beatOp {n : ν} {op : Op ν ι} (h : x.beatOp n = some op) (hi : op.conn = some i) :
    i = x.connID := by
  rw [Conn.beatOp] at h
  split at h <;> cases h <;> exact (Option.some_inj.1 hi).symm

/-- The handler that is in `Unbind` is that of a connection on its way out. -/
theorem Inv.unbind_spec {pc : Pc} (h : Inv node s)
    (hcall : s.pool.calls (.handler c) = some ⟨.unbind i, pc⟩)
    (hret : (Call.mk (.unbind i) pc : Call ν ι).returned = none) :
    (∃ b, (s.conn c).phase = .unbinding b) ∧ i = (s.conn c).connID ∧ (s.conn c).seq ≠ 0 := by
  have hw := h.wf c
  rw [hcall] at hw
  have hop := hw.handler.op_eq hret
  cases hp : (s.conn c).phase <;> simp [Conn.handlerOp, hp] at hop
  rename_i b
  exact ⟨⟨b, rfl⟩, hop.symm, hw.late (by simp [hp]) (by simp [hp])⟩

variable [DecidableEq κ] [DecidableEq ι]

/-- A `Heartbeat` comes to its `PEXPIRE` only by reading its own id. -/
theorem CallStep.heartbeat_expire {st st' : Store ν ι (Who κ)} {t : Who κ} {q : Option (Call ν ι)}
    (h : CallStep cfg st st' t q (some ⟨.heartbeat i, .expire⟩)) :
    q = some ⟨.heartbeat i, .expire⟩ ∨
      q = some ⟨.heartbeat i, .read⟩ ∧ st.route.connID = some i := by
  generalize he : some (⟨.heartbeat i, .expire⟩ : Call ν ι) = q' at h
  cases h with
  | same => exact .inl rfl
  | start _ op => cases op <;> cases he
  | next q q' hn =>
    cases he
    obtain ⟨op, pc⟩ := q
    cases (Call.next_op hn : Op.heartbeat i = op)
    rcases Call.next_cases hn with ⟨-, -, -, -, hq⟩ | ⟨_, -, -, -, hq⟩ | ⟨_, _, hb, -, hq⟩
    · cases hq
    · cases hq
    · cases hq
      cases pc <;> simp [Op.body, heartbeat] at hb
      refine .inr ⟨rfl, ?_⟩
      by_contra hne
      have hb' := hb.2
      split at hb' <;> simp_all
  | fail q =>
    have hpc := congrArg Call.pc (Option.some_inj.1 he)
    simp only at hpc
    split at hpc <;> cases hpc

/-! ## The route of a connection -/

/-- **What is always true of the ids**, if those of the connections that are still there differ. -/
structure IDInv (node : κ → ν) (s : State κ ν ι) : Prop where
  inv : Inv node s
  distinct : Distinct Conn.Active s
  /-- The route carries the id of a connection that is still there only if that connection wrote
  it. -/
  own : ∀ c, (s.conn c).Active → s.route.connID = some (s.conn c).connID → s.writer = some c
  /-- A `Heartbeat` about to refresh has found its own route, if nobody has written since. -/
  refresh : ∀ c i, s.pool.calls (.beat c) = some ⟨.heartbeat i, .expire⟩ →
    (s.conn c).readAt = s.writes → s.route.connID ≠ none → s.writer = some c

namespace IDInv

variable {a : Act κ ν ι}

omit [DecidableEq ι] in
theorem own_step (h : IDInv node s) (hd : Distinct Conn.Active s') (heff : Effect node s s' a)
    (c : κ) (hc : (s'.conn c).Active) (hid : s'.route.connID = some (s'.conn c).connID) :
    s'.writer = some c := by
  cases heff with
  | bind e r hcall hwrote hconn =>
    have he : s'.conn e = { s.conn e with seq := s.writes + 1 } := by
      rw [hconn, update_self]
    obtain ⟨⟨k, hk⟩, -⟩ := h.inv.bind_spec hcall
    have hact : (s'.conn e).Active := by
      rw [he]
      exact ⟨Nat.succ_ne_zero _, by simp [hk]⟩
    rw [hwrote.connID, Option.some_inj] at hid
    rw [hwrote.writer, hd e c hact hc (by rw [he]; exact hid)]
  | heal e r hcall hwrote hconn =>
    obtain ⟨-, -, hrank, hseq⟩ := h.inv.beat_spec hcall rfl
    rw [hwrote.connID, Option.some_inj] at hid
    rw [hconn] at hc hid
    rw [hwrote.writer, h.distinct e c ⟨hseq, by omega⟩ hc hid]
  | delete e hcall hlost => rw [hlost.connID] at hid; cases hid
  | lapse hlost => rw [hlost.connID] at hid; cases hid
  | calm _ hcalm =>
    have hc' := fading_active.moves s c _ (hcalm.conn c) hc
    rw [hcalm.owner.2, (hcalm.conn c).connID hc'.1] at hid
    rw [hcalm.writer]
    exact h.own c hc' hid

variable [DecidableEq ν]

theorem refresh_step (h : IDInv node s) (hs : step cfg node s a = some s')
    (heff : Effect node s s' a) (c : κ) (i : ι)
    (hcall : s'.pool.calls (.beat c) = some ⟨.heartbeat i, .expire⟩)
    (hread : (s'.conn c).readAt = s'.writes) (hne : s'.route.connID ≠ none) :
    s'.writer = some c := by
  have hle := h.inv.readAt_le c
  cases heff with
  | bind e r _ hwrote hconn =>
    -- the write came after the read
    have hsame : (s'.conn c).readAt = (s.conn c).readAt := by
      rw [hconn]
      by_cases hce : c = e
      · rw [hce, update_self]
      · rw [update_of_ne hce]
    rw [hsame, hwrote.writes] at hread
    omega
  | heal e r _ hwrote hconn =>
    rw [hconn, hwrote.writes] at hread
    omega
  | delete e _ hlost => exact absurd hlost.connID hne
  | lapse hlost => exact absurd hlost.connID hne
  | calm _ hcalm =>
    rw [hcalm.owner.2] at hne
    rw [hcalm.writer]
    have hstep := step_calls hs (.beat c)
    rw [hcall] at hstep
    rcases hstep.heartbeat_expire with hold | ⟨hold, hid⟩
    · refine h.refresh c i hold ?_ hne
      rw [hcalm.writes] at hread
      rcases (hcalm.conn c).readAt with he | ⟨⟨j, hj⟩, -⟩
      · rw [← he, hread]
      · rw [hold] at hj; cases hj
    · obtain ⟨hop, -, hrank, hseq⟩ := h.inv.beat_spec hold rfl
      have hid' : s.route.connID = some (s.conn c).connID := by
        rw [← connID_of_beatOp hop rfl]; exact hid
      exact h.own c ⟨hseq, by omega⟩ hid'

theorem step (h : IDInv node s) (hg : DistinctIDs Conn.Active s a)
    (hs : PhoneConn.step cfg node s a = some s') : IDInv node s' := by
  obtain ⟨hi, heff⟩ := h.inv.step hs
  have hd := h.distinct.step fading_active hg heff
  exact ⟨hi, hd, h.own_step hd heff, h.refresh_step hs heff⟩

end IDInv

variable [DecidableEq ν]

theorem init_idInv [Inhabited ι] (cfg : Router.Config) (node : κ → ν) :
    IDInv node (system cfg node : Lts (State κ ν ι) (Act κ ν ι)).init where
  inv := init_inv cfg node
  distinct := fun _ _ hc => absurd rfl hc.1
  own := fun _ hc => absurd rfl hc.1
  refresh := fun _ _ hcall => nomatch hcall

namespace State

/-- The route was bound by the connection `d`. -/
def BoundBy (s : State κ ν ι) (d : κ) : Prop := s.route.connID ≠ none ∧ s.writer = some d

/-- The next command of the heartbeat of `c` refreshes the route. -/
def Refreshes (s : State κ ν ι) (c : κ) : Prop :=
  ∃ i, s.pool.calls (.beat c) = some ⟨.heartbeat i, .expire⟩

/-- The next command of the heartbeat of `c` is the write of its self-heal. -/
def Rewrites (s : State κ ν ι) (c : κ) : Prop :=
  ∃ n i r, s.pool.calls (.beat c) = some ⟨.bindRouteIfAbsentOrOwner n i, .set r⟩

/-- The next command of the handler of `c` deletes the route. -/
def Deletes (s : State κ ν ι) (c : κ) : Prop :=
  ∃ i, s.pool.calls (.handler c) = some ⟨.unbind i, .del⟩

end State

/-- **Connections act on their own routes.**  If a connection never binds under the id of another
one that is still there, the self-heal of a connection never rewrites and its unbind never deletes
a route bound by another one, and its heartbeat refreshes one only if there was a write between its
read and its refresh. -/
theorem acts_on_own_route [Inhabited ι] (cfg : Router.Config) (node : κ → ν) {s : State κ ν ι}
    (h : (system cfg node).Reach (DistinctIDs Conn.Active) s) {c d : κ} (hd : s.BoundBy d) :
    (s.Rewrites c → d = c) ∧ (s.Deletes c → d = c) ∧
      (s.Refreshes c → (s.conn c).readAt = s.writes → d = c) := by
  have hi : IDInv node s := h.invariant (init_idInv cfg node) fun _ _ _ _ hi hg hs => hi.step hg hs
  obtain ⟨hne, hw⟩ := hd
  have hown : s.writer = some c → d = c := fun he => Option.some_inj.1 (hw.symm.trans he)
  refine ⟨fun ⟨n, i, r, hcall⟩ => hown ?_, fun ⟨i, hcall⟩ => hown ?_, fun ⟨i, hcall⟩ hread =>
    hown (hi.refresh c i hcall hread hne)⟩
  · obtain ⟨hop, -, hrank, hseq⟩ := hi.inv.beat_spec hcall rfl
    have hknows := Call.knows_selfHeal rfl rfl (hi.inv.pool.knows _ _ hcall)
    obtain ⟨j, hj⟩ := Option.ne_none_iff_exists'.1 hne
    refine hi.own c ⟨hseq, by omega⟩ ?_
    cases r with
    | true => exact absurd hknows hne
    | false =>
      rw [← connID_of_beatOp hop rfl, hj, hknows j hj]
  · obtain ⟨⟨b, hp⟩, hid, hseq⟩ := hi.inv.unbind_spec hcall rfl
    have hknows := Call.Deletes.knows rfl (hi.inv.pool.knows _ _ hcall)
    obtain ⟨j, hj⟩ := Option.ne_none_iff_exists'.1 hne
    refine hi.own c ⟨hseq, by simp [hp]⟩ ?_
    rw [← hid, hj, hknows j hj]

/-- **The guarantee as it stands fails**, in two ways.  Connection `0` is superseded by `1` without
noticing, and `2` mints the id of `0` again: nothing collides, and the unbind of `0` deletes the
route of `2`.  And, with distinct ids, `1` binds between the read and the refresh of the heartbeat
of `0`. -/
theorem acts_on_foreign_route :
    (∃ s : State (Fin 3) (Fin 3) Nat, (system ⟨30000, 60000⟩ id).Reach Lts.always s ∧
      s.BoundBy 2 ∧ s.Deletes 0) ∧
    (∃ s : State (Fin 3) (Fin 3) Nat, (system ⟨30000, 60000⟩ id).Reach (DistinctIDs Conn.Active) s ∧
      s.BoundBy 1 ∧ s.Refreshes 0) := by
  obtain ⟨s, hrun, hid, hby, hdel⟩ : ∃ s : State (Fin 3) (Fin 3) Nat,
      (system ⟨30000, 60000⟩ id).exec (registerRun 0 1 ++ registerRun 1 2 ++ registerRun 2 1 ++
        [Act.teardown 0, .hbDone 0, .leave 0, .cmd (.handler 0), .cmd (.handler 0)]) = some s ∧
      s.route.connID = some 1 ∧ s.writer = some 2 ∧
      s.pool.calls (.handler 0) = some ⟨.unbind 1, .del⟩ := ⟨_, rfl, rfl, rfl, rfl⟩
  obtain ⟨s', hrun', hid', hby', href⟩ : ∃ s : State (Fin 3) (Fin 3) Nat,
      (system ⟨30000, 60000⟩ id).execWith (DistinctIDs Conn.Active) (system ⟨30000, 60000⟩ id).init
        (registerRun 0 1 ++ [Act.tick 0, .cmd (.beat 0)] ++ registerRun 1 2) = some s ∧
      s.route.connID = some 2 ∧ s.writer = some 1 ∧
      s.pool.calls (.beat 0) = some ⟨.heartbeat 1, .expire⟩ := ⟨_, rfl, rfl, rfl, rfl⟩
  exact ⟨⟨s, Lts.reach_of_exec hrun, ⟨by simp [hid], hby⟩, 1, hdel⟩,
    s', Lts.reach_of_execWith hrun', ⟨by simp [hid'], hby'⟩, 1, href⟩

/-- Connection `0` is superseded by `1`, and the route that `1` is about to delete in its teardown
is its own and nobody else's. -/
theorem deletes_own_route :
    ∃ s : State (Fin 3) (Fin 3) Nat, (system ⟨30000, 60000⟩ id).Reach (DistinctIDs Conn.Active) s ∧
      s.BoundBy 1 ∧ s.Deletes 1 ∧ ∀ c, s.Deletes c ∨ s.Rewrites c → 1 = c := by
  obtain ⟨s, hrun, hid, hw, hcall⟩ : ∃ s : State (Fin 3) (Fin 3) Nat,
      (system ⟨30000, 60000⟩ id).execWith (DistinctIDs Conn.Active) (system ⟨30000, 60000⟩ id).init
        (registerRun 0 1 ++ registerRun 1 2 ++
          [Act.teardown 1, .hbDone 1, .leave 1, .cmd (.handler 1), .cmd (.handler 1)]) = some s ∧
      s.route.connID = some 2 ∧ s.writer = some 1 ∧
      s.pool.calls (.handler 1) = some ⟨.unbind 2, .del⟩ := ⟨_, rfl, rfl, rfl, rfl⟩
  have hreach := Lts.reach_of_execWith hrun
  have hby : s.BoundBy 1 := ⟨by simp [hid], hw⟩
  refine ⟨s, hreach, hby, ⟨2, hcall⟩, fun c hc => ?_⟩
  rcases hc with hc | hc
  · exact (acts_on_own_route ⟨30000, 60000⟩ id hreach hby).2.1 hc
  · exact (acts_on_own_route ⟨30000, 60000⟩ id hreach hby).1 hc

end Tunneld.PhoneConn

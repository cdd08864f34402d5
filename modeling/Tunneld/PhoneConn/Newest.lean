import Tunneld.PhoneConn.ConnIDs
import Tunneld.PhoneConn.LocalMap

/-!
# Does the newest connection win?

A new control connection replaces the previous one.  On its own node the map sees to that; on
another node the old connection learns of it from its heartbeat, which finds another owner in the
route and closes the connection.  The route is thus the only record of who replaced whom, and it
has a time to live.

If the route is lost before the old connection has looked (the heartbeats of both fail until it
runs out, or the route belonged to a third connection whose teardown deletes it), the old
connection finds no route, takes that for a loss of its own route and binds itself again, and it is
the new connection whose next heartbeat finds another owner and which is closed.

What does hold is that the order is kept as long as it is recorded.  `NewestInv` says so: the
connection that wrote the route is the newest open one, and while there is no route, whoever can
bind itself again is.  The first part makes the second one true at a loss only under the guard
`NoneStale`.

## Main results

* `newest_wins`, for the runs under this guard;
* `stale_connection_wins`: a run in which both heartbeats fail until the route runs out.
-/

namespace Tunneld.PhoneConn

open Router

variable {κ ν ι : Type}
variable {cfg : Router.Config} {node : κ → ν} {s s' : State κ ν ι} {c d : κ} {x : Conn ι}

/-! ## The guard -/

namespace Conn

/-- The connection has bound the route and is open. -/
def Open (x : Conn ι) : Prop := x.seq ≠ 0 ∧ x.closed = none ∧ x.phase.rank ≤ 6

/-- The connection has bound the route and its heartbeat has not ended, so it may bind itself
again. -/
def Beats (x : Conn ι) : Prop := x.seq ≠ 0 ∧ x.beat ≠ .exited ∧ x.phase.rank ≤ 6

instance (x : Conn ι) : Decidable x.Open :=
  inferInstanceAs (Decidable (x.seq ≠ 0 ∧ x.closed = none ∧ x.phase.rank ≤ 6))

instance (x : Conn ι) : Decidable x.Beats :=
  inferInstanceAs (Decidable (x.seq ≠ 0 ∧ x.beat ≠ .exited ∧ x.phase.rank ≤ 6))

end Conn

theorem fading_open : Fading node (Conn.Open : Conn ι → Prop) where
  bound := fun _ h => h.1
  moves := fun s c x hm h => by
    refine ⟨hm.seq ▸ h.1, ?_, Nat.le_trans hm.rank h.2.2⟩
    rcases hm.closed with he | ⟨he, -⟩
    · rw [← he]; exact h.2.1
    · exact he

theorem fading_beats : Fading node (Conn.Beats : Conn ι → Prop) where
  bound := fun _ h => h.1
  moves := fun _ _ _ hm h =>
    ⟨hm.seq ▸ h.1, fun he => h.2.1 (hm.exited he), Nat.le_trans hm.rank h.2.2⟩

variable [DecidableEq κ]

/-- Every connection whose heartbeat has not ended is at least as new as every open one. -/
def State.NoneStale (s : State κ ν ι) : Prop :=
  ∀ c d, (s.conn c).Beats → (s.conn d).Open → (s.conn d).seq ≤ (s.conn c).seq

instance [Fintype κ] (s : State κ ν ι) : Decidable s.NoneStale := by
  unfold State.NoneStale; infer_instance

/-- The action loses the route: the key runs out, or an unbind deletes it. -/
def State.loses (s : State κ ν ι) : Act κ ν ι → Bool
  | .lapse => true
  | .cmd (.handler c) =>
    match s.pool.calls (.handler c) with
    | some ⟨.unbind _, .del⟩ => true
    | _ => false
  | _ => false

/-- The guard under which the newest connection wins: ids differ, and when the route is lost there
is no heartbeat left of a connection that is older than an open one. -/
def Ordered (s : State κ ν ι) (a : Act κ ν ι) : Prop :=
  DistinctIDs Conn.Bound s a ∧ (s.loses a = true → s.NoneStale)

instance [DecidableEq ι] [Fintype κ] (s : State κ ν ι) (a : Act κ ν ι) :
    Decidable (Ordered s a) := by
  unfold Ordered; infer_instance

/-! ## The invariant -/

/-- A later connection has bound the route. -/
def State.Replaced (s : State κ ν ι) (d : κ) : Prop :=
  (s.conn d).seq ≠ 0 ∧ ∃ e, (s.conn d).seq < (s.conn e).seq

/-- **What is always true of the order of the connections.** -/
structure NewestInv (node : κ → ν) (s : State κ ν ι) : Prop where
  inv : Inv node s
  map : MapInv node s
  distinct : Distinct Conn.Bound s
  /-- The connection that wrote the route is at least as new as every open one. -/
  newest : s.route.connID ≠ none → ∀ c d, s.writer = some c → (s.conn d).Open →
    (s.conn d).seq ≤ (s.conn c).seq
  /-- So is every connection that may write it, while there is none. -/
  absent : s.route.connID = none → s.NoneStale
  /-- An open connection whose heartbeat has found another owner has been replaced. -/
  notOwner : ∀ d i, s.pool.calls (.beat d) = some ⟨.heartbeat i, .done .notOwner⟩ →
    (s.conn d).seq ≠ 0 ∧ ((s.conn d).closed = none → s.Replaced d)
  /-- So has every connection that was closed as superseded. -/
  superseded : ∀ d, (s.conn d).closed = some .superseded → s.Replaced d

theorem State.Replaced.step {a : Act κ ν ι} (h : s.Replaced d) (hi : Inv node s)
    (heff : Effect node s s' a) : s'.Replaced d := by
  obtain ⟨hne, e, he⟩ := h
  have hd := (heff.moves_of_bound hi hne).seq
  have hee := (heff.moves_of_bound hi (c := e) (by omega)).seq
  exact ⟨by rw [hd]; exact hne, e, by rw [hd, hee]; exact he⟩

/-- A `Heartbeat` reports another owner only if its read found one. -/
theorem CallStep.heartbeat_notOwner [DecidableEq ι] {st st' : Store ν ι (Who κ)} {t : Who κ}
    {q : Option (Call ν ι)} {i : ι}
    (h : CallStep cfg st st' t q (some ⟨.heartbeat i, .done .notOwner⟩)) :
    q = some ⟨.heartbeat i, .done .notOwner⟩ ∨
      q = some ⟨.heartbeat i, .read⟩ ∧ ∃ j, st.route.connID = some j ∧ j ≠ i := by
  generalize he : some (⟨.heartbeat i, .done .notOwner⟩ : Call ν ι) = q' at h
  cases h with
  | same => exact .inl rfl
  | start _ op => cases op <;> cases he
  | next q q' hn =>
    cases he
    obtain ⟨op, pc⟩ := q
    cases (Call.next_op hn : Op.heartbeat i = op)
    rcases Call.next_cases hn with ⟨-, -, -, -, hq⟩ | ⟨_, -, hl, -, -⟩ | ⟨_, _, hb, -, hq⟩
    · cases hq
    · cases hl
    · cases hq
      cases pc <;> simp [Op.body, heartbeat] at hb
      · refine .inr ⟨rfl, ?_⟩
        have hb' := hb.2
        cases hr : st.route.connID with
        | none => simp [hr] at hb'
        | some j =>
          refine ⟨j, rfl, fun hj => ?_⟩
          simp [hr, hj] at hb'
      · have hb' := hb.2
        split at hb' <;> cases hb'
  | fail q =>
    have hpc := congrArg Call.pc (Option.some_inj.1 he)
    simp only at hpc
    split at hpc <;> cases hpc

/-- A connection that is open has been open. -/
theorem Effect.closed_eq_none {a : Act κ ν ι} (hi : Inv node s) (heff : Effect node s s' a)
    (h : (s'.conn d).closed = none) : (s.conn d).closed = none := by
  rcases heff.moves hi d with hm | ⟨-, -, he⟩
  · rcases hm.closed with he | ⟨he, -⟩
    · rw [← he]; exact h
    · exact he
  · rw [he] at h; exact h

namespace NewestInv

omit [DecidableEq κ] in
/-- The connection whose id the route carries is the one that wrote it. -/
theorem writer_eq (h : NewestInv node s) (hc : (s.conn c).seq ≠ 0)
    (hid : s.route.connID = some (s.conn c).connID) : s.writer = some c := by
  obtain ⟨e, hw, he, hne⟩ := h.inv.owner _ hid
  rw [hw, h.distinct e c hne hc he]

omit [DecidableEq κ] in
/-- A self-heal is that of the newest connection. -/
theorem newest_of_heal {r : Bool} (h : NewestInv node s)
    (hcall : s.pool.calls (.beat c) =
      some ⟨.bindRouteIfAbsentOrOwner (node c) (s.conn c).connID, .set r⟩)
    (hd : (s.conn d).Open) : (s.conn d).seq ≤ (s.conn c).seq := by
  obtain ⟨hop, -, hrank, hseq⟩ := h.inv.beat_spec hcall rfl
  have hexit : (s.conn c).beat ≠ .exited := fun hb => by rw [Conn.beatOp, hb] at hop; cases hop
  have hknows := Call.knows_selfHeal rfl rfl (h.inv.pool.knows _ _ hcall)
  cases hid : s.route.connID with
  | none => exact h.absent hid c d ⟨hseq, hexit, hrank⟩ hd
  | some j =>
    have hj : j = (s.conn c).connID := by
      cases r with
      | true => cases hid.symm.trans hknows
      | false => exact hknows j hid
    have hw := h.writer_eq hseq (hid.trans (by rw [hj]))
    exact h.newest (by rw [hid]; exact Option.some_ne_none j) c d hw hd

variable {a : Act κ ν ι}

theorem newest_step (h : NewestInv node s) (hi : Inv node s') (heff : Effect node s s' a)
    (hne : s'.route.connID ≠ none) (c d : κ) (hw : s'.writer = some c) (hd : (s'.conn d).Open) :
    (s'.conn d).seq ≤ (s'.conn c).seq := by
  cases heff with
  | bind e r hcall hwrote hconn =>
    rw [hwrote.writer, Option.some_inj] at hw
    have hle := hi.seq_le d
    have he : (s'.conn c).seq = s.writes + 1 := by rw [← hw, hconn, Function.update_self]
    rw [he, ← hwrote.writes]; exact hle
  | heal e r hcall hwrote hconn =>
    rw [hwrote.writer, Option.some_inj] at hw
    subst hw
    rw [hconn] at hd ⊢
    exact h.newest_of_heal hcall hd
  | delete e hcall hlost => exact absurd hlost.connID hne
  | lapse hlost => exact absurd hlost.connID hne
  | calm _ hcalm =>
    rw [hcalm.owner.2] at hne
    rw [hcalm.writer] at hw
    rw [(hcalm.conn c).seq, (hcalm.conn d).seq]
    exact h.newest hne c d hw (fading_open.moves s d _ (hcalm.conn d) hd)

theorem absent_step (h : NewestInv node s) (hg : Ordered s a) (heff : Effect node s s' a)
    (hnone : s'.route.connID = none) : s'.NoneStale := by
  cases heff with
  | bind e r hcall hwrote hconn => exact nomatch hwrote.connID.symm.trans hnone
  | heal e r hcall hwrote hconn => exact nomatch hwrote.connID.symm.trans hnone
  | delete e hcall hlost =>
    rw [State.NoneStale, hlost.conn]
    exact hg.2 (by rw [State.loses, hcall])
  | lapse hlost =>
    rw [State.NoneStale, hlost.conn]
    exact hg.2 rfl
  | calm _ hcalm =>
    intro c d hc hd
    rw [hcalm.owner.2] at hnone
    rw [(hcalm.conn c).seq, (hcalm.conn d).seq]
    exact h.absent hnone c d (fading_beats.moves s c _ (hcalm.conn c) hc)
      (fading_open.moves s d _ (hcalm.conn d) hd)

theorem notOwner_step [DecidableEq ν] [DecidableEq ι] (h : NewestInv node s)
    (hs : step cfg node s a = some s') (heff : Effect node s s' a) (d : κ) (i : ι)
    (hcall : s'.pool.calls (.beat d) = some ⟨.heartbeat i, .done .notOwner⟩) :
    (s'.conn d).seq ≠ 0 ∧ ((s'.conn d).closed = none → s'.Replaced d) := by
  suffices hold : (s.conn d).seq ≠ 0 ∧ ((s.conn d).closed = none → s.Replaced d) by
    refine ⟨by rw [(heff.moves_of_bound h.inv hold.1).seq]; exact hold.1, fun hc => ?_⟩
    exact (hold.2 (heff.closed_eq_none h.inv hc)).step h.inv heff
  have hstep := step_calls hs (.beat d)
  rw [hcall] at hstep
  rcases hstep.heartbeat_notOwner with hold | ⟨hold, j, hj, hne⟩
  · exact h.notOwner d i hold
  · -- the read finds another owner, which is then newer
    obtain ⟨hop, -, hrank, hseq⟩ := h.inv.beat_spec hold rfl
    obtain ⟨e, hw, he, -⟩ := h.inv.owner j hj
    refine ⟨hseq, fun hc => ⟨hseq, e, ?_⟩⟩
    have hle : (s.conn d).seq ≤ (s.conn e).seq :=
      h.newest (fun hn => nomatch hj.symm.trans hn) e d hw ⟨hseq, hc, hrank⟩
    have hde : d ≠ e := fun hde => hne (by rw [connID_of_beatOp hop rfl, hde, he])
    exact Nat.lt_of_le_of_ne hle fun heq => hde (h.inv.seq_inj d e hseq heq)

omit [DecidableEq κ] in
/-- The one that is in the map when another connection of its node is entered has been
replaced. -/
theorem replaced_of_entered (h : NewestInv node s) (hp : (s.conn c).phase = .bound)
    (hin : s.conns (node c) = some d) : s.Replaced d := by
  obtain ⟨hnode, hm⟩ := h.map.entry _ _ hin
  have hpast := Phase.past_of_mapped hm
  have hc : (s.conn c).seq ≠ 0 := (h.inv.wf c).late (by rw [hp]; decide) (by rw [hp]; decide)
  have hrank := Phase.rank_of_past hpast
  have hd : (s.conn d).seq ≠ 0 := (h.inv.wf d).late (by omega) hrank.2
  exact ⟨hd, c, h.map.pending c d (by rw [hp]; rfl) hc hnode hpast⟩

theorem superseded_step (h : NewestInv node s) (heff : Effect node s s' a) (d : κ)
    (hc : (s'.conn d).closed = some .superseded) : s'.Replaced d := by
  suffices hold : s.Replaced d from hold.step h.inv heff
  rcases heff.moves h.inv d with hm | ⟨-, -, he⟩
  · rcases hm.closed with he | ⟨hnone, he | ⟨-, hsup⟩⟩
    · exact h.superseded d (he ▸ hc)
    · rw [he] at hc; cases hc
    · rcases hsup with ⟨i, hcall⟩ | ⟨c, hp, hin⟩
      · exact (h.notOwner d i hcall).2 hnone
      · exact h.replaced_of_entered hp hin
  · rw [he] at hc; exact h.superseded d hc

theorem step [DecidableEq ν] [DecidableEq ι] (h : NewestInv node s) (hg : Ordered s a)
    (hs : PhoneConn.step cfg node s a = some s') : NewestInv node s' := by
  obtain ⟨hi, heff⟩ := h.inv.step hs
  exact ⟨hi, h.map.step h.inv hs, h.distinct.step fading_bound hg.1 heff, h.newest_step hi heff,
    h.absent_step hg heff, h.notOwner_step hs heff, h.superseded_step heff⟩

end NewestInv

variable [DecidableEq ν] [DecidableEq ι]

theorem init_newestInv [Inhabited ι] (cfg : Router.Config) (node : κ → ν) :
    NewestInv node (system cfg node : Lts (State κ ν ι) (Act κ ν ι)).init where
  inv := init_inv cfg node
  map := init_mapInv cfg node
  distinct := fun _ _ hc => absurd rfl hc
  newest := fun hne => absurd rfl hne
  absent := fun _ _ _ hc => absurd rfl hc.1
  notOwner := fun _ _ hcall => nomatch hcall
  superseded := fun _ hc => nomatch hc

/-! ## The newest connection -/

/-- **The newest connection wins**, in every run that keeps the order.  A connection is not the
owner of the route while a connection that bound it later is open, and no connection is closed as
superseded unless a later one has bound the route. -/
theorem newest_wins [Inhabited ι] (cfg : Router.Config) (node : κ → ν) {s : State κ ν ι}
    (h : (system cfg node).Reach Ordered s) :
    (∀ c d, (s.conn c).Bound → (s.conn d).Open → (s.conn c).seq < (s.conn d).seq →
      s.route.connID ≠ some (s.conn c).connID) ∧
    ∀ d, (s.conn d).closed = some .superseded → ∃ e, (s.conn d).seq < (s.conn e).seq := by
  have hi : NewestInv node s :=
    h.invariant (init_newestInv cfg node) fun _ _ _ _ hi hg hs => hi.step hg hs
  refine ⟨fun c d hc hd hlt hid => ?_, fun d hd => (hi.superseded d hd).2⟩
  have hle := hi.newest (fun hn => nomatch hid.symm.trans hn) c d (hi.writer_eq hc hid) hd
  omega

/-- **The newest connection may lose.**  Connection `false` is superseded by `true` on another
node, the heartbeats of both fail until the route runs out, and `false` is the first to find it
gone.  It owns the route again while `true` is open, and then `true` is closed as superseded,
although no connection has bound the route after it. -/
theorem stale_connection_wins :
    ∃ s t : State Bool Bool Nat,
      (system ⟨30000, 60000⟩ id).Reach (DistinctIDs Conn.Bound) s ∧
      (system ⟨30000, 60000⟩ id).Later (DistinctIDs Conn.Bound) s t ∧
      (s.conn false).seq < (s.conn true).seq ∧ (s.conn true).Open ∧
      s.route.connID = some (s.conn false).connID ∧
      (t.conn true).closed = some .superseded ∧ (∀ e, (t.conn e).seq ≤ (t.conn true).seq) ∧
      ∀ n, t.draining n = false := by
  have hrun : ((system ⟨30000, 60000⟩ id).execWith (DistinctIDs Conn.Bound)
      (system ⟨30000, 60000⟩ id).init (registerRun false 1 ++ registerRun true 2 ++
        [Act.tick false, .fail (.beat false), .beatReturned false, .tick true, .fail (.beat true),
          .beatReturned true, .time 30001, .lapse] ++ healRun false)).any
      (fun s : State Bool Bool Nat => ((s.conn false).seq < (s.conn true).seq ∧
        (s.conn true).Open ∧ s.route.connID = some (s.conn false).connID) ∧
        ((system ⟨30000, 60000⟩ id).execWith (DistinctIDs Conn.Bound) s
          [.tick true, .cmd (.beat true), .beatReturned true]).any
          (fun t => (t.conn true).closed = some .superseded ∧
            (∀ e, (t.conn e).seq ≤ (t.conn true).seq) ∧ ∀ n, t.draining n = false)) = true := by
    decide +kernel
  obtain ⟨s, hreach, ⟨hlt, hopen, hid⟩, hrun⟩ := Lts.exists_reach_of_any hrun
  obtain ⟨t, hlater, hclosed, hlast, hdrain⟩ := Lts.exists_later_of_any hrun
  exact ⟨s, t, hreach, hlater, hlt, hopen, hid, hclosed, hlast, hdrain⟩

/-- Connection `false` finds out in time that it has been replaced; the route then runs out and
`true` binds it again. -/
theorem newest_heals :
    ∃ s : State Bool Bool Nat, (system ⟨30000, 60000⟩ id).Reach Ordered s ∧
      s.route.connID = some (s.conn true).connID ∧ (s.conn true).Open ∧
      s.route.connID ≠ some (s.conn false).connID ∧
      (s.conn false).closed = some .superseded ∧ ∃ e, (s.conn false).seq < (s.conn e).seq := by
  have hrun : ((system ⟨30000, 60000⟩ id).execWith Ordered (system ⟨30000, 60000⟩ id).init
      (registerRun false 1 ++ registerRun true 2 ++
        [Act.tick false, .cmd (.beat false), .beatReturned false, .time 30001, .lapse] ++
        healRun true)).any (fun s : State Bool Bool Nat =>
          s.route.connID = some (s.conn true).connID ∧ (s.conn true).Open ∧
          (s.conn false).Bound ∧ (s.conn false).seq < (s.conn true).seq ∧
          (s.conn false).closed = some .superseded) = true := by
    decide +kernel
  obtain ⟨s, hreach, hid, hopen, hbound, hlt, hclosed⟩ := Lts.exists_reach_of_any hrun
  have hwins := newest_wins ⟨30000, 60000⟩ id hreach
  exact ⟨s, hreach, hid, hopen, hwins.1 false true hbound hopen hlt, hclosed,
    hwins.2 false hclosed⟩

end Tunneld.PhoneConn

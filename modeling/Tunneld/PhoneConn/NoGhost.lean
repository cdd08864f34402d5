import Tunneld.PhoneConn.ConnIDs
import Tunneld.PhoneConn.LocalMap

/-!
# No route is left behind

`teardown` closes the connection, waits for its heartbeat to end, takes it out of the map and calls
`Unbind`, in this order.  A self-heal that was under way when the connection was closed may still
bind the route, but `teardown` waits for it, and once it has ended nobody binds the route for this
connection any more.  So when `Unbind` has read another owner, or deleted the route, the id of the
connection is gone from the route for good: `State.Gone`, which every step keeps.

The map is the other half.  While `register` runs, its lock keeps the order of the map that of the
binds (`Tunneld.PhoneConn.LocalMap`), so once no `register` runs on a node, the connection in its
map is the last of those that have bound.

## Main results

* `no_ghost_route`: both halves.
-/

namespace Tunneld.PhoneConn

open Router

variable {κ ν ι : Type} [DecidableEq κ]
variable {cfg : Router.Config} {node : κ → ν} {s s' : State κ ν ι} {c d : κ} {x : Conn ι}

/-! ## The end of an unbind -/

/-- The `Unbind` of the id `i` has succeeded, but for the release of the lock. -/
def Cleared (i : ι) (q : Option (Call ν ι)) : Prop :=
  q = some ⟨.unbind i, .unlock .ok⟩ ∨ q = some ⟨.unbind i, .done .ok⟩

/-- An `Unbind` succeeds by reading another owner or by its `DEL`. -/
theorem CallStep.unbind_ok [DecidableEq ι] {st st' : Store ν ι (Who κ)} {t : Who κ}
    {q q' : Option (Call ν ι)} {i : ι} (h : CallStep cfg st st' t q q') (hc : Cleared i q') :
    Cleared i q ∨ (∃ pc, q = some ⟨.unbind i, pc⟩ ∧ (Call.mk (.unbind i) pc : Call ν ι).returned =
      none) ∧ st'.route.connID ≠ some i := by
  cases h with
  | same => exact .inl hc
  | start _ op => rcases hc with hc | hc <;> cases op <;> cases hc
  | next q q' hn =>
    obtain ⟨op, pc⟩ := q
    have hop : op = .unbind i := by
      have hop := Call.next_op hn
      rcases hc with hc | hc <;> cases hc <;> exact hop.symm
    subst hop
    rcases Call.next_cases hn with ⟨-, -, -, -, hq⟩ | ⟨r, hpc, -, -, hq⟩ | ⟨_, pc', hb, hst, hq⟩
    · subst hq
      rcases hc with hc | hc <;> cases hc
    · cases hpc
      subst hq
      rcases hc with hc | hc <;> cases hc
      exact .inl (.inl rfl)
    · subst hq
      cases pc <;> simp only [Op.body, unbind, Option.some.injEq, Prod.mk.injEq, reduceCtorEq] at hb
      · refine .inr ⟨⟨_, rfl, rfl⟩, fun he => ?_⟩
        rw [hst, ← hb.1] at he
        rw [if_pos he] at hb
        rcases hc with hc | hc <;> cases hc <;> cases hb.2
      · refine .inr ⟨⟨_, rfl, rfl⟩, ?_⟩
        rw [hst, ← hb.1]; exact (Option.some_ne_none i).symm
  | fail q =>
    rcases hc with hc | hc
    all_goals
      have hpc := congrArg Call.pc (Option.some_inj.1 hc)
      simp only at hpc
      split at hpc <;> cases hpc

/-! ## The invariant -/

/-- The connection is on its way out or gone, and the route does not carry its id. -/
structure State.Gone (s : State κ ν ι) (c : κ) : Prop where
  rank : 7 ≤ (s.conn c).phase.rank
  bound : (s.conn c).Bound
  connID : s.route.connID ≠ some (s.conn c).connID

namespace State.Gone

variable {a : Act κ ν ι}

/-- Once it is on its way out, nothing binds the route for a connection any more. -/
theorem connID_step (h : s.Gone c) (hi : Inv node s) (hd : Distinct Conn.Bound s')
    (heff : Effect node s s' a) (hbound : (s'.conn c).Bound) (hsame : (s'.conn c).connID =
      (s.conn c).connID) : s'.route.connID ≠ some (s'.conn c).connID := by
  have hrank := h.rank
  cases heff with
  | bind e r hcall hwrote hconn =>
    obtain ⟨⟨k, hk⟩, -⟩ := hi.bind_spec hcall
    have hce : c ≠ e := fun he => by rw [he, hk] at hrank; simp at hrank
    have he : s'.conn e = { s.conn e with seq := s.writes + 1 } := by
      rw [hconn, Function.update_self]
    intro hid
    rw [hwrote.connID, Option.some_inj] at hid
    exact hce (hd c e hbound (by rw [he]; exact Nat.succ_ne_zero _) (by rw [he]; exact hid.symm))
  | heal e r hcall hwrote hconn =>
    obtain ⟨-, -, hle, hseq⟩ := hi.beat_spec hcall rfl
    intro hid
    rw [hwrote.connID, Option.some_inj] at hid
    have hce : c = e := hd c e hbound (by rw [hconn]; exact hseq) (by rw [← hid, hconn])
    rw [hce] at hrank
    omega
  | delete e hcall hlost => rw [hlost.connID]; exact (Option.some_ne_none _).symm
  | lapse hlost => rw [hlost.connID]; exact (Option.some_ne_none _).symm
  | calm _ hcalm => rw [hcalm.owner.2, hsame]; exact h.connID

/-- **What is gone stays gone.** -/
theorem step (h : s.Gone c) (hi : Inv node s) (hd : Distinct Conn.Bound s')
    (heff : Effect node s s' a) : s'.Gone c := by
  have hm := heff.moves_of_bound hi h.bound
  have hbound : (s'.conn c).Bound := by rw [Conn.Bound, hm.seq]; exact h.bound
  exact ⟨Nat.le_trans h.rank hm.rank, hbound,
    h.connID_step hi hd heff hbound (hm.connID h.bound)⟩

end State.Gone

/-- **What is always true of the connections that are on their way out.** -/
structure GhostInv (node : κ → ν) (s : State κ ν ι) : Prop where
  inv : Inv node s
  distinct : Distinct Conn.Bound s
  cleared : ∀ c i, Cleared i (s.pool.calls (.handler c)) → i = (s.conn c).connID ∧ s.Gone c
  finished : ∀ c, (s.conn c).phase = .finished true → s.Gone c

variable {a : Act κ ν ι}

theorem GhostInv.finished_step (h : GhostInv node s) (hd : Distinct Conn.Bound s')
    (heff : Effect node s s' a) (c : κ) (hc : (s'.conn c).phase = .finished true) : s'.Gone c := by
  suffices hgone : s.Gone c from hgone.step h.inv hd heff
  rcases heff.moves h.inv c with hm | ⟨⟨k, hk⟩, -, he⟩
  · rcases hm.finished hc with hold | ⟨i, hcall⟩
    · exact h.finished c hold
    · exact (h.cleared c i (.inr hcall)).2
  · rw [he, show ({ s.conn c with seq := s.writes + 1 } : Conn ι).phase = .binding k from hk] at hc
    cases hc

variable [DecidableEq ν] [DecidableEq ι]

namespace GhostInv

theorem cleared_step (h : GhostInv node s) (hs : step cfg node s a = some s')
    (hd : Distinct Conn.Bound s') (heff : Effect node s s' a) (c : κ) (i : ι)
    (hc : Cleared i (s'.pool.calls (.handler c))) : i = (s'.conn c).connID ∧ s'.Gone c := by
  rcases (step_calls hs (.handler c)).unbind_ok hc with hold | ⟨⟨pc, hcall, hret⟩, hne⟩
  · obtain ⟨hi, hgone⟩ := h.cleared c i hold
    have hm := heff.moves_of_bound h.inv hgone.bound
    exact ⟨by rw [hm.connID hgone.bound]; exact hi, hgone.step h.inv hd heff⟩
  · obtain ⟨⟨b, hp⟩, hi, hseq⟩ := h.inv.unbind_spec hcall hret
    have hm := heff.moves_of_bound h.inv hseq
    have hid : (s'.conn c).connID = i := by rw [hm.connID hseq, hi]
    refine ⟨hid.symm, Nat.le_trans ?_ hm.rank, ?_, by rw [hid]; exact hne⟩
    · simp [hp]
    · rw [Conn.Bound, hm.seq]; exact hseq

theorem step (h : GhostInv node s) (hg : DistinctIDs Conn.Bound s a)
    (hs : PhoneConn.step cfg node s a = some s') : GhostInv node s' := by
  obtain ⟨hi, heff⟩ := h.inv.step hs
  have hd := h.distinct.step fading_bound hg heff
  exact ⟨hi, hd, h.cleared_step hs hd heff, h.finished_step hd heff⟩

end GhostInv

theorem init_ghostInv [Inhabited ι] (cfg : Router.Config) (node : κ → ν) :
    GhostInv node (system cfg node : Lts (State κ ν ι) (Act κ ν ι)).init where
  inv := init_inv cfg node
  distinct := fun _ _ hc => absurd rfl hc
  cleared := fun _ _ hc => nomatch hc
  finished := fun _ hc => nomatch hc

/-! ## No route is left behind -/

/-- The invariant and the id of a connection that is gone, at every later moment. -/
theorem GhostInv.gone_later [Inhabited ι] {t : State κ ν ι} (h : GhostInv node s) (hc : s.Gone c)
    (hl : (system cfg node).Later (DistinctIDs Conn.Bound) s t) :
    t.Gone c ∧ (t.conn c).connID = (s.conn c).connID := by
  refine (hl.stable (P := fun t => GhostInv node t ∧ t.Gone c ∧
    (t.conn c).connID = (s.conn c).connID) (fun u a v hu hg hs => ?_) ⟨h, hc, rfl⟩).2
  obtain ⟨hi, hgone, hid⟩ := hu
  have heff := (hi.inv.step hs).2
  have hnext := hi.step hg hs
  have hm := heff.moves_of_bound hi.inv hgone.bound
  exact ⟨hnext, hgone.step hi.inv hnext.distinct heff, by rw [hm.connID hgone.bound]; exact hid⟩

/-- **No ghost route.**  If ids differ: once `teardown` has returned after a successful `Unbind`,
the route does not carry the id of the connection and never will again.  And the connection in the
map of a node is, of all connections of the node that have been entered into it, the one whose
`BindRoute` wrote last; a `register` that has returned without an error has entered its
connection. -/
theorem no_ghost_route [Inhabited ι] (cfg : Router.Config) (node : κ → ν) {s : State κ ν ι}
    (h : (system cfg node).Reach (DistinctIDs Conn.Bound) s) :
    (∀ c, (s.conn c).phase = .finished true → ∀ t,
      (system cfg node).Later (DistinctIDs Conn.Bound) s t →
        t.route.connID ≠ some (s.conn c).connID) ∧
    ∀ n c, s.conns n = some c → node c = n ∧ (s.conn c).phase.past = true ∧ (s.conn c).Bound ∧
      ∀ d, node d = n → (s.conn d).phase.past = true → d = c ∨ (s.conn d).seq < (s.conn c).seq := by
  have hi : GhostInv node s :=
    h.invariant (init_ghostInv cfg node) fun _ _ _ _ hi hg hs => hi.step hg hs
  refine ⟨fun c hc t hl => ?_, fun n c hin => ?_⟩
  · obtain ⟨hgone, hid⟩ := hi.gone_later (hi.finished c hc) hl
    rw [← hid]; exact hgone.connID
  · obtain ⟨hn, hm, hbound, hlast⟩ := last_bound h hin
    exact ⟨hn, Phase.past_of_mapped hm, hbound, hlast⟩

/-- On one node `true` supersedes `false`, and `false` tears down.  Then the route runs out and
`true` binds it again; at no time is it that of `false`. -/
theorem superseded_leaves_no_route :
    ∃ s t : State Bool Unit Nat, (system ⟨30000, 60000⟩ fun _ => ()).Reach
        (DistinctIDs Conn.Bound) s ∧
      (system ⟨30000, 60000⟩ fun _ => ()).Later (DistinctIDs Conn.Bound) s t ∧
      (s.conn false).phase = .finished true ∧ t.route.connID = some (s.conn true).connID ∧
      t.route.connID ≠ some (s.conn false).connID ∧ s.conns () = some true ∧
      (s.conn false).seq < (s.conn true).seq := by
  have hrun : ((system ⟨30000, 60000⟩ fun _ => ()).execWith (DistinctIDs Conn.Bound)
      (system ⟨30000, 60000⟩ fun _ => ()).init (registerRun false 1 ++ registerRun true 2 ++
        [Act.teardown false, .hbDone false, .leave false] ++
        List.replicate 3 (Act.cmd (.handler false)) ++ [Act.unbound false])).any
      (fun s : State Bool Unit Nat => ((s.conn false).phase = .finished true ∧
        s.conns () = some true) ∧
        ((system ⟨30000, 60000⟩ fun _ => ()).execWith (DistinctIDs Conn.Bound) s
          ([Act.time 30001, .lapse] ++ healRun true)).any
          (fun t => t.route.connID = some (s.conn true).connID)) = true := by
    decide +kernel
  obtain ⟨s, hreach, ⟨hfin, hin⟩, hrun⟩ := Lts.exists_reach_of_any hrun
  obtain ⟨t, hlater, hid⟩ := Lts.exists_later_of_any hrun
  have hghost := no_ghost_route ⟨30000, 60000⟩ (fun _ => ()) hreach
  refine ⟨s, t, hreach, hlater, hfin, hid, hghost.1 false hfin t hlater, hin, ?_⟩
  rcases (hghost.2 () true hin).2.2.2 false rfl (by rw [hfin]; rfl) with he | hlt
  · cases he
  · exact hlt

end Tunneld.PhoneConn

import Tunneld.Lib.Lts
import Tunneld.Lib.Tally
import Tunneld.Lib.Update

/-!
# The connection pools of the mesh

A node talks to a peer through a pool of HTTP/2 clients, made at the first call and closed by the
reaper when it has not been used for a while.  The reaper must not close a pool that carries a call:
`CloseIdleConnections` would leave the busy connection behind, in no pool.  So a call counts itself
in `active`, and `pool` does that under the lock under which the reaper sweeps; but it uncounts
itself without the lock, also in the middle of a sweep.

* `Step` is what a step can do, `step_cases` that it does nothing else;
* `Inv` is what every interleaving keeps: the map has exactly the pools that are open, and `active`
  is the number of the calls that hold the pool;
* `held_pool_open` is what follows: no call loses its pool, and a peer has one open pool at most.
-/

namespace Tunneld.Mesh

open Function

/-- What has become of a `peerPool`. -/
inductive Stage (π : Type)
  | fresh
  | live (peer : π)
  /-- The reaper has closed its idle connections. -/
  | closed (peer : π)
  deriving DecidableEq

/-- A `peerPool`. -/
structure Pool (π : Type) where
  stage : Stage π
  lastUse : Int
  active : Int

/-- Where a call of `Control` stands. -/
inductive Call (ρ : Type)
  | idle
  | holding (p : ρ)
  | returned
  deriving DecidableEq

/-- The mesh client of a node: `ρ` are the pools, made or to be made, and `κ` the calls. -/
structure State (π ρ κ : Type) where
  pools : π → Option ρ
  pool : ρ → Pool π
  call : κ → Call ρ
  /-- The reaper has the lock; its cutoff, and the peers it has still to look at. -/
  reaper : Option (Int × List π)

/-- What can happen next. -/
inductive Act (π ρ κ : Type)
  /-- A call gets the pool of a peer; `p` is the pool to be made if there is none. -/
  | pool (k : κ) (peer : π) (p : ρ) (now : Int)
  /-- The deferred `active.Add(-1)`. -/
  | release (k : κ)
  /-- The reaper takes the lock.  The order is that of the iteration over the map. -/
  | tick (cutoff : Int) (order : List π)
  /-- The reaper looks at the next peer, or is through and unlocks. -/
  | visit

section Step

variable {π ρ κ : Type} [DecidableEq π] [DecidableEq ρ] [DecidableEq κ]

/-- A call and its pool change together. -/
def State.move (s : State π ρ κ) (k : κ) (p : ρ) (x : Pool π) (c : Call ρ) : State π ρ κ :=
  { s with pool := update s.pool p x, call := update s.call k c }

/-- A pool and the entry of its peer in the map change together. -/
def State.remap (s : State π ρ κ) (peer : π) (p : ρ) (entry : Option ρ) (stage : Stage π) :
    State π ρ κ :=
  { s with
    pools := update s.pools peer entry
    pool := update s.pool p { s.pool p with stage := stage } }

/-- The end of `pool`. -/
def State.use (s : State π ρ κ) (k : κ) (p : ρ) (now : Int) : State π ρ κ :=
  s.move k p { s.pool p with lastUse := now, active := (s.pool p).active + 1 } (.holding p)

/-- The state after an action, if it is possible. -/
def step (s : State π ρ κ) : Act π ρ κ → Option (State π ρ κ)
  | .pool k peer p now =>
    if s.call k = .idle ∧ s.reaper = none then
      match s.pools peer with
      | some q => some (s.use k q now)
      | none =>
        if (s.pool p).stage = .fresh then
          some ((s.remap peer p (some p) (.live peer)).use k p now)
        else none
    else none
  | .release k =>
    match s.call k with
    | .holding p =>
      some (s.move k p { s.pool p with active := (s.pool p).active - 1 } .returned)
    | _ => none
  | .tick cutoff order =>
    if s.reaper = none then some { s with reaper := some (cutoff, order) } else none
  | .visit =>
    match s.reaper with
    | some (cutoff, peer :: rest) =>
      match s.pools peer with
      | some p =>
        if cutoff ≤ (s.pool p).lastUse ∨ 0 < (s.pool p).active then
          some { s with reaper := some (cutoff, rest) }
        else some { s.remap peer p none (.closed peer) with reaper := some (cutoff, rest) }
      | none => some { s with reaper := some (cutoff, rest) }
    | some (_, []) => some { s with reaper := none }
    | none => none

/-- A client that has not been used. -/
def system : Lts (State π ρ κ) (Act π ρ κ) :=
  ⟨⟨fun _ => none, fun _ => ⟨.fresh, 0, 0⟩, fun _ => .idle, none⟩, step⟩

/-! ## The invariant -/

/-- What a step can do. -/
inductive Step (s : State π ρ κ) : Act π ρ κ → State π ρ κ → Prop
  | use {k peer p q now} (hk : s.call k = .idle) (hq : s.pools peer = some q) :
    Step s (.pool k peer p now) (s.use k q now)
  | make {k peer p now} (hk : s.call k = .idle) (hnone : s.pools peer = none)
      (hp : (s.pool p).stage = .fresh) :
    Step s (.pool k peer p now) ((s.remap peer p (some p) (.live peer)).use k p now)
  | release {k p} (hk : s.call k = .holding p) :
    Step s (.release k) (s.move k p { s.pool p with active := (s.pool p).active - 1 } .returned)
  /-- The reaper goes on. -/
  | sweep {a} (r : Option (Int × List π)) : Step s a { s with reaper := r }
  | close {peer p r} (hp : s.pools peer = some p) (hidle : ¬ 0 < (s.pool p).active) :
    Step s .visit { s.remap peer p none (.closed peer) with reaper := r }

/-- What every step keeps. -/
structure Inv (s : State π ρ κ) : Prop where
  /-- The map has the open pools, each under its peer. -/
  mapped : ∀ peer p, s.pools peer = some p ↔ (s.pool p).stage = .live peer
  /-- A pool counts the calls that hold it. -/
  counted : ∀ p, Tally (· = .holding p) s.call (s.pool p).active
  /-- A pool that is held is open. -/
  held : ∀ k p, s.call k = .holding p → ∃ peer, (s.pool p).stage = .live peer

variable {s t : State π ρ κ} {a : Act π ρ κ} {k : κ} {p : ρ} {peer : π}

theorem step_cases (hs : step s a = some t) : Step s a t := by
  revert hs
  fun_cases step s a <;> rintro ⟨⟩
  all_goals first
    | exact .use (And.left ‹_›) ‹_›
    | exact .make (And.left ‹_›) ‹_› ‹_›
    | exact .release ‹_›
    | exact .sweep _
    | exact .close ‹_› fun h => absurd (Or.inr h) ‹_›

omit [DecidableEq π] in
/-- A call and its pool change; the others do not notice. -/
theorem Inv.move (hi : Inv s) {x : Pool π} {c : Call ρ}
    (hlive : (s.pool p).stage = .live peer) (hx : x.stage = (s.pool p).stage)
    (hother : ∀ q ≠ p, s.call k ≠ .holding q ∧ c ≠ .holding q)
    (hself : Tally (· = .holding p) (update s.call k c) x.active) :
    Inv (s.move k p x c) := by
  obtain ⟨hmapped, hcounted, hheld⟩ := hi
  refine ⟨?_, ?_, ?_⟩ <;> simp only [State.move]
  · grind [update_apply]
  · exact (forall_update_iff s.pool fun q x => Tally (· = .holding q) (update s.call k c) x.active).2
      ⟨hself, fun q hq => (hcounted q).keep (by simp [hother q hq])⟩
  · grind [update_apply]

omit [DecidableEq π] in
theorem Inv.use (hi : Inv s) {now : Int} (hidle : s.call k = .idle)
    (hlive : (s.pool p).stage = .live peer) : Inv (s.use k p now) :=
  hi.move hlive rfl (by simp +contextual [hidle, eq_comm])
    ((hi.counted p).enter (by simp [hidle]) rfl)

omit [DecidableEq π] [DecidableEq κ] in
/-- What a pool counts does not depend on its stage. -/
theorem Inv.counted_stage (hi : Inv s) {stage : Stage π} (q : ρ) :
    Tally (· = .holding q) s.call (update s.pool p { s.pool p with stage := stage } q).active := by
  have h := Update.view_eq (x := { s.pool p with stage := stage }) Pool.active (by rfl) q
  exact h ▸ hi.counted q

theorem Inv.step (hi : Inv s) (hs : step s a = some t) : Inv t := by
  have ⟨hmapped, hcounted, hheld⟩ := hi
  cases step_cases hs with
  | use hk hq => exact hi.use hk ((hmapped _ _).1 hq)
  | @make k peer p now hk hnone hfresh =>
    have hnew : Inv (s.remap peer p (some p) (.live peer)) := by
      refine ⟨?_, hi.counted_stage, ?_⟩ <;>
        simp only [State.remap] <;> grind [update_apply]
    exact hnew.use hk ((hnew.mapped peer p).1 (by simp [State.remap]))
  | @release k p hk =>
    obtain ⟨peer, hlive⟩ := hheld k p hk
    exact hi.move hlive rfl (by simp +contextual [hk, eq_comm]) ((hcounted p).leave hk (by simp))
  | sweep r => exact ⟨hmapped, hcounted, hheld⟩
  | @close peer p r hp hidle =>
    -- Nobody holds a pool with a counter at zero, and no call can take one during the sweep.
    have hfree (j : κ) : s.call j ≠ .holding p := by
      obtain ⟨F, _, hcard⟩ := hcounted p
      have hzero : (s.pool p).active = 0 := by omega
      exact (hzero ▸ hcounted p).none j
    refine ⟨?_, hi.counted_stage, ?_⟩ <;>
      simp only [State.remap] <;> grind [update_apply]

/-- **No call loses its pool.**  In every reachable state a call that is under way holds the pool
that is in the map for its peer, with its connections open, and `active` is the number of those
calls.  A pool that has been made is in the map or closed, so a peer has one open pool at most. -/
theorem held_pool_open (h : system.Reach Lts.always s) :
    (∀ k p, s.call k = .holding p →
      ∃ peer, (s.pool p).stage = .live peer ∧ s.pools peer = some p) ∧
    (∀ p, Tally (· = .holding p) s.call (s.pool p).active) ∧
    ∀ peer p, s.pools peer = some p ↔ (s.pool p).stage = .live peer := by
  have hi : Inv s := h.invariant
    ⟨by simp [system], fun p => Tally.zero (by simp [system]), by simp [system]⟩
    fun _ _ _ _ hi _ hs => hi.step hs
  refine ⟨fun k p hk => ?_, hi.counted, hi.mapped⟩
  obtain ⟨peer, hlive⟩ := hi.held k p hk
  exact ⟨peer, hlive, (hi.mapped peer p).2 hlive⟩

end Step

/-- A call ends while the reaper sweeps, and its pool is closed; the other pool carries a call. -/
theorem held_pool_open_sweep :
    ∃ s : State Bool (Fin 2) (Fin 2), system.Reach Lts.always s ∧
      (s.pool 0).stage = .closed true ∧ s.call 1 = .holding 1 ∧
      ∃ peer, (s.pool 1).stage = .live peer ∧ s.pools peer = some 1 := by
  obtain ⟨s, hr, hclosed, hcall⟩ := Lts.exists_reach_of_any
    (L := (system : Lts (State Bool (Fin 2) (Fin 2)) _)) (g := Lts.always)
    (l := [.pool 0 true 0 5, .pool 1 false 1 7, .tick 10 [false, true], .visit, .release 0, .visit])
    (P := fun s => (s.pool 0).stage = .closed true ∧ s.call 1 = .holding 1) (by decide +kernel)
  exact ⟨s, hr, hclosed, hcall, (held_pool_open hr).1 1 1 hcall⟩

end Tunneld.Mesh

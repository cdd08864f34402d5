import Tunneld.Lib.Lts
import Tunneld.Lib.Tally

/-!
# When a drain may end

A node that stops waits until nothing is left that would be cut off.  Among the things it waits for
are the certificate requests: `POST /api/v1/issue` runs an ACME order, and an order that is lost
costs a certificate.  `drainer.run` polls three counters and returns when all three are zero, or
when its time is up.

Two orderings keep an order from being missed.  `serveIssue` counts itself *before* it asks whether
the node drains, and `StartDrain` says that the node drains *before* the counters are polled.  So a
request that the drainer does not see in the counter asks after the flag was set, and is refused.

The counter goes up and down for refused requests too, and between two polls it can be anything; a
poll that reads zero is a statement about that one instant (`shut_of_zero`), and the flag
carries it to all later ones (`Drain.Shut`).

## Main results

* `finished_drain_cuts_no_issuance`: a drain that ends by its poll cuts no order off.
-/

namespace Tunneld.Drain

/-! ## The requests and the drainer -/

/-- Where `serveIssue` stands with a request. -/
inductive Issue
  | idle
  /-- `issuing` is incremented; `Draining` is asked next. -/
  | counted
  /-- The node does not drain, and the request is read. -/
  | accepted
  /-- `onIssue`. -/
  | ordering
  /-- It is answered, or has panicked; the deferred decrement is due. -/
  | leaving
  | gone
  deriving DecidableEq

/-- The request is in `issuing`. -/
def Issue.Counted : Issue → Prop
  | .counted | .accepted | .ordering | .leaving => True
  | .idle | .gone => False

/-- The request has passed the draining check and is not answered. -/
def Issue.Running : Issue → Prop
  | .accepted | .ordering => True
  | .idle | .counted | .leaving | .gone => False

instance : DecidablePred Issue.Counted
  | .counted | .accepted | .ordering | .leaving => .isTrue trivial
  | .idle | .gone => .isFalse not_false

instance : DecidablePred Issue.Running
  | .accepted | .ordering => .isTrue trivial
  | .idle | .counted | .leaving | .gone => .isFalse not_false

/-- Why `run` has returned. -/
inductive Reason
  | cancelled
  | expired
  /-- No phone connection, no public connection and no issuance was left. -/
  | finished
  deriving DecidableEq

/-- Where `run` stands. -/
inductive Drainer
  | serving
  /-- The pre-drain wait. -/
  | waiting
  /-- `moveTargets`. -/
  | listing
  /-- `StartDrain`, up to `m.draining.Store(true)`. -/
  | announcing
  /-- The check reads `LiveConns`. -/
  | phones
  /-- The check reads `InFlightConns`. -/
  | edge
  /-- The check reads `InFlightIssues`. -/
  | issues
  /-- The `select` of the loop. -/
  | select
  | returned (why : Reason)
  deriving DecidableEq

/-- The loop of `run`. -/
def Drainer.polling : Drainer → Bool
  | .phones | .edge | .issues | .select => true
  | .serving | .waiting | .listing | .announcing | .returned _ => false

/-- A node and the requests that come to it. -/
structure State (ρ : Type) where
  issuing : Int
  draining : Bool
  issue : ρ → Issue
  drainer : Drainer

/-- What can happen next. -/
inductive Act (ρ : Type)
  /-- A request comes in and is counted. -/
  | count (r : ρ)
  /-- `h.mgr.Draining()`. -/
  | check (r : ρ)
  /-- The request is read and `onIssue` called. -/
  | order (r : ρ)
  /-- It is answered: no `onIssue`, a bad request, or what `onIssue` has returned. -/
  | answer (r : ρ)
  | fail (r : ρ)
  /-- The deferred `h.issuing.Add(-1)`. -/
  | uncount (r : ρ)
  /-- A stop signal: `run` is called. -/
  | stop
  /-- The pre-drain wait is over, in time or by a cancelled context. -/
  | waited (ok : Bool)
  /-- `moveTargets` returns. -/
  | listed
  /-- `m.draining.Store(true)`, and the rest of `StartDrain`. -/
  | startDrain
  /-- `LiveConns` returns. -/
  | readPhones (n : Nat)
  /-- `InFlightConns` returns. -/
  | readEdge (n : Int)
  /-- `InFlightIssues` returns. -/
  | readIssues
  /-- The loop's `select` finds the context cancelled. -/
  | cancel
  /-- It finds the drain time over. -/
  | expire
  /-- It finds the ticker's tick, and calls `RetryMoves`. -/
  | tick

variable {ρ : Type} [DecidableEq ρ]

def State.setIssue (s : State ρ) (r : ρ) (p : Issue) : State ρ :=
  { s with issue := Function.update s.issue r p }

/-- The state after an action, if it is possible. -/
def step (s : State ρ) : Act ρ → Option (State ρ)
  | .count r =>
    if s.issue r = .idle then some { s.setIssue r .counted with issuing := s.issuing + 1 } else none
  | .check r =>
    if s.issue r = .counted then
      some (s.setIssue r (if s.draining then .leaving else .accepted))
    else none
  | .order r => if s.issue r = .accepted then some (s.setIssue r .ordering) else none
  | .answer r => if (s.issue r).Running then some (s.setIssue r .leaving) else none
  | .fail r =>
    if s.issue r = .counted ∨ (s.issue r).Running then some (s.setIssue r .leaving) else none
  | .uncount r =>
    if s.issue r = .leaving then some { s.setIssue r .gone with issuing := s.issuing - 1 } else none
  | .stop => if s.drainer = .serving then some { s with drainer := .waiting } else none
  | .waited ok =>
    if s.drainer = .waiting then
      some { s with drainer := if ok then .listing else .returned .cancelled }
    else none
  | .listed => if s.drainer = .listing then some { s with drainer := .announcing } else none
  | .startDrain =>
    if s.drainer = .announcing then some { s with draining := true, drainer := .phones } else none
  | .readPhones n =>
    if s.drainer = .phones then some { s with drainer := if n = 0 then .edge else .select }
    else none
  | .readEdge n =>
    if s.drainer = .edge then some { s with drainer := if n = 0 then .issues else .select }
    else none
  | .readIssues =>
    if s.drainer = .issues then
      some { s with drainer := if s.issuing = 0 then .returned .finished else .select }
    else none
  | .cancel =>
    if s.drainer = .select then some { s with drainer := .returned .cancelled } else none
  | .expire => if s.drainer = .select then some { s with drainer := .returned .expired } else none
  | .tick => if s.drainer = .select then some { s with drainer := .phones } else none

/-- A node that serves. -/
def system : Lts (State ρ) (Act ρ) :=
  ⟨⟨0, false, fun _ => .idle, .serving⟩, step⟩

variable {s t : State ρ}

/-! ## What one step does -/

/-- How a request moves, and what it does to `issuing`. -/
inductive Issue.Next (draining : Bool) : Issue → Issue → Int → Prop
  | count : Next draining .idle .counted 1
  | pass : draining = false → Next draining .counted .accepted 0
  | order : Next draining .accepted .ordering 0
  | refuse : Next draining .counted .leaving 0
  | answer {p : Issue} : p.Running → Next draining p .leaving 0
  | uncount : Next draining .leaving .gone (-1)

/-- A step moves one request, or sets the flag, or moves the drainer, which polls only once the flag
is set. -/
theorem step_cases {a : Act ρ} (h : step s a = some t) :
    (∃ r q k, Issue.Next s.draining (s.issue r) q k ∧
      t = { s.setIssue r q with issuing := s.issuing + k }) ∨
    t = { s with draining := true, drainer := .phones } ∨
    (∃ d, (d.polling = true → s.drainer.polling = true) ∧ t = { s with drainer := d }) := by
  cases a with
  | count r =>
    obtain ⟨hr, rfl⟩ := Lts.taken h
    exact .inl ⟨r, .counted, 1, hr ▸ .count, rfl⟩
  | check r =>
    obtain ⟨hr, rfl⟩ := Lts.taken h
    refine .inl ⟨r, _, 0, ?_, by rw [Int.add_zero]; rfl⟩
    rw [hr]
    cases hd : s.draining with
    | true => exact .refuse
    | false => exact .pass rfl
  | order r =>
    obtain ⟨hr, rfl⟩ := Lts.taken h
    exact .inl ⟨r, .ordering, 0, hr ▸ .order, by rw [Int.add_zero]; rfl⟩
  | answer r =>
    obtain ⟨hr, rfl⟩ := Lts.taken h
    exact .inl ⟨r, .leaving, 0, .answer hr, by rw [Int.add_zero]; rfl⟩
  | fail r =>
    obtain ⟨hr, rfl⟩ := Lts.taken h
    refine .inl ⟨r, .leaving, 0, ?_, by rw [Int.add_zero]; rfl⟩
    rcases hr with hr | hr
    · exact hr ▸ .refuse
    · exact .answer hr
  | uncount r =>
    obtain ⟨hr, rfl⟩ := Lts.taken h
    exact .inl ⟨r, .gone, -1, hr ▸ .uncount, rfl⟩
  | startDrain =>
    obtain ⟨-, rfl⟩ := Lts.taken h
    exact .inr (.inl rfl)
  | stop | listed =>
    obtain ⟨-, rfl⟩ := Lts.taken h
    exact .inr (.inr ⟨_, fun hp => absurd hp (by decide), rfl⟩)
  | waited ok =>
    obtain ⟨-, rfl⟩ := Lts.taken h
    refine .inr (.inr ⟨_, fun hp => absurd hp ?_, rfl⟩)
    cases ok <;> decide
  | readPhones | readEdge | readIssues | cancel | expire | tick =>
    obtain ⟨hd, rfl⟩ := Lts.taken h
    exact .inr (.inr ⟨_, fun _ => by rw [hd]; rfl, rfl⟩)

/-! ## The counter and the flag -/

namespace Issue.Next

variable {d : Bool} {p q : Issue} {k : Int}

/-- The counter goes up with a request that comes in and down with one that leaves. -/
theorem counted (h : Next d p q k) :
    ¬ p.Counted ∧ q.Counted ∧ k = 1 ∨ p.Counted ∧ ¬ q.Counted ∧ k = -1 ∨
      (q.Counted ↔ p.Counted) ∧ k = 0 := by
  cases h with
  | count => exact .inl (by decide)
  | uncount => exact .inr (.inl (by decide))
  | pass | order | refuse => exact .inr (.inr (by decide))
  | answer hp =>
    refine .inr (.inr ⟨?_, rfl⟩)
    revert hp
    cases p <;> decide

/-- On a node that drains, a request that is not running does not start to. -/
theorem not_running (h : Next true p q k) (hp : ¬ p.Running) : ¬ q.Running := by
  cases h with
  | pass hd => exact absurd hd (by decide)
  | order => exact absurd trivial hp
  | count | refuse | answer | uncount => exact not_false

end Issue.Next

/-- `issuing` is the number of requests between their increment and their decrement, and the
counters are polled on a node that drains. -/
structure Inv (s : State ρ) : Prop where
  tally : Tally Issue.Counted s.issue s.issuing
  announced : s.drainer.polling = true → s.draining = true

theorem Inv.step (hi : Inv s) {a : Act ρ} (h : step s a = some t) : Inv t := by
  rcases step_cases h with ⟨r, q, k, hn, rfl⟩ | rfl | ⟨d, hd, rfl⟩
  · refine ⟨?_, hi.announced⟩
    rcases hn.counted with ⟨hp, hq, rfl⟩ | ⟨hp, hq, rfl⟩ | ⟨hpq, rfl⟩
    · exact hi.tally.enter hp hq
    · exact hi.tally.leave hp hq
    · rw [Int.add_zero]
      exact hi.tally.keep hpq
  · exact ⟨hi.tally, fun _ => rfl⟩
  · exact ⟨hi.tally, fun hp => hi.announced (hd hp)⟩

theorem inv_of_reach (h : system.Reach Lts.always s) : Inv s := by
  refine h.invariant ⟨Tally.zero fun _ => not_false, fun hp => ?_⟩ fun _ _ _ _ hi _ hs => hi.step hs
  exact absurd hp Bool.false_ne_true

/-- The node drains, and no request has passed its check. -/
def Shut (s : State ρ) : Prop := s.draining = true ∧ ∀ r, ¬ (s.issue r).Running

theorem Shut.step (hshut : Shut s) {a : Act ρ} (h : step s a = some t) : Shut t := by
  obtain ⟨hd, hr⟩ := hshut
  rcases step_cases h with ⟨r, q, k, hn, rfl⟩ | rfl | ⟨d, -, rfl⟩
  · refine ⟨hd, (Function.forall_update_iff _ fun _ x => ¬ Issue.Running x).2 ⟨?_, fun r' _ => hr r'⟩⟩
    exact (hd ▸ hn).not_running (hr r)
  · exact ⟨rfl, hr⟩
  · exact ⟨hd, hr⟩

/-- A poll that reads zero finds the door shut. -/
theorem shut_of_zero (h : system.Reach Lts.always s) (hp : s.drainer = .issues)
    (hz : s.issuing = 0) : Shut s := by
  have hi := inv_of_reach h
  refine ⟨hi.announced (by rw [hp]; rfl), fun r hr => ?_⟩
  refine (hz ▸ hi.tally).none r ?_
  revert hr
  cases s.issue r <;> decide

/-- **A drain that finishes has cut no issuance.**  When `run` returns because its check read zero
issuances, no request was past the draining check at that read, and none is ever after it. -/
theorem finished_drain_cuts_no_issuance (h : system.Reach Lts.always s)
    (hs : step s .readIssues = some t) (ht : t.drainer = .returned .finished) :
    (∀ r, ¬ (s.issue r).Running) ∧
      ∀ u, system.Later Lts.always t u → ∀ r, ¬ (u.issue r).Running := by
  obtain ⟨hp, rfl⟩ := Lts.taken hs
  have hz : s.issuing = 0 := by
    by_contra hne
    simp [hne] at ht
  have hshut := shut_of_zero h hp hz
  refine ⟨hshut.2, fun u hu => ?_⟩
  exact (hu.stable (P := Shut) (fun _ _ _ hi _ hst => hi.step hst) hshut).2

/-- One request is served while the node waits before the drain, another is refused. -/
theorem finished_drain_after_two_requests :
    ∃ s t : State Bool, system.Reach Lts.always s ∧ step s .readIssues = some t ∧
      t.drainer = .returned .finished ∧ s.issue false = .gone ∧ s.issue true = .gone ∧
      (∀ r, ¬ (s.issue r).Running) ∧
      ∀ u, system.Later Lts.always t u → ∀ r, ¬ (u.issue r).Running := by
  obtain ⟨s, hreach, hp, hz, hf, ht⟩ := Lts.exists_reach_of_any (L := system)
    (g := Lts.always) (l := [Act.stop, .count false, .check false, .order false, .waited true,
      .listed, .answer false, .startDrain, .count true, .readPhones 0, .check true,
      .uncount false, .readEdge 0, .uncount true])
    (P := fun s => s.drainer = .issues ∧ s.issuing = 0 ∧ s.issue false = .gone ∧
      s.issue true = .gone) (by decide)
  have hs : step s .readIssues = some { s with drainer := .returned .finished } := by
    simp [step, hp, hz]
  obtain ⟨hnow, hlater⟩ := finished_drain_cuts_no_issuance hreach hs rfl
  exact ⟨s, _, hreach, hs, rfl, hf, ht, hnow, hlater⟩

end Tunneld.Drain

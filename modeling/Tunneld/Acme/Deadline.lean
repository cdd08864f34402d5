import Tunneld.Limit.AcmeSafety
import Mathlib.Data.Fintype.Basic

/-!
# How long an order's reservation counts

`attempt` reserves an order's buckets with a deadline: the time when it calls `ReserveACME`, plus
the time the attempt may take, plus the grace an order gets once its finalize request is out.  A
`ReserveACME` removes the reservations whose deadline has passed before it counts.

The attempt's own timer is started later, after the reservation is granted, the account's mark is
read and the requests are prepaid, and `settle` comes after it.  So an order that takes the time it
has is still running when its reservation runs out, however fast the other steps are.

`step` is the attempts of the orders at one authority over the store of
`Tunneld.Limit.AcmeBudget`: where each attempt stands, and when it began.  `WithinLimits` are the
runs in which no attempt exceeds its own time limits.

## Main results

* `counted_until_settled`: an order that settles before its deadline is counted until then;
* `running_and_not_counted`: one that keeps to its limits, and is still running when it is not
  counted any more.
-/

namespace Tunneld.Deadline

open Function Clock

/-- `settleTimeout`. -/
def settleTimeout : Int := 5 * second

/-- The orders at one authority. -/
structure Config (β η μ : Type) extends AcmeBudget.Config β η μ where
  buckets : μ → List β
  timeout : μ → Int
  /-- `FinalizeGrace`. -/
  grace : Int

/-- Where an attempt stands. -/
inductive Stage
  | idle
  /-- In `ReserveACME`. -/
  | reserving
  /-- In `CAWaitState`. -/
  | marking
  /-- In `PrepayACME`. -/
  | prepaying
  /-- `obtain` runs the order, under a timer that was started at `since`. -/
  | running (since : Int) (finalizeSent : Bool)
  /-- In `settle`, since `since`. -/
  | settling (since : Int)
  | ended
  deriving DecidableEq

/-- The attempts of all orders. -/
structure State (β η μ : Type) where
  /-- The store, and the calls of the limiter. -/
  orders : AcmeBudget.State β η μ
  stage : μ → Stage
  /-- When its deadline was worked out. -/
  began : μ → Int

/-- What can happen next. -/
inductive Act (β η μ : Type)
  /-- An attempt works out its deadline and calls `ReserveACME`. -/
  | start (m : μ)
  /-- The call it waits for has returned. -/
  | go (m : μ)
  /-- `PrepayACME` has found too few tokens. -/
  | short (m : μ)
  /-- The order sends its finalize request. -/
  | finalize (m : μ)
  /-- `obtain` returns. -/
  | returned (m : μ)
  /-- `settle` calls `CommitACME`. -/
  | commit (m : μ) (b : β)
  /-- The `ZREM` of its `ReleaseACME` for one bucket. -/
  | release (m : μ) (b : β)
  | settled (m : μ)
  /-- The next command of a call of the limiter. -/
  | cmd (m : μ)
  | lapseBudget (b : β)
  | lapseInflight (b : β) (n : η)
  | tick (d : Nat)

variable {β η μ : Type} [DecidableEq β] [DecidableEq η] [DecidableEq μ] (cfg : Config β η μ)

namespace State

/-- An attempt moves on. -/
def setStage (s : State β η μ) (m : μ) (st : Stage) : State β η μ :=
  { s with stage := update s.stage m st }

/-- A step of the limiter. -/
def limiter (s : State β η μ) (a : AcmeBudget.Act β η μ) : Option (State β η μ) :=
  (AcmeBudget.step cfg.toConfig s.orders a).map fun t => { s with orders := t }

end State

/-- The deadline of an attempt that calls `ReserveACME` at `now`. -/
def deadline (m : μ) (now : Int) : Int := now + (cfg.timeout m + cfg.grace)

/-- The state after an action, if it is possible. -/
def step (s : State β η μ) : Act β η μ → Option (State β η μ)
  | .start m =>
    if s.stage m = .idle then
      (s.limiter cfg (.reserve m (cfg.buckets m) (deadline cfg m s.orders.now))).map fun t =>
        { t.setStage m .reserving with began := update s.began m s.orders.now }
    else none
  | .go m =>
    match s.stage m, s.orders.phase m with
    | .reserving, .reserved => some (s.setStage m .marking)
    | .reserving, .refused _ => some (s.setStage m .ended)
    | .marking, _ => some (s.setStage m .prepaying)
    | .prepaying, _ => some (s.setStage m (.running s.orders.now false))
    | _, _ => none
  | .short m =>
    if s.stage m = .prepaying then some (s.setStage m (.settling s.orders.now)) else none
  | .finalize m =>
    match s.stage m with
    | .running since _ => some (s.setStage m (.running since true))
    | _ => none
  | .returned m =>
    match s.stage m with
    | .running _ _ => some (s.setStage m (.settling s.orders.now))
    | _ => none
  | .commit m b =>
    match s.stage m with
    | .settling _ => s.limiter cfg (.commit m b)
    | _ => none
  | .release m b =>
    match s.stage m with
    | .settling _ => s.limiter cfg (.release m b)
    | _ => none
  | .settled m =>
    match s.stage m with
    | .settling _ => some (s.setStage m .ended)
    | _ => none
  | .cmd m => s.limiter cfg (.cmd m)
  | .lapseBudget b => s.limiter cfg (.lapseBudget b)
  | .lapseInflight b n => s.limiter cfg (.lapseInflight b n)
  | .tick d => s.limiter cfg (.tick d)

/-- The attempts at one authority. -/
def system : Lts (State β η μ) (Act β η μ) :=
  ⟨⟨(AcmeBudget.system cfg.toConfig).init, fun _ => .idle, fun _ => 0⟩, step cfg⟩

/-! ## Time limits -/

/-- When a stage is over at the latest: the attempt's timer cancels the order, at once or after the
grace if its finalize request is out, and `settle` works under a timeout. -/
def Stage.limit (m : μ) : Stage → Option Int
  | .running since finalizeSent =>
    some (since + (cfg.timeout m + if finalizeSent then cfg.grace else 0))
  | .settling since => some (since + settleTimeout)
  | _ => none

/-- No stage outlasts its limit. -/
def WithinLimits (s : State β η μ) : Act β η μ → Prop
  | .tick d => ∀ m, ∀ t ∈ (s.stage m).limit cfg m, s.orders.now + d ≤ t
  | _ => True

instance [Fintype μ] (s : State β η μ) (a : Act β η μ) : Decidable (WithinLimits cfg s a) := by
  unfold WithinLimits; split <;> infer_instance

/-- The order is about to write the reservation of a bucket. -/
def writes : AcmeBudget.Phase β η → Bool
  | .zadd _ (_ :: _) => true
  | _ => false

/-- Reservations are settled in time: from the reading of the clock for its deadline until each of
its buckets is committed or released, an attempt takes less than its time and the grace, counted in
whole milliseconds. -/
def Prompt (s : State β η μ) : Act β η μ → Prop
  | .cmd m => writes (s.orders.phase m) = true →
      unixMilli s.orders.now < unixMilli (deadline cfg m (s.began m))
  | .tick d => ∀ m b, s.orders.token m b = .reserved →
      unixMilli (s.orders.now + d) < unixMilli (deadline cfg m (s.began m))
  | _ => True

instance [Fintype μ] [Fintype β] (s : State β η μ) (a : Act β η μ) :
    Decidable (Prompt cfg s a) := by
  unfold Prompt; split <;> infer_instance

/-! ## What the limiter does to reservations -/

section Limiter

variable {cfg : AcmeBudget.Config β η μ} {s t : AcmeBudget.State β η μ} {m : μ}

/-- A command reserves a bucket only when it writes the reservation. -/
theorem next_token (hn : AcmeBudget.Next cfg s m t) :
    t.now = s.now ∧ t.deadline = s.deadline ∧ ∀ m' b, t.token m' b = .reserved →
      s.token m' b = .reserved ∨ (m' = m ∧ writes (s.phase m) = true) := by
  cases hn with
  | @zadd r b todo hp =>
    refine ⟨rfl, rfl, fun m' b' hres => ?_⟩
    have hres : (s.setToken m b .reserved).token m' b' = .reserved := hres
    rcases AcmeBudget.token_setToken s m b .reserved m' b' with ⟨rfl, rfl, -⟩ | ⟨-, he⟩
    · exact .inr ⟨rfl, by rw [hp]; rfl⟩
    · exact .inl (he.symm.trans hres)
  | @commitSet b =>
    refine ⟨rfl, rfl, fun m' b' hres => .inl ?_⟩
    have hres : (s.setToken m b .spent).token m' b' = .reserved := hres
    rcases AcmeBudget.token_setToken s m b .spent m' b' with ⟨-, -, he⟩ | ⟨-, he⟩
    · rw [he] at hres
      cases hres
    · exact he.symm.trans hres
  | _ => exact ⟨rfl, rfl, fun _ _ h => .inl h⟩

/-- What a step of the limiter leaves alone, other than the start of a `ReserveACME`. -/
structure Continues (s t : AcmeBudget.State β η μ) (a : AcmeBudget.Act β η μ) : Prop where
  deadline : t.deadline = s.deadline
  idle : ∀ m, s.phase m = .idle → t.phase m = .idle
  token : ∀ m b, t.token m b = .reserved →
    s.token m b = .reserved ∨ (a = .cmd m ∧ writes (s.phase m) = true)
  now : t.now = s.now ∨ ∃ d : Nat, a = .tick d ∧ t.now = s.now + d

theorem continues_of_step {a : AcmeBudget.Act β η μ}
    (hnot : ∀ m bs d, a ≠ .reserve m bs d) (hs : AcmeBudget.step cfg s a = some t) :
    Continues s t a := by
  cases AcmeBudget.step_cases hs with
  | reserve => exact absurd rfl (hnot _ _ _)
  | @commit m b hp =>
    refine ⟨rfl, fun m' hm' => ?_, fun _ _ h => .inl h, .inl rfl⟩
    rcases AcmeBudget.phase_setPhase s m (.commitLock b) m' with ⟨rfl, -⟩ | ⟨-, he⟩
    · rw [hp] at hm'
      cases hm'
    · exact he.trans hm'
  | @cmd m _ hn =>
    obtain ⟨hnow, hdl, htok⟩ := next_token hn
    refine ⟨hdl, fun m' hm' => ?_, fun m' b hres => ?_, .inl hnow⟩
    · obtain ⟨ph, hph⟩ := AcmeBudget.next_phase hn
      rw [hph]
      by_cases hne : m' = m
      · subst hne
        cases hn <;> cases hm'.symm.trans ‹_›
      · rw [update_of_ne hne]
        exact hm'
    · rcases htok m' b hres with h | ⟨rfl, h⟩
      · exact .inl h
      · exact .inr ⟨rfl, h⟩
  | @release m b =>
    refine ⟨rfl, fun _ h => h, fun m' b' hres => .inl ?_, .inl rfl⟩
    have hres : (s.setToken m b .released).token m' b' = .reserved := hres
    rcases AcmeBudget.token_setToken s m b .released m' b' with ⟨-, -, he⟩ | ⟨-, he⟩
    · rw [he] at hres
      cases hres
    · exact he.symm.trans hres
  | lapseBudget | lapseInflight => exact ⟨rfl, fun _ h => h, fun _ _ h => .inl h, .inl rfl⟩
  | tick => exact ⟨rfl, fun _ h => h, fun _ _ h => .inl h, .inr ⟨_, rfl, rfl⟩⟩

end Limiter

/-! ## Attempts that settle in time -/

variable {cfg} {s t : State β η μ}

/-- What holds of attempts that settle in time. -/
structure Timely (cfg : Config β η μ) (s : State β η μ) : Prop where
  reach : (AcmeBudget.system cfg.toConfig).Reach AcmeBudget.InTime s.orders
  idle : ∀ m, s.stage m = .idle → s.orders.phase m = .idle
  deadline : ∀ m, s.stage m ≠ .idle → s.orders.deadline m = deadline cfg m (s.began m)
  unexpired : ∀ m b, s.orders.token m b = .reserved → s.orders.Unexpired m

/-- An order has no reservation before its attempt is begun. -/
theorem Timely.token_of_idle (ht : Timely cfg s) {m : μ} (hm : s.stage m = .idle) (b : β) :
    s.orders.token m b = .none :=
  (AcmeBudget.inv_of_reach ht.reach).fresh m b (.inl (by rw [ht.idle m hm]; rfl))

theorem Timely.setStage (ht : Timely cfg s) {m : μ} {st : Stage} (hm : s.stage m ≠ .idle)
    (hst : st ≠ .idle) : Timely cfg (s.setStage m st) := by
  have hstage : ∀ m', (s.setStage m st).stage m' = .idle ↔ s.stage m' = .idle := by
    intro m'
    show update s.stage m st m' = .idle ↔ _
    by_cases hne : m' = m
    · subst hne
      rw [update_self]
      exact iff_of_false hst hm
    · rw [update_of_ne hne]
  exact ⟨ht.reach, fun m' h => ht.idle m' ((hstage m').1 h),
    fun m' h => ht.deadline m' (mt (hstage m').2 h), ht.unexpired⟩

theorem Timely.limiter (ht : Timely cfg s) {a : AcmeBudget.Act β η μ}
    (hnot : ∀ m bs d, a ≠ .reserve m bs d)
    (hcmd : ∀ m, a = .cmd m → writes (s.orders.phase m) = true →
      unixMilli s.orders.now < unixMilli (Deadline.deadline cfg m (s.began m)))
    (htick : ∀ d : Nat, a = .tick d → ∀ m b, s.orders.token m b = .reserved →
      unixMilli (s.orders.now + d) < unixMilli (Deadline.deadline cfg m (s.began m)))
    (hs : s.limiter cfg a = some t) : Timely cfg t := by
  have hinv := AcmeBudget.inv_of_reach ht.reach
  rw [State.limiter, Option.map_eq_some_iff] at hs
  obtain ⟨u, hu, rfl⟩ := hs
  have hc := continues_of_step hnot hu
  -- A commit looks at the clock while its bucket is still reserved.
  have hin : AcmeBudget.InTime s.orders a := by
    cases a with
    | cmd m =>
      intro hreads
      cases hp : s.orders.phase m <;> rw [hp] at hreads <;> cases hreads
      have hk := hinv.knows m
      rw [hp] at hk
      exact ht.unexpired m _ hk
    | reserve | commit | release | lapseBudget | lapseInflight | tick => trivial
  have hdl : ∀ m b, s.orders.token m b = .reserved →
      s.orders.deadline m = Deadline.deadline cfg m (s.began m) := fun m b hres =>
    ht.deadline m fun hm => by
      rw [ht.token_of_idle hm b] at hres
      cases hres
  refine ⟨ht.reach.tail ⟨a, hin, hu⟩, fun m hm => hc.idle m (ht.idle m hm), ?_, ?_⟩
  · intro m hm
    rw [hc.deadline]
    exact ht.deadline m hm
  · intro m b hres
    rw [AcmeBudget.State.Unexpired, hc.deadline]
    rcases hc.token m b hres with hres | ⟨rfl, hw⟩
    · rcases hc.now with hnow | ⟨d, rfl, hnow⟩
      · rw [hnow]
        exact ht.unexpired m b hres
      · rw [hnow, hdl m b hres]
        exact htick d rfl m b hres
    · have hnow : u.now = s.orders.now := by
        rcases hc.now with hnow | ⟨d, hd, -⟩
        · exact hnow
        · cases hd
      have hm : s.stage m ≠ .idle := fun hm => by
        rw [ht.idle m hm] at hw
        cases hw
      rw [hnow, ht.deadline m hm]
      exact hcmd m rfl hw

theorem Timely.start (ht : Timely cfg s) {m : μ} (hm : s.stage m = .idle)
    {u : AcmeBudget.State β η μ}
    (hu : AcmeBudget.step cfg.toConfig s.orders
      (.reserve m (cfg.buckets m) (Deadline.deadline cfg m s.orders.now)) = some u) :
    Timely cfg ⟨u, update s.stage m .reserving,
      update s.began m s.orders.now⟩ := by
  have hin : AcmeBudget.InTime s.orders
      (.reserve m (cfg.buckets m) (Deadline.deadline cfg m s.orders.now)) := trivial
  have hreach := ht.reach.tail ⟨_, hin, hu⟩
  simp only [AcmeBudget.step, ht.idle m hm] at hu
  split at hu
  · cases hu
    refine ⟨hreach, fun m' hm' => ?_, fun m' hm' => ?_, fun m' b hres => ?_⟩
    · have hm' : update s.stage m .reserving m' = .idle := hm'
      by_cases hne : m' = m
      · subst hne
        rw [update_self] at hm'
        cases hm'
      · rw [update_of_ne hne] at hm'
        show update s.orders.phase m _ m' = .idle
        rw [update_of_ne hne]
        exact ht.idle m' hm'
    · show update s.orders.deadline m _ m' =
        Deadline.deadline cfg m' (update s.began m _ m')
      by_cases hne : m' = m
      · subst hne
        rw [update_self, update_self]
      · have hm' : update s.stage m .reserving m' ≠ .idle := hm'
        rw [update_of_ne hne] at hm'
        rw [update_of_ne hne, update_of_ne hne]
        exact ht.deadline m' hm'
    · have hne : m' ≠ m := by
        rintro rfl
        have hnone := ht.token_of_idle hm b
        rw [show s.orders.token m' b = .reserved from hres] at hnone
        cases hnone
      show unixMilli s.orders.now < unixMilli (update s.orders.deadline m _ m')
      rw [update_of_ne hne]
      exact ht.unexpired m' b hres
  · cases hu

theorem Timely.step {a : Act β η μ} (ht : Timely cfg s) (hg : Prompt cfg s a)
    (hs : step cfg s a = some t) : Timely cfg t := by
  rw [Deadline.step.eq_def] at hs
  cases a with
  | start m =>
    simp only [Option.ite_none_right_eq_some, State.limiter, Option.map_map,
      Option.map_eq_some_iff] at hs
    obtain ⟨hm, u, hu, rfl⟩ := hs
    exact ht.start hm hu
  | go m =>
    have hm : s.stage m ≠ .idle := fun hm => by simp [hm] at hs
    dsimp only at hs
    split at hs <;> cases hs <;> exact ht.setStage hm Stage.noConfusion
  | short m =>
    simp only [Option.ite_none_right_eq_some] at hs
    obtain ⟨hm, hs⟩ := hs
    cases hs
    exact ht.setStage (by rw [hm]; exact Stage.noConfusion) Stage.noConfusion
  | finalize m | returned m | settled m =>
    dsimp only at hs
    split at hs <;> cases hs
    rename_i hm
    exact ht.setStage (by rw [hm]; exact Stage.noConfusion) Stage.noConfusion
  | commit m b | release m b =>
    dsimp only at hs
    split at hs
    · exact ht.limiter (by simp) (by simp) (by simp) hs
    · cases hs
  | cmd m =>
    refine ht.limiter (by simp) (fun m' hm' => ?_) (by simp) hs
    cases hm'
    exact hg
  | lapseBudget b => exact ht.limiter (by simp) (by simp) (by simp) hs
  | lapseInflight b n => exact ht.limiter (by simp) (by simp) (by simp) hs
  | tick d =>
    refine ht.limiter (by simp) (by simp) (fun d' hd' => ?_) hs
    cases hd'
    exact hg

theorem timely_of_reach (h : (system cfg).Reach (Prompt cfg) s) : Timely cfg s := by
  refine Lts.Reach.invariant ?_ (fun s a t _ ht hg hs => ht.step hg hs) h
  exact ⟨Relation.ReflTransGen.refl, fun _ _ => rfl, fun _ h => absurd rfl h,
    fun _ _ h => by cases h⟩

/-- **A running order is counted**, if it settles in time.  From the moment its reservation of a
bucket is written until it is committed or released it is a member of its node's set, which is what
a `ReserveACME` counts. -/
theorem counted_until_settled (h : (system cfg).Reach (Prompt cfg) s) (m : μ) (b : β)
    (hres : s.orders.token m b = .reserved) :
    m ∈ (s.orders.inflight b (cfg.node m)).members := by
  have ht := timely_of_reach h
  exact (AcmeBudget.inv_of_reach ht.reach).mem m b ⟨hres, .inl (ht.unexpired m b hres)⟩

/-- One bucket of one token, and two orders with 20 s each and a grace of 30 s. -/
def twoOrders : Config Unit Unit Bool where
  toConfig := AcmeBudget.oneToken
  buckets := fun _ => [()]
  timeout := fun _ => 20 * second
  grace := 30 * second

/-- An attempt up to the order's finalize request, in no time. -/
def finalizes (m : Bool) : List (Act Unit Unit Bool) :=
  .start m :: List.replicate 13 (Act.cmd m) ++ [Act.go m, .go m, .go m, .finalize m]

/-- The set a `ReserveACME` is about to count. -/
def counting : AcmeBudget.Phase Unit Unit → Bool
  | .card .. => true
  | _ => false

/-- An order that uses the 20 s of its attempt and the 30 s of its grace is still running when its
reservation runs out: a `ReserveACME` of another order removes the reservation and counts none. -/
theorem running_and_not_counted :
    ∃ s : State Unit Unit Bool, (system twoOrders).Reach (WithinLimits twoOrders) s ∧
      s.stage true = .running 0 true ∧ s.orders.token true () = .reserved ∧
      counting (s.orders.phase false) = true ∧ true ∉ (s.orders.inflight () ()).members := by
  have hrun : ((system twoOrders).execWith (WithinLimits twoOrders) (system twoOrders).init
      (finalizes true ++ [Act.tick 50000000000, .start false] ++
        List.replicate 5 (Act.cmd false))).any (fun s =>
          s.stage true = .running 0 true ∧ s.orders.token true () = .reserved ∧
          counting (s.orders.phase false) = true ∧
          true ∉ (s.orders.inflight () ()).members) = true := by decide +kernel
  exact Lts.exists_reach_of_any hrun

/-- A second before that, the reservation is there. -/
theorem running_and_counted :
    ∃ s : State Unit Unit Bool, (system twoOrders).Reach (Prompt twoOrders) s ∧
      s.orders.token true () = .reserved ∧ true ∈ (s.orders.inflight () ()).members := by
  have hrun : ((system twoOrders).execWith (Prompt twoOrders) (system twoOrders).init
      (finalizes true ++ [Act.tick 49000000000, .start false] ++
        List.replicate 5 (Act.cmd false))).any
      (fun s => s.orders.token true () = .reserved) = true := by
    decide +kernel
  obtain ⟨s, hreach, hres⟩ := Lts.exists_reach_of_any hrun
  exact ⟨s, hreach, hres, counted_until_settled hreach true () hres⟩

end Tunneld.Deadline

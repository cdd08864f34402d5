import Tunneld.Lib.Lts
import Tunneld.Lib.SortedSet

/-!
# The weekly cap on certificates

`Issue` obtains a public certificate for a tunnel, at most `--issue-per-week` times in a window of
seven days.  The count is kept in `iss:{name}`, and only a success is counted; so the count is read
before the order and written after it, minutes later.  What makes the two one transaction is the
lock `iss_lock:{name}`: `IssuanceBegin` takes it before it reads, and it is given back when `Issue`
returns, whichever way it returns.

The lock has a time to live of 15 s, so that an order that crashed does not block its tunnel.  The
order's heartbeat refreshes it.  Here the lock may run out at any moment unless the call that took
it is still under way (`Refreshed`); that is all that is assumed of the heartbeat.  The token in the
lock is compared before the lock is deleted, but the proofs never need that two tokens differ: a
call that gets to the comparison still has its lock.

The counter may run out at any moment once it has a time to live.  `State.recorded` lists the orders
counted since it was created, and `State.log` all orders that were ever counted.

## Main results

* `weekly_cap`: the cap holds, failures do not count, and nobody deletes the lock of another.
-/

namespace Tunneld.Issuance

open Clock

/-! ## The calls -/

/-- What `Issue` answers, as far as the limits are concerned. -/
inductive Answer
  /-- Another issuance of the name is in flight. -/
  | inFlight
  /-- The cap is reached, and the phone may retry after that. -/
  | capped (retryAfter : Int)
  | failed
  | issued
  deriving DecidableEq

/-- Where an `Issue` stands. -/
inductive Stage
  | idle
  /-- `SETNX` has taken the lock; the count is read next. -/
  | counting
  /-- `IssuanceBegin` gives the lock back: it compares the token next. -/
  | refusing (capped : Bool)
  /-- It deletes the lock next. -/
  | unlocking (capped : Bool)
  /-- `issuanceWindowLeft` asks how long the window is. -/
  | measuring
  /-- It gives the counter a time to live again. -/
  | restoring
  /-- `IssuanceBegin` has succeeded; the certificates are obtained. -/
  | ordering
  /-- There is a certificate; the `INCR` of `IssuanceRecord` is next. -/
  | recording
  /-- The `EXPIRE NX` of `IssuanceRecord` is next. -/
  | expiring
  /-- The deferred `IssuanceEnd` compares the token next. -/
  | ending (ans : Answer)
  /-- It deletes the lock next. -/
  | deleting (ans : Answer)
  | returned (ans : Answer)
  | crashed
  deriving DecidableEq

/-- The call is under way. -/
def Stage.underWay : Stage → Bool
  | .idle | .returned _ | .crashed => false
  | _ => true

/-- The call has taken the lock and has not given it back. -/
@[simp] def Stage.holding : Stage → Bool
  | .counting | .refusing _ | .unlocking _ | .ordering | .recording | .expiring | .ending _
  | .deleting _ => true
  | .idle | .measuring | .restoring | .returned _ | .crashed => false

/-- `IssuanceBegin` has succeeded and `IssuanceEnd` has not returned. -/
@[simp] def Stage.begun : Stage → Bool
  | .ordering | .recording | .expiring | .ending _ | .deleting _ => true
  | .idle | .counting | .refusing _ | .unlocking _ | .measuring | .restoring | .returned _
  | .crashed => false

/-- The count has been read and may still be raised. -/
@[simp] def Stage.gated : Stage → Bool
  | .ordering | .recording => true
  | _ => false

/-- The answer that the call has, or is about to give. -/
@[simp] def Stage.answer : Stage → Option Answer
  | .ending ans | .deleting ans | .returned ans => some ans
  | _ => none

/-- The keys of one name, and the calls for it on all nodes. -/
structure State (ω : Type) where
  /-- `iss_lock:{name}`: the call whose token it holds. -/
  lock : Option ω
  /-- `iss:{name}`. -/
  count : Option Nat
  /-- The counter has a time to live. -/
  windowed : Bool
  stage : ω → Stage
  /-- The calls that have raised the counter since it was created. -/
  recorded : List ω
  /-- The calls that have ever raised it. -/
  log : List ω

/-- What can happen next. -/
inductive Act (ω : Type)
  /-- The `SETNX` of `IssuanceBegin`. -/
  | begin (o : ω)
  /-- The phone stops waiting at the `SETNX`, which may or may not have been done. -/
  | cancelBegin (o : ω) (executed : Bool)
  /-- The `GET` of the count. -/
  | get (o : ω)
  /-- The phone stops waiting at that `GET`. -/
  | cancelGet (o : ω)
  /-- The `GET` of `releaseIssLock`. -/
  | compare (o : ω)
  /-- The `DEL` of `releaseIssLock`. -/
  | del (o : ω)
  /-- The `PTTL` of `issuanceWindowLeft`, and what it answers if there is a time to live. -/
  | pttl (o : ω) (left : Nat)
  /-- Its `EXPIRE NX`. -/
  | restore (o : ω)
  /-- The certificates are obtained, or are not, or the call panics. -/
  | obtained (o : ω) (ok : Bool)
  /-- The `INCR` of `IssuanceRecord`. -/
  | incr (o : ω)
  /-- Its `EXPIRE NX`. -/
  | expire (o : ω)
  /-- The node of a call crashes. -/
  | crash (o : ω)
  | lockLapses
  | windowEnds

section Step

variable {ω τ : Type} [DecidableEq ω] [DecidableEq τ]

@[simp] def State.setStage (s : State ω) (o : ω) (p : Stage) : State ω :=
  { s with stage := Function.update s.stage o p }

/-- What is left of the window, rounded up to a second. -/
def retryAfter (left : Nat) : Int := (left * millisecond + second - 1) / second * second

/-- The state after an action, if it is possible. -/
def step (token : ω → τ) (maxN : Nat) (s : State ω) : Act ω → Option (State ω)
  | .begin o =>
    if s.stage o = .idle then
      some (if s.lock = none then { s.setStage o .counting with lock := some o }
        else s.setStage o (.returned .inFlight))
    else none
  | .cancelBegin o executed =>
    if s.stage o = .idle then
      some { s.setStage o (.returned .failed) with
        lock := if executed ∧ s.lock = none then some o else s.lock }
    else none
  | .get o =>
    if s.stage o = .counting then
      some (s.setStage o (if maxN ≤ s.count.getD 0 then .refusing true else .ordering))
    else none
  | .cancelGet o =>
    if s.stage o = .counting then some (s.setStage o (.refusing false)) else none
  | .compare o =>
    match s.stage o with
    | .refusing capped => some (s.setStage o
        (if s.lock.map token = some (token o) then .unlocking capped
          else if capped then .measuring else .returned .failed))
    | .ending ans => some (s.setStage o
        (if s.lock.map token = some (token o) then .deleting ans else .returned ans))
    | _ => none
  | .del o =>
    match s.stage o with
    | .unlocking capped => some { s.setStage o (if capped then .measuring else .returned .failed)
        with lock := none }
    | .deleting ans => some { s.setStage o (.returned ans) with lock := none }
    | _ => none
  | .pttl o left =>
    if s.stage o = .measuring then
      match s.count, s.windowed with
      | some _, true =>
        some (s.setStage o (.returned (.capped (if 0 < left then retryAfter left else second))))
      | some _, false => some (s.setStage o .restoring)
      | none, _ => some (s.setStage o (.returned (.capped second)))
    else none
  | .restore o =>
    if s.stage o = .restoring then
      some { s.setStage o (.returned (.capped (7 * 24 * 3600 * second))) with
        windowed := s.windowed || s.count.isSome }
    else none
  | .obtained o ok =>
    if s.stage o = .ordering then
      some (s.setStage o (if ok then .recording else .ending .failed))
    else none
  | .incr o =>
    if s.stage o = .recording then
      some { s.setStage o .expiring with
        count := some (s.count.getD 0 + 1)
        windowed := s.windowed && s.count.isSome
        recorded := o :: s.recorded
        log := o :: s.log }
    else none
  | .expire o =>
    if s.stage o = .expiring then
      some { s.setStage o (.ending .issued) with windowed := s.windowed || s.count.isSome }
    else none
  | .crash o => if (s.stage o).underWay then some (s.setStage o .crashed) else none
  | .lockLapses => some { s with lock := none }
  | .windowEnds =>
    if s.windowed then some { s with count := none, windowed := false, recorded := [] } else none

/-- A name for which nobody has asked. -/
def system (token : ω → τ) (maxN : Nat) : Lts (State ω) (Act ω) :=
  ⟨⟨none, none, false, fun _ => .idle, [], []⟩, step token maxN⟩

/-- The lock of a call that is under way does not run out. -/
def Refreshed (s : State ω) : Act ω → Prop
  | .lockLapses => ∀ o ∈ s.lock, (s.stage o).underWay = false
  | _ => True

instance (s : State ω) (a : Act ω) : Decidable (Refreshed s a) := by
  unfold Refreshed; split <;> infer_instance

/-! ## The invariant -/

variable {token : ω → τ} {maxN : Nat} {s t : State ω} {o : ω}

/-- The call has raised the counter, if it has come that far. -/
@[simp] def Stage.Counted (p : Stage) : Prop :=
  p = .expiring ∨ p = .crashed ∨ p.answer = some .issued

/-- What the runs keep: a call that holds the lock is the one in it; the counter is the number of
calls recorded in it, and a call that may still raise it has found it below the cap. -/
structure Inv (maxN : Nat) (s : State ω) : Prop where
  lock : ∀ o, (s.stage o).holding = true → s.lock = some o
  count : s.recorded.length = s.count.getD 0
  cap : s.count.getD 0 ≤ maxN
  gate : ∀ o, (s.stage o).gated = true → s.count.getD 0 < maxN
  log : ∀ o ∈ s.log, (s.stage o).Counted
  recorded : ∀ o ∈ s.recorded, o ∈ s.log
  nodup : s.recorded.Nodup

omit [DecidableEq ω] in
/-- At most one call holds the lock. -/
theorem Inv.single (h : Inv maxN s) {o o' : ω} (ho : (s.stage o).holding = true)
    (ho' : (s.stage o').holding = true) : o = o' :=
  Option.some.inj ((h.lock o ho).symm.trans (h.lock o' ho'))

variable {p : Stage}

theorem Stage.holding_of_gated (h : p.gated = true) : p.holding = true := by
  revert h
  cases p <;> simp

theorem Stage.holding_of_begun (h : p.begun = true) : p.holding = true := by
  revert h
  cases p <;> simp

theorem Stage.underWay_of_holding (h : p.holding = true) : p.underWay = true := by
  revert h
  cases p <;> simp [underWay]

variable {q : Stage}

/-- A call moves on, and the keys stay as they are, but for the counter's time to live. -/
theorem Inv.move (h : Inv maxN s) {w : Bool} (hh : q.holding = true → s.lock = some o)
    (hg : q.gated = true → s.count.getD 0 < maxN) (hc : (s.stage o).Counted → q.Counted) :
    Inv maxN { s.setStage o q with windowed := w } := by
  refine ⟨fun o' ho' => ?_, h.count, h.cap, fun o' ho' => ?_, fun o' ho' => ?_, h.recorded,
    h.nodup⟩ <;>
  by_cases heq : o' = o
  · subst heq
    exact hh (by simpa using ho')
  · exact h.lock o' (by simpa [heq] using ho')
  · subst heq
    exact hg (by simpa using ho')
  · exact h.gate o' (by simpa [heq] using ho')
  · subst heq
    simpa using hc (h.log o' ho')
  · simpa [heq] using h.log o' ho'

omit [DecidableEq ω] in
theorem Inv.setLock (h : Inv maxN s) (hfree : ∀ o, (s.stage o).holding = false) (l : Option ω) :
    Inv maxN { s with lock := l } := by
  refine { h with lock := fun o ho => ?_ }
  exact absurd ((hfree o).symm.trans ho) (by decide)

omit [DecidableEq ω] in
theorem Inv.free_of_none (h : Inv maxN s) (hl : s.lock = none) (o : ω) :
    (s.stage o).holding = false := by
  by_contra hne
  have := h.lock o (by simpa using hne)
  simp [hl] at this

theorem Inv.acquire (h : Inv maxN s) (ho : s.stage o = .idle) (hl : s.lock = none) :
    Inv maxN { s.setStage o .counting with lock := some o } := by
  have hlocked := h.setLock (h.free_of_none hl) (some o)
  exact hlocked.move (w := s.windowed) (fun _ => rfl) (by simp)
    (by simp [ho])

theorem Inv.release (h : Inv maxN s) (hold : (s.stage o).holding = true) (hq : q.holding = false)
    (hc : (s.stage o).Counted → q.Counted) : Inv maxN { s.setStage o q with lock := none } := by
  have hmoved : Inv maxN (s.setStage o q) := by
    refine h.move (w := s.windowed) (by rw [hq]; simp) (fun hg => ?_) hc
    exact absurd (hq.symm.trans (Stage.holding_of_gated hg)) (by decide)
  refine hmoved.setLock (fun o' => ?_) none
  by_cases heq : o' = o
  · simpa [heq] using hq
  · by_contra hne
    exact heq (h.single (by simpa [heq] using hne) hold)

/-- `INCR`: the call that raises the counter is the only one that may. -/
theorem Inv.incr (h : Inv maxN s) {w : Bool} (ho : s.stage o = .recording) :
    Inv maxN { s.setStage o .expiring with
      count := some (s.count.getD 0 + 1), windowed := w
      recorded := o :: s.recorded, log := o :: s.log } := by
  have hold : (s.stage o).holding = true := by simp [ho]
  have hbelow : s.count.getD 0 < maxN := h.gate o (by simp [ho])
  have hnew : o ∉ s.log := fun hmem => by simpa [ho] using h.log o hmem
  have hmoved : Inv maxN (s.setStage o .expiring) :=
    h.move (w := s.windowed) (fun _ => h.lock o hold) (by simp)
      (by simp)
  refine ⟨hmoved.lock, by simp [h.count], Nat.succ_le_of_lt hbelow, fun o' ho' => ?_,
    fun o' ho' => ?_, fun o' ho' => ?_, ?_⟩
  · -- another call that may raise the counter would hold the lock too
    by_cases heq : o' = o
    · simp [heq] at ho'
    · have hg : (s.stage o').gated = true := by simpa [heq] using ho'
      exact absurd (h.single (Stage.holding_of_gated hg) hold) heq
  · rcases List.mem_cons.1 ho' with rfl | ho'
    · simp
    · exact hmoved.log o' ho'
  · rcases List.mem_cons.1 ho' with rfl | ho'
    · exact List.mem_cons_self
    · exact List.mem_cons_of_mem _ (h.recorded o' ho')
  · exact List.nodup_cons.2 ⟨fun hmem => hnew (h.recorded o hmem), h.nodup⟩

theorem Inv.step (h : Inv maxN s) {a : Act ω} (hg : Refreshed s a)
    (hs : step token maxN s a = some t) : Inv maxN t := by
  cases a with
  | begin o =>
    obtain ⟨ho, rfl⟩ := Lts.taken hs
    split
    · exact h.acquire ho ‹_›
    · exact h.move (w := s.windowed) (by simp) (by simp)
        (by simp [ho])
  | cancelBegin o executed =>
    obtain ⟨ho, rfl⟩ := Lts.taken hs
    have hmoved : Inv maxN (s.setStage o (.returned .failed)) :=
      h.move (w := s.windowed) (by simp) (by simp)
        (by simp [ho])
    split
    · rename_i hl
      exact hmoved.setLock (hmoved.free_of_none hl.2) _
    · exact hmoved
  | get o =>
    obtain ⟨ho, rfl⟩ := Lts.taken hs
    have hl := h.lock o (by simp [ho])
    split
    · exact h.move (w := s.windowed) (fun _ => hl) (by simp)
        (by simp [ho])
    · exact h.move (w := s.windowed) (fun _ => hl) (fun _ => by omega)
        (by simp [ho])
  | cancelGet o =>
    obtain ⟨ho, rfl⟩ := Lts.taken hs
    exact h.move (w := s.windowed) (fun _ => h.lock o (by simp [ho]))
      (by simp) (by simp [ho])
  | compare o =>
    simp only [Issuance.step] at hs
    split at hs
    case h_1 capped ho =>
      obtain rfl := Option.some.inj hs
      have hl := h.lock o (by simp [ho])
      rw [if_pos (by simp [hl])]
      exact h.move (w := s.windowed) (fun _ => hl) (by simp)
        (by simp [ho])
    case h_2 ans ho =>
      obtain rfl := Option.some.inj hs
      have hl := h.lock o (by simp [ho])
      rw [if_pos (by simp [hl])]
      exact h.move (w := s.windowed) (fun _ => hl) (by simp)
        (by simp [ho])
    case h_3 => simp at hs
  | del o =>
    simp only [Issuance.step] at hs
    split at hs
    case h_1 capped ho =>
      obtain rfl := Option.some.inj hs
      refine h.release (by simp [ho]) ?_ (by simp [ho])
      cases capped <;> rfl
    case h_2 ans ho =>
      obtain rfl := Option.some.inj hs
      exact h.release (by simp [ho]) rfl (by simp [ho])
    case h_3 => simp at hs
  | pttl o left =>
    obtain ⟨ho, hs⟩ := Option.ite_none_right_eq_some.1 hs
    split at hs <;> obtain rfl := Option.some.inj hs <;>
      exact h.move (w := s.windowed) (by simp) (by simp) (by simp [ho])
  | restore o =>
    obtain ⟨ho, rfl⟩ := Lts.taken hs
    exact h.move (by simp) (by simp)
      (by simp [ho])
  | obtained o ok =>
    obtain ⟨ho, rfl⟩ := Lts.taken hs
    have hl := h.lock o (by simp [ho])
    have hbelow := h.gate o (by simp [ho])
    exact h.move (w := s.windowed) (fun _ => hl) (fun _ => hbelow)
      (by simp [ho])
  | incr o =>
    obtain ⟨ho, rfl⟩ := Lts.taken hs
    exact h.incr ho
  | expire o =>
    obtain ⟨ho, rfl⟩ := Lts.taken hs
    exact h.move (fun _ => h.lock o (by simp [ho])) (by simp)
      (by simp)
  | crash o =>
    obtain ⟨-, rfl⟩ := Lts.taken hs
    exact h.move (w := s.windowed) (by simp) (by simp)
      (by simp)
  | lockLapses =>
    obtain rfl := Option.some.inj hs
    refine h.setLock (fun o => ?_) none
    by_contra hne
    have hold : (s.stage o).holding = true := by simpa using hne
    have := hg o (h.lock o hold)
    simp [Stage.underWay_of_holding hold] at this
  | windowEnds =>
    obtain ⟨-, rfl⟩ := Lts.taken hs
    exact { h with
      count := rfl
      cap := Nat.zero_le _
      gate := fun o ho => Nat.zero_lt_of_lt (h.gate o ho)
      recorded := by simp
      nodup := List.nodup_nil }

theorem inv_of_reach (h : (system token maxN).Reach Refreshed s) : Inv maxN s := by
  refine h.invariant ⟨?_, rfl, Nat.zero_le _, ?_, ?_, ?_, List.nodup_nil⟩
    fun _ _ _ _ hi hg hs => hi.step hg hs
  all_goals simp [system]

/-! ## The lock of a call that has begun -/

theorem begun_setStage {o' : ω} (hstage : t.stage = Function.update s.stage o' q)
    (hq : (s.stage o').begun = true → q.begun = true ∨ q = .crashed)
    (ho : (s.stage o).begun = true) : (t.stage o).begun = true ∨ t.stage o = .crashed := by
  rw [hstage]
  by_cases heq : o = o'
  · subst heq
    simpa using hq ho
  · simpa [heq] using .inl ho

/-- A call that has begun stays so until it crashes or deletes the lock. -/
theorem begun_step (h : Inv maxN s) {a : Act ω} (ho : (s.stage o).begun = true)
    (hs : step token maxN s a = some t) :
    ((t.stage o).begun = true ∨ t.stage o = .crashed) ∨ a = .del o := by
  cases a with
  | del o' =>
    by_cases heq : o' = o
    · exact .inr (heq ▸ rfl)
    · left
      simp only [Issuance.step] at hs
      split at hs
      case h_3 => simp at hs
      all_goals
        obtain rfl := Option.some.inj hs
        exact .inl (by simpa [Ne.symm heq] using ho)
  | compare o' =>
    left
    simp only [Issuance.step] at hs
    split at hs
    case h_1 capped ho' =>
      obtain rfl := Option.some.inj hs
      exact begun_setStage rfl (by simp [ho']) ho
    case h_2 ans ho' =>
      obtain rfl := Option.some.inj hs
      have hl := h.lock o' (by simp [ho'])
      exact begun_setStage rfl (by simp [hl]) ho
    case h_3 => simp at hs
  | pttl o' left =>
    left
    obtain ⟨ho', hs⟩ := Option.ite_none_right_eq_some.1 hs
    split at hs <;> obtain rfl := Option.some.inj hs <;>
      exact begun_setStage rfl (by simp [ho']) ho
  | begin o' =>
    obtain ⟨ho', rfl⟩ := Lts.taken hs
    left
    split <;> exact begun_setStage rfl (by simp [ho']) ho
  | cancelBegin o' | get o' | cancelGet o' | restore o' =>
    obtain ⟨ho', rfl⟩ := Lts.taken hs
    exact .inl (begun_setStage rfl (by simp [ho']) ho)
  | obtained o' ok =>
    obtain ⟨-, rfl⟩ := Lts.taken hs
    exact .inl (begun_setStage rfl (fun _ => .inl (by cases ok <;> rfl)) ho)
  | incr o' | expire o' =>
    obtain ⟨-, rfl⟩ := Lts.taken hs
    exact .inl (begun_setStage rfl (fun _ => .inl rfl) ho)
  | crash o' =>
    obtain ⟨-, rfl⟩ := Lts.taken hs
    exact .inl (begun_setStage rfl (fun _ => .inr rfl) ho)
  | lockLapses =>
    obtain rfl := Option.some.inj hs
    exact .inl (.inl ho)
  | windowEnds =>
    obtain ⟨-, rfl⟩ := Lts.taken hs
    exact .inl (.inl ho)

/-- A lock that is deleted is that of the call that deletes it. -/
theorem lock_of_del (h : Inv maxN s) (hs : step token maxN s (.del o) = some t) :
    s.lock = some o ∧ t.lock = none := by
  simp only [Issuance.step] at hs
  split at hs
  case h_3 => simp at hs
  all_goals
    rename_i ho
    obtain rfl := Option.some.inj hs
    exact ⟨h.lock o (by simp [ho]), rfl⟩

/-- **The weekly cap.**  In every run in which the lock of a call under way does not run out: at
most `maxN` calls, all different, have raised the counter since it was created; a call that has
failed or was refused never raised it; two calls are never between their `IssuanceBegin` and
`IssuanceEnd`; a call that has begun stays so until it crashes or deletes the lock, and whoever
deletes the lock deletes its own. -/
theorem weekly_cap (h : (system token maxN).Reach Refreshed s) :
    (s.recorded.Nodup ∧ s.count.getD 0 = s.recorded.length ∧ s.recorded.length ≤ maxN) ∧
    (∀ o ans, (s.stage o).answer = some ans → ans ≠ .issued → o ∉ s.log) ∧
    (∀ o o', (s.stage o).begun = true → (s.stage o').begun = true → o = o') ∧
    (∀ o a t, (s.stage o).begun = true → step token maxN s a = some t →
      ((t.stage o).begun = true ∨ t.stage o = .crashed) ∨
        a = .del o ∧ s.lock = some o ∧ t.lock = none) ∧
    (∀ o t, step token maxN s (.del o) = some t → s.lock = some o ∧ t.lock = none) := by
  have hi := inv_of_reach h
  refine ⟨⟨hi.nodup, hi.count.symm, hi.count ▸ hi.cap⟩, fun o ans ha hne hmem => ?_,
    fun o o' ho ho' => hi.single (Stage.holding_of_begun ho) (Stage.holding_of_begun ho'),
    fun o a t ho hs => ?_, fun o t hs => lock_of_del hi hs⟩
  · rcases hi.log o hmem with hp | hp | hp
    · simp [hp] at ha
    · simp [hp] at ha
    · exact hne (Option.some.inj (ha.symm.trans hp))
  · rcases begun_step hi ho hs with hstay | rfl
    · exact .inl hstay
    · exact .inr ⟨rfl, lock_of_del hi hs⟩

end Step

/-- With a cap of one: a call succeeds while another finds it in flight, and a third is refused. -/
theorem weekly_cap_of_one :
    ∃ s : State (Fin 3), (system id 1 : Lts (State (Fin 3)) _).Reach Refreshed s ∧
      s.recorded = [0] ∧ s.recorded.length ≤ 1 ∧ s.stage 1 = .returned .inFlight ∧ 1 ∉ s.log ∧
      s.stage 2 = .returned (.capped (60 * second)) ∧ 2 ∉ s.log := by
  obtain ⟨s, hreach, hrec, h1, h2⟩ := Lts.exists_reach_of_any
    (L := (system id 1 : Lts (State (Fin 3)) _)) (g := Refreshed)
    (l := [Act.begin 0, .begin 1, .get 0, .obtained 0 true, .incr 0, .expire 0, .compare 0, .del 0,
      .lockLapses, .begin 2, .get 2, .compare 2, .del 2, .pttl 2 59001])
    (P := fun s => s.recorded = [0] ∧ s.stage 1 = .returned .inFlight ∧
      s.stage 2 = .returned (.capped (60 * second))) (by decide +kernel)
  obtain ⟨⟨-, -, hcap⟩, hlog, -⟩ := weekly_cap hreach
  exact ⟨s, hreach, hrec, hcap, h1, hlog 1 .inFlight (by rw [h1]; rfl) (by decide), h2,
    hlog 2 _ (by rw [h2]; rfl) (by decide)⟩

end Tunneld.Issuance

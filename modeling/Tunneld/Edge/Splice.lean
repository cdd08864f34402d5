import Tunneld.Lib.Lts
import Mathlib.Data.List.Basic

/-!
# Splices and the control connection they were opened through

A public connection to a tunnel becomes a *splice* in several steps (`edge.handleTunnel`): the
route is looked up, the phone is asked to dial back over its control connection (`openFar`,
`SendOpen`), the dial-back is delivered, and the stream is put into the set of tracked streams.
When the control connection closes, `EvictConnStreams` cancels the tracked streams that were opened
through it.  Besides, every splice looks at the route from time to time and ends if its connection
seems to be gone (`parentGone`).

The model is one entry node and one name: any number of public streams `ς` and of control
connections `γ` of the phone, each of which has an id of its own and lives on a node `ν`.  The scan
of `EvictConnStreams` runs under the lock of the set and is one step; the streams it found are
cancelled one by one after that.

A stream between the check of `SendOpen` and `trackStream` belongs to a connection and is in no
set.  `State.late` remembers the streams that stood there when the evict of their connection
looked.  Those are left to the route check, and the route check keeps a splice whose name has been
bound to another connection, as long as the node of its own is registered.

## Main results

* `no_splice_left`: an evict that has returned has left no splice running but late ones;
* `splice_left_running`: a late one that the route check keeps.
-/

namespace Tunneld.Splice

open Function

/-! ## The system -/

/-- Where a public stream stands. -/
inductive Phase (γ : Type)
  | idle
  /-- `openFar` through a connection, before `SendOpen` has looked at it. -/
  | opening (c : γ) (retried : Bool)
  /-- `SendOpen` has found the connection open and queues the frame. -/
  | queueing (c : γ) (retried : Bool)
  /-- The phone has been asked to dial back. -/
  | awaiting (c : γ) (retried : Bool)
  /-- The dial-back has been delivered. -/
  | delivered (c : γ)
  /-- The stream is tracked and spliced; with `probing`, its route check has found another
  connection and asks for the node of its own. -/
  | tracked (c : γ) (probing : Bool)
  | ended

/-- Where a control connection stands. -/
inductive Conn (ς : Type)
  | alive
  | closed
  /-- `EvictConnStreams` has looked and is cancelling what it found. -/
  | evicting (victims : List ς)
  | evicted
  deriving DecidableEq

/-- One entry node and one name. -/
structure State (γ ν ς : Type) where
  /-- The connection the route is bound to. -/
  route : Option γ
  /-- The nodes in the node registry. -/
  registered : ν → Bool
  conn : γ → Conn ς
  phase : ς → Phase γ
  /-- The tracked streams, `Edge.streams`. -/
  streams : List ς
  /-- The streams that have been told to stop. -/
  cancelled : ς → Bool
  /-- The streams that have had a route check since the evict of their connection returned. -/
  checked : ς → Bool
  /-- The streams that were on their way when the evict of their connection looked. -/
  late : ς → Bool

/-- What can happen next. -/
inductive Act (γ ν ς : Type)
  /-- `LookupRoute` of a new stream. -/
  | start (x : ς)
  /-- `SendOpen` looks at the connection. -/
  | sendOpen (x : ς)
  /-- `SendOpen` queues the frame. -/
  | queue (x : ς)
  /-- `openFar` fails or times out. -/
  | fail (x : ς)
  | deliver (x : ς)
  | track (x : ς)
  /-- The splice ends: cancelled, closed by one of its sides, or stopped by a limit. -/
  | finish (x : ς)
  /-- The first lookup of a route check. -/
  | routeCheck (x : ς)
  /-- Its second lookup. -/
  | nodeCheck (x : ς)
  /-- One of them fails, and the splice is kept. -/
  | checkFails (x : ς)
  | bind (c : γ)
  | unbind (c : γ)
  | lapse
  | close (c : γ)
  /-- `EvictConnStreams` looks. -/
  | evict (c : γ)
  /-- `EvictConnStreams` cancels the next stream, or returns. -/
  | cancel (c : γ)
  | deregister (n : ν)

variable {γ ν ς : Type} [DecidableEq γ] [DecidableEq ς]

/-- The stream has been tracked and was opened through the connection. -/
@[simp] def Phase.via (c : γ) : Phase γ → Bool
  | .tracked c' _ => c' = c
  | _ => false

/-- The stream is on its way through the connection. -/
@[simp] def Phase.underway (c : γ) : Phase γ → Bool
  | .queueing c' _ | .awaiting c' _ | .delivered c' => c' = c
  | _ => false

namespace State

/-- A stream moves on. -/
def setPhase (s : State γ ν ς) (x : ς) (ph : Phase γ) : State γ ν ς :=
  { s with phase := update s.phase x ph }

/-- A connection moves on. -/
def setConn (s : State γ ν ς) (c : γ) (k : Conn ς) : State γ ν ς :=
  { s with conn := update s.conn c k }

/-- `untrackStream`, and the stream is over. -/
def untrack (s : State γ ν ς) (x : ς) : State γ ν ς :=
  { s.setPhase x .ended with streams := s.streams.filter (· ≠ x) }

/-- A route check has been completed and keeps the splice. -/
def kept (s : State γ ν ς) (x : ς) (c : γ) : State γ ν ς :=
  { s.setPhase x (.tracked c false) with
    checked := update s.checked x (s.checked x || s.conn c == .evicted) }

/-- What follows a failed `openFar`: one fresh lookup, and one more attempt if the route has
changed. -/
def retry (s : State γ ν ς) (c : γ) (retried : Bool) : Phase γ :=
  match retried, s.route with
  | false, some c' => if c' = c then .ended else .opening c' true
  | _, _ => .ended

end State

variable (node : γ → ν)

/-- The state after an action, if it is possible. -/
def step [DecidableEq ν] (s : State γ ν ς) : Act γ ν ς → Option (State γ ν ς)
  | .start x =>
    match s.phase x, s.route with
    | .idle, some c => some (s.setPhase x (.opening c false))
    | .idle, none => some (s.setPhase x .ended)
    | _, _ => none
  | .sendOpen x =>
    match s.phase x with
    | .opening c r =>
      some (s.setPhase x (if s.conn c = .alive then .queueing c r else s.retry c r))
    | _ => none
  | .queue x =>
    match s.phase x with
    | .queueing c r => some (s.setPhase x (.awaiting c r))
    | _ => none
  | .fail x =>
    match s.phase x with
    | .opening c r | .queueing c r | .awaiting c r => some (s.setPhase x (s.retry c r))
    | _ => none
  | .deliver x =>
    match s.phase x with
    | .awaiting c _ => some (s.setPhase x (.delivered c))
    | _ => none
  | .track x =>
    match s.phase x with
    | .delivered c => some { s.setPhase x (.tracked c false) with streams := x :: s.streams }
    | _ => none
  | .finish x =>
    match s.phase x with
    | .tracked _ _ => some (s.untrack x)
    | _ => none
  | .routeCheck x =>
    match s.phase x, s.route with
    | .tracked _ false, none => some (s.untrack x)
    | .tracked c false, some c' =>
      some (if c' = c then s.kept x c else s.setPhase x (.tracked c true))
    | _, _ => none
  | .nodeCheck x =>
    match s.phase x with
    | .tracked c true => some (if s.registered (node c) then s.kept x c else s.untrack x)
    | _ => none
  | .checkFails x =>
    match s.phase x with
    | .tracked c _ => some (s.setPhase x (.tracked c false))
    | _ => none
  | .bind c =>
    match s.conn c with
    | .alive | .closed => some { s with route := some c }
    | .evicting _ | .evicted => none
  | .unbind c => some { s with route := if s.route = some c then none else s.route }
  | .lapse => some { s with route := none }
  | .close c => if s.conn c = .alive then some (s.setConn c .closed) else none
  | .evict c =>
    if s.conn c = .closed then
      some { s.setConn c (.evicting (s.streams.filter fun x => (s.phase x).via c)) with
        late := fun x => s.late x || (s.phase x).underway c }
    else none
  | .cancel c =>
    match s.conn c with
    | .evicting (x :: l) =>
      some { s.setConn c (.evicting l) with cancelled := update s.cancelled x true }
    | .evicting [] => some (s.setConn c .evicted)
    | _ => none
  | .deregister n => some { s with registered := update s.registered n false }

/-- Streams and control connections of one name, seen from one entry node. -/
def system [DecidableEq ν] : Lts (State γ ν ς) (Act γ ν ς) :=
  ⟨⟨none, fun _ => true, fun _ => .alive, fun _ => .idle, [], fun _ => false, fun _ => false,
    fun _ => false⟩, step node⟩

/-- A splice opened through the connection runs, and nobody has told it to stop. -/
def State.Running (s : State γ ν ς) (x : ς) (c : γ) : Prop :=
  (s.phase x).via c = true ∧ s.cancelled x = false

/-- The guard under which no splice is left behind: a stream that was on its way when the evict of
its connection looked does not find the name bound when it checks its route. -/
def LateFindNoRoute (s : State γ ν ς) : Act γ ν ς → Prop
  | .routeCheck x => s.late x = true → s.route = none
  | _ => True

instance (s : State γ ν ς) (a : Act γ ν ς) : Decidable (LateFindNoRoute s a) := by
  unfold LateFindNoRoute; split <;> infer_instance

/-! ## The invariant -/

namespace Conn

/-- `EvictConnStreams` has looked. -/
def looked : Conn ς → Bool
  | .evicting _ | .evicted => true
  | _ => false

/-- A tracked stream of the connection has been or will be told to stop, unless it is late. -/
def Covers (k : Conn ς) (x : ς) (told late : Bool) : Prop :=
  match k with
  | .evicting l => told = true ∨ late = true ∨ x ∈ l
  | .evicted => told = true ∨ late = true
  | _ => True

omit [DecidableEq ς] in
theorem covers_of_late {k : Conn ς} {x : ς} {told : Bool} : k.Covers x told true := by
  cases k <;> simp [Covers]

end Conn

/-- **What is always true.** -/
structure Inv (s : State γ ν ς) : Prop where
  /-- A splice is tracked. -/
  mem : ∀ x c, (s.phase x).via c = true → x ∈ s.streams
  /-- A stream on its way through a connection whose evict has looked is late. -/
  late : ∀ x c, (s.phase x).underway c = true → (s.conn c).looked = true → s.late x = true
  /-- The evict of a connection reaches all its splices but the late ones. -/
  covers : ∀ x c, (s.phase x).via c = true → (s.conn c).Covers x (s.cancelled x) (s.late x)
  /-- A late stream does not get past the first lookup of a route check. -/
  probing : ∀ x c, s.phase x = .tracked c true → s.late x = false
  /-- A splice that has been kept by a route check after the evict has been told to stop. -/
  checked : ∀ x, s.checked x = true → s.cancelled x = true

omit [DecidableEq γ] in
theorem phase_setPhase (s : State γ ν ς) (x : ς) (ph : Phase γ) (y : ς) :
    (y = x ∧ (s.setPhase x ph).phase y = ph) ∨
      (y ≠ x ∧ (s.setPhase x ph).phase y = s.phase y) := by
  by_cases h : y = x
  · exact .inl ⟨h, h ▸ update_self ..⟩
  · exact .inr ⟨h, update_of_ne h ..⟩

omit [DecidableEq ς] in
theorem conn_setConn (s : State γ ν ς) (c : γ) (k : Conn ς) (c' : γ) :
    (c' = c ∧ (s.setConn c k).conn c' = k) ∨
      (c' ≠ c ∧ (s.setConn c k).conn c' = s.conn c') := by
  by_cases h : c' = c
  · exact .inl ⟨h, h ▸ update_self ..⟩
  · exact .inr ⟨h, update_of_ne h ..⟩

theorem Phase.eq_of_via {c : γ} {ph : Phase γ} (h : ph.via c = true) : ∃ b, ph = .tracked c b := by
  cases ph <;> simp only [Phase.via, decide_eq_true_eq, Bool.false_eq_true] at h
  subst h
  exact ⟨_, rfl⟩

namespace Inv

variable {s s' : State γ ν ς} {x : ς} {c : γ} {ph : Phase γ}

theorem setPhase (h : Inv s)
    (hunder : ∀ c, ph.underway c = true → (s.conn c).looked = true → s.late x = true)
    (hvia : ∀ c, ph.via c = true → x ∈ s.streams ∧ (s.conn c).Covers x (s.cancelled x) (s.late x))
    (hprobe : ∀ c, ph = .tracked c true → s.late x = false) : Inv (s.setPhase x ph) := by
  refine ⟨fun y c hy => ?_, fun y c hy hc => ?_, fun y c hy => ?_, fun y c hy => ?_, h.checked⟩ <;>
    rcases phase_setPhase s x ph y with ⟨rfl, he⟩ | ⟨-, he⟩ <;> rw [he] at hy
  · exact (hvia c hy).1
  · exact h.mem y c hy
  · exact hunder c hy hc
  · exact h.late y c hy hc
  · exact (hvia c hy).2
  · exact h.covers y c hy
  · exact hprobe c hy
  · exact h.probing y c hy

theorem setPhase_untracked (h : Inv s)
    (hunder : ∀ c, ph.underway c = true → (s.conn c).looked = true → s.late x = true)
    (hvia : ∀ c, ph.via c = false) : Inv (s.setPhase x ph) := by
  refine h.setPhase hunder (fun c hc => ?_) fun c hc => ?_
  · rw [hvia c] at hc; cases hc
  · have hno := hvia c
    simp [hc] at hno

theorem setPhase_tracked {b b' : Bool} (h : Inv s) (hp : s.phase x = .tracked c b)
    (hlate : b' = true → s.late x = false) : Inv (s.setPhase x (.tracked c b')) := by
  have hvia : (s.phase x).via c = true := by simp [hp]
  refine h.setPhase (fun _ hc => nomatch hc) (fun c' hc => ?_) fun c' hc => ?_
  · obtain rfl : c = c' := by simpa using hc
    exact ⟨h.mem x c hvia, h.covers x c hvia⟩
  · cases hc
    exact hlate rfl

theorem retry (h : Inv s) (c : γ) (retried : Bool) : Inv (s.setPhase x (s.retry c retried)) := by
  have hcases : s.retry c retried = .ended ∨ ∃ c', s.retry c retried = .opening c' true := by
    cases retried with
    | true => exact .inl (by simp [State.retry])
    | false =>
      cases hr : s.route with
      | none => exact .inl (by simp [State.retry, hr])
      | some c' =>
        by_cases he : c' = c
        · exact .inl (by simp [State.retry, hr, he])
        · exact .inr ⟨c', by simp [State.retry, hr, he]⟩
  rcases hcases with he | ⟨c', he⟩ <;> rw [he]
  · exact h.setPhase_untracked (fun _ hc => nomatch hc) fun _ => rfl
  · exact h.setPhase_untracked (fun _ hc => nomatch hc) fun _ => rfl

theorem sendOpen {r : Bool} (h : Inv s) :
    Inv (s.setPhase x (if s.conn c = .alive then .queueing c r else s.retry c r)) := by
  split
  · rename_i halive
    refine h.setPhase_untracked (fun c' hc hl => ?_) fun _ => rfl
    obtain rfl : c = c' := by simpa using hc
    rw [halive] at hl; cases hl
  · exact h.retry c r

theorem setPhase_underway (h : Inv s) (hold : (s.phase x).underway c = true)
    (hunder : ∀ c', ph.underway c' = true → c' = c) (hvia : ∀ c, ph.via c = false) :
    Inv (s.setPhase x ph) :=
  h.setPhase_untracked (fun c' hc hl => h.late x c hold (hunder c' hc ▸ hl)) hvia

theorem track (h : Inv s) (hp : s.phase x = .delivered c) :
    Inv { s.setPhase x (.tracked c false) with streams := x :: s.streams } := by
  have hgrow : Inv { s with streams := x :: s.streams } :=
    ⟨fun y c' hy => List.mem_cons_of_mem _ (h.mem y c' hy), h.late, h.covers, h.probing, h.checked⟩
  refine hgrow.setPhase (fun _ hc => nomatch hc) (fun c' hc => ⟨List.mem_cons_self, ?_⟩)
    fun _ hc => nomatch hc
  obtain rfl : c = c' := by simpa using hc
  -- after the evict has looked, a stream can only be late
  cases hl : (s.conn c).looked with
  | true =>
    have hlate := h.late x c (by simp [hp]) hl
    rw [show ({ s with streams := x :: s.streams } : State γ ν ς).late x = true from hlate]
    exact Conn.covers_of_late
  | false =>
    show (s.conn c).Covers x (s.cancelled x) (s.late x)
    cases hk : s.conn c with
    | alive | closed => trivial
    | evicting l => rw [hk] at hl; cases hl
    | evicted => rw [hk] at hl; cases hl

theorem untrack (h : Inv s) : Inv (s.untrack x) := by
  have hend : Inv (s.setPhase x .ended) :=
    h.setPhase_untracked (fun _ hc => nomatch hc) fun _ => rfl
  refine ⟨fun y c hy => ?_, hend.late, hend.covers, hend.probing, hend.checked⟩
  have hmem : y ∈ s.streams := hend.mem y c hy
  refine List.mem_filter.2 ⟨hmem, ?_⟩
  rcases phase_setPhase s x .ended y with ⟨rfl, he⟩ | ⟨hne, -⟩
  · have hy' : ((s.setPhase y .ended).phase y).via c = true := hy
    rw [he] at hy'; cases hy'
  · simpa using hne

/-- A route check keeps a splice that is not late. -/
theorem kept {b : Bool} (h : Inv s) (hp : s.phase x = .tracked c b) (hlate : s.late x = false) :
    Inv (s.kept x c) := by
  have htracked : Inv (s.setPhase x (.tracked c false)) :=
    h.setPhase_tracked hp fun hb => nomatch hb
  refine ⟨htracked.mem, htracked.late, htracked.covers, htracked.probing, fun y hy => ?_⟩
  show s.cancelled y = true
  have hy' : update s.checked x (s.checked x || s.conn c == .evicted) y = true := hy
  by_cases he : y = x
  · subst he
    rw [update_self, Bool.or_eq_true, beq_iff_eq] at hy'
    rcases hy' with hold | hev
    · exact h.checked y hold
    · have hcov := h.covers y c (by simp [hp])
      rw [hev, hlate] at hcov
      exact hcov.resolve_right Bool.false_ne_true
  · rw [update_of_ne he] at hy'
    exact h.checked y hy'

omit [DecidableEq ς] in
theorem close (h : Inv s) (hc : s.conn c = .alive) : Inv (s.setConn c .closed) := by
  refine ⟨h.mem, fun x c' hx hl => ?_, fun x c' hx => ?_, h.probing, h.checked⟩ <;>
    rcases conn_setConn s c .closed c' with ⟨rfl, he⟩ | ⟨-, he⟩
  · rw [he] at hl; cases hl
  · rw [he] at hl; exact h.late x c' hx hl
  · rw [he]; trivial
  · rw [he]; exact h.covers x c' hx

omit [DecidableEq ς] in
/-- **The evict looks.**  It sees every splice of its connection, and what is on its way is late. -/
theorem evict (h : Inv s) (hc : s.conn c = .closed) :
    Inv { s.setConn c (.evicting (s.streams.filter fun x => (s.phase x).via c)) with
      late := fun x => s.late x || (s.phase x).underway c } := by
  set victims := s.streams.filter fun x => (s.phase x).via c with hv
  refine ⟨h.mem, fun x c' hx hl => ?_, fun x c' hx => ?_, fun x c' hx => ?_, h.checked⟩
  · show (s.late x || (s.phase x).underway c) = true
    rw [Bool.or_eq_true]
    have hl' : ((s.setConn c (.evicting victims)).conn c').looked = true := hl
    rcases conn_setConn s c (.evicting victims) c' with ⟨rfl, -⟩ | ⟨-, he⟩
    · exact .inr hx
    · rw [he] at hl'
      exact .inl (h.late x c' hx hl')
  · show ((s.setConn c (.evicting victims)).conn c').Covers x (s.cancelled x)
      (s.late x || (s.phase x).underway c)
    rcases conn_setConn s c (.evicting victims) c' with ⟨rfl, he⟩ | ⟨-, he⟩ <;> rw [he]
    · exact .inr (.inr (List.mem_filter.2 ⟨h.mem x c' hx, hx⟩))
    · have hcov := h.covers x c' hx
      cases hlate : s.late x with
      | true => rw [Bool.true_or]; exact Conn.covers_of_late
      | false =>
        obtain ⟨b, hb⟩ : ∃ b, s.phase x = .tracked c' b := Phase.eq_of_via hx
        rw [hlate] at hcov
        rw [hb]
        exact hcov
  · show (s.late x || (s.phase x).underway c) = false
    have hx' : s.phase x = .tracked c' true := hx
    rw [h.probing x c' hx', hx']
    rfl

theorem cancel {l : List ς} (h : Inv s) (hc : s.conn c = .evicting (x :: l)) :
    Inv { s.setConn c (.evicting l) with cancelled := update s.cancelled x true } := by
  have htold : ∀ y, s.cancelled y = true → update s.cancelled x true y = true := by
    intro y hy
    by_cases he : y = x
    · rw [he, update_self]
    · rw [update_of_ne he]; exact hy
  refine ⟨h.mem, fun y c' hy hl => ?_, fun y c' hy => ?_, h.probing,
    fun y hy => htold y (h.checked y hy)⟩
  · refine h.late y c' hy ?_
    have hl' : ((s.setConn c (.evicting l)).conn c').looked = true := hl
    rcases conn_setConn s c (.evicting l) c' with ⟨rfl, -⟩ | ⟨-, he⟩
    · rw [hc]; rfl
    · rw [← he]; exact hl'
  · show ((s.setConn c (.evicting l)).conn c').Covers y (update s.cancelled x true y)
      (s.late y)
    have hcov := h.covers y c' hy
    rcases conn_setConn s c (.evicting l) c' with ⟨rfl, he⟩ | ⟨-, he⟩ <;> rw [he]
    · rw [hc] at hcov
      rcases hcov with hold | hlate | hmem
      · exact .inl (htold y hold)
      · exact .inr (.inl hlate)
      · rcases List.mem_cons.1 hmem with rfl | hmem
        · exact .inl (update_self ..)
        · exact .inr (.inr hmem)
    · cases hk : s.conn c' with
      | alive | closed => trivial
      | evicting l' =>
        rw [hk] at hcov
        exact hcov.imp (htold y) id
      | evicted =>
        rw [hk] at hcov
        exact hcov.imp (htold y) id

omit [DecidableEq ς] in
theorem evicted (h : Inv s) (hc : s.conn c = .evicting []) : Inv (s.setConn c .evicted) := by
  refine ⟨h.mem, fun x c' hx hl => h.late x c' hx ?_, fun x c' hx => ?_, h.probing, h.checked⟩ <;>
    rcases conn_setConn s c .evicted c' with ⟨rfl, he⟩ | ⟨-, he⟩
  · rw [hc]; rfl
  · rw [he] at hl; exact hl
  · have hcov := h.covers x c' hx
    rw [hc] at hcov
    rw [he]
    exact hcov.imp_right fun ho => ho.resolve_right List.not_mem_nil
  · rw [he]; exact h.covers x c' hx

theorem step [DecidableEq ν] {a : Act γ ν ς} {node : γ → ν} (h : Inv s) (hg : LateFindNoRoute s a)
    (hs : Splice.step node s a = some s') : Inv s' := by
  rw [Splice.step.eq_def] at hs
  cases a with
  | start x =>
    cases hp : s.phase x <;> cases hr : s.route <;>
      simp only [hp, hr, reduceCtorEq, Option.some_inj] at hs <;> subst hs
    all_goals exact h.setPhase_untracked (fun _ hc => nomatch hc) fun _ => rfl
  | sendOpen x =>
    cases hp : s.phase x <;> simp only [hp, reduceCtorEq, Option.some_inj] at hs
    subst hs
    exact h.sendOpen
  | queue x =>
    cases hp : s.phase x with
    | queueing c r =>
      simp only [hp, Option.some_inj] at hs
      subst hs
      refine h.setPhase_underway (c := c) (by simp [hp]) (fun c' hc => ?_)
        fun _ => rfl
      simpa [eq_comm] using hc
    | _ => simp only [hp, reduceCtorEq] at hs
  | fail x =>
    cases hp : s.phase x <;> simp only [hp, reduceCtorEq, Option.some_inj] at hs <;> subst hs
    all_goals exact h.retry _ _
  | deliver x =>
    cases hp : s.phase x with
    | awaiting c r =>
      simp only [hp, Option.some_inj] at hs
      subst hs
      refine h.setPhase_underway (c := c) (by simp [hp]) (fun c' hc => ?_)
        fun _ => rfl
      simpa [eq_comm] using hc
    | _ => simp only [hp, reduceCtorEq] at hs
  | track x =>
    cases hp : s.phase x <;> simp only [hp, reduceCtorEq, Option.some_inj] at hs
    subst hs
    exact h.track hp
  | finish x =>
    cases hp : s.phase x <;> simp only [hp, reduceCtorEq, Option.some_inj] at hs
    subst hs
    exact h.untrack
  | routeCheck x =>
    cases hp : s.phase x with
    | tracked c b =>
      cases b <;> cases hr : s.route <;> simp only [hp, hr, reduceCtorEq, Option.some_inj] at hs
      · subst hs
        exact h.untrack
      · have hlate : s.late x = false := Bool.eq_false_iff.2 fun hl => by
          rw [hg hl] at hr; cases hr
        split at hs <;> subst hs
        · exact h.kept hp hlate
        · exact h.setPhase_tracked hp fun _ => hlate
    | _ => cases hr : s.route <;> simp only [hp, hr, reduceCtorEq] at hs
  | nodeCheck x =>
    cases hp : s.phase x with
    | tracked c b =>
      cases b <;> simp only [hp, reduceCtorEq, Option.some_inj] at hs
      split at hs <;> subst hs
      · exact h.kept hp (h.probing x c hp)
      · exact h.untrack
    | _ => simp only [hp, reduceCtorEq] at hs
  | checkFails x =>
    cases hp : s.phase x <;> simp only [hp, reduceCtorEq, Option.some_inj] at hs
    subst hs
    exact h.setPhase_tracked hp fun hb => nomatch hb
  | bind c =>
    cases hc : s.conn c <;> simp only [hc, reduceCtorEq, Option.some_inj] at hs <;> subst hs
    all_goals exact ⟨h.mem, h.late, h.covers, h.probing, h.checked⟩
  | unbind c | lapse | deregister n =>
    simp only [Option.some_inj] at hs
    subst hs
    exact ⟨h.mem, h.late, h.covers, h.probing, h.checked⟩
  | close c =>
    simp only at hs
    split at hs <;> cases hs
    rename_i hc
    exact h.close hc
  | evict c =>
    simp only at hs
    split at hs <;> cases hs
    rename_i hc
    exact h.evict hc
  | cancel c =>
    cases hc : s.conn c with
    | evicting l =>
      cases l <;> simp only [hc, Option.some_inj] at hs <;> subst hs
      · exact h.evicted hc
      · exact h.cancel hc
    | alive | closed | evicted => simp only [hc, reduceCtorEq] at hs

end Inv

variable [DecidableEq ν]

theorem init_inv (node : γ → ν) : Inv (system (ς := ς) node).init where
  mem := fun _ _ h => nomatch h
  late := fun _ _ h => nomatch h
  covers := fun _ _ _ => trivial
  probing := fun _ _ h => nomatch h
  checked := fun _ h => nomatch h

/-! ## The result -/

/-- **No splice is left behind**, as long as every stream that was on its way through a connection
when the evict of that connection looked finds no route at its route checks.  Then, once the evict
of a connection has returned, a splice opened through it that has had a route check since does not
run; and one that was not late does not run whether it has had a check or not. -/
theorem no_splice_left {node : γ → ν} {s : State γ ν ς}
    (h : (system node).Reach LateFindNoRoute s) (x : ς) (c : γ) (hc : s.conn c = .evicted) :
    (s.checked x = true → ¬ s.Running x c) ∧ (s.late x = false → ¬ s.Running x c) := by
  have hi : Inv s := h.invariant (init_inv node) fun _ _ _ _ hi hg hs => hi.step hg hs
  refine ⟨fun hcheck hrun => ?_, fun hlate hrun => ?_⟩
  · have htold := hi.checked x hcheck
    rw [hrun.2] at htold; cases htold
  · have hcov := hi.covers x c hrun.1
    rw [hc, hrun.2, hlate] at hcov
    exact hcov.elim Bool.false_ne_true Bool.false_ne_true

/-- The stream reaches the phone through the connection `true`, which closes while the phone dials
back; the evict finds nothing; and the phone has bound the connection `false` before the splice
first checks its route. -/
theorem splice_left_running : ∃ s : State Bool Unit Unit,
    (system fun _ => ()).Reach Lts.always s ∧ s.conn true = .evicted ∧ s.checked () = true ∧
      s.registered () = true ∧ s.Running () true := by
  obtain ⟨s, hrun, hconn, hcheck, hreg, hvia⟩ : ∃ s : State Bool Unit Unit,
      (system fun _ => ()).exec [.bind true, .start (), .sendOpen (), .queue (), .close true,
        .unbind true, .evict true, .cancel true, .deliver (), .track (), .bind false,
        .routeCheck (), .nodeCheck ()] = some s ∧ s.conn true = .evicted ∧ s.checked () = true ∧
      s.registered () = true ∧ s.Running () true := ⟨_, rfl, rfl, rfl, rfl, rfl, rfl⟩
  exact ⟨s, Lts.reach_of_exec hrun, hconn, hcheck, hreg, hvia⟩

/-- A splice that the evict has found stops; one that was late and finds no route is over. -/
theorem both_splices_end : ∃ s : State Bool Unit Bool,
    s.conn true = .evicted ∧ s.late false = true ∧ ¬ s.Running true true := by
  obtain ⟨s, hrun, hconn, hlate, hnot⟩ : ∃ s : State Bool Unit Bool,
      (system fun _ => ()).execWith LateFindNoRoute (system fun _ => ()).init
        [.bind true, .start true, .sendOpen true, .queue true, .deliver true, .track true,
        .start false, .sendOpen false, .queue false, .close true, .unbind true, .evict true,
        .cancel true, .cancel true, .deliver false, .track false, .routeCheck false] = some s ∧
      s.conn true = .evicted ∧ s.late false = true ∧ s.late true = false :=
    ⟨_, rfl, rfl, rfl, rfl⟩
  exact ⟨s, hconn, hlate, (no_splice_left (Lts.reach_of_execWith hrun) true true hconn).2 hnot⟩

end Tunneld.Splice

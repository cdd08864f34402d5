import Tunneld.Lib.Lts
import Tunneld.Lib.Tally

/-!
# The ceiling on clients

A node serves at most `--max-clients` connections at a time, over all its listeners.  `admit`
increments a counter and decrements it again if that went too far; so the counter may be above the
ceiling, but those that were admitted are not.

A slot changes hands.  On the public port `handleConn` gives it back when it returns, by a deferred
call, whatever the connection turned out to be: unreadable, an ACME challenge, a tunnel, or a panic.
But a connection to one of the node's own hosts is wrapped and handed to an HTTP server, and then
the wrapper gives the slot back, when it is closed.  On the plain HTTP port every admitted
connection is handed on like that.  The HTTP server may close a connection several times, from
several goroutines; a `sync.Once` in the wrapper keeps it from giving the slot back twice.

The counter is compared with the connections by `Tally`.  `Conn.given` counts how often a connection
has given its slot back; it is for the statement only.

## Main results

* `client_ceiling`: the ceiling holds, and every slot is given back once.
-/

namespace Tunneld.Clients

open Function

/-! ## The connections -/

/-- Where a connection stands with its slot. -/
inductive Stage
  | idle
  /-- It is counted above the ceiling, and will be uncounted. -/
  | overflow
  /-- `admit` was false. -/
  | refused
  /-- `handleConn` reads the TLS greeting. -/
  | greeting
  /-- `serveACMEChallenge`. -/
  | challenge
  | tunnel
  /-- `handleConn` is over; the deferred release is next. -/
  | ending
  | returned
  /-- It is wrapped, and the handler waits for the server to take it. -/
  | pushing
  /-- The server has it, or its queue. -/
  | handed
  deriving DecidableEq

/-- A connection. -/
structure Conn where
  stage : Stage
  /-- The `sync.Once` of its wrapper is done. -/
  once : Bool
  /-- How often it has given its slot back. -/
  given : Nat
  deriving DecidableEq

/-- `handleConn` has the slot. -/
def Stage.kept : Stage → Bool
  | .greeting | .challenge | .tunnel | .ending => true
  | .idle | .overflow | .refused | .returned | .pushing | .handed => false

/-- The wrapper has the slot. -/
def Stage.wrapped : Stage → Bool
  | .pushing | .handed => true
  | .idle | .overflow | .refused | .greeting | .challenge | .tunnel | .ending | .returned => false

/-- The connection has a slot. -/
def Conn.Holding (x : Conn) : Prop :=
  x.stage.kept = true ∨ x.stage.wrapped = true ∧ x.once = false

/-- The connection is in the counter. -/
def Conn.Counted (x : Conn) : Prop := x.stage = .overflow ∨ x.Holding

instance (x : Conn) : Decidable x.Holding := inferInstanceAs (Decidable (_ ∨ _))

instance (x : Conn) : Decidable x.Counted := inferInstanceAs (Decidable (_ ∨ _))

/-- Where a call of a wrapper's `Close` stands. -/
inductive Closer (κ : Type)
  | idle
  /-- The connection is closed; `once.Do` is next. -/
  | closing (c : κ)
  | returned (c : κ)
  deriving DecidableEq

/-- The connections of a node. -/
structure State (κ χ : Type) where
  clients : Int
  conn : κ → Conn
  closer : χ → Closer κ

/-- What can happen next. -/
inductive Act (κ χ : Type)
  /-- The increment of `admit`. -/
  | count (c : κ)
  /-- The decrement of `admit`. -/
  | rollback (c : κ)
  /-- The greeting asks for `acme-tls/1`. -/
  | challenge (c : κ)
  /-- The greeting names a tunnel. -/
  | tunnel (c : κ)
  /-- The greeting names one of the node's own hosts: `released = true`, and the wrapper. -/
  | wrap (c : κ)
  /-- `handleConn` returns or panics. -/
  | finish (c : κ)
  /-- Its deferred release. -/
  | release (c : κ)
  /-- The server's listener takes the wrapper. -/
  | pushed (c : κ)
  /-- Somebody closes the wrapper: the server, or the handler when the listener is closed. -/
  | close (x : χ) (c : κ)
  /-- The `once.Do` of that `Close`. -/
  | once (x : χ)

section Step

variable {κ χ : Type} [DecidableEq κ] [DecidableEq χ]

def State.setConn (s : State κ χ) (c : κ) (x : Conn) : State κ χ :=
  { s with conn := update s.conn c x }

def State.setCloser (s : State κ χ) (x : χ) (p : Closer κ) : State κ χ :=
  { s with closer := update s.closer x p }

/-- A connection moves on. -/
def State.setStage (s : State κ χ) (c : κ) (p : Stage) : State κ χ :=
  s.setConn c { s.conn c with stage := p }

/-- The state after an action, if it is possible; `plain` are the connections to the plain HTTP
port. -/
def step (plain : κ → Bool) (maxClients : Int) (s : State κ χ) : Act κ χ → Option (State κ χ)
  | .count c =>
    if (s.conn c).stage = .idle then
      some { s.setStage c (if maxClients < s.clients + 1 then .overflow
          else if plain c then .pushing else .greeting) with clients := s.clients + 1 }
    else none
  | .rollback c =>
    if (s.conn c).stage = .overflow then
      some { s.setStage c .refused with clients := s.clients - 1 }
    else none
  | .challenge c =>
    if (s.conn c).stage = .greeting then some (s.setStage c .challenge) else none
  | .tunnel c => if (s.conn c).stage = .greeting then some (s.setStage c .tunnel) else none
  | .wrap c => if (s.conn c).stage = .greeting then some (s.setStage c .pushing) else none
  | .finish c =>
    if (s.conn c).stage = .greeting ∨ (s.conn c).stage = .challenge ∨
        (s.conn c).stage = .tunnel then
      some (s.setStage c .ending)
    else none
  | .release c =>
    if (s.conn c).stage = .ending then
      some { s.setConn c { s.conn c with stage := .returned, given := (s.conn c).given + 1 } with
        clients := s.clients - 1 }
    else none
  | .pushed c => if (s.conn c).stage = .pushing then some (s.setStage c .handed) else none
  | .close x c =>
    if s.closer x = .idle ∧ (s.conn c).stage.wrapped = true then
      some (s.setCloser x (.closing c))
    else none
  | .once x =>
    match s.closer x with
    | .closing c =>
      if (s.conn c).once then some (s.setCloser x (.returned c))
      else some
        { (s.setConn c { s.conn c with once := true, given := (s.conn c).given + 1 }).setCloser
          x (.returned c) with clients := s.clients - 1 }
    | _ => none

/-- A node that nobody has connected to. -/
def system (plain : κ → Bool) (maxClients : Int) : Lts (State κ χ) (Act κ χ) :=
  ⟨⟨0, fun _ => ⟨.idle, false, 0⟩, fun _ => .idle⟩, step plain maxClients⟩

/-! ## What one step does -/

/-- How a connection moves, and what it does to the counter.  A connection that is admitted finds
the counter, with itself, at or below the ceiling. -/
inductive Conn.Next (maxClients clients : Int) : Conn → Conn → Int → Prop
  | enter {x p} : x.stage = .idle → p = .greeting ∨ p = .pushing →
      clients + 1 ≤ maxClients → Next maxClients clients x { x with stage := p } 1
  | exceed {x} : x.stage = .idle → Next maxClients clients x { x with stage := .overflow } 1
  | roll {x} : x.stage = .overflow →
      Next maxClients clients x { x with stage := .refused } (-1)
  | keep {x p} : x.stage.kept = true → p.kept = true ∨ p = .pushing →
      Next maxClients clients x { x with stage := p } 0
  | take {x} : x.stage = .pushing → Next maxClients clients x { x with stage := .handed } 0
  | release {x} : x.stage = .ending →
      Next maxClients clients x { x with stage := .returned, given := x.given + 1 } (-1)
  | once {x} : x.stage.wrapped = true → x.once = false →
      Next maxClients clients x { x with once := true, given := x.given + 1 } (-1)

variable {plain : κ → Bool} {maxClients : Int} {s t : State κ χ}

/-- Only wrapped connections are closed through a wrapper. -/
def Wrapped (s : State κ χ) : Prop :=
  ∀ x c, s.closer x = .closing c → (s.conn c).stage.wrapped = true

/-- A step leaves the connections and the counter alone, or moves one connection. -/
theorem conn_of_step (hw : Wrapped s) {a : Act κ χ} (hs : step plain maxClients s a = some t) :
    t.conn = s.conn ∧ t.clients = s.clients ∨
    ∃ c y k, Conn.Next maxClients s.clients (s.conn c) y k ∧
      t.conn = update s.conn c y ∧ t.clients = s.clients + k := by
  cases a with
  | count c =>
    obtain ⟨hc, rfl⟩ := Lts.taken hs
    refine .inr ⟨c, _, 1, ?_, rfl, rfl⟩
    split
    · exact .exceed hc
    · rename_i hle
      exact .enter hc (by split <;> simp) (by omega)
  | rollback c =>
    obtain ⟨hc, rfl⟩ := Lts.taken hs
    exact .inr ⟨c, _, -1, .roll hc, rfl, rfl⟩
  | challenge c | tunnel c =>
    obtain ⟨hc, rfl⟩ := Lts.taken hs
    exact .inr ⟨c, _, 0, .keep (by simp [hc, Stage.kept]) (.inl rfl), rfl, (Int.add_zero _).symm⟩
  | wrap c =>
    obtain ⟨hc, rfl⟩ := Lts.taken hs
    exact .inr ⟨c, _, 0, .keep (by simp [hc, Stage.kept]) (.inr rfl), rfl, (Int.add_zero _).symm⟩
  | finish c =>
    obtain ⟨hc, rfl⟩ := Lts.taken hs
    refine .inr ⟨c, _, 0, .keep ?_ (.inl rfl), rfl, (Int.add_zero _).symm⟩
    rcases hc with hc | hc | hc <;> simp [hc, Stage.kept]
  | release c =>
    obtain ⟨hc, rfl⟩ := Lts.taken hs
    exact .inr ⟨c, _, -1, .release hc, rfl, rfl⟩
  | pushed c =>
    obtain ⟨hc, rfl⟩ := Lts.taken hs
    exact .inr ⟨c, _, 0, .take hc, rfl, (Int.add_zero _).symm⟩
  | close x c =>
    obtain ⟨-, rfl⟩ := Lts.taken hs
    exact .inl ⟨rfl, rfl⟩
  | once x =>
    simp only [step] at hs
    split at hs
    case h_2 => simp at hs
    case h_1 c hx =>
      split at hs
      · obtain rfl := Option.some.inj hs
        exact .inl ⟨rfl, rfl⟩
      · rename_i hc
        obtain rfl := Option.some.inj hs
        exact .inr ⟨c, _, -1, .once (hw x c hx) (by simpa using hc), rfl, rfl⟩

/-- What a step does to the calls of `Close`. -/
theorem closer_of_step {a : Act κ χ} (hs : step plain maxClients s a = some t) (x : χ) :
    t.closer x = s.closer x ∨
    (∃ c, t.closer x = .closing c ∧ (t.conn c).stage.wrapped = true) ∨
    ∃ c, s.closer x = .closing c ∧ t.closer x = .returned c ∧ (t.conn c).once = true := by
  cases a with
  | count | rollback | challenge | tunnel | wrap | finish | release | pushed =>
    obtain ⟨-, rfl⟩ := Lts.taken hs
    exact .inl rfl
  | close y c =>
    obtain ⟨⟨-, hc⟩, rfl⟩ := Lts.taken hs
    by_cases hxy : x = y
    · subst hxy
      exact .inr (.inl ⟨c, update_self .., hc⟩)
    · exact .inl (update_of_ne hxy ..)
  | once y =>
    simp only [step] at hs
    split at hs
    case h_2 => simp at hs
    case h_1 c hy =>
      by_cases hxy : x = y
      · subst hxy
        refine .inr (.inr ⟨c, hy, ?_⟩)
        split at hs <;> obtain rfl := Option.some.inj hs
        · exact ⟨update_self .., ‹_›⟩
        · exact ⟨update_self .., by simp [State.setConn, State.setCloser]⟩
      · left
        split at hs <;> obtain rfl := Option.some.inj hs <;> exact update_of_ne hxy ..

/-! ## The counter and the slots -/

/-- A connection gives its slot back once: the handler when it has returned, or the wrapper when its
`sync.Once` is done. -/
structure Conn.Ok (x : Conn) : Prop where
  wrapped : x.once = true → x.stage.wrapped = true
  given : x.given = if x.stage = .returned ∨ x.once = true then 1 else 0

theorem Stage.ne_of_kept {p : Stage} (h : p.kept = true) : p ≠ .overflow ∧ p ≠ .returned := by
  constructor <;> rintro rfl <;> simp [Stage.kept] at h

theorem Conn.Ok.once_of {x : Conn} (h : x.Ok) (hw : x.stage.wrapped = false) : x.once = false := by
  by_contra hne
  have := h.wrapped (by simpa using hne)
  simp [hw] at this

theorem Conn.Ok.of_kept {x : Conn} (h : x.Ok) (hk : x.stage = .idle ∨ x.stage.kept = true) :
    x.once = false ∧ x.given = 0 := by
  have ho : x.once = false := by
    refine h.once_of ?_
    revert hk
    cases x.stage <;> simp [Stage.kept, Stage.wrapped]
  refine ⟨ho, ?_⟩
  rw [h.given, ho]
  revert hk
  cases x.stage <;> simp [Stage.kept]

namespace Conn.Next

variable {clients : Int} {x y : Conn} {k : Int}

theorem ok (h : Next maxClients clients x y k) (hx : x.Ok) : y.Ok := by
  cases h with
  | enter h0 hp =>
    obtain ⟨ho, hg⟩ := hx.of_kept (.inl h0)
    rcases hp with rfl | rfl <;> exact ⟨by simp [ho], by simp [ho, hg]⟩
  | exceed h0 =>
    obtain ⟨ho, hg⟩ := hx.of_kept (.inl h0)
    exact ⟨by simp [ho], by simp [ho, hg]⟩
  | roll h0 =>
    have ho := hx.once_of (by simp [h0, Stage.wrapped])
    exact ⟨by simp [ho], by simpa [h0, ho] using hx.given⟩
  | keep h0 hp =>
    obtain ⟨ho, hg⟩ := hx.of_kept (.inr h0)
    refine ⟨by simp [ho], ?_⟩
    rcases hp with hp | rfl
    · simp [ho, hg, (Stage.ne_of_kept hp).2]
    · simp [ho, hg]
  | take h0 => exact ⟨fun _ => rfl, by simpa [h0] using hx.given⟩
  | release h0 =>
    obtain ⟨ho, hg⟩ := hx.of_kept (.inr (by simp [h0, Stage.kept]))
    exact ⟨by simp [ho], by simp [hg]⟩
  | once h0 ho =>
    refine ⟨fun _ => h0, ?_⟩
    have hne : x.stage ≠ .returned := by
      intro hr
      simp [hr, Stage.wrapped] at h0
    simp [hx.given, ho, hne]

/-- What was wrapped stays so, and a `sync.Once` stays done. -/
theorem mono (h : Next maxClients clients x y k) (hw : x.stage.wrapped = true) :
    y.stage.wrapped = true ∧ (x.once = true → y.once = true) := by
  cases h with
  | enter h0 | exceed h0 | roll h0 | release h0 => simp [h0, Stage.wrapped] at hw
  | keep h0 =>
    revert h0 hw
    cases x.stage <;> simp [Stage.kept, Stage.wrapped]
  | take => exact ⟨rfl, id⟩
  | once => exact ⟨hw, fun _ => rfl⟩

/-- A slot is given to a connection below the ceiling, or given back, or neither; or the connection
is one that only passes through the counter. -/
theorem slots (h : Next maxClients clients x y k) (hx : x.Ok) :
    (x.stage ≠ .overflow ∧ y.stage ≠ .overflow ∧
      (¬ x.Holding ∧ y.Holding ∧ k = 1 ∧ clients + 1 ≤ maxClients ∨
        x.Holding ∧ ¬ y.Holding ∧ k = -1 ∨ (y.Holding ↔ x.Holding) ∧ k = 0)) ∨
    (¬ x.Holding ∧ ¬ y.Holding ∧ (x.stage ≠ .overflow ∧ y.stage = .overflow ∧ k = 1 ∨
      x.stage = .overflow ∧ y.stage ≠ .overflow ∧ k = -1)) := by
  cases h with
  | enter h0 hp hle =>
    obtain ⟨ho, -⟩ := hx.of_kept (.inl h0)
    left
    rcases hp with rfl | rfl <;> simp [Holding, h0, ho, hle, Stage.kept, Stage.wrapped]
  | exceed h0 => simp [Holding, h0, Stage.kept, Stage.wrapped]
  | roll h0 => simp [Holding, h0, Stage.kept, Stage.wrapped]
  | keep h0 hp =>
    obtain ⟨ho, -⟩ := hx.of_kept (.inr h0)
    rcases hp with hp | rfl
    · exact .inl ⟨(Stage.ne_of_kept h0).1, (Stage.ne_of_kept hp).1,
        .inr (.inr ⟨iff_of_true (.inl hp) (.inl h0), rfl⟩)⟩
    · exact .inl ⟨(Stage.ne_of_kept h0).1, by simp,
        .inr (.inr ⟨iff_of_true (.inr ⟨rfl, ho⟩) (.inl h0), rfl⟩)⟩
  | take h0 => simp [Holding, h0, Stage.kept, Stage.wrapped]
  | release h0 => simp [Holding, h0, Stage.kept, Stage.wrapped]
  | once h0 ho =>
    have hnk : x.stage.kept = false ∧ x.stage ≠ .overflow := by
      revert h0
      cases x.stage <;> simp [Stage.kept, Stage.wrapped]
    simp [Holding, h0, ho, hnk]

end Conn.Next

/-- What the runs keep. -/
structure Inv (maxClients : Int) (s : State κ χ) : Prop where
  counted : Tally Conn.Counted s.conn s.clients
  holding : ∃ m, Tally Conn.Holding s.conn m ∧ m ≤ maxClients
  ok : ∀ c, (s.conn c).Ok
  wrapped : Wrapped s
  closed : ∀ x c, s.closer x = .returned c → (s.conn c).once = true

omit [DecidableEq χ] in
theorem Inv.next (h : Inv maxClients s) {c : κ} {y : Conn} {k : Int}
    (hn : Conn.Next maxClients s.clients (s.conn c) y k) :
    Tally Conn.Counted (update s.conn c y) (s.clients + k) ∧
      ∃ m, Tally Conn.Holding (update s.conn c y) m ∧ m ≤ maxClients := by
  obtain ⟨m, hm, hle⟩ := h.holding
  rcases hn.slots (h.ok c) with ⟨hx, hy, hslot⟩ | ⟨hxh, hyh, hslot⟩
  · rcases hslot with ⟨hxh, hyh, rfl, hroom⟩ | ⟨hxh, hyh, rfl⟩ | ⟨hiff, rfl⟩
    · -- the counter bounds the slots, and the connection has just found it below the ceiling
      have hcount := h.counted.enter (i := c) (x := y) (by simp [Conn.Counted, hx, hxh])
        (by simp [Conn.Counted, hyh])
      have hslots := hm.enter hxh hyh
      exact ⟨hcount, m + 1, hslots, (hslots.le hcount fun _ => .inr).trans hroom⟩
    · exact ⟨h.counted.leave (by simp [Conn.Counted, hxh]) (by simp [Conn.Counted, hy, hyh]),
        m - 1, hm.leave hxh hyh, by omega⟩
    · rw [Int.add_zero]
      exact ⟨h.counted.keep (by simp [Conn.Counted, hx, hy, hiff]), m, hm.keep hiff, hle⟩
  · have hslots := hm.keep (i := c) (iff_of_false hyh hxh)
    rcases hslot with ⟨hx, hy, rfl⟩ | ⟨hx, hy, rfl⟩
    · exact ⟨h.counted.enter (by simp [Conn.Counted, hx, hxh]) (.inl hy), m, hslots, hle⟩
    · exact ⟨h.counted.leave (.inl hx) (by simp [Conn.Counted, hy, hyh]), m, hslots, hle⟩

theorem Inv.step (h : Inv maxClients s) {a : Act κ χ} (hs : step plain maxClients s a = some t) :
    Inv maxClients t := by
  have hconn := conn_of_step h.wrapped hs
  -- what is wrapped stays wrapped, and closed stays closed
  have hmono : ∀ c, (s.conn c).stage.wrapped = true →
      (t.conn c).stage.wrapped = true ∧ ((s.conn c).once = true → (t.conn c).once = true) := by
    intro c hw
    rcases hconn with ⟨heq, -⟩ | ⟨c', y, k, hn, heq, -⟩
    · rw [heq]
      exact ⟨hw, id⟩
    · rw [heq]
      by_cases hc : c = c'
      · subst hc
        simpa using hn.mono hw
      · simpa [hc] using hw
  have hcount : Tally Conn.Counted t.conn t.clients ∧
      (∃ m, Tally Conn.Holding t.conn m ∧ m ≤ maxClients) ∧ ∀ c, (t.conn c).Ok := by
    rcases hconn with ⟨heq, hcl⟩ | ⟨c', y, k, hn, heq, hcl⟩
    · rw [heq, hcl]
      exact ⟨h.counted, h.holding, h.ok⟩
    · rw [heq, hcl]
      obtain ⟨hcount, hslots⟩ := h.next hn
      exact ⟨hcount, hslots, (forall_update_iff _ fun _ x => Conn.Ok x).2
        ⟨hn.ok (h.ok c'), fun c _ => h.ok c⟩⟩
  refine ⟨hcount.1, hcount.2.1, hcount.2.2, fun x c hx => ?_, fun x c hx => ?_⟩
  · rcases closer_of_step hs x with heq | ⟨c', hx', hw⟩ | ⟨c', -, hx', -⟩
    · exact (hmono c (h.wrapped x c (heq ▸ hx))).1
    · obtain rfl : c' = c := by simpa [hx'] using hx
      exact hw
    · simp [hx'] at hx
  · rcases closer_of_step hs x with heq | ⟨c', hx', -⟩ | ⟨c', -, hx', ho⟩
    · have hold := h.closed x c (heq ▸ hx)
      exact (hmono c ((h.ok c).wrapped hold)).2 hold
    · simp [hx'] at hx
    · obtain rfl : c' = c := by simpa [hx'] using hx
      exact ho

theorem inv_of_reach (hpos : 0 ≤ maxClients)
    (h : (system plain maxClients).Reach Lts.always s) : Inv maxClients s := by
  have hnone : ¬ Conn.Counted ⟨.idle, false, 0⟩ := by decide
  refine h.invariant ⟨.zero fun _ => hnone, ⟨0, .zero fun _ => mt .inr hnone, hpos⟩,
    fun _ => ⟨by simp [system], by simp [system]⟩, ?_, ?_⟩ fun _ _ _ _ hi _ hs => hi.step hs
  · intro x c hx
    simp [system] at hx
  · simp [system]

/-- **The ceiling on clients.**  In every reachable state at most `maxClients` connections hold a
slot.  No connection has given its slot back more than once, nor at all while it holds it.  One
that `handleConn` kept has given it back when the handler has returned, and one that was wrapped
when some `Close` of its wrapper has.  When nobody is on the way back out of `admit`, the counter is
the number of connections that hold a slot. -/
theorem client_ceiling (hpos : 0 ≤ maxClients)
    (h : (system plain maxClients).Reach Lts.always s) :
    (∃ m, Tally Conn.Holding s.conn m ∧ m ≤ maxClients) ∧
    (∀ c, (s.conn c).given ≤ 1) ∧
    (∀ c, (s.conn c).stage = .returned → (s.conn c).given = 1) ∧
    (∀ x c, s.closer x = .returned c → (s.conn c).given = 1) ∧
    (∀ c, (s.conn c).Holding → (s.conn c).given = 0) ∧
    ((∀ c, (s.conn c).stage ≠ .overflow) → Tally Conn.Holding s.conn s.clients) := by
  have hi := inv_of_reach hpos h
  refine ⟨hi.holding, fun c => ?_, fun c hc => ?_, fun x c hx => ?_, fun c hc => ?_, fun hno => ?_⟩
  · rw [(hi.ok c).given]
    split <;> simp
  · rw [(hi.ok c).given, if_pos (.inl hc)]
  · rw [(hi.ok c).given, if_pos (.inr (hi.closed x c hx))]
  · rw [(hi.ok c).given, if_neg]
    rintro (hr | ho)
    · simp [Conn.Holding, hr, Stage.kept, Stage.wrapped] at hc
    · have hw := (hi.ok c).wrapped ho
      rcases hc with hk | ⟨-, hn⟩
      · revert hk hw
        cases (s.conn c).stage <;> simp [Stage.kept, Stage.wrapped]
      · simp [ho] at hn
  · obtain ⟨F, hF, hcard⟩ := hi.counted
    exact ⟨F, fun c => (hF c).trans (by simp [Conn.Counted, hno c]), hcard⟩

/-- Two slots.  A connection to the plain port and one to an own host take them and are wrapped, and
a third is refused.  The second is closed twice and gives back one slot, which a fourth gets and
gives back after a challenge. -/
theorem client_ceiling_two_slots :
    ∃ s : State (Fin 4) (Fin 2), (system (fun c => decide (c = 0)) 2).Reach Lts.always s ∧
      (s.clients = 1 ∧ s.closer 0 = .returned 1 ∧ s.closer 1 = .returned 1) ∧
      (s.conn 1).given = 1 ∧ (s.conn 3).given = 1 ∧ Tally Conn.Holding s.conn 1 := by
  obtain ⟨s, hr, h⟩ := Lts.exists_reach_of_any
    (L := system (χ := Fin 2) (fun c : Fin 4 => decide (c = 0)) 2) (g := Lts.always)
    (l := [.count 0, .count 1, .pushed 0, .count 2, .wrap 1, .rollback 2, .pushed 1, .close 0 1,
      .close 1 1, .once 1, .count 3, .once 0, .challenge 3, .finish 3, .release 3])
    (P := fun s => (s.clients = 1 ∧ s.closer 0 = .returned 1 ∧ s.closer 1 = .returned 1) ∧
      (s.conn 3).stage = .returned ∧ ∀ c, (s.conn c).stage ≠ .overflow) (by decide +kernel)
  obtain ⟨-, -, hret, hclosed, -, hcount⟩ := client_ceiling (by decide) hr
  exact ⟨s, hr, h.1, hclosed 0 1 h.1.2.1, hret 3 h.2.1, h.1.1 ▸ hcount h.2.2⟩

end Step

end Tunneld.Clients

import Tunneld.Router.Registry
import Mathlib.Data.List.Nodup

/-!
# Who owns a route

Any number of callers make any calls of the registry on one name, in any order and interleaved
command by command, while the key may run out at any command.  Two things are assumed: that no two
`BindRoute` calls are given the same connection id, which is the guard `DistinctIds`, and that the
route lock is exclusive, which is how `Tunneld.Router.Registry` models it.

The history `bound` lists the connections in the order in which their `BindRoute` wrote the route,
and a connection is `Superseded` by those that come later.

* A superseded connection never touches the route of a later one; a self-heal never replaces a
  route that carries another id; `AddTraffic` never makes a name routable; and it is known which
  writes reset the byte counters.
* The counters follow the *route*, not the connection.  A connection whose route ran out starts
  again from zero when it heals it, and one whose route runs out after its locked read found it puts
  its id on whatever counters have appeared since.

## Main results

* `route_ownership` is the first of these, `counters_by_route_not_by_owner` the second.
-/

namespace Tunneld.Router.Ownership

variable {ν ι τ : Type} (cfg : Config)

/-! ## The system -/

/-- The calls in progress, and the history of the route. -/
structure State (ν ι τ : Type) where
  pool : Pool ν ι τ
  /-- The ids whose `BindRoute` has written the route, the latest first. -/
  bound : List ι
  /-- The ids `BindRoute` has been called with. -/
  used : List ι

/-- What can happen next. -/
inductive Act (ν ι τ : Type)
  | call (t : τ) (op : Op ν ι)
  | cmd (t : τ)
  | fail (t : τ)
  | lapse
  | tick (ms : Nat)

/-- The id a `BindRoute` is for. -/
def bindId : Op ν ι → List ι
  | .bindRoute _ conn => [conn]
  | _ => []

/-- The id that the write of a `BindRoute` puts on the route. -/
def bindWrite : Option (Call ν ι) → List ι
  | some ⟨.bindRoute _ conn, .set _⟩ => [conn]
  | _ => []

/-- The state after an action, if it is possible. -/
def step [DecidableEq ι] [DecidableEq τ] (s : State ν ι τ) : Act ν ι τ → Option (State ν ι τ)
  | .call t op => (s.pool.start t op).map fun p => { s with pool := p, used := bindId op ++ s.used }
  | .cmd t => (s.pool.cmd cfg t).map fun p =>
      { s with pool := p, bound := bindWrite (s.pool.calls t) ++ s.bound }
  | .fail t => (s.pool.fail t).map fun p => { s with pool := p }
  | .lapse => s.pool.lapse.map fun p => { s with pool := p }
  | .tick ms => some { s with pool := s.pool.tick ms }

/-- The calls on one name. -/
def system [DecidableEq ι] [DecidableEq τ] :
    Lts (State ν ι τ) (Act ν ι τ) := ⟨⟨.init, [], []⟩, step cfg⟩

/-- No two `BindRoute` calls are given the same id. -/
def DistinctIds (s : State ν ι τ) : Act ν ι τ → Prop
  | .call _ op => ∀ i ∈ bindId op, i ∉ s.used
  | _ => True

instance [DecidableEq ι] (s : State ν ι τ) (a : Act ν ι τ) : Decidable (DistinctIds s a) := by
  unfold DistinctIds; split <;> infer_instance

namespace State

/-- The hash. -/
def route (s : State ν ι τ) : Route ν ι := s.pool.store.route

/-- The connection `c` has bound the route, and `d` has bound it after `c`. -/
def Superseded (s : State ν ι τ) (c d : ι) : Prop :=
  ∃ later earlier, s.bound = later ++ d :: earlier ∧ c ∈ earlier

end State

/-! ## The invariant -/

/-- The id of a `BindRoute` that has not written the route yet. -/
def pending : Option (Call ν ι) → Option ι
  | some ⟨.bindRoute _ conn, .lock⟩ | some ⟨.bindRoute _ conn, .read⟩
  | some ⟨.bindRoute _ conn, .set _⟩ => some conn
  | _ => none

/-- **What is always true.**  An id is bound once: until its `BindRoute` writes, it is in no
history, and no other call can bring it there. -/
structure Inv (s : State ν ι τ) : Prop where
  pool : s.pool.Inv
  /-- No id is bound twice. -/
  nodup : s.bound.Nodup
  /-- A bound id was given to a `BindRoute`. -/
  used : ∀ i ∈ s.bound, i ∈ s.used
  /-- An id still to be bound is new to the history. -/
  pending : ∀ t i, pending (s.pool.calls t) = some i → i ∈ s.used ∧ i ∉ s.bound
  /-- It is the business of one caller. -/
  unique : ∀ t u i, Ownership.pending (s.pool.calls t) = some i →
    Ownership.pending (s.pool.calls u) = some i → t = u

theorem pending_of_mem_bindWrite {c : Option (Call ν ι)} {i : ι} (h : i ∈ bindWrite c) :
    pending c = some i := by
  unfold bindWrite at h
  split at h
  · rw [List.mem_singleton] at h; rw [h]; rfl
  · cases h

theorem nodup_bindWrite (c : Option (Call ν ι)) : (bindWrite c).Nodup := by
  unfold bindWrite
  split
  · exact List.nodup_singleton _
  · exact List.nodup_nil

theorem pending_start (op : Op ν ι) (i : ι) : pending (some op.start) = some i ↔ i ∈ bindId op := by
  cases op <;> simp [pending, Op.start, bindId, eq_comm]

/-- A command leaves a `BindRoute` before its write only if it was not the write. -/
theorem pending_next [DecidableEq ι] [DecidableEq τ] {cfg : Config} {st st' : Store ν ι τ} {t : τ}
    {c c' : Call ν ι} {i : ι} (h : c.next cfg st t = some (st', c'))
    (hp : pending (some c') = some i) : pending (some c) = some i ∧ bindWrite (some c) = [] := by
  obtain ⟨op, pc⟩ := c
  rcases Call.next_cases h with ⟨hpc, -, -, -, rfl⟩ | ⟨res, hpc, -, -, rfl⟩ | ⟨r, pc', hb, -, rfl⟩
  · subst hpc
    cases op <;> exact ⟨hp, rfl⟩
  · cases op <;> cases hp
  · cases op with
    | bindRoute node conn =>
      cases pc <;> simp only [Op.body, bindRoute, Option.some.injEq, Prod.mk.injEq, reduceCtorEq]
        at hb <;> obtain ⟨rfl, rfl⟩ := hb
      · refine ⟨?_, rfl⟩
        split at hp
        · cases hp
        · exact hp
      · cases hp
      · cases hp
    | bindRouteIfAbsentOrOwner | heartbeat | unbind | addTraffic => cases hp

variable {cfg} {s s' : State ν ι τ}

namespace Inv

variable {p : Pool ν ι τ} {t : τ}

/-- The calls move on, and the ids `w` of one of them are bound. -/
theorem advance {w : List ι} (h : Inv s) (hp : p.Inv) (hnd : w.Nodup)
    (hw : ∀ i ∈ w, Ownership.pending (s.pool.calls t) = some i)
    (hpend : ∀ u i, Ownership.pending (p.calls u) = some i →
      Ownership.pending (s.pool.calls u) = some i ∧ i ∉ w) :
    Inv { s with pool := p, bound := w ++ s.bound } where
  pool := hp
  nodup := hnd.append h.nodup fun i hi => (h.pending t i (hw i hi)).2
  used := fun i hi => (List.mem_append.1 hi).elim (fun hi => (h.pending t i (hw i hi)).1) (h.used i)
  pending := fun u i hu => by
    obtain ⟨hold, hnew⟩ := hpend u i hu
    obtain ⟨hused, hfresh⟩ := h.pending u i hold
    refine ⟨hused, fun hi => ?_⟩
    rcases List.mem_append.1 hi with hi | hi
    · exact hnew hi
    · exact hfresh hi
  unique := fun u v i hu hv => h.unique u v i (hpend u i hu).1 (hpend v i hv).1

variable [DecidableEq τ]

theorem call {op : Op ν ι} (h : Inv s) (hg : ∀ i ∈ bindId op, i ∉ s.used)
    (hs : s.pool.start t op = some p) : Inv { s with pool := p, used := bindId op ++ s.used } := by
  have hp : p.Inv := h.pool.start hs
  obtain ⟨-, rfl⟩ := Pool.start_cases hs
  -- a pending id is the new one, or belongs to another caller and was there before
  have hpend : ∀ u i, Ownership.pending ((s.pool.put t s.pool.store op.start).calls u) = some i →
      (u = t ∧ i ∈ bindId op) ∨ Ownership.pending (s.pool.calls u) = some i := by
    intro u i hu
    by_cases hut : u = t
    · subst hut
      rw [Pool.put_calls_self] at hu
      exact .inl ⟨rfl, (pending_start op i).1 hu⟩
    · rw [Pool.put_calls_of_ne hut] at hu
      exact .inr hu
  refine ⟨hp, h.nodup, fun i hi => List.mem_append.2 (.inr (h.used i hi)), fun u i hu => ?_,
    fun u v i hu hv => ?_⟩
  · rcases hpend u i hu with ⟨-, hi⟩ | hold
    · exact ⟨List.mem_append.2 (.inl hi), fun hb => hg i hi (h.used i hb)⟩
    · obtain ⟨h1, h2⟩ := h.pending u i hold
      exact ⟨List.mem_append.2 (.inr h1), h2⟩
  · rcases hpend u i hu with ⟨hut, hi⟩ | hu' <;> rcases hpend v i hv with ⟨hvt, hi'⟩ | hv'
    · exact hut.trans hvt.symm
    · exact absurd (h.pending v i hv').1 (hg i hi)
    · exact absurd (h.pending u i hu').1 (hg i hi')
    · exact h.unique u v i hu' hv'

theorem cmd [DecidableEq ι] (h : Inv s) (hs : s.pool.cmd cfg t = some p) :
    Inv { s with pool := p, bound := bindWrite (s.pool.calls t) ++ s.bound } := by
  have hp : p.Inv := h.pool.cmd hs
  obtain ⟨c, st', c', hc, hn, rfl⟩ := Pool.cmd_cases hs
  refine h.advance hp (nodup_bindWrite _) (fun i => pending_of_mem_bindWrite) fun u i hu => ?_
  by_cases hut : u = t
  · subst hut
    rw [Pool.put_calls_self] at hu
    obtain ⟨h1, h2⟩ := pending_next hn hu
    rw [hc, h2]
    exact ⟨h1, List.not_mem_nil⟩
  · rw [Pool.put_calls_of_ne hut] at hu
    exact ⟨hu, fun hi => hut (h.unique u t i hu (pending_of_mem_bindWrite hi))⟩

theorem fail (h : Inv s) (hs : s.pool.fail t = some p) : Inv { s with pool := p } := by
  have hp : p.Inv := h.pool.fail hs
  obtain ⟨c, hc, -, rfl⟩ := Pool.fail_cases hs
  refine h.advance (t := t) (w := []) hp List.nodup_nil (fun _ hi => nomatch hi) fun u i hu => ?_
  by_cases hut : u = t
  · subst hut
    rw [Pool.put_calls_self] at hu
    cases hop : c.op <;> rw [hop] at hu <;> split at hu <;> cases hu
  · rw [Pool.put_calls_of_ne hut] at hu
    exact ⟨hu, List.not_mem_nil⟩

omit [DecidableEq τ] in
theorem store (h : Inv s) (hp : p.Inv) (hc : p.calls = s.pool.calls) :
    Inv { s with pool := p } where
  pool := hp
  nodup := h.nodup
  used := h.used
  pending := hc ▸ h.pending
  unique := hc ▸ h.unique

theorem step [DecidableEq ι] {a : Act ν ι τ} (h : Inv s) (hg : DistinctIds s a)
    (hs : Ownership.step cfg s a = some s') : Inv s' := by
  cases a with
  | call t op =>
    obtain ⟨p, hp, rfl⟩ := Option.map_eq_some_iff.1 hs
    exact h.call hg hp
  | cmd t =>
    obtain ⟨p, hp, rfl⟩ := Option.map_eq_some_iff.1 hs
    exact h.cmd hp
  | fail t =>
    obtain ⟨p, hp, rfl⟩ := Option.map_eq_some_iff.1 hs
    exact h.fail hp
  | lapse =>
    obtain ⟨p, hp, rfl⟩ := Option.map_eq_some_iff.1 hs
    obtain ⟨-, rfl⟩ := Pool.lapse_cases hp
    exact h.store (h.pool.lapse hp) rfl
  | tick ms =>
    cases hs
    exact h.store (h.pool.tick ms) rfl

end Inv

theorem init_inv : Inv (⟨.init, [], []⟩ : State ν ι τ) where
  pool := Pool.init_inv
  nodup := List.nodup_nil
  used := fun _ hi => nomatch hi
  pending := fun _ _ hi => nomatch hi
  unique := fun _ _ _ hi => nomatch hi

theorem inv_of_reach [DecidableEq ι] [DecidableEq τ] (h : (system cfg).Reach DistinctIds s) :
    Inv s :=
  Lts.Reach.invariant init_inv (fun _ _ _ _ hi hg hs => hi.step hg hs) h

/-! ## Ownership -/

theorem mem_of_superseded {c d : ι} (h : s.Superseded c d) : c ∈ s.bound := by
  obtain ⟨later, earlier, he, hc⟩ := h
  rw [he]
  exact List.mem_append.2 (.inr (List.mem_cons_of_mem _ hc))

theorem Inv.ne_of_superseded {c d : ι} (h : Inv s) (hs : s.Superseded c d) : c ≠ d := by
  obtain ⟨later, earlier, he, hc⟩ := hs
  have hnd : (d :: earlier).Nodup := by
    have hall := h.nodup
    rw [he] at hall
    exact hall.of_append_right
  rintro rfl
  exact (List.nodup_cons.1 hnd).1 hc

variable [DecidableEq ι] [DecidableEq τ]

/-- What one command of a call does to the route, seen from the state. -/
theorem cmd_next {t : τ} {c : Call ν ι} (hc : s.pool.calls t = some c)
    (hs : step cfg s (.cmd t) = some s') :
    ∃ c', c.next cfg s.pool.store t = some (s'.pool.store, c') := by
  obtain ⟨p, hp, rfl⟩ := Option.map_eq_some_iff.1 hs
  obtain ⟨d, st', c', hd, hn, rfl⟩ := Pool.cmd_cases hp
  obtain rfl : c = d := Option.some_inj.1 (hc.symm.trans hd)
  exact ⟨c', hn⟩

/-- Nothing but a command writes to the hash. -/
theorem route_of_not_cmd {a : Act ν ι τ} (ha : ∀ t, a ≠ .cmd t) (hs : step cfg s a = some s') :
    s'.route = s.route ∨ s'.route = .absent := by
  cases a with
  | cmd t => exact absurd rfl (ha t)
  | call t op =>
    obtain ⟨p, hp, rfl⟩ := Option.map_eq_some_iff.1 hs
    obtain ⟨-, rfl⟩ := Pool.start_cases hp
    exact .inl rfl
  | fail t =>
    obtain ⟨p, hp, rfl⟩ := Option.map_eq_some_iff.1 hs
    obtain ⟨c, -, -, rfl⟩ := Pool.fail_cases hp
    exact .inl rfl
  | lapse =>
    obtain ⟨p, hp, rfl⟩ := Option.map_eq_some_iff.1 hs
    obtain ⟨-, rfl⟩ := Pool.lapse_cases hp
    exact .inr rfl
  | tick ms =>
    cases hs
    exact .inl rfl

section Commands

variable {t : τ} {c : Call ν ι}

/-- A write or a delete on a route that carries another id is the write of a `BindRoute`. -/
theorem bindRoute_of_not_sameOwner {x e : ι} (h : Inv s) (hc : s.pool.calls t = some c)
    (hs : step cfg s (.cmd t) = some s') (hx : s.route.connID = some x) (he : c.op.conn = some e)
    (hne : x ≠ e) (hchange : ¬ s.route.SameOwner s'.route) :
    ∃ node reset, c = ⟨.bindRoute node e, .set reset⟩ := by
  obtain ⟨c', hn⟩ := cmd_next hc hs
  have hk : c.Knows s.route := h.pool.knows t c hc
  obtain ⟨op, pc⟩ := c
  rcases Call.next_owner hn with
    ⟨node, conn, reset, ⟨hpc, hop | hop⟩, -, -⟩ | ⟨conn, hd, -, -⟩ | hsame
  · cases hpc; cases hop; cases he
    exact ⟨node, reset, rfl⟩
  · cases hpc; cases hop; cases he
    have hown := Call.knows_selfHeal rfl rfl hk
    split at hown
    · rw [hx] at hown; cases hown
    · exact absurd (hown x hx) hne
  · have hown := hd.knows hk x hx
    cases hd; cases he
    exact absurd hown hne
  · exact absurd hsame hchange

/-- A superseded connection never touches the route of a later one. -/
theorem sameOwner_of_superseded {e d : ι} (h : Inv s) (hc : s.pool.calls t = some c)
    (hs : step cfg s (.cmd t) = some s') (he : c.op.conn = some e) (hsup : s.Superseded e d)
    (hd : s.route.connID = some d) : s.route.SameOwner s'.route := by
  by_contra hchange
  obtain ⟨node, reset, rfl⟩ :=
    bindRoute_of_not_sameOwner h hc hs hd he (h.ne_of_superseded hsup).symm hchange
  -- a `BindRoute` that has yet to write has not been superseded
  have hpend : pending (s.pool.calls t) = some e := by rw [hc]; rfl
  exact (h.pending t e hpend).2 (mem_of_superseded hsup)

theorem sameOwner_addTraffic {bytesIn bytesOut : Int} (hc : s.pool.calls t = some c)
    (hs : step cfg s (.cmd t) = some s') (hop : c.op = .addTraffic bytesIn bytesOut) :
    s.route.SameOwner s'.route := by
  obtain ⟨c', hn⟩ := cmd_next hc hs
  rcases Call.next_owner hn with ⟨_, _, _, ⟨-, h | h⟩, -, -⟩ | ⟨_, hd, -, -⟩ | hsame
  · rw [hop] at h; cases h
  · rw [hop] at h; cases h
  · rw [hd] at hop; cases hop
  · exact hsame

/-- The counters change by a reset that comes with a new owner, by the `DEL`, and by
`AddTraffic`. -/
theorem bytes_cmd (h : Inv s) (hc : s.pool.calls t = some c)
    (hs : step cfg s (.cmd t) = some s') :
    s.route.SameBytes s'.route ∨ s'.route = .absent ∨
    (∃ bytesIn bytesOut, c.op = .addTraffic bytesIn bytesOut ∧
      (s'.route = s.route.addBytesIn bytesIn ∨ s'.route = s.route.addBytesOut bytesOut)) ∨
    (∃ node conn, c.Writes node conn true ∧ s'.route = s.route.bindHSet node conn true ∧
      s.route.connID ≠ some conn) := by
  obtain ⟨c', hn⟩ := cmd_next hc hs
  have hk : c.Knows s.route := h.pool.knows t c hc
  rcases Call.next_bytes hn with ⟨node, conn, hw, hr⟩ | ⟨conn, -, hr⟩ | hadd | hsame
  · refine .inr (.inr (.inr ⟨node, conn, hw, hr, ?_⟩))
    rcases hw.2 with hop | hop
    · exact (Call.knows_bindRoute hop hw.1 hk).2
    · have hnone : s.route.connID = none := Call.knows_selfHeal hop hw.1 hk
      simp [hnone]
  · exact .inr (.inl hr)
  · exact .inr (.inr (.inl hadd))
  · exact .inl hsame

/-- A new owner starts from zero, unless it is a self-heal that had found its own route. -/
theorem bytes_of_new_owner {e : ι} (h : Inv s) (hc : s.pool.calls t = some c)
    (hs : step cfg s (.cmd t) = some s') (hnew : s'.route.connID = some e)
    (hold : s.route.connID ≠ some e) :
    (s'.route.bytesIn = some 0 ∧ s'.route.bytesOut = some 0) ∨
    (s.route.connID = none ∧ ∃ node, c = ⟨.bindRouteIfAbsentOrOwner node e, .set false⟩) := by
  obtain ⟨c', hn⟩ := cmd_next hc hs
  have hk : c.Knows s.route := h.pool.knows t c hc
  obtain ⟨op, pc⟩ := c
  rcases Call.next_owner hn with ⟨node, conn, reset, hw, hr, -⟩ | ⟨conn, -, hr, -⟩ | hsame
  · have hr' : s'.route = s.route.bindHSet node conn reset := hr
    obtain rfl : conn = e := by
      rw [hr'] at hnew
      exact Option.some_inj.1 hnew
    cases reset with
    | true => rw [hr']; exact .inl ⟨rfl, rfl⟩
    | false =>
      obtain ⟨hpc, hop | hop⟩ := hw
      · exact absurd (Call.knows_bindRoute hop hpc hk).1 (by simp)
      · have hown : ∀ x ∈ s.route.connID, x = conn := Call.knows_selfHeal hop hpc hk
        refine .inr ⟨?_, node, by cases hop; cases hpc; rfl⟩
        cases hcid : s.route.connID with
        | none => rfl
        | some x => exact absurd (hown x hcid ▸ hcid) hold
  · have hr' : s'.route = .absent := hr
    rw [hr'] at hnew
    cases hnew
  · exact absurd (hsame.2.symm.trans hnew) hold

end Commands

/-- **Who owns a route.**  In every reachable state, a command of a call `c`

* of a superseded connection leaves the route of a later connection alone;
* of a self-heal leaves a route with another id alone;
* of `AddTraffic` never makes a name routable that was not;
* changes the byte counters only as `AddTraffic` does, by deleting the key, or by zeroing them in a
  write that puts a new id on the route; every write that puts a new id on the route zeroes them,
  except the write of a self-heal whose locked read found its own id, which never does.

Nothing else touches the key but the end of its time to live. -/
theorem route_ownership (hr : (system cfg).Reach DistinctIds s) :
    (∀ a s', step cfg s a = some s' → (∀ t, a ≠ .cmd t) →
      s'.route = s.route ∨ s'.route = .absent) ∧
    ∀ t c s', s.pool.calls t = some c → step cfg s (.cmd t) = some s' →
      (∀ e d, c.op.conn = some e → s.Superseded e d → s.route.connID = some d →
        s.route.SameOwner s'.route) ∧
      (∀ node e x, c.op = .bindRouteIfAbsentOrOwner node e → s.route.connID = some x → x ≠ e →
        s.route.SameOwner s'.route) ∧
      (∀ bytesIn bytesOut, c.op = .addTraffic bytesIn bytesOut → s.route.lookupRoute = none →
        s'.route.lookupRoute = none) ∧
      (∀ e, s'.route.connID = some e → s.route.connID ≠ some e →
        (s'.route.bytesIn = some 0 ∧ s'.route.bytesOut = some 0) ∨
        (s.route.connID = none ∧ ∃ node, c = ⟨.bindRouteIfAbsentOrOwner node e, .set false⟩)) ∧
      (∀ node e, c = ⟨.bindRouteIfAbsentOrOwner node e, .set false⟩ →
        s.route.SameBytes s'.route) ∧
      (s.route.SameBytes s'.route ∨ s'.route = .absent ∨
        (∃ bytesIn bytesOut, c.op = .addTraffic bytesIn bytesOut ∧
          (s'.route = s.route.addBytesIn bytesIn ∨ s'.route = s.route.addBytesOut bytesOut)) ∨
        (∃ node e, c.Writes node e true ∧ s'.route = s.route.bindHSet node e true ∧
          s.route.connID ≠ some e)) := by
  have h : Inv s := inv_of_reach hr
  refine ⟨fun a s' hs ha => route_of_not_cmd ha hs, fun t c s' hc hs => ?_⟩
  refine ⟨?_, ?_, ?_, ?_, ?_, bytes_cmd h hc hs⟩
  · intro e d he hsup hd
    exact sameOwner_of_superseded h hc hs he hsup hd
  · intro node e x hop hx hne
    by_contra hchange
    obtain ⟨_, _, rfl⟩ :=
      bindRoute_of_not_sameOwner h hc hs hx (by rw [hop]; rfl) hne hchange
    cases hop
  · intro bytesIn bytesOut hop hnone
    rw [(sameOwner_addTraffic hc hs hop).lookupRoute]
    exact hnone
  · intro e hnew hold
    exact bytes_of_new_owner h hc hs hnew hold
  · rintro node e rfl
    obtain ⟨c', hn⟩ := cmd_next hc hs
    rcases Call.next_bytes hn with ⟨_, _, hw, -⟩ | ⟨_, hd, -⟩ | ⟨_, _, hop, -⟩ | hsame
    · cases hw.1
    · cases hd
    · cases hop
    · exact hsame

/-- A route lives ten milliseconds, and so does a hash of counters. -/
def tenMs : Config := ⟨10, 10⟩

/-- All commands of an undisturbed `BindRoute`. -/
def bindRouteRun {ν ι τ : Type} (t : τ) (node : ν) (conn : ι) : List (Act ν ι τ) :=
  [.call t (.bindRoute node conn), .cmd t, .cmd t, .cmd t, .cmd t, .cmd t]

/-- All commands of an undisturbed `AddTraffic` of five bytes. -/
def addFiveRun {ν ι τ : Type} (t : τ) : List (Act ν ι τ) :=
  [.call t (.addTraffic 5 0), .cmd t, .cmd t, .cmd t]

/-- Connection `2` takes the route over from `1`, and `1` then unbinds. -/
theorem unbind_of_superseded : ∃ s s' : State (Fin 2) (Fin 3) (Fin 2),
    s.Superseded 1 2 ∧ s.route.connID = some 2 ∧ step tenMs s (.cmd 0) = some s' ∧
      s.route.SameOwner s'.route := by
  obtain ⟨s, s', hrun, hbound, hcall, hroute, hs⟩ : ∃ s s' : State (Fin 2) (Fin 3) (Fin 2),
      (system tenMs).execWith DistinctIds (system tenMs).init
        (bindRouteRun 0 0 1 ++ bindRouteRun 1 1 2 ++ [Act.call 0 (.unbind 1), .cmd 0]) = some s ∧
      s.bound = [2, 1] ∧ s.pool.calls 0 = some ⟨.unbind 1, .read⟩ ∧ s.route.connID = some 2 ∧
      step tenMs s (.cmd 0) = some s' := ⟨_, _, rfl, rfl, rfl, rfl, rfl⟩
  have hsup : s.Superseded 1 2 := ⟨[], [1], hbound, by decide⟩
  have hown := (route_ownership (Lts.reach_of_execWith hrun)).2 0 _ _ hcall hs
  exact ⟨s, s', hsup, hroute, hs, hown.1 1 2 rfl hsup hroute⟩

/-- **The counters follow the route, not the connection.**  In the first run the route of `1` runs
out, five bytes are counted on the orphan, and `1`, the only connection there ever was, zeroes them
when it heals the route.  In the second the route runs out after the locked read of the self-heal
has found it: the write then puts `1` on a hash without an owner, and the five bytes counted there
stay. -/
theorem counters_by_route_not_by_owner :
    (∃ s s' : State (Fin 1) (Fin 2) (Fin 2), (system tenMs).Reach DistinctIds s ∧
      s.bound = [1] ∧ s.pool.calls 0 = some ⟨.bindRouteIfAbsentOrOwner 0 1, .set true⟩ ∧
      s.route.bytesIn = some 5 ∧ step tenMs s (.cmd 0) = some s' ∧
      s'.route.connID = some 1 ∧ s'.route.bytesIn = some 0) ∧
    (∃ s s' : State (Fin 1) (Fin 2) (Fin 2), (system tenMs).Reach DistinctIds s ∧
      s.route.connID = none ∧ s.route.bytesIn = some 5 ∧ step tenMs s (.cmd 0) = some s' ∧
      s'.route.connID = some 1 ∧ s'.route.bytesIn = some 5) := by
  refine ⟨⟨_, _, Lts.reach_of_execWith (l := bindRouteRun 0 0 1 ++ [Act.tick 11, .lapse] ++
      addFiveRun 1 ++ [Act.call 0 (.bindRouteIfAbsentOrOwner 0 1), .cmd 0, .cmd 0]) rfl,
      rfl, rfl, rfl, rfl, rfl, rfl⟩,
    ⟨_, _, Lts.reach_of_execWith (l := bindRouteRun 0 0 1 ++ [Act.tick 10,
      .call 0 (.bindRouteIfAbsentOrOwner 0 1), .cmd 0, .cmd 0, .tick 1, .lapse] ++
      addFiveRun 1) rfl, rfl, rfl, rfl, rfl, rfl⟩⟩

end Tunneld.Router.Ownership

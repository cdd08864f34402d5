import Tunneld.PhoneConn.Steps

/-!
# The map of a node

`Manager.register` holds the lock of the name from before its `BindRoute` until after the entry
into the map, "so a concurrent same-name bind can never leave the Valkey owner different from the
local winner".  What the lock buys is an order: the connections of a node are entered in the order
in which their `BindRoute`s wrote, so the one in the map is always the last of those that were
entered.

`MapInv` is that order, together with what it rests on: who holds the lock, and a connection that
has bound and is not yet entered being newer than every connection of its node that is.

## Main results

* `MapInv.step`: every step keeps the order;
* `map_newest`: the connection in the map of a node has bound last of all that were entered there.
-/

namespace Tunneld.PhoneConn

open Function Router

variable {κ ν ι : Type}
variable {cfg : Router.Config} (node : κ → ν) {s s₁ s' : State κ ν ι} {c : κ} {x : Conn ι}

namespace Phase

/-- `register` has the lock of the name. -/
def locked : Phase → Bool
  | .binding _ | .bound | .entered | .unbinding true => true
  | _ => false

/-- `register` has the lock and has not entered the connection. -/
def binds : Phase → Bool
  | .binding _ | .bound => true
  | _ => false

/-- The connection may be in the map. -/
def mapped : Phase → Bool
  | .entered | .serving | .closing => true
  | _ => false

/-- The connection has been entered into the map. -/
def past : Phase → Bool
  | .entered | .serving | .closing | .unbinding _ | .finished _ => true
  | _ => false

theorem locked_of_binds {ph : Phase} (h : ph.binds = true) : ph.locked = true := by
  cases ph <;> first | rfl | cases h

theorem rank_of_past {ph : Phase} (h : ph.past = true) : 4 ≤ ph.rank ∧ ph.rank ≤ 8 := by
  cases ph <;> simp_all [rank, past]

theorem past_of_mapped {ph : Phase} (h : ph.mapped = true) : ph.past = true := by
  cases ph <;> first | rfl | cases h

/-- Going from `p` to `q` takes no lock and leaves the map as it is. -/
structure Stays (p q : Phase) : Prop where
  locked : q.locked = true → p.locked = true
  mapped : p.mapped = true → q.mapped = true
  past : q.past = true → p.past = true
  binds : q.binds = true → p.binds = true

end Phase

/-- **What is always true of the maps.** -/
structure MapInv (s : State κ ν ι) : Prop where
  mu : ∀ c, (s.conn c).phase.locked = true → s.bindMu (node c) = some c
  entry : ∀ n c, s.conns n = some c → node c = n ∧ (s.conn c).phase.mapped = true
  /-- The connection in the map is the newest of those that have been entered. -/
  newest : ∀ c d, s.conns (node c) = some c → node d = node c → (s.conn d).phase.past = true →
    (s.conn d).seq ≤ (s.conn c).seq
  /-- A connection that has bound and is still to be entered is newer than all of them. -/
  pending : ∀ c d, (s.conn c).phase.binds = true → (s.conn c).seq ≠ 0 → node d = node c →
    (s.conn d).phase.past = true → (s.conn d).seq < (s.conn c).seq

variable {node}

namespace MapInv

/-- Two connections of a node cannot both have its lock. -/
theorem unique {d : κ} (h : MapInv node s) (hc : (s.conn c).phase.locked = true)
    (hd : (s.conn d).phase.locked = true) (hn : node d = node c) : d = c := by
  have h1 := h.mu c hc
  have h2 := h.mu d hd
  rw [hn, h1] at h2
  exact (Option.some_inj.1 h2).symm

variable [DecidableEq κ]

theorem move (h : MapInv node s) (hothers : ∀ d, d ≠ c → s'.conn d = s.conn d)
    (hseq : (s'.conn c).seq = (s.conn c).seq)
    (hconns : ∀ n d, s'.conns n = some d → s.conns n = some d)
    (hmu : ∀ d, (s'.conn d).phase.locked = true → s'.bindMu (node d) = some d)
    (hmapped : s'.conns (node c) = some c → (s'.conn c).phase.mapped = true)
    (hpast : (s'.conn c).phase.past = true → (s.conn c).phase.past = true)
    (hbinds : (s'.conn c).phase.binds = true → (s.conn c).seq ≠ 0 →
      (s.conn c).phase.binds = true) : MapInv node s' := by
  have hseq' : ∀ d, (s'.conn d).seq = (s.conn d).seq := fun d => by
    by_cases hd : d = c
    · rw [hd, hseq]
    · rw [hothers d hd]
  have hpast' : ∀ d, (s'.conn d).phase.past = true → (s.conn d).phase.past = true := fun d hp => by
    by_cases hd : d = c
    · subst hd; exact hpast hp
    · rwa [hothers d hd] at hp
  refine ⟨hmu, fun n d hn => ?_, fun a d ha hn hp => ?_, fun a d ha hne hn hp => ?_⟩
  · obtain ⟨hnode, hm⟩ := h.entry n d (hconns n d hn)
    refine ⟨hnode, ?_⟩
    by_cases hd : d = c
    · subst hd
      rw [← hnode] at hn
      exact hmapped hn
    · rw [hothers d hd]; exact hm
  · rw [hseq', hseq']
    exact h.newest a d (hconns _ _ ha) hn (hpast' d hp)
  · rw [hseq'] at hne
    rw [hseq', hseq']
    refine h.pending a d ?_ hne hn (hpast' d hp)
    by_cases hac : a = c
    · subst hac; exact hbinds ha hne
    · rwa [hothers a hac] at ha

theorem stay {p : Phase} (h : MapInv node s) (hp : (s.conn c).phase = p)
    (hconn : s'.conn = (s.set c x).conn) (hxseq : x.seq = (s.conn c).seq)
    (hconns : s'.conns = s.conns) (hbindMu : s'.bindMu = s.bindMu) (hx : p.Stays x.phase) :
    MapInv node s' := by
  subst hp
  have hself : s'.conn c = x := by rw [hconn, conn_set_self]
  have hothers : ∀ d, d ≠ c → s'.conn d = s.conn d := fun d hd => by
    rw [hconn, conn_set_of_ne _ _ hd]
  refine h.move hothers (by rw [hself, hxseq]) (fun n d hn => hconns ▸ hn) (fun d hd => ?_)
    (fun hc => ?_) (by rw [hself]; exact hx.past) fun hb _ => hx.binds (by rwa [hself] at hb)
  · rw [hbindMu]
    refine h.mu d ?_
    by_cases hdc : d = c
    · subst hdc
      exact hx.locked (by rwa [hself] at hd)
    · rwa [hothers d hdc] at hd
  · rw [hself]
    exact hx.mapped (h.entry _ _ (hconns ▸ hc)).2

omit [DecidableEq κ] in
theorem congr (h : MapInv node s) (hphase : ∀ d, (s'.conn d).phase = (s.conn d).phase)
    (hseq : ∀ d, (s'.conn d).seq = (s.conn d).seq) (hconns : s'.conns = s.conns)
    (hbindMu : s'.bindMu = s.bindMu) : MapInv node s' where
  mu := fun d hd => by rw [hphase] at hd; rw [hbindMu]; exact h.mu d hd
  entry := fun n d hn => by rw [hconns] at hn; rw [hphase]; exact h.entry n d hn
  newest := fun a d ha hn hd => by
    rw [hconns] at ha
    rw [hphase] at hd
    rw [hseq, hseq]
    exact h.newest a d ha hn hd
  pending := fun a d ha hne hn hd => by
    rw [hphase] at ha hd
    rw [hseq] at hne
    rw [hseq, hseq]
    exact h.pending a d ha hne hn hd

theorem same_phase (h : MapInv node s) (hconn : s'.conn = (s.set c x).conn)
    (hx : x.phase = (s.conn c).phase) (hxseq : x.seq = (s.conn c).seq)
    (hconns : s'.conns = s.conns) (hbindMu : s'.bindMu = s.bindMu) : MapInv node s' := by
  refine h.congr (fun d => ?_) (fun d => ?_) hconns hbindMu <;> rw [hconn] <;>
    rcases conn_set s c x d with ⟨rfl, he⟩ | ⟨-, he⟩ <;> rw [he]
  · exact hx
  · exact hxseq

variable [DecidableEq ν]

theorem release {ph : Phase} (h : MapInv node s) (hc : (s.conn c).phase.locked = true)
    (hx : x.phase = ph) (hph : ph.locked = false) (hseq : x.seq = (s.conn c).seq)
    (hmapped : (s.conn c).phase.mapped = true → ph.mapped = true)
    (hpast : ph.past = true → (s.conn c).phase.past = true) :
    MapInv node ((s.setMu (node c) none).set c x) := by
  have hbinds : ph.binds = false := by
    cases hb : ph.binds with
    | false => rfl
    | true => rw [Phase.locked_of_binds hb] at hph; cases hph
  have hself : ((s.setMu (node c) none).set c x).conn c = x := conn_set_self ..
  refine h.move (c := c) (fun d hd => conn_set_of_ne _ _ hd) (by rw [hself, hseq])
    (fun n d hn => hn) (fun d hd => ?_) (fun hin => ?_) ?_ ?_
  · rcases conn_set (s.setMu (node c) none) c x d with ⟨rfl, he⟩ | ⟨hne, he⟩ <;> rw [he] at hd
    · rw [hx, hph] at hd; cases hd
    · have hnode : node d ≠ node c := fun hn => hne (h.unique hc hd hn)
      show update s.bindMu (node c) none (node d) = some d
      rw [update_of_ne hnode]
      exact h.mu d hd
  · rw [hself, hx]; exact hmapped (h.entry _ _ hin).2
  · rw [hself, hx]; exact hpast
  · rw [hself, hx, hbinds]; exact fun hb => nomatch hb

theorem lock (h : MapInv node s) (hi : Inv node s) (hp : (s.conn c).phase = .waiting)
    (hfree : s.bindMu (node c) = none) (hconn : s'.conn = (s.set c x).conn)
    (hx : x.phase = .binding 0) (hxseq : x.seq = (s.conn c).seq) (hconns : s'.conns = s.conns)
    (hmu : s'.bindMu = update s.bindMu (node c) (some c)) : MapInv node s' := by
  have hseq : (s.conn c).seq = 0 := (hi.wf c).early (by rw [hp]; decide)
  have hself : s'.conn c = x := by rw [hconn, conn_set_self]
  refine h.move (c := c) (fun d hd => by rw [hconn, conn_set_of_ne _ _ hd]) (by rw [hself, hxseq])
    (fun n d hn => hconns ▸ hn) (fun d hd => ?_) (fun hin => ?_) ?_ fun _ hne => absurd hseq hne
  · rw [hmu]
    by_cases hdc : d = c
    · rw [hdc, update_self]
    · rw [hconn, conn_set_of_ne _ _ hdc] at hd
      have hold := h.mu d hd
      have hn : node d ≠ node c := fun hn => by rw [hn, hfree] at hold; cases hold
      rw [update_of_ne hn]; exact hold
  · rw [hconns] at hin
    have hm := (h.entry _ _ hin).2
    rw [hp] at hm; cases hm
  · rw [hself, hx]; exact fun hc => nomatch hc

theorem conns_remove {n : ν} {d : κ} (h : MapInv node s)
    (hn : (s.remove node c).conns n = some d) : s.conns n = some d ∧ d ≠ c := by
  rw [State.remove] at hn
  split at hn
  · have hn' : update s.conns (node c) none n = some d := hn
    by_cases he : n = node c
    · rw [he, update_self] at hn'; cases hn'
    · rw [update_of_ne he] at hn'
      exact ⟨hn', fun hd => he ((h.entry n d hn').1 ▸ hd ▸ rfl)⟩
  · rename_i hno
    refine ⟨hn, fun hd => hno ?_⟩
    rw [← hd, (h.entry n d hn).1]; exact hn

theorem unbind {b : Bool} (h : MapInv node s) (hc : (s.conn c).phase.past = true)
    (hl : b = true → (s.conn c).phase.locked = true) (hconn : s'.conn = (s.set c x).conn)
    (hx : x.phase = .unbinding b) (hseq : x.seq = (s.conn c).seq)
    (hconns : s'.conns = (s.remove node c).conns) (hmu : s'.bindMu = s.bindMu) :
    MapInv node s' := by
  have hself : s'.conn c = x := by rw [hconn, conn_set_self]
  refine h.move (c := c) (fun d hd => by rw [hconn, conn_set_of_ne _ _ hd]) (by rw [hself, hseq])
    (fun n d hn => (h.conns_remove (c := c) (hconns ▸ hn)).1) (fun d hd => ?_) (fun hin => ?_)
    (fun _ => hc) ?_
  · rw [hmu]
    refine h.mu d ?_
    by_cases hdc : d = c
    · subst hdc
      rw [hself, hx] at hd
      cases b with
      | true => exact hl rfl
      | false => cases hd
    · rwa [hconn, conn_set_of_ne _ _ hdc] at hd
  · rw [hconns] at hin
    exact absurd rfl (h.conns_remove hin).2
  · rw [hself, hx]; exact fun hb => nomatch hb

/-- **A connection is entered**: it is newer than all that were. -/
theorem enter (h : MapInv node s) (hi : Inv node s) (hp : (s.conn c).phase = .bound)
    (hphase : ∀ d, d ≠ c → (s'.conn d).phase = (s.conn d).phase)
    (hself : (s'.conn c).phase = .entered) (hseq : ∀ d, (s'.conn d).seq = (s.conn d).seq)
    (hconns : s'.conns = update s.conns (node c) (some c)) (hmu : s'.bindMu = s.bindMu) :
    MapInv node s' := by
  have hne : (s.conn c).seq ≠ 0 := (hi.wf c).late (by rw [hp]; decide) (by rw [hp]; decide)
  have hlock : (s.conn c).phase.locked = true := by rw [hp]; rfl
  have hpend : (s.conn c).phase.binds = true := by rw [hp]; rfl
  have hin : ∀ n d, s'.conns n = some d →
      (n = node c ∧ d = c) ∨ (n ≠ node c ∧ s.conns n = some d) := fun n d hn => by
    rw [hconns] at hn
    by_cases he : n = node c
    · rw [he, update_self] at hn
      exact .inl ⟨he, (Option.some_inj.1 hn).symm⟩
    · exact .inr ⟨he, by rwa [update_of_ne he] at hn⟩
  refine ⟨fun d hd => ?_, fun n d hn => ?_, fun a d ha hn hd => ?_, fun a d ha hne' hn hd => ?_⟩
  · rw [hmu]
    by_cases hdc : d = c
    · rw [hdc]; exact h.mu c hlock
    · rw [hphase d hdc] at hd; exact h.mu d hd
  · rcases hin n d hn with ⟨rfl, rfl⟩ | ⟨hnn, hold⟩
    · exact ⟨rfl, by rw [hself]; rfl⟩
    · obtain ⟨hnode, hm⟩ := h.entry n d hold
      have hdc : d ≠ c := fun he => hnn (by rw [← hnode, he])
      exact ⟨hnode, by rw [hphase d hdc]; exact hm⟩
  · rw [hseq, hseq]
    rcases hin _ a ha with ⟨-, rfl⟩ | ⟨hnn, hold⟩
    · by_cases hdc : d = a
      · exact Nat.le_of_eq (by rw [hdc])
      · rw [hphase d hdc] at hd
        exact Nat.le_of_lt (h.pending a d hpend hne hn hd)
    · have hdc : d ≠ c := fun he => hnn (by rw [← hn, he])
      rw [hphase d hdc] at hd
      exact h.newest a d hold hn hd
  · have hac : a ≠ c := fun he => by rw [he, hself] at ha; cases ha
    rw [hphase a hac] at ha
    rw [hseq] at hne'
    rw [hseq, hseq]
    -- nobody else of the node can be binding while `c` has the lock
    have hdc : d ≠ c := fun he => hac (h.unique hlock (Phase.locked_of_binds ha) (by rw [← hn, he]))
    rw [hphase d hdc] at hd
    exact h.pending a d ha hne' hn hd

omit [DecidableEq ν] in
/-- **A `BindRoute` writes**: the connection becomes the newest of all. -/
theorem bind {k : Nat} (h : MapInv node s) (hi : Inv node s) (hp : (s.conn c).phase = .binding k)
    (hconn : s'.conn = update s.conn c { s.conn c with seq := s.writes + 1 })
    (hconns : s'.conns = s.conns) (hmu : s'.bindMu = s.bindMu) : MapInv node s' := by
  have hphase : ∀ d, (s'.conn d).phase = (s.conn d).phase := fun d => by
    rw [hconn]
    by_cases hd : d = c
    · rw [hd, update_self]
    · rw [update_of_ne hd]
  have hseq : ∀ d, d ≠ c → (s'.conn d).seq = (s.conn d).seq := fun d hd => by
    rw [hconn, update_of_ne hd]
  have hnot : ∀ d, (s.conn d).phase.past = true → d ≠ c := fun d hd he => by
    rw [he, hp] at hd; cases hd
  refine ⟨fun d hd => ?_, fun n d hn => ?_, fun a d ha hn hd => ?_, fun a d ha hne hn hd => ?_⟩
  · rw [hmu]; exact h.mu d (by rwa [hphase] at hd)
  · rw [hphase]; exact h.entry n d (hconns ▸ hn)
  · rw [hphase] at hd
    rw [hconns] at ha
    rw [hseq d (hnot d hd), hseq a (hnot a (Phase.past_of_mapped (h.entry _ _ ha).2))]
    exact h.newest a d ha hn hd
  · rw [hphase] at hd ha
    rw [hseq d (hnot d hd)]
    by_cases hac : a = c
    · rw [hac, hconn, update_self]
      exact Nat.lt_succ_of_le (hi.seq_le d)
    · rw [hseq a hac] at hne ⊢
      exact h.pending a d ha hne hn hd

end MapInv

/-! ## Any step -/

variable [DecidableEq κ]

theorem call_fields {t : Who κ} {op : Op ν ι} (hs : s₁.call t op x = some s') :
    s'.conn = (s₁.set t.conn x).conn ∧ s'.conns = s₁.conns ∧ s'.bindMu = s₁.bindMu := by
  obtain ⟨p, -, rfl⟩ := Option.map_eq_some_iff.1 hs
  exact ⟨rfl, rfl, rfl⟩

theorem phase_set (hx : x.phase = (s.conn c).phase) (d : κ) :
    ((s.set c x).conn d).phase = (s.conn d).phase := by
  rcases conn_set s c x d with ⟨rfl, he⟩ | ⟨-, he⟩ <;> rw [he]
  exact hx

/-- A command leaves the phases, the maps and the locks alone. -/
theorem ran_fields (s : State κ ν ι) (t : Who κ) (p : Pool ν ι (Who κ)) :
    (∀ d, ((s.ran t p).conn d).phase = (s.conn d).phase) ∧ (s.ran t p).conns = s.conns ∧
      (s.ran t p).bindMu = s.bindMu := by
  rw [State.ran.eq_def]
  split
  · exact ⟨phase_set rfl, rfl, rfl⟩
  · exact ⟨fun _ => rfl, rfl, rfl⟩
  · exact ⟨phase_set rfl, rfl, rfl⟩
  · exact ⟨fun _ => rfl, rfl, rfl⟩

/-- Closing the connection in the map leaves the phases, the numbers and the locks alone. -/
theorem supersede_fields (s : State κ ν ι) (n : ν) :
    (∀ d, ((s.supersede n).conn d).phase = (s.conn d).phase) ∧
      (∀ d, ((s.supersede n).conn d).seq = (s.conn d).seq) ∧ (s.supersede n).bindMu = s.bindMu := by
  rw [State.supersede]
  split
  · rename_i c hc
    refine ⟨phase_set rfl, fun d => ?_, rfl⟩
    rcases conn_set s c ((s.conn c).close .superseded) d with ⟨rfl, he⟩ | ⟨-, he⟩ <;> rw [he]
    rfl
  · exact ⟨fun _ => rfl, fun _ => rfl, rfl⟩

theorem conns_supersede (s : State κ ν ι) (n : ν) : (s.supersede n).conns = s.conns := by
  rw [State.supersede]; split <;> rfl

theorem bindMu_remove [DecidableEq ν] (s : State κ ν ι) (c : κ) :
    (s.remove node c).bindMu = s.bindMu := by
  rw [State.remove]; split <;> rfl

theorem conn_set_same (h : s₁.conn = s.conn) (c : κ) (x : Conn ι) :
    (s₁.set c x).conn = (s.set c x).conn := by
  rw [State.set, State.set, h]

variable [DecidableEq ν] [DecidableEq ι]

theorem init_mapInv [Inhabited ι] (cfg : Router.Config) (node : κ → ν) :
    MapInv node (system cfg node : Lts (State κ ν ι) (Act κ ν ι)).init where
  mu := fun _ hc => nomatch hc
  entry := fun _ _ hc => nomatch hc
  newest := fun _ _ hc => nomatch hc
  pending := fun _ _ hc => nomatch hc

namespace MapInv

omit [DecidableEq ν] in
theorem cmd {t : Who κ} {p : Pool ν ι (Who κ)} (h : MapInv node s) (hi : Inv node s)
    (hp : s.pool.cmd cfg t = some p) : MapInv node (s.ran t p) := by
  have heff := (hi.cmd hp).2
  obtain ⟨hphase, hconns, hmu⟩ := ran_fields s t p
  cases heff with
  | bind c r hcall hwrote hconn =>
    obtain ⟨⟨k, hk⟩, -⟩ := hi.bind_spec hcall
    exact h.bind hi hk hconn hconns hmu
  | heal c r hcall hwrote hconn => exact h.congr hphase (fun d => by rw [hconn]) hconns hmu
  | delete c hcall hlost => exact h.congr hphase (fun d => by rw [hlost.conn]) hconns hmu
  | calm _ hcalm => exact h.congr hphase (fun d => (hcalm.conn d).seq) hconns hmu

/-- **A step keeps the order of the map.** -/
theorem step {a : Act κ ν ι} (h : MapInv node s) (hi : Inv node s)
    (hs : PhoneConn.step cfg node s a = some s') : MapInv node s' := by
  cases step_cases hs with
  | accept hp | bound hp _ | teardown hp =>
    refine h.stay hp rfl rfl rfl rfl ?_
    constructor <;> simp [Phase.locked, Phase.mapped, Phase.past, Phase.binds]
  | lock hp hfree hs =>
    obtain ⟨hconn, hconns, hmu⟩ := call_fields hs
    exact h.lock hi hp hfree hconn rfl rfl hconns hmu
  | cmd hp => exact h.cmd hi hp
  | collided hp _ hs =>
    obtain ⟨hconn, hconns, hmu⟩ := call_fields hs
    refine h.stay hp hconn rfl hconns hmu ?_
    constructor <;> simp [Phase.locked, Phase.mapped, Phase.past, Phase.binds]
  | refused hp hr =>
    refine h.release (by rw [hp]; rfl) rfl rfl rfl ?_ fun hp => absurd hp Bool.false_ne_true
    rw [hp]; exact fun hm => absurd hm Bool.false_ne_true
  | @enter c hp =>
    obtain ⟨hphase, hseq, hmu⟩ := supersede_fields s (node c)
    refine h.enter hi hp (fun d hd => ?_) ?_ (fun d => ?_) ?_ hmu
    · show (((s.supersede (node c)).set c _).conn d).phase = _
      rw [conn_set_of_ne _ _ hd, hphase]
    · show (((s.supersede (node c)).set c _).conn c).phase = _
      rw [conn_set_self]
    · show (((s.supersede (node c)).set c _).conn d).seq = _
      rcases conn_set (s.supersede (node c)) c
        { (s.supersede (node c)).conn c with phase := .entered } d with ⟨rfl, he⟩ | ⟨-, he⟩ <;>
        rw [he] <;> exact hseq d
    · show update (s.supersede (node c)).conns (node c) (some c) = _
      rw [conns_supersede]
  | registered hp =>
    refine h.release (by rw [hp]; rfl) rfl rfl rfl (fun _ => rfl) fun _ => ?_
    rw [hp]; rfl
  | @abandon c _ hp hs =>
    obtain ⟨hconn, hconns, hmu⟩ := call_fields hs
    exact h.unbind (c := c) (by rw [hp]; rfl) (fun _ => by rw [hp]; rfl)
      (hconn.trans (conn_set_same (same_remove s c).conn _ _)) rfl rfl hconns
      (hmu.trans (bindMu_remove s c))
  | @leave c _ hp _ hs =>
    obtain ⟨hconn, hconns, hmu⟩ := call_fields hs
    exact h.unbind (c := c) (b := false) (by rw [hp]; rfl) (fun hf => absurd hf Bool.false_ne_true)
      (hconn.trans (conn_set_same (same_remove s c).conn _ _)) rfl rfl hconns
      (hmu.trans (bindMu_remove s c))
  | unbound abandoned hp hr =>
    cases abandoned with
    | true =>
      refine h.release (by rw [hp]; rfl) rfl rfl rfl ?_ ?_
      · rw [hp]; exact fun hm => absurd hm Bool.false_ne_true
      · rw [hp]; exact fun _ => rfl
    | false =>
      refine h.stay hp rfl rfl rfl rfl ?_
      constructor <;> simp [Phase.locked, Phase.mapped, Phase.past, Phase.binds]
  | close | notOwner | beats | hbDone => exact h.same_phase rfl rfl rfl rfl rfl
  | calls _ _ hs =>
    obtain ⟨hconn, hconns, hmu⟩ := call_fields hs
    exact h.same_phase hconn rfl rfl hconns hmu
  | fail | lapse | startDrain | time => exact h.congr (fun _ => rfl) (fun _ => rfl) rfl rfl

end MapInv

theorem mapInv_of_reach [Inhabited ι] {g : State κ ν ι → Act κ ν ι → Prop}
    (h : (system cfg node).Reach g s) : Inv node s ∧ MapInv node s :=
  h.invariant (P := fun s => Inv node s ∧ MapInv node s)
    ⟨init_inv cfg node, init_mapInv cfg node⟩
    fun _ _ _ _ hi _ hs => ⟨(hi.1.step hs).1, hi.2.step hi.1 hs⟩

/-- The connection in the map of a node has bound after all others that have been entered there. -/
theorem last_bound [Inhabited ι] {g : State κ ν ι → Act κ ν ι → Prop} {n : ν}
    (h : (system cfg node).Reach g s) (hc : s.conns n = some c) :
    node c = n ∧ (s.conn c).phase.mapped = true ∧ (s.conn c).seq ≠ 0 ∧
    ∀ d, node d = n → (s.conn d).phase.past = true → d = c ∨ (s.conn d).seq < (s.conn c).seq := by
  obtain ⟨hi, hmap⟩ := mapInv_of_reach h
  obtain ⟨rfl, hm⟩ := hmap.entry n c hc
  have hrank := Phase.rank_of_past (Phase.past_of_mapped hm)
  have hbound : (s.conn c).seq ≠ 0 := (hi.wf c).late (by omega) hrank.2
  refine ⟨rfl, hm, hbound, fun d hn hd => ?_⟩
  rcases Nat.lt_or_eq_of_le (hmap.newest c d hc hn hd) with hlt | heq
  · exact .inr hlt
  · exact .inl (hi.seq_inj c d hbound heq.symm).symm

/-- **The map has the newest connection.**  In every reachable state, whatever calls have failed,
the connection in the map of a node is one of its own that has been entered and not been taken out,
and of all that have been entered there it was the last to bind. -/
theorem map_newest [Inhabited ι] (cfg : Router.Config) (node : κ → ν) {s : State κ ν ι} {n : ν}
    (h : (system cfg node).Reach Lts.always s) (hc : s.conns n = some c) :
    node c = n ∧ (s.conn c).phase.mapped = true ∧
    ∀ d, node d = n → (s.conn d).phase.past = true → (s.conn d).seq ≤ (s.conn c).seq := by
  obtain ⟨hn, hm, -, hlast⟩ := last_bound h hc
  refine ⟨hn, hm, fun d hd hp => ?_⟩
  rcases hlast d hd hp with rfl | hlt
  · exact Nat.le_refl _
  · exact Nat.le_of_lt hlt

/-- The second connection of a phone to a node replaces the first, which is not torn down yet. -/
theorem map_newest_two :
    ∃ s : State Bool Unit Nat, (system ⟨30000, 60000⟩ fun _ => ()).Reach Lts.always s ∧
      s.conns () = some true ∧ (s.conn false).phase = .serving ∧
      (s.conn false).seq ≤ (s.conn true).seq := by
  obtain ⟨s, hreach, hc, hp⟩ := Lts.exists_reach_of_any
    (L := (system ⟨30000, 60000⟩ fun _ => () : Lts (State Bool Unit Nat) _)) (g := Lts.always)
    (l := registerRun false 1 ++ registerRun true 2)
    (P := fun s => s.conns () = some true ∧ (s.conn false).phase = .serving) (by decide +kernel)
  exact ⟨s, hreach, hc, hp, (map_newest _ _ hreach hc).2.2 false rfl (by rw [hp]; rfl)⟩

end Tunneld.PhoneConn

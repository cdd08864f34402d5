import Tunneld.PhoneConn.Connections

/-!
# The steps of `register`, `teardown` and `heartbeatLoop`

What happens between the calls of the registry moves one connection on and leaves the route alone,
so each step here is calm, and what there is to check is that the connection still fits its calls.
Together with the commands this makes two statements about any step at all:

* `Inv.step` — it keeps `Inv` and has one of the effects;
* `step_calls` — a goroutine's call is the same after it, has just been made, has run one command,
  or has failed.
-/

namespace Tunneld.PhoneConn

open Router

variable {κ ν ι : Type} [DecidableEq κ]

/-! ## The cases -/

section Cases

variable [DecidableEq ν] [DecidableEq ι] (cfg : Router.Config) (node : κ → ν)

/-- What a step can do. -/
inductive Step (s : State κ ν ι) : Act κ ν ι → State κ ν ι → Prop
  | accept {c id} (hp : (s.conn c).phase = .idle) :
    Step s (.accept c id) (s.set c { s.conn c with phase := .waiting, connID := id })
  | lock {c s'} (hp : (s.conn c).phase = .waiting) (hmu : s.bindMu (node c) = none)
      (hs : (s.setMu (node c) (some c)).call (.handler c) (.bindRoute (node c) (s.conn c).connID)
        { s.conn c with phase := .binding 0 } = some s') : Step s (.lock c) s'
  | cmd {t p} (hp : s.pool.cmd cfg t = some p) : Step s (.cmd t) (s.ran t p)
  | fail {t p} (hp : s.pool.fail t = some p) : Step s (.fail t) { s with pool := p }
  | bound {c id k} (hp : (s.conn c).phase = .binding k)
      (hr : s.pool.result (.handler c) = some .bound) :
    Step s (.bindReturned c id) (s.set c { s.conn c with phase := .bound })
  | refused {c id k r} (hp : (s.conn c).phase = .binding k)
      (hr : s.pool.result (.handler c) = some r) :
    Step s (.bindReturned c id)
      ((s.setMu (node c) none).set c { s.conn c with phase := .refused })
  | collided {c id k s'} (hp : (s.conn c).phase = .binding k)
      (hr : s.pool.result (.handler c) = some .connIDCollision)
      (hs : s.call (.handler c) (.bindRoute (node c) id)
        { s.conn c with phase := .binding (k + 1), connID := id } = some s') :
    Step s (.bindReturned c id) s'
  | enter {c} (hp : (s.conn c).phase = .bound) :
    Step s (.enter c) ((s.supersede (node c)).insert node c)
  | registered {c} (hp : (s.conn c).phase = .entered) :
    Step s (.registered c)
      ((s.setMu (node c) none).set c { s.conn c with phase := .serving, beat := .idle })
  | abandon {c s'} (hp : (s.conn c).phase = .entered)
      (hs : (s.remove node c).call (.handler c) (.unbind (s.conn c).connID)
        { (s.conn c).close .other with phase := .unbinding true } = some s') :
    Step s (.abandon c) s'
  | close {c} : Step s (.close c) (s.set c ((s.conn c).close .other))
  | teardown {c} (hp : (s.conn c).phase = .serving) :
    Step s (.teardown c) (s.set c { (s.conn c).close .other with phase := .closing })
  | leave {c s'} (hp : (s.conn c).phase = .closing) (hb : (s.conn c).beat = .exited)
      (hs : (s.remove node c).call (.handler c) (.unbind (s.conn c).connID)
        { s.conn c with phase := .unbinding false } = some s') : Step s (.leave c) s'
  | unbound {c r} (abandoned : Bool) (hp : (s.conn c).phase = .unbinding abandoned)
      (hr : s.pool.result (.handler c) = some r) :
    Step s (.unbound c) ((if abandoned then s.setMu (node c) none else s).set c
      { s.conn c with phase := .finished (r = .ok) })
  | notOwner {c} (hb : (s.conn c).beat = .beating)
      (hr : s.pool.result (.beat c) = some .notOwner) :
    Step s (.beatReturned c) (s.set c { (s.conn c).close .superseded with beat := .exited })
  | hbDone {c} (hb : (s.conn c).beat = .idle) :
    Step s (.hbDone c) (s.set c { s.conn c with beat := .exited })
  | startDrain {n} : Step s (.startDrain n) { s with draining := Function.update s.draining n true }
  | lapse {p} (hp : s.pool.lapse = some p) : Step s .lapse { s with pool := p }
  | time {ms} : Step s (.time ms) { s with pool := s.pool.tick ms }
  /-- The heartbeat makes a call. -/
  | calls {a c op b s'} (hb : (s.conn c).beat = .idle ∨ (s.conn c).beat = .beating)
      (hop : ({ s.conn c with beat := b } : Conn ι).beatOp (node c) = some op)
      (hs : s.call (.beat c) op { s.conn c with beat := b } = some s') : Step s a s'
  /-- A call of the heartbeat has returned. -/
  | beats {a c r b} (hb : (s.conn c).beat = .beating ∨ (s.conn c).beat = .healing)
      (hr : s.pool.result (.beat c) = some r) (hn : b = .idle ∨ b = .exited) :
    Step s a (s.set c { s.conn c with beat := b })

variable {cfg node} {s t : State κ ν ι} {a : Act κ ν ι}

theorem step_cases (hs : step cfg node s a = some t) : Step cfg node s a t := by
  revert hs
  fun_cases step cfg node s a <;> first | rintro ⟨⟩ | intro hs
  all_goals first
    | exact .calls (.inl ‹_›) rfl hs
    | exact .calls (.inr ‹_›) rfl hs
    | exact .beats (.inl ‹_›) ‹_› (.inr rfl)
    | exact .beats (.inl ‹_›) ‹_› (.inl rfl)
    | exact .beats (.inr ‹_›) ‹_› (.inl rfl)
    | exact .collided ‹_› (And.left ‹_› ▸ ‹_›) hs
    | exact .accept (And.left ‹_›)
    | (obtain ⟨p, hp, rfl⟩ := Option.map_eq_some_iff.1 hs; constructor; exact hp)
    | (constructor <;> assumption)

end Cases

variable (cfg : Router.Config) {node : κ → ν} {s s₁ s' : State κ ν ι} {c : κ} {x : Conn ι}

/-! ## The steps of a connection -/

namespace Inv

variable {id : ι}

theorem accept (h : Inv node s) (hp : (s.conn c).phase = .idle) :
    Keeps node s (s.set c { s.conn c with phase := .waiting, connID := id }) := by
  have hw := h.wf c
  have hseq : (s.conn c).seq = 0 := hw.early (by rw [hp]; decide)
  have hoff : (s.conn c).beat = .off := hw.off (by rw [hp]; decide)
  refine h.set (.refl s)
    (((Moves.refl s c).withConnID hseq).withPhase .waiting (by rw [hp]; decide) (by simp)) ?_
  refine .of_quiet (by constructor <;> simp [hseq, hoff]) rfl ?_ ?_
  · simpa [Conn.handlerOp, hp] using hw.handler
  · simpa [Conn.beatOp, hoff] using hw.beat

theorem lock [DecidableEq ν] (h : Inv node s) (hp : (s.conn c).phase = .waiting)
    (hs : (s.setMu (node c) (some c)).call (.handler c) (.bindRoute (node c) (s.conn c).connID)
      { s.conn c with phase := .binding 0 } = some s') : Keeps node s s' := by
  have hw := h.wf c
  have hseq : (s.conn c).seq = 0 := hw.early (by rw [hp]; decide)
  have hoff : (s.conn c).beat = .off := hw.off (by rw [hp]; decide)
  refine h.call_handler (same_setMu s _ _) hs
    ((Moves.refl s c).withPhase (.binding 0) (by rw [hp]; decide) (by simp)) ?_
  exact .of_binding rfl hseq hoff (by simpa [Conn.beatOp, hoff] using hw.beat)

section BindReturned

variable {k : Nat} {r : Outcome}

omit [DecidableEq κ] in
/-- The result is that of the `BindRoute` of the connection. -/
theorem bindRoute_done (h : Inv node s) (hp : (s.conn c).phase = .binding k)
    (hr : s.pool.result (.handler c) = some r) :
    s.pool.calls (.handler c) = some ⟨.bindRoute (node c) (s.conn c).connID, .done r⟩ := by
  refine Follows.result ?_ hr
  have hf := (h.wf c).handler
  rwa [Conn.handlerOp, hp] at hf

theorem bound (h : Inv node s) (hp : (s.conn c).phase = .binding k)
    (hr : s.pool.result (.handler c) = some .bound) :
    Keeps node s (s.set c { s.conn c with phase := .bound }) := by
  have hw := h.wf c
  have hoff : (s.conn c).beat = .off := hw.off (by simp [hp])
  have hseq : (s.conn c).seq ≠ 0 := hw.written k _ _ hp (h.bindRoute_done hp hr) rfl
  refine h.set (.refl s) ((Moves.refl s c).withPhase .bound (by simp [hp]) (by simp)) ?_
  exact .of_quiet (by constructor <;> simp [hseq, hoff]) rfl (follows_none hr) hw.beat

theorem collided (h : Inv node s) (hp : (s.conn c).phase = .binding k)
    (hr : s.pool.result (.handler c) = some .connIDCollision)
    (hs : s.call (.handler c) (.bindRoute (node c) id)
      { s.conn c with phase := .binding (k + 1), connID := id } = some s') : Keeps node s s' := by
  have hw := h.wf c
  have hoff : (s.conn c).beat = .off := hw.off (by simp [hp])
  have hseq : (s.conn c).seq = 0 := hw.unwritten k _ _ hp (h.bindRoute_done hp hr) rfl
  refine h.call_handler (.refl s) hs (((Moves.refl s c).withConnID hseq).withPhase
    (.binding (k + 1)) (by simp [hp]) (by simp)) ?_
  exact .of_binding rfl hseq hoff (by simpa [Conn.beatOp, hoff] using hw.beat)

theorem refused [DecidableEq ν] (h : Inv node s) (hp : (s.conn c).phase = .binding k)
    (hr : s.pool.result (.handler c) = some r) :
    Keeps node s ((s.setMu (node c) none).set c { s.conn c with phase := .refused }) := by
  have hw := h.wf c
  have hoff : (s.conn c).beat = .off := hw.off (by simp [hp])
  refine h.set (same_setMu s _ _)
    ((Moves.refl s c).withPhase .refused (by simp [hp]) (by simp)) ?_
  exact .of_quiet (by constructor <;> simp [hoff]) rfl (follows_none hr) hw.beat

end BindReturned

theorem close {r : Reason} (h : Inv node s) (hr : r = .superseded → s.Superseded node c) :
    Keeps node s (s.set c ((s.conn c).close r)) := by
  have hw := h.wf c
  refine h.set (.refl s) (.close hr) ?_
  exact ⟨⟨hw.early, hw.late, hw.off, hw.exited, fun _ _ => Option.some_ne_none _⟩, hw.handler,
    hw.beat, hw.unwritten, hw.written⟩

theorem enter [DecidableEq ν] (h : Inv node s) (hp : (s.conn c).phase = .bound) :
    Keeps node s ((s.supersede (node c)).insert node c) := by
  -- first the one in the map is closed, then the new one is entered
  obtain ⟨s₁, hs₁, hinv, hcalm⟩ : ∃ s₁, s₁ = s.supersede (node c) ∧ Keeps node s s₁ := by
    refine ⟨_, rfl, ?_⟩
    rw [State.supersede]
    split
    · rename_i d hd
      exact h.close fun _ => .inr ⟨c, hp, hd⟩
    · exact ⟨h, ⟨rfl, rfl⟩, rfl, rfl, Moves.refl s⟩
  rw [← hs₁]
  have hp₁ : (s₁.conn c).phase = .bound := by
    rw [hs₁, State.supersede]
    split
    · rename_i d hd
      rcases conn_set s d ((s.conn d).close .superseded) c with ⟨rfl, he⟩ | ⟨-, he⟩ <;> rw [he]
      · exact hp
      · exact hp
    · exact hp
  have hw := hinv.wf c
  have hseq : (s₁.conn c).seq ≠ 0 := hw.late (by rw [hp₁]; decide) (by rw [hp₁]; decide)
  have hoff : (s₁.conn c).beat = .off := hw.off (by rw [hp₁]; decide)
  have hset : Inv node (s₁.set c { s₁.conn c with phase := .entered }) := by
    refine (hinv.set (.refl s₁)
      ((Moves.refl s₁ c).withPhase .entered (by rw [hp₁]; decide) (by simp)) ?_).1
    refine .of_quiet (by constructor <;> simp [hseq, hoff]) rfl ?_ hw.beat
    simpa [Conn.handlerOp, hp₁] using hw.handler
  refine ⟨⟨hset.pool, hset.wf, hset.seq_le, hset.seq_inj, hset.readAt_le, hset.owner⟩,
    hcalm.owner, hcalm.writes, hcalm.writer, fun d => ?_⟩
  show Moves node s d ((s₁.set c { s₁.conn c with phase := .entered }).conn d)
  rcases conn_set s₁ c { s₁.conn c with phase := .entered } d with ⟨rfl, he⟩ | ⟨-, he⟩ <;> rw [he]
  · exact (hcalm.conn d).withPhase .entered (by rw [hp₁]; decide) (by simp)
  · exact hcalm.conn d

theorem registered [DecidableEq ν] (h : Inv node s) (hp : (s.conn c).phase = .entered) :
    Keeps node s
      ((s.setMu (node c) none).set c { s.conn c with phase := .serving, beat := .idle }) := by
  have hw := h.wf c
  have hseq : (s.conn c).seq ≠ 0 := hw.late (by rw [hp]; decide) (by rw [hp]; decide)
  have hoff : (s.conn c).beat = .off := hw.off (by rw [hp]; decide)
  have hm : Moves node s c { s.conn c with phase := .serving, beat := .idle } :=
    ((Moves.refl s c).withPhase .serving (by rw [hp]; decide) (by simp)).withBeat
      (by rw [hoff]; decide)
  refine h.set (same_setMu s _ _) hm ?_
  refine .of_quiet (by constructor <;> simp [hseq]) rfl ?_ ?_
  · simpa [Conn.handlerOp, hp] using hw.handler
  · simpa [Conn.beatOp, hoff] using hw.beat

theorem teardown (h : Inv node s) (hp : (s.conn c).phase = .serving) :
    Keeps node s (s.set c { (s.conn c).close .other with phase := .closing }) := by
  have hw := h.wf c
  have hseq : (s.conn c).seq ≠ 0 := hw.late (by rw [hp]; decide) (by rw [hp]; decide)
  have hm : Moves node s c ((s.conn c).close .other) := .close fun he => nomatch he
  refine h.set (.refl s) (hm.withPhase .closing ?_ (by simp)) (.of_quiet ?_ rfl ?_ hw.beat)
  · show (s.conn c).phase.rank ≤ _
    rw [hp]; decide
  · constructor <;> simp [Conn.close, hseq]
  · simpa [Conn.handlerOp, hp] using hw.handler

/-- `teardown` or `abandon` takes the connection out of the map and calls `Unbind`. -/
theorem unbind [DecidableEq ν] {b : Bool} (h : Inv node s) (hm : Moves node s c x)
    (hid : x.connID = (s.conn c).connID) (hp : x.phase = .unbinding b) (hseq : x.seq ≠ 0)
    (hbeat : x.beat = .off ∨ x.beat = .exited)
    (hb : (s.conn c).beat = x.beat) (hcl : x.closed ≠ none)
    (hs : (s.remove node c).call (.handler c) (.unbind (s.conn c).connID) x = some s') :
    Keeps node s s' := by
  have hw := (h.wf c).beat
  refine h.call_handler (same_remove s c) hs hm ⟨?_, ?_, ?_, ?_, ?_⟩
  · constructor <;> simp [hp, hseq, hbeat, hcl]
  · rw [Conn.handlerOp, hp, ← hid]; exact follows_start
  · rcases hbeat with he | he <;> rw [Conn.beatOp, he] <;> rw [Conn.beatOp, hb, he] at hw <;>
      exact hw
  · intro _ _ _ hk
    rw [hp] at hk; cases hk
  · intro _ _ _ hk
    rw [hp] at hk; cases hk

theorem unbound {b : Bool} {r : Outcome} (h : Inv node s) (hp : (s.conn c).phase = .unbinding b)
    (hr : s.pool.result (.handler c) = some r) (hs : Same s s₁) :
    Keeps node s (s₁.set c { s.conn c with phase := .finished (r = .ok) }) := by
  have hw := h.wf c
  have hseq : (s.conn c).seq ≠ 0 := hw.late (by simp [hp]) (by simp [hp])
  have hbeat := hw.exited (by simp [hp])
  have hcl := hw.closed (by simp [hp]) (by simp [hp])
  have hm : Moves node s c { s.conn c with phase := .finished (r = .ok) } := by
    refine ⟨rfl, fun _ => rfl, by simp [hp], id, .inl rfl, .inl rfl, fun hf => .inr ?_⟩
    have hok : r = .ok := by simpa using hf
    have hf := hw.handler
    rw [Conn.handlerOp, hp] at hf
    exact ⟨_, hok ▸ hf.result hr⟩
  refine h.set hs hm ?_
  exact .of_quiet (by constructor <;> simp [hseq, hbeat, hcl]) rfl (follows_none hr)
    hw.beat

omit [DecidableEq κ] in
/-- The heartbeat of a connection moves on, in a call or not. -/
theorem wf_beat {b : Beat} {q : Option (Call ν ι)} (h : Inv node s)
    (hoff : (s.conn c).beat ≠ .off) (hexit : (s.conn c).beat ≠ .exited)
    (hx : x = { s.conn c with beat := b, closed := x.closed })
    (hcl : (s.conn c).closed ≠ none → x.closed ≠ none) (hq : Follows (x.beatOp (node c)) q) :
    x.WF (node c) (s.pool.calls (.handler c)) q := by
  have hw := h.wf c
  have hrank := hw.rank_of_beat hoff hexit
  have hseq := hw.seq_of_beat hoff hexit
  have hphase : x.phase = (s.conn c).phase := by rw [hx]
  have hno : ∀ k, x.phase ≠ .binding k := fun k hk => by
    rw [← hphase, hk] at hrank; simp at hrank
  refine ⟨⟨?_, ?_, ?_, ?_, ?_⟩, ?_, hq, fun k _ _ hk => absurd hk (hno k),
    fun k _ _ hk => absurd hk (hno k)⟩
  · rw [hphase]; omega
  · intro _ _; rw [hx]; exact hseq
  · rw [hphase]; omega
  · rw [hphase]; omega
  · rw [hphase]; exact fun h1 h2 => hcl (hw.closed h1 h2)
  · have hop : x.handlerOp (node c) = (s.conn c).handlerOp (node c) := by
      rw [hx]; rfl
    rw [hop]; exact hw.handler

theorem beat_call {b : Beat} {op : Op ν ι} (h : Inv node s) (hoff : (s.conn c).beat ≠ .off)
    (hexit : (s.conn c).beat ≠ .exited)
    (hop : ({ s.conn c with beat := b } : Conn ι).beatOp (node c) = some op)
    (hs : s.call (.beat c) op { s.conn c with beat := b } = some s') : Keeps node s s' := by
  refine h.call_beat hs ((Moves.refl s c).withBeat hexit) ?_
  exact h.wf_beat hoff hexit rfl (fun hne => hne) (hop ▸ follows_start)

theorem beat_set {b : Beat} (h : Inv node s) (hoff : (s.conn c).beat ≠ .off)
    (hexit : (s.conn c).beat ≠ .exited)
    (hop : ({ s.conn c with beat := b } : Conn ι).beatOp (node c) = none)
    (hq : Follows none (s.pool.calls (.beat c))) :
    Keeps node s (s.set c { s.conn c with beat := b }) := by
  refine h.set (.refl s) ((Moves.refl s c).withBeat hexit) ?_
  exact h.wf_beat hoff hexit rfl (fun hne => hne) (hop ▸ hq)

/-- The heartbeat has found another owner and closes the connection. -/
theorem beat_notOwner (h : Inv node s) (hb : (s.conn c).beat = .beating)
    (hr : s.pool.result (.beat c) = some .notOwner) :
    Keeps node s (s.set c { (s.conn c).close .superseded with beat := .exited }) := by
  have hcall : s.pool.calls (.beat c) = some ⟨.heartbeat (s.conn c).connID, .done .notOwner⟩ := by
    refine Follows.result ?_ hr
    have hf := (h.wf c).beat
    rwa [Conn.beatOp, hb] at hf
  have hm : Moves node s c ((s.conn c).close .superseded) := .close fun _ => .inl ⟨_, hcall⟩
  refine h.set (.refl s) (hm.withBeat (by rw [hb]; decide)) ?_
  exact h.wf_beat (by rw [hb]; decide) (by rw [hb]; decide) rfl (fun _ => Option.some_ne_none _)
    (follows_none hr)

end Inv

/-! ## Any step -/

variable [DecidableEq ι]

theorem init_inv [DecidableEq ν] [Inhabited ι] (cfg : Router.Config) (node : κ → ν) :
    Inv node (system cfg node : Lts (State κ ν ι) (Act κ ν ι)).init where
  pool := Pool.init_inv
  wf := fun _ => .of_quiet (by constructor <;> simp [system]) rfl
    (fun _ hc => nomatch hc) fun _ hc => nomatch hc
  seq_le := fun _ => Nat.le_refl 0
  seq_inj := fun _ _ hne => absurd rfl hne
  readAt_le := fun _ => Nat.le_refl 0
  owner := fun _ hi => nomatch hi

namespace Inv

variable {cfg}

/-- **A step keeps the invariant** and has one of the effects. -/
theorem step [DecidableEq ν] {a : Act κ ν ι} (h : Inv node s)
    (hs : PhoneConn.step cfg node s a = some s') : Inv node s' ∧ Effect node s s' a := by
  suffices hc : Keeps node s s' ∨ (Inv node s' ∧ Effect node s s' a) from
    hc.elim (fun hc => ⟨hc.1, .calm a hc.2⟩) fun hc => hc
  cases step_cases hs with
  | accept hp => exact .inl (h.accept hp)
  | lock hp _ hs => exact .inl (h.lock hp hs)
  | cmd hp => exact .inr (h.cmd hp)
  | fail hp => exact .inl (h.fail hp)
  | bound hp hr => exact .inl (h.bound hp hr)
  | refused hp hr => exact .inl (h.refused hp hr)
  | collided hp hr hs => exact .inl (h.collided hp hr hs)
  | enter hp => exact .inl (h.enter hp)
  | registered hp => exact .inl (h.registered hp)
  | @abandon c _ hp hs =>
    have hw := h.wf c
    have hseq : (s.conn c).seq ≠ 0 := hw.late (by rw [hp]; decide) (by rw [hp]; decide)
    have hoff : (s.conn c).beat = .off := hw.off (by rw [hp]; decide)
    have hm : Moves node s c ((s.conn c).close .other) := .close fun he => nomatch he
    refine .inl (h.unbind (hm.withPhase (.unbinding true) ?_ (by simp)) rfl rfl hseq (.inl hoff) rfl
      (Option.some_ne_none _) hs)
    show (s.conn c).phase.rank ≤ _
    rw [hp]; decide
  | close => exact .inl (h.close fun he => nomatch he)
  | teardown hp => exact .inl (h.teardown hp)
  | @leave c _ hp hb hs =>
    have hw := h.wf c
    have hseq : (s.conn c).seq ≠ 0 := hw.late (by rw [hp]; decide) (by rw [hp]; decide)
    have hcl := hw.closed (by rw [hp]; decide) (by rw [hp]; decide)
    have hm : Moves node s c { s.conn c with phase := .unbinding false } :=
      (Moves.refl s c).withPhase (.unbinding false) (by rw [hp]; decide) (by simp)
    exact .inl (h.unbind hm rfl rfl hseq (.inr hb) rfl hcl hs)
  | unbound _ hp hr =>
    exact .inl (h.unbound hp hr (by split <;> [exact same_setMu s _ _; exact .refl s]))
  | notOwner hb hr => exact .inl (h.beat_notOwner hb hr)
  | @hbDone c hb =>
    refine .inl (h.beat_set (by rw [hb]; decide) (by rw [hb]; decide) rfl ?_)
    simpa [Conn.beatOp, hb] using (h.wf c).beat
  | startDrain =>
    exact .inl ⟨⟨h.pool, h.wf, h.seq_le, h.seq_inj, h.readAt_le, h.owner⟩,
      ⟨rfl, rfl⟩, rfl, rfl, Moves.refl s⟩
  | lapse hp =>
    obtain ⟨h1, h2⟩ := h.lapse hp
    exact .inr ⟨h1, .lapse h2⟩
  | @time ms =>
    exact .inl ⟨⟨h.pool.tick ms, h.wf, h.seq_le, h.seq_inj, h.readAt_le, h.owner⟩,
      ⟨rfl, rfl⟩, rfl, rfl, Moves.refl s⟩
  | calls hb hop hs =>
    exact .inl (h.beat_call (by rcases hb with hb | hb <;> rw [hb] <;> decide)
      (by rcases hb with hb | hb <;> rw [hb] <;> decide) hop hs)
  | beats hb hr hn =>
    refine .inl (h.beat_set (by rcases hb with hb | hb <;> rw [hb] <;> decide)
      (by rcases hb with hb | hb <;> rw [hb] <;> decide) ?_ (follows_none hr))
    rcases hn with rfl | rfl <;> rfl

end Inv

/-! ## The calls -/

/-- What a step that takes the store from `st` to `st'` does to the call of the goroutine `t`. -/
inductive CallStep (st st' : Store ν ι (Who κ)) (t : Who κ) :
    Option (Call ν ι) → Option (Call ν ι) → Prop
  | same (q : Option (Call ν ι)) : CallStep st st' t q q
  | start (q : Option (Call ν ι)) (op : Op ν ι) : CallStep st st' t q (some op.start)
  | next (q q' : Call ν ι) (hn : q.next cfg st t = some (st', q')) :
      CallStep st st' t (some q) (some q')
  | fail (q : Call ν ι) : CallStep st st' t (some q)
      (some ⟨q.op, if q.holds then .unlock .failed else .done .failed⟩)

section CallStep

variable {cfg} {t : Who κ} {p : Pool ν ι (Who κ)}

omit [DecidableEq ι] in
theorem pool_ran (s : State κ ν ι) (t : Who κ) (p : Pool ν ι (Who κ)) : (s.ran t p).pool = p := by
  rw [State.ran.eq_def]; split <;> rfl

theorem callStep_of_pool (h : s'.pool = s.pool) :
    CallStep cfg s.pool.store s'.pool.store t (s.pool.calls t) (s'.pool.calls t) := by
  rw [h]; exact .same _

theorem callStep_put {u : Who κ} {st : Store ν ι (Who κ)} {q : Call ν ι}
    (hself : CallStep cfg p.store st u (p.calls u) (some q)) :
    CallStep cfg p.store st t (p.calls t) ((p.put u st q).calls t) := by
  by_cases ht : t = u
  · subst ht
    rw [Pool.put_calls_self]; exact hself
  · rw [Pool.put_calls_of_ne ht]; exact .same _

theorem callStep_call {u : Who κ} {op : Op ν ι} (hp : s₁.pool = s.pool)
    (hs : s₁.call u op x = some s') :
    CallStep cfg s.pool.store s'.pool.store t (s.pool.calls t) (s'.pool.calls t) := by
  rw [State.call, hp] at hs
  obtain ⟨p, hp, rfl⟩ := Option.map_eq_some_iff.1 hs
  obtain ⟨-, rfl⟩ := Pool.start_cases hp
  exact callStep_put (.start _ op)

/-- **The calls**: a step moves each of them on by one command at most. -/
theorem step_calls [DecidableEq ν] {a : Act κ ν ι} (hs : step cfg node s a = some s') (t : Who κ) :
    CallStep cfg s.pool.store s'.pool.store t (s.pool.calls t) (s'.pool.calls t) := by
  cases step_cases hs with
  | cmd hp =>
    obtain ⟨q, st', q', hcall, hn, rfl⟩ := Pool.cmd_cases hp
    rw [pool_ran]
    exact callStep_put (hcall ▸ .next q q' hn)
  | fail hp =>
    obtain ⟨q, hcall, -, rfl⟩ := Pool.fail_cases hp
    exact callStep_put (hcall ▸ .fail q)
  | lapse hp =>
    obtain ⟨-, rfl⟩ := Pool.lapse_cases hp
    exact .same _
  | lock _ _ hs => exact callStep_call (same_setMu s _ _).pool hs
  | abandon _ hs | leave _ _ hs => exact callStep_call (same_remove s _).pool hs
  | collided _ _ hs | calls _ _ hs => exact callStep_call rfl hs
  | @enter c hp =>
    refine callStep_of_pool ?_
    show (s.supersede (node c)).pool = s.pool
    rw [State.supersede]; split <;> rfl
  | unbound abandoned _ _ =>
    refine callStep_of_pool ?_
    cases abandoned <;> rfl
  | _ => exact .same _

end CallStep

end Tunneld.PhoneConn

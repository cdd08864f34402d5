import Tunneld.Lib.Lts
import Mathlib.Data.Fintype.Defs

/-!
# Bans and control connections

A phone that opens a control connection is checked against the live ban snapshot once, in
`Handler.ServeHTTP`; then `Manager.register` binds its route and puts it into the map of
connections.  A ban reload goes the other way: `watcher.tick` commits the new snapshot, and its
hook, `Manager.EvictBanned`, looks through the map and closes what the snapshot bans.

The model is one node: connections `κ`, each with a name `ν`, the striped locks `σ` of `register`,
and the one watcher, whose commit and hook follow each other.  The hook looks through the map under
its lock, in one step, and closes what it found one by one.

The check and the entry into the map are two steps with a call to the store between them.  A
handshake that stands between them when the hook looks is seen by neither side.

## Main results

* `no_open_banned`: no banned name has an open connection once the hook has finished, if there is no
  such handshake;
* `banned_after_reload`: if there is one, it goes on.
-/

namespace Tunneld.Bans

open Function

/-! ## The system -/

/-- Where a control connection stands. -/
inductive Phase
  | idle
  | refused
  /-- Past the ban check. -/
  | checked
  /-- In `register`, with the lock of its name, before `BindRoute` has returned. -/
  | binding
  | bound
  | inserted
  /-- `register` has returned. -/
  | serving
  /-- `register` has failed, or the connection has been torn down. -/
  | gone
  deriving DecidableEq

/-- Past the ban check and not in the map yet. -/
def Phase.pending : Phase → Bool
  | .checked | .binding | .bound => true
  | _ => false

/-- In the map. -/
def Phase.entered : Phase → Bool
  | .inserted | .serving => true
  | _ => false

/-- Where the ban watcher stands. -/
inductive Reload (κ : Type)
  | idle
  /-- A snapshot has been committed and `EvictBanned` is about to look. -/
  | scan
  /-- `EvictBanned` is closing what it found. -/
  | closing (victims : List κ)

/-- One node. -/
structure State (κ ν σ : Type) where
  /-- The live snapshot: `MatchTunnel`. -/
  banned : ν → Bool
  reload : Reload κ
  /-- The connections in the map `Manager.conns`. -/
  conns : List κ
  phase : κ → Phase
  closed : κ → Bool
  bindMu : σ → Option κ
  /-- `closeAllReason` is set. -/
  closeAll : Bool

/-- What can happen next. -/
inductive Act (κ ν : Type)
  /-- The ban check of `ServeHTTP`. -/
  | banCheck (c : κ)
  /-- `register` takes the lock of the name. -/
  | lock (c : κ)
  /-- `BindRoute` returns. -/
  | bindRoute (c : κ) (ok : Bool)
  /-- `register` enters the connection into the map and closes the one it supersedes. -/
  | insert (c : κ)
  /-- `register` gives up after that. -/
  | abandon (c : κ)
  /-- `register` returns. -/
  | registered (c : κ)
  /-- The connection closes, for any reason. -/
  | close (c : κ)
  /-- Its teardown takes it out of the map. -/
  | leave (c : κ)
  /-- `CloseAll` leaves its mark. -/
  | closeAll
  /-- The watcher commits a snapshot. -/
  | commit (banned : ν → Bool)
  /-- `EvictBanned` looks through the map. -/
  | scan
  /-- `EvictBanned` closes the next connection, or returns. -/
  | evict

variable {κ ν σ : Type} [DecidableEq κ]

/-- The names of the connections and the stripes of the names. -/
structure Config (κ ν σ : Type) where
  name : κ → ν
  /-- `bindLock`. -/
  stripe : ν → σ

variable (cfg : Config κ ν σ)

namespace State

/-- A connection moves on. -/
def setPhase (s : State κ ν σ) (c : κ) (ph : Phase) : State κ ν σ :=
  { s with phase := update s.phase c ph }

/-- The lock of the connection's name is taken or given back. -/
def setMu [DecidableEq σ] (s : State κ ν σ) (c : κ) (v : Option κ) : State κ ν σ :=
  { s with bindMu := update s.bindMu (cfg.stripe (cfg.name c)) v }

/-- A connection closes. -/
def close (s : State κ ν σ) (c : κ) : State κ ν σ :=
  { s with closed := update s.closed c true }

/-- A connection leaves the map. -/
def remove (s : State κ ν σ) (c : κ) : State κ ν σ :=
  { s with conns := s.conns.filter (· ≠ c) }

/-- The entry into the map: whoever was there for the name is closed, and so is the newcomer if
`CloseAll` has come first. -/
def enter [DecidableEq ν] (s : State κ ν σ) (c : κ) : State κ ν σ :=
  { s with
    conns := c :: s.conns.filter (cfg.name · ≠ cfg.name c)
    closed := fun d => s.closed d || (s.conns.contains d && cfg.name d == cfg.name c) ||
      (d == c && s.closeAll) }

end State

/-- The state after an action, if it is possible. -/
def step [DecidableEq ν] [DecidableEq σ] (s : State κ ν σ) : Act κ ν → Option (State κ ν σ)
  | .banCheck c =>
    match s.phase c with
    | .idle => some (s.setPhase c (if s.banned (cfg.name c) then .refused else .checked))
    | _ => none
  | .lock c =>
    match s.phase c, s.bindMu (cfg.stripe (cfg.name c)) with
    | .checked, none => some ((s.setMu cfg c (some c)).setPhase c .binding)
    | _, _ => none
  | .bindRoute c ok =>
    match s.phase c with
    | .binding =>
      some (if ok then s.setPhase c .bound else (s.setMu cfg c none).setPhase c .gone)
    | _ => none
  | .insert c =>
    match s.phase c with
    | .bound => some ((s.enter cfg c).setPhase c .inserted)
    | _ => none
  | .abandon c =>
    match s.phase c with
    | .inserted => some ((((s.close c).remove c).setMu cfg c none).setPhase c .gone)
    | _ => none
  | .registered c =>
    match s.phase c with
    | .inserted => some ((s.setMu cfg c none).setPhase c .serving)
    | _ => none
  | .close c => if (s.phase c).entered then some (s.close c) else none
  | .leave c =>
    if s.phase c = .serving ∧ s.closed c = true then some ((s.remove c).setPhase c .gone) else none
  | .closeAll => some { s with closeAll := true }
  | .commit banned =>
    match s.reload with
    | .idle => some { s with banned := banned, reload := .scan }
    | _ => none
  | .scan =>
    match s.reload with
    | .scan =>
      some { s with reload := .closing (s.conns.filter fun c => s.banned (cfg.name c)) }
    | _ => none
  | .evict =>
    match s.reload with
    | .closing (c :: l) => some { s.close c with reload := .closing l }
    | .closing [] => some { s with reload := .idle }
    | _ => none

/-- One node, started with the snapshot `banned`. -/
def system [DecidableEq ν] [DecidableEq σ] (banned : ν → Bool) : Lts (State κ ν σ) (Act κ ν) :=
  ⟨⟨banned, .idle, [], fun _ => .idle, fun _ => false, fun _ => none, false⟩, step cfg⟩

/-- An open control connection. -/
def State.Open (s : State κ ν σ) (c : κ) : Prop := (s.phase c).entered = true ∧ s.closed c = false

/-- The guard under which revocation is complete: when `EvictBanned` looks, no handshake of a name
that the live snapshot bans stands between its ban check and its entry into the map. -/
def NonePending (s : State κ ν σ) : Act κ ν → Prop
  | .scan => ∀ c, (s.phase c).pending = true → s.banned (cfg.name c) = false
  | _ => True

instance [Fintype κ] (s : State κ ν σ) (a : Act κ ν) : Decidable (NonePending cfg s a) := by
  unfold NonePending; split <;> infer_instance

/-! ## The invariant -/

/-- The connections the hook has yet to close, once it has looked. -/
def Reload.victims : Reload κ → Option (List κ)
  | .idle => some []
  | .scan => none
  | .closing l => some l

/-- **What is always true.** -/
structure Inv (s : State κ ν σ) : Prop where
  /-- An open connection is in the map. -/
  mem : ∀ c, s.Open c → c ∈ s.conns
  /-- After the hook has looked, no handshake under way is for a banned name. -/
  pending : ∀ l, s.reload.victims = some l → ∀ c, (s.phase c).pending = true →
    s.banned (cfg.name c) = false
  /-- And an open connection for a banned name is one the hook will close. -/
  victim : ∀ l, s.reload.victims = some l → ∀ c, s.Open c → s.banned (cfg.name c) = true → c ∈ l

theorem phase_setPhase (s : State κ ν σ) (c : κ) (ph : Phase) (d : κ) :
    (d = c ∧ (s.setPhase c ph).phase d = ph) ∨
      (d ≠ c ∧ (s.setPhase c ph).phase d = s.phase d) := by
  by_cases h : d = c
  · exact .inl ⟨h, h ▸ update_self ..⟩
  · exact .inr ⟨h, update_of_ne h ..⟩

variable {cfg}

namespace Inv

variable {s s' : State κ ν σ} {c : κ}

theorem setPhase {ph : Phase} (h : Inv cfg s)
    (hpend : ph.pending = true → (s.phase c).pending = true ∨ s.banned (cfg.name c) = false)
    (hopen : ph.entered = true → (s.phase c).entered = true) : Inv cfg (s.setPhase c ph) := by
  have hold : ∀ d, (s.setPhase c ph).Open d → s.Open d := by
    rintro d ⟨hd, hcl⟩
    rcases phase_setPhase s c ph d with ⟨rfl, he⟩ | ⟨-, he⟩ <;> rw [he] at hd
    · exact ⟨hopen hd, hcl⟩
    · exact ⟨hd, hcl⟩
  refine ⟨fun d hd => h.mem d (hold d hd), fun l hl d hd => ?_,
    fun l hl d hd hb => h.victim l hl d (hold d hd) hb⟩
  rcases phase_setPhase s c ph d with ⟨rfl, he⟩ | ⟨-, he⟩ <;> rw [he] at hd
  · exact (hpend hd).elim (h.pending l hl d) id
  · exact h.pending l hl d hd

omit [DecidableEq κ] in
theorem setMu [DecidableEq σ] {v : Option κ} (h : Inv cfg s) : Inv cfg (s.setMu cfg c v) :=
  ⟨h.mem, h.pending, h.victim⟩

theorem close (h : Inv cfg s) : Inv cfg (s.close c) := by
  have hold : ∀ d, (s.close c).Open d → s.Open d := by
    rintro d ⟨hd, hcl⟩
    refine ⟨hd, ?_⟩
    have hcl' : update s.closed c true d = false := hcl
    by_cases he : d = c
    · rw [he, update_self] at hcl'; cases hcl'
    · rwa [update_of_ne he] at hcl'
  exact ⟨fun d hd => h.mem d (hold d hd), h.pending,
    fun l hl d hd hb => h.victim l hl d (hold d hd) hb⟩

theorem remove (h : Inv cfg s) (hc : s.closed c = true) : Inv cfg (s.remove c) := by
  refine ⟨fun d hd => List.mem_filter.2 ⟨h.mem d hd, ?_⟩, h.pending, h.victim⟩
  have hne : d ≠ c := by
    rintro rfl
    have hcl : s.closed d = false := hd.2
    rw [hc] at hcl; cases hcl
  simpa using hne

/-- **The entry into the map.**  The handshake was for a name that is not banned, if the hook has
looked. -/
theorem insert [DecidableEq ν] (h : Inv cfg s) (hp : s.phase c = .bound) :
    Inv cfg ((s.enter cfg c).setPhase c .inserted) := by
  have hold : ∀ d, d ≠ c → ((s.enter cfg c).setPhase c .inserted).Open d →
      s.Open d ∧ ¬ (d ∈ s.conns ∧ cfg.name d = cfg.name c) := by
    rintro d hne ⟨hd, hcl⟩
    rcases phase_setPhase (s.enter cfg c) c .inserted d with ⟨he, -⟩ | ⟨-, he⟩
    · exact absurd he hne
    · rw [he] at hd
      have hcl' : (s.closed d || (s.conns.contains d && cfg.name d == cfg.name c) ||
        (d == c && s.closeAll)) = false := hcl
      simp only [Bool.or_eq_false_iff] at hcl'
      refine ⟨⟨hd, hcl'.1.1⟩, fun hin => ?_⟩
      simp [hin.1, hin.2] at hcl'
  refine ⟨fun d hd => ?_, fun l hl d hd => ?_, fun l hl d hd hb => ?_⟩
  · show d ∈ c :: s.conns.filter (cfg.name · ≠ cfg.name c)
    by_cases he : d = c
    · rw [he]; exact List.mem_cons_self
    · obtain ⟨hopen, hother⟩ := hold d he hd
      have hmem := h.mem d hopen
      refine List.mem_cons_of_mem _ (List.mem_filter.2 ⟨hmem, ?_⟩)
      simpa using fun hn => hother ⟨hmem, hn⟩
  · rcases phase_setPhase (s.enter cfg c) c .inserted d with ⟨-, he⟩ | ⟨-, he⟩ <;> rw [he] at hd
    · cases hd
    · exact h.pending l hl d hd
  · by_cases he : d = c
    · subst he
      have hok := h.pending l hl d (by rw [hp]; rfl)
      have hb' : s.banned (cfg.name d) = true := hb
      rw [hok] at hb'; cases hb'
    · exact h.victim l hl d (hold d he hd).1 hb

omit [DecidableEq κ] in
/-- **The hook looks.**  It sees every open connection. -/
theorem scan (h : Inv cfg s)
    (hnone : ∀ c, (s.phase c).pending = true → s.banned (cfg.name c) = false) :
    Inv cfg { s with reload := .closing (s.conns.filter fun c => s.banned (cfg.name c)) } := by
  refine ⟨h.mem, fun l hl c hc => hnone c hc, fun l hl c hc hb => ?_⟩
  cases hl
  exact List.mem_filter.2 ⟨h.mem c hc, hb⟩

theorem evict {l : List κ} (h : Inv cfg s) (hr : s.reload = .closing (c :: l)) :
    Inv cfg { s.close c with reload := .closing l } := by
  have hclosed := h.close (c := c)
  have hr' : (s.close c).reload.victims = some (c :: l) := by
    show s.reload.victims = _
    rw [hr]; rfl
  refine ⟨hclosed.mem, fun l' hl d hd => hclosed.pending _ hr' d hd, fun l' hl d hd hb => ?_⟩
  cases hl
  rcases List.mem_cons.1 (hclosed.victim _ hr' d hd hb) with rfl | hmem
  · have hcl : update s.closed d true d = false := hd.2
    rw [update_self] at hcl; cases hcl
  · exact hmem

theorem step [DecidableEq ν] [DecidableEq σ] {a : Act κ ν} (h : Inv cfg s)
    (hg : NonePending cfg s a) (hs : Bans.step cfg s a = some s') : Inv cfg s' := by
  rw [Bans.step.eq_def] at hs
  cases a with
  | banCheck c =>
    cases hp : s.phase c <;> simp only [hp, reduceCtorEq, Option.some_inj] at hs
    subst hs
    split
    · exact h.setPhase (fun hc => nomatch hc) fun hc => nomatch hc
    · rename_i hb
      exact h.setPhase (fun _ => .inr (by simpa using hb)) fun hc => nomatch hc
  | lock c =>
    cases hp : s.phase c <;> cases hm : s.bindMu (cfg.stripe (cfg.name c)) <;>
      simp only [hp, hm, reduceCtorEq, Option.some_inj] at hs
    subst hs
    refine h.setMu.setPhase (fun _ => .inl ?_) fun hc => nomatch hc
    show (s.phase c).pending = true
    rw [hp]; rfl
  | bindRoute c ok =>
    cases hp : s.phase c <;> simp only [hp, reduceCtorEq, Option.some_inj] at hs
    subst hs
    split
    · exact h.setPhase (fun _ => .inl (by rw [hp]; rfl)) fun hc => nomatch hc
    · exact h.setMu.setPhase (fun hc => nomatch hc) fun hc => nomatch hc
  | insert c =>
    cases hp : s.phase c <;> simp only [hp, reduceCtorEq, Option.some_inj] at hs
    subst hs
    exact h.insert hp
  | abandon c =>
    cases hp : s.phase c <;> simp only [hp, reduceCtorEq, Option.some_inj] at hs
    subst hs
    have hcl : (s.close c).closed c = true := update_self ..
    exact (h.close.remove hcl).setMu.setPhase (fun hc => nomatch hc) fun hc => nomatch hc
  | registered c =>
    cases hp : s.phase c <;> simp only [hp, reduceCtorEq, Option.some_inj] at hs
    subst hs
    refine h.setMu.setPhase (fun hc => nomatch hc) fun _ => ?_
    show (s.phase c).entered = true
    rw [hp]; rfl
  | close c =>
    simp only at hs
    split at hs <;> cases hs
    exact h.close
  | leave c =>
    simp only at hs
    split at hs <;> cases hs
    rename_i hc
    exact (h.remove hc.2).setPhase (fun hc => nomatch hc) fun hc => nomatch hc
  | closeAll => cases hs; exact ⟨h.mem, h.pending, h.victim⟩
  | commit banned =>
    cases hr : s.reload <;> simp only [hr, reduceCtorEq, Option.some_inj] at hs
    subst hs
    exact ⟨h.mem, fun l hl => (nomatch hl), fun l hl => (nomatch hl)⟩
  | scan =>
    cases hr : s.reload <;> simp only [hr, reduceCtorEq, Option.some_inj] at hs
    subst hs
    exact h.scan hg
  | evict =>
    cases hr : s.reload with
    | closing l =>
      have hl : s.reload.victims = some l := by rw [hr]; rfl
      cases l <;> simp only [hr, Option.some_inj] at hs <;> subst hs
      · refine ⟨h.mem, fun l' _ => h.pending _ hl, fun l' hl' d hd hb => ?_⟩
        cases hl'
        exact h.victim _ hl d hd hb
      · exact h.evict hr
    | idle | scan => simp only [hr, reduceCtorEq] at hs

end Inv

variable [DecidableEq ν] [DecidableEq σ]

theorem init_inv (cfg : Config κ ν σ) (banned : ν → Bool) : Inv cfg (system cfg banned).init where
  mem := fun _ h => nomatch h.1
  pending := fun _ _ _ h => nomatch h
  victim := fun _ _ _ h => nomatch h.1

/-! ## The result -/

/-- **Revocation is complete**, as long as no handshake of a name the live snapshot bans stands
between its ban check and its entry into the map when `EvictBanned` looks.  Then, whenever the hook
of the last reload has finished, no control connection is open for a name the live snapshot
bans. -/
theorem no_open_banned {banned : ν → Bool} {s : State κ ν σ}
    (h : (system cfg banned).Reach (NonePending cfg) s) (hr : s.reload = .idle) (c : κ)
    (hc : s.Open c) : s.banned (cfg.name c) = false := by
  have hi : Inv cfg s := h.invariant (init_inv cfg banned) fun _ _ _ _ hi hg hs => hi.step hg hs
  refine Bool.eq_false_iff.2 fun hb => ?_
  have hmem := hi.victim [] (by rw [hr]; rfl) c hc hb
  exact List.not_mem_nil hmem

/-- One name, one stripe and two connections. -/
def oneName : Config Bool Unit Unit := ⟨fun _ => (), fun _ => ()⟩

/-- The handshake passes the ban check, the name is banned and the hook finds nothing, and then the
handshake goes on. -/
theorem banned_after_reload : ∃ (s : State Bool Unit Unit) (c : Bool),
    (system oneName fun _ => false).Reach Lts.always s ∧ s.reload = .idle ∧ s.Open c ∧
      s.banned (oneName.name c) = true := by
  obtain ⟨s, hrun, hidle, hopen, hban⟩ : ∃ s : State Bool Unit Unit,
      (system oneName fun _ => false).exec [.banCheck true, .commit fun _ => true, .scan, .evict,
        .lock true, .bindRoute true true, .insert true, .registered true] = some s ∧
      s.reload = .idle ∧ s.Open true ∧ s.banned () = true := ⟨_, rfl, rfl, ⟨rfl, rfl⟩, rfl⟩
  exact ⟨s, true, Lts.reach_of_exec hrun, hidle, hopen, hban⟩

/-- A connection that is there when its name is banned is closed; after the ban is lifted another
one is open. -/
theorem open_after_unban : ∃ s : State Bool Unit Unit, s.closed true = true ∧ s.Open false ∧
    s.banned (oneName.name false) = false := by
  obtain ⟨s, hrun, hidle, hclosed, hopen⟩ : ∃ s : State Bool Unit Unit,
      (system oneName fun _ => false).execWith (NonePending oneName)
        (system oneName fun _ => false).init
        [.banCheck true, .lock true, .bindRoute true true, .insert true, .registered true,
          .commit fun _ => true, .scan, .evict, .evict, .leave true, .commit fun _ => false, .scan,
          .evict, .banCheck false, .lock false, .bindRoute false true, .insert false] = some s ∧
      s.reload = .idle ∧ s.closed true = true ∧ s.Open false := ⟨_, rfl, rfl, rfl, ⟨rfl, rfl⟩⟩
  exact ⟨s, hclosed, hopen, no_open_banned (Lts.reach_of_execWith hrun) hidle false hopen⟩

end Tunneld.Bans

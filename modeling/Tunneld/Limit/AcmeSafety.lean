import Tunneld.Limit.AcmeReserve

/-!
# Reservations are covered

The commands of `CommitACME`, and from all the steps together the safety of the budgets
(`reservations_covered`): the live reservations of a bucket are never more than its tokens, and a
refusal leaves no trace.

A commit that looks at the clock before its reservation's deadline has passed spends a token that
is still its own (`Inv.commitSet`): whoever has reserved meanwhile has counted it.  "Before" is in
milliseconds, the unit of the scores.  In the millisecond of its deadline a reservation can be
pruned and its token given to somebody else, with time left to commit both.

## Main results

* `Inv.next`: every command of a section keeps the invariant;
* `reservations_covered`: what this means for the tokens, the sets and the refusals;
* `overspent_in_last_millisecond`: commits in the millisecond of their deadline.
-/

namespace Tunneld.AcmeBudget

open Clock

variable {β η μ : Type} {cfg : Config β η μ} [DecidableEq μ]
variable {s s' : State β η μ} {m : μ}

namespace Inv

section Commit

variable {b : β} {now : Int} {level : TokenBucket.Level}

/-- `CommitACME` looks at the clock.  Its reservation counts from here on, whatever the time. -/
theorem commitClock (h : Inv cfg s) (hp : s.phase m = .commitClock b) (hlive : s.Unexpired m) :
    Inv cfg (s.setPhase m (.commitRead b s.now)) := by
  have hl := h.lock m (by rw [hp]; rfl)
  have hk : s.token m b = .reserved := by have hk := h.knows m; rw [hp] at hk; exact hk
  have htime := h.time (by rw [hl]; exact Option.some_ne_none m)
  refine h.setPhase (fun _ => hl) (fun b' _ ht => ⟨ht, .inl hlive⟩) (fun b' hb => ?_) (fun b' hb => ?_)
    (fun b' hb => ?_) (fun b' hb => ?_) List.nodup_nil
    ⟨hk, ⟨htime.1, le_refl _⟩, hlive, fun f hf => h.safe b f hf⟩
  · rw [hp] at hb; cases hb
  · rw [hp] at hb; cases hb
  · rw [hp] at hb; cases hb
  · rcases hb with hb | hb <;> cases hb

theorem commitRead (h : Inv cfg s) (hp : s.phase m = .commitRead b now) :
    Inv cfg (s.setPhase m
      (.commitSet b now (parseBucket (cfg.bucket b) (s.budget b) now))) := by
  have hl := h.lock m (by rw [hp]; rfl)
  have hk := h.knows m
  rw [hp] at hk
  refine h.setPhase (fun _ => hl) (fun b' hb ht => ⟨ht, .inr (by rw [hp]; exact hb)⟩)
    (fun b' hb => ?_) (fun b' hb => ?_) (fun b' hb => ?_) (fun b' hb => ?_) List.nodup_nil
    ⟨hk.1, hk.2.1, hk.2.2.1, tokens_parseBucket _ _ _ (h.capped b), hk.2.2.2⟩
  · rw [hp] at hb; cases hb
  · rw [hp] at hb; cases hb
  · rw [hp] at hb; cases hb
  · rcases hb with hb | hb <;> cases hb

omit [DecidableEq μ] in
theorem tokens_spend (hlevel : level.tokens ≤ (cfg.bucket b).capacity) :
    ((cfg.bucket b).spend level now).tokens ≤ (cfg.bucket b).capacity ∧
      ((cfg.bucket b).spend level now).tokens = (cfg.bucket b).tokensAt level now - 1 := by
  have hspend : ((cfg.bucket b).spend level now).tokens = (cfg.bucket b).tokensAt level now - 1 :=
    TokenBucket.tokens_spendN 1
  have hcap : (cfg.bucket b).tokensAt level now ≤ _ := TokenBucket.tokensAt_le hlevel
  exact ⟨by rw [hspend]; linarith, hspend⟩

end Commit

end Inv

variable [DecidableEq β]

/-- The order has spent its token of the bucket and the level is down to `level`. -/
structure Spent (s s' : State β η μ) (m : μ) (b : β) (level : TokenBucket.Level) : Prop
    extends Turn s s' m b where
  token_spent : s'.token m b = .spent
  budget : ∀ b', (b' = b ∧ s'.budget b' = hset (s.budget b) level) ∨
    (b' ≠ b ∧ s'.budget b' = s.budget b')

namespace Spent

variable {b b' : β} {level : TokenBucket.Level} {m' : μ}

theorem inForce_of (hs : Spent s s' m b level) (hcommit : (s'.phase m).committing = none)
    (hf : s'.InForce m' b') : (m' ≠ m ∨ b' ≠ b) ∧ s.InForce m' b' := by
  have hne : ¬ (m' = m ∧ b' = b) := by
    rintro ⟨rfl, rfl⟩
    have ht := hf.1
    rw [hs.token_spent] at ht; cases ht
  exact ⟨not_and_or.1 hne, (hs.inForce hcommit hf).resolve_left hne⟩

omit [DecidableEq β] [DecidableEq μ] in
theorem capped (hs : Spent s s' m b level) (h : Capped cfg s)
    (hcap : level.tokens ≤ (cfg.bucket b).capacity) : Capped cfg s' := by
  intro b' x hx
  rcases hs.budget b' with ⟨rfl, he⟩ | ⟨-, he⟩ <;> rw [he] at hx
  · cases hx
    exact hcap
  · exact h b' x hx

/-- The order itself counted, so the others had a token less to share. -/
theorem safe (hs : Spent s s' m b level) (h : Inv cfg s) (hcommit : (s'.phase m).committing = none)
    (hself : s.InForce m b) (hcap : level.tokens ≤ (cfg.bucket b).capacity)
    (hcover : ∀ f : Finset μ, (∀ m' ∈ f, s.InForce m' b) → (f.card : ℚ) ≤ level.tokens + 1)
    (b' : β) (f : Finset μ) (hf : ∀ m' ∈ f, s'.InForce m' b') :
    (f.card : ℚ) ≤ s'.tokens cfg b' := by
  rcases hs.budget b' with ⟨rfl, he⟩ | ⟨-, he⟩
  · have hnot : m ∉ f := fun hmem =>
      (hs.inForce_of hcommit (hf m hmem)).1.elim (fun hx => hx rfl) fun hx => hx rfl
    have hall := hcover (insert m f) fun m' hm' => by
      rcases Finset.mem_insert.1 hm' with rfl | hmem
      · exact hself
      · exact (hs.inForce_of hcommit (hf m' hmem)).2
    rw [Finset.card_insert_of_notMem hnot] at hall
    push_cast at hall
    have hle : level.tokens ≤ s'.tokens cfg b' := by
      rw [State.tokens, he]
      exact TokenBucket.le_tokensAt (s := ⟨level.tokens, _⟩) hcap
    linarith
  · have hsame : s'.tokens cfg b' = s.tokens cfg b' := by
      rw [State.tokens, State.tokens, he, hs.now]
    rw [hsame]
    exact h.safe b' f fun m' hm' => (hs.inForce_of hcommit (hf m' hm')).2

end Spent

namespace Inv

section Commit

variable {b : β} {now : Int} {level : TokenBucket.Level}

/-- **Spending a reservation**: one token less, and one reservation less that counts. -/
theorem commitSet (h : Inv cfg s) (hp : s.phase m = .commitSet b now level) :
    Inv cfg (((s.setBudget b (hset (s.budget b) ((cfg.bucket b).spend level now))).setToken m b
      .spent).setPhase m (.commitExpire b now ((cfg.bucket b).spend level now))) := by
  have hm : (s.phase m).holds = true := by rw [hp]; rfl
  have hk := h.knows m
  rw [hp] at hk
  obtain ⟨htoken, -, -, hcap, hcover⟩ := hk
  set spent := (cfg.bucket b).spend level now with hspent
  obtain ⟨hcap', htokens⟩ : spent.tokens ≤ (cfg.bucket b).capacity ∧
      spent.tokens = (cfg.bucket b).tokensAt level now - 1 := tokens_spend hcap
  set s' := ((s.setBudget b (hset (s.budget b) spent)).setToken m b .spent).setPhase m
    (.commitExpire b now spent) with hs'
  have hph : s'.phase m = .commitExpire b now spent := Function.update_self ..
  have hs : Spent s s' m b spent :=
    { turn_setToken s m b .spent (.commitExpire b now spent) with
      token_spent := by simp [hs', State.setPhase, State.setToken]
      budget := budget_setBudget s b _ }
  have hcommit : (s'.phase m).committing = none := by rw [hph]; rfl
  refine hs.inv h hm (hs.capped h.capped hcap')
    (hs.safe h hcommit ⟨htoken, .inr (by rw [hp]; rfl)⟩ hcap' fun f hf => ?_)
    (fun m' b' hf => h.mem m' b' (hs.inForce_of hcommit hf).2) (fun b' n' m' hmem => ?_)
    (fun b' n' m' d hmem hd => hs.ttl h (by rw [hp]; rfl) hmem hd) h.alive
    (fun b' n' hd => .inl (h.members_of_keyless hm (by rw [hp]; rfl) hd)) (fun b' hb' => ?_)
    (by rw [hph]; exact List.nodup_nil) (by rw [hph]; exact hs.token_spent)
  · have hle := hcover f hf
    linarith
  · obtain ⟨h1, h2, -⟩ := h.score b' n' m' hmem
    refine ⟨h1, h2, ?_⟩
    by_cases hmb : m' = m ∧ b' = b
    · obtain ⟨rfl, rfl⟩ := hmb
      exact .inr (by rw [hph]; rfl)
    · exact hs.reserved_or_removing h (by rw [hp]; rfl) (not_and_or.1 hmb) hmem
  · rw [hph] at hb'
    rcases hb' with hb' | hb' <;> cases hb'

omit [DecidableEq μ] in
theorem hpexpire {nowMs ttl : Int} (h : Inv cfg s) :
    Inv cfg (s.setBudget b (AcmeBudget.hpexpire (s.budget b) nowMs ttl)) := by
  refine h.environment ⟨le_refl _, rfl, fun b' => ?_, fun _ _ hm => hm, fun _ _ _ hm => ⟨hm, rfl⟩,
    fun _ _ hd => .inr hd⟩ rfl rfl rfl (fun hl => (h.time hl).2) (fun _ _ => .inr rfl)
    (fun _ _ _ hm => hm) h.alive fun _ _ => .inl rfl
  rcases budget_setBudget s b (AcmeBudget.hpexpire (s.budget b) nowMs ttl) b' with
    ⟨rfl, he⟩ | ⟨-, he⟩ <;> rw [he]
  · rw [AcmeBudget.hpexpire]
    split
    · exact .inl rfl
    · cases s.budget b' with
      | none => exact .inl rfl
      | some x => exact .inr ⟨x, _, rfl, rfl, rfl, rfl⟩
  · exact budget_same (s.budget b')

omit [DecidableEq β] in
theorem setPhase_commitRem (h : Inv cfg s) (hp : s.phase m = .commitExpire b now level) :
    Inv cfg (s.setPhase m (.commitRem b)) := by
  have hk := h.knows m
  rw [hp] at hk
  refine h.setPhase (fun _ => h.lock m (by rw [hp]; rfl)) (fun _ hb => nomatch hb)
    (fun b' hb => .inl (by rw [hp] at hb; exact hb)) (fun b' hb => ?_) (fun b' hb => ?_)
    (fun b' hb => ?_) List.nodup_nil hk
  · rw [hp] at hb; cases hb
  · rw [hp] at hb; cases hb
  · rcases hb with hb | hb <;> cases hb

theorem commitRem [DecidableEq η] (h : Inv cfg s) (hp : s.phase m = .commitRem b) :
    Inv cfg ((s.setInflight b (cfg.node m) ((s.inflight b (cfg.node m)).zrem m)).setPhase m
      .commitUnlock) := by
  set n := cfg.node m with hn
  have hk : s.token m b = .spent := by have hk := h.knows m; rw [hp] at hk; exact hk
  have h1 : Inv cfg (s.setInflight b n ((s.inflight b n).zrem m)) := by
    refine h.restrict fun m' hm' hn' => Finset.mem_erase.2 ⟨?_, hn' ▸ h.mem m' b hm'⟩
    rintro rfl
    have ht := hm'.1
    rw [hk] at ht; cases ht
  have hp1 : (s.setInflight b n ((s.inflight b n).zrem m)).phase m = .commitRem b := hp
  refine h1.setPhase (fun _ => h.lock m (by rw [hp]; rfl)) (fun _ hb => nomatch hb)
    (fun b' hb => .inr fun n' hmem => ?_) (fun b' hb => ?_) (fun b' hb => ?_) (fun b' hb => ?_)
    List.nodup_nil trivial
  · rw [hp1] at hb; cases hb
    rcases inflight_setInflight s b n ((s.inflight b n).zrem m) b n' with
      ⟨-, rfl, he⟩ | ⟨hne, he⟩ <;> rw [he] at hmem
    · exact (SortedSet.mem_zrem.1 hmem).1 rfl
    · exact hne.elim (fun hb => hb rfl) fun hnode => hnode (h.score b n' m hmem).1.symm
  · rw [hp1] at hb; cases hb
  · rw [hp1] at hb; cases hb
  · rcases hb with hb | hb <;> cases hb

end Commit

end Inv

variable [DecidableEq η]

/-! ## Every step -/

namespace Phase

/-- `CommitACME` is about to look at the clock. -/
def readsClock : Phase β η → Bool
  | .commitClock _ => true
  | _ => false

/-- The order is in `CommitACME`. -/
def commits : Phase β η → Bool
  | .commitLock _ | .commitClock _ | .commitRead .. | .commitSet .. | .commitExpire .. |
    .commitRem _ | .commitUnlock => true
  | _ => false

end Phase

/-- The guard of the runs that are safe: `CommitACME` looks at the clock in a millisecond before
that of its reservation's deadline. -/
def InTime (s : State β η μ) : Act β η μ → Prop
  | .cmd m => (s.phase m).readsClock = true → s.Unexpired m
  | _ => True

instance (s : State β η μ) (a : Act β η μ) : Decidable (InTime s a) := by
  unfold InTime State.Unexpired; split <;> infer_instance

namespace Inv

/-- Every command of a section keeps the invariant. -/
theorem next (h : Inv cfg s) (hg : ∀ b, s.phase m = .commitClock b → s.Unexpired m)
    (hn : Next cfg s m s') : Inv cfg s' := by
  cases hn with
  | lock hp hl =>
    refine h.acquire hl rfl (by rw [hp]; rfl) (fun b _ => ?_) ?_ fun _ _ => trivial
    · exact h.fresh m b (.inl (by rw [hp]; rfl))
    · have hnd := h.nodup m
      rw [hp] at hnd
      exact hnd
  | clock hp => exact h.clock hp
  | startCount hp => exact h.startCount hp
  | read hp => exact h.read hp
  | startCheck hp => exact h.startCheck hp
  | prune hp => exact h.prune hp
  | count hp => exact h.count hp
  | refuse hp => exact h.refuse (by rw [hp]; rfl) (by rw [hp]; rfl) (by rw [hp]; rfl)
  | grant hp hroom => exact h.grant hp hroom
  | written hp => exact h.refuse (by rw [hp]; rfl) (by rw [hp]; rfl) (by rw [hp]; rfl)
  | zadd hp => exact h.zadd hp
  | @expireNX r b todo hp =>
    refine (h.expireNX hp).setPhase_expireGT hp fun hnone => ?_
    rcases inflight_setInflight s b (cfg.node m) _ b (cfg.node m) with ⟨-, -, he⟩ | ⟨hx, -⟩
    · rw [he] at hnone ⊢
      exact SortedSet.deadline_expireNX hnone
    · exact (hx.elim (fun hx => hx rfl) fun hx => hx rfl).elim
  | @expireGT r b todo hp =>
    obtain ⟨h1, hmain⟩ := h.expireGT hp rfl
    refine h1.setPhase_zadd hp ?_
    rcases inflight_setInflight s b (cfg.node m) _ b (cfg.node m) with ⟨-, -, he⟩ | ⟨hx, -⟩
    · rw [he]; exact hmain
    · exact (hx.elim (fun hx => hx rfl) fun hx => hx rfl).elim
  | unlock hp =>
    refine h.drop (by rw [hp]; rfl) ?_ (by rw [hp]; rfl) (by rw [hp]; rfl) ?_ fun _ => ?_ <;> split
    all_goals first | exact ⟨rfl, rfl⟩ | rfl | trivial
  | @commitLock b hp hl =>
    have hk : s.token m b = .reserved := by have hk := h.knows m; rw [hp] at hk; exact hk
    refine h.acquire hl rfl (by rw [hp]; rfl) (fun b' hb => ?_) List.nodup_nil
      fun _ htok => (htok b).trans hk
    rcases hb with hb | hb <;> cases hb
  | commitClock hp => exact h.commitClock hp (hg _ hp)
  | commitRead hp => exact h.commitRead hp
  | commitSet hp => exact h.commitSet hp
  | commitExpire hp => exact h.hpexpire.setPhase_commitRem (by exact hp)
  | commitRem hp => exact h.commitRem hp
  | commitUnlock hp =>
    exact h.drop (by rw [hp]; rfl) rfl (by rw [hp]; rfl) (by rw [hp]; rfl) ⟨rfl, rfl⟩
      fun _ => trivial

theorem step {a : Act β η μ} (h : Inv cfg s) (hg : InTime s a)
    (hs : AcmeBudget.step cfg s a = some s') : Inv cfg s' := by
  cases step_cases hs with
  | reserve hp hbs => exact h.reserve hp hbs
  | commit hp ht => exact h.commit hp ht
  | cmd hn => exact h.next (fun b hp => hg (by rw [hp]; rfl)) hn
  | release hp ht => exact h.release hp ht
  | lapseBudget => exact h.lapseBudget
  | lapseInflight hl => exact h.lapseInflight hl
  | tick hd => exact h.tick hd

end Inv

theorem init_inv (cfg : Config β η μ) : Inv cfg (system cfg).init where
  lock := fun _ h => nomatch h
  time := fun h => absurd rfl h
  capped := fun _ _ h => nomatch h
  safe := fun b f hf => by
    have hempty : f = ∅ := Finset.eq_empty_of_forall_notMem fun m hm => nomatch (hf m hm).1
    rw [hempty, Finset.card_empty, Nat.cast_zero]
    exact le_trans (capacity_nonneg cfg b) (le_of_eq TokenBucket.tokensAt_full.symm)
  mem := fun _ _ h => nomatch h.1
  score := fun _ _ _ h => nomatch h
  ttl := fun _ _ _ _ h => nomatch h
  alive := fun _ _ _ => rfl
  keyed := fun _ _ _ => .inl rfl
  fresh := fun _ _ _ => rfl
  nodup := fun _ => List.nodup_nil
  knows := fun _ => trivial

theorem inv_of_reach (h : (system cfg).Reach InTime s) : Inv cfg s :=
  h.invariant (init_inv cfg) fun _ _ _ _ hi hg hs => hi.step hg hs

/-! ## Refusals -/

namespace Phase

/-- The order has been granted its reservations, or is being granted them. -/
def granted : Phase β η → Bool
  | .idle | .lock _ | .clock _ | .read .. | .prune .. | .card .. | .check _ | .refused _ => false
  | .unlock wait => wait ≤ 0
  | _ => true

end Phase

/-- All that has happened to the store is that expired reservations have been removed. -/
def Pruning (s s' : State β η μ) : Prop :=
  s'.budget = s.budget ∧ ∀ b n, s'.inflight b n = s.inflight b n ∨
    ∃ now ≤ s.now, s'.inflight b n = (s.inflight b n).zremrangebyscore (unixMilli now)

omit [DecidableEq β] [DecidableEq η] in
theorem pruning_refl (s : State β η μ) : Pruning s s := ⟨rfl, fun _ _ => .inl rfl⟩

/-- What a command of an order that has not been granted anything can do. -/
theorem next_not_granted (h : Inv cfg s) (hgr : (s.phase m).granted = false)
    (hn : Next cfg s m s') : Pruning s s' := by
  cases hn with
  | @prune r b n todo hp =>
    have hk := h.knows m
    rw [hp] at hk
    refine ⟨rfl, fun b' n' => ?_⟩
    rcases inflight_setInflight s b n ((s.inflight b n).zremrangebyscore (unixMilli r.now))
      b' n' with ⟨rfl, rfl, he⟩ | ⟨-, he⟩
    · exact .inr ⟨r.now, hk.1.2, he⟩
    · exact .inl he
  | lock | clock | startCount | read | startCheck | count | refuse | grant | unlock =>
    exact pruning_refl s
  | written hp | zadd hp | expireNX hp | expireGT hp | commitLock hp | commitClock hp
  | commitRead hp | commitSet hp | commitExpire hp | commitRem hp | commitUnlock hp =>
    rw [hp] at hgr; cases hgr

theorem next_phase (hn : Next cfg s m s') : ∃ ph, s'.phase = Function.update s.phase m ph := by
  cases hn <;> exact ⟨_, rfl⟩

/-- What has been granted is not refused later. -/
theorem granted_next {m' : μ} (hgr : (s.phase m').granted = true) (hn : Next cfg s m s') :
    (s'.phase m').granted = true := by
  by_cases hm : m' = m
  · subst hm
    cases hn with
    | lock hp | clock hp | startCount hp | read hp | startCheck hp | prune hp | count hp
    | refuse hp | grant hp => rw [hp] at hgr; cases hgr
    | @unlock wait hp =>
      rw [hp] at hgr
      have hle : ¬ 0 < wait := by simpa [Phase.granted] using hgr
      simp [State.setPhase, hle, Phase.granted]
    | written | zadd | expireNX | expireGT | commitLock | commitClock | commitRead | commitSet |
      commitExpire | commitRem | commitUnlock =>
      simp [State.setPhase, State.setInflight, State.setBudget, State.setToken, Phase.granted]
  · obtain ⟨ph, hph⟩ := next_phase hn
    rw [hph, Function.update_of_ne hm]
    exact hgr

theorem granted_step {a : Act β η μ} (hgr : (s.phase m).granted = true)
    (hs : step cfg s a = some s') : (s'.phase m).granted = true := by
  -- an action on another order, or one that leaves the phases alone
  have hother : ∀ (u : State β η μ) m' ph, u.phase = s.phase → (s.phase m').granted = false ∨
      ph.granted = true → ((u.setPhase m' ph).phase m).granted = true := by
    intro u m' ph hu hph
    rcases phase_setPhase u m' ph m with ⟨rfl, he⟩ | ⟨-, he⟩ <;> rw [he]
    · exact hph.resolve_left (by simp [hgr])
    · rw [hu]; exact hgr
  cases step_cases hs with
  | reserve hp => exact hother _ _ _ rfl (.inl (by rw [hp]; rfl))
  | commit => exact hother _ _ _ rfl (.inr rfl)
  | cmd hn => exact granted_next hgr hn
  | release | lapseBudget | lapseInflight | tick => exact hgr

/-- An order that is refused in the end has not been granted anything. -/
theorem not_granted_of_refused {t : State β η μ} {wait : Int}
    (hl : (system cfg).Later Lts.always s t) (ht : t.phase m = .refused wait) :
    (s.phase m).granted = false := by
  by_contra hgr
  have hend : (t.phase m).granted = true :=
    hl.stable (P := fun u => (u.phase m).granted = true)
      (fun _ _ _ hu _ hs => granted_step hu hs) (by simpa using hgr)
  rw [ht] at hend; cases hend

omit [DecidableEq β] [DecidableEq η] [DecidableEq μ] in
/-- A live reservation is a member of its node's set, and the other way round but for an order that
has spent its token and not yet removed its reservation. -/
theorem Inv.live_iff (h : Inv cfg s) (m : μ) (b : β) :
    s.Live m b ↔ m ∈ (s.inflight b (cfg.node m)).members ∧ s.Unexpired m ∧
      (s.phase m).removing ≠ some b := by
  constructor
  · rintro ⟨ht, hlive⟩
    refine ⟨h.mem m b ⟨ht, .inl hlive⟩, hlive, fun hr => ?_⟩
    have hk := h.knows m
    cases hp : s.phase m <;> rw [hp] at hr hk <;> cases hr
    all_goals
      have hspent : s.token m b = .spent := hk
      rw [ht] at hspent; cases hspent
  · rintro ⟨hmem, hlive, hr⟩
    exact ⟨(h.score b _ m hmem).2.2.resolve_right hr, hlive⟩

/-! ## The result -/

/-- **Reservations are covered, and refusals leave no trace.**  However the orders of one authority
interleave, as long as every `CommitACME` looks at the clock in a millisecond before that of its
reservation's deadline:

* the live reservations of a bucket, those of orders that have neither expired nor been spent nor
  been given back, are never more than the tokens it holds;
* they are the unexpired members of the in-flight sets, except for an order between writing its
  spend and removing its reservation;
* a `ReserveACME` with a bucket that is short is refused;
* and nothing a refused one does on its way changes the store, beyond removing expired
  reservations. -/
theorem reservations_covered (h : (system cfg).Reach InTime s) :
    (∀ b (f : Finset μ), (∀ m ∈ f, s.Live m b) → (0 : ℚ) ≤ s.tokens cfg b - f.card) ∧
    (∀ m b, s.Live m b ↔ m ∈ (s.inflight b (cfg.node m)).members ∧ s.Unexpired m ∧
      (s.phase m).removing ≠ some b) ∧
    (∀ m r, s.phase m = .check r → (∃ b ∈ r.bs, spare cfg r b < 1) →
      ∃ wait, 0 < wait ∧ step cfg s (.cmd m) = some (s.setPhase m (.unlock wait))) ∧
    ∀ m s' t wait, step cfg s (.cmd m) = some s' → (system cfg).Later Lts.always s' t →
      t.phase m = .refused wait → Pruning s s' := by
  have hi := inv_of_reach h
  refine ⟨fun b f hf => ?_, hi.live_iff, fun m r hp hshort => ?_, fun m s' t wait hs hl ht => ?_⟩
  · have hle := hi.safe b f fun m hm => ⟨(hf m hm).1, .inl (hf m hm).2⟩
    linarith
  · obtain ⟨b, hb, hs⟩ := hshort
    have hle := (second_le_foldl_longer r r.bs 0).2 b hb hs
    have hpos : 0 < shortage cfg r := lt_of_lt_of_le (by decide) hle
    refine ⟨shortage cfg r, hpos, ?_⟩
    show next cfg s m = _
    simp only [next, hp, if_pos hpos]
  · refine next_not_granted hi ?_ (next_cases hs)
    by_contra hgr
    have hgr' := granted_step (a := .cmd m) (by simpa using hgr) hs
    rw [not_granted_of_refused hl ht] at hgr'
    cases hgr'

/-- The guard that says the same to the nanosecond: every command of a `CommitACME`, and every
`ReleaseACME`, comes before its reservation's deadline. -/
def BeforeDeadline (s : State β η μ) : Act β η μ → Prop
  | .cmd m => (s.phase m).commits = true → s.now < s.deadline m
  | .commit m _ | .release m _ => s.now < s.deadline m
  | _ => True

instance (s : State β η μ) (a : Act β η μ) : Decidable (BeforeDeadline s a) := by
  unfold BeforeDeadline; split <;> infer_instance

/-- One bucket of one token an hour, one node and two orders. -/
def oneToken : Config Unit Unit Bool where
  rate := fun _ => ⟨1, 3600 * second, 1⟩
  burst_pos := fun _ => by decide
  live := [()]
  live_all := fun _ => List.mem_singleton.2 rfl
  node := fun _ => ()

/-- A whole `ReserveACME` of the bucket. -/
def reserveAll (m : Bool) (deadline : Int) : List (Act Unit Unit Bool) :=
  .reserve m [()] deadline :: List.replicate 13 (.cmd m)

/-- A `CommitACME` of the bucket, up to writing its spend. -/
def commitSpend (m : Bool) : List (Act Unit Unit Bool) := .commit m () :: List.replicate 4 (.cmd m)

/-- Two ways in which the books are out before every deadline.  An order reserves with a deadline
of 10.9 ms; at 10.5 ms another one prunes that reservation, its score being 10, and reserves the
same token; and both commit, the first at 10.6 ms.  And a single order that commits has spent its
token while its reservation is still in the set. -/
theorem overspent_in_last_millisecond :
    (∃ s, (system oneToken).Reach BeforeDeadline s ∧ s.tokens oneToken () < 0) ∧
    ∃ s, (system oneToken).Reach BeforeDeadline s ∧
      s.tokens oneToken () < ((s.inflight () ()).members.filter fun m =>
        unixMilli s.now < (s.inflight () ()).score m).card := by
  refine ⟨?_, ?_⟩
  · have hrun : ((system oneToken).execWith BeforeDeadline (system oneToken).init
        (reserveAll true 10900000 ++ [Act.tick 10500000] ++ reserveAll false (60 * second) ++
          [Act.tick 100000] ++ commitSpend true ++ List.replicate 3 (Act.cmd true) ++
          commitSpend false)).any (fun s => s.tokens oneToken () < 0) = true := by decide +kernel
    exact Lts.exists_reach_of_any hrun
  · have hrun : ((system oneToken).execWith BeforeDeadline (system oneToken).init
        (reserveAll true (60 * second) ++ commitSpend true)).any (fun s =>
          s.tokens oneToken () < ((s.inflight () ()).members.filter fun m =>
            unixMilli s.now < (s.inflight () ()).score m).card) = true := by decide +kernel
    exact Lts.exists_reach_of_any hrun

/-- The first order holds the only token, and the second one has been refused. -/
theorem second_order_refused : ∃ s : State Unit Unit Bool, s.Live true () ∧
    s.token false () = .none ∧ 0 ≤ s.tokens oneToken () - (({true} : Finset Bool).card : ℚ) := by
  have hrun : ((system oneToken).execWith InTime (system oneToken).init
      (reserveAll true (60 * second) ++ [Act.reserve false [()] (60 * second)] ++
        List.replicate 9 (Act.cmd false))).any (fun s => s.token true () = .reserved ∧
          unixMilli s.now < unixMilli (s.deadline true) ∧ s.token false () = .none) = true := by
    decide +kernel
  obtain ⟨s, hreach, hres, hlive, hnone⟩ := Lts.exists_reach_of_any hrun
  refine ⟨s, ⟨hres, hlive⟩, hnone, (reservations_covered hreach).1 () {true} fun m hm => ?_⟩
  rw [Finset.mem_singleton.1 hm]
  exact ⟨hres, hlive⟩

end Tunneld.AcmeBudget

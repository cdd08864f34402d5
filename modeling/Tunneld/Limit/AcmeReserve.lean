import Tunneld.Limit.AcmeInvariant

/-!
# Reserving

The commands of `ReserveACME`, one at a time, keep the invariant of `Tunneld.Limit.AcmeInvariant`.

Up to the check a section only finds things out: each command adds to what it knows (`Inv.read`,
`Inv.prune`, `Inv.count`), and at the check this amounts to room for one more in every bucket
(`Inv.grant`).  Writing the reservation takes that room (`Inv.zadd`).  The two commands after it
see to the set's time to live: `EXPIRE NX` for a set that has just come into being, `EXPIRE GT` for
one that was there.  An order so late that its time to live would be negative makes the store drop
the set; then nobody else was in it.
-/

namespace Tunneld.AcmeBudget

open Function Clock

variable {β η μ : Type} {cfg : Config β η μ}
variable {s s' : State β η μ} {m : μ}

/-! ## The commands of a section -/

/-- The time to live a reservation gives its set is almost a minute more than it needs. -/
theorem le_inflightTTL {deadline now now' : Int} (hle : now ≤ now')
    (hpos : 0 < inflightTTL deadline now) :
    unixMilli deadline + 58000 ≤ unixMilli now' + inflightTTL deadline now := by
  have hd : 0 < deadline - now + inflightKeyMargin := by
    by_contra hd
    have hnonpos := formatSec_nonpos (not_lt.1 hd)
    rw [inflightTTL] at hpos
    omega
  have hround := (formatSec_pos hd).2
  rw [inflightTTL]
  simp only [unixMilli, millisecond, inflightKeyMargin, second] at *
  omega

/-- It is not positive only for an order whose time was over a minute ago. -/
theorem deadline_of_inflightTTL {deadline now : Int} (hpos : ¬ 0 < inflightTTL deadline now) :
    deadline ≤ now - inflightKeyMargin := by
  by_contra hlt
  have hround := (formatSec_pos (d := deadline - now + inflightKeyMargin) (by omega)).1
  rw [inflightTTL] at hpos
  omega

/-- The wait only grows, and one bucket that is short makes it a second. -/
theorem second_le_foldl_longer (r : Reserve β) (l : List β) (wait : Int) :
    wait ≤ l.foldl (longer cfg r) wait ∧
      ∀ b ∈ l, spare cfg r b < 1 → second ≤ l.foldl (longer cfg r) wait := by
  induction l generalizing wait with
  | nil => exact ⟨le_refl _, fun b hb => absurd hb List.not_mem_nil⟩
  | cons b l ih =>
    rw [List.foldl_cons]
    obtain ⟨hle, hall⟩ := ih (longer cfg r wait b)
    by_cases hshort : spare cfg r b < 1
    · have hstep : wait ≤ longer cfg r wait b ∧ second ≤ longer cfg r wait b := by
        rw [longer, if_pos hshort]
        exact ⟨le_trans (le_max_left _ _) (le_max_left _ _), le_max_right _ _⟩
      refine ⟨le_trans hstep.1 hle, fun b' hb' hs => ?_⟩
      rcases List.mem_cons.1 hb' with rfl | hb'
      · exact le_trans hstep.2 hle
      · exact hall b' hb' hs
    · have hstep : longer cfg r wait b = wait := by rw [longer, if_neg hshort]
      refine ⟨by rw [hstep] at hle ⊢; exact hle, fun b' hb' hs => ?_⟩
      rcases List.mem_cons.1 hb' with rfl | hb'
      · exact absurd hs hshort
      · exact hall b' hb' hs

theorem room_of_no_shortage {r : Reserve β} (h : ¬ 0 < shortage cfg r) (b : β) (hb : b ∈ r.bs) :
    1 ≤ spare cfg r b := by
  by_contra hshort
  have hle : second ≤ shortage cfg r := (second_le_foldl_longer r r.bs 0).2 b hb (not_le.1 hshort)
  have hpos : (0 : Int) < second := by decide
  exact h (lt_of_lt_of_le hpos hle)

namespace Inv

variable {ph : Phase β η}

theorem setPhase [DecidableEq μ] (h : Inv cfg s) (hholds : ph.holds = true → s.lock = some m)
    (hin : ∀ b, ph.committing = some b → s.token m b = .reserved → s.InForce m b)
    (hrem : ∀ b, (s.phase m).removing = some b → ph.removing = some b ∨
      ∀ n, m ∉ (s.inflight b n).members)
    (hexp : ∀ b, (s.phase m).expiring = some b → ph.expiring = some b ∨
      ∀ n d, m ∈ (s.inflight b n).members → (s.inflight b n).deadline = some d →
        unixMilli (s.deadline m) + 58000 ≤ d)
    (hkey : ∀ b, (s.phase m).keyless = some b → ph.keyless = some b ∨
      ((s.inflight b (cfg.node m)).deadline = none → (s.inflight b (cfg.node m)).members = ∅))
    (hfresh : ∀ b, ph.early = true ∨ b ∈ ph.pending → s.token m b = .none)
    (hnodup : ph.pending.Nodup) (hknows : Knows cfg s m ph) : Inv cfg (s.setPhase m ph) := by
  have hq : Quiet s (s.setPhase m ph) := by
    refine ⟨le_refl _, rfl, fun b => budget_same (s.budget b), fun m' b hm' => ?_,
      fun _ _ _ hm => ⟨hm, rfl⟩, fun _ _ hd => .inr hd⟩
    obtain ⟨ht, hlive | hc⟩ := hm'
    · exact ⟨ht, .inl hlive⟩
    · rcases phase_setPhase s m ph m' with ⟨rfl, he⟩ | ⟨-, he⟩ <;> rw [he] at hc
      · exact hin b hc ht
      · exact ⟨ht, .inr hc⟩
  refine ⟨fun m' hm' => ?_, h.time, h.capped, fun b f hf => ?_, fun m' b hm' => ?_,
    fun b n m' hm' => ?_, fun b n m' d hm' hd => ?_, h.alive, fun b n hd => ?_, fun m' b hm' => ?_,
    fun m' => ?_, fun m' => ?_⟩
  · rcases phase_setPhase s m ph m' with ⟨rfl, he⟩ | ⟨-, he⟩ <;> rw [he] at hm'
    · exact hholds hm'
    · exact h.lock m' hm'
  · exact h.safe b f fun m' hm' => hq.inForce m' b (hf m' hm')
  · exact h.mem m' b (hq.inForce m' b hm')
  · obtain ⟨h1, h2, h3⟩ := h.score b n m' hm'
    refine ⟨h1, h2, h3.imp id fun hr => ?_⟩
    rcases phase_setPhase s m ph m' with ⟨rfl, he⟩ | ⟨-, he⟩ <;> rw [he]
    · exact (hrem b hr).resolve_right fun hnot => hnot n hm'
    · exact hr
  · rcases h.ttl b n m' d hm' hd with hlate | ⟨hx, hlate⟩
    · exact .inl hlate
    · rcases phase_setPhase s m ph m' with ⟨rfl, he⟩ | ⟨-, he⟩ <;> rw [he]
      · rcases hexp b hx with hx | hmain
        · exact .inr ⟨hx, hlate⟩
        · exact .inl (hmain n d hm' hd)
      · exact .inr ⟨hx, hlate⟩
  · rcases h.keyed b n hd with hempty | ⟨m', hk, hn⟩
    · exact .inl hempty
    · rcases phase_setPhase s m ph m' with ⟨rfl, he⟩ | ⟨-, he⟩
      · rcases hkey b hk with hk | hempty
        · exact .inr ⟨m', by rw [he]; exact hk, hn⟩
        · subst hn
          exact .inl (hempty hd)
      · exact .inr ⟨m', by rw [he]; exact hk, hn⟩
  · rcases phase_setPhase s m ph m' with ⟨rfl, he⟩ | ⟨-, he⟩ <;> rw [he] at hm'
    · exact hfresh b hm'
    · exact h.fresh m' b hm'
  · rcases phase_setPhase s m ph m' with ⟨rfl, he⟩ | ⟨-, he⟩ <;> rw [he]
    · exact hnodup
    · exact h.nodup m'
  · rcases phase_setPhase s m ph m' with ⟨rfl, he⟩ | ⟨-, he⟩ <;> rw [he]
    · exact hq.knows h.capped (fun _ => rfl) rfl hknows
    · exact hq.knows h.capped (fun _ => rfl) rfl (h.knows m')

/-- Moving on between two phases that stand for nothing but their place in the section. -/
theorem setPhase_plain [DecidableEq μ] (h : Inv cfg s) (hholds : ph.holds = true → s.lock = some m)
    (hcommit : ph.committing = none) (hrem : (s.phase m).removing = none)
    (hexp : (s.phase m).expiring = none) (hkey : (s.phase m).keyless = none)
    (hfresh : ∀ b, ph.early = true ∨ b ∈ ph.pending → s.token m b = .none)
    (hnodup : ph.pending.Nodup) (hknows : Knows cfg s m ph) : Inv cfg (s.setPhase m ph) := by
  refine h.setPhase hholds (fun b hb => ?_) (fun b hb => ?_) (fun b hb => ?_) (fun b hb => ?_) hfresh
    hnodup hknows
  · rw [hcommit] at hb; cases hb
  · rw [hrem] at hb; cases hb
  · rw [hexp] at hb; cases hb
  · rw [hkey] at hb; cases hb

/-- Without the lock nobody is in a section. -/
theorem nobody (h : Inv cfg s) (hl : s.lock = none) (m : μ) : (s.phase m).holds = false := by
  by_contra hm
  have := h.lock m (by simpa using hm)
  rw [hl] at this; cases this

/-- The holder of the lock is the only one in a section. -/
theorem others (h : Inv cfg s) (hm : (s.phase m).holds = true) {m' : μ} (hne : m' ≠ m) :
    (s.phase m').holds = false := by
  by_contra hm'
  have h1 := h.lock m hm
  have h2 := h.lock m' (by simpa using hm')
  exact hne (Option.some_inj.1 (h2.symm.trans h1))

/-- The lock changes hands while nobody is in a section, before or after. -/
theorem setLock {l : Option μ} {t : Int} (h : Inv cfg s)
    (hout : ∀ m, (s.phase m).holds = true → l = some m ∧ Knows cfg { s with lockedAt := t } m
      (s.phase m) ∧ (s.phase m).expiring = none)
    (htime : l ≠ none → t ≤ s.now ∧ s.now ≤ t + budgetLockTTL) :
    Inv cfg { s with lock := l, lockedAt := t } := by
  refine ⟨fun m hm => (hout m hm).1, htime, h.capped, h.safe, h.mem, h.score,
    fun b n m d hm hd => ?_, h.alive, h.keyed, h.fresh, h.nodup, fun m => ?_⟩
  · refine (h.ttl b n m d hm hd).imp id fun hx => ?_
    have hnone := (hout m (holds_of_expiring hx.1)).2.2
    rw [hnone] at hx; cases hx.1
  · by_cases hm : (s.phase m).holds = true
    · exact (hout m hm).2.1
    · exact Knows.of_not_holds (s := s) (by simpa using hm) (fun _ => rfl) (h.knows m)

variable [DecidableEq μ]

theorem acquire (h : Inv cfg s) (hl : s.lock = none) (hcommit : ph.committing = none)
    (hrem : (s.phase m).removing = none)
    (hfresh : ∀ b, ph.early = true ∨ b ∈ ph.pending → s.token m b = .none)
    (hnodup : ph.pending.Nodup)
    (hknows : ∀ s' : State β η μ, (∀ b, s'.token m b = s.token m b) → Knows cfg s' m ph) :
    Inv cfg { s.setPhase m ph with lock := some m, lockedAt := s.now } := by
  -- first the lock, then the phase
  have hnobody := h.nobody hl
  have h1 : Inv cfg { s with lock := some m, lockedAt := s.now } :=
    h.setLock (fun m' hm' => absurd hm' (by rw [hnobody m']; exact Bool.false_ne_true))
      fun _ => ⟨le_refl _, by simp only [budgetLockTTL, second]; omega⟩
  have hout : ∀ b, (s.phase m).expiring = some b → False := fun b hb => by
    have := holds_of_expiring hb
    rw [hnobody m] at this; cases this
  refine h1.setPhase (fun _ => rfl) (fun b hb => ?_) (fun b hb => ?_)
    (fun b hb => (hout b hb).elim) (fun b hb => (hout b (expiring_of_keyless hb)).elim) hfresh hnodup
    (hknows _ fun _ => rfl)
  · rw [hcommit] at hb; cases hb
  · have hb' : (s.phase m).removing = some b := hb
    rw [hrem] at hb'; cases hb'

theorem drop (h : Inv cfg s) (hm : (s.phase m).holds = true) (hout : ph.holds = false)
    (hrem : (s.phase m).removing = none) (hexp : (s.phase m).expiring = none)
    (hpend : ph.early = false ∧ ph.pending = []) (hknows : ∀ s' : State β η μ, Knows cfg s' m ph) :
    Inv cfg { s.setPhase m ph with lock := none } := by
  have hkey := keyless_eq_none hexp
  have hcommit : ph.committing = none :=
    Option.eq_none_iff_forall_ne_some.2 fun b hc => by
      rw [holds_of_committing hc] at hout; cases hout
  have h1 : Inv cfg (s.setPhase m ph) := by
    refine h.setPhase_plain (fun hh => ?_) hcommit hrem hexp hkey (fun b hb => ?_) ?_ (hknows _)
    · rw [hout] at hh; cases hh
    · rw [hpend.1, hpend.2] at hb
      rcases hb with hb | hb <;> cases hb
    · rw [hpend.2]; exact List.nodup_nil
  refine h1.setLock (fun m' hm' => ?_) fun hne => absurd rfl hne
  rcases phase_setPhase s m ph m' with ⟨rfl, he⟩ | ⟨hne, he⟩ <;> rw [he] at hm'
  · rw [hout] at hm'; cases hm'
  · rw [h.others hm hne] at hm'; cases hm'

theorem setDeadline (h : Inv cfg s) (hp : s.phase m = .idle) (deadline : Int) :
    Inv cfg { s with deadline := update s.deadline m deadline } := by
  set s' : State β η μ := { s with deadline := update s.deadline m deadline } with hs'
  have htok : ∀ b, s.token m b = .none := fun b => h.fresh m b (.inl (by rw [hp]; rfl))
  have hdl : ∀ m', m' ≠ m → s'.deadline m' = s.deadline m' := fun m' hne =>
    update_of_ne hne ..
  have hmem : ∀ b n m', m' ∈ (s.inflight b n).members → m' ≠ m := by
    rintro b n m' hm' rfl
    rcases (h.score b n m' hm').2.2 with ht | hr
    · rw [htok b] at ht; cases ht
    · rw [hp] at hr; cases hr
  have hin : ∀ m' b, s'.InForce m' b → m' ≠ m ∧ s.InForce m' b := by
    intro m' b hm'
    have hne : m' ≠ m := by
      rintro rfl
      have ht : s.token m' b = .reserved := hm'.1
      rw [htok b] at ht; cases ht
    refine ⟨hne, hm'.1, hm'.2.imp (fun hlive => ?_) id⟩
    have hlt : unixMilli s.now < unixMilli (s'.deadline m') := hlive
    rw [hdl m' hne] at hlt
    exact hlt
  have hq : Quiet s s' := ⟨le_refl _, rfl, fun b => budget_same (s.budget b),
    fun m' b hm' => (hin m' b hm').2, fun _ _ _ hm' => ⟨hm', rfl⟩, fun _ _ hd => .inr hd⟩
  refine ⟨h.lock, h.time, h.capped, fun b f hf => h.safe b f fun m' hm' => (hin m' b (hf m' hm')).2,
    fun m' b hm' => h.mem m' b (hin m' b hm').2, fun b n m' hm' => ?_, fun b n m' d hm' hd => ?_,
    h.alive, h.keyed, h.fresh, h.nodup, fun m' => ?_⟩
  · rw [hdl m' (hmem b n m' hm')]
    exact h.score b n m' hm'
  · rw [hdl m' (hmem b n m' hm')]
    exact h.ttl b n m' d hm' hd
  · by_cases hm' : m' = m
    · subst hm'
      rw [show s'.phase m' = .idle from hp]
      trivial
    · exact hq.knows h.capped (fun _ => rfl) (hdl m' hm') (h.knows m')

theorem reserve {bs : List β} {deadline : Int} (h : Inv cfg s) (hp : s.phase m = .idle)
    (hbs : bs.Nodup) : Inv cfg (State.setPhase
      { s with deadline := update s.deadline m deadline } m
      (if bs = [] then .reserved else .lock bs)) := by
  have htok : ∀ b, s.token m b = .none := fun b => h.fresh m b (.inl (by rw [hp]; rfl))
  have h1 := h.setDeadline hp deadline
  split
  · refine h1.setPhase_plain (fun hh => nomatch hh) rfl (by rw [hp]; rfl) (by rw [hp]; rfl)
      (by rw [hp]; rfl) (fun b _ => htok b) List.nodup_nil trivial
  · refine h1.setPhase_plain (fun hh => nomatch hh) rfl (by rw [hp]; rfl) (by rw [hp]; rfl)
      (by rw [hp]; rfl) (fun b _ => htok b) hbs trivial

theorem commit {b : β} (h : Inv cfg s) (hp : s.phase m = .reserved)
    (ht : s.token m b = .reserved) : Inv cfg (s.setPhase m (.commitLock b)) := by
  refine h.setPhase_plain (fun hh => nomatch hh) rfl (by rw [hp]; rfl) (by rw [hp]; rfl)
    (by rw [hp]; rfl) (fun b' hb => ?_) List.nodup_nil ht
  rcases hb with hb | hb <;> cases hb

omit [DecidableEq μ] in
/-- A level read now is no more than what is there now. -/
theorem tokensRead_le_tokens {now : Int} (h : Inv cfg s) (hnow : now ≤ s.now) (b : β) :
    s.tokensRead cfg b now ≤ s.tokens cfg b := by
  have hcap := tokens_parseBucket (cfg.bucket b) (s.budget b) now (h.capped b)
  rw [State.tokensRead, State.tokens]
  cases hb : s.budget b with
  | none => rw [parseBucket, parseBucket, TokenBucket.tokensAt_full, TokenBucket.tokensAt_full]
  | some x =>
    rw [hb] at hcap
    exact TokenBucket.tokensAt_mono hcap hnow

section Reserve

variable {r : Reserve β} {b : β} {n : η}

/-- What the phases up to the check have in common. -/
theorem setPhase_early {ph : Phase β η} (h : Inv cfg s) (hm : (s.phase m).holds = true)
    (hearly : (s.phase m).early = true) (hcommit : ph.committing = none)
    (hpend : ph.pending = (s.phase m).pending) (hknows : Knows cfg s m ph) :
    Inv cfg (s.setPhase m ph) := by
  have hplain : (s.phase m).removing = none ∧ (s.phase m).expiring = none ∧
      (s.phase m).keyless = none := by
    cases hp : s.phase m <;> rw [hp] at hearly <;> first | exact ⟨rfl, rfl, rfl⟩ | cases hearly
  exact h.setPhase_plain (fun _ => h.lock m hm) hcommit hplain.1 hplain.2.1 hplain.2.2
    (fun b _ => h.fresh m b (.inl hearly)) (hpend ▸ h.nodup m) hknows

theorem clock {bs : List β} (h : Inv cfg s) (hp : s.phase m = .clock bs) :
    Inv cfg (s.setPhase m (.read ⟨bs, s.now, fun _ => ⟨0, 0⟩, fun _ => 0⟩ bs)) := by
  have hm : (s.phase m).holds = true := by rw [hp]; rfl
  have hl : s.lock ≠ none := by rw [h.lock m hm]; exact Option.some_ne_none m
  refine h.setPhase_early hm (by rw [hp]; rfl) rfl (by rw [hp]; rfl)
    ⟨⟨(h.time hl).1, le_refl _⟩, fun b hb hnot => absurd hb hnot⟩

theorem read [DecidableEq β] {todo : List β} (h : Inv cfg s)
    (hp : s.phase m = .read r (b :: todo)) :
    Inv cfg (s.setPhase m
      (.read (r.setLevel b (parseBucket (cfg.bucket b) (s.budget b) r.now)) todo)) := by
  have hm : (s.phase m).holds = true := by rw [hp]; rfl
  have hk := h.knows m
  rw [hp] at hk
  refine h.setPhase_early hm (by rw [hp]; rfl) rfl (by rw [hp]; rfl) ⟨hk.1, fun b' hb' hnot => ?_⟩
  show (cfg.bucket b').tokensAt (update r.states b _ b') r.now ≤ s.tokens cfg b'
  by_cases he : b' = b
  · subst he
    rw [update_self]
    exact h.tokensRead_le_tokens hk.1.2 b'
  · rw [update_of_ne he]
    exact hk.2 b' hb' (by simp [he, hnot])

theorem startCount (h : Inv cfg s) (hp : s.phase m = .read r []) :
    Inv cfg (s.setPhase m (.prune r (r.bs.product cfg.live))) := by
  have hm : (s.phase m).holds = true := by rw [hp]; rfl
  have hk := h.knows m
  rw [hp] at hk
  have hall : ∀ b ∈ r.bs, ∀ n, (b, n) ∈ r.bs.product cfg.live := fun b hb n =>
    List.mem_product.2 ⟨hb, cfg.live_all n⟩
  refine h.setPhase_early hm (by rw [hp]; rfl) rfl (by rw [hp]; rfl)
    ⟨hk.1, hk.2, fun b hb f hf => ?_, fun b hb n hnot => absurd (hall b hb n) hnot⟩
  have hempty : f = ∅ := Finset.eq_empty_of_forall_notMem fun m' hm' =>
    (hf m' hm').2 (hall b hb (cfg.node m'))
  rw [hempty]
  exact Nat.zero_le _

theorem prune [DecidableEq β] [DecidableEq η] {todo : List (β × η)} (h : Inv cfg s)
    (hp : s.phase m = .prune r ((b, n) :: todo)) :
    Inv cfg ((s.setInflight b n ((s.inflight b n).zremrangebyscore (unixMilli r.now))).setPhase m
      (.card r b n todo)) := by
  have hm : (s.phase m).holds = true := by rw [hp]; rfl
  have hcommit : (s.phase m).committing = none := by rw [hp]; rfl
  have hk := h.knows m
  rw [hp] at hk
  set z := (s.inflight b n).zremrangebyscore (unixMilli r.now) with hz
  -- a reservation that counts lies beyond the bound
  have h1 : Inv cfg (s.setInflight b n z) := by
    refine h.restrict fun m' hm' hn => ?_
    have hmem : m' ∈ (s.inflight b n).members := hn ▸ h.mem m' b hm'
    refine Finset.mem_filter.2 ⟨hmem, ?_⟩
    rw [(h.score b n m' hmem).2.1]
    exact lt_of_le_of_lt (unixMilli_mono hk.1.2) (h.unexpired hm hcommit hm')
  have hk1 := h1.knows m
  rw [show (s.setInflight b n z).phase m = .prune r ((b, n) :: todo) from hp] at hk1
  refine h1.setPhase_early hm (by rw [show (s.setInflight b n z).phase m = _ from hp]; rfl) rfl
    (by rw [show (s.setInflight b n z).phase m = _ from hp]; rfl)
    ⟨hk1.1, hk1.2.1, hk1.2.2.1, fun b' hb' n' hnot m' hm' => ?_⟩
  by_cases he : (b', n') = (b, n)
  · obtain ⟨rfl, rfl⟩ := Prod.mk.inj he
    rcases inflight_setInflight s b' n' z b' n' with ⟨-, -, hi⟩ | ⟨hne, -⟩
    · have hm'' : m' ∈ ((s.setInflight b' n' z).inflight b' n').members := hm'
      show unixMilli r.now < ((s.setInflight b' n' z).inflight b' n').score m'
      rw [hi] at hm'' ⊢
      rw [hz, SortedSet.zremrangebyscore, SortedSet.score_restrict hm'']
      exact (SortedSet.mem_zremrangebyscore.1 hm'').2
    · exact (hne.elim (fun hb => hb rfl) fun hn => hn rfl).elim
  · exact hk1.2.2.2 b' hb' n' (by simp [he, hnot]) m' hm'

theorem count [DecidableEq β] [DecidableEq η] {todo : List (β × η)} (h : Inv cfg s)
    (hp : s.phase m = .card r b n todo) :
    Inv cfg (s.setPhase m (.prune (r.addHeld b (s.inflight b n).zcard) todo)) := by
  have hm : (s.phase m).holds = true := by rw [hp]; rfl
  have hk := h.knows m
  rw [hp] at hk
  refine h.setPhase_early hm (by rw [hp]; rfl) rfl (by rw [hp]; rfl)
    ⟨hk.1, hk.2.1, fun b' hb' f hf => ?_, hk.2.2.2⟩
  show f.card ≤ update r.held b _ b'
  by_cases he : b' = b
  · subst he
    rw [update_self]
    -- those of the node just counted, and the others
    have hhere : (f.filter fun m' => cfg.node m' = n).card ≤ (s.inflight b' n).zcard := by
      refine Finset.card_le_card fun m' hm' => ?_
      obtain ⟨hmem, hn⟩ := Finset.mem_filter.1 hm'
      exact hn ▸ h.mem m' b' (hf m' hmem).1
    have hthere : (f.filter fun m' => ¬ cfg.node m' = n).card ≤ r.held b' := by
      refine hk.2.2.1 b' hb' _ fun m' hm' => ?_
      obtain ⟨hmem, hn⟩ := Finset.mem_filter.1 hm'
      refine ⟨(hf m' hmem).1, fun hin => ?_⟩
      rcases List.mem_cons.1 hin with hin | hin
      · exact hn (Prod.mk.inj hin).2
      · exact (hf m' hmem).2 hin
    have hsum := Finset.card_filter_add_card_filter_not (s := f) fun m' => cfg.node m' = n
    omega
  · rw [update_of_ne he]
    refine hk.2.2.1 b' hb' f fun m' hm' => ⟨(hf m' hm').1, fun hin => ?_⟩
    rcases List.mem_cons.1 hin with hin | hin
    · exact he (Prod.mk.inj hin).1
    · exact (hf m' hm').2 hin

theorem startCheck (h : Inv cfg s) (hp : s.phase m = .prune r []) :
    Inv cfg (s.setPhase m (.check r)) := by
  have hm : (s.phase m).holds = true := by rw [hp]; rfl
  have hk := h.knows m
  rw [hp] at hk
  exact h.setPhase_early hm (by rw [hp]; rfl) rfl (by rw [hp]; rfl) hk

theorem refuse {wait : Int} (h : Inv cfg s) (hm : (s.phase m).holds = true)
    (hrem : (s.phase m).removing = none) (hexp : (s.phase m).expiring = none) :
    Inv cfg (s.setPhase m (.unlock wait)) := by
  have hkey := keyless_eq_none hexp
  refine h.setPhase_plain (fun _ => h.lock m hm) rfl hrem hexp hkey (fun b hb => ?_) List.nodup_nil
    trivial
  rcases hb with hb | hb <;> cases hb

theorem grant (h : Inv cfg s) (hp : s.phase m = .check r) (hshort : ¬ 0 < shortage cfg r) :
    Inv cfg (s.setPhase m (.zadd r r.bs)) := by
  have hm : (s.phase m).holds = true := by rw [hp]; rfl
  have hk := h.knows m
  rw [hp] at hk
  refine h.setPhase_plain (fun _ => h.lock m hm) rfl (by rw [hp]; rfl) (by rw [hp]; rfl)
    (by rw [hp]; rfl) (fun b hb => h.fresh m b (.inl (by rw [hp]; rfl)))
    (by have hnd := h.nodup m; rw [hp] at hnd; exact hnd) ⟨hk.1, fun b hb => ⟨fun f hf => ?_, ?_⟩⟩
  · -- the count is no less than what counts, and the level no more than what is there
    have hcount : (f.card : ℚ) ≤ r.held b := by
      exact_mod_cast hk.2.2.1 b hb f fun m' hm' => ⟨hf m' hm', List.not_mem_nil⟩
    have hlevel := hk.2.1 b hb List.not_mem_nil
    have hroom := room_of_no_shortage hshort b hb
    rw [spare] at hroom
    linarith
  · exact hk.2.2.2 b hb (cfg.node m) List.not_mem_nil

omit [DecidableEq μ] in
/-- No order but the one in its section has just written to a set. -/
theorem members_of_keyless (h : Inv cfg s) (hm : (s.phase m).holds = true)
    (hkey : (s.phase m).keyless = none) (hd : (s.inflight b n).deadline = none) :
    (s.inflight b n).members = ∅ := by
  refine (h.keyed b n hd).resolve_right ?_
  rintro ⟨m', hk, -⟩
  have hh := holds_of_expiring (expiring_of_keyless hk)
  obtain rfl : m = m' := Option.some_inj.1 ((h.lock m hm).symm.trans (h.lock m' hh))
  rw [hkey] at hk; cases hk

omit [DecidableEq μ] in
/-- The set a reservation is about to be written to lasts beyond the section. -/
theorem deadline_of_pruned {d : Int} (h : Inv cfg s) (hm : (s.phase m).holds = true)
    (hexp : (s.phase m).expiring = none) (hin : InSection s r.now)
    (hpruned : ∀ m' ∈ (s.inflight b n).members, unixMilli r.now < (s.inflight b n).score m')
    (hd : (s.inflight b n).deadline = some d) : unixMilli s.lockedAt + 58000 ≤ d := by
  have hne : (s.inflight b n).members ≠ ∅ := fun he => by
    rw [h.alive b n he] at hd; cases hd
  obtain ⟨m', hm'⟩ := Finset.nonempty_iff_ne_empty.2 hne
  have hscore := hpruned m' hm'
  rw [(h.score b n m' hm').2.1] at hscore
  have hlocked := unixMilli_mono hin.1
  rcases h.ttl b n m' d hm' hd with hlate | ⟨hx, -⟩
  · omega
  · obtain rfl : m = m' :=
      Option.some_inj.1 ((h.lock m hm).symm.trans (h.lock m' (holds_of_expiring hx)))
    rw [hexp] at hx; cases hx

end Reserve

end Inv

/-! ## Writing a reservation -/

variable [DecidableEq μ]

/-- An order in its section moves on, and with it its token of one bucket. -/
structure Turn (s s' : State β η μ) (m : μ) (b : β) : Prop where
  now : s'.now = s.now
  lock : s'.lock = s.lock
  lockedAt : s'.lockedAt = s.lockedAt
  deadline : s'.deadline = s.deadline
  phase : ∀ m', m' ≠ m → s'.phase m' = s.phase m'
  token : ∀ m' b', m' ≠ m ∨ b' ≠ b → s'.token m' b' = s.token m' b'

theorem turn_setToken [DecidableEq β] (s : State β η μ) (m : μ) (b : β) (t : Token)
    (ph : Phase β η) :
    Turn s ((s.setToken m b t).setPhase m ph) m b where
  now := rfl
  lock := rfl
  lockedAt := rfl
  deadline := rfl
  phase := fun _ hne => update_of_ne hne ..
  token := fun m' b' hne => ((token_setToken s m b t m' b').resolve_left fun hx =>
    hne.elim (fun hm => hm hx.1) fun hb => hb hx.2.1).2

namespace Turn

variable {b b' : β} {m' : μ} {n' : η}

/-- Nothing else begins to count. -/
theorem inForce [DecidableEq β] (ht : Turn s s' m b) (hcommit : (s'.phase m).committing = none)
    (hf : s'.InForce m' b') : (m' = m ∧ b' = b) ∨ s.InForce m' b' := by
  by_cases hmb : m' = m ∧ b' = b
  · exact .inl hmb
  refine .inr ⟨ht.token m' b' (not_and_or.1 hmb) ▸ hf.1, hf.2.imp (fun hlive => ?_) fun hc => ?_⟩
  · rw [State.Unexpired, ht.now, ht.deadline] at hlive; exact hlive
  · by_cases hm : m' = m
    · rw [hm, hcommit] at hc; cases hc
    · rwa [ht.phase m' hm] at hc

/-- The other reservations are still what they were. -/
theorem reserved_or_removing (ht : Turn s s' m b) (h : Inv cfg s)
    (hrem : (s.phase m).removing = none) (hne : m' ≠ m ∨ b' ≠ b)
    (hmem : m' ∈ (s.inflight b' n').members) :
    s'.token m' b' = .reserved ∨ (s'.phase m').removing = some b' := by
  rw [ht.token m' b' hne]
  refine (h.score b' n' m' hmem).2.2.imp_right fun hr => ?_
  by_cases hm : m' = m
  · rw [hm, hrem] at hr; cases hr
  · rw [ht.phase m' hm]; exact hr

/-- The sets that were there still last long enough. -/
theorem ttl {d : Int} (ht : Turn s s' m b) (h : Inv cfg s) (hexp : (s.phase m).expiring = none)
    (hmem : m' ∈ (s.inflight b' n').members) (hd : (s.inflight b' n').deadline = some d) :
    unixMilli (s'.deadline m') + 58000 ≤ d ∨
      ((s'.phase m').expiring = some b' ∧ unixMilli s'.lockedAt + 58000 ≤ d) := by
  rw [ht.deadline, ht.lockedAt]
  refine (h.ttl b' n' m' d hmem hd).imp_right fun hx => ?_
  by_cases hm : m' = m
  · rw [hm, hexp] at hx; cases hx.1
  · rw [ht.phase m' hm]; exact hx

theorem inv (ht : Turn s s' m b) (h : Inv cfg s) (hm : (s.phase m).holds = true)
    (hcapped : Capped cfg s')
    (hsafe : ∀ b (f : Finset μ), (∀ m ∈ f, s'.InForce m b) → (f.card : ℚ) ≤ s'.tokens cfg b)
    (hmem : ∀ m b, s'.InForce m b → m ∈ (s'.inflight b (cfg.node m)).members)
    (hscore : ∀ b n m, m ∈ (s'.inflight b n).members → cfg.node m = n ∧
      (s'.inflight b n).score m = unixMilli (s'.deadline m) ∧
      (s'.token m b = .reserved ∨ (s'.phase m).removing = some b))
    (httl : ∀ b n m d, m ∈ (s'.inflight b n).members → (s'.inflight b n).deadline = some d →
      unixMilli (s'.deadline m) + 58000 ≤ d ∨
      ((s'.phase m).expiring = some b ∧ unixMilli s'.lockedAt + 58000 ≤ d))
    (halive : ∀ b n, (s'.inflight b n).members = ∅ → (s'.inflight b n).deadline = none)
    (hkeyed : ∀ b n, (s'.inflight b n).deadline = none → (s'.inflight b n).members = ∅ ∨
      ∃ m, (s'.phase m).keyless = some b ∧ cfg.node m = n)
    (hfresh : ∀ b, (s'.phase m).early = true ∨ b ∈ (s'.phase m).pending → s'.token m b = .none)
    (hnodup : (s'.phase m).pending.Nodup) (hknows : Knows cfg s' m (s'.phase m)) : Inv cfg s' where
  lock := fun m' hm' => by
    rw [ht.lock]
    by_cases he : m' = m
    · rw [he]; exact h.lock m hm
    · exact h.lock m' (ht.phase m' he ▸ hm')
  time := by rw [ht.lock, ht.now, ht.lockedAt]; exact h.time
  capped := hcapped
  safe := hsafe
  mem := hmem
  score := hscore
  ttl := httl
  alive := halive
  keyed := hkeyed
  fresh := fun m' b' hb => by
    by_cases he : m' = m
    · subst he; exact hfresh b' hb
    · rw [ht.phase m' he] at hb
      rw [ht.token m' b' (.inl he)]; exact h.fresh m' b' hb
  nodup := fun m' => by
    by_cases he : m' = m
    · rw [he]; exact hnodup
    · rw [ht.phase m' he]; exact h.nodup m'
  knows := fun m' => by
    by_cases he : m' = m
    · rw [he]; exact hknows
    · rw [ht.phase m' he]
      exact Knows.of_not_holds (s := s) (h.others hm he) (fun b' => ht.token m' b' (.inl he))
        (h.knows m')

end Turn

/-- The order has written its reservation of the bucket. -/
structure Wrote (cfg : Config β η μ) (s s' : State β η μ) (m : μ) (b : β) : Prop
    extends Turn s s' m b where
  budget : s'.budget = s.budget
  reserved : s'.token m b = .reserved
  inflight : ∀ b' n', (b' = b ∧ n' = cfg.node m ∧ s'.inflight b' n' =
      (s.inflight b (cfg.node m)).zadd m (unixMilli (s.deadline m))) ∨
    ((b' ≠ b ∨ n' ≠ cfg.node m) ∧ s'.inflight b' n' = s.inflight b' n')

namespace Wrote

variable {r : Reserve β} {b : β} {todo : List β}

theorem inflight_self (hw : Wrote cfg s s' m b) : s'.inflight b (cfg.node m) =
    (s.inflight b (cfg.node m)).zadd m (unixMilli (s.deadline m)) := by
  rcases hw.inflight b (cfg.node m) with ⟨-, -, he⟩ | ⟨hx, -⟩
  · exact he
  · exact (hx.elim (fun hx => hx rfl) fun hx => hx rfl).elim

theorem inflight_of_ne {b' : β} {n' : η} (hw : Wrote cfg s s' m b)
    (hne : b' ≠ b ∨ n' ≠ cfg.node m) : s'.inflight b' n' = s.inflight b' n' :=
  ((hw.inflight b' n').resolve_left fun hx =>
    hne.elim (fun hb => hb hx.1) fun hn => hn hx.2.1).2

theorem tokens_eq (hw : Wrote cfg s s' m b) (b' : β) : s'.tokens cfg b' = s.tokens cfg b' := by
  rw [State.tokens, State.tokens, hw.budget, hw.now]

variable [DecidableEq β]

/-- There was room for one more. -/
theorem safe (hw : Wrote cfg s s' m b) (h : Inv cfg s) (hcommit : (s'.phase m).committing = none)
    (hroom : s.Room cfg b) (b' : β) (f : Finset μ) (hf : ∀ m' ∈ f, s'.InForce m' b') :
    (f.card : ℚ) ≤ s'.tokens cfg b' := by
  rw [hw.tokens_eq]
  by_cases hb : b' = b
  · subst hb
    have hold : ((f.erase m).card : ℚ) + 1 ≤ s.tokens cfg b' := hroom _ fun m' hm' => by
      obtain ⟨hne, hmem⟩ := Finset.mem_erase.1 hm'
      exact (hw.inForce hcommit (hf m' hmem)).resolve_left fun he => hne he.1
    have hcard : (f.card : ℚ) ≤ (f.erase m).card + 1 := by
      have hpred : f.card - 1 ≤ (f.erase m).card := Finset.pred_card_le_card_erase
      exact_mod_cast (by omega : f.card ≤ (f.erase m).card + 1)
    exact le_trans hcard hold
  · exact h.safe b' f fun m' hm' =>
      (hw.inForce hcommit (hf m' hm')).resolve_left fun he => hb he.2

theorem mem (hw : Wrote cfg s s' m b) (h : Inv cfg s) (hcommit : (s'.phase m).committing = none)
    (m' : μ) (b' : β) (hf : s'.InForce m' b') : m' ∈ (s'.inflight b' (cfg.node m')).members := by
  rcases hw.inForce hcommit hf with ⟨rfl, rfl⟩ | hold
  · rw [hw.inflight_self]
    exact SortedSet.mem_zadd.2 (.inl rfl)
  · rcases hw.inflight b' (cfg.node m') with ⟨rfl, hn, he⟩ | ⟨-, he⟩ <;> rw [he]
    · exact SortedSet.mem_zadd.2 (.inr (hn ▸ h.mem m' b' hold))
    · exact h.mem m' b' hold

theorem score (hw : Wrote cfg s s' m b) (h : Inv cfg s) (hrem : (s.phase m).removing = none)
    (hnotin : ∀ n, m ∉ (s.inflight b n).members) (b' : β) (n' : η) (m' : μ)
    (hmem : m' ∈ (s'.inflight b' n').members) : cfg.node m' = n' ∧
      (s'.inflight b' n').score m' = unixMilli (s'.deadline m') ∧
      (s'.token m' b' = .reserved ∨ (s'.phase m').removing = some b') := by
  rw [hw.deadline]
  rcases hw.inflight b' n' with ⟨rfl, rfl, he⟩ | ⟨hne, he⟩ <;> rw [he] at hmem ⊢
  · rw [SortedSet.score_zadd]
    rcases SortedSet.mem_zadd.1 hmem with rfl | hold
    · exact ⟨rfl, if_pos rfl, .inl hw.reserved⟩
    · have hne : m' ≠ m := fun hx => hnotin _ (hx ▸ hold)
      rw [if_neg hne]
      exact ⟨(h.score b' _ m' hold).1, (h.score b' _ m' hold).2.1,
        hw.reserved_or_removing h hrem (.inl hne) hold⟩
  · have hmb : m' ≠ m ∨ b' ≠ b := by
      by_contra hx
      obtain ⟨rfl, rfl⟩ : m' = m ∧ b' = b := by simpa using hx
      exact hnotin n' hmem
    exact ⟨(h.score b' n' m' hmem).1, (h.score b' n' m' hmem).2.1,
      hw.reserved_or_removing h hrem hmb hmem⟩

omit [DecidableEq β] in
theorem alive (hw : Wrote cfg s s' m b) (h : Inv cfg s) (b' : β) (n' : η)
    (hempty : (s'.inflight b' n').members = ∅) : (s'.inflight b' n').deadline = none := by
  rcases hw.inflight b' n' with ⟨rfl, rfl, he⟩ | ⟨-, he⟩ <;> rw [he] at hempty ⊢
  · exact absurd hempty (Finset.insert_ne_empty _ _)
  · exact h.alive b' n' hempty

/-- Room and pruned sets for the buckets that are left. -/
theorem ready (hw : Wrote cfg s s' m b) (hcommit : (s'.phase m).committing = none)
    (hk : Ready cfg s m r (b :: todo)) (hb : b ∉ todo) : Ready cfg s' m r todo := by
  refine ⟨?_, fun b' hb' => ?_⟩
  · rw [InSection, hw.lockedAt, hw.now]; exact hk.1
  · have hbb : b' ≠ b := fun hx => hb (hx ▸ hb')
    obtain ⟨hroom, hpruned⟩ := hk.2 b' (List.mem_cons_of_mem _ hb')
    refine ⟨fun f hf => ?_, by rw [hw.inflight_of_ne (.inl hbb)]; exact hpruned⟩
    rw [hw.tokens_eq]
    exact hroom f fun m' hm' =>
      (hw.inForce hcommit (hf m' hm')).resolve_left fun hx => hbb hx.2

end Wrote

namespace Inv

section Reserve

variable {r : Reserve β} {b : β} {n : η} {todo : List β}

/-- **Writing a reservation** keeps the books in order: there was room for one more. -/
theorem zadd [DecidableEq β] [DecidableEq η] (h : Inv cfg s)
    (hp : s.phase m = .zadd r (b :: todo)) :
    Inv cfg (((s.setInflight b (cfg.node m) ((s.inflight b (cfg.node m)).zadd m
      (unixMilli (s.deadline m)))).setToken m b .reserved).setPhase m (.expireNX r b todo)) := by
  have hm : (s.phase m).holds = true := by rw [hp]; rfl
  have hk : Ready cfg s m r (b :: todo) := by have hk := h.knows m; rw [hp] at hk; exact hk
  obtain ⟨hb, hnd⟩ : b ∉ todo ∧ todo.Nodup := by
    have hnd := h.nodup m
    rw [hp] at hnd
    exact List.nodup_cons.1 hnd
  have hfresh : ∀ b' ∈ b :: todo, s.token m b' = .none := fun b' hb' =>
    h.fresh m b' (.inr (by rw [hp]; exact hb'))
  set s' := ((s.setInflight b (cfg.node m) _).setToken m b .reserved).setPhase m
    (.expireNX r b todo) with hs'
  have hph : s'.phase m = .expireNX r b todo := update_self ..
  have hw : Wrote cfg s s' m b :=
    { turn_setToken s m b .reserved (.expireNX r b todo) with
      budget := rfl
      reserved := by simp [hs', State.setPhase, State.setToken]
      inflight := inflight_setInflight s b (cfg.node m) _ }
  have hcommit : (s'.phase m).committing = none := by rw [hph]; rfl
  have hnotin : ∀ n', m ∉ (s.inflight b n').members := fun n' hmem => by
    rcases (h.score b n' m hmem).2.2 with ht | hr
    · rw [hfresh b List.mem_cons_self] at ht; cases ht
    · rw [hp] at hr; cases hr
  obtain ⟨hroom, hpruned⟩ := hk.2 b List.mem_cons_self
  refine hw.inv h hm h.capped (hw.safe h hcommit hroom) (hw.mem h hcommit)
    (hw.score h (by rw [hp]; rfl) hnotin) (fun b' n' m' d hmem hd => ?_) (hw.alive h)
    (fun b' n' hd => ?_) (fun b' hb' => ?_) (by rw [hph]; exact hnd) ?_
  · rcases hw.inflight b' n' with ⟨rfl, rfl, he⟩ | ⟨-, he⟩ <;> rw [he] at hmem hd
    · rcases SortedSet.mem_zadd.1 hmem with rfl | hold
      · exact .inr ⟨by rw [hph]; rfl, h.deadline_of_pruned hm (by rw [hp]; rfl) hk.1 hpruned hd⟩
      · exact hw.ttl h (by rw [hp]; rfl) hold hd
    · exact hw.ttl h (by rw [hp]; rfl) hmem hd
  · rcases hw.inflight b' n' with ⟨rfl, rfl, -⟩ | ⟨-, he⟩
    · exact .inr ⟨m, by rw [hph]; rfl, rfl⟩
    · rw [he] at hd ⊢
      exact .inl (h.members_of_keyless hm (by rw [hp]; rfl) hd)
  · rw [hph] at hb'
    have hin : b' ∈ todo := hb'.resolve_left Bool.false_ne_true
    rw [hw.token m b' (.inr fun hx => hb (hx ▸ hin))]
    exact hfresh b' (List.mem_cons_of_mem _ hin)
  · rw [hph]
    refine ⟨hw.ready hcommit hk hb, fun hnone m' hm' => ?_⟩
    rw [hw.inflight_self] at hnone hm'
    refine (SortedSet.mem_zadd.1 hm').resolve_right fun hmem => ?_
    rw [h.members_of_keyless hm (by rw [hp]; rfl) (show _ = none from hnone)] at hmem
    cases hmem

/-! ## The time to live of a set -/

omit [DecidableEq μ] in
theorem setTTL [DecidableEq β] [DecidableEq η] {d : Int} (h : Inv cfg s)
    (hne : (s.inflight b n).members ≠ ∅)
    (hd : ∀ m' ∈ (s.inflight b n).members, unixMilli (s.deadline m') + 58000 ≤ d) :
    Inv cfg (s.setInflight b n { s.inflight b n with deadline := some d }) := by
  set z : SortedSet μ := { s.inflight b n with deadline := some d } with hz
  have hsame : ∀ b' n', ((s.setInflight b n z).inflight b' n').members =
      (s.inflight b' n').members ∧ ((s.setInflight b n z).inflight b' n').score =
      (s.inflight b' n').score := by
    intro b' n'
    rcases inflight_setInflight s b n z b' n' with ⟨rfl, rfl, he⟩ | ⟨-, he⟩ <;> rw [he]
    · exact ⟨rfl, rfl⟩
    · exact ⟨rfl, rfl⟩
  have hdead : ∀ b' n', ((s.setInflight b n z).inflight b' n').deadline = none →
      (s.inflight b' n').deadline = none := by
    intro b' n' hnone
    rcases inflight_setInflight s b n z b' n' with ⟨rfl, rfl, he⟩ | ⟨-, he⟩ <;> rw [he] at hnone
    · cases hnone
    · exact hnone
  have hq : Quiet s (s.setInflight b n z) := ⟨le_refl _, rfl, fun b => budget_same (s.budget b),
    fun _ _ hm => hm, fun b' n' m' hm' => ⟨(hsame b' n').1 ▸ hm', by rw [(hsame b' n').2]⟩,
    fun b' n' hnone => .inr (hdead b' n' hnone)⟩
  refine ⟨h.lock, h.time, h.capped, h.safe, fun m' b' hm' => ?_, fun b' n' m' hm' => ?_,
    fun b' n' m' d' hm' hd' => ?_, fun b' n' hempty => ?_, fun b' n' hnone => ?_, h.fresh, h.nodup,
    fun m' => hq.knows h.capped (fun _ => rfl) rfl (h.knows m')⟩
  · rw [(hsame b' _).1]; exact h.mem m' b' hm'
  · rw [(hsame b' n').1] at hm'
    rw [(hsame b' n').2]
    exact h.score b' n' m' hm'
  · rw [(hsame b' n').1] at hm'
    rcases inflight_setInflight s b n z b' n' with ⟨rfl, rfl, he⟩ | ⟨-, he⟩ <;> rw [he] at hd'
    · cases hd'
      exact .inl (hd m' hm')
    · exact h.ttl b' n' m' d' hm' hd'
  · rw [(hsame b' n').1] at hempty
    rcases inflight_setInflight s b n z b' n' with ⟨rfl, rfl, -⟩ | ⟨-, he⟩
    · exact absurd hempty hne
    · rw [he]; exact h.alive b' n' hempty
  · rw [(hsame b' n').1]
    exact h.keyed b' n' (hdead b' n' hnone)

omit [DecidableEq μ] in
theorem setInflight_self [DecidableEq β] [DecidableEq η] (s : State β η μ) (b : β) (n : η) :
    s.setInflight b n (s.inflight b n) = s := by
  simp [State.setInflight]

/-- `EXPIRE NX`: a set that has just come into being gets its time to live. -/
theorem expireNX [DecidableEq β] [DecidableEq η] (h : Inv cfg s)
    (hp : s.phase m = .expireNX r b todo) :
    Inv cfg (s.setInflight b (cfg.node m) ((s.inflight b (cfg.node m)).expireNX (unixMilli s.now)
      (inflightTTL (s.deadline m) r.now))) := by
  have hk := h.knows m
  rw [hp] at hk
  set n := cfg.node m with hn
  rw [SortedSet.expireNX]
  by_cases hd : (s.inflight b n).deadline = none
  · rw [if_pos hd, SortedSet.setTTL]
    by_cases he : (s.inflight b n).members = ∅
    · rw [if_pos he, setInflight_self]
      exact h
    rw [if_neg he]
    by_cases hpos : inflightTTL (s.deadline m) r.now ≤ 0
    · -- the order's time was over before it began: its reservation does not count
      rw [if_pos hpos]
      have hnone : (s.inflight b n).restrict ∅ = .empty := by simp [SortedSet.restrict]
      rw [← hnone]
      refine h.restrict fun m' hm' hn' => ?_
      have hmem : m' ∈ (s.inflight b n).members := hn' ▸ h.mem m' b hm'
      obtain rfl : m' = m := hk.2 hd m' hmem
      have hlive := h.unexpired (by rw [hp]; rfl) (by rw [hp]; rfl) hm'
      have hover := deadline_of_inflightTTL (not_lt.2 hpos)
      have hle : unixMilli (s.deadline m') ≤ unixMilli s.now := by
        refine unixMilli_mono (le_trans hover ?_)
        have := hk.1.1.2
        simp only [inflightKeyMargin, second]
        omega
      exact absurd hlive (not_lt.2 hle)
    · rw [if_neg hpos]
      refine h.setTTL he fun m' hm' => ?_
      obtain rfl : m' = m := hk.2 hd m' hm'
      exact le_inflightTTL hk.1.1.2 (not_le.1 hpos)
  · rw [if_neg hd, setInflight_self]
    exact h

theorem setPhase_expireGT (h : Inv cfg s) (hp : s.phase m = .expireNX r b todo)
    (hdone : (s.inflight b (cfg.node m)).deadline = none →
      (s.inflight b (cfg.node m)).members = ∅) : Inv cfg (s.setPhase m (.expireGT r b todo)) := by
  have hk := h.knows m
  rw [hp] at hk
  refine h.setPhase (fun _ => h.lock m (by rw [hp]; rfl)) (fun _ hb => nomatch hb) (fun b' hb => ?_)
    (fun b' hb => ?_) (fun b' hb => ?_) (fun b' hb => ?_) ?_ hk.1
  · rw [hp] at hb; cases hb
  · rw [hp] at hb; exact .inl hb
  · rw [hp] at hb; cases hb
    exact .inr hdone
  · exact h.fresh m b' (.inr (by rw [hp]; exact hb.resolve_left fun hx => nomatch hx))
  · have hnd := h.nodup m
    rw [hp] at hnd
    exact hnd

omit [DecidableEq μ] in
/-- What the order's own reservation needs, in the section that has just written it. -/
theorem ttl_of_expired {d : Int} (h : Inv cfg s) (hm : (s.phase m).holds = true)
    (hin : InSection s r.now) (hover : s.deadline m ≤ r.now - inflightKeyMargin)
    (hmem : m ∈ (s.inflight b n).members) (hd : (s.inflight b n).deadline = some d) :
    unixMilli (s.deadline m) + 58000 ≤ d := by
  rcases h.ttl b n m d hmem hd with hlate | ⟨-, hlate⟩
  · exact hlate
  · have hl : s.lock ≠ none := by rw [h.lock m hm]; exact Option.some_ne_none m
    have h1 := (h.time hl).2
    have h2 := hin.2
    simp only [unixMilli, millisecond, inflightKeyMargin, budgetLockTTL, second] at *
    omega

/-- `EXPIRE GT`: a set that was there lasts as long as its new member needs. -/
theorem expireGT [DecidableEq β] [DecidableEq η] {z : SortedSet μ} (h : Inv cfg s)
    (hp : s.phase m = .expireGT r b todo)
    (hz : (s.inflight b (cfg.node m)).expireGT (unixMilli s.now)
      (inflightTTL (s.deadline m) r.now) = z) :
    Inv cfg (s.setInflight b (cfg.node m) z) ∧
      ∀ d, m ∈ z.members → z.deadline = some d → unixMilli (s.deadline m) + 58000 ≤ d := by
  have hm : (s.phase m).holds = true := by rw [hp]; rfl
  have hk : Ready cfg s m r todo := by have hk := h.knows m; rw [hp] at hk; exact hk
  set n := cfg.node m with hn
  rw [SortedSet.expireGT] at hz
  split at hz
  · rename_i hnone
    subst hz
    rw [setInflight_self]
    exact ⟨h, fun d _ hd => by rw [hnone] at hd; cases hd⟩
  rename_i d hd
  have he : (s.inflight b n).members ≠ ∅ := fun he => by rw [h.alive b n he] at hd; cases hd
  by_cases hlt : d < unixMilli s.now + inflightTTL (s.deadline m) r.now
  · rw [if_pos hlt, SortedSet.setTTL, if_neg he] at hz
    by_cases hpos : inflightTTL (s.deadline m) r.now ≤ 0
    · -- the set had run out already
      rw [if_pos hpos] at hz
      subst hz
      have hlapsed : (s.inflight b n).Lapsed (unixMilli s.now) := ⟨d, hd, by omega⟩
      exact ⟨h.lapseInflight hlapsed, fun d hmem => absurd hmem (Finset.notMem_empty m)⟩
    · rw [if_neg hpos] at hz
      subst hz
      have hmain := le_inflightTTL hk.1.2 (not_le.1 hpos)
      refine ⟨h.setTTL he fun m' hm' => ?_, fun d' _ hd' => by cases hd'; exact hmain⟩
      rcases h.ttl b n m' d hm' hd with hlate | ⟨hx, -⟩
      · omega
      · obtain rfl : m = m' :=
          Option.some_inj.1 ((h.lock m hm).symm.trans (h.lock m' (holds_of_expiring hx)))
        exact hmain
  · rw [if_neg hlt] at hz
    subst hz
    rw [setInflight_self]
    refine ⟨h, fun d' hmem hd' => ?_⟩
    by_cases hpos : 0 < inflightTTL (s.deadline m) r.now
    · have hmain := le_inflightTTL hk.1.2 hpos
      cases hd.symm.trans hd'
      omega
    · exact h.ttl_of_expired hm hk.1 (deadline_of_inflightTTL hpos) hmem hd'

theorem setPhase_zadd (h : Inv cfg s) (hp : s.phase m = .expireGT r b todo)
    (hmain : ∀ d, m ∈ (s.inflight b (cfg.node m)).members →
      (s.inflight b (cfg.node m)).deadline = some d → unixMilli (s.deadline m) + 58000 ≤ d) :
    Inv cfg (s.setPhase m (.zadd r todo)) := by
  have hk := h.knows m
  rw [hp] at hk
  refine h.setPhase (fun _ => h.lock m (by rw [hp]; rfl)) (fun _ hb => nomatch hb) (fun b' hb => ?_)
    (fun b' hb => .inr fun n d hmem hd => ?_) (fun b' hb => ?_) (fun b' hb => ?_) ?_ hk
  · rw [hp] at hb; cases hb
  · rw [hp] at hb; cases hb
    obtain rfl := (h.score b n m hmem).1
    exact hmain d hmem hd
  · rw [hp] at hb; cases hb
  · exact h.fresh m b' (.inr (by rw [hp]; exact hb.resolve_left fun hx => nomatch hx))
  · have hnd := h.nodup m
    rw [hp] at hnd
    exact hnd

end Reserve

end Inv

end Tunneld.AcmeBudget

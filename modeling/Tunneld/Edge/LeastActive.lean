import Tunneld.Edge.Eviction

/-!
# Choosing the least active stream

`leastActive` goes over the streams of a node and keeps the one that has been idle for longest, of
those that it may evict.  It reads the clock before it takes the lock, and the streams go on while
it looks at them, so a stream may have had traffic after the clock was read: then its idle time is
negative.

The search starts with no victim and an idle time of `-1`, and takes a stream only if it has been
idle for longer.  So it finds the idlest one if there is one whose idle time is not negative, and
finds none if there are only others.

What a scan has read is recorded beside the state of `Tunneld.Edge.Eviction` (`Look`).

## Main results

* `Best.complete_iff`: when a search of this kind finds the idlest;
* `least_active_found`: what a scan has looked at, and that its result is the idlest in just that
  case;
* `active_stream_missed`: a stream that should be found and is not.
-/

namespace Tunneld.Eviction

open Function

/-- What a scan found out about a stream. -/
structure Look (σ : Type) where
  stream : σ
  /-- Its idle time and its rate; none if it was passed over, as one of another tunnel or one that
  is evicted. -/
  read : Option (Int × Int)
  deriving DecidableEq

/-- `evictable`, by the values read. -/
def CanEvict (cfg : Cfg) (idle rate : Int) : Prop := cfg.evictIdle ≤ idle ∨ rate < cfg.protectRate

instance (cfg : Cfg) (idle rate : Int) : Decidable (CanEvict cfg idle rate) :=
  inferInstanceAs (Decidable (_ ∨ _))

variable {σ χ ρ π : Type}

/-- What the next step of a call adds to the record. -/
def noteGo (req : σ → Req) (s : State σ χ ρ π) (x : χ) (l : List (Look σ)) : List (Look σ) :=
  match (s.call x).pc with
  | .scan _ (v :: _) _ =>
    if (req v).tunnel ≠ (s.call x).tunnel ∨ (s.stream v).evicted = true then ⟨v, none⟩ :: l else l
  | .rateOf _ v idle _ _ => ⟨v, some (idle, (s.stream v).recent)⟩ :: l
  | _ => l

/-- The nodes, with a record of what each call has read since it took the lock. -/
def looking [DecidableEq σ] [DecidableEq χ] [DecidableEq ρ] [DecidableEq π] (cfg : Cfg)
    (req : σ → Req) : Lts (State σ χ ρ π × (χ → List (Look σ))) (Act σ χ ρ π) :=
  (system cfg req).recording (fun _ => []) fun s a _ l =>
    match a with
    | .lock x _ => update l x []
    | .go x => update l x (noteGo req s x (l x))
    | _ => l

section Scan

variable {cfg : Cfg} {req : σ → Req} {s t : State σ χ ρ π} {x : χ} {l : List (Look σ)}
  {best : Option (σ × Int)} {now : Int} {v : σ} {todo : List σ}

/-- The victim so far is one of the streams that may be evicted, and the idlest of those that have
not been active since the clock was read. -/
structure Best (cfg : Cfg) (l : List (Look σ)) (best : Option (σ × Int)) : Prop where
  most : ∀ y ∈ l, ∀ r ∈ y.read, CanEvict cfg r.1 r.2 → r.1 ≤ victimIdle best
  mem : ∀ b ∈ best, ∃ rate, ⟨b.1, some (b.2, rate)⟩ ∈ l ∧ CanEvict cfg b.2 rate
  nonneg : ∀ b ∈ best, 0 ≤ b.2

theorem Best.neg_one_le (h : Best cfg l best) : -1 ≤ victimIdle best := by
  cases best with
  | none => exact le_refl _
  | some b => exact (by decide : (-1 : Int) ≤ 0).trans (h.nonneg b rfl)

/-- The idlest stream is found exactly if there is none, or one that has not been active since the
clock was read. -/
theorem Best.complete_iff (h : Best cfg l best) :
    (∀ y ∈ l, ∀ r ∈ y.read, CanEvict cfg r.1 r.2 → ∃ b, best = some b ∧ r.1 ≤ b.2) ↔
      (∀ y ∈ l, ∀ r ∈ y.read, ¬ CanEvict cfg r.1 r.2) ∨
        ∃ y ∈ l, ∃ r ∈ y.read, CanEvict cfg r.1 r.2 ∧ 0 ≤ r.1 := by
  cases best with
  | none =>
    -- the search has found nothing: whatever may be evicted has an idle time below zero
    constructor
    · intro hfound
      refine .inl fun y hy r hr hev => ?_
      obtain ⟨b, hb, -⟩ := hfound y hy r hr hev
      cases hb
    · rintro (hnone | ⟨y, hy, r, hr, hev, hnonneg⟩)
      · exact fun y hy r hr hev => absurd hev (hnone y hy r hr)
      · have hle : r.1 ≤ -1 := h.most y hy r hr hev
        omega
  | some b =>
    constructor
    · intro _
      obtain ⟨rate, hmem, hev⟩ := h.mem b rfl
      exact .inr ⟨_, hmem, (b.2, rate), rfl, hev, h.nonneg b rfl⟩
    · exact fun _ y hy r hr hev => ⟨b, rfl, h.most y hy r hr hev⟩

/-- The record of a call that has the streams in `todo` left to look at. -/
structure Looked (cfg : Cfg) (req : σ → Req) (s : State σ χ ρ π) (x : χ) (l : List (Look σ))
    (todo : List σ) (best : Option (σ × Int)) : Prop where
  all : (l.map Look.stream ++ todo).Perm (s.streams (s.call x).node)
  passed : ∀ y ∈ l, y.read = none →
    (req y.stream).tunnel ≠ (s.call x).tunnel ∨ (s.stream y.stream).evicted = true
  tunnel : ∀ y ∈ l, y.read ≠ none → (req y.stream).tunnel = (s.call x).tunnel
  best : Best cfg l best

/-- The record of a call is as it should be where the call stands. -/
def Records (cfg : Cfg) (req : σ → Req) (s : State σ χ ρ π) (x : χ) (l : List (Look σ)) : Prop :=
  match (s.call x).pc with
  | .scan _ todo best => Looked cfg req s x l todo best
  | .idleOf _ v todo best | .rateOf _ v _ todo best =>
    Looked cfg req s x l (v :: todo) best ∧ (req v).tunnel = (s.call x).tunnel
  | _ => True

theorem Looked.skip (h : Looked cfg req s x l (v :: todo) best)
    (hv : (req v).tunnel ≠ (s.call x).tunnel ∨ (s.stream v).evicted = true) :
    Looked cfg req s x (⟨v, none⟩ :: l) todo best := by
  refine ⟨(List.perm_middle.symm.trans h.all :), ?_, ?_, ?_, ?_, h.best.nonneg⟩
  · rintro y hy hnone
    rcases List.mem_cons.1 hy with rfl | hy
    · exact hv
    · exact h.passed y hy hnone
  · rintro y hy hsome
    rcases List.mem_cons.1 hy with rfl | hy
    · exact absurd rfl hsome
    · exact h.tunnel y hy hsome
  · rintro y hy r hr
    rcases List.mem_cons.1 hy with rfl | hy
    · cases hr
    · exact h.best.most y hy r hr
  · intro b hb
    obtain ⟨rate, hmem, hev⟩ := h.best.mem b hb
    exact ⟨rate, .tail _ hmem, hev⟩

theorem Looked.compare (h : Looked cfg req s x l (v :: todo) best)
    (hv : (req v).tunnel = (s.call x).tunnel) (idle rate : Int) :
    Looked cfg req s x (⟨v, some (idle, rate)⟩ :: l) todo
      (if CanEvict cfg idle rate ∧ victimIdle best < idle then some (v, idle) else best) := by
  refine ⟨(List.perm_middle.symm.trans h.all :), ?_, ?_, ?_, ?_, ?_⟩
  · rintro y hy hnone
    rcases List.mem_cons.1 hy with rfl | hy
    · cases hnone
    · exact h.passed y hy hnone
  · rintro y hy hsome
    rcases List.mem_cons.1 hy with rfl | hy
    · exact hv
    · exact h.tunnel y hy hsome
  · rintro y hy r hr hev
    -- the idle time of the victim only grows
    have hgrows : victimIdle best ≤ victimIdle
        (if CanEvict cfg idle rate ∧ victimIdle best < idle then some (v, idle) else best) := by
      split
      · exact le_of_lt (And.right ‹_›)
      · exact le_refl _
    rcases List.mem_cons.1 hy with rfl | hy
    · obtain rfl : r = (idle, rate) := by simpa using hr.symm
      split
      · exact le_refl _
      · rename_i hno
        exact not_lt.1 fun hlt => hno ⟨hev, hlt⟩
    · exact (h.best.most y hy r hr hev).trans hgrows
  · intro b hb
    split at hb
    · rename_i hyes
      obtain rfl : b = (v, idle) := by simpa using hb.symm
      exact ⟨rate, .head _, hyes.1⟩
    · obtain ⟨rate', hmem, hev⟩ := h.best.mem b hb
      exact ⟨rate', .tail _ hmem, hev⟩
  · intro b hb
    split at hb
    · rename_i hyes
      obtain rfl : b = (v, idle) := by simpa using hb.symm
      have hidle := h.best.neg_one_le
      exact Int.add_one_le_iff.2 (hidle.trans_lt hyes.2)
    · exact h.best.nonneg b hb

theorem Looked.frame {y : χ} (h : Looked cfg req s y l todo best) (hf : Frame s t y)
    (hlock : s.smu (s.call y).node = some y) : Looked cfg req t y l todo best := by
  obtain ⟨-, hstreams⟩ := hf.lock _ hlock
  refine ⟨?_, fun z hz hnone => ?_, ?_, h.best⟩
  · rw [hf.call, hstreams]
    exact h.all
  · rw [hf.call]
    exact (h.passed z hz hnone).imp_right (hf.le z.stream).evicted
  · rw [hf.call]
    exact h.tunnel

variable [DecidableEq σ] [DecidableEq χ]

/-- A step of another leaves the record of a call right. -/
theorem Records.frame [DecidableEq ρ] [DecidableEq π] (h : Records cfg req s x l)
    (ho : Outline cfg req s x) (hf : Frame s t x) : Records cfg req t x l := by
  rw [Records] at h ⊢
  rw [Outline] at ho
  rw [hf.call]
  cases hpc : (s.call x).pc <;> simp only [hpc] at h ho ⊢
  case scan => exact h.frame hf ho.1.1
  case idleOf | rateOf => exact ⟨h.1.frame hf ho.1.1, h.2⟩

theorem Records.go (h : Records cfg req s x l) (hs : goCall cfg req s x = some t) :
    Records cfg req t x (noteGo req s x l) := by
  have hsame (p : Pc σ) {l : List (Look σ)} {todo : List σ} {best : Option (σ × Int)}
      (hl : Looked cfg req s x l todo best) : Looked cfg req (s.setPc x p) x l todo best := by
    have hcall : ((s.setPc x p).call x) = { s.call x with pc := p } := update_self ..
    exact ⟨by rw [hcall]; exact hl.all, by rw [hcall]; exact hl.passed,
      by rw [hcall]; exact hl.tunnel, hl.best⟩
  have hpc' (p : Pc σ) : ((s.setPc x p).call x).pc = p := by simp
  rw [Records] at h ⊢
  unfold goCall at hs
  cases hpc : (s.call x).pc <;> simp only [hpc, noteGo] at h hs ⊢
  case scan now todo best =>
    cases todo with
    | nil =>
      obtain rfl := Option.some.inj hs
      have hend : ({ s.setPc x (endScan (s.call x).op best) with
          smu := update s.smu (s.call x).node none } : State σ χ ρ π).call x =
            { s.call x with pc := endScan (s.call x).op best } := update_self ..
      rw [hend]
      cases (s.call x).op <;> cases best <;> trivial
    | cons v todo =>
      obtain rfl := Option.some.inj hs
      by_cases hskip : (req v).tunnel ≠ (s.call x).tunnel ∨ (s.stream v).evicted = true
      · simp only [if_pos hskip, hpc']
        exact hsame _ (h.skip hskip)
      · simp only [if_neg hskip, hpc']
        have htunnel : (req v).tunnel = (s.call x).tunnel := not_ne_iff.1 (not_or.1 hskip).1
        refine ⟨hsame _ h, ?_⟩
        simpa using htunnel
  case idleOf now v todo best =>
    obtain rfl := Option.some.inj hs
    simp only [hpc']
    exact ⟨hsame _ h.1, by simpa using h.2⟩
  case rateOf now v idle todo best =>
    obtain rfl := Option.some.inj hs
    simp only [hpc']
    exact hsame _ (h.1.compare h.2 idle _)
  case chosen v =>
    split at hs <;> obtain rfl := Option.some.inj hs <;> simp
  case cancelled v =>
    split at hs
    · obtain rfl := Option.some.inj hs
      simp
    · cases hs
    · obtain rfl := Option.some.inj hs
      simp
  case marked | inRelease =>
    obtain rfl := Option.some.inj hs
    simp
  all_goals cases hs

end Scan

variable [DecidableEq σ] [DecidableEq χ] [DecidableEq ρ] [DecidableEq π]

/-! ## Every run -/

section Runs

variable {cfg : Cfg} {req : σ → Req} {s : State σ χ ρ π × (χ → List (Look σ))}

theorem records_of_reach (h : (looking cfg req).Reach Lts.always s) (x : χ) :
    Records cfg req s.1 x (s.2 x) := by
  have hinit : Records cfg req (looking (ρ := ρ) (π := π) cfg req).init.1 x [] := trivial
  refine h.invariant (P := fun s => Records cfg req s.1 x (s.2 x)) hinit fun s a t hr hp _ hs => ?_
  obtain ⟨hstep, hnote⟩ := Lts.recording_step hs
  have hreach : (system cfg req).Reach Lts.always s.1 := hr.of_recording (g := Lts.always)
  have hinv := inv_of_reach hreach
  by_cases hgo : a = .go x
  · subst hgo
    rw [hnote]
    simp only [update_self]
    exact hp.go hstep
  by_cases hlock : ∃ order, a = .lock x order
  · obtain ⟨order, rfl⟩ := hlock
    rw [hnote]
    simp only [update_self]
    simp only [system, step] at hstep
    split at hstep
    case h_2 => cases hstep
    case h_1 now hx =>
      obtain ⟨⟨-, horder⟩, ht⟩ := Lts.taken hstep
      have hcall : t.1.call x = { s.1.call x with pc := .scan now order none } := by
        rw [ht]
        exact update_self ..
      rw [Records, hcall]
      refine ⟨?_, fun y hy => absurd hy List.not_mem_nil, fun y hy => absurd hy List.not_mem_nil,
        fun y hy => absurd hy List.not_mem_nil, by simp, by simp⟩
      rw [hcall, ht]
      exact horder
  -- the step is none of the call's own, unless the call is not in the loop
  have hrec : t.2 x = s.2 x := by
    rw [hnote]
    cases a with
    | lock y order => exact update_of_ne (fun hxy => hlock ⟨order, by rw [hxy]⟩) ..
    | go y => exact update_of_ne (fun hxy => hgo (by rw [hxy])) ..
    | handle | acquired | retry | evicted | freed | openFailed | opened | act | bytes | rolling
    | ended | unwind | candidate | clock | offers | ask | exhausted | answer | lost
    | evictTunnelStreams | evictConnStreams | purge => rfl
  rw [hrec]
  rcases (moved_of_step hinv hreach hstep).kind with hq | ⟨y, hturn, hy⟩
  · exact hp.frame (hinv.outline x) (hq.frame x)
  · by_cases hxy : x = y
    · subst hxy
      have hscan := hy.resolve_left fun hl => hl.elim hgo hlock
      rw [Records]
      cases hpc : (t.1.call x).pc <;> rw [hpc] at hscan <;> trivial
    · exact hp.frame (hinv.outline x) (hturn.frame x hxy)

/-- **The least active stream is found.**  At the end of a scan the call returns the victim so far.
It has looked at every tracked stream of its node and has passed over only those of other tunnels
and those that are evicted.  A victim is one of the tunnel that it may evict by what it has read.
And the victim is the idlest of those, and there is one if there is any of them, exactly if there is
none at all or one that was not active after the clock was read. -/
theorem least_active_found (h : (looking cfg req).Reach Lts.always s) {x : χ} {now : Int}
    {best : Option (σ × Int)} (hpc : (s.1.call x).pc = .scan now [] best) :
    (∃ t, step cfg req s.1 (.go x) = some t ∧ (t.call x).pc = endScan (s.1.call x).op best) ∧
    ((s.2 x).map Look.stream).Perm (s.1.streams (s.1.call x).node) ∧
    (∀ y ∈ s.2 x, y.read = none → (req y.stream).tunnel ≠ (s.1.call x).tunnel ∨
      (s.1.stream y.stream).evicted = true) ∧
    (∀ b, best = some b → (req b.1).tunnel = (s.1.call x).tunnel ∧
      ∃ rate, ⟨b.1, some (b.2, rate)⟩ ∈ s.2 x ∧ CanEvict cfg b.2 rate) ∧
    ((∀ y ∈ s.2 x, ∀ r ∈ y.read, CanEvict cfg r.1 r.2 → ∃ b, best = some b ∧ r.1 ≤ b.2) ↔
      (∀ y ∈ s.2 x, ∀ r ∈ y.read, ¬ CanEvict cfg r.1 r.2) ∨
        ∃ y ∈ s.2 x, ∃ r ∈ y.read, CanEvict cfg r.1 r.2 ∧ 0 ≤ r.1) := by
  have hrec := records_of_reach h x
  rw [Records, hpc] at hrec
  refine ⟨?_, by simpa using hrec.all, hrec.passed, fun b hb => ?_, hrec.best.complete_iff⟩
  · simp only [step, goCall, hpc]
    exact ⟨_, rfl, by simp⟩
  · obtain ⟨rate, hmem, hev⟩ := hrec.best.mem b hb
    exact ⟨hrec.tunnel _ hmem (by simp), rate, hmem, hev⟩

end Runs

/-- Two streams of a tunnel; the second has traffic after the clock was read.  The first is
chosen. -/
theorem least_active_found_of_two :
    ∃ s : State (Fin 2) (Fin 1) (Fin 1) (Fin 1) × (Fin 1 → List (Look (Fin 2))),
      (looking ⟨60, 1000⟩ fun _ => ⟨"a", "phone"⟩).Reach Lts.always s ∧
      (s.1.call 0).pc = .scan 70 [] (some (0, 70)) ∧
      s.2 0 = [⟨1, some (-1, 300)⟩, ⟨0, some (70, 0)⟩] ∧
      ∀ y ∈ s.2 0, ∀ r ∈ y.read, CanEvict ⟨60, 1000⟩ r.1 r.2 → r.1 ≤ 70 := by
  obtain ⟨s, hreach, hpc, hlooks⟩ := Lts.exists_reach_of_any
    (L := looking (σ := Fin 2) (χ := Fin 1) (ρ := Fin 1) (π := Fin 1) ⟨60, 1000⟩
      fun _ => ⟨"a", "phone"⟩) (g := Lts.always)
    (l := [.handle 0, .acquired 0 .taken, .opened 0 "conn" 0, .handle 1, .acquired 1 .taken,
      .opened 1 "conn" 0, .candidate 0 "a" "phone", .clock 0 70, .lock 0 [0, 1], .go 0, .go 0,
      .bytes 1 300, .act 1 71, .go 0, .go 0, .go 0, .go 0])
    (P := fun s => (s.1.call 0).pc = .scan 70 [] (some (0, 70)) ∧
      s.2 0 = [⟨1, some (-1, 300)⟩, ⟨0, some (70, 0)⟩]) (by decide +kernel)
  refine ⟨s, hreach, hpc, hlooks, fun y hy r hr hev => ?_⟩
  have hquiet : ∃ y ∈ s.2 0, ∃ r ∈ y.read, CanEvict ⟨60, 1000⟩ r.1 r.2 ∧ 0 ≤ r.1 := by
    rw [hlooks]
    decide
  obtain ⟨b, hb, hle⟩ := (least_active_found hreach hpc).2.2.2.2.2 (.inr hquiet) y hy r hr hev
  cases hb
  exact hle

/-- A stream without much traffic has some just after the clock was read.  It may be evicted, and
there is no other, but the call finds none. -/
theorem active_stream_missed :
    ∃ s : State (Fin 1) (Fin 1) (Fin 1) (Fin 1) × (Fin 1 → List (Look (Fin 1))),
      (looking ⟨60, 1000⟩ fun _ => ⟨"a", "phone"⟩).Reach Lts.always s ∧
      (s.1.call 0).pc = .scan 70 [] none ∧ s.2 0 = [⟨0, some (-1, 300)⟩] ∧
      CanEvict ⟨60, 1000⟩ (-1) 300 ∧ (s.1.stream 0).evicted = false ∧
      s.1.streams "a" = [0] := by
  obtain ⟨s, hreach, hpc, hlooks, hev, hstreams⟩ := Lts.exists_reach_of_any
    (L := looking (σ := Fin 1) (χ := Fin 1) (ρ := Fin 1) (π := Fin 1) ⟨60, 1000⟩
      fun _ => ⟨"a", "phone"⟩) (g := Lts.always)
    (l := [.handle 0, .acquired 0 .taken, .opened 0 "conn" 0, .candidate 0 "a" "phone",
      .clock 0 70, .act 0 71, .bytes 0 300, .lock 0 [0], .go 0, .go 0, .go 0])
    (P := fun s => (s.1.call 0).pc = .scan 70 [] none ∧ s.2 0 = [⟨0, some (-1, 300)⟩] ∧
      (s.1.stream 0).evicted = false ∧ s.1.streams "a" = [0]) (by decide +kernel)
  exact ⟨s, hreach, hpc, hlooks, by decide, hev, hstreams⟩

end Tunneld.Eviction

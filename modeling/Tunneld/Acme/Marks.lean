import Tunneld.Acme.Settle
import Mathlib.Data.Fintype.Basic

/-!
# The `429` marks of an account

A `429` shows that the account's request bucket holds fewer tokens than was thought, so its handling
empties the bucket.  What orders have prepaid from it before is then worth nothing, and must neither
pay for a request nor go back into the bucket.  An order knows by the mark: it reads the account's
mark before it prepays, and uses what it has prepaid only while it reads the same mark, or none.

The handling writes a mark before it empties the bucket and another one after.  An order that
prepays in between has read the first mark, or none, so the second one tells it apart from an order
that prepays later.  Two things are needed of the store: no mark is written twice, and a mark
outlives the orders that were running when it was written (`MarksLast`).  For a mark that has run
out looks like none at all.

## Main results

* `Dated.clear`: while an order reads its own mark, or none, no handling that has resynced the
  bucket since it prepaid has written its second mark;
* `used_before_the_second_mark`: so what was prepaid before a resync is not used after its second
  mark.
-/

namespace Tunneld.Acme

open Function

variable {ο η υ ν : Type}

/-- The order is begun and not over: `settle` has not returned, or the goroutine of the order has
not. -/
def Order.running (o : Order υ ν) : Bool :=
  match o.chain, o.worker with
  | .reserve, _ | .refused, _ | .skipped, _ => false
  | .settled, .finished _ => false
  | _, _ => true

/-- Marks are never repeated, and a mark runs out only when all orders that are running were begun
after it was written. -/
def MarksLast (s : State ο η υ ν) : Act ο η υ ν → Prop
  | .handle _ (.wrote m) | .handleOther _ (.wrote m) => s.written m = none
  | .expire => ∀ x ∈ s.mark, ∀ t ∈ s.written x, ∀ k, (s.orders k).running = true →
      t < (s.orders k).startedAt
  | _ => True

instance [Fintype ο] (s : State ο η υ ν) (a : Act ο η υ ν) : Decidable (MarksLast s a) := by
  unfold MarksLast
  rcases a with _ | _ | ⟨_, _ | _⟩ | _ | ⟨_, _ | _⟩ <;> infer_instance

/-! ## Dates -/

/-- The marks of an account, with their dates. -/
structure Marks (ν : Type) where
  /-- The steps so far. -/
  clock : Nat
  mark : Option ν
  written : ν → Option Nat
  handled : List Marked

/-- The marks in a state. -/
def State.marks (s : State ο η υ ν) : Marks ν := ⟨s.clock, s.mark, s.written, s.handled⟩

namespace Marks

/-- A step passes. -/
def tick (M : Marks ν) : Marks ν := { M with clock := M.clock + 1 }

/-- Every handling that has resynced the bucket after `prepaidAt` wrote its second mark no earlier
than `readAt`. -/
def Clear (M : Marks ν) (prepaidAt readAt : Nat) : Prop :=
  ∀ m ∈ M.handled, prepaidAt < m.resyncAt → readAt ≤ m.markedAt

/-- The dates make sense. -/
structure Sound (M : Marks ν) : Prop where
  written : ∀ x t, M.written x = some t → t < M.clock
  mark : ∀ x, M.mark = some x → ∃ t, M.written x = some t
  handled : ∀ m ∈ M.handled, m.resyncAt < m.markedAt ∧ m.markedAt < M.clock

end Marks

/-- What is known of a wait state that was read: if it lets the order use what was prepaid, then no
`429` forbids it. -/
def Worker.Dated (M : Marks ν) (prepaidAt : Nat) (mark : Option ν) (left : Nat) : Worker υ ν → Prop
  | .before _ (.loop w) | .before _ (.drop w) =>
    w.readAt < M.clock ∧
      (w.known = true ∧ (w.mark = none ∨ w.mark = mark) → M.Clear prepaidAt w.readAt)
  | .before _ (.use readAt) => readAt < M.clock ∧ (0 < left → M.Clear prepaidAt readAt)
  | .trip _ _ (.limited _ _ (.remark resyncAt)) => resyncAt < M.clock
  | _ => True

/-- The same for `attempt` and `settle`. -/
def Chain.Dated (M : Marks ν) (prepaidAt : Nat) (mark : Option ν) : Chain ν → Prop
  | .prepay m _ => ∀ x, m = some x → ∃ t, M.written x = some t
  | .refundMark _ m => m = mark
  | .refund _ readAt => readAt < M.clock ∧ M.Clear prepaidAt readAt
  | _ => True

/-- What holds of an order and the marks of its account. -/
structure Order.Dated (M : Marks ν) (o : Order υ ν) : Prop where
  early : o.chain.Early → o.worker = .off
  started : o.startedAt ≤ M.clock
  prepaid : ¬ o.chain.Early → o.startedAt ≤ o.prepaidAt
  mark : ¬ o.chain.Early → ∀ x, o.track.prepaidMark = some x →
    ∃ t, M.written x = some t ∧ t < o.prepaidAt
  newer : ¬ o.chain.Early → o.running = true → ∀ m ∈ M.handled, o.prepaidAt < m.resyncAt →
    ∃ x t, M.mark = some x ∧ M.written x = some t ∧ m.markedAt ≤ t
  worker : o.worker.Dated M o.prepaidAt o.track.prepaidMark o.track.prepaid
  chain : o.chain.Dated M o.prepaidAt o.track.prepaidMark
  uses : ∀ u ∈ o.uses, u.readAt < M.clock ∧ M.Clear u.prepaidAt u.readAt

namespace Order

variable {M : Marks ν} {cfg : Config} {n : Subject} {clock : Nat} {o o' : Order υ ν} {r : Request υ}
  {pay : Pay} {p : Trip υ} {i : Input υ ν} {j : ChainInput ν}

/-- **The mark tells.**  If the mark that an order reads now is none, or the one from before it
prepaid, then no handling that resynced the bucket since then has written its second mark. -/
theorem Dated.clear (hd : o.Dated M) (hM : M.Sound) (he : ¬ o.chain.Early) (hr : o.running = true)
    (hmark : M.mark = none ∨ M.mark = o.track.prepaidMark) : M.Clear o.prepaidAt M.clock := by
  intro m hm hlt
  obtain ⟨x, t, hx, ht, hle⟩ := hd.newer he hr m hm hlt
  rcases hmark with hnone | hsame
  · rw [hx] at hnone
    cases hnone
  · obtain ⟨t', ht', hlt'⟩ := hd.mark he x (hsame.symm.trans hx)
    rw [ht] at ht'
    cases ht'
    have := (hM.handled m hm).1
    omega

end Order

/-! ## Steps elsewhere -/

section Mono

variable {M M' : Marks ν} {o : Order υ ν} {prepaidAt : Nat} {mark : Option ν}

/-- The marks may have been added to, as long as nothing that was clear is not. -/
structure Marks.Grows (M M' : Marks ν) : Prop where
  clock : M.clock ≤ M'.clock
  written : ∀ x t, M.written x = some t → M'.written x = some t
  clear : ∀ q t, t < M.clock → M.Clear q t → M'.Clear q t

theorem Worker.Dated.mono {w : Worker υ ν} {left left' : Nat} (h : M.Grows M')
    (hw : w.Dated M prepaidAt mark left) (hleft : left' ≤ left) :
    w.Dated M' prepaidAt mark left' := by
  unfold Worker.Dated at hw ⊢
  split at hw
  · exact ⟨hw.1.trans_le h.clock, fun hk => h.clear _ _ hw.1 (hw.2 hk)⟩
  · exact ⟨hw.1.trans_le h.clock, fun hk => h.clear _ _ hw.1 (hw.2 hk)⟩
  · exact ⟨hw.1.trans_le h.clock, fun hk => h.clear _ _ hw.1 (hw.2 (hk.trans_le hleft))⟩
  · exact lt_of_lt_of_le hw h.clock
  · trivial

theorem Chain.Dated.mono {c : Chain ν} (h : M.Grows M') (hc : c.Dated M prepaidAt mark) :
    c.Dated M' prepaidAt mark := by
  unfold Chain.Dated at hc ⊢
  split at hc
  · intro x hx
    obtain ⟨t, ht⟩ := hc x hx
    exact ⟨t, h.written x t ht⟩
  · exact hc
  · exact ⟨hc.1.trans_le h.clock, h.clear _ _ hc.1 hc.2⟩
  · trivial

/-- The marks grow, and the newest mark is still there for those who need it. -/
theorem Order.Dated.mono (hd : o.Dated M) (h : M.Grows M')
    (hnewer : ¬ o.chain.Early → o.running = true → ∀ m ∈ M'.handled, o.prepaidAt < m.resyncAt →
      ∃ x t, M'.mark = some x ∧ M'.written x = some t ∧ m.markedAt ≤ t) : o.Dated M' where
  early := hd.early
  started := hd.started.trans h.clock
  prepaid := hd.prepaid
  mark := by
    intro he x hx
    obtain ⟨t, ht, hlt⟩ := hd.mark he x hx
    exact ⟨t, h.written x t ht, hlt⟩
  newer := hnewer
  worker := hd.worker.mono h (le_refl _)
  chain := hd.chain.mono h
  uses := fun u hu =>
    ⟨(hd.uses u hu).1.trans_le h.clock, h.clear _ _ (hd.uses u hu).1 (hd.uses u hu).2⟩

theorem Marks.grows_tick (M : Marks ν) : M.Grows M.tick :=
  ⟨Nat.le_succ _, fun _ _ h => h, fun _ _ _ h => h⟩

theorem Order.Dated.tick (hd : o.Dated M) : o.Dated M.tick :=
  hd.mono M.grows_tick hd.newer

theorem Marks.Sound.tick (hM : M.Sound) : M.tick.Sound where
  written := fun x t ht => Nat.lt_succ_of_lt (hM.written x t ht)
  mark := hM.mark
  handled := fun m hm => ⟨(hM.handled m hm).1, Nat.lt_succ_of_lt (hM.handled m hm).2⟩

theorem Order.Dated.expire (hd : o.Dated M) (hM : M.Sound)
    (hlast : ∀ x ∈ M.mark, ∀ t ∈ M.written x, o.running = true → t < o.startedAt) :
    o.Dated { M.tick with mark := none } := by
  refine hd.mono ⟨Nat.le_succ _, fun _ _ h => h, fun _ _ _ h => h⟩ fun he hr m hm hlt => ?_
  -- An order that needs the mark was running before the mark was written.
  obtain ⟨x, t, hx, ht, hle⟩ := hd.newer he hr m hm hlt
  have := hlast x hx t ht hr
  have := hd.prepaid he
  have := (hM.handled m hm).1
  omega

theorem Marks.Sound.expire (hM : M.Sound) : ({ M.tick with mark := none } : Marks ν).Sound where
  written := hM.tick.written
  mark := fun _ h => by cases h
  handled := hM.tick.handled

variable [DecidableEq ν]

/-- The marks after a fresh one is written, by a handling that has resynced the bucket or by one
that has not. -/
def Marks.wrote (M : Marks ν) (m : ν) (h : Handling) : Marks ν where
  clock := M.clock + 1
  mark := some m
  written := update M.written m (some M.clock)
  handled := match h with
    | .remark resyncAt => ⟨resyncAt, M.clock⟩ :: M.handled
    | _ => M.handled

theorem Marks.mem_wrote {m : ν} {h : Handling} {d : Marked} (hd : d ∈ (M.wrote m h).handled) :
    d ∈ M.handled ∨ ∃ resyncAt, h = .remark resyncAt ∧ d = ⟨resyncAt, M.clock⟩ := by
  unfold Marks.wrote at hd
  cases h with
  | setWait | mark | body | resync => exact .inl hd
  | remark resyncAt =>
    rcases List.mem_cons.1 hd with rfl | hd
    · exact .inr ⟨resyncAt, rfl, rfl⟩
    · exact .inl hd

theorem Marks.written_wrote {m : ν} (hfresh : M.written m = none) (h : Handling) (x : ν) (t : Nat)
    (hx : M.written x = some t) : (M.wrote m h).written x = some t := by
  have hne : x ≠ m := by
    rintro rfl
    rw [hfresh] at hx
    cases hx
  show update M.written m _ x = some t
  rw [update_of_ne hne, hx]

theorem Marks.Sound.wrote (hM : M.Sound) {m : ν} {h : Handling}
    (hremark : ∀ t, h = .remark t → t < M.clock) : (M.wrote m h).Sound where
  written := by
    intro x t hx
    by_cases hxm : x = m
    · subst hxm
      have hself : (M.wrote x h).written x = some M.clock := update_self ..
      rw [hself] at hx
      cases hx
      exact Nat.lt_succ_self _
    · have hother : (M.wrote m h).written x = M.written x := update_of_ne hxm ..
      rw [hother] at hx
      exact Nat.lt_succ_of_lt (hM.written x t hx)
  mark := by
    intro x hx
    cases hx
    exact ⟨M.clock, update_self ..⟩
  handled := by
    intro d hd
    rcases Marks.mem_wrote hd with hd | ⟨t, rfl, rfl⟩
    · exact ⟨(hM.handled d hd).1, Nat.lt_succ_of_lt (hM.handled d hd).2⟩
    · exact ⟨hremark t rfl, Nat.lt_succ_self _⟩

/-- A fresh mark is written: it is newer than every handling that is over. -/
theorem Order.Dated.wrote (hd : o.Dated M.tick) (hM : M.Sound) {m : ν}
    (hfresh : M.written m = none) (h : Handling) : o.Dated (M.wrote m h) := by
  refine hd.mono ⟨le_refl _, Marks.written_wrote hfresh h, ?_⟩ ?_
  · intro q t hlt hclear d hd' hq
    rcases Marks.mem_wrote hd' with hd' | ⟨t', rfl, rfl⟩
    · exact hclear d hd' hq
    · exact Nat.le_of_lt_succ hlt
  · intro _ _ d hd' _
    refine ⟨m, M.clock, rfl, update_self .., ?_⟩
    rcases Marks.mem_wrote hd' with hd' | ⟨t', rfl, rfl⟩
    · exact (hM.handled d hd').2.le
    · exact le_refl _

end Mono

/-! ## Steps of an order -/

namespace Order

variable {M : Marks ν} {cfg : Config} {n : Subject} {o o' : Order υ ν} {r : Request υ}
  {pay : Pay} {p : Trip υ} {i : Input υ ν} {j : ChainInput ν}

theorem running_of_live (he : ¬ o.chain.Early) (hfin : ∀ ok, o.worker ≠ .finished ok) :
    o.running = true := by
  unfold running
  split
  · rename_i hc
    exact absurd (by rw [hc]; trivial) he
  · rename_i hc
    exact absurd (by rw [hc]; trivial) he
  · rename_i hc
    exact absurd (by rw [hc]; trivial) he
  · rename_i ok _ hw
    exact absurd hw (hfin ok)
  · rfl

theorem running_of_chain (he : ¬ o.chain.Early) (hset : o.chain ≠ .settled) :
    o.running = true := by
  unfold running
  split
  · rename_i hc
    exact absurd (by rw [hc]; trivial) he
  · rename_i hc
    exact absurd (by rw [hc]; trivial) he
  · rename_i hc
    exact absurd (by rw [hc]; trivial) he
  · rename_i hc _
    exact absurd hc hset
  · rfl

theorem Dated.worked (hd : o.Dated M) (hw : WorkStep o o') (hstarted : o'.startedAt = o.startedAt)
    (hat : o'.prepaidAt = o.prepaidAt) (hmark : o'.track.prepaidMark = o.track.prepaidMark)
    (hworker : o'.worker.Dated M.tick o.prepaidAt o.track.prepaidMark o'.track.prepaid)
    (huses : ∀ u ∈ o'.uses, u.readAt < M.tick.clock ∧ M.tick.Clear u.prepaidAt u.readAt) :
    o'.Dated M.tick := by
  have hearly : ¬ o.chain.Early := fun he => hw.live.1 (hd.early he)
  have hrun := running_of_live hearly hw.live.2
  have ht := hd.tick
  refine ⟨?_, ?_, ?_, ?_, ?_, ?_, ?_, huses⟩
  · rw [hw.chain]
    exact fun he => absurd he hearly
  · rw [hstarted]
    exact ht.started
  · rw [hstarted, hat]
    exact fun _ => ht.prepaid hearly
  · rw [hmark, hat]
    exact fun _ => ht.mark hearly
  · rw [hat]
    exact fun _ _ => ht.newer hearly hrun
  · rw [hat, hmark]
    exact hworker
  · rw [hw.chain, hat, hmark]
    exact ht.chain

theorem Dated.before [DecidableEq υ] [DecidableEq ν] (hd : o.Dated M) (hM : M.Sound)
    {b : Before ν} (hw : o.worker = .before r b) (hsees : i.Sees M.mark)
    (h : o.before cfg M.clock r b i = some o') : o'.Dated M.tick := by
  have hstep := workStep_of_before hw h
  have hearly : ¬ o.chain.Early := fun he => hstep.live.1 (hd.early he)
  have hrun := running_of_live hearly hstep.live.2
  have huses := hd.tick.uses
  have hdated := hd.worker
  rw [hw] at hdated
  cases befores_of_before h with
  | readsWait =>
    refine hd.worked hstep rfl rfl rfl ⟨Nat.lt_succ_self _, fun hk => ?_⟩ huses
    exact hd.clear hM hearly hrun (hsees ▸ hk.2)
  | missesWait =>
    exact hd.worked hstep rfl rfl rfl
      ⟨Nat.lt_succ_self _, fun hk => absurd hk.1 Bool.false_ne_true⟩ huses
  | goesOn =>
    exact hd.worked hstep rfl rfl rfl ⟨Nat.lt_succ_of_lt hdated.1, hdated.2⟩ huses
  | drops =>
    -- What is prepaid is dropped, unless the wait state allows its use.
    rw [Track.dropPrepaid_eq] at hstep ⊢
    refine hd.worked hstep rfl rfl rfl ⟨Nat.lt_succ_of_lt hdated.1, fun hpos => ?_⟩ huses
    dsimp only at hpos
    split at hpos
    · rename_i hk
      exact hdated.2 hk
    · exact absurd hpos (lt_irrefl 0)
  | uses hpos =>
    refine hd.worked hstep rfl rfl rfl trivial fun u hu => ?_
    rcases List.mem_cons.1 hu with rfl | hu
    · exact ⟨Nat.lt_succ_of_lt hdated.1, hdated.2 hpos⟩
    · exact huses u hu
  | refuses | enters | pauses | wakes | quits | hasNone | isShort | takes | takesBlindly
  | returnsPrepaid | returnsNothing | polls | passes =>
    exact hd.worked hstep rfl rfl rfl trivial huses

theorem Dated.trip [DecidableEq υ] (hd : o.Dated M) (hw : o.worker = .trip r pay p)
    (h : o.trip r pay p i = some o') : o'.Dated M.tick := by
  have hstep := workStep_of_trip hw h
  have huses := hd.tick.uses
  cases tripStep_of_trip hw h with
  | @goesOn t q ht _ _ hlimited =>
    refine hd.worked hstep rfl rfl ht.mark ?_ huses
    -- A handling begins with the wait, which has no date.
    cases q with
    | limited sent a handling =>
      cases hlimited sent a handling rfl
      trivial
    | _ => trivial
  | stops ht | ends ht => exact hd.worked hstep rfl rfl ht.mark trivial huses
  | returnsPrepaid => exact hd.worked hstep rfl rfl rfl trivial huses

theorem Dated.work [DecidableEq υ] [DecidableEq ν] (hd : o.Dated M) (hM : M.Sound)
    (hsees : i.Sees M.mark) (h : o.work cfg M.clock i = some o') : o'.Dated M.tick := by
  have hstep := workStep_of_work h
  unfold Order.work at h
  split at h
  · cases h
    exact hd.worked hstep rfl rfl rfl trivial hd.tick.uses
  · cases h
    exact hd.worked hstep rfl rfl rfl trivial hd.tick.uses
  · rename_i hw
    exact hd.before hM hw hsees h
  · rename_i hw
    exact hd.trip hw h
  · cases h

theorem Dated.handled (hd : o.Dated M) {sent : SentRequest} {a : Answer υ} {h : Handling}
    {res : Handled} {c : HandlingInput ν} (hw : o.worker = .trip r pay (.limited sent a h))
    (hres : h.step M.clock c = some res) : (o.handled r pay sent a res).Dated M.tick := by
  have hstep := workStep_handled hw res
  cases res with
  | next h' =>
    refine hd.worked hstep rfl rfl rfl ?_ hd.tick.uses
    -- The only date that is new is that of the resync.
    unfold Handling.step at hres
    split at hres <;> cases hres <;> first | trivial | exact Nat.lt_succ_self _
  | answered => exact hd.worked hstep rfl rfl rfl trivial hd.tick.uses
  | lost => exact hd.worked hstep rfl rfl rfl trivial hd.tick.uses

theorem Dated.advanced (hd : o.Dated M) (hset : o.chain ≠ .settled)
    (hworker : o'.worker = o.worker) (hstarted : o'.startedAt = o.startedAt)
    (hat : o'.prepaidAt = o.prepaidAt) (hmark : o'.track.prepaidMark = o.track.prepaidMark)
    (hleft : o'.track.prepaid ≤ o.track.prepaid) (hearly : o'.chain.Early ↔ o.chain.Early)
    (hchain : o'.chain.Dated M.tick o.prepaidAt o.track.prepaidMark)
    (huses : ∀ u ∈ o'.uses, u.readAt < M.tick.clock ∧ M.tick.Clear u.prepaidAt u.readAt) :
    o'.Dated M.tick := by
  have ht := hd.tick
  refine ⟨?_, ?_, ?_, ?_, ?_, ?_, ?_, huses⟩
  · rw [hworker]
    exact fun he => hd.early (hearly.1 he)
  · rw [hstarted]
    exact ht.started
  · rw [hstarted, hat]
    exact fun he => ht.prepaid (mt hearly.2 he)
  · rw [hmark, hat]
    exact fun he => ht.mark (mt hearly.2 he)
  · rw [hat]
    exact fun he _ => ht.newer (mt hearly.2 he) (running_of_chain (mt hearly.2 he) hset)
  · rw [hworker, hat, hmark]
    exact hd.worker.mono M.grows_tick hleft
  · rw [hat, hmark]
    exact hchain

theorem Dated.begun (hd : o.Dated M) (hc : o.chain = .reserve) {c : Chain ν}
    (hearly : c.Early) (hchain : c.Dated M.tick o.prepaidAt o.track.prepaidMark) :
    ({ o with startedAt := M.clock, chain := c } : Order υ ν).Dated M.tick := by
  have hoff : o.worker = .off := hd.early (by rw [hc]; trivial)
  exact ⟨fun _ => hoff, Nat.le_succ _, fun he => absurd hearly he, fun he => absurd hearly he,
    fun he => absurd hearly he, hd.tick.worker, hchain, hd.tick.uses⟩

/-- The goroutine of the order is started: what was prepaid is newer than every handling so far. -/
theorem Dated.start (hd : o.Dated M) (hM : M.Sound) {mark : Option ν} {most : Nat}
    (hc : o.chain = .prepay mark most) (k : Nat) :
    (o.start cfg M.clock k mark).Dated M.tick := by
  have hdated := hd.chain
  rw [hc] at hdated
  refine ⟨fun h => h.elim, hd.tick.started, fun _ => hd.started, ?_, ?_, trivial, trivial,
    hd.tick.uses⟩
  · intro _ x hx
    obtain ⟨t, ht⟩ := hdated x hx
    exact ⟨t, ht, hM.written x t ht⟩
  · intro _ _ m hm hlt
    have hlt : M.clock < m.resyncAt := hlt
    have := hM.handled m hm
    omega

theorem Dated.chainStep (hd : o.Dated M) (hM : M.Sound) (hsees : j.Sees M.mark)
    (h : ChainStep cfg n M.clock o j o') : o'.Dated M.tick := by
  have huses := hd.tick.uses
  have hdated := hd.chain
  cases h with
  | begins hc hnext =>
    rcases hnext with rfl | rfl
    · unfold reserved
      split
      · exact hd.begun hc trivial trivial
      · exact hd.begun hc trivial fun x hx => by cases hx
    · exact hd.begun hc trivial trivial
  | readsMark hc hmark =>
    -- The mark is read before the requests are prepaid.
    refine hd.advanced (by simp [hc]) rfl rfl rfl rfl (le_refl _) (by simp [hc, Chain.Early])
      (fun x hx => ?_) huses
    rcases hmark with rfl | ⟨cool, rfl⟩
    · cases hx
    · exact hM.mark x (hsees ▸ hx)
  | starts hc => exact hd.start hM hc _
  | isShort hc | givesBack hc | givesUp hc | returns hc | abandons hc | readsOutcome hc
  | settles hc | commits hc | releases hc =>
    exact hd.advanced (by simp [hc]) rfl rfl rfl rfl (le_refl _) (by simp [hc, Chain.Early])
      trivial huses
  | drains hc =>
    exact hd.advanced (by simp [hc]) rfl rfl rfl rfl (Nat.zero_le _) (by simp [hc, Chain.Early])
      rfl huses
  | drainsNothing hc =>
    exact hd.advanced (by simp [hc]) rfl rfl rfl rfl (Nat.zero_le _) (by simp [hc, Chain.Early])
      trivial huses
  | findsMark hc hj hmark =>
    -- The mark is read before what is left is refunded.
    obtain ⟨cool, rfl⟩ := hj
    have hearly : ¬ o.chain.Early := by
      rw [hc]
      exact id
    rw [hc] at hdated
    refine hd.advanced (by simp [hc]) rfl rfl rfl rfl (le_refl _) (by simp [hc, Chain.Early])
      ⟨Nat.lt_succ_self _, hd.clear hM hearly (running_of_chain hearly (by simp [hc])) ?_⟩ huses
    rw [← hdated, ← hsees]
    exact hmark
  | keeps hc hover hset =>
    have hearly : ¬ o.chain.Early := by
      rw [hc]
      exact Chain.not_early_of_over hover
    exact hd.advanced (by rw [hc]; exact hset) rfl rfl rfl rfl (le_refl _)
      ⟨fun h => h.elim, fun h => absurd h hearly⟩ trivial huses
  | refunds hc =>
    rw [hc] at hdated
    refine hd.advanced (by simp [hc]) rfl rfl rfl rfl (le_refl _) (by simp [hc, Chain.Early])
      trivial fun u hu => ?_
    rcases List.mem_cons.1 hu with rfl | hu
    · exact ⟨Nat.lt_succ_of_lt hdated.1, hdated.2⟩
    · exact huses u hu

end Order

/-! ## Every run -/

/-- What holds of an account and its marks. -/
structure MarksInv (s : State ο η υ ν) : Prop where
  sound : s.marks.Sound
  orders : ∀ k, (s.orders k).Dated s.marks
  others : ∀ e t, s.others e = some (.remark t) → t < s.clock

variable {cfg : Setup ο} {s t : State ο η υ ν}

theorem Handling.lt_of_step {clock : Nat} {h : Handling} {c : HandlingInput ν} {resyncAt : Nat}
    (hres : h.step clock c = some (.next (.remark resyncAt))) : resyncAt < clock + 1 := by
  unfold Handling.step at hres
  split at hres <;> cases hres
  all_goals exact Nat.lt_succ_self _

/-- What a step of a handling does to the marks, and to the orders that were dated before. -/
theorem MarksInv.writes [DecidableEq ν] (hi : MarksInv s) {h : Handling}
    (hremark : ∀ r, h = .remark r → r < s.clock) {c : HandlingInput ν}
    (hfresh : ∀ m, c = .wrote m → s.written m = none)
    (ht : t.marks = { (s.writes h c).marks with clock := s.clock + 1 }) :
    t.marks.Sound ∧ ∀ o : Order υ ν, o.Dated s.marks.tick → o.Dated t.marks := by
  cases c with
  | done | fails =>
    have heq : t.marks = s.marks.tick := ht
    rw [heq]
    exact ⟨hi.sound.tick, fun o ho => ho⟩
  | wrote m =>
    have heq : t.marks = s.marks.wrote m h := ht
    rw [heq]
    exact ⟨hi.sound.wrote hremark, fun o ho => ho.wrote hi.sound (hfresh m rfl) h⟩

variable [DecidableEq ο]

theorem MarksInv.put (hi : MarksInv s) {k : ο} {o : Order υ ν} (ho : o.Dated s.marks.tick) :
    MarksInv (s.put k o) := by
  refine ⟨hi.sound.tick, fun j => ?_, fun e r hr => Nat.lt_succ_of_lt (hi.others e r hr)⟩
  show (update s.orders k o j).Dated s.marks.tick
  by_cases hj : j = k
  · subst hj
    rw [update_self]
    exact ho
  · rw [update_of_ne hj]
    exact (hi.orders j).tick

variable [DecidableEq η] [DecidableEq υ] [DecidableEq ν]

theorem MarksInv.step {a : Act ο η υ ν} (hi : MarksInv s) (hg : MarksLast s a)
    (hs : step cfg s a = some t) : MarksInv t := by
  rw [Acme.step.eq_def] at hs
  cases a with
  | work k i =>
    simp only [Option.ite_none_right_eq_some, Option.map_eq_some_iff] at hs
    obtain ⟨hsees, o, ho, rfl⟩ := hs
    exact hi.put ((hi.orders k).work hi.sound hsees ho)
  | chain k i =>
    simp only [Option.ite_none_right_eq_some, Option.map_eq_some_iff] at hs
    obtain ⟨hsees, o, ho, rfl⟩ := hs
    exact hi.put ((hi.orders k).chainStep hi.sound hsees (Order.chainStep_of_attempt ho))
  | handle k c =>
    simp only at hs
    split at hs
    · rename_i r pay sent b h hw
      rw [Option.map_eq_some_iff] at hs
      obtain ⟨res, hres, rfl⟩ := hs
      have hd := hi.orders k
      have hdated := hd.worker
      rw [hw] at hdated
      have hremark : ∀ r, h = .remark r → r < s.clock := by
        rintro r rfl
        exact hdated
      obtain ⟨hsound, hmove⟩ := hi.writes hremark (c := c)
        (t := (s.writes h c).put k ((s.orders k).handled r pay sent b res))
        (by rintro m rfl; exact hg) (by cases c <;> rfl)
      refine ⟨hsound, fun j => hmove _ ?_, ?_⟩
      · show (update (s.writes h c).orders k _ j).Dated s.marks.tick
        rw [orders_writes]
        by_cases hj : j = k
        · subst hj
          rw [update_self]
          exact hd.handled hw hres
        · rw [update_of_ne hj]
          exact (hi.orders j).tick
      · intro e r' hr'
        have hother : s.others e = some (.remark r') := by cases c <;> exact hr'
        have hclock : ((s.writes h c).put k ((s.orders k).handled r pay sent b res)).clock =
            s.clock + 1 := by cases c <;> rfl
        rw [hclock]
        exact Nat.lt_succ_of_lt (hi.others e r' hother)
    · cases hs
  | limited e =>
    obtain ⟨-, rfl⟩ := Lts.taken hs
    refine ⟨hi.sound.tick, fun k => (hi.orders k).tick, fun e' r hr => ?_⟩
    have hr : update s.others e (some .setWait) e' = some (.remark r) := hr
    by_cases he : e' = e
    · subst he
      rw [update_self] at hr
      cases hr
    · rw [update_of_ne he] at hr
      exact Nat.lt_succ_of_lt (hi.others e' r hr)
  | handleOther e c =>
    simp only at hs
    split at hs
    · rename_i h hh
      rw [Option.map_eq_some_iff] at hs
      obtain ⟨res, hres, rfl⟩ := hs
      obtain ⟨hsound, hmove⟩ := hi.writes (h := h) (c := c)
        (t := { s.writes h c with
          clock := s.clock + 1, others := update s.others e res.rest })
        (by rintro r rfl; exact hi.others e r hh) (by rintro m rfl; exact hg) rfl
      refine ⟨hsound, fun k => hmove _ ?_, fun e' r hr => ?_⟩
      · show ((s.writes h c).orders k).Dated s.marks.tick
        rw [orders_writes]
        exact (hi.orders k).tick
      · have hr : update s.others e res.rest e' = some (.remark r) := hr
        show r < s.clock + 1
        by_cases he : e' = e
        · subst he
          rw [update_self] at hr
          cases res with
          | next h' =>
            cases hr
            exact Handling.lt_of_step hres
          | answered | lost => cases hr
        · rw [update_of_ne he] at hr
          exact Nat.lt_succ_of_lt (hi.others e' r hr)
    · cases hs
  | expire =>
    cases hs
    exact ⟨hi.sound.expire,
      fun k => (hi.orders k).expire hi.sound fun x hx t ht hr => hg x hx t ht k hr,
      fun e r hr => Nat.lt_succ_of_lt (hi.others e r hr)⟩

theorem marksInv_of_reach (h : (system cfg).Reach MarksLast s) : MarksInv s := by
  refine Lts.Reach.invariant ?_ (fun s a t _ hi hg hs => hi.step hg hs) h
  refine ⟨⟨fun _ _ h => ?_, fun _ h => ?_, fun _ h => ?_⟩, fun k => ?_, fun _ _ h => ?_⟩
  · cases h
  · cases h
  · cases h
  · exact ⟨fun _ => rfl, le_refl _, fun he => absurd trivial he, fun he => absurd trivial he,
      fun he => absurd trivial he, trivial, trivial, fun _ h => by cases h⟩
  · cases h

/-- **The marks protect the request budget.**  Whatever the orders and the handlings of an account
do: where prepaid requests were used, by a request or by a refund, no handling that had resynced the
bucket after they were prepaid had written its second mark before the wait state was read that
allowed the use. -/
theorem used_before_the_second_mark (h : (system cfg).Reach MarksLast s) (k : ο) :
    ∀ u ∈ (s.orders k).uses, ∀ m ∈ s.handled,
      ¬ (u.prepaidAt < m.resyncAt ∧ m.markedAt < u.readAt) := by
  intro u hu m hm
  rintro ⟨hprepaid, hread⟩
  have hclear := (((marksInv_of_reach h).orders k).uses u hu).2 m hm hprepaid
  omega

/-- A `429` is handled, and an order that prepays after it uses a prepaid request. -/
def prepaysAfter : List (Act Unit Unit Nat Nat) :=
  [.limited (), .handleOther () .done, .handleOther () (.wrote 1), .handleOther () .done,
    .handleOther () .done, .handleOther () (.wrote 2), .chain () .granted,
    .chain () (.waitState 0 (some 2)), .chain () (.prepaid 9),
    .work () (.request ⟨.newOrder, true, 0, false⟩), .work () .go,
    .work () (.waitState 0 (some 2)), .work () (.clock 0), .work () .go, .work () .go]

theorem used_after_a_429 :
    ∃ s : State Unit Unit Nat Nat, (system (oneOrder .gts)).Reach MarksLast s ∧
      s.handled ≠ [] ∧ (s.orders ()).uses ≠ [] ∧
      ∀ u ∈ (s.orders ()).uses, ∀ m ∈ s.handled,
        ¬ (u.prepaidAt < m.resyncAt ∧ m.markedAt < u.readAt) := by
  have hrun : ((system (oneOrder .gts)).execWith MarksLast (system (oneOrder .gts)).init
      prepaysAfter).any (fun s => s.handled ≠ [] ∧ (s.orders ()).uses ≠ []) = true := by
    decide +kernel
  obtain ⟨s, hreach, hhandled, huses⟩ := Lts.exists_reach_of_any hrun
  exact ⟨s, hreach, hhandled, huses, used_before_the_second_mark hreach ()⟩

end Tunneld.Acme

import Tunneld.Lib.Update
import Tunneld.Limit.RequestBudget

/-!
# The request budgets keep their ledgers

Every write to a request bucket takes no more than was there: the writes of a bucket are a
`TokenBucket.Ledger`, as long as nobody resyncs it and its hash does not run out between the `HSET`
and the `PEXPIRE` of a write (`Kept`).

The invariant is about the instant a reader may still use, `State.since`: the clock reading of the
section that holds the lock, if it has read the clock, and the present otherwise.  From there on the
stored level is backed by the ledger.

## Main results

* `due_outcome`: what a section is about to write, it may;
* `set`, `expire`: so its writes keep the books (`Tunneld.Limit.Conformance` has the bound).
-/

namespace Tunneld.RequestBudget

open Function Clock TokenBucket
open AcmeBudget (Hash parseBucket hset hpexpire bucketTTL budgetLockTTL Booked Timed Seen Due)

variable {β κ : Type} {cfg : Config β}
variable {s s' : State β κ} {k : κ}

namespace Phase

/-- The caller is inside a section. -/
def holds : Phase β → Bool
  | .idle | .lock .. | .returned _ => false
  | _ => true

/-- The clock reading of the section. -/
def reading : Phase β → Option Int
  | .read _ now _ _ | .set now _ _ | .expire now _ _ _ => some now
  | _ => none

/-- The bucket that has a new level and not yet its time to live. -/
def expiring : Phase β → Option β
  | .expire _ w _ _ => some w.bucket
  | _ => none

end Phase

/-- The clock reading a reader may still use. -/
def State.since (s : State β κ) : Int :=
  match s.lock with
  | none => s.now
  | some k => (s.phase k).reading.getD s.now

/-! ## What a section knows -/

/-- What a section knows, at each of its commands. -/
def Knows (cfg : Config β) (s : State β κ) : Phase β → Prop
  | .lock op _ | .clock op => op.resyncs = false ∧ op.buckets.Nodup ∧ ¬ Idle cfg op
  | .read op now states todo => op.resyncs = false ∧ op.buckets.Nodup ∧ ¬ Idle cfg op ∧
    ∀ b ∈ op.reads, b ∉ todo → Seen (cfg.bucket b) (s.log b) now (states b)
  | .set now ws _ => (ws.map Write.bucket).Nodup ∧
    ∀ w ∈ ws, Due (cfg.bucket w.bucket) (s.log w.bucket) now w.level w.amount
  | .expire now w ws _ => (w.bucket :: ws.map Write.bucket).Nodup ∧
    (∀ w' ∈ ws, Due (cfg.bucket w'.bucket) (s.log w'.bucket) now w'.level w'.amount) ∧
    w.level.since = now ∧ w.level.tokens ≤ (cfg.bucket w.bucket).capacity ∧
    ∃ x, s.budget w.bucket = some x ∧ x.t = w.level.tokens ∧ x.atMs = unixMilli now
  | _ => True

/-- **What is always true.** -/
structure Inv (cfg : Config β) (s : State β κ) : Prop where
  /-- The holder of the lock is the caller in a section. -/
  lock : ∀ k, (s.phase k).holds = true ↔ s.lock = some k
  /-- The section does not outlive the lock. -/
  time : s.lock ≠ none → s.lockedAt ≤ s.now ∧ s.now ≤ s.lockedAt + budgetLockTTL
  /-- Its clock reading was taken inside it. -/
  reading : ∀ k r, (s.phase k).reading = some r → s.lockedAt ≤ r ∧ r ≤ s.now
  /-- The books are kept. -/
  booked : ∀ b, Booked (cfg.bucket b) (s.budget b) (s.log b) s.since
  /-- A bucket is full before its hash runs out, unless it has just been written to. -/
  timed : ∀ b, Timed (cfg.bucket b) (s.budget b) ∨ ∃ k, (s.phase k).expiring = some b
  /-- What each caller knows. -/
  knows : ∀ k, Knows cfg s (s.phase k)

variable {ph : Phase β}

theorem holds_of_reading {r : Int} (h : ph.reading = some r) : ph.holds = true := by
  cases ph <;> first | rfl | cases h

theorem holds_of_expiring {b : β} (h : ph.expiring = some b) : ph.holds = true := by
  cases ph <;> first | rfl | cases h

/-- Outside the sections nobody has read the clock or is about to set a time to live. -/
theorem quiet_of_outside (h : ph.holds = false) : ph.reading = none ∧ ph.expiring = none := by
  cases ph <;> first | exact ⟨rfl, rfl⟩ | cases h

theorem since_of_free (hl : s.lock = none) : s.since = s.now := by rw [State.since, hl]

theorem since_of_held (hl : s.lock = some k) : s.since = (s.phase k).reading.getD s.now := by
  rw [State.since, hl]

namespace Inv

theorem since_le (h : Inv cfg s) : s.since ≤ s.now := by
  cases hl : s.lock with
  | none => exact le_of_eq (since_of_free hl)
  | some k =>
    rw [since_of_held hl]
    cases hr : (s.phase k).reading with
    | none => exact le_refl _
    | some r => exact (h.reading k r hr).2

/-- The present is at most a section's length after the reading. -/
theorem le_since (h : Inv cfg s) : s.now ≤ s.since + budgetLockTTL := by
  have hpos : (0 : Int) ≤ budgetLockTTL := by decide
  cases hl : s.lock with
  | none => rw [since_of_free hl]; omega
  | some k =>
    have ht := h.time (by rw [hl]; exact Option.some_ne_none k)
    rw [since_of_held hl]
    cases hr : (s.phase k).reading with
    | none => rw [Option.getD_none]; omega
    | some r =>
      have := (h.reading k r hr).1
      rw [Option.getD_some]
      omega

/-- Whoever has read the clock has the reading that counts. -/
theorem since_eq (h : Inv cfg s) {r : Int} (hr : (s.phase k).reading = some r) : s.since = r := by
  rw [since_of_held ((h.lock k).1 (holds_of_reading hr)), hr, Option.getD_some]

end Inv

/-! ## Commands that leave the store alone -/

/-- What a caller knows is about the hashes and the ledgers of the buckets it has to do with. -/
theorem Knows.congr (hbudget : ∀ b, ph.expiring = some b → s'.budget b = s.budget b)
    (hlog : ∀ b, s'.log b = s.log b) (h : Knows cfg s ph) : Knows cfg s' ph := by
  cases ph with
  | idle | unlock | returned => trivial
  | lock op tries | clock op => exact h
  | read op now states todo =>
    refine ⟨h.1, h.2.1, h.2.2.1, fun b hb hd => ?_⟩
    rw [hlog]
    exact h.2.2.2 b hb hd
  | set now ws answer =>
    refine ⟨h.1, fun w hw => ?_⟩
    rw [hlog]
    exact h.2 w hw
  | expire now w ws answer =>
    refine ⟨h.1, fun w' hw => ?_, h.2.2.1, h.2.2.2.1, ?_⟩
    · rw [hlog]
      exact h.2.1 w' hw
    · rw [hbudget _ rfl]
      exact h.2.2.2.2

/-- What a caller outside the sections knows does not depend on the store. -/
theorem Knows.outside (hout : ph.holds = false) (h : Knows cfg s ph) : Knows cfg s' ph := by
  cases ph with
  | idle | returned => trivial
  | lock op tries => exact h
  | clock | read | set | expire | unlock => cases hout

/-- A command that leaves hashes and ledgers alone and does not turn back the reading. -/
theorem Inv.of_same_store (h : Inv cfg s) (hbudget : s'.budget = s.budget) (hlog : s'.log = s.log)
    (hsince : s.since ≤ s'.since) (hlock : ∀ k, (s'.phase k).holds = true ↔ s'.lock = some k)
    (htime : s'.lock ≠ none → s'.lockedAt ≤ s'.now ∧ s'.now ≤ s'.lockedAt + budgetLockTTL)
    (hreading : ∀ k r, (s'.phase k).reading = some r → s'.lockedAt ≤ r ∧ r ≤ s'.now)
    (hexpiring : ∀ k b, (s.phase k).expiring = some b → ∃ k, (s'.phase k).expiring = some b)
    (hknows : ∀ k, Knows cfg s (s'.phase k)) : Inv cfg s' where
  lock := hlock
  time := htime
  reading := hreading
  booked := fun b => by
    rw [hbudget, hlog]
    exact (h.booked b).mono hsince
  timed := fun b => by
    rw [hbudget]
    exact (h.timed b).imp id fun hk => hk.elim fun k hk => hexpiring k b hk
  knows := fun k => (hknows k).congr (fun b _ => by rw [hbudget]) fun b => by rw [hlog]

namespace Inv

theorem nobody_else (h : Inv cfg s) (hk : (s.phase k).holds = true) {k' : κ} (hne : k' ≠ k) :
    (s.phase k').holds = false := by
  by_contra hh
  have hk' := (h.lock k').1 (by simpa using hh)
  rw [(h.lock k).1 hk, Option.some_inj] at hk'
  exact hne hk'.symm

variable [DecidableEq κ]

/-- What everybody knows, when one caller has moved on without a change to the store. -/
theorem knows_update (h : Inv cfg s) (hknows : Knows cfg s ph) :
    ∀ k', Knows cfg s (update s.phase k ph k') :=
  (forall_update_iff s.phase fun _ p => Knows cfg s p).2 ⟨hknows, fun k' _ => h.knows k'⟩

/-- What everybody knows, when the holder of the lock has changed the store. -/
theorem knows_of_holder (h : Inv cfg s) (hold : (s.phase k).holds = true)
    (hknows : Knows cfg s' ph) : ∀ k', Knows cfg s' (update s.phase k ph k') :=
  (forall_update_iff s.phase fun _ p => Knows cfg s' p).2
    ⟨hknows, fun k' hk => (h.knows k').outside (h.nobody_else hold hk)⟩

theorem outside (h : Inv cfg s) (hold : (s.phase k).holds = false) (hnew : ph.holds = false)
    (hknows : Knows cfg s ph) : Inv cfg (s.setPhase k ph) := by
  obtain ⟨hread, hexp⟩ := quiet_of_outside hold
  obtain ⟨hread', hexp'⟩ := quiet_of_outside hnew
  have hholds := Update.view_eq (f := s.phase) Phase.holds (hnew.trans hold.symm)
  have hreading := Update.view_eq (f := s.phase) Phase.reading (hread'.trans hread.symm)
  have hexpiring := Update.view_eq (f := s.phase) Phase.expiring (hexp'.trans hexp.symm)
  have hsince : s.since = (s.setPhase k ph).since := by
    cases hl : s.lock with
    | none => rw [since_of_free hl, since_of_free (s := s.setPhase k ph) hl]; rfl
    | some k' =>
      rw [since_of_held hl, since_of_held (s := s.setPhase k ph) hl]
      exact congrArg (Option.getD · s.now) (hreading k').symm
  refine h.of_same_store rfl rfl (le_of_eq hsince) (fun k' => ?_) h.time (fun k' r hr => ?_)
    (fun k' b hb => ⟨k', (hexpiring k').trans hb⟩) (h.knows_update hknows)
  · exact hholds k' ▸ h.lock k'
  · exact h.reading k' r ((hreading k').symm.trans hr)

/-- A section goes on to its next command, without a change to the store. -/
theorem inside (h : Inv cfg s) (hold : (s.phase k).holds = true) (hnew : ph.holds = true)
    (hexp : (s.phase k).expiring = none)
    (hreading : ∀ r, ph.reading = some r →
      (s.phase k).reading = some r ∨ (s.phase k).reading = none ∧ r = s.now)
    (hknows : Knows cfg s ph) : Inv cfg (s.setPhase k ph) := by
  have hlock := (h.lock k).1 hold
  have hsince : s.since ≤ (s.setPhase k ph).since := by
    have hself : (s.setPhase k ph).phase k = ph := update_self ..
    have hle := h.since_le
    have hnow := since_of_held hlock
    rw [since_of_held (s := s.setPhase k ph) hlock, hself]
    cases hr : ph.reading with
    | none => exact hle
    | some r =>
      rcases hreading r hr with hr' | ⟨-, rfl⟩
      · rw [hnow, hr', Option.getD_some, Option.getD_some]
      · exact hle
  refine h.of_same_store rfl rfl hsince ?_ h.time ?_ (fun k' b hb => ⟨k', ?_⟩)
    (h.knows_update hknows)
  · exact (forall_update_iff s.phase fun k' p => p.holds = true ↔ s.lock = some k').2
      ⟨iff_of_true hnew hlock, fun k' _ => h.lock k'⟩
  · refine (forall_update_iff s.phase fun _ p =>
      ∀ r, p.reading = some r → s.lockedAt ≤ r ∧ r ≤ s.now).2 ⟨fun r hr => ?_, fun k' _ => h.reading k'⟩
    rcases hreading r hr with hr' | ⟨-, rfl⟩
    · exact h.reading k r hr'
    · exact ⟨(h.time (by rw [hlock]; exact Option.some_ne_none k)).1, le_refl _⟩
  · have hk : k' ≠ k := by
      rintro rfl
      rw [hexp] at hb
      cases hb
    exact (congrArg Phase.expiring (update_of_ne hk ..)).trans hb

theorem acquire {op : Op β} {tries : Nat} (h : Inv cfg s) (hp : s.phase k = .lock op tries)
    (hl : s.lock = none) :
    Inv cfg { s.setPhase k (.clock op) with lock := some k, lockedAt := s.now } := by
  have hnone : ∀ k', (s.phase k').holds = false := fun k' => by
    by_contra hh
    have := (h.lock k').1 (by simpa using hh)
    rw [hl] at this
    cases this
  have hpos : (0 : Int) ≤ budgetLockTTL := by decide
  have hsince : (State.since { s.setPhase k (.clock op) with lock := some k, lockedAt := s.now }) =
      s.now := by
    show (update s.phase k (.clock op) k).reading.getD s.now = s.now
    rw [update_self]
    rfl
  have hknows := h.knows k
  rw [hp] at hknows
  refine h.of_same_store rfl rfl (by rw [since_of_free hl, hsince]) ?_
    (fun _ => ⟨le_refl _, by show s.now ≤ s.now + _; omega⟩) ?_ (fun k' b hb => ?_)
    (h.knows_update (hknows : Knows cfg s (.clock op)))
  · refine (forall_update_iff s.phase fun k' p => p.holds = true ↔ some k = some k').2
      ⟨iff_of_true rfl rfl, fun k' hk => ?_⟩
    rw [hnone k']
    simp [Ne.symm hk]
  · have hread : ∀ k', (update s.phase k (.clock op) k').reading = none :=
      (forall_update_iff s.phase fun _ p => p.reading = none).2
        ⟨rfl, fun k' _ => (quiet_of_outside (hnone k')).1⟩
    exact fun k' r hr => by cases (hread k').symm.trans hr
  · rw [(quiet_of_outside (hnone k')).2] at hb
    cases hb

theorem drop {answer : Answer} (h : Inv cfg s) (hp : s.phase k = .unlock answer) :
    Inv cfg { s.setPhase k (.returned answer) with lock := none } := by
  have hold : (s.phase k).holds = true := by rw [hp]; rfl
  have hout : ∀ k', (update s.phase k (.returned answer) k').holds = false :=
    (forall_update_iff s.phase fun _ p => p.holds = false).2
      ⟨rfl, fun k' hk => h.nobody_else hold hk⟩
  refine h.of_same_store rfl rfl h.since_le (fun k' => ?_) (fun hne => absurd rfl hne)
    (fun k' r hr => ?_) (fun k' b hb => ?_) (h.knows_update trivial)
  · show (update s.phase k (.returned answer) k').holds = true ↔ none = some k'
    rw [hout k']
    simp
  · cases (quiet_of_outside (hout k')).1.symm.trans hr
  · obtain rfl : k' = k := by
      by_contra hk
      rw [(quiet_of_outside (h.nobody_else hold hk)).2] at hb
      cases hb
    rw [hp] at hb
    cases hb

omit [DecidableEq κ] in
theorem tick {d : Nat} (h : Inv cfg s)
    (hd : s.lock = none ∨ s.now + d ≤ s.lockedAt + budgetLockTTL) :
    Inv cfg { s with now := s.now + d } := by
  refine h.of_same_store rfl rfl ?_ h.lock (fun hl => ⟨?_, hd.resolve_left hl⟩)
    (fun k r hr => ?_) (fun k b hb => ⟨k, hb⟩) h.knows
  · rw [State.since, State.since]
    show _ ≤ (match s.lock with
      | none => s.now + d
      | some k => (s.phase k).reading.getD (s.now + d))
    cases s.lock with
    | none => show s.now ≤ s.now + d; omega
    | some k =>
      show (s.phase k).reading.getD s.now ≤ (s.phase k).reading.getD (s.now + d)
      cases (s.phase k).reading with
      | none => show s.now ≤ s.now + d; omega
      | some r => exact le_refl _
  · have := (h.time hl).1
    show s.lockedAt ≤ s.now + d
    omega
  · have := h.reading k r hr
    exact ⟨this.1, by show r ≤ s.now + d; omega⟩

end Inv

/-! ## Reading and deciding -/

theorem le_foldl_longer (now : Int) (states : β → Level) (l : List β) (wait : Int) :
    wait ≤ l.foldl (longer cfg now states) wait ∧
      ∀ b ∈ l, (cfg.bucket b).tokensAt (states b) now < 1 →
        millisecond ≤ l.foldl (longer cfg now states) wait := by
  induction l generalizing wait with
  | nil => exact ⟨le_refl _, fun b hb => absurd hb List.not_mem_nil⟩
  | cons a l ih =>
    have hle : wait ≤ longer cfg now states wait a := by
      rw [longer]
      split
      · exact le_trans (le_max_left _ _) (le_max_left _ _)
      · exact le_refl _
    obtain ⟨hmono, hshort⟩ := ih (longer cfg now states wait a)
    refine ⟨le_trans hle hmono, fun b hb ht => ?_⟩
    rcases List.mem_cons.1 hb with rfl | hb
    · refine le_trans ?_ hmono
      rw [longer, if_pos ht]
      exact le_max_right _ _
    · exact hshort b hb ht

/-- **A section writes what it may.** -/
theorem due_outcome {now : Int} {states : β → Level} {op : Op β} (hop : op.resyncs = false)
    (hnodup : op.buckets.Nodup) (hwork : ¬ Idle cfg op)
    (hseen : ∀ b ∈ op.reads, Seen (cfg.bucket b) (s.log b) now (states b)) :
    ((outcome cfg now states op).1.map Write.bucket).Nodup ∧
      ∀ w ∈ (outcome cfg now states op).1,
        Due (cfg.bucket w.bucket) (s.log w.bucket) now w.level w.amount := by
  cases op with
  | resync bs d => cases hop
  | take bs =>
    rw [outcome]
    split
    · exact ⟨List.nodup_nil, fun w hw => absurd hw List.not_mem_nil⟩
    · rename_i hwait
      refine ⟨by simpa [Function.comp_def, Op.buckets] using hnodup, fun w hw => ?_⟩
      obtain ⟨b, hb, rfl⟩ := List.mem_map.1 hw
      refine (hseen b hb).spendN (by norm_num) ?_
      by_contra hlt
      have hshort : millisecond ≤ bs.foldl (longer cfg now states) 0 :=
        (le_foldl_longer now states bs 0).2 b hb (not_le.1 hlt)
      exact hwait (lt_of_lt_of_le (by decide) hshort)
  | prepay b n =>
    have hpos : ¬ prepayable cfg b n ≤ 0 := hwork
    rw [outcome]
    split
    · exact ⟨List.nodup_nil, fun w hw => absurd hw List.not_mem_nil⟩
    · rename_i hle
      refine ⟨List.nodup_singleton _, fun w hw => ?_⟩
      rw [List.mem_singleton.1 hw]
      refine (hseen b (List.mem_singleton.2 rfl)).spendN ?_ (not_lt.1 hle)
      exact_mod_cast by omega
  | refund b n =>
    have hpos : ¬ n ≤ 0 := hwork
    have hsb := hseen b (List.mem_singleton.2 rfl)
    rw [outcome, if_neg (not_lt.2 hsb.since)]
    refine ⟨List.nodup_singleton _, fun w hw => ?_⟩
    rw [List.mem_singleton.1 hw]
    have hn : (0 : ℚ) ≤ n := by exact_mod_cast by omega
    have htokens := hsb.tokensAt_nonneg
    have hcap := le_trans zero_le_one (cfg.one_le_capacity b)
    refine ⟨rfl, le_min hcap (by linarith), min_le_left _ _, ?_⟩
    have hle := min_le_right (cfg.bucket b).capacity
      ((cfg.bucket b).tokensAt (states b) now + (n : ℚ))
    show -(n : ℚ) + min _ _ ≤ _
    linarith [hsb.covered]

namespace Inv

variable [DecidableEq κ]

theorem read [DecidableEq β] {op : Op β} {now : Int} {states : β → Level} {b : β} {todo : List β}
    (h : Inv cfg s) (hp : s.phase k = .read op now states (b :: todo)) :
    Inv cfg (s.setPhase k (.read op now
      (update states b (parseBucket (cfg.bucket b) (s.budget b) now)) todo)) := by
  have hk := h.knows k
  have hsince : s.since = now := h.since_eq (k := k) (by rw [hp]; rfl)
  rw [hp] at hk
  refine h.inside (by rw [hp]; rfl) rfl (by rw [hp]; rfl)
    (fun r hr => .inl (by rw [hp]; exact hr)) ⟨hk.1, hk.2.1, hk.2.2.1, fun b' hb' hd => ?_⟩
  by_cases heq : b' = b
  · subst heq
    rw [update_self]
    exact (hsince ▸ h.booked b').seen (le_trans zero_le_one (cfg.one_le_capacity b'))
  · rw [update_of_ne heq]
    exact hk.2.2.2 b' hb' fun hmem => (List.mem_cons.1 hmem).elim heq hd

theorem decides {op : Op β} {now : Int} {states : β → Level} (h : Inv cfg s)
    (hp : s.phase k = .read op now states []) :
    Inv cfg (s.setPhase k (.set now (outcome cfg now states op).1
      (outcome cfg now states op).2)) := by
  have hk := h.knows k
  rw [hp] at hk
  exact h.inside (by rw [hp]; rfl) rfl (by rw [hp]; rfl)
    (fun r hr => .inl (by rw [hp]; exact hr))
    (due_outcome hk.1 hk.2.1 hk.2.2.1 fun b hb => hk.2.2.2 b hb List.not_mem_nil)

end Inv

/-! ## Commands that change the store -/

/-- A command that changes the hash or the ledger of one bucket, and keeps its books. -/
theorem Inv.of_bucket [DecidableEq β] {b : β} (h : Inv cfg s)
    (hbudget : ∀ b', b' ≠ b → s'.budget b' = s.budget b')
    (hlog : ∀ b', b' ≠ b → s'.log b' = s.log b') (hlock : s'.lock = s.lock)
    (hlockedAt : s'.lockedAt = s.lockedAt) (hnow : s'.now = s.now)
    (hphase : ∀ k, (s'.phase k).holds = (s.phase k).holds ∧
      (s'.phase k).reading = (s.phase k).reading)
    (hexpiring : ∀ k b', b' ≠ b → (s.phase k).expiring = some b' →
      (s'.phase k).expiring = some b')
    (hbooked : Booked (cfg.bucket b) (s'.budget b) (s'.log b) s.since)
    (htimed : Timed (cfg.bucket b) (s'.budget b) ∨ ∃ k, (s'.phase k).expiring = some b)
    (hknows : ∀ k, Knows cfg s' (s'.phase k)) : Inv cfg s' := by
  have hsince : s'.since = s.since := by
    rw [State.since, State.since, hlock]
    cases s.lock with
    | none => exact hnow
    | some k =>
      show (s'.phase k).reading.getD s'.now = (s.phase k).reading.getD s.now
      rw [(hphase k).2, hnow]
  refine ⟨fun k => ?_, fun hl => ?_, fun k r hr => ?_, fun b' => ?_, fun b' => ?_, hknows⟩
  · rw [(hphase k).1, hlock]
    exact h.lock k
  · rw [hlockedAt, hnow]
    exact h.time (hlock ▸ hl)
  · rw [hlockedAt, hnow]
    exact h.reading k r ((hphase k).2 ▸ hr)
  · rw [hsince]
    by_cases hb : b' = b
    · subst hb
      exact hbooked
    · rw [hbudget b' hb, hlog b' hb]
      exact h.booked b'
  · by_cases hb : b' = b
    · subst hb
      exact htimed
    · rw [hbudget b' hb]
      exact (h.timed b').imp id fun hk => hk.elim fun k hk => ⟨k, hexpiring k b' hb hk⟩

variable [DecidableEq κ]

namespace Inv

variable {now : Int} {w : Write β} {ws : List (Write β)} {answer : Answer}

/-- A phase update that the lock and the clock reading do not notice. -/
theorem phase_update {ph ph' : Phase β} (hp : s.phase k = ph) (hholds : ph'.holds = ph.holds)
    (hreading : ph'.reading = ph.reading) (k' : κ) :
    (update s.phase k ph' k').holds = (s.phase k').holds ∧
      (update s.phase k ph' k').reading = (s.phase k').reading :=
  ⟨Update.view_eq Phase.holds (hp ▸ hholds) k', Update.view_eq Phase.reading (hp ▸ hreading) k'⟩

theorem expiring_update {ph : Phase β} {k' : κ} {b : β} (hold : (s.phase k).expiring ≠ some b)
    (hexp : (s.phase k').expiring = some b) :
    (update s.phase k ph k').expiring = some b := by
  have hk : k' ≠ k := by
    rintro rfl
    exact hold hexp
  rw [update_of_ne hk, hexp]

variable [DecidableEq β]

theorem set (h : Inv cfg s) (hp : s.phase k = .set now (w :: ws) answer) :
    Inv cfg (((s.setBudget w.bucket (hset (s.budget w.bucket) w.level)).enter w.bucket
      ⟨now, w.amount, w.level.tokens⟩).setPhase k (.expire now w ws answer)) := by
  have hold : (s.phase k).holds = true := by rw [hp]; rfl
  have hsince : s.since = now := h.since_eq (k := k) (by rw [hp]; rfl)
  have hk := h.knows k
  rw [hp] at hk
  have hdue := hk.2 w List.mem_cons_self
  have hnodup : (w.bucket :: ws.map Write.bucket).Nodup := hk.1
  have hbudget : update s.budget w.bucket (hset (s.budget w.bucket) w.level) w.bucket =
      hset (s.budget w.bucket) w.level := update_self ..
  refine h.of_bucket (b := w.bucket) (fun b' hne => update_of_ne hne ..)
    (fun b' hne => update_of_ne hne ..) rfl rfl rfl (phase_update hp rfl rfl)
    (fun _ _ _ => expiring_update (by rw [hp]; exact Option.some_ne_none _ ∘ Eq.symm)) ?_ (.inr ⟨k, ?_⟩)
    (h.knows_of_holder hold ?_)
  · show Booked _ (update s.budget w.bucket _ w.bucket)
      (update s.log w.bucket _ w.bucket) _
    rw [update_self, update_self, hsince]
    exact hdue.booked (cfg.refill_pos _) (hsince ▸ h.booked _)
  · show (update s.phase k _ k).expiring = some w.bucket
    rw [update_self]
    rfl
  · refine ⟨hnodup, fun w' hw => ?_, hdue.since, hdue.capped, _, hbudget, rfl, ?_⟩
    · have hne : w'.bucket ≠ w.bucket := fun heq =>
        (List.nodup_cons.1 hnodup).1 (heq ▸ List.mem_map.2 ⟨w', hw, rfl⟩)
      show Due _ (update s.log w.bucket _ w'.bucket) _ _ _
      rw [update_of_ne hne]
      exact hk.2 w' (List.mem_cons_of_mem _ hw)
    · show unixMilli w.level.since = unixMilli now
      rw [hdue.since]

theorem expire (h : Inv cfg s) (hp : s.phase k = .expire now w ws answer) :
    Inv cfg ((s.setBudget w.bucket (hpexpire (s.budget w.bucket) (unixMilli s.now)
      (formatMs (bucketTTL (cfg.bucket w.bucket) w.level now)))).setPhase k
        (.set now ws answer)) := by
  have hold : (s.phase k).holds = true := by rw [hp]; rfl
  have hreading : (s.phase k).reading = some now := by rw [hp]; rfl
  have hk := h.knows k
  rw [hp] at hk
  obtain ⟨hnodup, hdue, hlevel, hcap, x, hx, ht, hat⟩ := hk
  have hw : w.level = ⟨x.t, now⟩ := by rw [ht, ← hlevel]
  refine h.of_bucket (b := w.bucket) (fun b' hne => update_of_ne hne ..) (fun _ _ => rfl)
    rfl rfl rfl (phase_update hp rfl rfl) (fun _ b' hne => expiring_update ?_) ?_ (.inl ?_)
    (h.knows_of_holder hold ⟨(List.nodup_cons.1 hnodup).2, hdue⟩)
  · rw [hp]
    exact fun hexp => hne (Option.some_inj.1 hexp).symm
  · show Booked _ (update s.budget w.bucket _ w.bucket) _ _
    rw [update_self, hx]
    exact (hx ▸ h.booked w.bucket).hpexpire (AcmeBudget.bucketTTL_pos (cfg.refill_pos _) _ _)
  · show Timed _ (update s.budget w.bucket _ w.bucket)
    rw [update_self, hx, hw]
    exact AcmeBudget.timed_hpexpire (cfg.refill_pos _) (ht ▸ hcap) hat
      (unixMilli_mono (h.reading k now hreading).2)

omit [DecidableEq κ] in
/-- A hash runs out, and nobody is about to set its time to live. -/
theorem lapse {b : β} {x : Hash} {d : Int} (h : Inv cfg s) (hx : s.budget b = some x)
    (hd : x.deadline = some d) (hout : d < unixMilli s.now)
    (hquiet : ∀ k, (s.phase k).expiring ≠ some b) : Inv cfg (s.setBudget b none) := by
  have htimed := (h.timed b).resolve_right fun hk => hk.elim hquiet
  refine h.of_bucket (b := b) (fun b' hne => update_of_ne hne ..) (fun _ _ => rfl)
    rfl rfl rfl (fun _ => ⟨rfl, rfl⟩) (fun _ _ _ hexp => hexp) ?_ (.inl ?_) fun k => ?_
  · show Booked _ (update s.budget b none b) _ _
    rw [update_self]
    exact (h.booked b).lapse htimed (cfg.refill_pos b) hx hd
      (le_trans (le_of_lt hout) (unixMilli_mono h.le_since))
  · show Timed _ (update s.budget b none b)
    rw [update_self]
    exact AcmeBudget.timed_none
  · refine Knows.congr (s := s) (fun b' hexp => ?_) (fun _ => rfl) (h.knows k)
    have hne : b' ≠ b := fun heq => hquiet k (heq ▸ hexp)
    exact update_of_ne hne ..

end Inv

/-! ## The result of a run -/

variable [DecidableEq β]

/-- The assumptions on a run: nobody resyncs a bucket, and no hash runs out between the `HSET` and
the `PEXPIRE` of a write to it. -/
def Kept (s : State β κ) : Act β κ → Prop
  | .call _ op => op.resyncs = false
  | .lapse b => ∀ k ∈ s.lock, (s.phase k).expiring ≠ some b
  | _ => True

instance (s : State β κ) (a : Act β κ) : Decidable (Kept s a) := by
  unfold Kept; split <;> infer_instance

namespace Inv

theorem next (h : Inv cfg s) (hs : next cfg s k = some s') : Inv cfg s' := by
  have hk := h.knows k
  rw [RequestBudget.next] at hs
  cases hp : s.phase k with
  | idle | returned => rw [hp] at hs; cases hs
  | lock op tries =>
    rw [hp] at hs hk
    by_cases hl : s.lock = none
    · simp only [if_pos hl, Option.some_inj] at hs
      subst hs
      exact h.acquire hp hl
    · simp only [if_neg hl] at hs
      have hold : (s.phase k).holds = false := by rw [hp]; rfl
      split at hs
      · cases hs
        exact h.outside hold rfl hk
      · cases hs
        exact h.outside hold rfl trivial
  | clock op =>
    rw [hp] at hs hk
    cases hs
    refine h.inside (by rw [hp]; rfl) rfl (by rw [hp]; rfl) (fun r hr => .inr ⟨by rw [hp]; rfl, ?_⟩)
      ⟨hk.1, hk.2.1, hk.2.2, fun b hb hd => absurd hb hd⟩
    exact (Option.some_inj.1 hr).symm
  | read op now states todo =>
    rw [hp] at hs
    cases todo with
    | nil => cases hs; exact h.decides hp
    | cons b todo => cases hs; exact h.read hp
  | set now ws answer =>
    rw [hp] at hs
    cases ws with
    | nil =>
      cases hs
      exact h.inside (by rw [hp]; rfl) rfl (by rw [hp]; rfl) (fun r hr => by cases hr) trivial
    | cons w ws => cases hs; exact h.set hp
  | expire now w ws answer => rw [hp] at hs; cases hs; exact h.expire hp
  | unlock answer => rw [hp] at hs; cases hs; exact h.drop hp

theorem step {a : Act β κ} (h : Inv cfg s) (hg : Kept s a)
    (hs : RequestBudget.step cfg s a = some s') : Inv cfg s' := by
  rw [RequestBudget.step.eq_def] at hs
  cases a with
  | call k op =>
    have hcall : (s.phase k).holds = false → op.buckets.Nodup →
        Inv cfg (s.setPhase k (if Idle cfg op then .returned (.answered 0 0) else .lock op 0)) := by
      intro hold hnodup
      split
      · exact h.outside hold rfl trivial
      · rename_i hwork
        exact h.outside hold rfl ⟨hg, hnodup, hwork⟩
    cases hp : s.phase k <;> simp only [hp, reduceCtorEq] at hs
    all_goals
      split at hs
      · rename_i hnodup
        cases hs
        exact hcall (by rw [hp]; rfl) hnodup
      · cases hs
  | cmd k => exact h.next hs
  | lapse b =>
    simp only [Option.bind_eq_some_iff] at hs
    obtain ⟨x, hx, d, hd, hs⟩ := hs
    split at hs
    · rename_i hout
      cases hs
      refine h.lapse hx hd hout fun k hexp => hg k ?_ hexp
      exact (h.lock k).1 (holds_of_expiring hexp)
    · cases hs
  | tick d =>
    simp only at hs
    split at hs
    · rename_i hd
      cases hs
      exact h.tick hd
    · cases hs

end Inv

theorem init_inv (cfg : Config β) : Inv cfg (system (κ := κ) cfg).init where
  lock := fun _ =>
    ⟨fun h => absurd h Bool.false_ne_true, fun h => absurd h.symm (Option.some_ne_none _)⟩
  time := fun h => absurd rfl h
  reading := fun _ _ h => absurd h.symm (Option.some_ne_none _)
  booked := fun _ => AcmeBudget.booked_nil _
  timed := fun _ => .inl AcmeBudget.timed_none
  knows := fun _ => trivial

theorem inv_of_reach (h : (system cfg).Reach Kept s) : Inv cfg s :=
  h.invariant (init_inv cfg) fun _ _ _ _ hi hg hs => hi.step hg hs

end Tunneld.RequestBudget

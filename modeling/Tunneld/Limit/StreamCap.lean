import Tunneld.Lib.Lts
import Tunneld.Lib.SortedSet
import Mathlib.Data.Fintype.Basic

/-!
# The global stream cap

`limit.AcquireStream` admits a public connection of a tunnel while fewer than `maxN` are open, over
all nodes.  The count lives in one sorted set, `conc:{name}`: a member for each open connection,
scored with the instant its slot expires.  Admission is a plain pipeline — prune what has expired,
add yourself, count, refresh the key's time to live — and a caller that counted too many takes its
own member out again.  Nothing makes the pipeline atomic, so between any two of its commands other
nodes run theirs.

`step` is that system one command at a time, for one tunnel: any number of connections `μ`, each
acquiring, holding and releasing its slot, any number of copy loops `κ` refreshing slots with
`limit.Charge`, one clock, and the store dropping the key when its time to live runs out.

## What holds

* `Inv.cap` is why the cap works although admission is not atomic: at the moment a caller reads a
  count of at most `maxN`, everything admitted so far is in the set it counted, and so is the
  caller.
* It says nothing about a connection that is admitted and *not* in the set.  A member leaves early
  only when the whole key does, and a pipeline gives the key its new time to live only after it
  has added or refreshed its member.  `Busy` names that window.  A key that runs out inside the
  window takes live members with it, and the next callers count too few; in every run in which it
  does not, the cap holds.

## Main results

* `cap_of_no_lapse_in_pipeline`: these runs, and what becomes of the members;
* `cap_exceeded`: three slots are taken where two are allowed.
-/

namespace Tunneld.StreamCap

open Function Clock

/-- `edge.slotRetries`: how often a refused connection tries again after an eviction. -/
def slotRetries : Nat := 5

/-- The configuration the limiter runs with. -/
structure Config where
  /-- `--limit-concurrent`, the `maxN` of `AcquireStream`. -/
  maxN : Nat
  /-- `Limiter.streamTTL`, three times `--limit-conn-idle`. -/
  streamTTL : Int
  /-- `Validate` refuses an idle limit that is not positive. -/
  streamTTL_pos : 0 < streamTTL

/-! ## The connections and the copy loops -/

/-- Where a public connection stands with its slot.  A constructor that names a command is about to
run it; `tries` counts the retries of `edge.evictAndAcquire`, and `now` is the clock reading
`AcquireStream` started with. -/
inductive Slot
  | idle
  /-- `ZREMRANGEBYSCORE conc -inf now`. -/
  | prune (tries : Nat) (now : Int)
  /-- `ZADD conc now+streamTTL member`. -/
  | add (tries : Nat) (now : Int)
  /-- `ZCARD conc`. -/
  | card (tries : Nat)
  /-- `PEXPIRE conc streamTTL`; the count has been read. -/
  | expire (tries : Nat) (card : Nat)
  /-- The count was too high: `ZREM conc member`. -/
  | undo (tries : Nat)
  /-- `AcquireStream` returned false. -/
  | refused (tries : Nat)
  /-- `AcquireStream` returned true. -/
  | held
  /-- `ReleaseStream`: `ZREM conc member`. -/
  | releasing
  | released
  deriving DecidableEq

/-- What a copy loop has yet to do of the part of `Charge` that touches the set. -/
inductive Charge (μ : Type)
  | idle
  /-- `ZADD XX conc now+streamTTL member`. -/
  | refresh (m : μ) (now : Int)
  /-- `PEXPIRE conc streamTTL`. -/
  | expire (m : μ)
  deriving DecidableEq

/-- The state of one tunnel's cap. -/
structure State (μ κ : Type) where
  /-- The clock, in nanoseconds. -/
  now : Int
  /-- The key `conc:{name}`. -/
  conc : SortedSet μ
  /-- The score last written for a connection, which is when its slot expires.  The connection
  may have left the set since. -/
  expiry : μ → Int
  slot : μ → Slot
  charge : κ → Charge μ

/-- The atomic actions. -/
inductive Act (μ κ : Type)
  | tick (d : Nat)
  /-- `handleTunnel` calls `AcquireStream`. -/
  | acquire (m : μ)
  /-- The next command of the connection's acquisition or release. -/
  | slot (m : μ)
  /-- `evictAndAcquire` calls `AcquireStream` again, after it freed some slot. -/
  | retry (m : μ)
  /-- `releaseSlot`, called once: by the connection's own handler or by `evictLeastActive`. -/
  | release (m : μ)
  /-- A copy loop calls `Charge`. -/
  | charge (k : κ) (m : μ)
  /-- The next command of a copy loop's `Charge`. -/
  | flow (k : κ)
  /-- The store drops the key, whose time to live has run out. -/
  | lapse
  deriving DecidableEq

variable {μ κ : Type} (cfg : Config) [DecidableEq μ]

/-! ## The commands -/

/-- The score a call that read the clock at `now` writes. -/
def score (now : Int) : Int := unixMilli (now + cfg.streamTTL)

/-- `PEXPIRE conc streamTTL`. -/
def refreshKey (s : State μ κ) : SortedSet μ :=
  s.conc.pexpire (unixMilli s.now) (formatMs cfg.streamTTL)

/-- A connection moves on. -/
def State.setSlot (s : State μ κ) (m : μ) (p : Slot) : State μ κ :=
  { s with slot := update s.slot m p }

/-- A copy loop moves on. -/
def State.setCharge [DecidableEq κ] (s : State μ κ) (k : κ) (p : Charge μ) : State μ κ :=
  { s with charge := update s.charge k p }

/-- The next command of a connection: the pipeline of `AcquireStream` and the `ZREM` that undoes
it, or the `ZREM` of `ReleaseStream`. -/
def slotStep (s : State μ κ) (m : μ) : Option (State μ κ) :=
  match s.slot m with
  | .prune tries now =>
    some { s.setSlot m (.add tries now) with conc := s.conc.zremrangebyscore (unixMilli now) }
  | .add tries now =>
    some { s.setSlot m (.card tries) with
      conc := s.conc.zadd m (score cfg now)
      expiry := update s.expiry m (score cfg now) }
  | .card tries => some (s.setSlot m (.expire tries s.conc.zcard))
  | .expire tries card =>
    some { s.setSlot m (if card ≤ cfg.maxN then .held else .undo tries) with
      conc := refreshKey cfg s }
  | .undo tries => some { s.setSlot m (.refused tries) with conc := s.conc.zrem m }
  | .releasing => some { s.setSlot m .released with conc := s.conc.zrem m }
  | _ => none

/-- The next command of a copy loop. -/
def chargeStep [DecidableEq κ] (s : State μ κ) (k : κ) : Option (State μ κ) :=
  match s.charge k with
  | .idle => none
  | .refresh m now =>
    some { s.setCharge k (.expire m) with
      conc := s.conc.zaddXX m (score cfg now)
      expiry := if m ∈ s.conc.members then update s.expiry m (score cfg now)
        else s.expiry }
  | .expire _ => some { s.setCharge k .idle with conc := refreshKey cfg s }

/-- One atomic action. -/
def step [DecidableEq κ] (s : State μ κ) : Act μ κ → Option (State μ κ)
  | .tick d => some { s with now := s.now + d }
  | .acquire m => if s.slot m = .idle then some (s.setSlot m (.prune 0 s.now)) else none
  | .slot m => slotStep cfg s m
  | .retry m =>
    match s.slot m with
    | .refused tries =>
      if tries < slotRetries then some (s.setSlot m (.prune (tries + 1) s.now)) else none
    | _ => none
  | .release m => if s.slot m = .held then some (s.setSlot m .releasing) else none
  | .charge k m => if s.charge k = .idle then some (s.setCharge k (.refresh m s.now)) else none
  | .flow k => chargeStep cfg s k
  | .lapse => if s.conc.Lapsed (unixMilli s.now) then some { s with conc := .empty } else none

/-- Nobody has connected yet. -/
def init : State μ κ := ⟨0, .empty, fun _ => 0, fun _ => .idle, fun _ => .idle⟩

/-- The stream cap of one tunnel. -/
def system [DecidableEq κ] : Lts (State μ κ) (Act μ κ) := ⟨init, step cfg⟩

/-! ## The invariant -/

/-- The connection is admitted: `AcquireStream` returned true, and the slot is not back yet. -/
@[simp] def Slot.admitted : Slot → Bool
  | .held | .releasing => true
  | _ => false

/-- The count that was read lets the connection in. -/
@[simp] def Slot.counted (maxN : Nat) : Slot → Bool
  | .expire _ n => decide (n ≤ maxN)
  | p => p.admitted

/-- The connection has added its member and will not take it out by itself. -/
@[simp] def Slot.added (maxN : Nat) : Slot → Bool
  | .card _ => true
  | p => p.counted maxN

/-- The connection has no member in the set. -/
@[simp] def Slot.out : Slot → Bool
  | .idle | .prune .. | .add .. | .refused _ | .released => true
  | _ => false

/-- The pipeline has added its member and not yet refreshed the key. -/
@[simp] def Slot.midway : Slot → Bool
  | .card _ | .expire .. => true
  | _ => false

/-- The pipeline has refreshed its member and not yet the key. -/
def Charge.midway : Charge μ → Bool
  | .expire _ => true
  | _ => false

/-- Some pipeline stands between its `ZADD` and its `PEXPIRE`. -/
def Busy (s : State μ κ) : Prop :=
  (∃ m, (s.slot m).midway = true) ∨ ∃ k, (s.charge k).midway = true

/-- The key outlives its members. -/
def Settled (z : SortedSet μ) : Prop :=
  ∀ d, z.deadline = some d → ∀ m ∈ z.members, z.score m ≤ d + 1

/-- What holds in every run in which the key never runs out while a pipeline is midway. -/
structure Inv (s : State μ κ) : Prop where
  /-- The scores in the set are the ones last written. -/
  expiry_eq : ∀ m ∈ s.conc.members, s.conc.score m = s.expiry m
  /-- No score lies further ahead than a call started now would put it. -/
  score_le : ∀ m ∈ s.conc.members, s.conc.score m ≤ score cfg s.now
  /-- A call started at or before now. -/
  started : ∀ m tries now, s.slot m = .prune tries now ∨ s.slot m = .add tries now → now ≤ s.now
  /-- A charge started at or before now. -/
  charged : ∀ k m now, s.charge k = .refresh m now → now ≤ s.now
  /-- Outside a pipeline the key outlives its members. -/
  settled : Busy s ∨ Settled s.conc
  /-- At most `maxN` of the members in the set have been let in. -/
  cap : (s.conc.members.filter fun m => (s.slot m).counted cfg.maxN).card ≤ cfg.maxN
  /-- A member that was added is in the set until it expires. -/
  present : ∀ m, (s.slot m).added cfg.maxN = true →
    m ∈ s.conc.members ∨ s.expiry m ≤ unixMilli s.now
  /-- A connection that added no member, or took it out, has none in the set. -/
  absent : ∀ m, (s.slot m).out = true → m ∉ s.conc.members

variable {cfg} {s : State μ κ}

omit [DecidableEq μ] in
theorem inv_init : Inv cfg (init : State μ κ) := by
  refine ⟨?_, ?_, ?_, ?_, ?_, ?_, ?_, ?_⟩
  · intro m hm; exact absurd hm (by simp [init])
  · intro m hm; exact absurd hm (by simp [init])
  · intro m tries now h; simp [init] at h
  · intro k m now h; simp [init] at h
  · exact Or.inr fun d hd => absurd hd (by simp [init])
  · exact (Finset.card_filter_le _ _).trans (Nat.zero_le _)
  · intro m h; simp [init] at h
  · intro m _; simp [init]

theorem score_mono {a b : Int} (h : a ≤ b) : score cfg a ≤ score cfg b :=
  unixMilli_mono (by omega)

omit [DecidableEq μ] in
theorem Inv.tick (h : Inv cfg s) (d : Nat) : Inv cfg { s with now := s.now + d } := by
  have hle : s.now ≤ s.now + d := by omega
  refine ⟨h.expiry_eq, ?_, ?_, ?_, h.settled, h.cap, ?_, h.absent⟩
  · intro m hm
    exact (h.score_le m hm).trans (score_mono hle)
  · intro m tries now hm
    exact (h.started m tries now hm).trans hle
  · intro k m now hk
    exact (h.charged k m now hk).trans hle
  · intro m hm
    exact (h.present m hm).imp_right fun he => he.trans (unixMilli_mono hle)

/-! ### Moving on without touching the set -/

variable {m : μ} {p : Slot}

/-- A connection moves on; the set is as it was.  It may leave its pipeline only once the key
outlives the members, and may be let in only on a count that lets it in. -/
theorem Inv.setSlot (h : Inv cfg s)
    (hstart : ∀ tries now, p = .prune tries now ∨ p = .add tries now → now ≤ s.now)
    (hmid : ((s.slot m).midway = true → p.midway = true) ∨ Settled s.conc)
    (hcount : p.counted cfg.maxN = true →
      (s.slot m).counted cfg.maxN = true ∨ s.conc.zcard ≤ cfg.maxN)
    (hadd : p.added cfg.maxN = true → (s.slot m).added cfg.maxN = true)
    (hout : p.out = true → (s.slot m).out = true) : Inv cfg (s.setSlot m p) := by
  have hslot : ∀ n, (s.setSlot m p).slot n = if n = m then p else s.slot n := fun n => by
    simp [State.setSlot, update_apply]
  refine ⟨h.expiry_eq, h.score_le, ?_, h.charged, ?_, ?_, ?_, ?_⟩
  · intro n tries now hn
    rw [hslot] at hn
    split at hn
    · exact hstart tries now hn
    · exact h.started n tries now hn
  · rcases hmid with hmid | hset
    · refine h.settled.imp_left (Or.imp_left ?_)
      rintro ⟨n, hn⟩
      refine ⟨n, ?_⟩
      rw [hslot]
      split
      · rename_i he; exact hmid (he ▸ hn)
      · exact hn
    · exact Or.inr hset
  · by_cases hz : s.conc.zcard ≤ cfg.maxN
    · exact (Finset.card_filter_le _ _).trans hz
    · refine (Finset.card_le_card ?_).trans h.cap
      intro n hn
      rw [Finset.mem_filter, hslot] at hn
      rw [Finset.mem_filter]
      refine ⟨hn.1, ?_⟩
      obtain ⟨-, hc⟩ := hn
      split at hc
      · rename_i he; exact he ▸ (hcount hc).resolve_right hz
      · exact hc
  · intro n hn
    rw [hslot] at hn
    split at hn
    · rename_i he; exact he ▸ h.present m (hadd hn)
    · exact h.present n hn
  · intro n hn
    rw [hslot] at hn
    split at hn
    · rename_i he; exact he ▸ h.absent m (hout hn)
    · exact h.absent n hn

variable {k : κ}

omit [DecidableEq μ] in
theorem Inv.setCharge [DecidableEq κ] (h : Inv cfg s) {p : Charge μ}
    (hstart : ∀ m now, p = .refresh m now → now ≤ s.now)
    (hmid : ((s.charge k).midway = true → p.midway = true) ∨ Settled s.conc) :
    Inv cfg (s.setCharge k p) := by
  have hcharge : ∀ j, (s.setCharge k p).charge j = if j = k then p else s.charge j := fun j => by
    simp [State.setCharge, update_apply]
  refine ⟨h.expiry_eq, h.score_le, h.started, ?_, ?_, h.cap, h.present, h.absent⟩
  · intro j m now hj
    rw [hcharge] at hj
    split at hj
    · exact hstart m now hj
    · exact h.charged j m now hj
  · rcases hmid with hmid | hset
    · refine h.settled.imp_left (Or.imp_right ?_)
      rintro ⟨j, hj⟩
      refine ⟨j, ?_⟩
      rw [hcharge]
      split
      · rename_i he; exact hmid (he ▸ hj)
      · exact hj
    · exact Or.inr hset

/-! ### The commands on the set -/

theorem Settled.restrict {z : SortedSet μ} (h : Settled z) (t : Finset μ) :
    Settled (z.restrict t) := by
  intro d hd m hm
  rw [SortedSet.score_restrict hm]
  exact h d (SortedSet.deadline_restrict hd) m (SortedSet.mem_restrict.1 hm).1

theorem Inv.prune (h : Inv cfg s) {hi : Int} (hhi : hi ≤ unixMilli s.now) :
    Inv cfg { s with conc := s.conc.zremrangebyscore hi } := by
  have hsub : ∀ m, m ∈ (s.conc.zremrangebyscore hi).members → m ∈ s.conc.members :=
    fun m hm => (SortedSet.mem_zremrangebyscore.1 hm).1
  have hscore : ∀ m, m ∈ (s.conc.zremrangebyscore hi).members →
      (s.conc.zremrangebyscore hi).score m = s.conc.score m :=
    fun m hm => SortedSet.score_restrict hm
  refine ⟨?_, ?_, h.started, h.charged, h.settled.imp_right fun hs => hs.restrict _, ?_, ?_, ?_⟩
  · intro m hm
    exact (hscore m hm).trans (h.expiry_eq m (hsub m hm))
  · intro m hm
    exact (hscore m hm).le.trans (h.score_le m (hsub m hm))
  · exact (Finset.card_le_card (Finset.filter_subset_filter _ hsub)).trans h.cap
  · intro m hm
    rcases h.present m hm with hin | he
    · by_cases hlt : hi < s.conc.score m
      · exact Or.inl (SortedSet.mem_zremrangebyscore.2 ⟨hin, hlt⟩)
      · refine Or.inr ?_
        change s.expiry m ≤ _
        rw [← h.expiry_eq m hin]
        exact (not_lt.1 hlt).trans hhi
    · exact Or.inr he
  · exact fun m hm hin => h.absent m hm (hsub m hin)

/-- After a `PEXPIRE` the key outlives every member, whoever wrote it. -/
theorem settled_refreshKey (h : Inv cfg s) : Settled (refreshKey cfg s) := by
  intro d hd m hm
  have hpos := formatMs_pos cfg.streamTTL_pos
  have hmem : m ∈ s.conc.members := by
    rwa [refreshKey, SortedSet.members_pexpire hpos] at hm
  have hne : s.conc.members ≠ ∅ := Finset.ne_empty_of_mem hmem
  rw [refreshKey, SortedSet.pexpire, SortedSet.deadline_setTTL hpos hne, Option.some_inj] at hd
  rw [refreshKey, SortedSet.pexpire, SortedSet.score_setTTL hpos, ← hd]
  exact (h.score_le m hmem).trans (unixMilli_add_le cfg.streamTTL_pos s.now)

theorem Inv.refreshKey (h : Inv cfg s) : Inv cfg { s with conc := refreshKey cfg s } := by
  have hpos := formatMs_pos cfg.streamTTL_pos
  have hmem : (StreamCap.refreshKey cfg s).members = s.conc.members :=
    SortedSet.members_pexpire hpos
  have hscore : ∀ m, (StreamCap.refreshKey cfg s).score m = s.conc.score m :=
    SortedSet.score_setTTL hpos
  refine ⟨?_, ?_, h.started, h.charged, Or.inr (settled_refreshKey h), ?_, ?_, ?_⟩
  · intro m hm
    exact (hscore m).trans (h.expiry_eq m (hmem ▸ hm))
  · intro m hm
    exact (hscore m).le.trans (h.score_le m (hmem ▸ hm))
  · change ((StreamCap.refreshKey cfg s).members.filter _).card ≤ _
    rw [hmem]
    exact h.cap
  · intro m hm
    exact (h.present m hm).imp_left fun hin => hmem.symm ▸ hin
  · intro m hm hin
    exact h.absent m hm (hmem ▸ hin)

/-- A connection adds its member: it is midway, and not let in yet. -/
theorem Inv.add (h : Inv cfg s) {tries : Nat} {now : Int} (hslot : s.slot m = .add tries now) :
    Inv cfg { s.setSlot m (.card tries) with
      conc := s.conc.zadd m (score cfg now)
      expiry := update s.expiry m (score cfg now) } := by
  have hnow : now ≤ s.now := h.started m tries now (Or.inr hslot)
  have hnew : ∀ n, (s.setSlot m (.card tries)).slot n = if n = m then .card tries else s.slot n :=
    fun n => by simp [State.setSlot, update_apply]
  refine ⟨?_, ?_, ?_, h.charged, Or.inl (Or.inl ⟨m, by simp [State.setSlot]⟩), ?_, ?_,
    ?_⟩
  · intro n hn
    simp only [SortedSet.score_zadd, update_apply]
    split
    · rfl
    · rename_i hne
      exact h.expiry_eq n ((SortedSet.mem_zadd.1 hn).resolve_left hne)
  · intro n hn
    simp only [SortedSet.score_zadd]
    split
    · exact score_mono hnow
    · rename_i hne
      exact h.score_le n ((SortedSet.mem_zadd.1 hn).resolve_left hne)
  · intro n t' now' hn
    simp only [hnew] at hn
    split at hn
    · simp at hn
    · exact h.started n t' now' hn
  · refine (Finset.card_le_card ?_).trans h.cap
    intro n hn
    simp only [Finset.mem_filter, SortedSet.mem_zadd, hnew] at hn
    obtain ⟨hn, hc⟩ := hn
    rw [Finset.mem_filter]
    split at hc
    · exact absurd hc (by simp)
    · rename_i hne
      exact ⟨hn.resolve_left hne, hc⟩
  · intro n hn
    simp only [hnew] at hn
    simp only [SortedSet.mem_zadd, update_apply]
    split at hn
    · rename_i he; exact Or.inl (Or.inl he)
    · rename_i hne
      rw [if_neg hne]
      exact (h.present n hn).imp_left Or.inr
  · intro n hn
    simp only [hnew] at hn
    rw [SortedSet.mem_zadd, not_or]
    split at hn
    · exact absurd hn (by simp)
    · rename_i hne
      exact ⟨hne, h.absent n hn⟩

/-- A connection takes its own member out, and nobody else's. -/
theorem Inv.remove (h : Inv cfg s) (hadd : p.added cfg.maxN = false)
    (hcount : p.counted cfg.maxN = false)
    (hnot : ∀ tries now, ¬ (p = .prune tries now ∨ p = .add tries now))
    (hmid : (s.slot m).midway = false) : Inv cfg { s.setSlot m p with conc := s.conc.zrem m } := by
  have hnew : ∀ n, (s.setSlot m p).slot n = if n = m then p else s.slot n :=
    fun n => by simp [State.setSlot, update_apply]
  have hsub : ∀ n, n ∈ (s.conc.zrem m).members → n ∈ s.conc.members :=
    fun n hn => (SortedSet.mem_zrem.1 hn).2
  have hscore : ∀ n, n ∈ (s.conc.zrem m).members → (s.conc.zrem m).score n = s.conc.score n :=
    fun n hn => SortedSet.score_restrict hn
  refine ⟨?_, ?_, ?_, h.charged, ?_, ?_, ?_, ?_⟩
  · intro n hn
    exact (hscore n hn).trans (h.expiry_eq n (hsub n hn))
  · intro n hn
    exact (hscore n hn).le.trans (h.score_le n (hsub n hn))
  · intro n tries now hn
    simp only [hnew] at hn
    split at hn
    · exact absurd hn (hnot tries now)
    · exact h.started n tries now hn
  · refine h.settled.imp (Or.imp_left ?_) fun hs => hs.restrict _
    rintro ⟨n, hn⟩
    refine ⟨n, ?_⟩
    simp only [hnew]
    split
    · rename_i he; subst he; exact absurd hn (by rw [hmid]; decide)
    · exact hn
  · refine (Finset.card_le_card ?_).trans h.cap
    intro n hn
    simp only [Finset.mem_filter, hnew] at hn
    obtain ⟨hn, hc⟩ := hn
    rw [Finset.mem_filter]
    split at hc
    · exact absurd hc (by rw [hcount]; decide)
    · exact ⟨hsub n hn, hc⟩
  · intro n hn
    simp only [hnew] at hn
    split at hn
    · exact absurd hn (by rw [hadd]; decide)
    · rename_i hne
      exact (h.present n hn).imp_left fun hin => SortedSet.mem_zrem.2 ⟨hne, hin⟩
  · intro n hn hin
    simp only [hnew] at hn
    split at hn
    · rename_i he; exact (SortedSet.mem_zrem.1 hin).1 he
    · exact h.absent n hn (hsub n hin)

/-- `Charge` moves the score of a member that is there, and adds none. -/
theorem Inv.refresh (h : Inv cfg s) (hbusy : Busy s) {now : Int} (hnow : now ≤ s.now) :
    Inv cfg { s with
      conc := s.conc.zaddXX m (score cfg now)
      expiry := if m ∈ s.conc.members then update s.expiry m (score cfg now)
        else s.expiry } := by
  have hexp : ∀ n, (if m ∈ s.conc.members then update s.expiry m (score cfg now)
      else s.expiry) n = if n = m ∧ m ∈ s.conc.members then score cfg now else s.expiry n := by
    intro n
    by_cases hm : m ∈ s.conc.members <;> simp [hm, update_apply]
  refine ⟨?_, ?_, h.started, h.charged, Or.inl hbusy, ?_, ?_, ?_⟩
  · intro n hn
    simp only [SortedSet.members_zaddXX] at hn
    simp only [SortedSet.score_zaddXX, hexp]
    split
    · rfl
    · exact h.expiry_eq n hn
  · intro n hn
    simp only [SortedSet.members_zaddXX] at hn
    simp only [SortedSet.score_zaddXX]
    split
    · exact score_mono hnow
    · exact h.score_le n hn
  · simpa only [SortedSet.members_zaddXX] using h.cap
  · intro n hn
    simp only [SortedSet.members_zaddXX, hexp]
    by_cases hnm : n = m ∧ m ∈ s.conc.members
    · exact Or.inl (hnm.1 ▸ hnm.2)
    · rw [if_neg hnm]
      exact h.present n hn
  · intro n hn
    simpa only [SortedSet.members_zaddXX] using h.absent n hn

omit [DecidableEq μ] in
/-- Outside the window, a key that runs out only takes expired members with it. -/
theorem Inv.lapse (h : Inv cfg s) (hbusy : ¬ Busy s) (hl : s.conc.Lapsed (unixMilli s.now)) :
    Inv cfg { s with conc := .empty } := by
  obtain ⟨d, hd, hlt⟩ := hl
  have hset : Settled s.conc := h.settled.resolve_left hbusy
  refine ⟨?_, ?_, h.started, h.charged, Or.inr fun d hd => absurd hd (by simp),
    Nat.zero_le _, ?_, by simp⟩
  · intro m hm; exact absurd hm (by simp)
  · intro m hm; exact absurd hm (by simp)
  · intro m hm
    refine Or.inr ?_
    rcases h.present m hm with hin | he
    · have hle := hset d hd m hin
      rw [h.expiry_eq m hin] at hle
      change s.expiry m ≤ unixMilli s.now
      omega
    · exact he

/-! ### Every step -/

variable {t : State μ κ}

theorem Inv.slotStep (h : Inv cfg s) (hs : slotStep cfg s m = some t) : Inv cfg t := by
  rw [StreamCap.slotStep] at hs
  split at hs
  case h_1 tries now hslot =>
    obtain rfl := Option.some_inj.1 hs
    have hnow := h.started m tries now (Or.inl hslot)
    refine (h.prune (unixMilli_mono hnow)).setSlot (p := .add tries now) ?_ (Or.inl ?_) ?_ ?_ ?_
    · rintro t' n (he | he)
      · exact absurd he (by simp)
      · obtain ⟨-, rfl⟩ := Slot.add.inj he
        exact hnow
    all_goals simp [hslot]
  case h_2 tries now hslot =>
    obtain rfl := Option.some_inj.1 hs
    exact h.add hslot
  case h_3 tries hslot =>
    obtain rfl := Option.some_inj.1 hs
    refine h.setSlot (p := .expire tries s.conc.zcard) ?_ (Or.inl ?_) ?_ ?_ ?_
    all_goals simp [hslot]
  case h_4 tries card hslot =>
    obtain rfl := Option.some_inj.1 hs
    refine h.refreshKey.setSlot ?_ (Or.inr (settled_refreshKey h)) ?_ ?_ ?_
    all_goals by_cases hc : card ≤ cfg.maxN
    all_goals simp [hslot, hc]
  case h_5 tries hslot =>
    obtain rfl := Option.some_inj.1 hs
    refine h.remove ?_ ?_ ?_ ?_
    all_goals simp [hslot]
  case h_6 hslot =>
    obtain rfl := Option.some_inj.1 hs
    refine h.remove ?_ ?_ ?_ ?_
    all_goals simp [hslot]
  case h_7 => exact absurd hs (by simp)

variable [DecidableEq κ]

theorem Inv.chargeStep (h : Inv cfg s) (hs : chargeStep cfg s k = some t) : Inv cfg t := by
  rw [StreamCap.chargeStep] at hs
  split at hs
  case h_1 => exact absurd hs (by simp)
  case h_2 m now hk =>
    obtain rfl := Option.some_inj.1 hs
    have hmoved : Inv cfg (s.setCharge k (.expire m)) :=
      h.setCharge (by simp) (Or.inl (by simp [Charge.midway]))
    have hbusy : Busy (s.setCharge k (.expire m)) :=
      Or.inr ⟨k, by simp [State.setCharge, Charge.midway]⟩
    exact hmoved.refresh hbusy (h.charged k m now hk)
  case h_3 m hk =>
    obtain rfl := Option.some_inj.1 hs
    exact h.refreshKey.setCharge (by simp) (Or.inr (settled_refreshKey h))

/-- The condition under which the cap holds: the key's time to live does not run out while a
pipeline stands between its `ZADD` and its `PEXPIRE`. -/
def NoLapseInPipeline (s : State μ κ) (a : Act μ κ) : Prop := a = .lapse → ¬ Busy s

variable {a : Act μ κ}

theorem Inv.step (h : Inv cfg s) (hg : NoLapseInPipeline s a) (hs : step cfg s a = some t) :
    Inv cfg t := by
  cases a with
  | tick d =>
    obtain rfl := Option.some_inj.1 hs
    exact h.tick d
  | acquire m =>
    obtain ⟨hslot, rfl⟩ := Lts.taken hs
    refine h.setSlot (p := .prune 0 s.now) ?_ (Or.inl ?_) ?_ ?_ ?_
    all_goals simp [hslot]
  | slot m => exact h.slotStep hs
  | retry m =>
    rw [StreamCap.step] at hs
    split at hs
    · rename_i tries hslot
      obtain ⟨-, rfl⟩ := Lts.taken hs
      refine h.setSlot (p := .prune (tries + 1) s.now) ?_ (Or.inl ?_) ?_ ?_ ?_
      all_goals simp [hslot]
    · exact absurd hs (by simp)
  | release m =>
    obtain ⟨hslot, rfl⟩ := Lts.taken hs
    refine h.setSlot (p := .releasing) ?_ (Or.inl ?_) ?_ ?_ ?_
    all_goals simp [hslot]
  | charge k m =>
    obtain ⟨hk, rfl⟩ := Lts.taken hs
    exact h.setCharge (by simp) (Or.inl (by simp [hk, Charge.midway]))
  | flow k => exact h.chargeStep hs
  | lapse =>
    obtain ⟨hl, rfl⟩ := Lts.taken hs
    exact h.lapse (hg rfl) hl

theorem inv_of_reach (h : (system cfg).Reach NoLapseInPipeline s) : Inv cfg s :=
  h.invariant inv_init fun _ _ _ _ hi hg hs => hi.step hg hs

/-! ## Who adds and who removes a member -/

omit [DecidableEq κ] in
theorem members_refreshKey (cfg : Config) (s : State μ κ) :
    (refreshKey cfg s).members = s.conc.members :=
  SortedSet.members_pexpire (formatMs_pos cfg.streamTTL_pos)

/-- No command of `Charge` adds or removes a member. -/
theorem members_flow (hs : step cfg s (.flow k) = some t) : t.conc.members = s.conc.members := by
  rw [step, chargeStep] at hs
  split at hs
  case h_1 => exact absurd hs (by simp)
  case h_2 m now hk =>
    obtain rfl := Option.some_inj.1 hs
    exact SortedSet.members_zaddXX s.conc m (score cfg now)
  case h_3 =>
    obtain rfl := Option.some_inj.1 hs
    exact members_refreshKey cfg s

/-- Only a connection's own `ZADD` puts its member into the set. -/
theorem mem_of_mem_step (hs : step cfg s a = some t) {n : μ} (hn : n ∈ t.conc.members) :
    n ∈ s.conc.members ∨ ∃ tries now, a = .slot n ∧ s.slot n = .add tries now := by
  cases a with
  | tick d =>
    obtain rfl := Option.some_inj.1 hs
    exact Or.inl hn
  | acquire m =>
    obtain ⟨-, rfl⟩ := Lts.taken hs
    exact Or.inl hn
  | slot m =>
    rw [step, slotStep] at hs
    split at hs
    case h_1 =>
      obtain rfl := Option.some_inj.1 hs
      exact Or.inl (SortedSet.mem_zremrangebyscore.1 hn).1
    case h_2 tries now hslot =>
      obtain rfl := Option.some_inj.1 hs
      rcases SortedSet.mem_zadd.1 hn with rfl | hn
      · exact Or.inr ⟨tries, now, rfl, hslot⟩
      · exact Or.inl hn
    case h_3 =>
      obtain rfl := Option.some_inj.1 hs
      exact Or.inl hn
    case h_4 =>
      obtain rfl := Option.some_inj.1 hs
      rw [← members_refreshKey cfg s]
      exact Or.inl hn
    case h_5 | h_6 =>
      obtain rfl := Option.some_inj.1 hs
      exact Or.inl (SortedSet.mem_zrem.1 hn).2
    case h_7 => exact absurd hs (by simp)
  | retry m =>
    rw [step] at hs
    split at hs
    · obtain ⟨-, rfl⟩ := Lts.taken hs
      exact Or.inl hn
    · exact absurd hs (by simp)
  | release m =>
    obtain ⟨-, rfl⟩ := Lts.taken hs
    exact Or.inl hn
  | charge k m =>
    obtain ⟨-, rfl⟩ := Lts.taken hs
    exact Or.inl hn
  | flow k => exact Or.inl (members_flow hs ▸ hn)
  | lapse =>
    obtain ⟨-, rfl⟩ := Lts.taken hs
    exact absurd hn (by simp)

/-- The connection was admitted at some point. -/
@[simp] def Slot.past : Slot → Bool
  | .held | .releasing | .released => true
  | _ => false

omit [DecidableEq κ] in
theorem past_setSlot {m n : μ} (h : (s.slot n).past = true)
    (hp : (s.slot m).past = true → p.past = true) : ((s.setSlot m p).slot n).past = true := by
  simp only [State.setSlot, update_apply]
  split
  · rename_i he; exact hp (he ▸ h)
  · exact h

/-- A connection that was admitted never starts over: its token is used once. -/
theorem past_step (hs : step cfg s a = some t) {n : μ} (h : (s.slot n).past = true) :
    (t.slot n).past = true := by
  cases a with
  | tick d =>
    obtain rfl := Option.some_inj.1 hs
    exact h
  | acquire m =>
    obtain ⟨hslot, rfl⟩ := Lts.taken hs
    exact past_setSlot h (by simp [hslot])
  | slot m =>
    rw [step, slotStep] at hs
    split at hs
    case h_4 tries card hslot =>
      obtain rfl := Option.some_inj.1 hs
      exact past_setSlot h (by simp [hslot])
    case h_7 => exact absurd hs (by simp)
    all_goals
      rename_i hslot
      obtain rfl := Option.some_inj.1 hs
      exact past_setSlot h (by simp [hslot])
  | retry m =>
    rw [step] at hs
    split at hs
    · rename_i hslot
      obtain ⟨-, rfl⟩ := Lts.taken hs
      exact past_setSlot h (by simp [hslot])
    · exact absurd hs (by simp)
  | release m =>
    obtain ⟨-, rfl⟩ := Lts.taken hs
    exact past_setSlot h (by simp)
  | charge k m =>
    obtain ⟨-, rfl⟩ := Lts.taken hs
    exact h
  | flow k =>
    rw [step, chargeStep] at hs
    split at hs
    case h_1 => exact absurd hs (by simp)
    all_goals
      obtain rfl := Option.some_inj.1 hs
      exact h
  | lapse =>
    obtain ⟨-, rfl⟩ := Lts.taken hs
    exact h

/-- A member that was admitted and has left the set is never put back. -/
theorem not_mem_later {g : State μ κ → Act μ κ → Prop} (hl : (system cfg).Later g s t)
    (hp : (s.slot m).past = true) (hm : m ∉ s.conc.members) : m ∉ t.conc.members := by
  refine (hl.stable (P := fun u => (u.slot m).past = true ∧ m ∉ u.conc.members) ?_ ⟨hp, hm⟩).2
  rintro u a v ⟨hp, hm⟩ - hs
  refine ⟨past_step hs hp, fun hv => ?_⟩
  rcases mem_of_mem_step hs hv with hu | ⟨tries, now, -, hslot⟩
  · exact hm hu
  · exact absurd hp (by simp [hslot])

/-- Giving one slot back removes no other member. -/
theorem mem_slotStep_releasing {m n : μ} (hslot : s.slot m = .releasing)
    (hs : step cfg s (.slot m) = some t) (hne : n ≠ m) :
    n ∈ t.conc.members ↔ n ∈ s.conc.members := by
  rw [step, slotStep, hslot] at hs
  obtain rfl := Option.some_inj.1 hs
  simp [hne]

/-! ## The cap -/

/-- `AcquireStream` returned true for the connection, and its slot is neither released nor
expired. -/
def Open (s : State μ κ) (m : μ) : Prop :=
  (s.slot m).admitted = true ∧ unixMilli s.now < s.expiry m

instance (s : State μ κ) (m : μ) : Decidable (Open s m) := inferInstanceAs (Decidable (_ ∧ _))

/-- **The cap holds** in every run in which the key does not run out inside a pipeline.  Moreover
a refused connection leaves no member behind, `Charge` creates no member at all, a member that was
released or pruned is never created again, and releasing a member removes no other. -/
theorem cap_of_no_lapse_in_pipeline (h : (system cfg).Reach NoLapseInPipeline s) :
    (∀ f : Finset μ, (∀ m ∈ f, Open s m) → f.card ≤ cfg.maxN) ∧
    (∀ m tries, s.slot m = .refused tries → m ∉ s.conc.members) ∧
    (∀ k t, step cfg s (.flow k) = some t → t.conc.members = s.conc.members) ∧
    (∀ m, (s.slot m).past = true → m ∉ s.conc.members →
      ∀ t, (system cfg).Later NoLapseInPipeline s t → m ∉ t.conc.members) ∧
    (∀ m n t, s.slot m = .releasing → step cfg s (.slot m) = some t → n ≠ m →
      (n ∈ t.conc.members ↔ n ∈ s.conc.members)) := by
  have hi := inv_of_reach h
  refine ⟨fun f hf => ?_, fun m tries hm => ?_, fun k t hs => members_flow hs,
    fun m hp hm t hl => not_mem_later hl hp hm,
    fun m n t hm hs hne => mem_slotStep_releasing hm hs hne⟩
  · refine (Finset.card_le_card fun m hm => ?_).trans hi.cap
    obtain ⟨hadm, hexp⟩ := hf m hm
    have hcount : (s.slot m).counted cfg.maxN = true := by
      cases hs : s.slot m <;> simp_all [Slot.admitted, Slot.counted]
    have hadded : (s.slot m).added cfg.maxN = true := by
      cases hs : s.slot m <;> simp_all [Slot.admitted, Slot.added]
    refine Finset.mem_filter.2 ⟨(hi.present m hadded).resolve_right ?_, hcount⟩
    exact not_le.2 hexp
  · exact hi.absent m (by rw [hm]; rfl)

instance [Fintype μ] [Fintype κ] (s : State μ κ) : Decidable (Busy s) :=
  inferInstanceAs (Decidable ((∃ _, _) ∨ ∃ _, _))

instance [Fintype μ] [Fintype κ] (s : State μ κ) (a : Act μ κ) :
    Decidable (NoLapseInPipeline s a) :=
  inferInstanceAs (Decidable (_ → _))

/-- Two slots of ten milliseconds each. -/
def twoSlots : Config := ⟨2, 10 * millisecond, by decide⟩

/-- A whole `AcquireStream`, undisturbed. -/
def acquireStream {μ κ : Type} (m : μ) : List (Act μ κ) :=
  [.acquire m, .slot m, .slot m, .slot m, .slot m]

/-- The slot of `0` expires with its key, and two more connections are admitted. -/
theorem two_open_after_lapse : ∃ s : State (Fin 3) (Fin 1),
    (Open s 1 ∧ Open s 2 ∧ ¬ Open s 0) ∧
      ∀ f : Finset (Fin 3), (∀ m ∈ f, Open s m) → f.card ≤ twoSlots.maxN := by
  refine ⟨_, ?_, (cap_of_no_lapse_in_pipeline (Lts.reach_of_execWith
    (l := acquireStream 0 ++ [Act.tick 11000000, .lapse] ++ acquireStream 1 ++ acquireStream 2)
    rfl)).1⟩
  decide

/-- **The cap can be exceeded.**  The key still carries the time to live of `0`, one millisecond
of it, when `1` adds its member and counts two.  The key runs out before the `PEXPIRE` of `1`, so
`1` is admitted without being in the set, and `2` and `3` are admitted after it: three slots are
taken at once where two are allowed. -/
theorem cap_exceeded : ∃ s : State (Fin 4) (Fin 1), (system twoSlots).Reach Lts.always s ∧
    ∃ f : Finset (Fin 4), (∀ m ∈ f, Open s m) ∧ twoSlots.maxN < f.card :=
  ⟨_, Lts.reach_of_exec (l := acquireStream 0 ++
      [Act.tick 9000000, .acquire 1, .slot 1, .slot 1, .slot 1, .tick 2000000, .lapse, .slot 1] ++
      acquireStream 2 ++ acquireStream 3) rfl,
    {1, 2, 3}, by decide, by decide⟩

end Tunneld.StreamCap

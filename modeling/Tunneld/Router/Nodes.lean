import Tunneld.Lib.Lts
import Tunneld.Lib.SortedSet

/-!
# The set of node ids

Every node keeps an entry `node:{id}` alive and its id in the set `nodes`.  The set is how a node
finds the others: `LiveNodes` reads the ids, reads their entries, and removes from the set the ids
whose entries were gone.  An id that is missing from the set is a node that nobody evicts splices
on, frees slots on, or counts in a budget.

`LiveNodes` is three commands, and `RegisterNode` is three more.  Between the read of the entries
and the removal, a node whose entry had expired can register again, completely, and the removal
then takes out the id of a node that is alive.  It is back with the node's next heartbeat.

There are two more ways to lose an id, both through the time to live of the set, which every
registration sets to three times that of its entry.  Between the `SADD` and the `PEXPIRE` of a
registration an old set can run out, with the new id in it.  And a node with a short time to live
shortens the set's, for all.

`step` is these calls command by command, for any number of nodes and of `LiveNodes` calls.  The
calls of one node follow each other: `heartbeatNode` makes all its registrations, and `Run`
deregisters the node after that has returned.  `Orderly` excludes the three ways.

## Main results

* `Inv.step`: what the set and the entries have in common, kept by every command;
* `up_listed`: a node that is up is in the set, and `LiveNodes` returns it;
* `up_not_listed`: the three ways above.
-/

namespace Tunneld.Nodes

open Function Clock

/-! ## The store and the calls -/

/-- The key `node:{id}`: what is written there, and until when, in milliseconds. -/
structure Entry (φ : Type) where
  info : φ
  expires : Int

/-- Where the registrations of a node stand. -/
inductive Register
  | idle
  /-- `SET` is done; `SADD` is next. -/
  | adding (ttl : Int)
  /-- `SADD` is done; `PEXPIRE` is next. -/
  | expiring (ttl : Int)
  /-- `DeregisterNode` has done its `DEL`; `SREM` is next. -/
  | removing
  deriving DecidableEq

/-- The id is added, and the set may still have the time to live it had before. -/
@[simp] def Register.midway : Register → Bool
  | .expiring _ => true
  | .idle | .adding _ | .removing => false

/-- Where a call of `LiveNodes` stands. -/
inductive Lister (ν φ : Type)
  | idle
  /-- `SMEMBERS` has returned these. -/
  | listed (ids : Finset ν)
  /-- `MGET` has returned; the ids without an entry are removed next. -/
  | found (out : ν → Option φ) (gone : Finset ν)
  | returned (out : ν → Option φ)

/-- What `LiveNodes` is about to remove. -/
def Lister.gone {ν φ : Type} : Lister ν φ → Finset ν
  | .found _ gone => gone
  | .idle | .listed _ | .returned _ => ∅

/-- The node registry and its users. -/
structure State (ν κ φ : Type) where
  /-- The store's clock, in milliseconds. -/
  now : Int
  /-- The entries that have not expired. -/
  node : ν → Option (Entry φ)
  /-- The set `nodes`. -/
  ids : Finset ν
  /-- When the set runs out, if it has a time to live. -/
  deadline : Option Int
  register : ν → Register
  lister : κ → Lister ν φ
  /-- A `RegisterNode` or `RefreshNode` of the node has returned, and since then its entry has not
  expired and it has not begun to deregister.  No code reads this. -/
  up : ν → Bool

/-- What can happen next. -/
inductive Act (ν κ φ : Type)
  | tick (d : Nat)
  /-- The `SET` of `RegisterNode`. -/
  | set (n : ν) (info : φ) (ttl : Int)
  /-- Its `SADD`. -/
  | sadd (n : ν)
  /-- Its `PEXPIRE`, and the return. -/
  | pexpire (n : ν)
  /-- The `DEL` of `DeregisterNode`. -/
  | del (n : ν)
  /-- Its `SREM`, and the return. -/
  | srem (n : ν)
  /-- The `SMEMBERS` of `LiveNodes`. -/
  | smembers (c : κ)
  /-- Its `MGET`. -/
  | mget (c : κ)
  /-- Its `SREM`, if it has found expired entries, and the return. -/
  | prune (c : κ)

section Step

variable {ν κ φ : Type} [DecidableEq ν] [DecidableEq κ]

@[simp] def State.setRegister (s : State ν κ φ) (n : ν) (p : Register) : State ν κ φ :=
  { s with register := update s.register n p }

def State.setLister (s : State ν κ φ) (c : κ) (p : Lister ν φ) : State ν κ φ :=
  { s with lister := update s.lister c p }

/-- Take ids out of the set.  A set without members is no key, and has no time to live. -/
def State.remove (s : State ν κ φ) (gone : Finset ν) : State ν κ φ :=
  { s with
    ids := s.ids \ gone
    deadline := if s.ids \ gone = ∅ then none else s.deadline }

/-- The clock moves, and the keys whose time has come are gone. -/
def State.pass (s : State ν κ φ) (d : Nat) : State ν κ φ :=
  let node := fun n => (s.node n).filter fun e => s.now + d < e.expires
  let ended := s.deadline.any fun t => t ≤ s.now + d
  { s with
    now := s.now + d
    node
    ids := if ended then ∅ else s.ids
    deadline := if ended then none else s.deadline
    up := fun n => s.up n && (node n).isSome }

/-- The state after an action, if it is possible.  `Validate` has refused a time to live that is not
positive. -/
def step (s : State ν κ φ) : Act ν κ φ → Option (State ν κ φ)
  | .tick d => some (s.pass d)
  | .set n info ttl =>
    if s.register n = .idle ∧ 0 < ttl then
      some { s.setRegister n (.adding ttl) with
        node := update s.node n (some ⟨info, s.now + formatMs ttl⟩) }
    else none
  | .sadd n =>
    match s.register n with
    | .adding ttl => some { s.setRegister n (.expiring ttl) with ids := insert n s.ids }
    | _ => none
  | .pexpire n =>
    match s.register n with
    | .expiring ttl => some { s.setRegister n .idle with
        deadline := if s.ids = ∅ then none else some (s.now + formatMs (3 * ttl))
        up := update s.up n (s.node n).isSome }
    | _ => none
  | .del n =>
    if s.register n = .idle then
      some { s.setRegister n .removing with
        node := update s.node n none
        up := update s.up n false }
    else none
  | .srem n =>
    if s.register n = .removing then some ((s.setRegister n .idle).remove {n}) else none
  | .smembers c =>
    match s.lister c with
    | .idle => some (s.setLister c (if s.ids = ∅ then .returned fun _ => none else .listed s.ids))
    | _ => none
  | .mget c =>
    match s.lister c with
    | .listed ids => some (s.setLister c (.found
        (fun n => if n ∈ ids then (s.node n).map Entry.info else none)
        (ids.filter fun n => (s.node n).isNone)))
    | _ => none
  | .prune c =>
    match s.lister c with
    | .found out gone => some ((s.setLister c (.returned out)).remove gone)
    | _ => none

/-- A registry in which nobody is registered. -/
def system : Lts (State ν κ φ) (Act ν κ φ) :=
  ⟨⟨0, fun _ => none, ∅, none, fun _ => .idle, fun _ => .idle, fun _ => false⟩, step⟩

/-! ## The runs in which no id is lost -/

/-- All registrations have one time to live; the set does not run out between the `SADD` and the
`PEXPIRE` of a registration; and the entries of the ids that `LiveNodes` removes are still gone when
it removes them. -/
def Orderly (ttl : Int) (s : State ν κ φ) : Act ν κ φ → Prop
  | .set _ _ d => d = ttl
  | .tick d => ∀ n, (s.register n).midway = true → ∀ t ∈ s.deadline, s.now + d < t
  | .prune c => ∀ n ∈ (s.lister c).gone, (s.node n).isNone = true
  | _ => True

variable {ttl : Int} {s t : State ν κ φ} {n : ν}

theorem formatMs_cases (h : 0 < ttl) :
    formatMs ttl = 1 ∧ ttl < 1000000 ∨ formatMs ttl = ttl / 1000000 ∧ 1000000 ≤ ttl := by
  simp only [formatMs, millisecond]
  rw [Int.tdiv_eq_ediv_of_nonneg (by omega)]
  by_cases hlt : ttl < 1000000
  · exact .inl ⟨if_pos ⟨h, hlt⟩, hlt⟩
  · exact .inr ⟨if_neg fun hc => hlt hc.2, by omega⟩

/-- The set lives two registrations longer than an entry. -/
theorem formatMs_three (h : 0 < ttl) :
    formatMs ttl ≤ formatMs (3 * ttl) ∧ 2 * formatMs ttl ≤ formatMs (3 * ttl) + 1 := by
  rcases formatMs_cases h with ⟨h1, hlt⟩ | ⟨h1, hle⟩ <;>
  rcases formatMs_cases (show 0 < 3 * ttl by omega) with ⟨h3, hlt3⟩ | ⟨h3, hle3⟩ <;>
  omega

/-- What the runs keep of one node, where `listed` says that its id is in the set.  A node that is
up has an entry that runs out no later than the set, and by two registrations earlier unless the
node is just refreshing it. -/
structure NodeInv (ttl now : Int) (deadline : Option Int) (listed : Prop)
    (node : Option (Entry φ)) (register : Register) (up : Bool) : Prop where
  entry : ∀ e, node = some e → now < e.expires ∧ e.expires ≤ now + formatMs ttl
  adding : ∀ d, register = .adding d → d = ttl
  expiring : ∀ d, register = .expiring d → d = ttl
  removing : register = .removing → node = none
  midway : register.midway = true → node ≠ none → listed
  up : up = true → listed ∧ ∃ e t, node = some e ∧ deadline = some t ∧ e.expires ≤ t ∧
    (register = .idle → e.expires + formatMs (3 * ttl) ≤ t + formatMs ttl)

/-- What the runs keep. -/
structure Inv (ttl : Int) (s : State ν κ φ) : Prop where
  deadline : ∀ t, s.deadline = some t → t ≤ s.now + formatMs (3 * ttl)
  node : ∀ n, NodeInv ttl s.now s.deadline (n ∈ s.ids) (s.node n) (s.register n) (s.up n)

section NodeInv

variable {now : Int} {deadline : Option Int} {listed : Prop} {node : Option (Entry φ)}
  {register : Register} {up : Bool}

variable {listed' : Prop}

theorem NodeInv.listed_mono (h : NodeInv ttl now deadline listed node register up)
    (himp : listed → listed') : NodeInv ttl now deadline listed' node register up :=
  { h with
    midway := fun hm hn => himp (h.midway hm hn)
    up := fun hu => ⟨himp (h.up hu).1, (h.up hu).2⟩ }

variable {deadline' : Option Int}

theorem NodeInv.deadline_mono (h : NodeInv ttl now deadline listed node register up)
    (hle : listed → ∀ t, deadline = some t → ∃ t', deadline' = some t' ∧ t ≤ t') :
    NodeInv ttl now deadline' listed node register up := by
  refine { h with up := fun hu => ?_ }
  obtain ⟨hl, e, t, he, ht, hexp, hslack⟩ := h.up hu
  obtain ⟨t', ht', htt'⟩ := hle hl t ht
  exact ⟨hl, e, t', he, ht', hexp.trans htt', fun hidle => (hslack hidle).trans (by omega)⟩

/-- `SET`: the entry that the node had runs out before the set does, by two registrations. -/
theorem NodeInv.set (h : NodeInv ttl now deadline listed node .idle up) (hpos : 0 < ttl)
    (info : φ) :
    NodeInv ttl now deadline listed (some ⟨info, now + formatMs ttl⟩) (.adding ttl) up where
  entry e he := by
    obtain rfl := Option.some.inj he
    exact ⟨Int.lt_add_of_pos_right _ (formatMs_pos hpos), le_refl _⟩
  adding d hd := by simpa [eq_comm] using hd
  expiring d hd := by simp at hd
  removing hr := by simp at hr
  midway hm := by simp at hm
  up hu := by
    obtain ⟨hl, e, t, he, ht, -, hslack⟩ := h.up hu
    have hlive := (h.entry e he).1
    have hearly := hslack rfl
    have hthree := formatMs_three hpos
    exact ⟨hl, _, t, rfl, ht, by simp only; omega, by simp⟩

theorem NodeInv.sadd (h : NodeInv ttl now deadline listed node (.adding ttl) up) :
    NodeInv ttl now deadline True node (.expiring ttl) up where
  entry := h.entry
  adding d hd := by simp at hd
  expiring d hd := by simpa [eq_comm] using hd
  removing hr := by simp at hr
  midway _ _ := trivial
  up hu := by
    obtain ⟨-, e, t, he, ht, hexp, -⟩ := h.up hu
    exact ⟨trivial, e, t, he, ht, hexp, by simp⟩

theorem NodeInv.pexpire (h : NodeInv ttl now deadline listed node (.expiring ttl) up)
    (hpos : 0 < ttl) (hd : listed → deadline' = some (now + formatMs (3 * ttl))) :
    NodeInv ttl now deadline' listed node .idle node.isSome where
  entry := h.entry
  adding d hd := by simp at hd
  expiring d hd := by simp at hd
  removing hr := by simp at hr
  midway hm := by simp at hm
  up hu := by
    obtain ⟨e, he⟩ := Option.isSome_iff_exists.1 hu
    have hl : listed := h.midway rfl (by simp [he])
    have hle := (h.entry e he).2
    have hthree := formatMs_three hpos
    exact ⟨hl, e, _, he, hd hl, by omega, fun _ => by omega⟩

theorem NodeInv.del :
    NodeInv ttl now deadline listed (none : Option (Entry φ)) .removing false where
  entry e he := by simp at he
  adding d hd := by simp at hd
  expiring d hd := by simp at hd
  removing _ := rfl
  midway hm := by simp at hm
  up hu := by simp at hu

/-- A node without an entry is not up, and its id may go. -/
theorem NodeInv.gone (h : NodeInv ttl now deadline listed (none : Option (Entry φ)) register up) :
    NodeInv ttl now deadline' listed' (none : Option (Entry φ)) register up where
  entry e he := by simp at he
  adding := h.adding
  expiring := h.expiring
  removing _ := rfl
  midway _ hne := absurd rfl hne
  up hu := by
    obtain ⟨-, e, -, he, -⟩ := h.up hu
    simp at he

/-- Time passes, and the entry, if it is not left, was not needed. -/
theorem NodeInv.pass (h : NodeInv ttl now deadline listed node register up) {d : Nat}
    (hset : (∀ t, deadline = some t → now + d < t) → deadline' = deadline ∧ (listed → listed'))
    (hmid : register.midway = true → ∀ t ∈ deadline, now + d < t) :
    NodeInv ttl (now + d) deadline' listed' (node.filter fun e => now + d < e.expires) register
      (up && (node.filter fun e => now + d < e.expires).isSome) := by
  have hleft : ∀ e, (node.filter fun e => now + d < e.expires) = some e →
      node = some e ∧ now + d < e.expires := by
    intro e he
    simpa [Option.filter_eq_some_iff] using he
  refine ⟨fun e he => ?_, h.adding, h.expiring, fun hr => ?_, fun hm hne => ?_, fun hu => ?_⟩
  · obtain ⟨he, hlt⟩ := hleft e he
    have := (h.entry e he).2
    omega
  · rw [h.removing hr]
    rfl
  · obtain ⟨e, he⟩ := Option.ne_none_iff_exists'.1 hne
    exact (hset (hmid hm)).2 (h.midway hm (by simp [(hleft e he).1]))
  · obtain ⟨hu, hsome⟩ := Bool.and_eq_true_iff.1 hu
    obtain ⟨e, he⟩ := Option.isSome_iff_exists.1 hsome
    obtain ⟨hnode, hlt⟩ := hleft e he
    obtain ⟨hl, e', t, he', ht, hexp, hslack⟩ := h.up hu
    obtain rfl : e = e' := Option.some.inj (hnode.symm.trans he')
    have hnot : ∀ t', deadline = some t' → now + d < t' := by
      intro t' ht'
      obtain rfl : t = t' := Option.some.inj (ht.symm.trans ht')
      omega
    obtain ⟨hdl, hlisted⟩ := hset hnot
    exact ⟨hlisted hl, e, t, he, hdl ▸ ht, hexp, hslack⟩

end NodeInv

/-! ## Whole runs -/

omit [DecidableEq ν] [DecidableEq κ] in
theorem Inv.pass (h : Inv ttl s) {d : Nat} (hg : Orderly ttl s (.tick d)) :
    Inv ttl (s.pass d) := by
  -- the set is as it was unless its time has come
  have hset : (∀ t, s.deadline = some t → s.now + d < t) →
      (s.pass d).deadline = s.deadline ∧ (s.pass d).ids = s.ids := by
    intro hlt
    have hany : s.deadline.any (fun t => decide (t ≤ s.now + d)) = false := by
      cases hd : s.deadline with
      | none => rfl
      | some t => simpa using hlt t hd
    simp [State.pass, hany]
  refine ⟨fun t ht => ?_, fun n => (h.node n).pass (fun hlt => ?_) (hg n)⟩
  · have ht : s.deadline = some t := by
      simp only [State.pass] at ht
      split at ht
      · simp at ht
      · exact ht
    have := h.deadline t ht
    simp only [State.pass]
    omega
  · obtain ⟨hdl, hids⟩ := hset hlt
    exact ⟨hdl, fun hn => hids ▸ hn⟩

omit [DecidableEq κ] in
/-- Ids without an entry are taken out of the set. -/
theorem Inv.remove (h : Inv ttl s) {gone : Finset ν} (hg : ∀ n ∈ gone, s.node n = none) :
    Inv ttl (s.remove gone) := by
  refine ⟨fun t ht => ?_, fun n => ?_⟩
  · simp only [State.remove] at ht
    split at ht
    · simp at ht
    · exact h.deadline t ht
  · have hn := h.node n
    by_cases hmem : n ∈ gone
    · simp only [State.remove, hg n hmem] at hn ⊢
      exact hn.gone
    · refine (hn.listed_mono fun hl => Finset.mem_sdiff.2 ⟨hl, hmem⟩).deadline_mono fun hl t ht => ?_
      have hne : s.ids \ gone ≠ ∅ := Finset.ne_empty_of_mem hl
      exact ⟨t, by simp [State.remove, hne, ht], le_refl t⟩

omit [DecidableEq κ] in
/-- A command for one node leaves the others alone. -/
theorem Inv.only (h : Inv ttl s) (n : ν) (hnow : t.now = s.now)
    (hdeadline : t.deadline = s.deadline)
    (hother : ∀ m, m ≠ n → (m ∈ t.ids ↔ m ∈ s.ids) ∧ t.node m = s.node m ∧
      t.register m = s.register m ∧ t.up m = s.up m)
    (hn : NodeInv ttl t.now t.deadline (n ∈ t.ids) (t.node n) (t.register n) (t.up n)) :
    Inv ttl t := by
  refine ⟨?_, fun m => ?_⟩
  · rw [hdeadline, hnow]
    exact h.deadline
  · by_cases hmn : m = n
    · rw [hmn]
      exact hn
    · obtain ⟨hids, hnode, hregister, hup⟩ := hother m hmn
      rw [hnode, hregister, hup, hdeadline, hnow]
      exact (h.node m).listed_mono hids.2

theorem Inv.step (hpos : 0 < ttl) (h : Inv ttl s) {a : Act ν κ φ} (hg : Orderly ttl s a)
    (hs : step s a = some t) : Inv ttl t := by
  cases a with
  | tick d =>
    obtain rfl : s.pass d = t := Option.some.inj hs
    exact h.pass hg
  | set n info d =>
    obtain ⟨⟨hidle, -⟩, rfl⟩ := Lts.taken hs
    obtain rfl : d = ttl := hg
    refine h.only n rfl rfl (fun m hm => by simp [hm]) ?_
    simpa using (hidle ▸ h.node n).set hpos info
  | sadd n =>
    simp only [Nodes.step] at hs
    split at hs
    case h_2 => simp at hs
    case h_1 d hn =>
      obtain rfl := Option.some.inj hs
      obtain rfl := (h.node n).adding d hn
      refine h.only n rfl rfl (fun m hm => by simp [hm]) ?_
      simpa using (hn ▸ h.node n).sadd
  | pexpire n =>
    simp only [Nodes.step] at hs
    split at hs
    case h_2 => simp at hs
    case h_1 d hn =>
      obtain rfl := Option.some.inj hs
      obtain rfl := (h.node n).expiring d hn
      refine ⟨fun t ht => ?_, fun m => ?_⟩
      · simp only [State.setRegister] at ht ⊢
        split at ht
        · simp at ht
        · exact (Option.some.inj ht).ge
      · have hset : m ∈ s.ids → (if s.ids = ∅ then none else
            some (s.now + formatMs (3 * d))) = some (s.now + formatMs (3 * d)) :=
          fun hm => if_neg (Finset.ne_empty_of_mem hm)
        by_cases hmn : m = n
        · subst hmn
          simpa using (hn ▸ h.node m).pexpire hpos hset
        · simpa [hmn] using (h.node m).deadline_mono
            fun hm t ht => ⟨_, hset hm, h.deadline t ht⟩
  | del n =>
    obtain ⟨-, rfl⟩ := Lts.taken hs
    refine h.only n rfl rfl (fun m hm => by simp [hm]) ?_
    simpa using NodeInv.del
  | srem n =>
    obtain ⟨hn, rfl⟩ := Lts.taken hs
    have hnone := (h.node n).removing hn
    have hidle : Inv ttl (s.setRegister n .idle) := by
      refine h.only n rfl rfl (fun m hm => by simp [hm]) ?_
      have hup := (h.node n).up
      simp only [State.setRegister, update_self, hnone] at hup ⊢
      refine ⟨by simp, by simp, by simp, fun _ => rfl, by simp, fun hu => ?_⟩
      obtain ⟨-, e, -, he, -⟩ := hup hu
      simp at he
    exact hidle.remove (by simpa using hnone)
  | smembers c =>
    simp only [Nodes.step] at hs
    split at hs
    · obtain rfl := Option.some.inj hs
      exact ⟨h.deadline, h.node⟩
    · simp at hs
  | mget c =>
    simp only [Nodes.step] at hs
    split at hs
    · obtain rfl := Option.some.inj hs
      exact ⟨h.deadline, h.node⟩
    · simp at hs
  | prune c =>
    simp only [Nodes.step] at hs
    split at hs
    case h_2 => simp at hs
    case h_1 out gone hc =>
      obtain rfl := Option.some.inj hs
      refine Inv.remove (s := s.setLister c (.returned out)) ⟨h.deadline, h.node⟩ fun n hn => ?_
      exact Option.isNone_iff_eq_none.1 (hg n (by rw [hc]; exact hn))

theorem inv_of_reach (hpos : 0 < ttl) (h : system.Reach (Orderly ttl) s) : Inv ttl s := by
  refine h.invariant ⟨by simp [system], fun n => ⟨?_, ?_, ?_, ?_, ?_, ?_⟩⟩
    fun _ _ _ _ hi hg hs => hi.step hpos hg hs
  all_goals simp [system]

/-- A `LiveNodes` call that nothing interrupts returns the ids of the set that have an entry. -/
theorem liveNodes_alone {c : κ} (hc : s.lister c = .idle) (hne : s.ids ≠ ∅) :
    ∃ t, system.execFrom s [.smembers c, .mget c, .prune c] = some t ∧
      t.lister c = .returned fun n => if n ∈ s.ids then (s.node n).map Entry.info else none := by
  refine ⟨_, by simp [Lts.execFrom, system, step, hc, hne, State.setLister]; rfl, ?_⟩
  simp [State.remove]

/-- **The set is complete.**  In every run in which all registrations have one time to live, the set
does not run out within a registration, and `LiveNodes` removes only ids whose entries are still
gone: the id of a node whose `RegisterNode` or `RefreshNode` has returned is in the set, and
`LiveNodes` returns it, until its entry expires or it deregisters. -/
theorem up_listed (hpos : 0 < ttl) (h : system.Reach (Orderly ttl) s) (hn : s.up n = true) :
    n ∈ s.ids ∧ ∀ c, s.lister c = .idle → ∃ t out e,
      system.execFrom s [.smembers c, .mget c, .prune c] = some t ∧ t.lister c = .returned out ∧
      s.node n = some e ∧ out n = some e.info := by
  obtain ⟨hmem, e, -, he, -⟩ := ((inv_of_reach hpos h).node n).up hn
  refine ⟨hmem, fun c hc => ?_⟩
  obtain ⟨t, hexec, ht⟩ := liveNodes_alone hc (Finset.ne_empty_of_mem hmem)
  exact ⟨t, _, e, hexec, ht, he, by simp [hmem, he]⟩

end Step

instance (ttl : Int) (s : State Bool Unit Unit) (a : Act Bool Unit Unit) :
    Decidable (Orderly ttl s a) := by
  unfold Orderly; split <;> infer_instance

/-- The commands of a `RegisterNode` or `RefreshNode`. -/
def registration (n : Bool) (ttl : Int) : List (Act Bool Unit Unit) :=
  [.set n () ttl, .sadd n, .pexpire n]

/-- A node registers again between the `MGET` and the `SREM` of a `LiveNodes`, which takes its id
out.  A registration adds its id to a set that runs out before the `PEXPIRE`.  And a node with a
time to live of a second takes the set away from one with thirty. -/
theorem up_not_listed :
    (∃ s : State Bool Unit Unit, system.Reach Lts.always s ∧
      s.up false = true ∧ (s.node false).isSome = true ∧ false ∉ s.ids ∧ s.now = 30000) ∧
    (∃ s : State Bool Unit Unit, system.Reach Lts.always s ∧
      s.up true = true ∧ (s.node true).isSome = true ∧ true ∉ s.ids ∧ s.now = 90000) ∧
    (∃ s : State Bool Unit Unit, system.Reach Lts.always s ∧
      s.up false = true ∧ (s.node false).isSome = true ∧ false ∉ s.ids ∧ s.now = 3000) := by
  refine ⟨?_, ?_, ?_⟩
  · exact Lts.exists_reach_of_any (g := Lts.always) (l := registration false (30 * second) ++
      [Act.tick 30000, .smembers (), .mget ()] ++ registration false (30 * second) ++
      [Act.prune ()]) (by decide +kernel)
  · exact Lts.exists_reach_of_any (g := Lts.always) (l := registration false (30 * second) ++
      [Act.tick 89999, .set true () (30 * second), .sadd true, .tick 1, .pexpire true])
      (by decide +kernel)
  · exact Lts.exists_reach_of_any (g := Lts.always) (l := registration false (30 * second) ++
      registration true second ++ [Act.tick 3000]) (by decide +kernel)

/-- The second node's id is pruned after its entry has expired, and is back with its next
registration. -/
theorem up_listed_after_prune :
    ∃ s : State Bool Unit Unit, system.Reach (Orderly (30 * second)) s ∧
      s.up false = true ∧ s.up true = true ∧ false ∈ s.ids ∧ true ∈ s.ids := by
  obtain ⟨s, hreach, hf, ht⟩ := Lts.exists_reach_of_any (L := system) (g := Orderly (30 * second))
    (l := registration false (30 * second) ++ registration true (30 * second) ++
      [Act.tick 10000] ++ registration false (30 * second) ++
      [Act.tick 20000, .smembers (), .mget (), .prune ()] ++ registration true (30 * second))
    (P := fun s => s.up false = true ∧ s.up true = true) (by decide +kernel)
  exact ⟨s, hreach, hf, ht, (up_listed (by decide) hreach hf).1,
    (up_listed (by decide) hreach ht).1⟩

end Tunneld.Nodes

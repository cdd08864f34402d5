import Tunneld.Lib.Lts
import Mathlib.Data.Fintype.Basic

/-!
# Whose challenge is stored

While an order is validated, its key authorization is stored under `acme:alpn:{domain}`, where
every node finds it.  There is one key for a domain, and another order for the same domain may come
before the first one has cleaned up: the next authority's, or another node's.  `PutTLSALPN` stores
with `SETNX`, so it never replaces a challenge, and `DeleteTLSALPN` reads first and only deletes
what is its own order's.

The read and the delete are two commands.  One delete at a time is safe: between its read and its
`DEL` nobody else can take the challenge away, so nobody else can store one.  But an order may
delete twice at once: when its attempt is abandoned, `settle` runs the order's cleanup while the
ACME library, still on its way out, runs its own.  Both read the order's challenge, the first
deletes it, the next order stores its own, and the second `DEL` takes that one.

`step` is that system for any number of calls `κ` and any orders `ω`, one command at a time.  A
command may also fail, and then it may have been carried out or not.

## Main results

* `effect_of_step`: what one command does to the calls and to the keys;
* `deletes_its_own`: where an order's deletes do not overlap, no challenge is taken by another
  order;
* `second_delete_takes_another`: where they do, one is.
-/

namespace Tunneld.Challenge

open Function

/-- The key of the challenge for a domain. -/
def alpnChallengeKey (domain : String) : String := "acme:alpn:" ++ domain.toLower

/-- The orders, each with a key authorization of its own. -/
structure Orders (ω : Type) where
  keyAuth : ω → String
  /-- No two orders have the same one. -/
  distinct : Function.Injective keyAuth

/-- The challenge of an order for a domain. -/
structure Pending (ω : Type) where
  domain : String
  order : ω
  deriving DecidableEq

/-- Where the challenge is stored. -/
def Pending.key {ω : Type} (c : Pending ω) : String := alpnChallengeKey c.domain

/-- Why `PutTLSALPN` failed. -/
inductive PutError
  /-- `ErrChallengePending`. -/
  | pending
  /-- `ErrChallengeStore`. -/
  | store
  deriving DecidableEq

/-- Where a call stands. -/
inductive Phase (ω : Type)
  | idle
  /-- `PutTLSALPN` at its `SETNX`, with `left` rounds to come after this one. -/
  | setNX (c : Pending ω) (left : Nat)
  /-- `PutTLSALPN` at its `GET`. -/
  | read (c : Pending ω) (left : Nat)
  /-- `PutTLSALPN` has returned `nil`. -/
  | stored (c : Pending ω)
  /-- `PutTLSALPN` has returned an error. -/
  | refused (c : Pending ω) (err : PutError)
  /-- `DeleteTLSALPN` at its `GET`. -/
  | get (c : Pending ω)
  /-- `DeleteTLSALPN` at its `DEL`. -/
  | del (c : Pending ω)
  /-- `DeleteTLSALPN` has returned, without an error or with one. -/
  | deleted (c : Pending ω) (ok : Bool)
  deriving DecidableEq

/-- The challenge that a delete is about to read. -/
def Phase.reading {ω : Type} : Phase ω → Option (Pending ω)
  | .get c => some c
  | _ => none

/-- The challenge that a delete is about to remove. -/
def Phase.deleting {ω : Type} : Phase ω → Option (Pending ω)
  | .del c => some c
  | _ => none

/-- The store, and the calls. -/
structure State (ω κ : Type) where
  /-- The challenges that are stored, by their keys. -/
  store : String → Option String
  phase : κ → Phase ω

/-- What can happen next. -/
inductive Act (ω κ : Type)
  | putTLSALPN (k : κ) (c : Pending ω)
  | deleteTLSALPN (k : κ) (c : Pending ω)
  | cmd (k : κ)
  /-- The next command of a call fails, after it was carried out or before. -/
  | fail (k : κ) (done : Bool)

variable {ω κ : Type} [DecidableEq κ]

/-- The call that an action is about. -/
def Act.call : Act ω κ → κ
  | .putTLSALPN k _ | .deleteTLSALPN k _ | .cmd k | .fail k _ => k

/-- A call is now somewhere else. -/
def State.goto (s : State ω κ) (k : κ) (p : Phase ω) : State ω κ :=
  { s with phase := update s.phase k p }

/-- A key has a new value, or none. -/
def State.write (s : State ω κ) (key : String) (v : Option String) : State ω κ :=
  { s with store := update s.store key v }

/-- `SETNX`: the state after it, and whether it stored the value. -/
def State.setNX (s : State ω κ) (key v : String) : State ω κ × Bool :=
  match s.store key with
  | none => (s.write key (some v), true)
  | some _ => (s, false)

/-- The state after an action, if it is possible. -/
def step (orders : Orders ω) (s : State ω κ) : Act ω κ → Option (State ω κ)
  | .putTLSALPN k c =>
    match s.phase k with
    | .idle => some (s.goto k (.setNX c 1))
    | _ => none
  | .deleteTLSALPN k c =>
    match s.phase k with
    | .idle => some (s.goto k (.get c))
    | _ => none
  | .cmd k =>
    match s.phase k with
    | .setNX c left =>
      match s.setNX c.key (orders.keyAuth c.order) with
      | (s', true) => some (s'.goto k (.stored c))
      | (s', false) => some (s'.goto k (.read c left))
    | .read c left =>
      match s.store c.key with
      | some v =>
        if v = orders.keyAuth c.order then some (s.goto k (.stored c))
        else some (s.goto k (.refused c .pending))
      | none =>
        match left with
        | 0 => some (s.goto k (.refused c .pending))
        | n + 1 => some (s.goto k (.setNX c n))
    | .get c =>
      if s.store c.key = some (orders.keyAuth c.order) then some (s.goto k (.del c))
      else some (s.goto k (.deleted c true))
    | .del c => some ((s.write c.key none).goto k (.deleted c true))
    | .idle | .stored _ | .refused .. | .deleted .. => none
  | .fail k done =>
    match s.phase k with
    | .setNX c _ =>
      let s' := if done then (s.setNX c.key (orders.keyAuth c.order)).1 else s
      some (s'.goto k (.refused c .store))
    | .read c _ => some (s.goto k (.refused c .store))
    | .get c => some (s.goto k (.deleted c false))
    | .del c =>
      let s' := if done then s.write c.key none else s
      some (s'.goto k (.deleted c false))
    | .idle | .stored _ | .refused .. | .deleted .. => none

/-- The calls, from an empty store. -/
def system (orders : Orders ω) : Lts (State ω κ) (Act ω κ) :=
  ⟨⟨fun _ => none, fun _ => .idle⟩, step orders⟩

/-! ## What a step does -/

/-- What a step of call `k` does to the store, and what it has seen there. -/
inductive Effect (orders : Orders ω) (s t : State ω κ) (k : κ) (p : Phase ω) : Prop
  /-- The store is as it was; a delete goes on only if its order's challenge is there, and a put
  returns only then. -/
  | reads (hstore : t.store = s.store)
      (hdel : ∀ c, p = .del c → s.phase k = .get c ∧ s.store c.key = some (orders.keyAuth c.order))
      (hput : ∀ c, p = .stored c → s.store c.key = some (orders.keyAuth c.order))
  /-- A challenge is stored where there was none. -/
  | stores (c : Pending ω) (hnone : s.store c.key = none)
      (hstore : t.store = update s.store c.key (some (orders.keyAuth c.order)))
      (hp : p = .stored c ∨ p = .refused c .store)
  /-- A delete removes what is stored. -/
  | deletes (c : Pending ω) (ok : Bool) (hk : s.phase k = .del c)
      (hstore : t.store = update s.store c.key none) (hp : p = .deleted c ok)

variable {orders : Orders ω} {s t : State ω κ} {a : Act ω κ} {k : κ} {p : Phase ω}

theorem Effect.quiet (hd : p.deleting = none) (hs : ∀ c, p ≠ .stored c) :
    Effect orders s (s.goto k p) k p :=
  .reads rfl (fun c hc => by rw [hc] at hd; cases hd) fun c hc => absurd hc (hs c)

omit [DecidableEq κ] in
/-- `SETNX` stores the value where there is none, and does nothing otherwise. -/
theorem setNX_cases (s : State ω κ) (key v : String) :
    (s.store key = none ∧ s.setNX key v = (s.write key (some v), true)) ∨
      s.setNX key v = (s, false) := by
  unfold State.setNX
  split
  case h_1 hnone => exact .inl ⟨hnone, rfl⟩
  · exact .inr rfl

theorem effect_of_step (h : step orders s a = some t) :
    ∃ p, t.phase = update s.phase a.call p ∧ Effect orders s t a.call p := by
  cases a with
  | putTLSALPN k c =>
    simp only [step] at h
    split at h <;> cases h
    exact ⟨_, rfl, .quiet rfl (by simp)⟩
  | deleteTLSALPN k c =>
    simp only [step] at h
    split at h <;> cases h
    exact ⟨_, rfl, .quiet rfl (by simp)⟩
  | cmd k =>
    simp only [step] at h
    split at h
    case h_1 c left hk =>
      obtain ⟨hnone, hset⟩ | hset := setNX_cases s c.key (orders.keyAuth c.order)
      · rw [hset] at h
        cases h
        exact ⟨_, rfl, .stores c hnone rfl (.inl rfl)⟩
      · rw [hset] at h
        cases h
        exact ⟨_, rfl, .quiet rfl (by simp)⟩
    case h_2 c left hk =>
      split at h
      case h_1 v hv =>
        split at h <;> rename_i hown <;> cases h
        · refine ⟨_, rfl, .reads rfl (by simp) fun c' hc => ?_⟩
          cases hc
          rw [hv, hown]
        · exact ⟨_, rfl, .quiet rfl (by simp)⟩
      case h_2 =>
        split at h <;> cases h <;> exact ⟨_, rfl, .quiet rfl (by simp)⟩
    case h_3 c hk =>
      split at h <;> rename_i hown <;> cases h
      · refine ⟨_, rfl, .reads rfl (fun c' hc => ?_) (by simp)⟩
        cases hc
        exact ⟨hk, hown⟩
      · exact ⟨_, rfl, .quiet rfl (by simp)⟩
    case h_4 c hk =>
      cases h
      exact ⟨_, rfl, .deletes c true hk rfl rfl⟩
    all_goals cases h
  | fail k done =>
    simp only [step] at h
    split at h
    case h_1 c left hk =>
      cases h
      obtain ⟨hnone, hset⟩ | hset := setNX_cases s c.key (orders.keyAuth c.order)
      · rw [hset]
        cases done with
        | false => exact ⟨_, rfl, .quiet rfl (by simp)⟩
        | true => exact ⟨_, rfl, .stores c hnone rfl (.inr rfl)⟩
      · rw [hset, ite_self]
        exact ⟨_, rfl, .quiet rfl (by simp)⟩
    case h_4 c hk =>
      cases h
      cases done with
      | false => exact ⟨_, rfl, .quiet rfl (by simp)⟩
      | true => exact ⟨_, rfl, .deletes c false hk rfl rfl⟩
    all_goals cases h
    all_goals exact ⟨_, rfl, .quiet rfl (by simp)⟩

/-! ## One delete of an order at a time -/

/-- Two challenges are of the same order, under the same key. -/
def Pending.Same (c d : Pending ω) : Prop := c.order = d.order ∧ c.key = d.key

instance [DecidableEq ω] (c d : Pending ω) :
    Decidable (c.Same d) := inferInstanceAs (Decidable (_ ∧ _))

/-- The runs in which an order's deletes do not overlap: none reads while another one of the same
challenge stands between its read and its `DEL`. -/
def OneDelete (s : State ω κ) (a : Act ω κ) : Prop :=
  ∀ c ∈ (s.phase a.call).reading, ∀ j, ∀ d ∈ (s.phase j).deleting, ¬ d.Same c

instance [DecidableEq ω] [Fintype κ] (s : State ω κ) (a : Act ω κ) :
    Decidable (OneDelete s a) := by
  unfold OneDelete; infer_instance

/-- The challenge that a delete is about to remove is its order's, and no other delete is about to
remove it. -/
structure Owned (orders : Orders ω) (s : State ω κ) : Prop where
  own : ∀ k c, s.phase k = .del c → s.store c.key = some (orders.keyAuth c.order)
  one : ∀ j k c d, s.phase j = .del c → s.phase k = .del d → c.key = d.key → j = k

omit [DecidableEq κ] in
/-- Two deletes under one key are of the same order. -/
theorem Owned.same (ho : Owned orders s) {c d : Pending ω} (hk : s.phase k = .del c)
    (hkey : c.key = d.key) (hd : s.store d.key = some (orders.keyAuth d.order)) : c.Same d := by
  have hc := ho.own k c hk
  rw [hkey, hd, Option.some_inj] at hc
  exact ⟨orders.distinct hc.symm, hkey⟩

variable {c : Pending ω}

theorem del_of_update {j k : κ} (ht : t.phase = update s.phase k p) (hj : t.phase j = .del c) :
    (j = k ∧ p = .del c) ∨ (j ≠ k ∧ s.phase j = .del c) := by
  rw [ht] at hj
  by_cases hjk : j = k
  · subst hjk
    rw [update_self] at hj
    exact .inl ⟨rfl, hj⟩
  · rw [update_of_ne hjk] at hj
    exact .inr ⟨hjk, hj⟩

theorem del_of_other {j k : κ} (ht : t.phase = update s.phase k p) (hp : p.deleting = none)
    (hj : t.phase j = .del c) : j ≠ k ∧ s.phase j = .del c := by
  obtain ⟨-, hc⟩ | hold := del_of_update ht hj
  · rw [hc] at hp
    cases hp
  · exact hold

/-- A read finds the challenge of its own order, and no other delete of it is under way. -/
theorem Owned.reads (ho : Owned orders s) (ht : t.phase = update s.phase k p)
    (hstore : t.store = s.store)
    (hown : ∀ c, p = .del c → s.store c.key = some (orders.keyAuth c.order))
    (hone : ∀ c, p = .del c → ∀ j d, s.phase j = .del d → ¬ d.Same c) : Owned orders t := by
  constructor
  · intro j c hj
    rw [hstore]
    obtain ⟨-, hc⟩ | ⟨-, hold⟩ := del_of_update ht hj
    · exact hown c hc
    · exact ho.own j c hold
  · intro i j c d hi hj hkey
    obtain ⟨rfl, hc⟩ | ⟨-, hi⟩ := del_of_update ht hi <;>
      obtain ⟨rfl, hd⟩ | ⟨-, hj⟩ := del_of_update ht hj
    · rfl
    · exact absurd (ho.same hj hkey.symm (hown c hc)) (hone c hc j d hj)
    · exact absurd (ho.same hi hkey (hown d hd)) (hone d hd i c hi)
    · exact ho.one i j c d hi hj hkey

variable {key : String}

/-- One key is written, and the deletes that are under way are under other keys. -/
theorem Owned.writes {v : Option String} (ho : Owned orders s) (ht : t.phase = update s.phase k p)
    (hstore : t.store = update s.store key v) (hp : p.deleting = none)
    (hkey : ∀ j c, j ≠ k → s.phase j = .del c → c.key ≠ key) : Owned orders t := by
  constructor
  · intro j c hj
    obtain ⟨hjk, hj⟩ := del_of_other ht hp hj
    rw [hstore, update_of_ne (hkey j c hjk hj)]
    exact ho.own j c hj
  · intro i j c d hi hj
    exact ho.one i j c d (del_of_other ht hp hi).2 (del_of_other ht hp hj).2

omit [DecidableEq κ] in
theorem Owned.no_del_of_none (ho : Owned orders s) (hnone : s.store key = none)
    (hk : s.phase k = .del c) : c.key ≠ key := by
  intro hkey
  have hown := ho.own k c hk
  rw [hkey, hnone] at hown
  cases hown

theorem Owned.step (ho : Owned orders s) (hg : OneDelete s a) (h : step orders s a = some t) :
    Owned orders t := by
  obtain ⟨p, ht, heff⟩ := effect_of_step h
  cases heff with
  | reads hstore hdel hput =>
    refine ho.reads ht hstore (fun c hc => (hdel c hc).2) fun c hc j d hj => ?_
    exact hg c (by rw [(hdel c hc).1]; rfl) j d (by rw [hj]; rfl)
  | stores c hnone hstore hp =>
    exact ho.writes ht hstore (by obtain rfl | rfl := hp <;> rfl)
      fun j d _ hj => ho.no_del_of_none hnone hj
  | deletes c ok hk hstore hp =>
    exact ho.writes ht hstore (by rw [hp]; rfl) fun j d hjk hj hkey =>
      hjk (ho.one j _ d c hj hk hkey)

theorem owned_of_reach (h : (system orders).Reach OneDelete s) : Owned orders s := by
  have hinit : Owned orders (system (κ := κ) orders).init := ⟨by simp [system], by simp [system]⟩
  exact h.invariant hinit fun _ _ _ _ ho hg hs => ho.step hg hs

/-! ## A challenge stays until its order deletes it -/

/-- An action that is no `DEL` of the challenge. -/
def Spares (c : Pending ω) (s : State ω κ) (a : Act ω κ) : Prop :=
  ∀ d ∈ (s.phase a.call).deleting, ¬ d.Same c

/-- A challenge is stored, and the deletes under way under its key are its order's. -/
structure Stays (orders : Orders ω) (c : Pending ω) (s : State ω κ) : Prop where
  stored : s.store c.key = some (orders.keyAuth c.order)
  own : ∀ k d, s.phase k = .del d → d.key = c.key → d.Same c

/-- Another key is written, and no delete of the challenge is begun. -/
theorem Stays.writes {v : Option String} (hc : Stays orders c s) (ht : t.phase = update s.phase k p)
    (hstore : t.store = update s.store key v) (hp : p.deleting = none) (hkey : c.key ≠ key) :
    Stays orders c t := by
  constructor
  · rw [hstore, update_of_ne hkey]
    exact hc.stored
  · exact fun j d hj => hc.own j d (del_of_other ht hp hj).2

theorem Stays.step (hc : Stays orders c s) (hg : Spares c s a) (h : step orders s a = some t) :
    Stays orders c t := by
  obtain ⟨p, ht, heff⟩ := effect_of_step h
  cases heff with
  | reads hstore hdel hput =>
    refine ⟨hstore ▸ hc.stored, fun j d hj hkey => ?_⟩
    obtain ⟨-, hd⟩ | ⟨-, hj⟩ := del_of_update ht hj
    · have hown := (hdel d hd).2
      rw [hkey, hc.stored, Option.some_inj] at hown
      exact ⟨orders.distinct hown.symm, hkey⟩
    · exact hc.own j d hj hkey
  | stores d hnone hstore hp =>
    refine hc.writes ht hstore (by obtain rfl | rfl := hp <;> rfl) fun hkey => ?_
    have hstored := hc.stored
    rw [hkey, hnone] at hstored
    cases hstored
  | deletes d ok hk hstore hp =>
    exact hc.writes ht hstore (by rw [hp]; rfl) fun hkey =>
      hg d (by rw [hk]; rfl) (hc.own _ d hk hkey.symm)

/-- When a put returns, its challenge is stored. -/
theorem Owned.stays (ho : Owned orders s) (h : Challenge.step orders s a = some t)
    (hs : s.phase k ≠ .stored c) (hk : t.phase k = .stored c) : Stays orders c t := by
  obtain ⟨p, ht, heff⟩ := effect_of_step h
  have hp : p = .stored c := by
    rw [ht] at hk
    by_cases hka : k = a.call
    · subst hka
      rwa [update_self] at hk
    · rw [update_of_ne hka] at hk
      exact absurd hk hs
  have hold {j : κ} {d : Pending ω} (hj : t.phase j = .del d) : s.phase j = .del d :=
    (del_of_other ht (by rw [hp]; rfl) hj).2
  cases heff with
  | reads hstore hdel hput =>
    have hstored := hput c hp
    exact ⟨hstore ▸ hstored, fun j d hj hkey => ho.same (hold hj) hkey hstored⟩
  | stores d hnone hstore hd =>
    obtain rfl : c = d := by simpa [hp] using hd
    refine ⟨by rw [hstore, update_self], fun j e hj hkey => ?_⟩
    exact absurd hkey (ho.no_del_of_none hnone (hold hj))
  | deletes d ok _ hstore hd =>
    rw [hp] at hd
    cases hd

/-- **A challenge is its order's own, where an order's deletes do not overlap.**  A delete that is
about to remove what is stored under its key never removes another order's challenge, and a
challenge whose put has returned is stored until a `DEL` for that order. -/
theorem deletes_its_own (h : (system orders).Reach OneDelete s) :
    (∀ k c, s.phase k = .del c → ∀ o, o ≠ c.order → s.store c.key ≠ some (orders.keyAuth o)) ∧
    ∀ a t k c, step orders s a = some t → s.phase k ≠ .stored c → t.phase k = .stored c →
      ∀ u, (system orders).Later (Spares c) t u →
        u.store c.key = some (orders.keyAuth c.order) := by
  have ho := owned_of_reach h
  constructor
  · intro k c hk o hne ho'
    rw [ho.own k c hk, Option.some_inj] at ho'
    exact hne (orders.distinct ho'.symm)
  · intro a t k c hstep hs ht u hl
    have hstays : Stays orders c u :=
      hl.stable (fun _ _ _ hc hg hs => hc.step hg hs) (ho.stays hstep hs ht)
    exact hstays.stored

/-- Two orders. -/
def twoOrders : Orders Bool where
  keyAuth o := if o then "t2.account" else "t1.account"
  distinct := by decide

/-- The challenge of each of them for one domain. -/
def ofHost (o : Bool) : Pending Bool := ⟨"Host.Example", o⟩

/-- Order `false` deletes twice at once.  The second `DEL` comes when order `true` has stored its
challenge, and takes it. -/
theorem second_delete_takes_another :
    ∃ s : State Bool (Fin 4), (system twoOrders).Reach Lts.always s ∧
      s.phase 2 = .del (ofHost false) ∧ s.phase 3 = .stored (ofHost true) ∧
      s.store "acme:alpn:host.example" = some (twoOrders.keyAuth true) ∧
      (step twoOrders s (.cmd 2)).map (fun t => t.store "acme:alpn:host.example") = some none := by
  have hrun : ((system twoOrders).execWith Lts.always (system twoOrders).init
      [.putTLSALPN 0 (ofHost false), .cmd 0,
        .deleteTLSALPN (1 : Fin 4) (ofHost false), .deleteTLSALPN 2 (ofHost false),
        .cmd 1, .cmd 2, .cmd 1, .putTLSALPN 3 (ofHost true), .cmd 3]).any (fun s =>
      s.phase 2 = .del (ofHost false) ∧ s.phase 3 = .stored (ofHost true) ∧
      s.store "acme:alpn:host.example" = some (twoOrders.keyAuth true) ∧
      (step twoOrders s (.cmd 2)).map (fun t => t.store "acme:alpn:host.example") = some none) =
      true := by
    decide +kernel
  exact Lts.exists_reach_of_any hrun

/-- One delete at a time: order `false` is about to delete its own challenge, and order `true`
stores one for another domain. -/
theorem one_delete_takes_its_own :
    ∃ s t : State Bool (Fin 3), (system twoOrders).Reach OneDelete s ∧
      s.store (ofHost false).key ≠ some (twoOrders.keyAuth true) ∧
      t.store (alpnChallengeKey "other") = some (twoOrders.keyAuth true) := by
  have hrun : ((system twoOrders).execWith OneDelete (system twoOrders).init
      [.putTLSALPN 0 (ofHost false), .cmd 0, .deleteTLSALPN (1 : Fin 3) (ofHost false), .cmd 1,
        .putTLSALPN 2 ⟨"other", true⟩]).any (fun s =>
      s.phase 1 = .del (ofHost false) ∧ s.phase 2 ≠ .stored ⟨"other", true⟩ ∧
      (step twoOrders s (.cmd 2)).any (fun t => t.phase 2 = .stored ⟨"other", true⟩)) = true := by
    decide +kernel
  obtain ⟨s, hreach, hdel, hnot, hnext⟩ := Lts.exists_reach_of_any hrun
  obtain ⟨t, hstep, ht⟩ := (Option.any_eq_true _ _).1 hnext
  have hown := deletes_its_own hreach
  refine ⟨s, t, hreach, hown.1 1 _ hdel true (by decide), ?_⟩
  exact hown.2 _ t 2 _ hstep hnot (of_decide_eq_true ht) t Relation.ReflTransGen.refl

end Tunneld.Challenge

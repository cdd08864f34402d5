import Tunneld.Lib.Lts
import Tunneld.Lib.SortedSet

/-!
# Renewing the certificate of a reserved host

The replicas serve the enroll and the control host with certificates of their own.  They share
them: a replica that issues one publishes it under `acme:self-cert:{host}`, and a replica that
finds one there takes it instead of ordering.  `issue` runs under a lock of the host, so that
replicas whose certificates fall due together do not order together: the first publishes before it
releases the lock, and the next one finds what it published.

`adoptShared` decides whether to take a certificate.  It is used at every check, where a replica
takes a certificate only if it expires later than its own, and again under the lock, where it is
meant to take any that is valid and not due.  But the comparison with its own certificate is made
there too.  The authorities have different rules for when a certificate is due, so one that expires
earlier can be due later: a replica whose own certificate is due turns down a fresh one, and orders.

`step` is that system for one host and any number of replicas `ρ`.  What the shared store, the lock
and the authorities answer are arguments of the steps.  Times are nanoseconds since the zero
`time.Time`.

## Main results

* `expired_or_due`: why a certificate is turned down under the lock;
* `fresh_certificate_is_taken`: no order in spite of a fresh certificate, if the one that is shared
  expires later than the one held;
* `orders_despite_a_fresh_certificate`: an order where it expires earlier.
-/

namespace Tunneld.Reserved

open Function Clock

/-! ## When a certificate is due -/

/-- What `store.CertInfo` says of a certificate, as far as it matters here. -/
structure CertInfo where
  ca : String
  notBefore : Int
  notAfter : Int
  deriving DecidableEq

/-- The settings. -/
structure Config where
  /-- `--acme-renew-margin`. -/
  renewMargin : Int
  /-- `ShortlivedLifetime`. -/
  shortlived : Int

/-- An hour. -/
def hour : Int := 3600 * second

/-- What a replica has of an authority. -/
inductive Client
  /-- It does not know the authority. -/
  | unknown
  | unbuilt
  | built
  deriving DecidableEq

/-- `UseARI` is set for Let's Encrypt only. -/
def useARI (ca : String) : Bool := ca = "letsencrypt"

/-- `legoClient.shouldRenew`: whether the certificate is due, and when it is. -/
def legoShouldRenew (cfg : Config) (cur : CertInfo) (now : Int) : Bool × Int :=
  if useARI cur.ca then
    let renewAt := cur.notAfter - cfg.renewMargin
    (renewAt ≤ now, renewAt)
  else
    let renewAt := cur.notBefore + (cfg.shortlived - cfg.renewMargin)
    (renewAt ≤ now, renewAt)

/-- `lazyCA.shouldRenew` before the client is built. -/
def unbuiltShouldRenew (cfg : Config) (cur : CertInfo) (now : Int) : Bool × Int :=
  let shortlived := if cfg.shortlived ≤ 0 then 160 * hour else cfg.shortlived
  let margin := if cfg.renewMargin ≤ 0 then 48 * hour else cfg.renewMargin
  let renewAt := cur.notBefore + (shortlived - margin)
  (renewAt ≤ now, renewAt)

/-- `chainIssuer.ShouldRenew`.  It returns no error. -/
def shouldRenew (cfg : Config) (clients : String → Client) (cur : CertInfo) (now : Int) :
    Bool × Int :=
  match clients cur.ca with
  | .unknown =>
    let renewAt := cur.notBefore + (cfg.shortlived - cfg.renewMargin)
    (renewAt ≤ now, renewAt)
  | .unbuilt => unbuiltShouldRenew cfg cur now
  | .built => legoShouldRenew cfg cur now

/-- The certificate is due. -/
def due (cfg : Config) (clients : String → Client) (cur : CertInfo) (now : Int) : Bool :=
  (shouldRenew cfg clients cur now).1

/-- When a certificate is due depends on the clients, and not on when one asks. -/
theorem exists_renewAt (cfg : Config) (clients : String → Client) (cur : CertInfo) :
    ∃ renewAt, ∀ now, due cfg clients cur now = decide (renewAt ≤ now) := by
  unfold due shouldRenew
  split
  · exact ⟨_, fun _ => rfl⟩
  · exact ⟨_, fun _ => rfl⟩
  · unfold legoShouldRenew
    split <;> exact ⟨_, fun _ => rfl⟩

variable {clients : String → Client} {now now' : Int}

/-- A certificate that is due stays due. -/
theorem due_mono {cfg : Config} {cur : CertInfo} (hle : now ≤ now')
    (h : due cfg clients cur now = true) : due cfg clients cur now' = true := by
  obtain ⟨renewAt, hat⟩ := exists_renewAt cfg clients cur
  rw [hat, decide_eq_true_eq] at *
  exact h.trans hle

/-! ## The shared certificate -/

/-- What stands in the shared store. -/
inductive Raw
  /-- It is no `certBundle`. -/
  | garbage
  /-- A bundle: whether its key pair can be used, its details, and when its first certificate
  expires, if that can be read. -/
  | bundle (pair : Bool) (info : CertInfo) (leaf : Option Int)
  deriving DecidableEq

/-- The details that `adoptShared` reads, if it can use the bundle.  A bundle without an expiry date
is given that of its certificate. -/
def Raw.info : Raw → Option CertInfo
  | .garbage | .bundle false _ _ => none
  | .bundle true info leaf =>
    if info.notAfter = 0 then leaf.map fun na => { info with notAfter := na } else some info

/-- Whether `adoptShared` takes a certificate, where it reads the clock twice. -/
def takes (cfg : Config) (clients : String → Client) (held : Option CertInfo)
    (requireNotDue : Bool) (c : CertInfo) (now now' : Int) : Bool :=
  if c.notAfter ≤ now then false
  else if held.any fun i => c.notAfter ≤ i.notAfter then false
  else if requireNotDue && due cfg clients c now' then false
  else true

/-! ## The system -/

/-- A certificate that was found under the lock and not taken: whether it was expired, and whether
`shouldRenew` reports it due. -/
structure Found where
  cert : CertInfo
  expired : Bool
  due : Bool
  deriving DecidableEq

/-- How a replica comes to order. -/
inductive Ticket
  /-- The lock could not be taken because of an error. -/
  | unlocked
  /-- It holds the lock, and this is the certificate it found in the shared store. -/
  | locked (found : Option Found)
  deriving DecidableEq

/-- The replica holds the lock. -/
def Ticket.isLocked : Ticket → Bool
  | .unlocked => false
  | .locked _ => true

/-- Where a replica stands in `maybeRenew`. -/
inductive Phase
  /-- It waits for its next check. -/
  | idle
  /-- `adoptShared` reads the shared store. -/
  | read (requireNotDue : Bool)
  /-- `adoptShared` has read a certificate. -/
  | compare (requireNotDue : Bool) (c : CertInfo)
  /-- `maybeRenew` asks whether its own certificate is due. -/
  | check
  /-- `acquire` waits for the lock. -/
  | lock
  | locked
  /-- `issue` is about to order. -/
  | toOrder (ticket : Ticket)
  | ordered (locked : Bool)
  /-- The certificate is issued, and about to be published. -/
  | publish (locked : Bool) (c : CertInfo)
  /-- The lock is about to be released, after this certificate was issued. -/
  | release (issued : Option CertInfo)
  deriving DecidableEq

/-- What came of an order. -/
inductive Result
  /-- An error, or the time limit of the issuance. -/
  | failed (abandoned : Bool)
  /-- A certificate, and whether its key pair can be used. -/
  | issued (pair : Bool) (info : CertInfo)

/-- The replicas of a host. -/
structure State (ρ : Type) where
  now : Int
  /-- What is published. -/
  shared : Option Raw
  lock : Option ρ
  /-- The certificate of each replica. -/
  held : ρ → Option CertInfo
  clients : ρ → String → Client
  phase : ρ → Phase

/-- What can happen next. -/
inductive Act (ρ : Type)
  | maybeRenew (r : ρ)
  /-- `SelfCert` answers. -/
  | selfCert (r : ρ)
  | selfCertFails (r : ρ)
  /-- `adoptShared` decides, and `n` passes between its two looks at the clock. -/
  | adoptShared (r : ρ) (n : Nat)
  /-- `maybeRenew` asks `shouldRenew`. -/
  | shouldRenew (r : ρ)
  | lockSelf (r : ρ)
  | lockSelfFails (r : ρ)
  /-- `acquire` gives up. -/
  | giveUp (r : ρ)
  /-- `issue` goes on with the lock. -/
  | go (r : ρ)
  /-- `issue` stops with the lock: the server shuts down. -/
  | cancel (r : ρ)
  /-- `obtain` is called. -/
  | order (r : ρ)
  /-- `obtain` returns. -/
  | obtained (r : ρ) (res : Result)
  /-- `PutSelfCert`, which the store carries out or not. -/
  | publish (r : ρ) (ok : Bool)
  /-- `releaseLock`, which the store carries out or not. -/
  | release (r : ρ) (ok : Bool)
  /-- The client of an authority is built. -/
  | build (r : ρ) (ca : String)
  | lockExpires
  | sharedExpires
  | tick (n : Nat)

variable {ρ : Type} [DecidableEq ρ]

/-- A replica is now somewhere else. -/
def State.goto (s : State ρ) (r : ρ) (p : Phase) : State ρ :=
  { s with phase := update s.phase r p }

/-- A replica has a new certificate. -/
def State.store (s : State ρ) (r : ρ) (c : CertInfo) : State ρ :=
  { s with held := update s.held r (some c) }

/-- Where a replica goes on after `adoptShared` has taken nothing. -/
def State.notTaken (s : State ρ) (r : ρ) (requireNotDue : Bool) (found : Option Found) : Phase :=
  if requireNotDue then .toOrder (.locked found)
  else if (s.held r).isSome then .check else .lock

/-- Where a replica goes on after `issue`: it releases the lock if it has it. -/
def after (locked : Bool) (issued : Option CertInfo) : Phase :=
  if locked then .release issued else .idle

/-- `issue` has its answer. -/
def State.obtained (s : State ρ) (r : ρ) (locked : Bool) : Result → State ρ
  -- An issuance that is given up at its time limit leaves the lock to run out.
  | .failed abandoned => s.goto r (after (locked && !abandoned) none)
  | .issued false _ => s.goto r (after locked none)
  | .issued true info => (s.store r info).goto r (.publish locked info)

/-- The state after an action, if it is possible. -/
def step (cfg : Config) (s : State ρ) : Act ρ → Option (State ρ)
  | .maybeRenew r =>
    match s.phase r with
    | .idle => some (s.goto r (.read false))
    | _ => none
  | .selfCert r =>
    match s.phase r with
    | .read nd =>
      match s.shared.bind Raw.info with
      | some c => some (s.goto r (.compare nd c))
      | none => some (s.goto r (s.notTaken r nd none))
    | _ => none
  | .selfCertFails r =>
    match s.phase r with
    | .read nd => some (s.goto r (s.notTaken r nd none))
    | _ => none
  | .adoptShared r n =>
    match s.phase r with
    | .compare nd c =>
      let s' := { s with now := s.now + n }
      if takes cfg (s.clients r) (s.held r) nd c s.now s'.now then
        some ((s'.store r c).goto r (if nd then .release none else .check))
      else
        some (s'.goto r (s.notTaken r nd
          (some ⟨c, c.notAfter ≤ s.now, due cfg (s.clients r) c s'.now⟩)))
    | _ => none
  | .shouldRenew r =>
    match s.phase r, s.held r with
    | .check, some c =>
      if due cfg (s.clients r) c s.now then some (s.goto r .lock) else some (s.goto r .idle)
    | _, _ => none
  | .lockSelf r =>
    match s.phase r, s.lock with
    | .lock, none => some ({ s with lock := some r }.goto r .locked)
    | _, _ => none
  | .lockSelfFails r =>
    match s.phase r with
    | .lock => some (s.goto r (.toOrder .unlocked))
    | _ => none
  | .giveUp r =>
    match s.phase r with
    | .lock => some (s.goto r .idle)
    | _ => none
  | .go r =>
    match s.phase r with
    | .locked => some (s.goto r (.read true))
    | _ => none
  | .cancel r =>
    match s.phase r with
    | .locked => some (s.goto r (.release none))
    | _ => none
  | .order r =>
    match s.phase r with
    | .toOrder ticket => some (s.goto r (.ordered ticket.isLocked))
    | _ => none
  | .obtained r res =>
    match s.phase r with
    | .ordered locked => some (s.obtained r locked res)
    | _ => none
  | .publish r ok =>
    match s.phase r with
    | .publish locked c =>
      -- `PutSelfCert` refuses a certificate that has expired.
      if ok && s.now < c.notAfter then
        some ({ s with shared := some (.bundle true c (some c.notAfter)) }.goto r
          (after locked (some c)))
      else some (s.goto r (after locked (some c)))
    | _ => none
  | .release r ok =>
    match s.phase r with
    | .release _ =>
      if ok && s.lock = some r then some ({ s with lock := none }.goto r .idle)
      else some (s.goto r .idle)
    | _ => none
  | .build r ca =>
    match s.clients r ca with
    | .unbuilt => some { s with
        clients := update s.clients r (update (s.clients r) ca .built) }
    | _ => none
  | .lockExpires => some { s with lock := none }
  | .sharedExpires => some { s with shared := none }
  | .tick n => some { s with now := s.now + n }

/-- How the replicas begin. -/
structure Setup (ρ : Type) where
  now : Int
  shared : Option Raw
  /-- What each replica has in its cache. -/
  held : ρ → Option CertInfo
  /-- The authorities each replica is configured for. -/
  clients : ρ → String → Client

/-- The replicas of one host. -/
def system (cfg : Config) (setup : Setup ρ) : Lts (State ρ) (Act ρ) :=
  ⟨⟨setup.now, setup.shared, none, setup.held, setup.clients, fun _ => .idle⟩, step cfg⟩

/-! ## When no order is placed in vain -/

/-- A replica has found its certificate due, and has not yet decided under the lock. -/
def Phase.renewing : Phase → Bool
  | .lock | .locked | .read true | .compare true _ => true
  | _ => false

/-- The certificate that was found under the lock. -/
def Phase.comparing : Phase → Option CertInfo
  | .compare true c => some c
  | _ => none

/-- The certificate that is about to be published under the lock. -/
def Phase.publishing : Phase → Option CertInfo
  | .publish true c => some c
  | _ => none

/-- The runs in which no order is placed in vain.  A certificate found under the lock expires later
than the one the replica holds, if it holds one, or is the one it holds; no client is built on a
replica from its check to that decision; and what is published under the lock has not expired, and
the store carries it out. -/
def Newer (s : State ρ) : Act ρ → Prop
  | .adoptShared r _ => ∀ c ∈ (s.phase r).comparing, ∀ i ∈ s.held r,
      i.notAfter < c.notAfter ∨ i = c
  | .build r _ => (s.phase r).renewing = false
  | .publish r ok => ∀ c ∈ (s.phase r).publishing, ok = true ∧ s.now < c.notAfter
  | _ => True

instance (s : State ρ) (a : Act ρ) : Decidable (Newer s a) := by
  unfold Newer; split <;> infer_instance

/-- What holds of a replica in the phase it is in: its own certificate is due while it waits for
the lock, and a certificate it has turned down under the lock was expired or due. -/
def Phase.Ok (cfg : Config) (clients : String → Client) (held : Option CertInfo) (now : Int) :
    Phase → Prop
  | .lock | .locked | .read true | .compare true _ => ∀ i ∈ held, due cfg clients i now = true
  | .toOrder (.locked (some f)) => f.expired = true ∨ f.due = true
  | _ => True

/-- What holds of a replica. -/
def State.Ok (cfg : Config) (s : State ρ) (r : ρ) : Prop :=
  (s.phase r).Ok cfg (s.clients r) (s.held r) s.now

variable {cfg : Config} {s t : State ρ} {a : Act ρ} {held : Option CertInfo} {p : Phase}

theorem Phase.Ok.mono (hle : now ≤ now') (h : p.Ok cfg clients held now) :
    p.Ok cfg clients held now' := by
  unfold Phase.Ok at *
  split at h
  case h_5 => exact h
  case h_6 => trivial
  all_goals exact fun i hi => due_mono hle (h i hi)

omit [DecidableEq ρ] in
/-- A replica that has taken nothing at its check orders only if it has no certificate. -/
theorem notTaken_ok (r : ρ) {nd : Bool} {found : Option Found}
    (hfound : nd = true → ∀ f ∈ found, f.expired = true ∨ f.due = true) :
    (s.notTaken r nd found).Ok cfg clients (s.held r) now := by
  unfold State.notTaken
  split
  case isTrue hnd =>
    cases found with
    | none => trivial
    | some f => exact hfound hnd f rfl
  case isFalse =>
    split
    · trivial
    case isFalse hheld =>
      intro i hi
      rw [Option.mem_def.1 hi] at hheld
      exact absurd rfl hheld

theorem after_ok (locked : Bool) (issued : Option CertInfo) :
    (after locked issued).Ok cfg clients held now := by
  cases locked <;> trivial

/-- A certificate that is turned down under the lock was expired or due, if it expires later than
the one held, or if it is that one and that one is due. -/
theorem expired_or_due {c : CertInfo} (hle : now ≤ now')
    (h : takes cfg clients held true c now now' = false)
    (hnew : ∀ i ∈ held, i.notAfter < c.notAfter ∨ i = c)
    (hdue : ∀ i ∈ held, due cfg clients i now = true) :
    decide (c.notAfter ≤ now) = true ∨ due cfg clients c now' = true := by
  unfold takes at h
  split at h
  case isTrue hexp => exact .inl (decide_eq_true hexp)
  case isFalse =>
    right
    split at h
    case isTrue hlater =>
      obtain ⟨i, hi, hni⟩ := (Option.any_eq_true _ _).1 hlater
      obtain hlt | rfl := hnew i hi
      · exact absurd hlt (not_lt.2 (of_decide_eq_true hni))
      · exact due_mono hle (hdue i hi)
    case isFalse =>
      split at h
      case isTrue hd => simpa using hd
      case isFalse => cases h

/-! ## What a step does -/

/-- What a step of replica `r` does. -/
structure Turn (cfg : Config) (s t : State ρ) (a : Act ρ) (r : ρ) (p : Phase) : Prop where
  phase : t.phase = update s.phase r p
  clients : t.clients = s.clients
  now : s.now ≤ t.now
  held : ∀ j, j ≠ r → t.held j = s.held j
  ok : Newer s a → s.Ok cfg r → p.Ok cfg (s.clients r) (t.held r) t.now
  published : Newer s a → ∀ c, p = .release (some c) →
    t.shared = some (.bundle true c (some c.notAfter)) ∧ t.lock = s.lock

variable {r : ρ}

theorem Turn.goto (hrel : ∀ c, p ≠ .release (some c))
    (hok : Newer s a → s.Ok cfg r → p.Ok cfg (s.clients r) (s.held r) s.now) :
    Turn cfg s (s.goto r p) a r p :=
  ⟨rfl, rfl, le_rfl, fun _ _ => rfl, hok, fun _ c hc => absurd hc (hrel c)⟩

/-- What a step that is no replica's does. -/
structure Quiet (s t : State ρ) (a : Act ρ) : Prop where
  phase : t.phase = s.phase
  held : t.held = s.held
  now : s.now ≤ t.now
  clients : ∀ r, t.clients r = s.clients r ∨ (Newer s a → (s.phase r).renewing = false)

omit [DecidableEq ρ] in
theorem notTaken_ne_release (r : ρ) (nd : Bool) (found : Option Found) (issued : Option CertInfo) :
    s.notTaken r nd found ≠ .release issued := by
  unfold State.notTaken
  split
  · simp
  · split <;> simp

theorem after_ne_release (locked : Bool) (c : CertInfo) :
    after locked none ≠ .release (some c) := by
  cases locked <;> simp [after]

theorem turn_of_adoptShared {n : Nat} (h : step cfg s (.adoptShared r n) = some t) :
    ∃ p, Turn cfg s t (.adoptShared r n) r p := by
  simp only [step] at h
  split at h
  case h_1 nd c hr =>
    have hle : s.now ≤ s.now + n := by omega
    split at h <;> rename_i htakes <;> cases h
    · refine ⟨_, rfl, rfl, hle, fun j hj => update_of_ne hj _ _, fun _ _ => ?_,
        fun _ c' hc => ?_⟩
      · cases nd <;> trivial
      · cases nd <;> cases hc
    · refine ⟨_, rfl, rfl, hle, fun _ _ => rfl, fun hg hok => notTaken_ok r ?_,
        fun _ c' hc => absurd hc (notTaken_ne_release r nd _ _)⟩
      intro hnd f hf
      subst hnd
      cases hf
      rw [State.Ok, hr] at hok
      exact expired_or_due hle (by simpa using htakes) (hg c (by rw [hr]; rfl)) hok
  · cases h

theorem turn_of_publish {ok : Bool} (h : step cfg s (.publish r ok) = some t) :
    ∃ p, Turn cfg s t (.publish r ok) r p := by
  simp only [step] at h
  split at h
  case h_1 locked c hr =>
    split at h <;> rename_i hput <;> cases h
    · refine ⟨_, rfl, rfl, le_rfl, fun _ _ => rfl, fun _ _ => after_ok _ _, fun _ c' hc => ?_⟩
      cases locked with
      | false => cases hc
      | true =>
        cases hc
        exact ⟨rfl, rfl⟩
    · refine ⟨_, rfl, rfl, le_rfl, fun _ _ => rfl, fun _ _ => after_ok _ _, fun hg c' hc => ?_⟩
      cases locked with
      | false => cases hc
      | true =>
        obtain ⟨hok, hvalid⟩ := hg c (by rw [hr]; rfl)
        exact absurd (by simpa [hok] using hvalid) hput
  · cases h

theorem turn_of_obtained {res : Result} (h : step cfg s (.obtained r res) = some t) :
    ∃ p, Turn cfg s t (.obtained r res) r p := by
  simp only [step] at h
  split at h <;> cases h
  rename_i locked hr
  unfold State.obtained
  split
  · exact ⟨_, .goto (after_ne_release _) fun _ _ => after_ok _ _⟩
  · exact ⟨_, .goto (after_ne_release _) fun _ _ => after_ok _ _⟩
  · exact ⟨_, rfl, rfl, le_rfl, fun j hj => update_of_ne hj _ _, fun _ _ => trivial, by simp⟩

/-- A step is one replica's, or it moves none. -/
theorem turn_of_step (h : step cfg s a = some t) :
    (∃ r p, Turn cfg s t a r p) ∨ Quiet s t a := by
  cases a with
  | adoptShared r n => exact .inl ⟨r, turn_of_adoptShared h⟩
  | publish r ok => exact .inl ⟨r, turn_of_publish h⟩
  | obtained r res => exact .inl ⟨r, turn_of_obtained h⟩
  | selfCert r =>
    simp only [step] at h
    split at h
    case h_1 nd hr =>
      split at h <;> cases h
      · refine .inl ⟨r, _, .goto (by simp) fun _ hok => ?_⟩
        rw [State.Ok, hr] at hok
        cases nd with
        | false => trivial
        | true => exact hok
      · exact .inl ⟨r, _, .goto (fun c => notTaken_ne_release r nd _ _)
          fun _ _ => notTaken_ok r (by simp)⟩
    · cases h
  | selfCertFails r =>
    simp only [step] at h
    split at h <;> cases h
    exact .inl ⟨r, _, .goto (fun c => notTaken_ne_release r _ _ _) fun _ _ => notTaken_ok r (by simp)⟩
  | shouldRenew r =>
    simp only [step] at h
    split at h
    case h_1 c hr hc =>
      split at h <;> rename_i hdue <;> cases h
      · refine .inl ⟨r, _, .goto (by simp) fun _ _ i hi => ?_⟩
        rw [hc] at hi
        cases hi
        exact hdue
      · exact .inl ⟨r, _, .goto (by simp) fun _ _ => trivial⟩
    · cases h
  | lockSelf r =>
    simp only [step] at h
    split at h <;> cases h
    rename_i hr _
    refine .inl ⟨r, _, rfl, rfl, le_rfl, fun _ _ => rfl, fun _ hok => ?_, by simp⟩
    rw [State.Ok, hr] at hok
    exact hok
  | go r =>
    simp only [step] at h
    split at h <;> cases h
    rename_i hr
    refine .inl ⟨r, _, .goto (by simp) fun _ hok => ?_⟩
    rw [State.Ok, hr] at hok
    exact hok
  | maybeRenew r | lockSelfFails r | giveUp r | cancel r | order r =>
    simp only [step] at h
    split at h <;> cases h
    exact .inl ⟨r, _, .goto (by simp) fun _ _ => trivial⟩
  | release r ok =>
    simp only [step] at h
    split at h
    · split at h <;> cases h
      · exact .inl ⟨r, _, rfl, rfl, le_rfl, fun _ _ => rfl, fun _ _ => trivial, by simp⟩
      · exact .inl ⟨r, _, .goto (by simp) fun _ _ => trivial⟩
    · cases h
  | build r ca =>
    simp only [step] at h
    split at h <;> cases h
    refine .inr ⟨rfl, rfl, le_rfl, fun j => ?_⟩
    by_cases hj : j = r
    · subst hj
      exact .inr id
    · exact .inl (update_of_ne hj _ _)
  | lockExpires | sharedExpires =>
    cases h
    exact .inr ⟨rfl, rfl, le_rfl, fun _ => .inl rfl⟩
  | tick n =>
    cases h
    exact .inr ⟨rfl, rfl, by show s.now ≤ s.now + n; omega, fun _ => .inl rfl⟩

/-! ## Every run -/

theorem ok_of_not_renewing {clients clients' : String → Client} (hp : p.renewing = false)
    (h : p.Ok cfg clients held now) : p.Ok cfg clients' held now := by
  unfold Phase.Ok at *
  split at h
  case h_5 => exact h
  case h_6 => trivial
  all_goals cases hp

theorem ok_of_step (hok : ∀ r, s.Ok cfg r) (hg : Newer s a) (h : step cfg s a = some t) (r : ρ) :
    t.Ok cfg r := by
  obtain ⟨q, p, hturn⟩ | hquiet := turn_of_step h
  · by_cases hr : r = q
    · subst hr
      rw [State.Ok, hturn.phase, update_self, hturn.clients]
      exact hturn.ok hg (hok r)
    · rw [State.Ok, hturn.phase, update_of_ne hr, hturn.clients, hturn.held r hr]
      exact (hok r).mono hturn.now
  · rw [State.Ok, hquiet.phase, hquiet.held]
    obtain hsame | hnot := hquiet.clients r
    · rw [hsame]
      exact (hok r).mono hquiet.now
    · exact ok_of_not_renewing (hnot hg) ((hok r).mono hquiet.now)

variable {setup : Setup ρ}

theorem ok_of_reach (h : (system cfg setup).Reach Newer s) (r : ρ) : s.Ok cfg r := by
  have hinit : ∀ r, ((system cfg setup).init).Ok cfg r := fun _ => trivial
  exact h.invariant (P := fun s => ∀ r, s.Ok cfg r) hinit
    (fun _ _ _ _ hok hg hs => ok_of_step hok hg hs) r

/-- **No order is placed where there is a fresh certificate, if the shared certificates are newer
than those held.**  A replica that is about to order with the lock has found no certificate in the
shared store but one that was expired or due; and when it gets to releasing the lock after an
issuance, the certificate is published. -/
theorem fresh_certificate_is_taken (h : (system cfg setup).Reach Newer s) :
    (∀ r f, s.phase r = .toOrder (.locked (some f)) → f.expired = true ∨ f.due = true) ∧
    ∀ a t r c, Newer s a → step cfg s a = some t → s.phase r ≠ .release (some c) →
      t.phase r = .release (some c) →
      t.shared = some (.bundle true c (some c.notAfter)) ∧ t.lock = s.lock := by
  constructor
  · intro r f hr
    have hok := ok_of_reach h r
    rw [State.Ok, hr] at hok
    exact hok
  · intro a t r c hg hs hr ht
    obtain ⟨q, p, hturn⟩ | hquiet := turn_of_step hs
    · rw [hturn.phase] at ht
      by_cases hq : r = q
      · subst hq
        rw [update_self] at ht
        exact hturn.published hg c ht
      · rw [update_of_ne hq] at ht
        exact absurd ht hr
    · rw [hquiet.phase] at ht
      exact absurd ht hr

/-- The default settings. -/
def defaults : Config := ⟨48 * hour, 160 * hour⟩

/-- A certificate of a week by GTS. -/
def weekOfGTS : CertInfo := ⟨"gts", 1000 * hour, 1168 * hour⟩

/-- A certificate of 160 hours by Let's Encrypt, five hours younger. -/
def shortlivedOfLE : CertInfo := ⟨"letsencrypt", 1005 * hour, 1165 * hour⟩

/-- One replica that holds the week of GTS, 113 hours into it, and what is in the shared store. -/
def weekHeld (shared : CertInfo) : Setup Unit where
  now := 1113 * hour
  shared := some (.bundle true shared (some shared.notAfter))
  held _ := some weekOfGTS
  clients _ _ := .built

/-- A check, up to the decision under the lock. -/
def decides : List (Act Unit) :=
  [.maybeRenew (), .selfCert (), .adoptShared () 0, .shouldRenew (), .lockSelf (), .go (),
    .selfCert (), .adoptShared () 0]

/-- Both certificates are valid, and the one of Let's Encrypt is not due for four hours.  The other
one is due and expires later: the replica has the lock and is about to order. -/
theorem orders_despite_a_fresh_certificate :
    ∃ s, (system defaults (weekHeld shortlivedOfLE)).Reach Lts.always s ∧
      s.phase () = .toOrder (.locked (some ⟨shortlivedOfLE, false, false⟩)) := by
  have hrun : ((system defaults (weekHeld shortlivedOfLE)).execWith Lts.always
      (system defaults (weekHeld shortlivedOfLE)).init decides).any (fun s =>
        s.phase () = .toOrder (.locked (some ⟨shortlivedOfLE, false, false⟩))) = true := by
    decide +kernel
  exact Lts.exists_reach_of_any hrun

/-- The certificate in the shared store is the one that is due: the replica orders another one, and
publishes it. -/
theorem orders_and_publishes :
    (∃ s f, (system defaults (weekHeld weekOfGTS)).Reach Newer s ∧
      s.phase () = .toOrder (.locked (some f)) ∧ (f.expired = true ∨ f.due = true)) ∧
    ∃ t : State Unit, t.phase () = .release (some ⟨"gts", 1113 * hour, 1281 * hour⟩) ∧
      t.shared = some (.bundle true ⟨"gts", 1113 * hour, 1281 * hour⟩ (some (1281 * hour))) := by
  constructor
  · have hrun : ((system defaults (weekHeld weekOfGTS)).execWith Newer
        (system defaults (weekHeld weekOfGTS)).init decides).any (fun s =>
          s.phase () = .toOrder (.locked (some ⟨weekOfGTS, false, true⟩))) = true := by
      decide +kernel
    obtain ⟨s, hreach, hs⟩ := Lts.exists_reach_of_any hrun
    exact ⟨s, _, hreach, hs, (fresh_certificate_is_taken hreach).1 () _ hs⟩
  · have hrun : ((system defaults (weekHeld weekOfGTS)).execWith Newer
        (system defaults (weekHeld weekOfGTS)).init (decides ++
          [Act.order (), .obtained () (.issued true ⟨"gts", 1113 * hour, 1281 * hour⟩)])).any
        (fun s => Newer s (.publish () true) ∧
          s.phase () ≠ .release (some ⟨"gts", 1113 * hour, 1281 * hour⟩) ∧
          (step defaults s (.publish () true)).any (fun t =>
            t.phase () = .release (some ⟨"gts", 1113 * hour, 1281 * hour⟩))) = true := by
      decide +kernel
    obtain ⟨s, hreach, hg, hnot, hnext⟩ := Lts.exists_reach_of_any hrun
    obtain ⟨t, hstep, ht⟩ := (Option.any_eq_true _ _).1 hnext
    have ht := of_decide_eq_true ht
    exact ⟨t, ht, ((fresh_certificate_is_taken hreach).2 _ t () _ hg hstep hnot ht).1⟩

end Tunneld.Reserved

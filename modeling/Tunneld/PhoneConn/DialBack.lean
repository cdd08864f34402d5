import Tunneld.Lib.Lts

/-!
# Handing a dial-back to the connection that waits for it

A public client is spliced to a connection that the phone opens *back* to the node.  The edge
registers a token with `Await`, asks the phone to dial back with it, and waits; `serveDialBack`
takes the phone's connection and `deliver`s it to whoever waits for the token.

Three parties race for one entry of the map and one slot of a channel: the phone that delivers, the
context that ends the wait, and the deferred `abandon` that cleans up.  `deliver` removes the entry
and fills the channel under the mutex; `abandon` removes the entry under the mutex and only then
looks into the channel.  So whatever the channel holds when `abandon` looks is all it will ever
hold.

The edge tries a second time with the token of the first try, and a token is no secret of one
tunnel, so nothing here assumes that tokens are distinct.  What keeps two calls apart is that a
waiter is compared by identity: an Await is a member of `α` here, and the map holds members of `α`.

The proof follows one connection.  `State.item` is what a call has got, in its channel or already in
hand; every step leaves all items alone, gives one connection to one call that had none
(`deliver`), or closes the one a call had (`abandon`).

## Main results

* `step_spec`: these are all the ways in which a step moves an item;
* `dialBack_handed_off`: a connection that was delivered is with one `Await`, or closed;
* `deliver_enabled`: the channel has room whenever `deliver` sends.
-/

namespace Tunneld.DialBack

open Function

/-! ## The calls -/

/-- What the calls of `Await` and the dial-backs of phones are called with. -/
structure Calls (τ α κ : Type) where
  /-- The token of an `Await`. -/
  token : α → τ
  /-- Its tunnel. -/
  tunnel : α → String
  /-- The token a phone presents with a connection. -/
  presented : κ → τ
  /-- The tunnel of the phone's certificate, empty where there is none. -/
  identity : κ → String

/-- Where `Await` stands. -/
inductive Await (κ : Type)
  | idle
  /-- It is in the map, and the phone is asked to dial back. -/
  | opening
  /-- The `select` between the channel and the context. -/
  | selecting
  /-- It is about to return that; `abandon` removes its entry next. -/
  | leaving (r : Option κ)
  /-- `abandon` looks into the channel next. -/
  | emptying (r : Option κ)
  | returned (r : Option κ)
  deriving DecidableEq

/-- What it has taken out of its channel. -/
@[simp] def Await.result {κ : Type} : Await κ → Option κ
  | .leaving r | .emptying r | .returned r => r
  | .idle | .opening | .selecting => none

/-- Its entry may be in the map. -/
def Await.Listed {κ : Type} : Await κ → Prop
  | .opening | .selecting | .leaving none => True
  | _ => False

/-- Its channel may hold a connection. -/
def Await.Open {κ : Type} : Await κ → Prop
  | .opening | .selecting | .leaving none | .emptying none => True
  | _ => False

/-- Where `serveDialBack` stands with a phone's connection. -/
inductive Phone
  | idle
  /-- `expects` was true, and the connection is taken over. -/
  | expected
  /-- It is switched to raw forwarding. -/
  | upgraded
  /-- It was not expected, or could not be taken over or switched. -/
  | failed
  /-- `deliver` was true. -/
  | given
  /-- `deliver` was true, and `abandon` has closed it. -/
  | dropped
  /-- `deliver` was false; it is closed next. -/
  | refused
  /-- `deliver` was false, and it is closed. -/
  | shut
  deriving DecidableEq

/-- `deliver` returned true. -/
def Phone.Accepted (p : Phone) : Prop := p = .given ∨ p = .dropped

/-- `deliver` returned false. -/
def Phone.Rejected (p : Phone) : Prop := p = .refused ∨ p = .shut

/-- `DialBacks`, its callers and the phones. -/
structure State (τ α κ : Type) where
  /-- `d.waiting`; the waiter of a call is the call. -/
  waiting : τ → Option α
  /-- `w.conn`, which holds one connection at most. -/
  conn : α → Option κ
  await : α → Await κ
  phone : κ → Phone

/-- What can happen next. -/
inductive Act (α κ : Type)
  /-- `Await` is called, up to the end of its critical section. -/
  | register (a : α)
  /-- `open` returns, or fails or panics. -/
  | opened (a : α) (ok : Bool)
  /-- The `select` receives a connection. -/
  | receive (a : α)
  /-- The `select` finds the context done. -/
  | cancel (a : α)
  /-- The critical section of `abandon`. -/
  | unregister (a : α)
  /-- The receive of `abandon`, and the return. -/
  | empty (a : α)
  | expects (c : κ)
  /-- The connection is taken over and switched, or is not. -/
  | upgrade (c : κ) (ok : Bool)
  | deliver (c : κ)
  /-- A connection that `deliver` has refused is closed. -/
  | close (c : κ)

section Step

variable {τ α κ : Type} [DecidableEq α]

/-- The waiter that a phone's token and tunnel match. -/
def waiter (calls : Calls τ α κ) (s : State τ α κ) (c : κ) : Option α :=
  (s.waiting (calls.presented c)).filter fun a =>
    calls.identity c = "" || calls.tunnel a = calls.identity c

@[simp] def State.setAwait (s : State τ α κ) (a : α) (p : Await κ) : State τ α κ :=
  { s with await := update s.await a p }

@[simp] def State.setPhone [DecidableEq κ] (s : State τ α κ) (c : κ) (p : Phone) : State τ α κ :=
  { s with phone := update s.phone c p }

/-- The state after an action, if it is possible. -/
def step [DecidableEq τ] [DecidableEq κ] (calls : Calls τ α κ) (s : State τ α κ) :
    Act α κ → Option (State τ α κ)
  | .register a =>
    if s.await a = .idle then
      if (s.waiting (calls.token a)).isSome then some (s.setAwait a (.returned none))
      else some { s.setAwait a .opening with
        waiting := update s.waiting (calls.token a) (some a) }
    else none
  | .opened a ok =>
    if s.await a = .opening then some (s.setAwait a (if ok then .selecting else .leaving none))
    else none
  | .receive a =>
    if s.await a = .selecting ∧ (s.conn a).isSome then
      some { s.setAwait a (.leaving (s.conn a)) with conn := update s.conn a none }
    else none
  | .cancel a => if s.await a = .selecting then some (s.setAwait a (.leaving none)) else none
  | .unregister a =>
    match s.await a with
    | .leaving r => some { s.setAwait a (.emptying r) with
        waiting := if s.waiting (calls.token a) = some a then
          update s.waiting (calls.token a) none else s.waiting }
    | _ => none
  | .empty a =>
    match s.await a with
    | .emptying r =>
      match s.conn a with
      | some c => some { (s.setAwait a (.returned r)).setPhone c .dropped with
          conn := update s.conn a none }
      | none => some (s.setAwait a (.returned r))
    | _ => none
  | .expects c =>
    if s.phone c = .idle then
      some (s.setPhone c (if (waiter calls s c).isSome then .expected else .failed))
    else none
  | .upgrade c ok =>
    if s.phone c = .expected then some (s.setPhone c (if ok then .upgraded else .failed)) else none
  | .deliver c =>
    if s.phone c = .upgraded then
      match waiter calls s c with
      | none => some (s.setPhone c .refused)
      | some a =>
        -- a send on a full channel would block, with the mutex held
        if s.conn a = none then
          some { s.setPhone c .given with
            waiting := update s.waiting (calls.presented c) none
            conn := update s.conn a (some c) }
        else none
    else none
  | .close c => if s.phone c = .refused then some (s.setPhone c .shut) else none

/-- `NewDialBacks`, and nobody has called yet. -/
def system [DecidableEq τ] [DecidableEq κ] (calls : Calls τ α κ) : Lts (State τ α κ) (Act α κ) :=
  ⟨⟨fun _ => none, fun _ => none, fun _ => .idle, fun _ => .idle⟩, step calls⟩

variable {calls : Calls τ α κ} {s t : State τ α κ} {a : α} {c : κ}

omit [DecidableEq α] in
theorem waiter_eq_some : waiter calls s c = some a ↔
    s.waiting (calls.presented c) = some a ∧
      (calls.identity c = "" ∨ calls.tunnel a = calls.identity c) := by
  simp [waiter, Option.filter_eq_some_iff]

/-! ## Who has which connection -/

/-- What a call has got: the connection in its channel, or the one it has taken out. -/
def State.item (s : State τ α κ) (a : α) : Option κ := (s.conn a).or (s.await a).result

/-- The map and the channels are where the calls think they are. -/
structure Placed (calls : Calls τ α κ) (s : State τ α κ) : Prop where
  /-- An entry is that of a call that still waits, under its token, with an empty channel. -/
  listed : ∀ k a, s.waiting k = some a →
    calls.token a = k ∧ (s.await a).Listed ∧ s.conn a = none
  /-- A channel that is not empty is that of a call that will still look into it. -/
  open_ : ∀ a, s.conn a ≠ none → (s.await a).Open

variable {p : Await κ}

theorem Await.Listed.open (h : p.Listed) : p.Open := by
  cases p with
  | opening | selecting => trivial
  | leaving r => cases r <;> trivial
  | idle | emptying | returned => exact h.elim

theorem Await.Open.result (h : p.Open) : p.result = none := by
  cases p with
  | opening | selecting => rfl
  | leaving r | emptying r => cases r <;> first | rfl | exact h.elim
  | idle | returned => exact h.elim

omit [DecidableEq α] in
theorem Placed.item_of_listed (h : Placed calls s) {k : τ} (hk : s.waiting k = some a) :
    s.item a = none := by
  obtain ⟨-, hl, hc⟩ := h.listed k a hk
  rw [State.item, hc, hl.open.result]
  rfl

/-- What a step does to the items: nothing; or `deliver` gives a connection to a call that has none;
or `abandon` closes the one that a call has. -/
inductive Moves [DecidableEq κ] (calls : Calls τ α κ) (s t : State τ α κ) : Prop
  | keep : t.item = s.item → (∀ c, t.phone c = .given ↔ s.phone c = .given) → Moves calls s t
  | give (a : α) (c : κ) : s.item a = none → s.phone c = .upgraded →
      (calls.identity c = "" ∨ calls.tunnel a = calls.identity c) →
      t.item = update s.item a (some c) →
      t.phone = update s.phone c .given → Moves calls s t
  | drop (a : α) (c : κ) : s.item a = some c →
      t.item = update s.item a none →
      t.phone = update s.phone c .dropped → Moves calls s t

/-! ## One step -/

/-- A call moves on, and neither the map nor a channel changes. -/
theorem Placed.setAwait (h : Placed calls s) (hl : (s.await a).Listed → p.Listed)
    (ho : (s.await a).Open → p.Open) : Placed calls (s.setAwait a p) := by
  refine ⟨fun k b hk => ?_, fun b hb => ?_⟩
  · obtain ⟨ht, hlb, hc⟩ := h.listed k b hk
    refine ⟨ht, ?_, hc⟩
    by_cases hba : b = a
    · subst hba
      simpa using hl hlb
    · simpa [update_of_ne hba] using hlb
  · by_cases hba : b = a
    · subst hba
      simpa using ho (h.open_ b hb)
    · simpa [update_of_ne hba] using h.open_ b hb

variable [DecidableEq κ]

theorem Moves.setAwait (w : τ → Option α) (hr : p.result = (s.await a).result) :
    Moves calls s { s.setAwait a p with waiting := w } := by
  refine .keep (funext fun b => ?_) fun _ => Iff.rfl
  by_cases hba : b = a
  · subst hba
    simp [State.item, -Await.result, hr]
  · simp [State.item, update_of_ne hba]

/-- `serveDialBack` moves on, and the connection is not one that was delivered. -/
theorem Moves.setPhone {p : Phone} (hc : s.phone c ≠ .given) (hp : p ≠ .given) :
    Moves calls s (s.setPhone c p) := by
  refine .keep rfl fun d => ?_
  by_cases hd : d = c
  · subst hd
    simp [hc, hp]
  · simp [update_of_ne hd]

variable [DecidableEq τ]

theorem register_spec (h : Placed calls s) (hs : step calls s (.register a) = some t) :
    Placed calls t ∧ Moves calls s t := by
  obtain ⟨ha, hs⟩ := Option.ite_none_right_eq_some.1 hs
  have hidle : ¬ (s.await a).Open := by simp [ha, Await.Open]
  have hconn : s.conn a = none := by
    by_contra hne
    exact hidle (h.open_ a hne)
  split at hs
  · cases hs
    exact ⟨h.setAwait (fun hl => absurd hl.open hidle) (fun ho => absurd ho hidle),
      .setAwait s.waiting (by simp [ha])⟩
  · cases hs
    have hpl : Placed calls (s.setAwait a .opening) :=
      h.setAwait (fun _ => trivial) (fun _ => trivial)
    refine ⟨⟨fun k b hk => ?_, hpl.open_⟩, .setAwait _ (by simp [ha])⟩
    by_cases hkt : k = calls.token a
    · subst hkt
      obtain rfl : a = b := by simpa using hk
      exact ⟨rfl, by simp [Await.Listed], hconn⟩
    · have hk : s.waiting k = some b := by simpa [update_of_ne hkt] using hk
      exact hpl.listed k b hk

theorem receive_spec (h : Placed calls s) (hs : step calls s (.receive a) = some t) :
    Placed calls t ∧ Moves calls s t := by
  obtain ⟨⟨ha, hsome⟩, rfl⟩ := Lts.taken hs
  obtain ⟨c, hc⟩ := Option.isSome_iff_exists.1 hsome
  refine ⟨⟨fun k b hk => ?_, fun b hb => ?_⟩, .keep (funext fun b => ?_) fun _ => Iff.rfl⟩
  · -- its entry is gone since `deliver` has filled the channel
    obtain ⟨ht, hl, hcb⟩ := h.listed k b hk
    have hba : b ≠ a := by
      rintro rfl
      simp [hc] at hcb
    simpa [update_of_ne hba] using ⟨ht, hl, hcb⟩
  · have hba : b ≠ a := by
      rintro rfl
      simp at hb
    simpa [update_of_ne hba] using
      h.open_ b (by simpa [update_of_ne hba] using hb)
  · by_cases hba : b = a
    · subst hba
      simp [State.item, hc]
    · simp [State.item, update_of_ne hba]

theorem unregister_spec (h : Placed calls s) (hs : step calls s (.unregister a) = some t) :
    Placed calls t ∧ Moves calls s t := by
  simp only [step] at hs
  split at hs
  case h_2 => cases hs
  case h_1 r ha =>
    cases hs
    have hent : ∀ k b, (if s.waiting (calls.token a) = some a then
        update s.waiting (calls.token a) none else s.waiting) k = some b →
        s.waiting k = some b ∧ b ≠ a := by
      intro k b hk
      split at hk
      · rename_i hown
        have hkt : k ≠ calls.token a := by
          rintro rfl
          simp at hk
        rw [update_of_ne hkt] at hk
        refine ⟨hk, ?_⟩
        rintro rfl
        exact hkt (h.listed k b hk).1.symm
      · rename_i hown
        refine ⟨hk, ?_⟩
        rintro rfl
        exact hown ((h.listed k b hk).1 ▸ hk)
    refine ⟨⟨fun k b hk => ?_, fun b hb => ?_⟩,
      .setAwait _ (by simp [ha])⟩
    · obtain ⟨hk, hba⟩ := hent k b hk
      simpa [update_of_ne hba] using h.listed k b hk
    · have ho := h.open_ b hb
      by_cases hba : b = a
      · subst hba
        rw [ha] at ho
        cases r with
        | none => simp [Await.Open]
        | some => exact ho.elim
      · simpa [update_of_ne hba] using ho

theorem empty_spec (h : Placed calls s) (hs : step calls s (.empty a) = some t) :
    Placed calls t ∧ Moves calls s t := by
  simp only [step] at hs
  split at hs
  case h_2 => cases hs
  case h_1 r ha =>
    have hlist : ¬ (s.await a).Listed := by simp [ha, Await.Listed]
    split at hs
    · -- a connection came too late, and is closed
      rename_i c hc
      cases hs
      have ho := h.open_ a (by simp [hc])
      have hr : r = none := by simpa [ha] using ho.result
      subst hr
      refine ⟨⟨fun k b hk => ?_, fun b hb => ?_⟩, .drop a c ?_ (funext fun b => ?_) rfl⟩
      · obtain ⟨ht, hl, hcb⟩ := h.listed k b hk
        have hba : b ≠ a := by
          rintro rfl
          exact hlist hl
        simpa [update_of_ne hba] using ⟨ht, hl, hcb⟩
      · have hba : b ≠ a := by
          rintro rfl
          simp at hb
        simpa [update_of_ne hba] using
          h.open_ b (by simpa [update_of_ne hba] using hb)
      · simp [State.item, hc]
      · by_cases hba : b = a
        · subst hba
          simp [State.item]
        · simp [State.item, update_of_ne hba]
    · rename_i hc
      cases hs
      refine ⟨⟨fun k b hk => ?_, fun b hb => ?_⟩, .setAwait s.waiting (by simp [ha])⟩
      · obtain ⟨ht, hl, hcb⟩ := h.listed k b hk
        have hba : b ≠ a := by
          rintro rfl
          exact hlist hl
        simpa [update_of_ne hba] using ⟨ht, hl, hcb⟩
      · have hba : b ≠ a := by
          rintro rfl
          exact hb hc
        simpa [update_of_ne hba] using h.open_ b hb

theorem deliver_spec (h : Placed calls s) (hs : step calls s (.deliver c) = some t) :
    Placed calls t ∧ Moves calls s t := by
  obtain ⟨hp, hs⟩ := Option.ite_none_right_eq_some.1 hs
  split at hs
  · cases hs
    exact ⟨⟨h.listed, h.open_⟩, .setPhone (by simp [hp]) (by decide)⟩
  · rename_i a hw
    obtain ⟨hk, hmatch⟩ := waiter_eq_some.1 hw
    obtain ⟨htok, hl, -⟩ := h.listed _ a hk
    obtain ⟨-, rfl⟩ := Lts.taken hs
    refine ⟨⟨fun k b hkb => ?_, fun b hb => ?_⟩,
      .give a c (h.item_of_listed hk) hp hmatch (funext fun b => ?_) rfl⟩
    · have hkc : k ≠ calls.presented c := by
        rintro rfl
        simp at hkb
      have hkb : s.waiting k = some b := by simpa [update_of_ne hkc] using hkb
      obtain ⟨ht, hlb, hcb⟩ := h.listed k b hkb
      have hba : b ≠ a := by
        rintro rfl
        exact hkc (ht.symm.trans htok)
      exact ⟨ht, hlb, by simpa [update_of_ne hba] using hcb⟩
    · by_cases hba : b = a
      · subst hba
        exact hl.open
      · exact h.open_ b (by simpa [update_of_ne hba] using hb)
    · by_cases hba : b = a
      · subst hba
        simp [State.item]
      · simp [State.item, update_of_ne hba]

/-- The map and the channels stay in place, and the items move in one of the three ways. -/
theorem step_spec (h : Placed calls s) {act : Act α κ} (hs : step calls s act = some t) :
    Placed calls t ∧ Moves calls s t := by
  cases act with
  | register a => exact register_spec h hs
  | receive a => exact receive_spec h hs
  | unregister a => exact unregister_spec h hs
  | empty a => exact empty_spec h hs
  | deliver c => exact deliver_spec h hs
  | opened a ok =>
    obtain ⟨ha, rfl⟩ := Lts.taken hs
    cases ok with
    | true =>
      exact ⟨h.setAwait (fun _ => trivial) (fun _ => trivial),
        .setAwait s.waiting (by simp [ha])⟩
    | false =>
      exact ⟨h.setAwait (fun _ => trivial) (fun _ => trivial),
        .setAwait s.waiting (by simp [ha])⟩
  | cancel a =>
    obtain ⟨ha, rfl⟩ := Lts.taken hs
    exact ⟨h.setAwait (fun _ => trivial) (fun _ => trivial),
      .setAwait s.waiting (by simp [ha])⟩
  | expects c =>
    obtain ⟨hc, rfl⟩ := Lts.taken hs
    exact ⟨⟨h.listed, h.open_⟩, .setPhone (by simp [hc]) (by split <;> decide)⟩
  | upgrade c ok =>
    obtain ⟨hc, rfl⟩ := Lts.taken hs
    exact ⟨⟨h.listed, h.open_⟩, .setPhone (by simp [hc]) (by split <;> decide)⟩
  | close c =>
    obtain ⟨hc, rfl⟩ := Lts.taken hs
    exact ⟨⟨h.listed, h.open_⟩, .setPhone (by simp [hc]) (by decide)⟩

/-! ## Whole runs -/

/-- The connections that `deliver` has handed out and that are not closed, and the calls that have
one, are in bijection. -/
structure Ledger (calls : Calls τ α κ) (s : State τ α κ) : Prop where
  given : ∀ a c, s.item a = some c → s.phone c = .given
  matched : ∀ a c, s.item a = some c →
    calls.identity c = "" ∨ calls.tunnel a = calls.identity c
  taker : ∀ c, s.phone c = .given → ∃ a, s.item a = some c
  single : ∀ a b c, s.item a = some c → s.item b = some c → a = b

omit [DecidableEq τ] [DecidableEq α] [DecidableEq κ] in
theorem Ledger.keep (h : Ledger calls s) (hitem : t.item = s.item)
    (hphone : ∀ c, t.phone c = .given ↔ s.phone c = .given) : Ledger calls t where
  given a c hac := (hphone c).2 (h.given a c (hitem ▸ hac))
  matched a c hac := h.matched a c (hitem ▸ hac)
  taker c hc := hitem ▸ h.taker c ((hphone c).1 hc)
  single a b c ha hb := h.single a b c (hitem ▸ ha) (hitem ▸ hb)

omit [DecidableEq τ] in
theorem Ledger.give (h : Ledger calls s) (ha : s.item a = none) (hc : s.phone c ≠ .given)
    (hm : calls.identity c = "" ∨ calls.tunnel a = calls.identity c)
    (hitem : t.item = update s.item a (some c))
    (hphone : t.phone = update s.phone c .given) : Ledger calls t := by
  -- nobody had the connection before
  have hnew : ∀ b, s.item b ≠ some c := fun b hb => hc (h.given b c hb)
  have hsplit : ∀ b d, t.item b = some d → b = a ∧ d = c ∨ b ≠ a ∧ d ≠ c ∧ s.item b = some d := by
    intro b d hbd
    rw [hitem] at hbd
    by_cases hba : b = a
    · subst hba
      exact .inl ⟨rfl, by simpa [eq_comm] using hbd⟩
    · rw [update_of_ne hba] at hbd
      refine .inr ⟨hba, ?_, hbd⟩
      rintro rfl
      exact hnew b hbd
  refine ⟨fun b d hbd => ?_, fun b d hbd => ?_, fun d hd => ?_, fun b b' d hb hb' => ?_⟩
  · rw [hphone]
    rcases hsplit b d hbd with ⟨rfl, rfl⟩ | ⟨-, hdc, hbd⟩
    · simp
    · simpa [update_of_ne hdc] using h.given b d hbd
  · rcases hsplit b d hbd with ⟨rfl, rfl⟩ | ⟨-, -, hbd⟩
    · exact hm
    · exact h.matched b d hbd
  · by_cases hdc : d = c
    · subst hdc
      exact ⟨a, by simp [hitem]⟩
    · rw [hphone, update_of_ne hdc] at hd
      obtain ⟨b, hb⟩ := h.taker d hd
      have hba : b ≠ a := by
        rintro rfl
        simp [ha] at hb
      exact ⟨b, by simpa [hitem, update_of_ne hba] using hb⟩
  · rcases hsplit b d hb with ⟨rfl, rfl⟩ | ⟨-, hdc, hb⟩
    · rcases hsplit b' d hb' with ⟨rfl, -⟩ | ⟨-, hdc, -⟩
      · rfl
      · exact absurd rfl hdc
    · rcases hsplit b' d hb' with ⟨-, rfl⟩ | ⟨-, -, hb'⟩
      · exact absurd rfl hdc
      · exact h.single b b' d hb hb'

omit [DecidableEq τ] in
theorem Ledger.drop (h : Ledger calls s) (hac : s.item a = some c)
    (hitem : t.item = update s.item a none)
    (hphone : t.phone = update s.phone c .dropped) : Ledger calls t := by
  have hsplit : ∀ b d, t.item b = some d → s.item b = some d ∧ d ≠ c := by
    intro b d hbd
    rw [hitem] at hbd
    have hba : b ≠ a := by
      rintro rfl
      simp at hbd
    rw [update_of_ne hba] at hbd
    refine ⟨hbd, ?_⟩
    rintro rfl
    exact hba (h.single b a d hbd hac)
  refine ⟨fun b d hbd => ?_, fun b d hbd => h.matched b d (hsplit b d hbd).1, fun d hd => ?_,
    fun b b' d hb hb' => h.single b b' d (hsplit b d hb).1 (hsplit b' d hb').1⟩
  · obtain ⟨hbd, hdc⟩ := hsplit b d hbd
    simpa [hphone, update_of_ne hdc] using h.given b d hbd
  · have hdc : d ≠ c := by
      rintro rfl
      simp [hphone] at hd
    rw [hphone, update_of_ne hdc] at hd
    obtain ⟨b, hb⟩ := h.taker d hd
    have hba : b ≠ a := by
      rintro rfl
      exact hdc (Option.some.inj (hb.symm.trans hac))
    exact ⟨b, by simpa [hitem, update_of_ne hba] using hb⟩

omit [DecidableEq τ] in
theorem Ledger.moves (h : Ledger calls s) (hm : Moves calls s t) : Ledger calls t := by
  rcases hm with ⟨hitem, hphone⟩ | ⟨a, c, ha, hc, hmatch, hitem, hphone⟩ | ⟨a, c, ha, hitem, hphone⟩
  · exact h.keep hitem hphone
  · exact h.give ha (by simp [hc]) hmatch hitem hphone
  · exact h.drop ha hitem hphone

theorem inv_of_reach (h : (system calls).Reach Lts.always s) :
    Placed calls s ∧ Ledger calls s := by
  refine h.invariant (P := fun s => Placed calls s ∧ Ledger calls s)
    ⟨⟨?_, ?_⟩, ⟨?_, ?_, ?_, ?_⟩⟩ fun _ _ _ _ hi _ hs => ?_
  case refine_7 =>
    obtain ⟨hplaced, hmoves⟩ := step_spec hi.1 hs
    exact ⟨hplaced, hi.2.moves hmoves⟩
  all_goals simp [system, State.item]

/-- No step is that of a call that has returned. -/
theorem await_of_step {act : Act α κ} (hs : step calls s act = some t) :
    t.await = s.await ∨
      ∃ b p, (∀ r, s.await b ≠ .returned r) ∧ t.await = update s.await b p := by
  cases act with
  | register b =>
    obtain ⟨hb, hs⟩ := Option.ite_none_right_eq_some.1 hs
    refine .inr ⟨b, ?_⟩
    split at hs <;> cases hs <;> exact ⟨_, by simp [hb], rfl⟩
  | opened b ok =>
    obtain ⟨hb, rfl⟩ := Lts.taken hs
    exact .inr ⟨b, _, by simp [hb], rfl⟩
  | receive b =>
    obtain ⟨⟨hb, -⟩, rfl⟩ := Lts.taken hs
    exact .inr ⟨b, _, by simp [hb], rfl⟩
  | cancel b =>
    obtain ⟨hb, rfl⟩ := Lts.taken hs
    exact .inr ⟨b, _, by simp [hb], rfl⟩
  | unregister b =>
    simp only [step] at hs
    split at hs
    case h_2 => cases hs
    case h_1 r hb =>
      cases hs
      exact .inr ⟨b, _, by simp [hb], rfl⟩
  | empty b =>
    simp only [step] at hs
    split at hs
    case h_2 => cases hs
    case h_1 r hb =>
      refine .inr ⟨b, .returned r, by simp [hb], ?_⟩
      split at hs <;> cases hs <;> rfl
  | expects | upgrade | close =>
    obtain ⟨-, rfl⟩ := Lts.taken hs
    exact .inl rfl
  | deliver c =>
    obtain ⟨-, hs⟩ := Option.ite_none_right_eq_some.1 hs
    split at hs
    · cases hs
      exact .inl rfl
    · obtain ⟨-, rfl⟩ := Lts.taken hs
      exact .inl rfl

theorem returned_later {r : Option κ} (hr : s.await a = .returned r)
    (hl : (system calls).Later Lts.always s t) : t.await a = .returned r := by
  refine hl.stable (P := fun s => s.await a = .returned r) (fun s _ t hr _ hs => ?_) hr
  rcases await_of_step hs with hawait | ⟨b, p, hb, hawait⟩
  · rw [hawait, hr]
  · have hab : a ≠ b := by
      rintro rfl
      exact hb r hr
    rw [hawait, update_of_ne hab, hr]

/-- `deliver` does not block on a channel while it holds the mutex. -/
theorem deliver_enabled (h : (system calls).Reach Lts.always s) (hc : s.phone c = .upgraded) :
    (step calls s (.deliver c)).isSome = true := by
  simp only [step, hc, if_true]
  split
  · rfl
  · rename_i a hw
    rw [if_pos ((inv_of_reach h).1.listed _ a (waiter_eq_some.1 hw).1).2.2]
    rfl

/-- **Every dial-back goes to one caller or is closed.**  In every reachable state: what an `Await`
has returned is all it will ever return, with nothing left in its channel, and its entry matches no
delivery from then on; a connection that `deliver` accepted is closed and with nobody, or is open
and with exactly one `Await`, which has returned it or has not ended; an `Await` returns no
connection of a phone of another tunnel; and a connection that `deliver` refused is with nobody. -/
theorem dialBack_handed_off (h : (system calls).Reach Lts.always s) :
    (∀ a r, s.await a = .returned r → ∀ t, (system calls).Later Lts.always s t →
      t.await a = .returned r ∧ t.conn a = none ∧ ∀ c, waiter calls t c ≠ some a) ∧
    (∀ c, (s.phone c).Accepted →
      (s.phone c = .dropped ∧ ∀ a, s.item a ≠ some c) ∨
      (s.phone c = .given ∧ ∃ a, s.item a = some c ∧ (∀ b, s.item b = some c → b = a) ∧
        (s.await a = .returned (some c) ∨ ∀ r, s.await a ≠ .returned r))) ∧
    (∀ a c, s.await a = .returned (some c) → calls.identity c ≠ "" →
      calls.tunnel a = calls.identity c) ∧
    (∀ c, (s.phone c).Rejected → ∀ a, s.item a ≠ some c) := by
  obtain ⟨hplaced, hledger⟩ := inv_of_reach h
  -- the channel of a call that has returned is empty, so its item is its result
  have hended : ∀ {s}, Placed calls s → ∀ {a r}, s.await a = .returned r →
      s.conn a = none ∧ ∀ k, s.waiting k ≠ some a := by
    intro s hp a r ha
    refine ⟨?_, fun k hk => ?_⟩
    · by_contra hne
      simpa [ha, Await.Open] using hp.open_ a hne
    · simpa [ha, Await.Listed] using (hp.listed k a hk).2.1
  have hitem : ∀ {a r}, s.await a = .returned r → s.item a = r := by
    intro a r ha
    simp [State.item, (hended hplaced ha).1, ha]
  refine ⟨fun a r ha t ht => ?_, fun c hc => ?_, fun a c ha hid => ?_, fun c hc a ha => ?_⟩
  · have ha' := returned_later ha ht
    obtain ⟨hconn, hwait⟩ := hended (inv_of_reach (h.later ht)).1 ha'
    exact ⟨ha', hconn, fun c hw => hwait _ (waiter_eq_some.1 hw).1⟩
  · rcases hc with hc | hc
    · obtain ⟨a, ha⟩ := hledger.taker c hc
      refine .inr ⟨hc, a, ha, fun b hb => hledger.single b a c hb ha, ?_⟩
      by_cases hret : ∃ r, s.await a = .returned r
      · obtain ⟨r, hr⟩ := hret
        rw [hitem hr] at ha
        exact .inl (ha ▸ hr)
      · exact .inr fun r hr => hret ⟨r, hr⟩
    · refine .inl ⟨hc, fun a ha => ?_⟩
      simpa [hc] using hledger.given a c ha
  · exact (hledger.matched a c (hitem ha)).resolve_left hid
  · have hgiven := hledger.given a c ha
    rcases hc with hc | hc <;> simp [hc] at hgiven

end Step

/-- Two calls with one token, for one tunnel; the third phone is another tunnel's. -/
def twoTries : Calls Unit Bool (Fin 3) where
  token _ := ()
  tunnel _ := "a"
  presented _ := ()
  identity c := if c = 2 then "b" else "a"

/-- Two phones dial back with the token of one call. -/
theorem deliver_enabled_second :
    ∃ s, (system twoTries).Reach Lts.always s ∧ s.phone 0 = .given ∧ s.phone 1 = .upgraded ∧
      (step twoTries s (.deliver 1)).isSome = true := by
  obtain ⟨s, hreach, h0, h1⟩ := Lts.exists_reach_of_any (L := system twoTries) (g := Lts.always)
    (l := [Act.register false, .expects 0, .expects 1, .upgrade 0 true, .upgrade 1 true, .deliver 0])
    (P := fun s => s.phone 0 = .given ∧ s.phone 1 = .upgraded) (by decide +kernel)
  exact ⟨s, hreach, h0, h1, deliver_enabled hreach h1⟩

/-- The phone dials back when the first call has just given up, and that connection is closed.  The
second call gets the next one, and the other tunnel's phone nothing. -/
theorem dialBack_handed_off_second_try :
    ∃ s : State Unit Bool (Fin 3), (system twoTries).Reach Lts.always s ∧
      s.await false = .returned none ∧ s.phone 0 = .dropped ∧ (∀ a, s.item a ≠ some 0) ∧
      s.await true = .returned (some 1) ∧ twoTries.tunnel true = twoTries.identity 1 := by
  obtain ⟨s, hreach, h0, h1, h2⟩ := Lts.exists_reach_of_any (L := system twoTries)
    (g := Lts.always) (l := [Act.register false, .opened false true, .expects 2, .expects 0,
      .upgrade 0 true, .cancel false, .deliver 0, .unregister false, .register true, .empty false,
      .expects 1, .opened true true, .upgrade 1 true, .deliver 1, .receive true, .unregister true,
      .empty true])
    (P := fun s => s.await false = .returned none ∧ s.phone 0 = .dropped ∧
      s.await true = .returned (some 1)) (by decide +kernel)
  obtain ⟨-, hacc, htun, -⟩ := dialBack_handed_off hreach
  refine ⟨s, hreach, h0, h1, ?_, h2, htun true 1 h2 (by decide)⟩
  rcases hacc 0 (.inr h1) with ⟨-, hnone⟩ | ⟨hgiven, -⟩
  · exact hnone
  · simp [h1] at hgiven

end Tunneld.DialBack

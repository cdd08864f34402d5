import Mathlib.Data.List.Nodup
import Tunneld.Lib.Utf8

/-!
# The client's retries

A client enrolls in two phases.  An attempt of the first fetches a nonce and posts it to
`/api/v1/enroll`; the second posts the nonce it got there to `/api/v1/issue`, and a fresh one each
time it tries again.  Both phases are one loop (`retryLoop`) that tries again as long as the error
has a wait and retries remain.

The server is what answers: a function from all that has happened to the next reply, so that any
sequence of replies is one of a server.  What the client does is the list of its events.

What is meant is `Phase`, an attempt and then, after a failure that is retried, a wait and a phase
with one retry less.  Each function is compared with it through `Did`, which says what an attempt
added to the events, what it came to and which nonces it used up.  The reply to a `POST` of
`/api/v1/enroll` that is lost is not seen as such by the loop, and the retry time of a refusal is
converted to nanoseconds without a check.

## Main results

* `retryLoop_phase`: the loop is a phase if its attempts are those of the protocol;
* `enroll_follows_protocol`: so are both phases, if no reply to an enroll is lost and the times fit;
* `lost_enroll_not_retried`: otherwise the client gives up, or comes back too early.
-/

namespace Tunneld.Client

open Utf8 (Bytes)

/-! ## Replies and events -/

/-- What a request comes to. -/
inductive Reply (α : Type)
  | success (a : α)
  | refusal (status : Nat) (reason : Bytes) (retryable : Bool) (retryAfterSeconds : Int)
  | network
  | timeout
  deriving DecidableEq

/-- `enrollResponse`; `usable` says that a TLS certificate can be made of the identity. -/
structure EnrollResponse where
  name : Bytes
  usable : Bool
  issueNonce : Bytes
  deriving DecidableEq

inductive Event
  | fetch (r : Reply Bytes)
  | enroll (nonce : Bytes) (r : Reply EnrollResponse)
  | issue (nonce : Bytes) (r : Reply Bytes)
  | sleep (d : Int)
  deriving DecidableEq

abbrev Trace := List Event

/-- The replies to the next request of each kind. -/
structure Server where
  nonce : Trace → Reply Bytes
  enroll : Trace → Bytes → Reply EnrollResponse
  issue : Trace → Bytes → Reply Bytes

/-! ## The client -/

/-- The errors the loop tells apart. -/
inductive Err
  | enroll (status : Nat) (reason : Bytes) (retryable : Bool) (retryAfter : Int)
  | transport
  | other
  deriving DecidableEq

def second : Int := 1000000000

/-- `time.Duration(er.RetryAfter) * time.Second`, an `int64`. -/
def retryAfter (seconds : Int) : Int := Int.bmod (seconds * second) 18446744073709551616

/-- What a function makes of the reply to its request; `lost` is its error for one that did not
come. -/
def result {α : Type} (lost : Err) : Reply α → Except Err α
  | .success a => .ok a
  | .refusal status reason retryable seconds =>
    .error (.enroll status reason retryable (retryAfter seconds))
  | .network => .error lost
  | .timeout => .error lost

section Model

variable (srv : Server)

def fetchNonce (t : Trace) : Except Err Bytes × Trace :=
  (result .transport (srv.nonce t), t ++ [.fetch (srv.nonce t)])

/-- The one that does not make a lost reply a `transportError`. -/
def postEnroll (nonce : Bytes) (t : Trace) : Except Err EnrollResponse × Trace :=
  (result .other (srv.enroll t nonce), t ++ [.enroll nonce (srv.enroll t nonce)])

def issueCerts (nonce : Bytes) (t : Trace) : Except Err Bytes × Trace :=
  (result .transport (srv.issue t nonce), t ++ [.issue nonce (srv.issue t nonce)])

/-- A fresh nonce, and a request with it. -/
def withNonce {α : Type} (request : Bytes → Trace → Except Err α × Trace) (t : Trace) :
    Except Err α × Trace :=
  match fetchNonce srv t with
  | (.error e, t) => (.error e, t)
  | (.ok nonce, t) => request nonce t

def enrollOnce (t : Trace) : Except Err EnrollResponse × Trace :=
  withNonce srv (postEnroll srv) t

def issueRetryWait (err : Err) (retry : Nat) : Option Int :=
  match err with
  | .enroll _ _ retryable retryAfter =>
    if ¬ retryable then none
    else if 0 < retryAfter then some retryAfter
    else some ((retry + 1) * 5 * second)
  | .transport => some ((retry + 1) * 5 * second)
  | .other => none

def enrollRetryWait (err : Err) (_ : Nat) : Option Int :=
  match err with
  | .enroll _ _ retryable retryAfter =>
    if ¬ retryable then none else if 0 < retryAfter then some retryAfter else some second
  | .transport => some (2 * second)
  | .other => none

/-- The loop of both phases: retries made, retries that remain, and what the last attempt gave. -/
def retryLoop {α : Type} (wait : Err → Nat → Option Int) (again : Trace → Except Err α × Trace) :
    Nat → Nat → Except Err α × Trace → Except Err α × Trace
  | _, _, (.ok a, t) => (.ok a, t)
  | retry, left, (.error e, t) =>
    match wait e retry, left with
    | some d, left + 1 => retryLoop wait again (retry + 1) left (again (t ++ [.sleep d]))
    | _, _ => (.error e, t)

def enrollWithRetries (t : Trace) : Except Err EnrollResponse × Trace :=
  retryLoop enrollRetryWait (enrollOnce srv) 0 3 (enrollOnce srv t)

def issueWithRetries (nonce : Bytes) (t : Trace) : Except Err Bytes × Trace :=
  retryLoop issueRetryWait (withNonce srv (issueCerts srv)) 0 3 (issueCerts srv nonce t)

/-- `enroll` returns the certificate, or what is left and an error: nothing, or the identity of the
first phase. -/
def enroll : Except (Option EnrollResponse × Err) Bytes × Trace :=
  match enrollWithRetries srv [] with
  | (.error e, t) => (.error (none, e), t)
  | (.ok er, t) =>
    if ¬ er.usable then (.error (none, .other), t)
    else
      let p := issueWithRetries srv er.issueNonce t
      (p.1.mapError fun e => (some er, e), p.2)

end Model

/-! ## The protocol -/

/-- What an attempt came to: what its last request did. -/
inductive Outcome
  | success
  | refusal (retryable : Bool) (retryAfterSeconds : Int)
  | network
  | timeout

def Reply.outcome {α : Type} : Reply α → Outcome
  | .success _ => .success
  | .refusal _ _ retryable seconds => .refusal retryable seconds
  | .network => .network
  | .timeout => .timeout

/-- A failure after which the protocol tries again. -/
def Outcome.retried : Outcome → Bool
  | .success => false
  | .refusal retryable _ => retryable
  | .network => true
  | .timeout => true

/-- The wait that a refusal carries. -/
def Outcome.wait : Outcome → Option Int
  | .refusal _ seconds => if 0 < seconds then some (seconds * second) else none
  | _ => none

/-- The events of an attempt that fetches a nonce first. -/
inductive Fresh {α : Type} (request : Bytes → Reply α → Event) : Outcome → Trace → Prop
  | fetch (r : Reply Bytes) (h : ∀ n, r ≠ .success n) : Fresh request r.outcome [.fetch r]
  | request (n : Bytes) (r : Reply α) : Fresh request r.outcome [.fetch (.success n), request n r]

/-- The events of an attempt that has its nonce. -/
inductive Given (nonce : Bytes) : Outcome → Trace → Prop
  | issue (r : Reply Bytes) : Given nonce r.outcome [.issue nonce r]

/-- A phase as the protocol has it: attempts, the first of a kind of its own, with a wait after each
failure that is retried while retries remain. -/
inductive Phase (again : Outcome → Trace → Prop) : (Outcome → Trace → Prop) → Nat → Trace → Prop
  | last {first n o l} (h : first o l)
      (hend : o.retried = false ∨ n = 0) : Phase again first n l
  | retry {first n o l rest d}
      (h : first o l) (hretried : o.retried = true) (hwait : ∀ w, o.wait = some w → d = w)
      (hrest : Phase again again n rest) : Phase again first (n + 1) (l ++ .sleep d :: rest)

/-- The retries of a phase: each is preceded by a wait. -/
def retries (t : Trace) : Nat := t.countP fun e => e matches .sleep _

/-- The nonces the server has handed out. -/
def handed : Trace → List Bytes :=
  List.filterMap fun
    | .fetch (.success n) => some n
    | .enroll _ (.success er) => some er.issueNonce
    | _ => none

/-- The nonces requests were sent with. -/
def sent : Trace → List Bytes :=
  List.filterMap fun
    | .enroll n _ => some n
    | .issue n _ => some n
    | _ => none

/-! ## The waits -/

/-- The retry time fits a `time.Duration`. -/
def Reply.Fits {α : Type} : Reply α → Prop
  | .refusal _ _ _ seconds =>
    -9223372036854775808 ≤ seconds * second ∧ seconds * second < 9223372036854775808
  | _ => True

/-- A function that gives a wait to the failures that are retried, and to a refusal its own. -/
structure Waits (wait : Err → Nat → Option Int) : Prop where
  final : ∀ status reason d retry, wait (.enroll status reason false d) retry = none
  refused : ∀ status reason d retry, ∃ w, wait (.enroll status reason true d) retry = some w ∧
    (0 < d → w = d)
  transport : ∀ retry, ∃ w, wait .transport retry = some w

theorem waits_issueRetryWait : Waits issueRetryWait where
  final _ _ _ _ := rfl
  refused _ _ d _ := by
    by_cases hd : 0 < d
    · exact ⟨d, if_pos hd, fun _ => rfl⟩
    · exact ⟨_, if_neg hd, fun h => absurd h hd⟩
  transport _ := ⟨_, rfl⟩

theorem waits_enrollRetryWait : Waits enrollRetryWait where
  final _ _ _ _ := rfl
  refused _ _ d _ := by
    by_cases hd : 0 < d
    · exact ⟨d, if_pos hd, fun _ => rfl⟩
    · exact ⟨_, if_neg hd, fun h => absurd h hd⟩
  transport _ := ⟨_, rfl⟩

variable {α : Type} {wait : Err → Nat → Option Int} {o : Outcome}

/-- The loop sees in a result what the attempt came to. -/
def Agrees (wait : Err → Nat → Option Int) (o : Outcome) : Except Err α → Prop
  | .ok _ => o.retried = false
  | .error e => ∀ retry, (o.retried = false → wait e retry = none) ∧
      (o.retried = true → ∃ d, wait e retry = some d ∧ ∀ w, o.wait = some w → d = w)

theorem Waits.lost (h : Waits wait) (hretried : o.retried = true) (hwait : o.wait = none) :
    Agrees wait o (.error .transport : Except Err α) := by
  intro retry
  obtain ⟨d, hd⟩ := h.transport retry
  exact ⟨fun h => (by rw [hretried] at h; cases h), fun _ => ⟨d, hd, fun w hw =>
    (by rw [hwait] at hw; cases hw)⟩⟩

theorem Waits.agrees (h : Waits wait) {lost : Err} {r : Reply α} (hfits : r.Fits)
    (hlost : lost = .transport ∨ r ≠ .network ∧ r ≠ .timeout) :
    Agrees wait r.outcome (result lost r) := by
  cases r with
  | success a => exact rfl
  | refusal status reason retryable seconds =>
    intro retry
    cases retryable with
    | false => exact ⟨fun _ => h.final .., fun h => by cases h⟩
    | true =>
      obtain ⟨d, hd, hpos⟩ := h.refused status reason (retryAfter seconds) retry
      refine ⟨fun h => (by cases h), fun _ => ⟨d, hd, fun w hw => ?_⟩⟩
      obtain ⟨hseconds, heq⟩ := Option.ite_none_right_eq_some.1 hw
      have hdur : retryAfter seconds = seconds * second := by
        simp only [Reply.Fits, second] at hfits ⊢
        rw [retryAfter, Int.bmod_def, second]
        omega
      rw [← Option.some.inj heq, hpos (by rw [hdur, second]; omega), hdur]
  | network =>
    obtain rfl := hlost.resolve_right fun h => h.1 rfl
    exact h.lost rfl rfl
  | timeout =>
    obtain rfl := hlost.resolve_right fun h => h.2 rfl
    exact h.lost rfl rfl

/-! ## The loop -/

/-- What a result still has to be used: the nonce a successful phase hands on. -/
def owedBy (owed : α → List Bytes) : Except Err α → List Bytes
  | .ok a => owed a
  | .error _ => []

variable {owed : α → List Bytes} {given : List Bytes} {t : Trace}

/-- A function added the events of an attempt, and used up nonces that were given to it or that it
got, each once. -/
def Did (wait : Err → Nat → Option Int) (kind : Outcome → Trace → Prop) (given : List Bytes)
    (owed : α → List Bytes) (t : Trace) (p : Except Err α × Trace) : Prop :=
  ∃ o l, p.2 = t ++ l ∧ kind o l ∧ Agrees wait o p.1 ∧
    (sent l ++ owedBy owed p.1).Sublist (given ++ handed l)

@[simp] theorem sent_append (l m : Trace) : sent (l ++ m) = sent l ++ sent m :=
  List.filterMap_append

@[simp] theorem handed_append (l m : Trace) : handed (l ++ m) = handed l ++ handed m :=
  List.filterMap_append

/-- If every attempt is one of the protocol, the loop is a phase of it. -/
theorem retryLoop_phase {again : Trace → Except Err α × Trace} {kind first : Outcome → Trace → Prop}
    (hagain : ∀ t, Did wait kind [] owed t (again t)) (n retry : Nat) {p : Except Err α × Trace}
    (hp : Did wait first given owed t p) :
    ∃ l, (retryLoop wait again retry n p).2 = t ++ l ∧ Phase kind first n l ∧
      (sent l ++ owedBy owed (retryLoop wait again retry n p).1).Sublist (given ++ handed l) := by
  obtain ⟨o, l, heq, hkind, hagrees, hsent⟩ := hp
  fun_induction retryLoop wait again retry n p generalizing first given t o l with
  | case1 retry n a t' => exact ⟨l, heq, .last hkind (.inl hagrees), hsent⟩
  | case2 retry e t' d n hd ih =>
    have hretried : o.retried = true := by
      refine Bool.ne_false_iff.1 fun h => ?_
      cases hd.symm.trans ((hagrees retry).1 h)
    obtain ⟨d', hd', hwait⟩ := (hagrees retry).2 hretried
    obtain rfl := Option.some.inj (hd.symm.trans hd')
    obtain ⟨o', l', heq', hkind', hagrees', hsent'⟩ := hagain (t' ++ [.sleep d])
    obtain ⟨m, hm, hphase, hsub⟩ := ih o' l' heq' hkind' hagrees' hsent'
    refine ⟨l ++ .sleep d :: m, ?_, .retry hkind hretried hwait hphase, ?_⟩
    · rw [hm, show t' = t ++ l from heq, List.append_assoc, List.append_assoc]
      rfl
    · have hsub : (sent m ++ owedBy owed _).Sublist (handed m) := hsub
      rw [owedBy, List.append_nil] at hsent
      rw [sent_append, handed_append, List.append_assoc, ← List.append_assoc given]
      exact hsent.append hsub
  | case3 retry n e t' hstop =>
    refine ⟨l, heq, .last hkind ?_, hsent⟩
    cases hretried : o.retried with
    | false => exact .inl rfl
    | true =>
      obtain ⟨d, hd, -⟩ := (hagrees retry).2 hretried
      cases n with
      | zero => exact .inr rfl
      | succ n => exact (hstop d n hd rfl).elim

/-! ## The attempts -/

section Attempts

variable {srv : Server}

/-- A request with the nonce it is given. -/
def Requests (wait : Err → Nat → Option Int) (event : Bytes → Reply α → Event)
    (owed : α → List Bytes) (request : Bytes → Trace → Except Err α × Trace) : Prop :=
  ∀ nonce t, ∃ r, (request nonce t).2 = t ++ [event nonce r] ∧
    Agrees wait r.outcome (request nonce t).1 ∧
    sent [event nonce r] = [nonce] ∧ handed [event nonce r] = owedBy owed (request nonce t).1

/-- With a nonce fetched for it, it is an attempt that needs none. -/
theorem Requests.fresh {event : Bytes → Reply α → Event}
    {request : Bytes → Trace → Except Err α × Trace} (h : Requests wait event owed request)
    (hwait : Waits wait) (hfits : ∀ t, (srv.nonce t).Fits) (t : Trace) :
    Did wait (Fresh event) [] owed t (withNonce srv request t) := by
  have hagrees : Agrees wait (srv.nonce t).outcome (result .transport (srv.nonce t)) :=
    hwait.agrees (hfits t) (.inl rfl)
  rw [withNonce, fetchNonce]
  cases hr : srv.nonce t with
  | success n =>
    obtain ⟨r, heq, hdone, hsent, hhanded⟩ := h n (t ++ [.fetch (.success n)])
    refine ⟨_, [.fetch (.success n), event n r], ?_, .request n r, hdone, ?_⟩
    · exact heq.trans (List.append_assoc ..)
    · show (sent [event n r] ++ owedBy owed _).Sublist (n :: handed [event n r])
      rw [hsent, hhanded]
      exact List.Sublist.refl _
  | refusal | network | timeout =>
    rw [hr] at hagrees
    exact ⟨_, _, rfl, .fetch _ fun n => by simp, hagrees, List.Sublist.refl _⟩

/-- What is assumed of the server: no reply to a `POST` of `/api/v1/enroll` is lost, and its retry
times are no more than 292 years. -/
structure Regular (srv : Server) : Prop where
  enrollAnswered : ∀ t n, srv.enroll t n ≠ .network ∧ srv.enroll t n ≠ .timeout
  nonceFits : ∀ t, (srv.nonce t).Fits
  enrollFits : ∀ t n, (srv.enroll t n).Fits
  issueFits : ∀ t n, (srv.issue t n).Fits

theorem Regular.postEnroll (h : Regular srv) :
    Requests enrollRetryWait .enroll (fun er => [er.issueNonce]) (postEnroll srv) := by
  intro nonce t
  refine ⟨srv.enroll t nonce, rfl, ?_, rfl, ?_⟩
  · exact waits_enrollRetryWait.agrees (h.enrollFits t nonce) (.inr (h.enrollAnswered t nonce))
  · rw [Client.postEnroll]
    cases srv.enroll t nonce <;> rfl

theorem Regular.issueCerts (h : Regular srv) :
    Requests issueRetryWait .issue (fun _ => []) (issueCerts srv) := by
  intro nonce t
  refine ⟨srv.issue t nonce, rfl, ?_, rfl, ?_⟩
  · exact waits_issueRetryWait.agrees (h.issueFits t nonce) (.inl rfl)
  · rw [Client.issueCerts]
    cases srv.issue t nonce <;> rfl

end Attempts

theorem Phase.retries_le {again first : Outcome → Trace → Prop} {n : Nat} {l : Trace}
    (hfirst : ∀ o l, first o l → retries l = 0) (hagain : ∀ o l, again o l → retries l = 0)
    (h : Phase again first n l) : retries l ≤ n := by
  induction h with
  | last h => exact Nat.le_trans (Nat.le_of_eq (hfirst _ _ h)) (Nat.zero_le _)
  | @retry first n o l rest d h _ _ _ ih =>
    have hsum : retries (l ++ .sleep d :: rest) = retries l + (retries rest + 1) := by
      simp [retries, List.countP_append]
    rw [hsum, hfirst _ _ h, Nat.zero_add]
    exact Nat.succ_le_succ (ih hagain)

/-- **The client keeps to the retry protocol**, if no reply to a `POST` of `/api/v1/enroll` is lost
and the retry times fit a `time.Duration`: both phases are phases of the protocol with at most three
retries, and if the server hands out different nonces no two requests are sent with the same. -/
theorem enroll_follows_protocol (srv : Server) (h : Regular srv) :
    ∃ t₁ t₂, (enroll srv).2 = t₁ ++ t₂ ∧
      Phase (Fresh .enroll) (Fresh .enroll) 3 t₁ ∧ retries t₁ ≤ 3 ∧
      (t₂ = [] ∨ ∃ nonce, Phase (Fresh .issue) (Given nonce) 3 t₂ ∧ retries t₂ ≤ 3) ∧
      ((handed (enroll srv).2).Nodup → (sent (enroll srv).2).Nodup) := by
  have henroll := h.postEnroll.fresh waits_enrollRetryWait h.nonceFits
  have hissue := h.issueCerts.fresh waits_issueRetryWait h.nonceFits
  obtain ⟨t₁, heq₁, hphase₁, hsub₁⟩ := retryLoop_phase henroll 3 0 (henroll [])
  change (enrollWithRetries srv []).2 = t₁ at heq₁
  change (sent t₁ ++ owedBy _ (enrollWithRetries srv []).1).Sublist (handed t₁) at hsub₁
  have hretries₁ : retries t₁ ≤ 3 := by
    have hattempt : ∀ o l, Fresh Event.enroll o l → retries l = 0 := by
      rintro _ _ (_ | _) <;> rfl
    exact hphase₁.retries_le hattempt hattempt
  rw [enroll]
  rcases hp : enrollWithRetries srv [] with ⟨e | er, t⟩
  all_goals
    rw [hp] at heq₁ hsub₁
    obtain rfl : t = t₁ := heq₁
    dsimp only
  · refine ⟨t, [], (List.append_nil t).symm, hphase₁, hretries₁, .inl rfl, fun hnodup => ?_⟩
    rw [owedBy, List.append_nil] at hsub₁
    exact hsub₁.nodup hnodup
  · split
    · refine ⟨t, [], (List.append_nil t).symm, hphase₁, hretries₁, .inl rfl, fun hnodup => ?_⟩
      exact ((List.sublist_append_left _ _).trans hsub₁).nodup hnodup
    · obtain ⟨r, heq, hagrees, hsent, hhanded⟩ := h.issueCerts er.issueNonce t
      have hfirst : Did issueRetryWait (Given er.issueNonce) [er.issueNonce] (fun _ => []) t
          (issueCerts srv er.issueNonce t) := by
        refine ⟨_, _, heq, .issue r, hagrees, ?_⟩
        rw [hsent, hhanded]
      obtain ⟨t₂, heq₂, hphase₂, hsub₂⟩ := retryLoop_phase hissue 3 0 hfirst
      change (issueWithRetries srv er.issueNonce t).2 = t ++ t₂ at heq₂
      have hretries₂ : retries t₂ ≤ 3 := by
        refine hphase₂.retries_le ?_ ?_
        · rintro _ _ ⟨⟩
          rfl
        · rintro _ _ (_ | _) <;> rfl
      refine ⟨t, t₂, heq₂, hphase₁, hretries₁, .inr ⟨_, hphase₂, hretries₂⟩, fun hnodup => ?_⟩
      -- the nonce the first phase hands on is used by the second and not before
      have hsent₂ := (List.sublist_append_left _ _).trans hsub₂
      have hsub : (sent (t ++ t₂)).Sublist (handed (t ++ t₂)) := by
        rw [sent_append, handed_append]
        refine ((List.Sublist.refl (sent t)).append hsent₂).trans ?_
        rw [← List.append_assoc]
        exact hsub₁.append (List.Sublist.refl _)
      rw [← heq₂] at hsub
      exact hsub.nodup hnodup

/-- A server that refuses the first `POST` of `/api/v1/enroll` for a second. -/
def busyServer : Server where
  nonce t := .success [t.length.toUInt8]
  enroll t _ := if t.length = 1 then .refusal 503 [] true 1 else .success ⟨[], true, [255]⟩
  issue _ _ := .success []

theorem enroll_follows_protocol_busy :
    (enroll busyServer).2 = [.fetch (.success [0]), .enroll [0] (.refusal 503 [] true 1),
      .sleep second, .fetch (.success [3]), .enroll [3] (.success ⟨[], true, [255]⟩),
      .issue [255] (.success [])] ∧
    ((handed (enroll busyServer).2).Nodup → (sent (enroll busyServer).2).Nodup) := by
  refine ⟨by decide, ?_⟩
  have hkind : Regular busyServer := by
    refine ⟨fun t n => ?_, fun t => trivial, fun t n => ?_, fun t n => trivial⟩
    · simp only [busyServer]
      split <;> simp
    · simp only [busyServer]
      split
      · exact ⟨by decide, by decide⟩
      · trivial
  obtain ⟨-, -, -, -, -, -, h⟩ := enroll_follows_protocol busyServer hkind
  exact h

/-- The reply to a `POST` of `/api/v1/enroll` is lost, and the client gives up; and a refusal for
18446744074 seconds is waited out in 0.29. -/
theorem lost_enroll_not_retried :
    enroll ⟨fun _ => .success [1], fun _ _ => .network, fun _ _ => .network⟩ =
      (.error (none, .other), [.fetch (.success [1]), .enroll [1] .network]) ∧
    (enroll ⟨fun t => if t = [] then .refusal 503 [] true 18446744074 else .refusal 503 [] false 0,
        fun _ _ => .network, fun _ _ => .network⟩).2 =
      [.fetch (.refusal 503 [] true 18446744074), .sleep 290448384,
        .fetch (.refusal 503 [] false 0)] := by
  decide

end Tunneld.Client

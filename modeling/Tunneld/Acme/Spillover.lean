import Tunneld.Acme.Budgets
import Tunneld.Acme.Failures
import Mathlib.Algebra.Order.Ring.Unbundled.Rat
import Mathlib.Order.Bounds.Basic

/-!
# Spilling over from one account to the next

`chainIssuer.run` (`acme/chain.go`) tries the accounts one by one until one of them issues the
certificate: those of Let's Encrypt, then those of GTS, then those of ZeroSSL, and within a group
those with the most budget left first, in random order where that is the same.  An account that
waits, or whose budget is used up, is skipped; one that fails is put on a cooldown.  If no account
issues, the caller is told to come back after the shortest of all these waits.

Whatever the store and the authorities answer about an account is an argument here (`Answers`), so
that the loop is a function (`tryAll`): what the run does with an account is `visit`, and the run
ends with the first visit it does not go on from.

A panic is no failure of the account and sets no cooldown.  It counts for the wait all the same, as
if the account were to be tried again after `localChallengeRetry`.

## Main results

* `tried_pairwise`: the accounts are tried in the order of the authorities;
* `run_spills_over`: when the run stops, with what, and what it does with each account;
* `panic_shortens_retry`: the retry time after a panic.
-/

namespace Tunneld.Spillover

open Clock Acme
open Failures (backoff)

/-! ## One account -/

/-- The classes of an `IssuerError`. -/
inductive Class
  | rateLimited
  | transient
  | permanent
  /-- `ClassLocal`. -/
  | ofNode
  deriving DecidableEq

/-- An error of an attempt. -/
structure Error where
  /-- The class and the retry time of the `IssuerError` in it. -/
  issuer : Option (Class × Int)
  /-- It is a `report.ErrPanicked`. -/
  isPanic : Bool
  deriving DecidableEq

/-- The class that `run` and `handleFailure` go by. -/
def Error.class (e : Error) : Class := (e.issuer.map Prod.fst).getD .transient

/-- The retry time that they read. -/
def Error.retry (e : Error) : Int := (e.issuer.map Prod.snd).getD 0

/-- `localChallengeRetry`. -/
def localChallengeRetry : Int := 30 * second

/-- `panicked`. -/
def panicked (_ : Error) : Error := ⟨some (.ofNode, localChallengeRetry), true⟩

/-- What `ReserveACME` answers.  Where it refuses, it says how long to wait. -/
inductive Reserve
  | granted
  | refused (wait : Int) (pos : 0 < wait)
  | failed

/-- What the commands of `handleFailure` answer; `none` and `false` are errors. -/
structure FailureAnswers where
  /-- `CACooldown`. -/
  cooldown : Option Int
  /-- `BumpCAFailures`. -/
  bumped : Option Nat
  /-- `SetCACooldown` succeeds. -/
  isSet : Bool
  /-- `CACooldown` once more. -/
  readBack : Option Int

/-- What the store and the authority answer about an account. -/
structure Answers where
  /-- The run is over when the account's turn comes. -/
  stopped : Bool
  /-- `CACooldown`, or an error. -/
  cool : Option Int
  prepare : Option Error
  reserve : Reserve
  /-- The wait that `PrepayACME` returns, or an error. -/
  prepay : Option Int
  obtain : Option Error
  /-- The order's panic flag. -/
  panicFlag : Bool
  /-- The run is over when the attempt returns. -/
  ended : Bool
  /-- What `handleFailure` is answered. -/
  failure : FailureAnswers

/-- The durations that the operator sets. -/
structure Config where
  cooldownDefault : Int
  backoffInitial : Int
  backoffMax : Int

/-- `setCooldown`. -/
def setCooldown (f : FailureAnswers) (d : Int) : Int :=
  if f.isSet then
    match f.readBack with
    | some cur => max d cur
    | none => d
  else d

/-- `handleFailure`: the cooldown, and whether the error is permanent. -/
def handleFailure (cfg : Config) (e : Error) (f : FailureAnswers) : Int × Bool :=
  match e.class with
  | .permanent => (0, true)
  | .rateLimited => (setCooldown f (if e.retry ≤ 0 then cfg.cooldownDefault else e.retry), false)
  | .transient | .ofNode =>
    if 0 < f.cooldown.getD 0 then (f.cooldown.getD 0, false)
    else (setCooldown f (backoff cfg.backoffInitial cfg.backoffMax (f.bumped.getD 0)), false)

/-- The last part of `attempt`: the order itself. -/
def order (x : Answers) : Int × Option Error :=
  (0, if x.panicFlag then x.obtain.map panicked else x.obtain)

/-- `attempt`: how long to wait if the account is skipped, and the error. -/
def attempt (x : Answers) : Int × Option Error :=
  match x.prepare with
  | some e => (0, some e)
  | none =>
    match x.reserve with
    | .refused wait _ => (wait, none)
    | .granted | .failed => if 0 < x.prepay.getD 0 then (x.prepay.getD 0, none) else order x

/-- What comes of an account. -/
inductive Visit
  /-- The run is over. -/
  | ended
  /-- It waits. -/
  | cooling (wait : Int)
  /-- Its budget is used up. -/
  | short (wait : Int)
  | issued
  | panicked (retry : Int)
  /-- An error of this node. -/
  | localError (retry : Int)
  | permanent
  /-- It fails, and is on a cooldown. -/
  | failed (cooldown : Int)
  deriving DecidableEq

/-- The body of the loop of `run`. -/
def visit (cfg : Config) (x : Answers) : Visit :=
  if x.stopped then .ended
  else if 0 < x.cool.getD 0 then .cooling (x.cool.getD 0)
  else if 0 < (attempt x).1 then .short (attempt x).1
  else
    match (attempt x).2 with
    | none => .issued
    | some e =>
      if x.ended then .ended
      else if e.class = .ofNode ∧ e.isPanic = true then .panicked e.retry
      else if e.class = .ofNode then .localError e.retry
      else if (handleFailure cfg e x.failure).2 then .permanent
      else .failed (handleFailure cfg e x.failure).1

namespace Visit

/-- The wait that is noted, if the run goes on. -/
def noted : Visit → Option Int
  | .cooling w | .short w | .panicked w | .failed w => some w
  | .ended | .issued | .localError _ | .permanent => none

/-- The account was skipped for a positive wait, or was tried and failed. -/
def GoesOn : Visit → Prop
  | .cooling w | .short w => 0 < w
  | .panicked _ | .failed _ => True
  | .ended | .issued | .localError _ | .permanent => False

end Visit

/-- When an account is dealt with in which way. -/
inductive Visited (cfg : Config) (x : Answers) : Visit → Prop
  | ended (h : x.stopped = true ∨ x.ended = true) : Visited cfg x .ended
  | cooling (h : 0 < x.cool.getD 0) : Visited cfg x (.cooling (x.cool.getD 0))
  | short (h : 0 < (attempt x).1) : Visited cfg x (.short (attempt x).1)
  | issued (h : (attempt x).2 = none) : Visited cfg x .issued
  | panicked {e} (h : (attempt x).2 = some e) (hc : e.class = .ofNode)
    (hp : e.isPanic = true) : Visited cfg x (.panicked e.retry)
  | localError {e} (h : (attempt x).2 = some e) (hc : e.class = .ofNode)
    (hp : e.isPanic = false) : Visited cfg x (.localError e.retry)
  | permanent {e} (h : (attempt x).2 = some e) (hc : e.class = .permanent) :
    Visited cfg x .permanent
  | failed {e} (h : (attempt x).2 = some e) (hc : e.class = .transient ∨
      e.class = .rateLimited) : Visited cfg x (.failed (handleFailure cfg e x.failure).1)

theorem visited_visit (cfg : Config) (x : Answers) : Visited cfg x (visit cfg x) := by
  unfold visit
  split
  · exact .ended (.inl ‹_›)
  split
  · exact .cooling ‹_›
  split
  · exact .short ‹_›
  cases he : (attempt x).2 with
  | none => exact .issued he
  | some e =>
    simp only
    split
    · exact .ended (.inr ‹_›)
    cases hc : e.class with
    | ofNode =>
      cases hp : e.isPanic with
      | true => exact .panicked he hc hp
      | false => exact .localError he hc hp
    | permanent =>
      simp only [handleFailure, hc, reduceCtorEq, false_and, if_false, if_true]
      exact .permanent he hc
    | transient =>
      have hfail : (handleFailure cfg e x.failure).2 = false := by
        simp only [handleFailure, hc]
        split <;> rfl
      simp only [reduceCtorEq, false_and, if_false, hfail, Bool.false_eq_true]
      exact .failed he (.inl hc)
    | rateLimited =>
      have hfail : (handleFailure cfg e x.failure).2 = false := by simp only [handleFailure, hc]
      simp only [reduceCtorEq, false_and, if_false, hfail, Bool.false_eq_true]
      exact .failed he (.inr hc)

theorem Visited.goesOn {cfg : Config} {x : Answers} {v : Visit} (hv : Visited cfg x v) {w : Int}
    (h : v.noted = some w) : v.GoesOn := by
  cases hv with
  | cooling hpos => exact hpos
  | short hpos => exact hpos
  | panicked | failed => trivial
  | ended | issued | localError | permanent => cases h

/-! ## The loop -/

variable {α : Type}

/-- `note`. -/
def note (shortest d : Int) : Int := if 0 < d ∧ (shortest = 0 ∨ d < shortest) then d else shortest

/-- How a run ends. -/
inductive Result (α : Type)
  | issued (a : α)
  | permanent (a : α)
  /-- An error of this node. -/
  | localError (a : α) (retry : Int)
  /-- The run was cancelled or ran out of time. -/
  | ended
  /-- No account issues: retry later. -/
  | rateLimited (retry : Int)
  deriving DecidableEq

/-- A run: how it ends, and the accounts it came to. -/
structure Run (α : Type) where
  result : Result α
  visited : List α

/-- The loop of `run`, over the accounts in the order they are tried. -/
def tryAll (cfg : Config) (answers : α → Answers) (jitter : Int) : Int → List α → Run α
  | shortest, [] =>
    ⟨.rateLimited ((if shortest = 0 then cfg.cooldownDefault else shortest) + jitter), []⟩
  | shortest, a :: as =>
    match visit cfg (answers a) with
    | .ended => ⟨.ended, [a]⟩
    | .issued => ⟨.issued a, [a]⟩
    | .permanent => ⟨.permanent a, [a]⟩
    | .localError retry => ⟨.localError a retry, [a]⟩
    | .cooling w | .short w | .panicked w | .failed w =>
      let r := tryAll cfg answers jitter (note shortest w) as
      ⟨r.result, a :: r.visited⟩

/-- What is asked of a run that goes through the accounts in `order`: it stops at the first account
that does not let it go on, or comes to its end and returns the shortest wait. -/
inductive Stops (cfg : Config) (answers : α → Answers) (jitter : Int) (order : List α) :
    Run α → Prop
  | issued {pre post a} (horder : order = pre ++ a :: post)
    (hpre : ∀ b ∈ pre, (visit cfg (answers b)).GoesOn) (ha : visit cfg (answers a) = .issued) :
    Stops cfg answers jitter order ⟨.issued a, pre ++ [a]⟩
  | permanent {pre post a} (horder : order = pre ++ a :: post)
    (hpre : ∀ b ∈ pre, (visit cfg (answers b)).GoesOn) (ha : visit cfg (answers a) = .permanent) :
    Stops cfg answers jitter order ⟨.permanent a, pre ++ [a]⟩
  | localError {pre post a retry} (horder : order = pre ++ a :: post)
    (hpre : ∀ b ∈ pre, (visit cfg (answers b)).GoesOn)
    (ha : visit cfg (answers a) = .localError retry) :
    Stops cfg answers jitter order ⟨.localError a retry, pre ++ [a]⟩
  | rateLimited {shortest}
    (hall : ∀ b ∈ order, (visit cfg (answers b)).GoesOn)
    (hleast : (∃ b ∈ order, ∃ w ∈ (visit cfg (answers b)).noted, 0 < w) →
      IsLeast {w | 0 < w ∧ ∃ b ∈ order, w ∈ (visit cfg (answers b)).noted} shortest)
    (hnone : (∀ b ∈ order, ∀ w ∈ (visit cfg (answers b)).noted, w ≤ 0) →
      shortest = cfg.cooldownDefault) :
    Stops cfg answers jitter order ⟨.rateLimited (shortest + jitter), order⟩

/-- What `note` has found of some waits: the least positive one, or zero. -/
def Least (shortest : Int) (ws : Set Int) : Prop :=
  (shortest = 0 ∧ ∀ w ∈ ws, w ≤ 0) ∨ (0 < shortest ∧ IsLeast {w | 0 < w ∧ w ∈ ws} shortest)

theorem Least.note {shortest : Int} {ws : Set Int} (h : Least shortest ws) (d : Int) :
    Least (note shortest d) (insert d ws) := by
  unfold Spillover.note
  rcases h with ⟨rfl, hws⟩ | ⟨hpos, hmem, hlow⟩
  · split
    · rename_i hd
      refine .inr ⟨hd.1, ⟨hd.1, .inl rfl⟩, ?_⟩
      rintro w ⟨hw, rfl | hin⟩
      · exact le_refl _
      · exact absurd (hws w hin) (not_le.2 hw)
    · rename_i hd
      refine .inl ⟨rfl, ?_⟩
      rintro w (rfl | hin)
      · by_contra hw
        exact hd ⟨not_le.1 hw, .inl rfl⟩
      · exact hws w hin
  · split
    · rename_i hd
      refine .inr ⟨hd.1, ⟨hd.1, .inl rfl⟩, ?_⟩
      rintro w ⟨hw, rfl | hin⟩
      · exact le_refl _
      · have := hlow ⟨hw, hin⟩
        omega
    · rename_i hd
      refine .inr ⟨hpos, ⟨hpos, .inr hmem.2⟩, ?_⟩
      rintro w ⟨hw, rfl | hin⟩
      · by_contra hlt
        exact hd ⟨hw, .inr (not_le.1 hlt)⟩
      · exact hlow ⟨hw, hin⟩

variable {cfg : Config} {answers : α → Answers} {jitter : Int}

/-- The waits that were noted for some accounts. -/
def waits (cfg : Config) (answers : α → Answers) (l : List α) : Set Int :=
  {w | ∃ b ∈ l, w ∈ (visit cfg (answers b)).noted}

theorem waits_concat {l : List α} {a : α} {w : Int}
    (ha : (visit cfg (answers a)).noted = some w) :
    waits cfg answers (l ++ [a]) = insert w (waits cfg answers l) := by
  ext w'
  simp only [waits, List.mem_append, List.mem_singleton, Set.mem_ofPred_eq, Set.mem_insert_iff]
  constructor
  · rintro ⟨b, hb | rfl, hw'⟩
    · exact .inr ⟨b, hb, hw'⟩
    · rw [ha] at hw'
      exact .inl (Option.some.inj hw').symm
  · rintro (rfl | ⟨b, hb, hw'⟩)
    · exact ⟨a, .inr rfl, ha⟩
    · exact ⟨b, .inl hb, hw'⟩

/-- The loop does what is asked of it, from wherever it stands. -/
theorem stops_tryAll {shortest : Int} {done as : List α}
    (hdone : ∀ b ∈ done, (visit cfg (answers b)).GoesOn)
    (hleast : Least shortest (waits cfg answers done))
    (hlive : ∀ a ∈ as, visit cfg (answers a) ≠ .ended) :
    Stops cfg answers jitter (done ++ as)
      ⟨(tryAll cfg answers jitter shortest as).result,
        done ++ (tryAll cfg answers jitter shortest as).visited⟩ := by
  induction as generalizing shortest done with
  | nil =>
    simp only [tryAll, List.append_nil]
    refine .rateLimited hdone ?_ ?_
    · rintro ⟨b, hb, w, hw, hpos⟩
      rcases hleast with ⟨-, hws⟩ | ⟨hs, hmin⟩
      · exact absurd (hws w ⟨b, hb, hw⟩) (not_le.2 hpos)
      · rw [if_neg (ne_of_gt hs)]
        exact hmin
    · intro hall
      rcases hleast with ⟨rfl, -⟩ | ⟨hs, ⟨-, b, hb, hw⟩, -⟩
      · exact if_pos rfl
      · exact absurd (hall b hb shortest hw) (not_le.2 hs)
  | cons a as ih =>
    rw [List.forall_mem_cons] at hlive
    -- the run goes on: the account joins those that are done
    have hon {w : Int} (hw : (visit cfg (answers a)).noted = some w) :
        Stops cfg answers jitter (done ++ a :: as)
          ⟨(tryAll cfg answers jitter (note shortest w) as).result,
            done ++ a :: (tryAll cfg answers jitter (note shortest w) as).visited⟩ := by
      have hdone' : ∀ b ∈ done ++ [a], (visit cfg (answers b)).GoesOn := by
        intro b hb
        rcases List.mem_append.1 hb with hb | hb
        · exact hdone b hb
        · obtain rfl := List.mem_singleton.1 hb
          exact (visited_visit cfg _).goesOn hw
      have := ih hdone' (waits_concat hw ▸ hleast.note w) hlive.2
      rwa [List.append_assoc, List.append_assoc] at this
    rw [tryAll]
    cases hv : visit cfg (answers a) with
    | ended => exact absurd hv hlive.1
    | issued => exact .issued rfl hdone hv
    | permanent => exact .permanent rfl hdone hv
    | localError retry => exact .localError rfl hdone hv
    | cooling w | short w | panicked w | failed w =>
      rw [hv] at hon
      exact hon rfl

/-! ## The order of the accounts -/

/-- The loop of `ordered` that shuffles the accounts, from index `i` down.  The index that is drawn
for `i` is `rand i`. -/
def shuffle (rand : (i : Nat) → Fin (i + 1)) : Nat → Array α → Array α
  | 0, out => out
  | i + 1, out => shuffle rand i (out.swapIfInBounds (i + 1) (rand (i + 1)))

theorem shuffle_perm (rand : (i : Nat) → Fin (i + 1)) (i : Nat) (out : Array α) :
    (shuffle rand i out).toList.Perm out.toList := by
  induction i generalizing out with
  | zero => exact .refl _
  | succ i ih =>
    refine (ih _).trans ?_
    unfold Array.swapIfInBounds
    split
    · split
      · exact (Array.swap_perm _ _).toList
      · exact .refl _
    · exact .refl _

/-- `ordered`.  The level of an account is `none` where it cannot be read. -/
def ordered (rand : (i : Nat) → Fin (i + 1)) (level : α → Option ℚ) (group : List α) : List α :=
  if group.length < 2 then group
  else
    let out := (shuffle rand (group.length - 1) group.toArray).toList
    if out.all fun a => (level a).isSome then
      out.mergeSort fun x y => (level y).getD 0 ≤ (level x).getD 0
    else out

theorem ordered_perm (rand : (i : Nat) → Fin (i + 1)) (level : α → Option ℚ) (group : List α) :
    (ordered rand level group).Perm group := by
  unfold ordered
  split
  · exact .refl _
  · simp only
    split
    · exact (List.mergeSort_perm _ _).trans (shuffle_perm rand _ _)
    · exact shuffle_perm rand _ _

/-- The order of the authorities. -/
def rank : CA → Nat
  | .letsEncrypt => 0
  | .gts => 1
  | .zeroSSL => 2

/-- The groups of the chain. -/
def groups (ca : α → CA) (accounts : List α) : List (List α) :=
  ([CA.letsEncrypt, .gts, .zeroSSL].map fun c => accounts.filter fun a => ca a = c).filter
    fun g => !g.isEmpty

/-- The accounts in the order in which they are tried. -/
def tried (ca : α → CA) (rand : List α → (i : Nat) → Fin (i + 1)) (level : α → Option ℚ)
    (accounts : List α) : List α :=
  (groups ca accounts).flatMap fun g => ordered (rand g) level g

variable {ca : α → CA} {rand : List α → (i : Nat) → Fin (i + 1)} {level : α → Option ℚ}
  {accounts : List α}

/-- The groups are tried one after the other. -/
theorem tried_eq (ca : α → CA) (rand : List α → (i : Nat) → Fin (i + 1)) (level : α → Option ℚ)
    (accounts : List α) : ∃ le gts zero : List α,
    tried ca rand level accounts = le ++ gts ++ zero ∧
    le.Perm (accounts.filter fun a => ca a = .letsEncrypt) ∧
    gts.Perm (accounts.filter fun a => ca a = .gts) ∧
    zero.Perm (accounts.filter fun a => ca a = .zeroSSL) := by
  have hgroup (g : List α) (gs : List (List α)) :
      (((g :: gs).filter fun g => !g.isEmpty).flatMap fun g => ordered (rand g) level g) =
        ordered (rand g) level g ++
          ((gs.filter fun g => !g.isEmpty).flatMap fun g => ordered (rand g) level g) := by
    cases g with
    | nil => rfl
    | cons a g => rfl
  refine ⟨_, _, _, ?_, ordered_perm (rand (accounts.filter fun a => ca a = .letsEncrypt)) level _,
    ordered_perm (rand (accounts.filter fun a => ca a = .gts)) level _,
    ordered_perm (rand (accounts.filter fun a => ca a = .zeroSSL)) level _⟩
  simp only [tried, groups, List.map_cons, List.map_nil, hgroup, List.filter_nil, List.flatMap_nil,
    List.append_nil, List.append_assoc]

theorem filter_ca_perm (ca : α → CA) (l : List α) :
    ((l.filter fun a => ca a = .letsEncrypt) ++ (l.filter fun a => ca a = .gts) ++
      l.filter fun a => ca a = .zeroSSL).Perm l := by
  induction l with
  | nil => exact .refl _
  | cons a l ih =>
    cases h : ca a with
    | letsEncrypt => simpa [List.filter_cons, h] using ih
    | gts =>
      simp only [List.filter_cons, h, reduceCtorEq, decide_true, decide_false, if_true]
      exact (List.perm_middle.append_right _).trans (ih.cons a)
    | zeroSSL =>
      simp only [List.filter_cons, h, reduceCtorEq, decide_true, decide_false, if_true]
      exact List.perm_middle.trans (ih.cons a)

theorem tried_perm : (tried ca rand level accounts).Perm accounts := by
  obtain ⟨le, gts, zero, heq, hle, hgts, hzero⟩ := tried_eq ca rand level accounts
  rw [heq]
  exact ((hle.append hgts).append hzero).trans (filter_ca_perm ca accounts)

/-- Let's Encrypt comes first, then GTS, then ZeroSSL. -/
theorem tried_pairwise :
    (tried ca rand level accounts).Pairwise fun a b => rank (ca a) ≤ rank (ca b) := by
  obtain ⟨le, gts, zero, heq, hle, hgts, hzero⟩ := tried_eq ca rand level accounts
  have hca {g : List α} {c : CA} (hg : g.Perm (accounts.filter fun a => ca a = c)) :
      ∀ a ∈ g, ca a = c := by
    intro a ha
    simpa using (List.mem_filter.1 (hg.mem_iff.1 ha)).2
  have hsame {g : List α} {c : CA} (hg : g.Perm (accounts.filter fun a => ca a = c)) :
      g.Pairwise fun a b => rank (ca a) ≤ rank (ca b) := by
    refine List.pairwise_of_forall_mem_list fun a ha b hb => ?_
    rw [hca hg a ha, hca hg b hb]
  rw [heq, List.pairwise_append, List.pairwise_append]
  refine ⟨⟨hsame hle, hsame hgts, fun a ha b hb => ?_⟩, hsame hzero, fun a ha b hb => ?_⟩
  · rw [hca hle a ha, hca hgts b hb]
    decide
  · rw [hca hzero b hb]
    rcases List.mem_append.1 ha with ha | ha
    · rw [hca hle a ha]
      decide
    · rw [hca hgts a ha]
      decide

/-! ## The run -/

/-- `run`.  For the jitter, `Rand` returns `draw`. -/
def run (cfg : Config) (ca : α → CA) (rand : List α → (i : Nat) → Fin (i + 1))
    (level : α → Option ℚ) (answers : α → Answers) (draw : Fin 10) (accounts : List α) : Run α :=
  tryAll cfg answers ((1 + (draw.val : Int)) * second) 0 (tried ca rand level accounts)

/-- **The chain spills over.**  A run that is neither cancelled nor out of time goes through the
accounts by authority, each once, and stops as `Stops` says: with the first success, with an error
that ends it, or with the shortest wait after all of them.  `Visited` says when an account is dealt
with in which way. -/
theorem run_spills_over (hnodup : accounts.Nodup)
    (hlive : ∀ a ∈ accounts, (answers a).stopped = false ∧ (answers a).ended = false)
    (draw : Fin 10) :
    (∀ a, Visited cfg (answers a) (visit cfg (answers a))) ∧
    ∃ order : List α, order.Perm accounts ∧ order.Nodup ∧
      (order.Pairwise fun a b => rank (ca a) ≤ rank (ca b)) ∧
      Stops cfg answers ((1 + (draw.val : Int)) * second) order
        (run cfg ca rand level answers draw accounts) := by
  refine ⟨fun a => visited_visit cfg (answers a), tried ca rand level accounts, tried_perm,
    tried_perm.nodup_iff.2 hnodup, tried_pairwise, ?_⟩
  have hstart : Least 0 (waits cfg answers []) := .inl ⟨rfl, fun w hw => by
    obtain ⟨b, hb, -⟩ := hw
    exact absurd hb List.not_mem_nil⟩
  refine stops_tryAll (List.forall_mem_nil _) hstart fun a ha hv => ?_
  obtain ⟨hover, hended⟩ := hlive a (tried_perm.mem_iff.1 ha)
  have hvisited := visited_visit cfg (answers a)
  rw [hv] at hvisited
  cases hvisited with
  | ended h =>
    rcases h with h | h
    · rw [hover] at h
      cases h
    · rw [hended] at h
      cases h

/-- The defaults. -/
def defaults : Config := ⟨3600 * second, 60 * second, 21600 * second⟩

/-- An account whose order ends with `obtain`, where the store does not fail. -/
def ordering (cool : Int) (reserve : Reserve) (obtain : Option Error) : Answers :=
  ⟨false, some cool, none, reserve, some 0, obtain, false, false, ⟨some 0, some 1, true, some 0⟩⟩

/-- The account of Let's Encrypt waits for five minutes, that of GTS has no budget for two, and the
order with ZeroSSL fails, which puts it on a cooldown of one minute. -/
def busy : CA → Answers
  | .letsEncrypt => ordering (300 * second) .granted none
  | .gts => ordering 0 (.refused (120 * second) (by decide)) none
  | .zeroSSL => ordering 0 .granted (some ⟨none, false⟩)

/-- The caller is told to come back after one minute, and a few seconds. -/
theorem run_spills_over_busy :
    (run defaults id (fun _ _ => 0) (fun _ => none) busy 4 [.gts, .zeroSSL, .letsEncrypt]).result =
      .rateLimited (65 * second) ∧
    ∃ order : List CA, order.Perm [.gts, .zeroSSL, .letsEncrypt] ∧ order.Nodup ∧
      (order.Pairwise fun a b => rank a ≤ rank b) ∧
      Stops defaults busy ((1 + ((4 : Fin 10).val : Int)) * second) order
        (run defaults id (fun _ _ => 0) (fun _ => none) busy 4 [.gts, .zeroSSL, .letsEncrypt]) :=
  ⟨by decide +kernel, (run_spills_over (by decide) (by
    intro a _
    cases a <;> exact ⟨rfl, rfl⟩) 4).2⟩

/-- The order of the only account panics.  There is no cooldown, no wait for a budget and no
failure, and the retry time is half a minute, not the default of an hour. -/
theorem panic_shortens_retry :
    (run defaults id (fun _ _ => 0) (fun _ => none)
      (fun _ => ordering 0 .granted (some (panicked ⟨none, false⟩))) 0 [.letsEncrypt]).result =
        .rateLimited (30 * second + 1 * second) ∧
    visit defaults (ordering 0 .granted (some (panicked ⟨none, false⟩))) =
      .panicked (30 * second) ∧
    30 * second ≠ defaults.cooldownDefault :=
  ⟨by decide +kernel, by decide +kernel, by decide⟩

end Tunneld.Spillover

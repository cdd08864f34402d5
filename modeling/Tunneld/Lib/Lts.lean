import Mathlib.Logic.Relation
import Mathlib.Data.Option.Basic

/-!
# Executable transition systems

A concurrent program is modelled here by a *partial step function*: `step s a` is the state after
the atomic action `a`, or `none` when `a` cannot be taken in `s`.  The scheduler is not part of the
model; any action that is enabled may come next, so a statement about every reachable state is a
statement about every interleaving.

`Lts.Reach g` is reachability by runs all of whose steps satisfy the guard `g`, a relation between
a state and the action taken there.  Assumptions on the environment ("ids are never repeated") and
the exact condition under which a defective protocol is still correct are both guards, and
`Lts.always` is the unguarded case.  Safety goes by one induction, `Lts.Reach.invariant`, and that a
run can be brought to its end by another, `Lts.exists_later_of_measure`.

Because `step` is a function, a run is a list of actions and can be computed: `Lts.exec` replays
one, and `Lts.reach_of_exec` turns a successful replay into reachability.  `Lts.execWith` also
tests a decidable guard at every step, for the runs that have to satisfy one.

What a state does not say about how it was reached can be recorded: `Lts.recording` is the same
system with a record that every step adds to.
-/

universe u v

/-- A transition system: where it starts, and what each action does where it is enabled. -/
structure Lts (σ : Type u) (α : Type v) where
  init : σ
  /-- The state after an action, or `none` if the action is not enabled. -/
  step : σ → α → Option σ

namespace Lts

variable {σ : Type u} {α : Type v} (L : Lts σ α)

/-- The guard that allows every step. -/
def always : σ → α → Prop := fun _ _ => True

instance (s : σ) (a : α) : Decidable (always s a) := .isTrue trivial

/-- One step that satisfies the guard `g`. -/
def Move (g : σ → α → Prop) (s t : σ) : Prop := ∃ a, g s a ∧ L.step s a = some t

/-- The state `t` can be reached from `s` by steps that satisfy `g`. -/
def Later (g : σ → α → Prop) : σ → σ → Prop := Relation.ReflTransGen (L.Move g)

/-- The states of the runs all of whose steps satisfy `g`. -/
def Reach (g : σ → α → Prop) (s : σ) : Prop := L.Later g L.init s

variable {L} {g : σ → α → Prop} {s t : σ}

/-- An action behind a test that was taken: the test holds, and the state is the one named. -/
theorem taken {c : Prop} [Decidable c] {x y : σ} (h : (if c then some x else none) = some y) :
    c ∧ y = x := by
  obtain ⟨hc, hxy⟩ := Option.ite_none_right_eq_some.1 h
  exact ⟨hc, (Option.some.inj hxy).symm⟩

theorem Reach.later (h : L.Reach g s) (hl : L.Later g s t) : L.Reach g t :=
  Relation.ReflTransGen.trans h hl

variable {P : σ → Prop}

/-- **The invariant rule.**  What holds initially and is kept by every guarded step from a
reachable state holds in every reachable state. -/
theorem Reach.invariant (hinit : P L.init)
    (hstep : ∀ s a t, L.Reach g s → P s → g s a → L.step s a = some t → P t) (h : L.Reach g s) :
    P s := by
  induction h with
  | refl => exact hinit
  | tail hr hm ih =>
    obtain ⟨a, hg, hs⟩ := hm
    exact hstep _ a _ hr ih hg hs

/-- What every guarded step keeps, once true, stays true for the rest of the run. -/
theorem Later.stable (hstep : ∀ s a t, P s → g s a → L.step s a = some t → P t) (h : L.Later g s t)
    (hs : P s) : P t := by
  induction h with
  | refl => exact hs
  | tail _ hm ih =>
    obtain ⟨a, hg, hst⟩ := hm
    exact hstep _ a _ ih hg hst

/-- **The progress rule.**  If short of `Q` there is always a step that keeps `P` and makes the
number `m` smaller, then `Q` can be reached. -/
theorem exists_later_of_measure {P Q : σ → Prop} (m : σ → Nat)
    (hstep : ∀ s, P s → ¬ Q s → ∃ a t, g s a ∧ L.step s a = some t ∧ P t ∧ m t < m s)
    (hs : P s) : ∃ t, L.Later g s t ∧ P t ∧ Q t := by
  induction hm : m s using Nat.strongRecOn generalizing s with
  | ind n ih =>
    by_cases hq : Q s
    · exact ⟨s, .refl, hs, hq⟩
    · obtain ⟨a, u, hg, hu, hpu, hlt⟩ := hstep s hs hq
      obtain ⟨t, hl, ht⟩ := ih (m u) (hm ▸ hlt) hpu rfl
      exact ⟨t, .head ⟨a, hg, hu⟩ hl, ht⟩

variable (L) in
/-- Some state of a run to `s` had the property `P`. -/
def Before (g : σ → α → Prop) (P : σ → Prop) (s : σ) : Prop :=
  ∃ u, L.Reach g u ∧ L.Later g u s ∧ P u

theorem Before.now (h : L.Reach g s) (hp : P s) : L.Before g P s :=
  ⟨s, h, .refl, hp⟩

theorem Before.step {a : α} (h : L.Before g P s) (hg : g s a) (hs : L.step s a = some t) :
    L.Before g P t := by
  obtain ⟨u, hu, hl, hp⟩ := h
  exact ⟨u, hu, hl.tail ⟨a, hg, hs⟩, hp⟩

theorem Before.imp {P Q : σ → Prop} (h : L.Before g P s) (hpq : ∀ u, P u → Q u) :
    L.Before g Q s := by
  obtain ⟨u, hu, hl, hp⟩ := h
  exact ⟨u, hu, hl, hpq u hp⟩

/-! ## History -/

section Recording

variable {γ : Type*} {note : σ → α → σ → γ → γ} {h₀ : γ}

variable (L) in
/-- The same system with a record of its history, `h₀` at first, to which `note` adds what a step
from one state to another did. -/
def recording (h₀ : γ) (note : σ → α → σ → γ → γ) : Lts (σ × γ) α :=
  ⟨(L.init, h₀), fun s a => (L.step s.1 a).map fun t => (t, note s.1 a t s.2)⟩

theorem recording_step {s t : σ × γ} {a : α} (h : (L.recording h₀ note).step s a = some t) :
    L.step s.1 a = some t.1 ∧ t.2 = note s.1 a t.1 s.2 := by
  obtain ⟨u, hu, rfl⟩ := Option.map_eq_some_iff.1 h
  exact ⟨hu, rfl⟩

/-- Without the record, a run is a run of the system. -/
theorem Reach.of_recording {s : σ × γ}
    (h : (L.recording h₀ note).Reach (fun s a => g s.1 a) s) : L.Reach g s.1 := by
  induction h with
  | refl => exact .refl
  | tail _ hm ih =>
    obtain ⟨a, ha, hs⟩ := hm
    exact ih.tail ⟨a, ha, (recording_step hs).1⟩

end Recording

/-! ## Replaying a run -/

variable (L)

/-- Take the actions of a list in order, from a given state. -/
def execFrom : σ → List α → Option σ
  | s, [] => some s
  | s, a :: l => (L.step s a).bind fun t => execFrom t l

/-- Take the actions of a list in order, from the start. -/
def exec (l : List α) : Option σ := L.execFrom L.init l

/-- Take the actions of a list in order, giving up at a step outside the guard `g`. -/
def execWith (g : σ → α → Prop) [∀ s a, Decidable (g s a)] : σ → List α → Option σ
  | s, [] => some s
  | s, a :: l => if g s a then (L.step s a).bind fun t => execWith g t l else none

variable {L} {l : List α}

theorem later_of_execFrom (h : L.execFrom s l = some t) : L.Later always s t := by
  induction l generalizing s with
  | nil =>
    rw [execFrom, Option.some_inj] at h
    exact h ▸ Relation.ReflTransGen.refl
  | cons a l ih =>
    rw [execFrom, Option.bind_eq_some_iff] at h
    obtain ⟨u, hu, h⟩ := h
    exact Relation.ReflTransGen.head ⟨a, trivial, hu⟩ (ih h)

/-- A run that can be replayed reaches its last state. -/
theorem reach_of_exec (h : L.exec l = some s) : L.Reach always s :=
  later_of_execFrom h

theorem later_of_execWith [∀ s a, Decidable (g s a)] (h : L.execWith g s l = some t) :
    L.Later g s t := by
  induction l generalizing s with
  | nil =>
    rw [execWith, Option.some_inj] at h
    exact h ▸ Relation.ReflTransGen.refl
  | cons a l ih =>
    rw [execWith] at h
    split at h
    · rename_i hg
      rw [Option.bind_eq_some_iff] at h
      obtain ⟨u, hu, h⟩ := h
      exact Relation.ReflTransGen.head ⟨a, hg, hu⟩ (ih h)
    · exact absurd h (by simp)

/-- A run that can be replayed under a test for `g` reaches its last state by steps in `g`. -/
theorem reach_of_execWith [∀ s a, Decidable (g s a)] (h : L.execWith g L.init l = some s) :
    L.Reach g s :=
  later_of_execWith h

/-- A replay that ends in a state with the property `P`, for runs that are long or compute with
numbers: `decide +kernel` evaluates the hypothesis. -/
theorem exists_later_of_any [∀ s a, Decidable (g s a)] [DecidablePred P]
    (h : (L.execWith g s l).any (fun t => P t) = true) : ∃ t, L.Later g s t ∧ P t := by
  obtain ⟨t, hrun, ht⟩ := (Option.any_eq_true _ _).1 h
  exact ⟨t, later_of_execWith hrun, of_decide_eq_true ht⟩

/-- The same from the start. -/
theorem exists_reach_of_any [∀ s a, Decidable (g s a)] [DecidablePred P]
    (h : (L.execWith g L.init l).any (fun s => P s) = true) : ∃ s, L.Reach g s ∧ P s :=
  exists_later_of_any h

end Lts

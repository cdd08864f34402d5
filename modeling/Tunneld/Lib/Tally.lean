import Mathlib.Data.Finset.Card

/-!
# Counters over a family

A counter that goes up when somebody comes in and down when they leave should equal the number of
those who are in.  `Tally P f n` says so for a family `f` of states, one for each member, and a
property `P` of a member's state: exactly `n` of them have it.  The family may be infinite; the
property may not hold of infinitely many.

A step of one member replaces its state, which is a `Function.update`.  The member comes in
(`Tally.enter`), leaves (`Tally.leave`) or stays on its side (`Tally.keep`); two tallies of one
family are compared by `Tally.le`.
-/

universe u v

variable {ι : Type u} {τ : Type v} {P Q : τ → Prop} {f : ι → τ} {n m : Int}

/-- Exactly `n` members of the family `f` have the property `P`. -/
def Tally (P : τ → Prop) (f : ι → τ) (n : Int) : Prop :=
  ∃ F : Finset ι, (∀ i, i ∈ F ↔ P (f i)) ∧ (F.card : Int) = n

namespace Tally

theorem zero (h : ∀ i, ¬ P (f i)) : Tally P f 0 :=
  ⟨∅, fun i => by simpa using h i, rfl⟩

/-- A counter at zero: nobody is in. -/
theorem none (h : Tally P f 0) (i : ι) : ¬ P (f i) := by
  obtain ⟨F, hF, hcard⟩ := h
  rw [← hF, Finset.card_eq_zero.1 (Int.ofNat_eq_zero.1 hcard)]
  exact Finset.notMem_empty i

/-- Fewer members have the stronger property. -/
theorem le (h : Tally P f n) (h' : Tally Q f m) (himp : ∀ x, P x → Q x) : n ≤ m := by
  obtain ⟨F, hF, rfl⟩ := h
  obtain ⟨G, hG, rfl⟩ := h'
  refine Int.ofNat_le.2 (Finset.card_le_card fun i hi => ?_)
  exact (hG i).2 (himp _ ((hF i).1 hi))

section Update

variable [DecidableEq ι] {i : ι} {x : τ}

theorem enter (h : Tally P f n) (hi : ¬ P (f i)) (hx : P x) :
    Tally P (Function.update f i x) (n + 1) := by
  obtain ⟨F, hF, rfl⟩ := h
  refine ⟨insert i F, fun j => ?_, ?_⟩
  · by_cases hj : j = i
    · simp [hj, hx]
    · simp [hj, hF]
  · rw [Finset.card_insert_of_notMem (mt (hF i).1 hi)]
    push_cast
    rfl

theorem leave (h : Tally P f n) (hi : P (f i)) (hx : ¬ P x) :
    Tally P (Function.update f i x) (n - 1) := by
  obtain ⟨F, hF, rfl⟩ := h
  refine ⟨F.erase i, fun j => ?_, ?_⟩
  · by_cases hj : j = i
    · simp [hj, hx]
    · simp [hj, hF]
  · have hmem := (hF i).2 hi
    rw [Finset.card_erase_of_mem hmem, Int.natCast_sub (Finset.card_pos.2 ⟨i, hmem⟩)]
    rfl

theorem keep (h : Tally P f n) (hx : P x ↔ P (f i)) : Tally P (Function.update f i x) n := by
  obtain ⟨F, hF, rfl⟩ := h
  refine ⟨F, fun j => ?_, rfl⟩
  by_cases hj : j = i
  · subst hj
    simp [hF, hx]
  · simp [hj, hF]

end Update

end Tally

import Mathlib.Algebra.Group.Action.Defs
import Mathlib.Algebra.Order.BigOperators.Group.Finset

/-!
# Work counted by windows of time

Workers do one piece of work after another.  A piece is begun at one instant, when it is entered in
a book, and done at a later one.  The book is kept by windows: an instant belongs to a window, and
the windows follow one another.  The book limits what is *begun and done* in a window; the question
is how much is *done* in it.

The difference is what a worker carried into the window, and that is at most one piece: when it is
done with it, the worker is in the window, and so is everything it begins from then on
(`Sequential.carried`).  Hence what all workers do in a window is what they begin and do in it, and
one piece for each of them (`sum_doneIn_le`).
-/

universe u

namespace Windows

/-- A piece of work. -/
structure Work where
  begun : Nat
  done : Nat
  size : Nat

variable (win : Nat → Nat) (weight : Nat → Nat)

/-- What the pieces with the property `p` weigh. -/
def amount (p : Work → Bool) : List Work → Nat
  | [] => 0
  | w :: l => (if p w then weight w.size else 0) + amount p l

/-- The piece was done in window `i`. -/
def doneIn (i : Nat) (w : Work) : Bool := win w.done = i

/-- The piece was begun and done in window `i`. -/
def within (i : Nat) (w : Work) : Bool := win w.begun = i && win w.done = i

/-- The piece was done in window `i` and begun in another one. -/
def carried (i : Nat) (w : Work) : Bool := win w.done = i && win w.begun ≠ i

/-- The work of one worker, the last piece first: it begins a piece when it is done with the one
before. -/
structure Sequential (l : List Work) : Prop where
  begun_le : ∀ w ∈ l, w.begun ≤ w.done
  pairwise : l.Pairwise fun w before => before.done ≤ w.begun

theorem Sequential.nil : Sequential [] := ⟨by simp, .nil⟩

variable {l : List Work}

theorem Sequential.cons {w : Work} (h : Sequential l) (hw : w.begun ≤ w.done)
    (hle : ∀ v ∈ l, v.done ≤ w.begun) : Sequential (w :: l) := by
  refine ⟨fun v hv => ?_, .cons hle h.pairwise⟩
  obtain rfl | hv := List.mem_cons.1 hv
  · exact hw
  · exact h.begun_le v hv

variable {win weight}

theorem amount_cons (p : Work → Bool) (w : Work) (l : List Work) :
    amount weight p (w :: l) = (if p w then weight w.size else 0) + amount weight p l :=
  rfl

variable {b : Nat}

/-- The pieces with a property weigh at most as many times the weight of the heaviest. -/
theorem amount_le {p : Work → Bool} (hb : ∀ w ∈ l, weight w.size ≤ b) :
    amount weight p l ≤ (l.filter p).length * b := by
  induction l with
  | nil => exact Nat.zero_le _
  | cons w l ih =>
    have ih := ih fun v hv => hb v (List.mem_cons_of_mem w hv)
    rw [amount_cons]
    by_cases h : p w = true
    · rw [if_pos h, List.filter_cons_of_pos h, List.length_cons, Nat.succ_mul, Nat.add_comm]
      exact Nat.add_le_add ih (hb w List.mem_cons_self)
    · rw [if_neg h, List.filter_cons_of_neg h, Nat.zero_add]
      exact ih

/-- What is done in a window was begun in it or carried into it. -/
theorem amount_doneIn (i : Nat) (l : List Work) :
    amount weight (doneIn win i) l =
      amount weight (within win i) l + amount weight (carried win i) l := by
  induction l with
  | nil => rfl
  | cons w l ih =>
    rw [amount_cons, amount_cons, amount_cons, ih]
    by_cases hd : win w.done = i <;> by_cases hb : win w.begun = i <;>
      simp [doneIn, within, carried, hd, hb] <;> omega

/-- A worker carries at most one piece into a window. -/
theorem Sequential.carried (h : Sequential l) (hmono : Monotone win) (i : Nat) :
    (l.filter (Windows.carried win i)).length ≤ 1 := by
  have hpair : (l.filter (Windows.carried win i)).Pairwise fun _ _ => False := by
    refine (h.pairwise.filter _).imp_of_mem fun {w v} hw hv hle => ?_
    have hdone : win w.done = i ∧ win w.begun ≠ i := by
      simpa [Windows.carried] using (List.mem_filter.1 hw).2
    have hbefore : win v.done = i ∧ win v.begun ≠ i := by
      simpa [Windows.carried] using (List.mem_filter.1 hv).2
    -- Done with `v` the worker is in the window, and it begins `w` after that.
    have h₁ := hmono hle
    have h₂ := hmono (h.begun_le w (List.mem_filter.1 hw).1)
    omega
  generalize l.filter (Windows.carried win i) = c at hpair
  rcases c with _ | ⟨w, _ | ⟨v, c⟩⟩
  · exact Nat.zero_le _
  · exact le_rfl
  · exact (List.rel_of_pairwise_cons hpair List.mem_cons_self).elim

theorem Sequential.amount_carried_le (h : Sequential l) (hmono : Monotone win)
    (hb : ∀ w ∈ l, weight w.size ≤ b) (i : Nat) : amount weight (Windows.carried win i) l ≤ b := by
  calc amount weight (Windows.carried win i) l
      ≤ (l.filter (Windows.carried win i)).length * b := amount_le hb
    _ ≤ 1 * b := Nat.mul_le_mul_right b (h.carried hmono i)
    _ = b := one_mul b

variable {κ : Type u} [Fintype κ]

/-- What all workers do in a window is at most what they begin and do in it, and one piece for each
worker. -/
theorem sum_doneIn_le {log : κ → List Work} (hseq : ∀ k, Sequential (log k)) (hmono : Monotone win)
    (hb : ∀ k, ∀ w ∈ log k, weight w.size ≤ b) (i : Nat) :
    ∑ k, amount weight (doneIn win i) (log k) ≤
      ∑ k, amount weight (within win i) (log k) + Fintype.card κ * b := by
  calc ∑ k, amount weight (doneIn win i) (log k)
      ≤ ∑ k, (amount weight (within win i) (log k) + b) := by
        refine Finset.sum_le_sum fun k _ => ?_
        rw [amount_doneIn]
        exact Nat.add_le_add_left ((hseq k).amount_carried_le hmono (hb k) i) _
    _ = ∑ k, amount weight (within win i) (log k) + Fintype.card κ * b := by
        rw [Finset.sum_add_distrib, Finset.sum_const, Finset.card_univ, smul_eq_mul]

end Windows

import Mathlib.Data.List.Basic

/-!
# Lines, complete and incomplete

A log file is a sequence of lines, each ended by a newline, and possibly a last piece that is not.
`split` takes such a file apart into the complete lines and the rest, and `join` puts complete lines
together; `split_join` says that what was written can be read back, whatever incomplete piece is
behind it.  `keep` is how much of a file to keep so that only the complete lines are left.
-/

universe u

namespace Lines

variable {α : Type u} (nl : α)

/-- The text of complete lines. -/
def join (ls : List (List α)) : List α := (ls.map (· ++ [nl])).flatten

@[simp] theorem join_nil : join nl ([] : List (List α)) = [] := rfl

@[simp] theorem join_cons (l : List α) (ls : List (List α)) :
    join nl (l :: ls) = l ++ nl :: join nl ls := by
  simp [join]

theorem join_concat (ls : List (List α)) (l : List α) :
    join nl (ls ++ [l]) = join nl ls ++ (l ++ [nl]) := by
  simp [join]

variable {ls : List (List α)}

theorem join_eq_nil : join nl ls = [] ↔ ls = [] := by
  cases ls <;> simp

variable [DecidableEq α]

/-- The complete lines of a text, and what is behind the last of them. -/
def split : List α → List (List α) × List α
  | [] => ([], [])
  | a :: l =>
    if a = nl then ([] :: (split l).1, (split l).2)
    else match (split l).1 with
      | [] => ([], a :: (split l).2)
      | x :: xs => ((a :: x) :: xs, (split l).2)

/-- How long the complete lines are: the place behind the last newline. -/
def keep (l : List α) : Nat := (l.reverse.dropWhile (· ≠ nl)).length

variable {nl} {r : List α}

theorem split_rest (h : nl ∉ r) : split nl r = ([], r) := by
  induction r with
  | nil => rfl
  | cons a r ih =>
    obtain ⟨ha, hr⟩ : nl ≠ a ∧ nl ∉ r := by simpa using h
    rw [split, if_neg (Ne.symm ha), ih hr]

theorem split_line {l r : List α} (h : nl ∉ l) :
    split nl (l ++ nl :: r) = (l :: (split nl r).1, (split nl r).2) := by
  induction l with
  | nil => simp [split]
  | cons a l ih =>
    obtain ⟨ha, hl⟩ : nl ≠ a ∧ nl ∉ l := by simpa using h
    rw [List.cons_append, split, if_neg (Ne.symm ha), ih hl]

/-- Complete lines can be read back, whatever is behind them. -/
theorem split_join (hls : ∀ l ∈ ls, nl ∉ l) (hr : nl ∉ r) :
    split nl (join nl ls ++ r) = (ls, r) := by
  induction ls with
  | nil => exact split_rest hr
  | cons l ls ih =>
    obtain ⟨hl, hls⟩ := List.forall_mem_cons.1 hls
    rw [join_cons, List.append_assoc, List.cons_append, split_line hl, ih hls]

/-- The end of `join` is a newline. -/
theorem keep_join (hr : nl ∉ r) : keep nl (join nl ls ++ r) = (join nl ls).length := by
  have hdrop : (join nl ls ++ r).reverse.dropWhile (· ≠ nl) = (join nl ls).reverse := by
    rw [List.reverse_append, List.dropWhile_append_of_pos]
    · rcases List.eq_nil_or_concat ls with rfl | ⟨ls', l, rfl⟩
      · rfl
      · rw [List.concat_eq_append, join_concat, ← List.append_assoc]
        simp
    · intro a ha
      simpa using fun h : a = nl => hr (h ▸ List.mem_reverse.1 ha)
  rw [keep, hdrop, List.length_reverse]

end Lines

import Mathlib.Logic.Function.Basic

/-!
# One value of a table changes

The state of a concurrent program is a table, with a row for each of the parties, and a step changes
one row: `Function.update`.  What has to be checked of the new table is then a question about the
new row, since the others were there before.  `Function.forall_update_iff` says so for a property of
every row; here is that a view of the rows that the new one does not change is not changed at all.
-/

universe u v w

namespace Update

variable {ι : Type u} {α : Type v} {β : Type w} [DecidableEq ι] {f : ι → α} {i : ι} {x : α}

/-- What does not tell the new row from the old one does not notice the change. -/
theorem view_eq (g : α → β) (hg : g x = g (f i)) (j : ι) :
    g (Function.update f i x j) = g (f j) :=
  (Function.forall_update_iff f fun j y => g y = g (f j)).2 ⟨hg, fun _ _ => rfl⟩ j

end Update

import Mathlib.Data.List.Sort

/-!
# Sorted and joined strings

Strings of ASCII characters in the order of their bytes.  A sorted list does not depend on the order
of the list that was sorted (`sortStrings_perm`).
-/

namespace Strings

/-- The order of strings: by the first place where they differ. -/
def le : List Char → List Char → Bool
  | [], _ => true
  | _ :: _, [] => false
  | a :: l, b :: m => decide (a.toNat < b.toNat) || a.toNat == b.toNat && le l m

theorem le_total (l m : List Char) : le l m = true ∨ le m l = true := by
  induction l generalizing m with
  | nil => exact .inl rfl
  | cons a l ih =>
    cases m with
    | nil => exact .inr rfl
    | cons b m =>
      simp only [le, Bool.or_eq_true, Bool.and_eq_true, decide_eq_true_eq, beq_iff_eq]
      rcases Nat.lt_trichotomy a.toNat b.toNat with hab | hab | hab
      · exact .inl (.inl hab)
      · exact (ih m).imp (fun h => .inr ⟨hab, h⟩) fun h => .inr ⟨hab.symm, h⟩
      · exact .inr (.inl hab)

theorem le_trans {l m n : List Char} (h : le l m = true) (h' : le m n = true) : le l n = true := by
  induction l generalizing m n with
  | nil => rfl
  | cons a l ih =>
    cases m with
    | nil => cases h
    | cons b m =>
      cases n with
      | nil => cases h'
      | cons c n =>
        simp only [le, Bool.or_eq_true, Bool.and_eq_true, decide_eq_true_eq, beq_iff_eq] at h h' ⊢
        rcases h with h | ⟨hab, h⟩
        · omega
        · rcases h' with h' | ⟨hbc, h'⟩
          · omega
          · exact .inr ⟨hab.trans hbc, ih h h'⟩

theorem le_antisymm {l m : List Char} (h : le l m = true) (h' : le m l = true) : l = m := by
  induction l generalizing m with
  | nil =>
    cases m with
    | nil => rfl
    | cons b m => cases h'
  | cons a l ih =>
    cases m with
    | nil => cases h
    | cons b m =>
      simp only [le, Bool.or_eq_true, Bool.and_eq_true, decide_eq_true_eq, beq_iff_eq] at h h'
      rcases h with h | ⟨hab, h⟩
      · omega
      · rcases h' with h' | ⟨-, h'⟩
        · omega
        · rw [Char.toNat_inj.1 hab, ih h h']

instance : Std.Total fun l m => le l m = true := ⟨le_total⟩

instance : IsTrans (List Char) fun l m => le l m = true := ⟨fun _ _ _ => le_trans⟩

instance : Std.Antisymm fun l m => le l m = true := ⟨fun _ _ => le_antisymm⟩

/-- `sort.Strings`. -/
def sortStrings (l : List (List Char)) : List (List Char) :=
  l.insertionSort fun l m => le l m = true

theorem sortStrings_perm {l m : List (List Char)} (h : l.Perm m) :
    sortStrings l = sortStrings m := by
  have hperm : (sortStrings l).Perm (sortStrings m) :=
    (List.perm_insertionSort _ l).trans (h.trans (List.perm_insertionSort _ m).symm)
  exact hperm.eq_of_pairwise' (List.pairwise_insertionSort _ l) (List.pairwise_insertionSort _ m)

/-- `strings.Join`. -/
def join (sep : List Char) : List (List Char) → List Char
  | [] => []
  | [s] => s
  | s :: ss => s ++ sep ++ join sep ss

end Strings

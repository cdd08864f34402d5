import Mathlib.Data.List.Basic
import Mathlib.Data.List.Induction

/-!
# Hexadecimal

Bytes written as lower-case hexadecimal digits, two for each byte (`Hex.encode`).

Numbers are written without leading zeros (`Hex.text`).  Read back from digits of any case, a number
is written the same way again exactly if there were no leading zeros (`Hex.text_value_iff`).
-/

namespace Hex

/-- The digits. -/
def digits : List Char :=
  ['0', '1', '2', '3', '4', '5', '6', '7', '8', '9', 'a', 'b', 'c', 'd', 'e', 'f']

/-- The digit of a number below sixteen. -/
def digit (n : Nat) : Char := digits.getD n '0'

/-- The digits of a byte string. -/
def encode : List UInt8 → List Char
  | [] => []
  | b :: l => digit (b.toNat / 16) :: digit (b.toNat % 16) :: encode l

theorem length_encode (l : List UInt8) : (encode l).length = 2 * l.length := by
  induction l with
  | nil => rfl
  | cons b l ih =>
    simp only [encode, List.length_cons, ih]
    omega

theorem digit_ascii (n : Nat) : (digit n).toNat < 128 := by
  by_cases h : n < 16
  · have hall : ∀ i < 16, (digit i).toNat < 128 := by decide
    exact hall n h
  · rw [digit, List.getD_eq_getElem?_getD, List.getElem?_eq_none (Nat.le_of_not_lt h)]
    decide

theorem encode_ascii (l : List UInt8) : ∀ c ∈ encode l, c.toNat < 128 := by
  induction l with
  | nil => exact fun c hc => absurd hc List.not_mem_nil
  | cons b l ih =>
    rw [encode]
    simp only [List.forall_mem_cons]
    exact ⟨digit_ascii _, digit_ascii _, ih⟩

/-! ## Numbers -/

/-- A number without leading zeros.  The first argument is how many digits to write at most. -/
def textUpTo : Nat → Nat → List Char
  | 0, _ => []
  | k + 1, n => if n < 16 then [digit n] else textUpTo k (n / 16) ++ [digit (n % 16)]

/-- A number without leading zeros. -/
def text (n : Nat) : List Char := textUpTo (n + 1) n

theorem textUpTo_eq (k j n : Nat) (hk : n < k) (hj : n < j) : textUpTo k n = textUpTo j n := by
  induction k generalizing j n with
  | zero => exact absurd hk (Nat.not_lt_zero n)
  | succ k ih =>
    cases j with
    | zero => exact absurd hj (Nat.not_lt_zero n)
    | succ j =>
      rw [textUpTo, textUpTo]
      split
      · rfl
      · rw [ih j (n / 16) (by omega) (by omega)]

theorem text_of_lt {n : Nat} (h : n < 16) : text n = [digit n] := by
  rw [text, textUpTo, if_pos h]

theorem text_of_le {n : Nat} (h : 16 ≤ n) : text n = text (n / 16) ++ [digit (n % 16)] := by
  rw [text, textUpTo, if_neg (Nat.not_lt.2 h), text,
    textUpTo_eq n (n / 16 + 1) (n / 16) (by omega) (by omega)]

/-- The capital digits. -/
def capitals : List Char :=
  ['0', '1', '2', '3', '4', '5', '6', '7', '8', '9', 'A', 'B', 'C', 'D', 'E', 'F']

/-- A digit as it may be written: its value, and whether it is a capital. -/
def write (d : Fin 16 × Bool) : Char := if d.2 then capitals.getD d.1 '0' else digit d.1

/-- The number that digits are read as. -/
def value (ds : List (Fin 16 × Bool)) : Nat := ds.foldl (fun n d => n * 16 + d.1) 0

theorem value_concat (ds : List (Fin 16 × Bool)) (d : Fin 16 × Bool) :
    value (ds ++ [d]) = value ds * 16 + d.1 := by
  rw [value, List.foldl_append]
  rfl

/-- There are digits, and the first is not zero unless it is the only one. -/
def NoLeadingZeros : List (Fin 16 × Bool) → Prop
  | [] => False
  | d :: ds => ds = [] ∨ d.1 ≠ 0

theorem value_pos {d : Fin 16 × Bool} (h : d.1 ≠ 0) (ds : List (Fin 16 × Bool)) :
    0 < value (d :: ds) := by
  induction ds using List.reverseRecOn with
  | nil =>
    have hd : 0 < d.1.val := Nat.pos_of_ne_zero fun h0 => h (Fin.ext h0)
    rw [← List.nil_append [d], value_concat]
    omega
  | append_singleton ds e ih =>
    rw [← List.cons_append, value_concat]
    omega

variable {ds : List (Fin 16 × Bool)}

/-- Written again, a number has the digits it was read from. -/
theorem text_value (h : NoLeadingZeros ds) : text (value ds) = ds.map fun d => digit d.1 := by
  induction ds using List.reverseRecOn with
  | nil => exact h.elim
  | append_singleton ds d ih =>
    have hd : d.1.val < 16 := d.1.isLt
    rw [value_concat, List.map_append, List.map_singleton]
    cases ds with
    | nil =>
      have hzero : value [] = 0 := rfl
      rw [hzero, Nat.zero_mul, Nat.zero_add, text_of_lt hd]
      rfl
    | cons e ds =>
      -- the first digit is not the only one, so it is not zero
      have hne : e.1 ≠ 0 := h.resolve_left (List.concat_ne_nil d ds)
      have hpos := value_pos hne ds
      have hdiv : (value (e :: ds) * 16 + d.1) / 16 = value (e :: ds) := by omega
      have hmod : (value (e :: ds) * 16 + d.1) % 16 = d.1 := by omega
      rw [text_of_le (by omega), hdiv, hmod, ih (.inr hne)]

theorem length_text_value_le (h : ds ≠ []) : (text (value ds)).length ≤ ds.length := by
  induction ds using List.reverseRecOn with
  | nil => exact absurd rfl h
  | append_singleton ds d ih =>
    rw [value_concat, List.length_append, List.length_singleton]
    by_cases hsmall : value ds * 16 + d.1 < 16
    · rw [text_of_lt hsmall]
      exact Nat.le_add_left ..
    · have hne : ds ≠ [] := by
        rintro rfl
        exact hsmall (by simp [value])
      have hdiv : (value ds * 16 + d.1) / 16 = value ds := by omega
      rw [text_of_le (Nat.not_lt.1 hsmall), hdiv, List.length_append, List.length_singleton]
      exact Nat.add_le_add_right (ih hne) 1

/-- Otherwise it has fewer. -/
theorem text_value_iff : text (value ds) = (ds.map fun d => digit d.1) ↔ NoLeadingZeros ds := by
  refine ⟨fun h => ?_, text_value⟩
  have hlen := congrArg List.length h
  rw [List.length_map] at hlen
  cases ds with
  | nil => cases hlen
  | cons d ds =>
    by_contra hzeros
    obtain ⟨hne, hzero⟩ := not_or.1 hzeros
    have hvalue : value (d :: ds) = value ds := by simp [value, not_not.1 hzero]
    have hle := length_text_value_le hne
    rw [← hvalue, hlen, List.length_cons] at hle
    omega

/-- A number is written in small digits. -/
theorem exists_text (n : Nat) : ∃ ds : List (Fin 16), text n = ds.map fun d : Fin 16 => digit d := by
  induction n using Nat.strongRecOn with
  | ind n ih =>
    by_cases h : n < 16
    · exact ⟨[⟨n, h⟩], text_of_lt h⟩
    · obtain ⟨ds, hds⟩ := ih (n / 16) (by omega)
      refine ⟨ds ++ [⟨n % 16, Nat.mod_lt _ (by decide)⟩], ?_⟩
      rw [text_of_le (Nat.not_lt.1 h), hds, List.map_append]
      rfl

end Hex

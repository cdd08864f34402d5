import Mathlib.Data.List.Basic

/-!
# Base 64

Bytes written with the 64 characters of the standard alphabet, six bits each, filled up with `=`.
What is written is read back (`decode_encode`), and has only characters of the alphabet and `=`
(`mem_encode`).
-/

namespace Base64

/-- `A` to `Z`, `a` to `z`, `0` to `9`, `+` and `/`. -/
def digit (n : Nat) : UInt8 :=
  if n < 26 then (n + 65).toUInt8 else if n < 52 then (n + 71).toUInt8
  else if n < 62 then (n - 4).toUInt8 else if n = 62 then 43 else 47

def value (c : UInt8) : Option Nat :=
  if 65 ≤ c ∧ c ≤ 90 then some (c.toNat - 65) else if 97 ≤ c ∧ c ≤ 122 then some (c.toNat - 71)
  else if 48 ≤ c ∧ c ≤ 57 then some (c.toNat + 4)
  else if c = 43 then some 62 else if c = 47 then some 63 else none

/-- Three bytes are four characters. -/
def encode : List UInt8 → List UInt8
  | [] => []
  | [a] => [digit (a.toNat / 4), digit (a.toNat % 4 * 16), 61, 61]
  | [a, b] => [digit (a.toNat / 4), digit (a.toNat % 4 * 16 + b.toNat / 16),
      digit (b.toNat % 16 * 4), 61]
  | a :: b :: c :: s => digit (a.toNat / 4) :: digit (a.toNat % 4 * 16 + b.toNat / 16) ::
      digit (b.toNat % 16 * 4 + c.toNat / 64) :: digit (c.toNat % 64) :: encode s

/-- The bits that are left of the last characters are not looked at. -/
def decode : List UInt8 → Option (List UInt8)
  | [] => some []
  | w :: x :: y :: z :: s =>
    (value w).bind fun i => (value x).bind fun j =>
      let a := (i * 4 + j / 16).toUInt8
      if y = 61 then if z = 61 ∧ s = [] then some [a] else none
      else (value y).bind fun k =>
        let b := (j % 16 * 16 + k / 4).toUInt8
        if z = 61 then if s = [] then some [a, b] else none
        else (value z).bind fun l => (decode s).map ([a, b, (k % 4 * 64 + l).toUInt8] ++ ·)
  | _ => none

theorem value_digit {n : Nat} (h : n < 64) : value (digit n) = some n := by
  have hall : ∀ n < 64, value (digit n) = some n := by decide
  exact hall n h

theorem digit_ne {n : Nat} (h : n < 64) : digit n ≠ 61 := fun heq => by
  cases heq ▸ value_digit h

theorem toUInt8_eq {n : Nat} (a : UInt8) (h : n = a.toNat) : n.toUInt8 = a :=
  h ▸ UInt8.ofNat_toNat

theorem decode_encode (s : List UInt8) : decode (encode s) = some s := by
  fun_induction encode s with
  | case1 => rfl
  | case2 a =>
    have ha := a.toNat_lt
    rw [decode, value_digit (by omega), value_digit (by omega)]
    simp only [Option.bind_some, and_self, if_true]
    rw [toUInt8_eq a (by omega)]
  | case3 a b =>
    have ha := a.toNat_lt
    have hb := b.toNat_lt
    rw [decode, value_digit (by omega), value_digit (by omega), value_digit (by omega)]
    simp only [Option.bind_some, if_neg (digit_ne (show b.toNat % 16 * 4 < 64 by omega)), if_true]
    rw [toUInt8_eq a (by omega), toUInt8_eq b (by omega)]
  | case4 a b c s ih =>
    have ha := a.toNat_lt
    have hb := b.toNat_lt
    have hc := c.toNat_lt
    rw [decode, value_digit (by omega), value_digit (by omega), value_digit (by omega),
      value_digit (by omega), ih]
    simp only [Option.bind_some, Option.map_some,
      if_neg (digit_ne (show b.toNat % 16 * 4 + c.toNat / 64 < 64 by omega)),
      if_neg (digit_ne (show c.toNat % 64 < 64 by omega))]
    rw [toUInt8_eq a (by omega), toUInt8_eq b (by omega), toUInt8_eq c (by omega)]
    rfl

theorem mem_encode {c : UInt8} {s : List UInt8} (h : c ∈ encode s) :
    c = 61 ∨ ∃ n < 64, c = digit n := by
  fun_induction encode s with
  | case1 => cases h
  | case2 a =>
    have ha := a.toNat_lt
    simp only [List.mem_cons, List.not_mem_nil, or_false] at h
    rcases h with rfl | rfl | rfl | rfl
    · exact .inr ⟨_, by omega, rfl⟩
    · exact .inr ⟨_, by omega, rfl⟩
    all_goals exact .inl rfl
  | case3 a b =>
    have ha := a.toNat_lt
    have hb := b.toNat_lt
    simp only [List.mem_cons, List.not_mem_nil, or_false] at h
    rcases h with rfl | rfl | rfl | rfl
    on_goal 4 => exact .inl rfl
    all_goals exact .inr ⟨_, by omega, rfl⟩
  | case4 a b c s ih =>
    have ha := a.toNat_lt
    have hb := b.toNat_lt
    have hc := c.toNat_lt
    simp only [List.mem_cons] at h
    rcases h with rfl | rfl | rfl | rfl | h
    on_goal 5 => exact ih h
    all_goals exact .inr ⟨_, by omega, rfl⟩

end Base64

import Mathlib.Data.List.Basic

/-!
# Base 32

Bytes written with the 32 characters of the standard alphabet, five bits each, without padding.
-/

namespace Base32

/-- `A` to `Z` and `2` to `7`. -/
def alphabet : List UInt8 :=
  [65, 66, 67, 68, 69, 70, 71, 72, 73, 74, 75, 76, 77, 78, 79, 80, 81, 82, 83, 84, 85, 86, 87, 88,
    89, 90, 50, 51, 52, 53, 54, 55]

/-- The bits of a byte, the highest first. -/
def bits (b : UInt8) : List Bool :=
  [b.toNat.testBit 7, b.toNat.testBit 6, b.toNat.testBit 5, b.toNat.testBit 4, b.toNat.testBit 3,
    b.toNat.testBit 2, b.toNat.testBit 1, b.toNat.testBit 0]

/-- The character of some bits. -/
def digit (l : List Bool) : UInt8 :=
  alphabet.getD (l.foldl (fun n b => 2 * n + b.toNat) 0) 65

/-- Five bits at a time; zeros fill up the last five. -/
def digits : List Bool → List UInt8
  | [] => []
  | a :: b :: c :: d :: e :: l => digit [a, b, c, d, e] :: digits l
  | l => [digit ((l ++ [false, false, false, false]).take 5)]

def encode (bs : List UInt8) : List UInt8 := digits (bs.flatMap bits)

theorem digit_mem (l : List Bool) : digit l ∈ alphabet := by
  rw [digit, List.getD_eq_getElem?_getD]
  cases h : alphabet[l.foldl (fun n b => 2 * n + b.toNat) 0]? with
  | none => exact List.mem_cons_self
  | some c => exact List.mem_of_getElem? h

theorem mem_digits {c : UInt8} (l : List Bool) (h : c ∈ digits l) : c ∈ alphabet := by
  fun_induction digits l with
  | case1 => exact absurd h List.not_mem_nil
  | case2 a b c' d e l ih =>
    rcases List.mem_cons.1 h with rfl | h
    · exact digit_mem _
    · exact ih h
  | case3 l =>
    rw [List.mem_singleton.1 h]
    exact digit_mem _

theorem mem_encode {c : UInt8} {bs : List UInt8} (h : c ∈ encode bs) : c ∈ alphabet :=
  mem_digits _ h

end Base32

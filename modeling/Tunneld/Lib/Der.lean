import Tunneld.Lib.Utf8

/-!
# DER

Elements of a tag, a length and a value, as `encoding/asn1` reads them: tags and lengths in their
shortest form, of at most 31 bits, and lengths of at least one byte.  The readers for the types of a
message return what they have read and what follows it, or nothing if it is not of that type.
-/

namespace Der

open Utf8 (Bytes)

/-- The tag and the length of an element. -/
structure Header where
  cls : Nat
  compound : Bool
  tag : Nat
  length : Nat

/-- An element. -/
structure RawValue where
  cls : Nat
  compound : Bool
  tag : Nat
  bytes : Bytes
  deriving DecidableEq

/-- A number in base 128, of which `shifted` digits have been read. -/
def base128 : Nat → Nat → Bytes → Option (Nat × Bytes)
  | _, _, [] => none
  | shifted, acc, b :: l =>
    if shifted = 5 ∨ shifted = 0 ∧ b = 0x80 then none
    else if b < 0x80 then
      if acc * 128 + b.toNat ≤ 2147483647 then some (acc * 128 + b.toNat, l) else none
    else base128 (shifted + 1) (acc * 128 + b.toNat % 128) l

/-- The tag number: in the first byte, or after it if it does not fit there. -/
def tagNumber (b : UInt8) (l : Bytes) : Option (Nat × Bytes) :=
  if b.toNat % 32 = 31 then
    (base128 0 0 l).bind fun p => if p.1 < 31 then none else some p
  else some (b.toNat % 32, l)

/-- A length in so many bytes. -/
def lengthBytes : Nat → Nat → Bytes → Option (Nat × Bytes)
  | 0, acc, l => some (acc, l)
  | _ + 1, _, [] => none
  | n + 1, acc, b :: l =>
    if acc ≥ 8388608 ∨ acc * 256 + b.toNat = 0 then none
    else lengthBytes n (acc * 256 + b.toNat) l

/-- A length, in the short or the long form. -/
def lengthOf : Bytes → Option (Nat × Bytes)
  | [] => none
  | b :: l =>
    if b < 0x80 then some (b.toNat, l)
    else if b = 0x80 then none
    else (lengthBytes (b.toNat - 128) 0 l).bind fun p => if p.1 < 128 then none else some p

def header : Bytes → Option (Header × Bytes)
  | [] => none
  | b :: l =>
    (tagNumber b l).bind fun t => (lengthOf t.2).map fun n =>
      (⟨b.toNat / 64, b.toNat / 32 % 2 = 1, t.1, n.1⟩, n.2)

/-- Any element. -/
def rawValue (l : Bytes) : Option (RawValue × Bytes) :=
  (header l).bind fun h =>
    if h.1.length ≤ h.2.length then
      some (⟨h.1.cls, h.1.compound, h.1.tag, h.2.take h.1.length⟩, h.2.drop h.1.length)
    else none

/-- An element of a universal type. -/
def field (tag : Nat) (compound : Bool) (l : Bytes) : Option (Bytes × Bytes) :=
  (rawValue l).bind fun v =>
    if v.1.cls = 0 ∧ v.1.tag = tag ∧ v.1.compound = compound then some (v.1.bytes, v.2) else none

def octetString (l : Bytes) : Option (Bytes × Bytes) := field 4 false l

def sequence (l : Bytes) : Option (Bytes × Bytes) := field 16 true l

def setOf (l : Bytes) : Option (Bytes × Bytes) := field 17 true l

/-- The number that bytes are in two's complement, in their shortest form. -/
def intValue (l : Bytes) : Option Int :=
  match l with
  | [] => none
  | a :: t =>
    if t.head?.any (fun b => a = 0 ∧ b < 0x80 ∨ a = 0xFF ∧ ¬ b < 0x80) ∨ 8 < l.length then none
    else some (l.foldl (fun n b => n * 256 + b.toNat) (if a < 0x80 then 0 else -1))

def integer (l : Bytes) : Option (Int × Bytes) :=
  (field 2 false l).bind fun p => (intValue p.1).map fun n => (n, p.2)

/-- An `ENUMERATED`, of 32 bits. -/
def enumerated (l : Bytes) : Option (Int × Bytes) :=
  (field 10 false l).bind fun p => (intValue p.1).bind fun n =>
    if -2147483648 ≤ n ∧ n ≤ 2147483647 then some (n, p.2) else none

def boolean (l : Bytes) : Option (Bool × Bytes) :=
  (field 1 false l).bind fun p =>
    if p.1 = [0] then some (false, p.2) else if p.1 = [0xFF] then some (true, p.2) else none

/-- An `OCTET STRING` that may be missing: what follows it. -/
def skipOctetString (l : Bytes) : Option Bytes :=
  if l = [] then some []
  else
    (header l).bind fun h =>
      if h.1.cls = 0 ∧ h.1.tag = 4 ∧ h.1.compound = false then
        if h.1.length ≤ h.2.length then some (h.2.drop h.1.length) else none
      else some l

/-- Elements to the end.  The number is how many to read at most. -/
def manyUpTo {α : Type} (p : Bytes → Option (α × Bytes)) : Nat → Bytes → Option (List α)
  | _, [] => some []
  | 0, _ :: _ => none
  | n + 1, l => (p l).bind fun q => (manyUpTo p n q.2).map fun t => q.1 :: t

def many {α : Type} (p : Bytes → Option (α × Bytes)) (l : Bytes) : Option (List α) :=
  manyUpTo p l.length l

end Der

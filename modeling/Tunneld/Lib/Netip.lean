import Mathlib.Data.List.Basic

/-!
# Addresses and prefixes

IP addresses of both families and prefixes of them, as `net/netip` has them.  An IPv6 address may
have a zone, the link it is on; a prefix has none.  A prefix covers the addresses of its family that
have the same first bits, whatever their zone: that is what a prefix table compares.

Masking a prefix does not change what it covers (`Prefix.covers_masked`), and the prefix of all bits
of an address covers that address only (`covers_prefixFrom_bitLen`).
-/

namespace Netip

/-- `netip.Addr`. -/
inductive Addr
  | v4 (n : BitVec 32)
  | v6 (n : BitVec 128) (zone : List Char)
  deriving DecidableEq

namespace Addr

/-- `Addr.BitLen`. -/
def bitLen : Addr → Nat
  | v4 _ => 32
  | v6 _ _ => 128

def withoutZone : Addr → Addr
  | v4 n => v4 n
  | v6 n _ => v6 n []

/-- `Addr.Is4In6`: the address is `::ffff:a.b.c.d`. -/
def is4In6 : Addr → Bool
  | v4 _ => false
  | v6 n _ => n >>> 32 = 0xffff#128

/-- `Addr.Unmap`. -/
def unmap (a : Addr) : Addr :=
  match a with
  | v4 n => v4 n
  | v6 n zone => if n >>> 32 = 0xffff#128 then v4 (n.setWidth 32) else v6 n zone

end Addr

/-- `netip.Prefix`. -/
structure Prefix where
  addr : Addr
  bits : Nat
  deriving DecidableEq

/-- `netip.PrefixFrom`, of no more bits than the address has. -/
def prefixFrom (a : Addr) (bits : Nat) : Prefix := ⟨a.withoutZone, bits⟩

namespace Prefix

/-- `Prefix.Masked`. -/
def masked (p : Prefix) : Prefix :=
  match p.addr with
  | .v4 n => ⟨.v4 (n >>> (32 - p.bits) <<< (32 - p.bits)), p.bits⟩
  | .v6 n _ => ⟨.v6 (n >>> (128 - p.bits) <<< (128 - p.bits)) [], p.bits⟩

/-- The address is of the prefix's family and has its first bits. -/
def covers (p : Prefix) (a : Addr) : Bool :=
  match p.addr, a with
  | .v4 n, .v4 m => n >>> (32 - p.bits) = m >>> (32 - p.bits)
  | .v6 n _, .v6 m _ => n >>> (128 - p.bits) = m >>> (128 - p.bits)
  | _, _ => false

end Prefix

theorem shiftRight_masked {w : Nat} (n : BitVec w) (k : Nat) : n >>> k <<< k >>> k = n >>> k := by
  refine BitVec.eq_of_getLsbD_eq fun i hi => ?_
  simp only [BitVec.getLsbD_ushiftRight, BitVec.getLsbD_shiftLeft]
  by_cases hlt : k + i < w
  · simp [hlt]
  · simp [hlt, BitVec.getLsbD_of_ge n (k + i) (by omega)]

/-- A prefix and its masked form cover the same. -/
theorem Prefix.covers_masked (p : Prefix) (a : Addr) : p.masked.covers a = p.covers a := by
  obtain ⟨addr, bits⟩ := p
  cases addr with
  | v4 n =>
    cases a with
    | v4 m => simp only [masked, covers, shiftRight_masked]
    | v6 m zone => rfl
  | v6 n zone' =>
    cases a with
    | v4 m => rfl
    | v6 m zone => simp only [masked, covers, shiftRight_masked]

/-- The prefix of all bits of an address covers it, in any zone, and no other. -/
theorem covers_prefixFrom_bitLen (a b : Addr) :
    (prefixFrom a a.bitLen).covers b = true ↔ a.withoutZone = b.withoutZone := by
  cases a with
  | v4 n =>
    cases b with
    | v4 m => simp [prefixFrom, Prefix.covers, Addr.withoutZone, Addr.bitLen]
    | v6 m zone => simp [prefixFrom, Prefix.covers, Addr.withoutZone]
  | v6 n zone' =>
    cases b with
    | v4 m => simp [prefixFrom, Prefix.covers, Addr.withoutZone]
    | v6 m zone => simp [prefixFrom, Prefix.covers, Addr.withoutZone, Addr.bitLen]

/-! ## Ranges -/

/-- `IPRange.IsValid`: both ends are of one family and zone, and in order. -/
def rangeValid (start stop : Addr) : Bool :=
  match start, stop with
  | .v4 n, .v4 m => n ≤ m
  | .v6 n zone, .v6 m zone' => zone = zone' ∧ n ≤ m
  | _, _ => false

/-- The address is of the family of the range, and between its ends or one of them. -/
def inRange (start stop a : Addr) : Bool :=
  match start, stop, a with
  | .v4 n, .v4 m, .v4 k => n ≤ k ∧ k ≤ m
  | .v6 n _, .v6 m _, .v6 k _ => n ≤ k ∧ k ≤ m
  | _, _, _ => false

end Netip

import Tunneld.Lib.Hex

/-!
# The status list

`StatusList`: the serial numbers of attestation keys that are no longer valid, as fetched from the
list that is published, and when it was fetched.  The list has its serial numbers as strings, and a
certificate's is an integer; both are brought into the form of `normalizeSerial`, and are the same
if that is (`revoked_iff`).

`normalizeSerial` drops a `0x` and makes digits small.  It leaves leading zeros in place, and
`big.Int.Text` writes none: so a spelling and its number meet exactly if the spelling has none
(`normalizeSerial_eq_iff`).
-/

namespace Tunneld.Attest

/-! ## Time -/

/-- `time.Time`, in nanoseconds since the zero time. -/
abbrev Time := Int

/-- `Time.Sub`: the nearest duration. -/
def sub (t u : Time) : Int := max (-9223372036854775808) (min 9223372036854775807 (t - u))

/-! ## Serial numbers -/

/-- `big.Int.Text(16)`. -/
def serialText (n : Int) : List Char :=
  if n < 0 then '-' :: Hex.text n.natAbs else Hex.text n.natAbs

/-- `trimHexPrefix`. -/
def trimHexPrefix (s : List Char) : List Char :=
  match s with
  | '0' :: 'x' :: t => t
  | '0' :: 'X' :: t => t
  | _ => s

/-- What `normalizeSerial` writes for a character. -/
def normalizeChar (c : Char) : Option Char :=
  if 'A' ≤ c ∧ c ≤ 'F' then some (Char.ofNat (c.toNat - 'A'.toNat + 'a'.toNat))
  else if '0' ≤ c ∧ c ≤ '9' ∨ 'a' ≤ c ∧ c ≤ 'f' then some c
  else none

def normalizeSerial (s : List Char) : List Char := (trimHexPrefix s).filterMap normalizeChar

/-! ## The list -/

/-- `statusSnapshot`: the normalized serial numbers with their status, the newest first. -/
structure StatusSnapshot where
  entries : List (List Char × List Char)
  fetchedAt : Time

/-- `StatusList.fetch`, when the published list has these entries. -/
def fetch (listed : List (List Char × List Char)) (now : Time) : StatusSnapshot where
  entries := listed.foldl (fun m e => (normalizeSerial e.1, e.2) :: m) []
  fetchedAt := now

/-- `StatusList.Revoked`.  Without a list everything is revoked. -/
def revoked (snap : Option StatusSnapshot) (serialHex : List Char) : Bool :=
  match snap with
  | none => true
  | some snap => (snap.entries.lookup (normalizeSerial serialHex)).isSome

/-- `StatusList.FetchedAt`. -/
def fetchedAt (snap : Option StatusSnapshot) : Time :=
  match snap with
  | none => 0
  | some snap => snap.fetchedAt

theorem fetch_entries (listed : List (List Char × List Char)) (now : Time) :
    (fetch listed now).entries = (listed.map fun e => (normalizeSerial e.1, e.2)).reverse := by
  rw [fetch, List.foldl_flip_cons_eq_append, List.append_nil]

/-- A serial number is revoked if the list has one with the same normal form, whatever its
status. -/
theorem revoked_iff {listed : List (List Char × List Char)} {serialHex : List Char} {now : Time} :
    revoked (some (fetch listed now)) serialHex = true ↔
      ∃ e ∈ listed, normalizeSerial e.1 = normalizeSerial serialHex := by
  rw [revoked, fetch_entries, List.lookup_isSome_iff]
  constructor
  · rintro ⟨p, hp, hkey⟩
    obtain ⟨e, he, rfl⟩ := List.mem_map.1 (List.mem_reverse.1 hp)
    exact ⟨e, he, (beq_iff_eq.1 hkey).symm⟩
  · rintro ⟨e, he, hkey⟩
    exact ⟨_, List.mem_reverse.2 (List.mem_map_of_mem he), beq_iff_eq.2 hkey.symm⟩

/-! ## Spellings -/

/-- How a number may be written: digits of any case, after `0x`, `0X` or nothing. -/
inductive Spells : List Char → List (Fin 16 × Bool) → Prop
  | plain (ds : List (Fin 16 × Bool)) : Spells (ds.map Hex.write) ds
  | small (ds : List (Fin 16 × Bool)) : Spells ('0' :: 'x' :: ds.map Hex.write) ds
  | capital (ds : List (Fin 16 × Bool)) : Spells ('0' :: 'X' :: ds.map Hex.write) ds

theorem normalizeChar_write (d : Fin 16 × Bool) :
    normalizeChar (Hex.write d) = some (Hex.digit d.1) := by
  have hall : ∀ (n : Fin 16) (b : Bool), normalizeChar (Hex.write (n, b)) = some (Hex.digit n) := by
    decide
  exact hall d.1 d.2

theorem filterMap_write (ds : List (Fin 16 × Bool)) :
    (ds.map Hex.write).filterMap normalizeChar = ds.map fun d => Hex.digit d.1 := by
  have hsome : normalizeChar ∘ Hex.write = fun d => some (Hex.digit d.1) :=
    funext normalizeChar_write
  rw [List.filterMap_map, hsome, List.filterMap_eq_map']

/-- The second character of a number is no `x`. -/
theorem trimHexPrefix_write (ds : List (Fin 16 × Bool)) :
    trimHexPrefix (ds.map Hex.write) = ds.map Hex.write := by
  have hall : ∀ (n : Fin 16) (b : Bool), Hex.write (n, b) ≠ 'x' ∧ Hex.write (n, b) ≠ 'X' := by
    decide
  unfold trimHexPrefix
  split
  · rename_i t heq
    obtain ⟨d, l, -, -, htail⟩ := List.map_eq_cons_iff.1 heq
    obtain ⟨e, l', -, hx, -⟩ := List.map_eq_cons_iff.1 htail
    exact absurd hx (hall e.1 e.2).1
  · rename_i t heq
    obtain ⟨d, l, -, -, htail⟩ := List.map_eq_cons_iff.1 heq
    obtain ⟨e, l', -, hx, -⟩ := List.map_eq_cons_iff.1 htail
    exact absurd hx (hall e.1 e.2).2
  · rfl

/-- A spelling is brought to its small digits, leading zeros included. -/
theorem Spells.normalizeSerial {s : List Char} {ds : List (Fin 16 × Bool)} (h : Spells s ds) :
    normalizeSerial s = ds.map fun d => Hex.digit d.1 := by
  have htrim : trimHexPrefix s = ds.map Hex.write := by
    cases h with
    | plain => exact trimHexPrefix_write ds
    | small => rfl
    | capital => rfl
  rw [Attest.normalizeSerial, htrim, filterMap_write]

theorem normalizeSerial_serialText (n : Nat) : normalizeSerial (serialText n) = Hex.text n := by
  obtain ⟨ds, hds⟩ := Hex.exists_text n
  have hplain : serialText n = (ds.map fun d => (d, false)).map Hex.write := by
    rw [serialText, if_neg (by omega), Int.natAbs_natCast, hds, List.map_map]
    rfl
  rw [hplain, (Spells.plain _).normalizeSerial, hds, List.map_map]
  rfl

/-- It has the normal form of the certificate's serial number exactly if there are none. -/
theorem normalizeSerial_eq_iff {s : List Char} {ds : List (Fin 16 × Bool)} (h : Spells s ds) :
    normalizeSerial s = normalizeSerial (serialText (Hex.value ds)) ↔ Hex.NoLeadingZeros ds := by
  rw [h.normalizeSerial, normalizeSerial_serialText, eq_comm, Hex.text_value_iff]

end Tunneld.Attest

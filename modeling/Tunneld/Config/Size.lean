import Mathlib.Algebra.Group.Int.Defs
import Mathlib.Algebra.Group.Nat.Defs
import Mathlib.Data.List.Find
import Tunneld.Lib.Words

/-!
# Byte sizes and bitrates of the configuration

`ParseByteSize` and `ParseBitrate` are one loop over a table of units (`parseQuantity`): a size may
stand without a unit and its units are binary, a bitrate needs one and its units are decimal, in
bits.  The text is lower-cased and trimmed, the first unit of the table it ends with is cut off, the
rest is trimmed again and read by `strconv.ParseInt`.  The `int64` arithmetic is written out: a
product is taken modulo 2⁶⁴.

`Quantity units t n m` says what is meant to be read: a text that is a decimal integer `n`, not
negative, then white space, then a unit of `m`.  `parseQuantity_iff` is the agreement of the two for
a table in which every unit is the first that it ends with itself (`Found`): `kb` ends in `b` too,
and its place before `b` and the digit or white space before it decide what it is taken for.  What
lower-casing does is left open.

## Main results

* `sizes_read_exactly`: the two parsers accept what is meant, and return the amount.
-/

namespace Tunneld.Config

open Words

/-! ## Reading a decimal integer -/

/-- What `strconv` finds wrong with a number. -/
inductive NumError
  | malformed
  | range
  deriving DecidableEq

def isDigit (c : Char) : Bool := '0'.toNat ≤ c.toNat ∧ c.toNat ≤ '9'.toNat

/-- The loop of `strconv.ParseUint(s, 10, 64)`. -/
def parseUintFrom : Nat → Text → Except NumError Nat
  | n, [] => .ok n
  | n, c :: s =>
    if ¬ isDigit c then .error .malformed
    else if (2 ^ 64 - 1) / 10 + 1 ≤ n then .error .range
    else
      let n₁ := (n * 10 + (c.toNat - '0'.toNat)) % 2 ^ 64
      if n₁ < n * 10 then .error .range else parseUintFrom n₁ s

/-- `strconv.ParseUint(s, 10, 64)`. -/
def parseUint (s : Text) : Except NumError Nat :=
  if s = [] then .error .malformed else parseUintFrom 0 s

/-- The sign `strconv.ParseInt` cuts off, and what is left. -/
def cutSign : Text → Bool × Text
  | '+' :: s => (false, s)
  | '-' :: s => (true, s)
  | s => (false, s)

/-- `strconv.ParseInt(s, 10, 64)`. -/
def parseInt (s : Text) : Except NumError Int := do
  let un ← parseUint (cutSign s).2
  if (cutSign s).1 then if 2 ^ 63 < un then .error .range else .ok (-un)
  else if 2 ^ 63 ≤ un then .error .range else .ok un

/-! ## Sizes and bitrates -/

/-- Why a size or a bitrate is refused. -/
inductive SizeError
  | empty
  | missingUnit (s : Text)
  | invalid (s : Text) (err : NumError)
  | negative (s : Text)
  | overflows (s : Text)
  deriving DecidableEq

/-- A unit, by the text a quantity in it ends with. -/
abbrev Scale := Text × Nat

/-- What is left of a text without its unit, the first of the list that it ends with. -/
def cutUnit (units : List Scale) (t : Text) : Option (Nat × Text) :=
  (units.find? fun u => u.1.isSuffixOf t).map fun u => (u.2, t.take (t.length - u.1.length))

/-- The `switch` over the units: `bare` is the unit of a text that ends in none, if it may. -/
def cut (units : List Scale) (bare : Option Nat) (t : Text) : Option (Nat × Text) :=
  (cutUnit units t).or (bare.map fun m => (m, t))

/-- An `int64` that is the result of an operation. -/
def wrap (n : Int) : Int := Int.bmod n (2 ^ 64)

/-- The body of `ParseByteSize` and of `ParseBitrate`: the amount of a text in the base unit. -/
def parseQuantity (toLower : Text → Text) (units : List Scale) (bare : Option Nat) (s : Text) :
    Except SizeError Int :=
  let t := trimSpace (toLower s)
  if t = [] then .error .empty
  else
    match cut units bare t with
    | none => .error (.missingUnit s)
    | some (mult, t) =>
      match parseInt (trimSpace t) with
      | .error err => .error (.invalid s err)
      | .ok n =>
        if n < 0 then .error (.negative s)
        else if 1 < mult ∧ (2 ^ 63 - 1) / mult < n.toNat then .error (.overflows s)
        else .ok (wrap (n * mult))

/-- The units of a size. -/
def sizeUnits : List Scale :=
  [("gb".toList, 1024 * 1024 * 1024), ("mb".toList, 1024 * 1024), ("kb".toList, 1024),
    ("b".toList, 1)]

/-- The units of a bitrate. -/
def rateUnits : List Scale :=
  [("gbit".toList, 1000000000), ("mbit".toList, 1000000), ("kbit".toList, 1000), ("bit".toList, 1)]

def parseByteSize (toLower : Text → Text) (s : Text) : Except SizeError Int :=
  parseQuantity toLower sizeUnits (some 1) s

def parseBitrate (toLower : Text → Text) (s : Text) : Except SizeError Int :=
  (parseQuantity toLower rateUnits none s).map (Int.tdiv · 8)

/-! ## What is meant to be read -/

/-- The number that decimal digits write. -/
def value (ds : Text) : Nat := ds.foldl (fun n c => n * 10 + (c.toNat - '0'.toNat)) 0

/-- The text is a decimal integer with an optional sign, and its value is `n`. -/
def IsInteger (t : Text) (n : Int) : Prop :=
  ∃ ds : Text, ds ≠ [] ∧ ds.all isDigit ∧
    ((t = ds ∨ t = '+' :: ds) ∧ n = value ds ∨ t = '-' :: ds ∧ n = -value ds)

/-- The text is an integer that is not negative, white space and one of the units. -/
def Quantity (units : List Scale) (t : Text) (n m : Nat) : Prop :=
  ∃ w space : Text, ∃ u ∈ units, IsInteger w n ∧ space.all isSpace ∧ t = w ++ space ++ u.1 ∧ m = u.2

/-! ## The parser of integers -/

section ParseInt

variable {s : Text} {n v : Nat}

theorem le_value (n : Nat) (s : Text) :
    n ≤ s.foldl (fun n c => n * 10 + (c.toNat - '0'.toNat)) n := by
  induction s generalizing n with
  | nil => exact Nat.le_refl n
  | cons c s ih => exact Nat.le_trans (by omega) (ih (n * 10 + (c.toNat - '0'.toNat)))

/-- The loop gives up exactly when the number needs more than 64 bits. -/
theorem parseUintFrom_iff : parseUintFrom n s = .ok v ↔
    s.all isDigit ∧ v = s.foldl (fun n c => n * 10 + (c.toNat - '0'.toNat)) n ∧
      (s ≠ [] → v < 2 ^ 64) := by
  induction s generalizing n with
  | nil => simp [parseUintFrom, eq_comm]
  | cons c s ih =>
    rw [parseUintFrom, List.all_cons, List.foldl_cons]
    have hle := le_value (n * 10 + (c.toNat - '0'.toNat)) s
    by_cases hc : isDigit c = true
    · rw [if_neg (not_not.2 hc), hc, Bool.true_and]
      have hdigit : c.toNat - '0'.toNat < 10 := by
        simp only [isDigit, decide_eq_true_eq, Char.reduceToNat] at hc ⊢
        omega
      by_cases hbig : (2 ^ 64 - 1) / 10 + 1 ≤ n
      · rw [if_pos hbig]
        refine iff_of_false (fun h => by cases h) fun h => ?_
        have := h.2.2 (List.cons_ne_nil c s)
        omega
      · rw [if_neg hbig]
        by_cases hfits : n * 10 + (c.toNat - '0'.toNat) < 2 ^ 64
        · simp only [Nat.mod_eq_of_lt hfits]
          rw [if_neg (by omega), ih]
          refine and_congr_right fun _ => and_congr_right fun hv => ?_
          refine ⟨fun h _ => ?_, fun h _ => h (List.cons_ne_nil c s)⟩
          cases s with
          | nil => exact hv ▸ hfits
          | cons d s => exact h (List.cons_ne_nil d s)
        · rw [if_pos (by omega)]
          refine iff_of_false (fun h => by cases h) fun h => ?_
          have := h.2.2 (List.cons_ne_nil c s)
          omega
    · rw [if_pos hc]
      exact iff_of_false (fun h => by cases h) fun h => hc (Bool.and_eq_true_iff.1 h.1).1

theorem parseUint_iff :
    parseUint s = .ok v ↔ s ≠ [] ∧ s.all isDigit ∧ v = value s ∧ v < 2 ^ 64 := by
  rw [parseUint]
  split
  · next h => exact iff_of_false (fun h => by cases h) fun h' => h'.1 h
  · next h => simp only [parseUintFrom_iff, value, ne_eq, h, not_false_iff, true_and, true_imp_iff]

/-- The parser cuts a sign off, and a text of digits has none. -/
theorem isInteger_iff {t : Text} {n : Int} : IsInteger t n ↔
    (cutSign t).2 ≠ [] ∧ (cutSign t).2.all isDigit ∧
      n = if (cutSign t).1 then -(value (cutSign t).2 : Int) else value (cutSign t).2 := by
  constructor
  · rintro ⟨ds, hne, hds, ⟨rfl | rfl, rfl⟩ | ⟨rfl, rfl⟩⟩
    · cases t with
      | nil => exact absurd rfl hne
      | cons c ds =>
        have hc : isDigit c = true := (Bool.and_eq_true_iff.1 hds).1
        have hsign : cutSign (c :: ds) = (false, c :: ds) := by
          rw [cutSign]
          · rintro s ⟨⟩
            cases hc
          · rintro s ⟨⟩
            cases hc
        rw [hsign]
        exact ⟨hne, hds, rfl⟩
    · exact ⟨hne, hds, rfl⟩
    · exact ⟨hne, hds, rfl⟩
  · rintro ⟨hne, hds, rfl⟩
    refine ⟨(cutSign t).2, hne, hds, ?_⟩
    unfold cutSign
    split
    · exact .inl ⟨.inr rfl, rfl⟩
    · exact .inr ⟨rfl, rfl⟩
    · exact .inl ⟨.inl rfl, rfl⟩

theorem parseInt_iff {n : Int} :
    parseInt s = .ok n ↔ IsInteger s n ∧ -2 ^ 63 ≤ n ∧ n < 2 ^ 63 := by
  rw [isInteger_iff, parseInt]
  cases hu : parseUint (cutSign s).2 with
  | error e =>
    refine iff_of_false (fun h => by cases h) fun h => ?_
    have hfits : value (cutSign s).2 < 2 ^ 64 := by grind
    have hok := parseUint_iff.2 ⟨h.1.1, h.1.2.1, rfl, hfits⟩
    cases hu.symm.trans hok
  | ok un =>
    obtain ⟨hne, hds, rfl, -⟩ := parseUint_iff.1 hu
    simp only [hne, hds, ne_eq, not_false_iff, true_and, bind, Except.bind]
    split <;> split <;> simp <;> omega

end ParseInt

/-! ## The unit and the white space before it -/

section Quantity

variable {t w : Text} {units : List Scale} {bare : Option Nat}

/-- The units a text may end in, the empty one for a number alone. -/
def scales (units : List Scale) (bare : Option Nat) : List Scale :=
  units ++ bare.toList.map fun m => ([], m)

/-- Neither a digit nor white space. -/
def isLetter (c : Char) : Bool := !(isDigit c || isSpace c)

/-- The parser takes every unit for itself, and none has a digit or white space in it. -/
def Found (units : List Scale) (bare : Option Nat) : Prop :=
  ∀ u ∈ scales units bare, u.1.all isLetter ∧ 0 < u.2 ∧ cut units bare u.1 = some (u.2, [])

instance : Decidable (Found units bare) := inferInstanceAs (Decidable (∀ u ∈ _, _))

theorem found_sizeUnits : Found sizeUnits (some 1) := by decide

theorem found_rateUnits : Found rateUnits none := by decide

theorem cut_some {m : Nat} (h : cut units bare t = some (m, w)) :
    ∃ u ∈ scales units bare, u.2 = m ∧ t = w ++ u.1 := by
  rcases Option.or_eq_some_iff.1 h with h | ⟨-, h⟩
  · obtain ⟨u, hu, heq⟩ := Option.map_eq_some_iff.1 h
    cases heq
    have hsuffix := List.find?_some hu
    obtain ⟨v, rfl⟩ := List.isSuffixOf_iff_suffix.1 hsuffix
    refine ⟨u, List.mem_append_left _ (List.mem_of_find?_eq_some hu), rfl, ?_⟩
    rw [List.length_append, Nat.add_sub_cancel_right, List.take_left]
  · obtain ⟨b, hb, heq⟩ := Option.map_eq_some_iff.1 h
    cases heq
    exact ⟨([], m), List.mem_append_right _ (by simp [hb]), rfl, (List.append_nil t).symm⟩

/-- What stands before a character that is in no unit does not matter to the search for one. -/
theorem isSuffixOf_behind {c : Char} (hc : isLetter c = false) {u v : Text}
    (hv : v.all isLetter) : v.isSuffixOf (w ++ [c] ++ u) = v.isSuffixOf u := by
  rw [Bool.eq_iff_iff, List.isSuffixOf_iff_suffix, List.isSuffixOf_iff_suffix]
  refine ⟨fun h => ?_, fun h => h.trans (List.suffix_append _ _)⟩
  have hnot : c ∉ v := fun hmem => by simp [List.all_eq_true.1 hv c hmem] at hc
  have hbehind : c :: u <:+ w ++ [c] ++ u := ⟨w, by simp⟩
  rcases List.suffix_or_suffix_of_suffix h hbehind with h | h
  · rcases List.suffix_cons_iff.1 h with rfl | h
    · exact absurd List.mem_cons_self hnot
    · exact h
  · exact absurd (h.subset List.mem_cons_self) hnot

theorem Found.cut_append (h : Found units bare) {u : Scale} (hu : u ∈ scales units bare)
    {c : Char} (hc : isLetter c = false) :
    cut units bare (w ++ [c] ++ u.1) = some (u.2, w ++ [c]) := by
  have hsame : (units.find? fun v => v.1.isSuffixOf (w ++ [c] ++ u.1)) =
      units.find? fun v => v.1.isSuffixOf u.1 := by
    refine List.find?_congr fun v hv => isSuffixOf_behind hc ?_
    exact (h v (List.mem_append_left _ hv)).1
  obtain ⟨-, -, hcut⟩ := h u hu
  rw [cut, cutUnit, hsame]
  rw [cut, cutUnit] at hcut
  cases hfind : units.find? fun v => v.1.isSuffixOf u.1 with
  | none =>
    rw [hfind] at hcut
    obtain ⟨m, rfl, hm⟩ := Option.map_eq_some_iff.1 hcut
    rw [(Prod.mk.inj hm).2, List.append_nil, ← (Prod.mk.inj hm).1]
    rfl
  | some v =>
    rw [hfind] at hcut
    obtain ⟨hm, hnil⟩ := Prod.mk.inj (Option.some.inj hcut)
    have hsuffix := List.find?_some hfind
    have hle : u.1.length - v.1.length = 0 := by
      have := congrArg List.length hnil
      simpa using this
    have heq : v.1 = u.1 :=
      (List.isSuffixOf_iff_suffix.1 hsuffix).eq_of_length_le (by omega)
    refine congrArg some (Prod.ext hm ?_)
    show (w ++ [c] ++ u.1).take ((w ++ [c] ++ u.1).length - v.1.length) = w ++ [c]
    rw [heq, List.length_append, Nat.add_sub_cancel_right, List.take_left]

/-- An integer ends in a digit, and has no white space in it. -/
theorem IsInteger.chars {n : Int} (h : IsInteger w n) :
    (∃ x c, w = x ++ [c] ∧ isDigit c = true) ∧ ∀ c ∈ w, isSpace c = false := by
  obtain ⟨ds, hne, hds, h⟩ := h
  have hdigit : ∀ c ∈ ds, isSpace c = false := by
    intro c hc
    have := List.all_eq_true.1 hds c hc
    simp [isDigit, isSpace] at this ⊢
    omega
  obtain ⟨x, c, rfl⟩ := (List.eq_nil_or_concat' ds).resolve_left hne
  have hc : isDigit c = true := List.all_eq_true.1 hds c (by simp)
  rcases h with ⟨rfl | rfl, -⟩ | ⟨rfl, -⟩
  · exact ⟨⟨x, c, rfl, hc⟩, hdigit⟩
  · exact ⟨⟨'+' :: x, c, rfl, hc⟩, List.forall_mem_cons.2 ⟨by decide, hdigit⟩⟩
  · exact ⟨⟨'-' :: x, c, rfl, hc⟩, List.forall_mem_cons.2 ⟨by decide, hdigit⟩⟩

end Quantity

/-! ## The parsers read what is meant -/

section Parse

variable (toLower : Text → Text) {units : List Scale} {bare : Option Nat} {s : Text} {v : Int}

/-- The guard before the multiplication is exact. -/
theorem fits_iff {n m : Nat} (hm : 0 < m) (hn : n < 2 ^ 63) :
    ¬ (1 < m ∧ (2 ^ 63 - 1) / m < n) ↔ n * m < 2 ^ 63 := by
  rw [Nat.div_lt_iff_lt_mul hm]
  rcases Nat.lt_or_ge 1 m with h | h
  · simp only [h, true_and]
    omega
  · obtain rfl : m = 1 := by omega
    simpa using hn

theorem wrap_of_lt {n : Nat} (h : n < 2 ^ 63) : wrap n = n := by
  rw [wrap, Int.bmod_def]
  omega

/-- An amount that fits an `int64` is returned as it is, and one that does not is refused. -/
theorem parseQuantity_iff (h : Found units bare) : parseQuantity toLower units bare s = .ok v ↔
    ∃ n m, Quantity (scales units bare) (trimSpace (toLower s)) n m ∧ n * m < 2 ^ 63 ∧
      v = (n * m : Nat) := by
  constructor
  · fun_cases parseQuantity toLower units bare s <;> rintro ⟨⟩
    next t hnil mult w hcut n hint hneg hover =>
    obtain ⟨u, hu, rfl, ht⟩ := cut_some hcut
    obtain ⟨hn, -, hlt⟩ := parseInt_iff.1 hint
    obtain ⟨k, rfl⟩ := Int.eq_ofNat_of_zero_le (Int.not_lt.1 hneg)
    have hfits : k * u.2 < 2 ^ 63 := (fits_iff (h u hu).2.1 (by omega)).1 hover
    -- the text starts with no white space, and so does the number before the unit
    have hhead : ∀ c ∈ w.head?, isSpace c = false := by
      intro c hc
      refine trimSpace_head (l := toLower s) ?_
      rw [show trimSpace (toLower s) = w ++ u.1 from ht, List.head?_append, hc]
      rfl
    obtain ⟨space, hspace, hw⟩ := eq_trimSpace_append hhead
    refine ⟨k, u.2, ⟨trimSpace w, space, u, hu, hn, hspace, ?_, rfl⟩, hfits, ?_⟩
    · rw [← hw]
      exact ht
    · rw [← wrap_of_lt hfits, Int.natCast_mul]
  · rintro ⟨n, m, ⟨w, space, u, hu, hw, hspace, ht, rfl⟩, hlt, rfl⟩
    obtain ⟨x, c, hx, hc⟩ : ∃ x c, w ++ space = x ++ [c] ∧ isLetter c = false := by
      rcases List.eq_nil_or_concat' space with rfl | ⟨space, c, rfl⟩
      · obtain ⟨x, c, rfl, hc⟩ := hw.chars.1
        exact ⟨x, c, List.append_nil _, by simp [isLetter, hc]⟩
      · have hc : isSpace c = true := List.all_eq_true.1 hspace c (by simp)
        exact ⟨w ++ space, c, (List.append_assoc ..).symm, by simp [isLetter, hc]⟩
    have hm := (h u hu).2.1
    have hn : n < 2 ^ 63 := Nat.lt_of_le_of_lt (Nat.le_mul_of_pos_right n hm) hlt
    have hint : parseInt (trimSpace (w ++ space)) = .ok (n : Int) := by
      rw [trimSpace_append hw.chars.2 hspace]
      exact parseInt_iff.2 ⟨hw, by omega, by omega⟩
    have hcut : cut units bare (w ++ space ++ u.1) = some (u.2, w ++ space) := by
      rw [hx]
      exact h.cut_append hu hc
    rw [parseQuantity, ht, hcut]
    dsimp only
    rw [hint, if_neg (by simp [hx])]
    dsimp only
    rw [if_neg (by omega), Int.toNat_natCast, if_neg ((fits_iff hm hn).2 hlt), ← Int.natCast_mul,
      wrap_of_lt hlt]

/-- **Sizes and bitrates are read exactly.**  A text is accepted if and only if, lower-cased and
trimmed, it is an integer that is not negative, white space and a unit, and the amount needs no more
than 63 bits; the amount is returned, that of a bitrate in whole bytes. -/
theorem sizes_read_exactly (s : Text) (v : Int) :
    (parseByteSize toLower s = .ok v ↔
      ∃ n m, Quantity (sizeUnits ++ [([], 1)]) (trimSpace (toLower s)) n m ∧ n * m < 2 ^ 63 ∧
        v = (n * m : Nat)) ∧
    (parseBitrate toLower s = .ok v ↔
      ∃ n m, Quantity rateUnits (trimSpace (toLower s)) n m ∧ n * m < 2 ^ 63 ∧
        v = (n * m / 8 : Nat)) := by
  refine ⟨parseQuantity_iff toLower found_sizeUnits, ?_⟩
  have hbits (b : Int) : parseQuantity toLower rateUnits none s = .ok b ↔ _ :=
    parseQuantity_iff toLower found_rateUnits
  rw [parseBitrate]
  constructor
  · intro h
    cases hb : parseQuantity toLower rateUnits none s with
    | error e =>
      rw [hb] at h
      cases h
    | ok b =>
      rw [hb] at h
      obtain ⟨n, m, hq, hlt, rfl⟩ := (hbits b).1 hb
      cases h
      exact ⟨n, m, hq, hlt, rfl⟩
  · rintro ⟨n, m, hq, hlt, rfl⟩
    rw [(hbits (n * m : Nat)).2 ⟨n, m, hq, hlt, rfl⟩]
    rfl

-- a product just below 2⁶³, the next one, and a bitrate that is no whole number of bytes
example :
    parseByteSize (·.map Char.toLower) "8589934591 GB ".toList = .ok 9223372035781033984 ∧
    parseByteSize (·.map Char.toLower) "8589934592gb".toList = .error
      (.overflows "8589934592gb".toList) ∧
    parseBitrate (·.map Char.toLower) "+1001bit".toList = .ok 125 := by
  decide

end Parse

end Tunneld.Config

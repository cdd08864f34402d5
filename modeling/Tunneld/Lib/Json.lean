import Tunneld.Lib.Utf8

/-!
# JSON

The text of a JSON value as `encoding/json` writes it, without any blanks, and a reader for it.
Byte strings are written as strings: what is not UTF-8 is written as U+FFFD, so that a value is not
read back as it was but with its strings sanitized (`decode_encode`).  Nothing else is lost.

Numbers are integers.  The members of an object come in the order in which they are given, and may
have equal names.
-/

namespace Json

open Utf8

/-! ## Strings -/

/-- The lower-case digit of a number below sixteen. -/
def hexDigit (n : Nat) : UInt8 := if n < 10 then (48 + n).toUInt8 else (87 + n).toUInt8

/-- An ASCII character in a string. -/
def escapeAscii (a : UInt8) : Bytes :=
  if a = 0x22 ∨ a = 0x5C then [0x5C, a]
  else if a = 0x08 then [0x5C, 0x62]
  else if a = 0x0C then [0x5C, 0x66]
  else if a = 0x0A then [0x5C, 0x6E]
  else if a = 0x0D then [0x5C, 0x72]
  else if a = 0x09 then [0x5C, 0x74]
  else if a < 0x20 ∨ a = 0x3C ∨ a = 0x3E ∨ a = 0x26 then
    [0x5C, 0x75, 0x30, 0x30, hexDigit (a.toNat / 16), hexDigit (a.toNat % 16)]
  else [a]

/-- A character in a string; U+2028 and U+2029 are escaped. -/
def quoteChar : Bytes → Bytes
  | [a] => escapeAscii a
  | c =>
    if c = [0xE2, 0x80, 0xA8] then [0x5C, 0x75, 0x32, 0x30, 0x32, 0x38]
    else if c = [0xE2, 0x80, 0xA9] then [0x5C, 0x75, 0x32, 0x30, 0x32, 0x39]
    else c

/-- What is no character is written as U+FFFD, by its escape: it is read like the character. -/
def quoteRune : Option Bytes → Bytes
  | none => [0x5C, 0x75, 0x66, 0x66, 0x66, 0x64]
  | some c => quoteChar c

/-- A string, up to its closing quote. -/
def quoteBody (s : Bytes) : Bytes := (runes s).flatMap quoteRune

/-- The value of a digit. -/
def hexValue (b : UInt8) : Option Nat :=
  if 0x30 ≤ b ∧ b ≤ 0x39 then some (b.toNat - 48)
  else if 0x61 ≤ b ∧ b ≤ 0x66 then some (b.toNat - 87)
  else if 0x41 ≤ b ∧ b ≤ 0x46 then some (b.toNat - 55)
  else none

/-- Four digits. -/
def hex4 : Bytes → Option (Nat × Bytes)
  | a :: b :: c :: d :: r => do
    let a ← hexValue a
    let b ← hexValue b
    let c ← hexValue c
    let d ← hexValue d
    some (((a * 16 + b) * 16 + c) * 16 + d, r)
  | _ => none

/-- The bytes of a character, by its number. -/
def encodeRune (n : Nat) : Bytes :=
  if n < 0x80 then [n.toUInt8]
  else if n < 0x800 then [(0xC0 + n / 64).toUInt8, (0x80 + n % 64).toUInt8]
  else if n < 0x10000 then
    if 0xD800 ≤ n ∧ n < 0xE000 then replacement
    else [(0xE0 + n / 4096).toUInt8, (0x80 + n / 64 % 64).toUInt8, (0x80 + n % 64).toUInt8]
  else if n < 0x110000 then
    [(0xF0 + n / 262144).toUInt8, (0x80 + n / 4096 % 64).toUInt8, (0x80 + n / 64 % 64).toUInt8,
      (0x80 + n % 64).toUInt8]
  else replacement

/-- What follows the first half of a surrogate pair, if it is the second. -/
def lowHalf (n : Nat) (l : Bytes) : Option (Bytes × Bytes) :=
  match l with
  | a :: b :: l =>
    if a = 0x5C ∧ b = 0x75 then do
      let (m, r) ← hex4 l
      if n < 0xDC00 ∧ 0xDC00 ≤ m ∧ m < 0xE000 then
        some (encodeRune (0x10000 + (n - 0xD800) * 0x400 + (m - 0xDC00)), r)
      else none
    else none
  | _ => none

/-- The character of an escape by its number. -/
def unicode (l : Bytes) : Option (Bytes × Bytes) := do
  let (n, r) ← hex4 l
  if 0xD800 ≤ n ∧ n < 0xE000 then some ((lowHalf n r).getD (replacement, r))
  else some (encodeRune n, r)

/-- The character of an escape by a letter. -/
def unescape (e : UInt8) : Option UInt8 :=
  if e = 0x22 ∨ e = 0x5C ∨ e = 0x2F then some e
  else if e = 0x62 then some 0x08
  else if e = 0x66 then some 0x0C
  else if e = 0x6E then some 0x0A
  else if e = 0x72 then some 0x0D
  else if e = 0x74 then some 0x09
  else none

/-- What follows a backslash. -/
def escape : Bytes → Option (Bytes × Bytes)
  | [] => none
  | e :: l => if e = 0x75 then unicode l else (unescape e).map fun a => ([a], l)

/-- A piece of a string before the rest of it. -/
def before (c : Bytes) (p : Option (Bytes × Bytes)) : Option (Bytes × Bytes) :=
  p.map fun p => (c ++ p.1, p.2)

/-- A string up to its closing quote, and what follows it.  The number is how many characters to
read at most. -/
def parseBody : Nat → Bytes → Option (Bytes × Bytes)
  | 0, _ => none
  | _ + 1, [] => none
  | n + 1, a :: l =>
    if a = 0x22 then some ([], l)
    else if a = 0x5C then (escape l).bind fun p => before p.1 (parseBody n p.2)
    else if a < 0x20 then none
    else
      match next (a :: l) with
      | some (c, r) => before c (parseBody n r)
      | none => before replacement (parseBody n l)

theorem hexValue_hexDigit {n : Nat} (h : n < 16) : hexValue (hexDigit n) = some n := by
  have hall : ∀ i < 16, hexValue (hexDigit i) = some i := by decide
  exact hall n h

section Strings

variable {n : Nat} {a : UInt8} {c l : Bytes}

theorem parseBody_escape {t : Bytes} (h : escape (t ++ l) = some (c, l)) :
    parseBody (n + 1) (0x5C :: (t ++ l)) = before c (parseBody n l) := by
  rw [parseBody, if_neg (by decide), if_pos rfl, h]
  rfl

theorem parseBody_escapeAscii (ha : a < 0x80) :
    parseBody (n + 1) (escapeAscii a ++ l) = before [a] (parseBody n l) := by
  unfold escapeAscii
  split
  · rename_i h
    refine parseBody_escape (t := [a]) ?_
    rcases h with rfl | rfl <;> rfl
  split
  · subst a
    exact parseBody_escape (t := [0x62]) rfl
  split
  · subst a
    exact parseBody_escape (t := [0x66]) rfl
  split
  · subst a
    exact parseBody_escape (t := [0x6E]) rfl
  split
  · subst a
    exact parseBody_escape (t := [0x72]) rfl
  split
  · subst a
    exact parseBody_escape (t := [0x74]) rfl
  split
  · refine parseBody_escape
      (t := [0x75, 0x30, 0x30, hexDigit (a.toNat / 16), hexDigit (a.toNat % 16)]) ?_
    have hlt : a.toNat < 128 := ha
    have hzero : hexValue 0x30 = some 0 := rfl
    have hnumber : ((0 * 16 + 0) * 16 + a.toNat / 16) * 16 + a.toNat % 16 = a.toNat := by omega
    simp only [escape, unicode, hex4, List.cons_append, List.nil_append, if_true, hzero,
      hexValue_hexDigit (n := a.toNat / 16) (by omega),
      hexValue_hexDigit (n := a.toNat % 16) (by omega), Option.bind_eq_bind, Option.bind_some,
      hnumber]
    rw [if_neg (by omega), encodeRune, if_pos hlt]
    simp
  · rename_i hquote _ _ _ _ _ hsafe
    rw [List.cons_append, List.nil_append, parseBody, if_neg (fun h => hquote (.inl h)),
      if_neg (fun h => hquote (.inr h)), if_neg (fun h => hsafe (.inl h)), next_of_ascii ha]

theorem parseBody_quoteChar {s r : Bytes} (h : next s = some (c, r)) :
    parseBody (n + 1) (quoteChar c ++ l) = before c (parseBody n l) := by
  rcases next_ascii h with ⟨a, ha, rfl⟩ | ⟨a, b, t, ha, rfl⟩
  · exact parseBody_escapeAscii ha
  rw [quoteChar.eq_2 _ (by simp)]
  split
  · rename_i hc
    rw [hc]
    exact parseBody_escape (t := [0x75, 0x32, 0x30, 0x32, 0x38]) rfl
  split
  · rename_i hc
    rw [hc]
    exact parseBody_escape (t := [0x75, 0x32, 0x30, 0x32, 0x39]) rfl
  -- the first byte is none of the ASCII bytes that have a meaning
  have hne : ∀ d : UInt8, d < 0x80 → a ≠ d := fun d hd had => ha (had ▸ hd)
  have hcontrol : ¬ a < 0x20 := fun hlt => ha (UInt8.lt_trans hlt (by decide))
  rw [List.cons_append, parseBody, if_neg (hne _ (by decide)), if_neg (hne _ (by decide)),
    if_neg hcontrol, ← List.cons_append, (next_append h).2 l]

/-- A string is read back with what is no character replaced. -/
theorem parseBody_quoteBody {s : Bytes} (h : s.length < n) :
    parseBody n (quoteBody s ++ 0x22 :: l) = some (sanitize s, l) := by
  rw [quoteBody, sanitize]
  induction s using Utf8.induction generalizing n with
  | nil =>
    obtain ⟨n, rfl⟩ := Nat.exists_eq_add_one_of_ne_zero (Nat.ne_zero_of_lt h)
    rfl
  | char s c r hnext ih =>
    obtain ⟨n, rfl⟩ := Nat.exists_eq_add_one_of_ne_zero (Nat.ne_zero_of_lt h)
    have hlt := length_lt_of_next hnext
    rw [runes_of_next hnext, List.flatMap_cons, List.flatMap_cons, List.append_assoc, quoteRune,
      parseBody_quoteChar hnext, ih (by omega)]
    rfl
  | bad a s hnext ih =>
    obtain ⟨n, rfl⟩ := Nat.exists_eq_add_one_of_ne_zero (Nat.ne_zero_of_lt h)
    rw [List.length_cons] at h
    rw [runes_of_none hnext, List.flatMap_cons, List.flatMap_cons, List.append_assoc, quoteRune]
    refine (parseBody_escape (t := [0x75, 0x66, 0x66, 0x66, 0x64]) rfl).trans ?_
    rw [ih (by omega)]
    rfl

end Strings

/-! ## Numbers -/

/-- The decimal digits of a number, at most as many as are asked for. -/
def decimalUpTo : Nat → Nat → Bytes
  | 0, _ => []
  | w + 1, n => (if n < 10 then [] else decimalUpTo w (n / 10)) ++ [(48 + n % 10).toUInt8]

/-- The decimal digits of a number. -/
def decimal (n : Nat) : Bytes := decimalUpTo (n + 1) n

def isDigit (a : UInt8) : Bool := 0x30 ≤ a ∧ a ≤ 0x39

/-- The digits at the start of a text are read on from a number. -/
def parseNat (acc : Nat) : Bytes → Nat × Bytes
  | [] => (acc, [])
  | a :: l => if isDigit a then parseNat (acc * 10 + (a.toNat - 48)) l else (acc, a :: l)

/-- What follows does not go on with a digit. -/
def NoDigit (l : Bytes) : Prop := ∀ a ∈ l.head?, isDigit a = false

theorem isDigit_digit {n : Nat} (h : n < 10) :
    isDigit (48 + n).toUInt8 = true ∧ (48 + n).toUInt8.toNat - 48 = n := by
  have hall : ∀ i < 10, isDigit (48 + i).toUInt8 = true ∧ (48 + i).toUInt8.toNat - 48 = i := by
    decide
  exact hall n h

theorem parseNat_of_noDigit {acc : Nat} {l : Bytes} (h : NoDigit l) :
    parseNat acc l = (acc, l) := by
  cases l with
  | nil => rfl
  | cons a l => rw [parseNat, h a rfl, if_neg (by decide)]

theorem parseNat_decimalUpTo {w n : Nat} (h : n < w) (l : Bytes) :
    parseNat 0 (decimalUpTo w n ++ l) = parseNat n l := by
  induction w generalizing n l with
  | zero => omega
  | succ w ih =>
    obtain ⟨hdigit, hvalue⟩ := isDigit_digit (Nat.mod_lt n (by decide : 10 > 0))
    rw [decimalUpTo, List.append_assoc]
    split
    · rename_i hlt
      rw [List.nil_append, List.cons_append, List.nil_append, parseNat, hdigit, if_pos rfl, hvalue]
      congr 1
      omega
    · rw [ih (by omega), List.cons_append, List.nil_append, parseNat, hdigit, if_pos rfl, hvalue]
      congr 1
      omega

theorem exists_decimal (n : Nat) : ∃ a l, isDigit a = true ∧ decimal n = a :: l := by
  suffices h : ∀ w n, ∃ a l, isDigit a = true ∧ decimalUpTo (w + 1) n = a :: l from h n n
  intro w
  induction w with
  | zero =>
    intro n
    refine ⟨(48 + n % 10).toUInt8, [], (isDigit_digit (Nat.mod_lt n (by decide))).1, ?_⟩
    rw [decimalUpTo]
    split <;> rfl
  | succ w ih =>
    intro n
    rw [decimalUpTo]
    split
    · exact ⟨_, _, (isDigit_digit (Nat.mod_lt n (by decide))).1, rfl⟩
    · obtain ⟨a, l, ha, hl⟩ := ih (n / 10)
      exact ⟨a, _, ha, by rw [hl]; rfl⟩

/-! ## Values -/

/-- A JSON value. -/
inductive Value
  | null
  | bool (b : Bool)
  | int (n : Int)
  | str (s : Bytes)
  | arr (l : List Value)
  | obj (l : List (Bytes × Value))

theorem Value.induction {P : Value → Prop} (null : P .null) (bool : ∀ b, P (.bool b))
    (int : ∀ n, P (.int n)) (str : ∀ s, P (.str s)) (arr : ∀ l, (∀ v ∈ l, P v) → P (.arr l))
    (obj : ∀ l, (∀ m ∈ l, P m.2) → P (.obj l)) (v : Value) : P v :=
  @Value.rec P (fun l => ∀ v ∈ l, P v) (fun l => ∀ m ∈ l, P m.2) (fun m => P m.2)
    null bool int str arr obj
    (fun _ h => absurd h List.not_mem_nil)
    (fun _ _ hv hl _ h => (List.mem_cons.1 h).elim (fun heq => heq ▸ hv) (hl _))
    (fun _ h => absurd h List.not_mem_nil)
    (fun _ _ hm hl _ h => (List.mem_cons.1 h).elim (fun heq => heq ▸ hm) (hl _))
    (fun _ _ hv => hv) v

/-- A comma, except before the first. -/
def comma (first : Bool) : Bytes := if first then [] else [0x2C]

def trueText : Bytes := [0x74, 0x72, 0x75, 0x65]

def falseText : Bytes := [0x66, 0x61, 0x6C, 0x73, 0x65]

def nullText : Bytes := [0x6E, 0x75, 0x6C, 0x6C]

mutual

/-- The text of a value. -/
def encode : Value → Bytes
  | .null => nullText
  | .bool b => if b then trueText else falseText
  | .int n => if n < 0 then 0x2D :: decimal n.natAbs else decimal n.natAbs
  | .str s => 0x22 :: (quoteBody s ++ [0x22])
  | .arr l => 0x5B :: encodeElems true l
  | .obj l => 0x7B :: encodeMembers true l

/-- The elements of an array, up to its closing bracket. -/
def encodeElems : Bool → List Value → Bytes
  | _, [] => [0x5D]
  | first, v :: l => comma first ++ (encode v ++ encodeElems false l)

/-- The members of an object, up to its closing brace. -/
def encodeMembers : Bool → List (Bytes × Value) → Bytes
  | _, [] => [0x7D]
  | first, (k, v) :: l =>
    comma first ++ 0x22 :: (quoteBody k ++ 0x22 :: 0x3A :: (encode v ++ encodeMembers false l))

end

mutual

/-- The value with its strings sanitized. -/
def clean : Value → Value
  | .str s => .str (sanitize s)
  | .arr l => .arr (cleanElems l)
  | .obj l => .obj (cleanMembers l)
  | .null => .null
  | .bool b => .bool b
  | .int n => .int n

def cleanElems : List Value → List Value
  | [] => []
  | v :: l => clean v :: cleanElems l

def cleanMembers : List (Bytes × Value) → List (Bytes × Value)
  | [] => []
  | (k, v) :: l => (sanitize k, clean v) :: cleanMembers l

end

theorem cleanElems_of_forall {l : List Value} (h : ∀ v ∈ l, clean v = v) : cleanElems l = l := by
  induction l with
  | nil => rfl
  | cons v l ih =>
    rw [cleanElems, h v List.mem_cons_self, ih fun w hw => h w (.tail _ hw)]

theorem cleanMembers_of_forall {l : List (Bytes × Value)}
    (h : ∀ m ∈ l, Valid m.1 ∧ clean m.2 = m.2) : cleanMembers l = l := by
  induction l with
  | nil => rfl
  | cons m l ih =>
    obtain ⟨hname, hvalue⟩ := h m List.mem_cons_self
    obtain ⟨k, v⟩ := m
    rw [cleanMembers, sanitize_of_valid hname, hvalue, ih fun m hm => h m (.tail _ hm)]

/-- A word, as a value. -/
def word (w : Bytes) (v : Value) (l : Bytes) : Option (Value × Bytes) :=
  if l.take w.length = w then some (v, l.drop w.length) else none

/-- The comma, except before the first. -/
def skipComma (first : Bool) (l : Bytes) : Option Bytes :=
  if first then some l
  else
    match l with
    | [] => none
    | a :: l => if a = 0x2C then some l else none

/-- The name of a member, and what follows its colon. -/
def parseName : Bytes → Option (Bytes × Bytes)
  | [] => none
  | a :: l =>
    if a = 0x22 then
      (parseBody (l.length + 1) l).bind fun p =>
        match p.2 with
        | [] => none
        | b :: r => if b = 0x3A then some (p.1, r) else none
    else none

mutual

/-- A value, and what follows it.  The number is how deep and how far to go at most. -/
def parseValue : Nat → Bytes → Option (Value × Bytes)
  | 0, _ => none
  | _ + 1, [] => none
  | n + 1, a :: l =>
    if a = 0x22 then (parseBody (l.length + 1) l).map fun p => (.str p.1, p.2)
    else if a = 0x5B then (parseElems n true l).map fun p => (.arr p.1, p.2)
    else if a = 0x7B then (parseMembers n true l).map fun p => (.obj p.1, p.2)
    else if a = 0x2D ∧ l.head?.any isDigit then
      some (.int (-(parseNat 0 l).1), (parseNat 0 l).2)
    else if isDigit a then some (.int (parseNat 0 (a :: l)).1, (parseNat 0 (a :: l)).2)
    else if a = 0x74 then word trueText (.bool true) (a :: l)
    else if a = 0x66 then word falseText (.bool false) (a :: l)
    else word nullText .null (a :: l)

def parseElems : Nat → Bool → Bytes → Option (List Value × Bytes)
  | 0, _, _ => none
  | _ + 1, _, [] => none
  | n + 1, first, a :: l =>
    if a = 0x5D then some ([], l)
    else
      (skipComma first (a :: l)).bind fun l => (parseValue n l).bind fun p =>
        (parseElems n false p.2).map fun q => (p.1 :: q.1, q.2)

def parseMembers : Nat → Bool → Bytes → Option (List (Bytes × Value) × Bytes)
  | 0, _, _ => none
  | _ + 1, _, [] => none
  | n + 1, first, a :: l =>
    if a = 0x7D then some ([], l)
    else
      (skipComma first (a :: l)).bind fun l => (parseName l).bind fun k =>
        (parseValue n k.2).bind fun p =>
          (parseMembers n false p.2).map fun q => ((k.1, p.1) :: q.1, q.2)

end

/-- The value that a text is. -/
def decode (s : Bytes) : Option Value :=
  (parseValue (s.length + 1) s).bind fun p => if p.2 = [] then some p.1 else none

/-! ## Reading back -/

mutual

/-- How deep and how far to go for a value. -/
def size : Value → Nat
  | .arr l => sizeElems l + 1
  | .obj l => sizeMembers l + 1
  | .null | .bool _ | .int _ | .str _ => 1

def sizeElems : List Value → Nat
  | [] => 1
  | v :: l => max (size v) (sizeElems l) + 1

def sizeMembers : List (Bytes × Value) → Nat
  | [] => 1
  | (_, v) :: l => max (size v) (sizeMembers l) + 1

end

section Reading

variable {v : Value} {s r : Bytes} {n : Nat}

/-- The text of the value is read back. -/
def Reads (v : Value) : Prop :=
  ∀ n r, size v ≤ n → NoDigit r → parseValue n (encode v ++ r) = some (clean v, r)

theorem length_quoteChar (c : Bytes) : c.length ≤ (quoteChar c).length := by
  unfold quoteChar
  split
  · unfold escapeAscii
    repeat' split
    all_goals simp
  · split
    · rename_i h
      simp [h]
    · split
      · rename_i h
        simp [h]
      · exact Nat.le_refl _

theorem length_quoteBody (s : Bytes) : s.length ≤ (quoteBody s).length := by
  rw [quoteBody]
  induction s using Utf8.induction with
  | nil => exact Nat.le_refl _
  | char s c r hnext ih =>
    have hlength := length_quoteChar c
    rw [runes_of_next hnext, List.flatMap_cons, (next_append hnext).1, List.length_append,
      List.length_append, quoteRune]
    omega
  | bad a s hnext ih =>
    rw [runes_of_none hnext, List.flatMap_cons, List.length_append, List.length_cons]
    simp only [quoteRune, List.length_cons, List.length_nil]
    omega

theorem parseBody_quote (s r : Bytes) :
    parseBody ((quoteBody s ++ 0x22 :: r).length + 1) (quoteBody s ++ 0x22 :: r) =
      some (sanitize s, r) := by
  refine parseBody_quoteBody ?_
  have hle := length_quoteBody s
  simp only [List.length_append, List.length_cons]
  omega

theorem word_append (w : Bytes) (v : Value) (r : Bytes) : word w v (w ++ r) = some (v, r) := by
  simp [word]

theorem noDigit_cons {a : UInt8} (h : isDigit a = false) : NoDigit (a :: r) := by
  intro b hb
  cases hb
  exact h

theorem noDigit_elems (l : List Value) (r : Bytes) : NoDigit (encodeElems false l ++ r) := by
  cases l <;> exact noDigit_cons rfl

theorem noDigit_members (l : List (Bytes × Value)) (r : Bytes) :
    NoDigit (encodeMembers false l ++ r) := by
  cases l <;> exact noDigit_cons rfl

theorem reads_int (i : Int) : Reads (.int i) := by
  intro n r hn hr
  obtain ⟨n, rfl⟩ := Nat.exists_eq_add_one_of_ne_zero (Nat.ne_zero_of_lt hn)
  obtain ⟨a, l, ha, hl⟩ := exists_decimal i.natAbs
  have hnumber : parseNat 0 (decimal i.natAbs ++ r) = (i.natAbs, r) :=
    (parseNat_decimalUpTo (Nat.lt_succ_self _) r).trans (parseNat_of_noDigit hr)
  have hne : ∀ b : UInt8, isDigit b = false → a ≠ b := by
    rintro b hb rfl
    rw [ha] at hb
    cases hb
  rw [encode, clean]
  split
  · rename_i hneg
    have hhead : (decimal i.natAbs ++ r).head?.any isDigit = true := by
      rw [hl]
      exact ha
    rw [List.cons_append, parseValue, if_neg (by decide), if_neg (by decide), if_neg (by decide),
      if_pos ⟨rfl, hhead⟩, hnumber]
    have hi : -(i.natAbs : Int) = i := by omega
    rw [hi]
  · rename_i hneg
    rw [hl, List.cons_append] at hnumber ⊢
    rw [parseValue, if_neg (hne _ rfl), if_neg (hne _ rfl), if_neg (hne _ rfl),
      if_neg (fun h => hne _ rfl h.1), if_pos ha, hnumber]
    have hi : (i.natAbs : Int) = i := by omega
    rw [hi]

theorem reads_str (s : Bytes) : Reads (.str s) := by
  intro n r hn _
  obtain ⟨n, rfl⟩ := Nat.exists_eq_add_one_of_ne_zero (Nat.ne_zero_of_lt hn)
  rw [encode, clean, List.cons_append, List.append_assoc, List.cons_append, List.nil_append,
    parseValue, if_pos rfl, parseBody_quote]
  rfl

theorem parseName_quote (k r : Bytes) :
    parseName (0x22 :: (quoteBody k ++ 0x22 :: 0x3A :: r)) = some (sanitize k, r) := by
  rw [parseName, if_pos rfl, parseBody_quote]
  rfl

/-- The text of a value does not begin with a closing bracket. -/
theorem encode_head (v : Value) : ∃ a l, a ≠ 0x5D ∧ encode v = a :: l := by
  cases v with
  | null => exact ⟨_, _, by decide, rfl⟩
  | bool b => cases b <;> exact ⟨_, _, by decide, rfl⟩
  | int i =>
    rw [encode]
    split
    · exact ⟨_, _, by decide, rfl⟩
    · obtain ⟨a, l, ha, hl⟩ := exists_decimal i.natAbs
      refine ⟨a, l, ?_, hl⟩
      rintro rfl
      cases ha
  | str s => exact ⟨_, _, by decide, rfl⟩
  | arr l => exact ⟨_, _, by decide, rfl⟩
  | obj l => exact ⟨_, _, by decide, rfl⟩

/-- The elements of an array are read back, if each of them is. -/
theorem parseElems_encode {l : List Value} (h : ∀ v ∈ l, Reads v) {first : Bool}
    (hn : sizeElems l ≤ n) :
    parseElems n first (encodeElems first l ++ r) = some (cleanElems l, r) := by
  induction l generalizing n first with
  | nil =>
    obtain ⟨n, rfl⟩ := Nat.exists_eq_add_one_of_ne_zero (Nat.ne_zero_of_lt hn)
    rfl
  | cons v l ih =>
    rw [sizeElems] at hn
    obtain ⟨n, rfl⟩ := Nat.exists_eq_add_one_of_ne_zero (Nat.ne_zero_of_lt hn)
    have hv : parseValue n (encode v ++ (encodeElems false l ++ r)) =
        some (clean v, encodeElems false l ++ r) :=
      h v List.mem_cons_self n _ (by omega) (noDigit_elems l r)
    have hl : parseElems n false (encodeElems false l ++ r) = some (cleanElems l, r) :=
      ih (fun w hw => h w (.tail _ hw)) (by omega)
    obtain ⟨a, t, ha, hhead⟩ := encode_head v
    rw [encodeElems, cleanElems, List.append_assoc, List.append_assoc]
    cases first with
    | true =>
      rw [hhead] at hv ⊢
      rw [comma, if_pos rfl, List.nil_append, List.cons_append, parseElems, if_neg ha, skipComma,
        if_pos rfl, Option.bind_some, ← List.cons_append, hv, Option.bind_some, hl]
      rfl
    | false =>
      rw [comma, if_neg (by decide), List.cons_append, List.nil_append, parseElems,
        if_neg (by decide), skipComma, if_neg (by decide)]
      simp only [if_true, Option.bind_some, hv, hl, Option.map_some]

/-- The members of an object are read back, if the value of each of them is. -/
theorem parseMembers_encode {l : List (Bytes × Value)} (h : ∀ m ∈ l, Reads m.2) {first : Bool}
    (hn : sizeMembers l ≤ n) :
    parseMembers n first (encodeMembers first l ++ r) = some (cleanMembers l, r) := by
  induction l generalizing n first with
  | nil =>
    obtain ⟨n, rfl⟩ := Nat.exists_eq_add_one_of_ne_zero (Nat.ne_zero_of_lt hn)
    rfl
  | cons m l ih =>
    obtain ⟨k, v⟩ := m
    rw [sizeMembers] at hn
    obtain ⟨n, rfl⟩ := Nat.exists_eq_add_one_of_ne_zero (Nat.ne_zero_of_lt hn)
    have hsize : size v ≤ n := by omega
    have hv : parseValue n (encode v ++ (encodeMembers false l ++ r)) =
        some (clean v, encodeMembers false l ++ r) :=
      h (k, v) List.mem_cons_self n _ hsize (noDigit_members l r)
    have hl : parseMembers n false (encodeMembers false l ++ r) = some (cleanMembers l, r) :=
      ih (fun m hm => h m (.tail _ hm)) (by omega)
    have hname := parseName_quote k (encode v ++ (encodeMembers false l ++ r))
    rw [encodeMembers, cleanMembers]
    simp only [List.append_assoc, List.cons_append]
    cases first with
    | true =>
      rw [comma, if_pos rfl, List.nil_append, parseMembers, if_neg (by decide), skipComma,
        if_pos rfl, Option.bind_some, hname, Option.bind_some, hv, Option.bind_some, hl]
      rfl
    | false =>
      rw [comma, if_neg (by decide), List.cons_append, List.nil_append, parseMembers,
        if_neg (by decide), skipComma, if_neg (by decide)]
      simp only [if_true, Option.bind_some, hname, hv, hl, Option.map_some]

theorem reads (v : Value) : Reads v := by
  induction v using Value.induction with
  | null =>
    intro n r hn _
    obtain ⟨n, rfl⟩ := Nat.exists_eq_add_one_of_ne_zero (Nat.ne_zero_of_lt hn)
    exact word_append nullText .null r
  | bool b =>
    intro n r hn _
    obtain ⟨n, rfl⟩ := Nat.exists_eq_add_one_of_ne_zero (Nat.ne_zero_of_lt hn)
    cases b with
    | true => exact word_append trueText (.bool true) r
    | false => exact word_append falseText (.bool false) r
  | int i => exact reads_int i
  | str s => exact reads_str s
  | arr l ih =>
    intro n r hn _
    obtain ⟨n, rfl⟩ := Nat.exists_eq_add_one_of_ne_zero (Nat.ne_zero_of_lt hn)
    rw [encode, clean, List.cons_append, parseValue, if_neg (by decide), if_pos rfl,
      parseElems_encode ih (Nat.le_of_succ_le_succ hn)]
    rfl
  | obj l ih =>
    intro n r hn _
    obtain ⟨n, rfl⟩ := Nat.exists_eq_add_one_of_ne_zero (Nat.ne_zero_of_lt hn)
    rw [encode, clean, List.cons_append, parseValue, if_neg (by decide), if_neg (by decide),
      if_pos rfl, parseMembers_encode ih (Nat.le_of_succ_le_succ hn)]
    rfl

theorem size_pos (v : Value) : 0 < size v := by cases v <;> simp [size]

theorem sizeElems_le {l : List Value} (h : ∀ v ∈ l, size v ≤ (encode v).length) (first : Bool) :
    sizeElems l ≤ (encodeElems first l).length := by
  induction l generalizing first with
  | nil => exact Nat.le_refl _
  | cons v l ih =>
    have hv := h v List.mem_cons_self
    have hl := ih (fun w hw => h w (.tail _ hw)) false
    have hpos := size_pos v
    have hpos' : 0 < sizeElems l := by cases l <;> simp [sizeElems]
    rw [sizeElems, encodeElems, List.length_append, List.length_append]
    omega

theorem sizeMembers_le {l : List (Bytes × Value)} (h : ∀ m ∈ l, size m.2 ≤ (encode m.2).length)
    (first : Bool) : sizeMembers l ≤ (encodeMembers first l).length := by
  induction l generalizing first with
  | nil => exact Nat.le_refl _
  | cons m l ih =>
    obtain ⟨k, v⟩ := m
    have hv : size v ≤ (encode v).length := h (k, v) List.mem_cons_self
    have hl := ih (fun m hm => h m (.tail _ hm)) false
    rw [sizeMembers, encodeMembers]
    simp only [List.length_append, List.length_cons]
    omega

/-- A text is long enough to say how deep and how far to go. -/
theorem size_le (v : Value) : size v ≤ (encode v).length := by
  induction v using Value.induction with
  | null => decide
  | bool b => cases b <;> decide
  | int i =>
    obtain ⟨a, l, -, hl⟩ := encode_head (.int i)
    rw [hl, size]
    exact Nat.le_add_left 1 l.length
  | str s => simp [size, encode]
  | arr l ih =>
    rw [size, encode, List.length_cons]
    exact Nat.succ_le_succ (sizeElems_le ih true)
  | obj l ih =>
    rw [size, encode, List.length_cons]
    exact Nat.succ_le_succ (sizeMembers_le ih true)

/-- **A text is read back** as the value it was written for, with its strings sanitized. -/
theorem decode_encode (v : Value) : decode (encode v) = some (clean v) := by
  have hread := reads v ((encode v).length + 1) [] (Nat.le_succ_of_le (size_le v))
    (fun a ha => by cases ha)
  rw [List.append_nil] at hread
  rw [decode, hread]
  rfl

end Reading

end Json

import Mathlib.Data.List.Basic

/-!
# UTF-8

A byte string is read character by character (`next`), with the ranges of the Unicode standard:
overlong forms, surrogates and numbers beyond U+10FFFF are not characters.  A byte at which no
character starts is taken for one by itself, and `runes` has nothing in its place.

`sanitize` puts the replacement character there, and `toValid` puts one for several such bytes.
Both change nothing in a string that is valid (`sanitize_of_valid`, `toValid_of_valid`), and
different strings that are not may become the same.

A string may be cut where no character is (`runes_append`), and a substring is read as in the string
but for what is cut at its ends (`runes_infix`).
-/

namespace Utf8

/-- A byte string. -/
abbrev Bytes := List UInt8

/-- A byte that continues a character. -/
def tail (b : UInt8) : Bool := 0x80 ≤ b ∧ b ≤ 0xBF

/-- The second byte of a character, after its first. -/
def second (a b : UInt8) : Bool :=
  (if a = 0xE0 then 0xA0 else if a = 0xF0 then 0x90 else 0x80) ≤ b ∧
    b ≤ (if a = 0xED then 0x9F else if a = 0xF4 then 0x8F else 0xBF)

/-- How many bytes a character has, by its first; none has 0. -/
def width (a : UInt8) : Nat :=
  if a < 0x80 then 1
  else if 0xC2 ≤ a ∧ a ≤ 0xDF then 2
  else if 0xE0 ≤ a ∧ a ≤ 0xEF then 3
  else if 0xF0 ≤ a ∧ a ≤ 0xF4 then 4
  else 0

/-- Bytes that continue a character after its first. -/
def continues (a : UInt8) : Bytes → Bool
  | [] => true
  | b :: l => second a b && l.all tail

/-- The character at the start of a string, and what follows it. -/
def next : Bytes → Option (Bytes × Bytes)
  | [] => none
  | a :: l =>
    let c := l.take (width a - 1)
    if 0 < width a ∧ c.length = width a - 1 ∧ continues a c then
      some (a :: c, l.drop (width a - 1))
    else none

/-- U+FFFD. -/
def replacement : Bytes := [0xEF, 0xBF, 0xBD]

/-- The characters of a string, with nothing for a byte at which none starts.  The number is how
many to read at most. -/
def runesUpTo : Nat → Bytes → List (Option Bytes)
  | 0, _ => []
  | _ + 1, [] => []
  | n + 1, a :: l =>
    match next (a :: l) with
    | some (c, r) => some c :: runesUpTo n r
    | none => none :: runesUpTo n l

/-- All of them. -/
def runes (s : Bytes) : List (Option Bytes) := runesUpTo s.length s

/-- The string is UTF-8. -/
def Valid (s : Bytes) : Prop := none ∉ runes s

instance (s : Bytes) : Decidable (Valid s) := inferInstanceAs (Decidable (none ∉ _))

/-- The string with the replacement character for every byte at which no character starts. -/
def sanitize (s : Bytes) : Bytes := (runes s).flatMap fun r => r.getD replacement

variable {l r c : Bytes} {n : Nat}

/-- A character is one whatever follows it. -/
theorem next_append (h : next l = some (c, r)) :
    l = c ++ r ∧ ∀ r', next (c ++ r') = some (c, r') := by
  cases l with
  | nil => cases h
  | cons a l =>
    obtain ⟨⟨hwidth, hlength, hcont⟩, heq⟩ := Option.ite_none_right_eq_some.1 h
    cases heq
    refine ⟨by rw [List.cons_append, List.take_append_drop], fun r' => ?_⟩
    have htake : (l.take (width a - 1) ++ r').take (width a - 1) = l.take (width a - 1) :=
      List.take_left' hlength
    rw [List.cons_append, next]
    simp only [htake, List.drop_left' hlength]
    exact if_pos ⟨hwidth, hlength, hcont⟩

/-- A character is an ASCII byte, or has more than one byte. -/
theorem next_ascii (h : next l = some (c, r)) :
    (∃ a, a < 0x80 ∧ c = [a]) ∨ ∃ a b t, ¬ a < 0x80 ∧ c = a :: b :: t := by
  cases l with
  | nil => cases h
  | cons a l =>
    obtain ⟨⟨hwidth, hlength, -⟩, heq⟩ := Option.ite_none_right_eq_some.1 h
    cases heq
    by_cases ha : a < 0x80
    · have hone : width a = 1 := if_pos ha
      exact .inl ⟨a, ha, by simp [hone]⟩
    · have hone : width a ≠ 1 := by
        rw [width, if_neg ha]
        split
        · decide
        · split
          · decide
          · split <;> decide
      refine .inr ⟨a, ?_⟩
      cases htake : l.take (width a - 1) with
      | nil =>
        rw [htake, List.length_nil] at hlength
        omega
      | cons b t => exact ⟨b, t, ha, rfl⟩

theorem length_lt_of_next (h : next l = some (c, r)) : r.length < l.length := by
  rw [(next_append h).1, List.length_append]
  rcases next_ascii h with ⟨a, -, rfl⟩ | ⟨a, b, t, -, rfl⟩ <;> simp

theorem induction {P : Bytes → Prop} (nil : P [])
    (char : ∀ l c r, next l = some (c, r) → P r → P l)
    (bad : ∀ a l, next (a :: l) = none → P l → P (a :: l)) (s : Bytes) : P s := by
  induction hn : s.length using Nat.strongRecOn generalizing s with
  | ind n ih =>
    cases s with
    | nil => exact nil
    | cons a l =>
      cases hnext : next (a :: l) with
      | none => exact bad a l hnext (ih l.length (by simp [← hn]) l rfl)
      | some p => exact char _ p.1 p.2 hnext (ih p.2.length (hn ▸ length_lt_of_next hnext) p.2 rfl)

/-- There are no more characters than bytes. -/
theorem runesUpTo_eq {m : Nat} (hn : l.length ≤ n) (hm : l.length ≤ m) :
    runesUpTo n l = runesUpTo m l := by
  induction n generalizing l m with
  | zero =>
    obtain rfl := List.length_eq_zero_iff.1 (Nat.le_zero.1 hn)
    cases m <;> rfl
  | succ n ih =>
    cases l with
    | nil => cases m <;> rfl
    | cons a l =>
      obtain ⟨m, rfl⟩ := Nat.exists_eq_add_one_of_ne_zero (Nat.ne_zero_of_lt hm)
      rw [runesUpTo, runesUpTo]
      cases hnext : next (a :: l) with
      | none => exact congrArg _ (ih (Nat.le_of_succ_le_succ hn) (Nat.le_of_succ_le_succ hm))
      | some p =>
        have hlt := length_lt_of_next hnext
        exact congrArg _ (ih (by omega) (by omega))

theorem runes_of_next (h : next l = some (c, r)) : runes l = some c :: runes r := by
  have hlt := length_lt_of_next h
  cases l with
  | nil => cases h
  | cons a l =>
    rw [runes, List.length_cons, runesUpTo, h]
    exact congrArg _ (runesUpTo_eq (Nat.le_of_lt_succ hlt) (Nat.le_refl _))

variable {a : UInt8}

theorem runes_of_none (h : next (a :: l) = none) : runes (a :: l) = none :: runes l := by
  rw [runes, List.length_cons, runesUpTo, h]
  rfl

variable {s : Bytes}

theorem sanitize_of_valid (h : Valid s) : sanitize s = s := by
  induction s using Utf8.induction with
  | nil => rfl
  | char l c r hnext ih =>
    rw [Valid, runes_of_next hnext, List.mem_cons, not_or] at h
    rw [sanitize, runes_of_next hnext, List.flatMap_cons, (next_append hnext).1]
    exact congrArg _ (ih h.2)
  | bad a l hnext ih =>
    rw [Valid, runes_of_none hnext] at h
    exact absurd List.mem_cons_self h

theorem next_of_ascii (h : a < 0x80) : next (a :: l) = some ([a], l) := by
  have hwidth : width a = 1 := if_pos h
  simp [next, hwidth, continues]

theorem valid_of_ascii (h : ∀ a ∈ s, a < 0x80) : Valid s := by
  induction s with
  | nil => exact List.not_mem_nil
  | cons a l ih =>
    rw [Valid, runes_of_next (next_of_ascii (h a List.mem_cons_self)), List.mem_cons, not_or]
    exact ⟨Option.some_ne_none [a] ∘ Eq.symm, ih fun b hb => h b (.tail _ hb)⟩

/-! ## Cutting a string -/

theorem tail_of_second {a b : UInt8} (h : second a b = true) : tail b = true := by
  simp only [second, tail, decide_eq_true_eq, UInt8.le_iff_toNat_le] at h ⊢
  refine ⟨Nat.le_trans ?_ h.1, Nat.le_trans h.2 ?_⟩
  · split
    · decide
    · split <;> decide
  · split
    · decide
    · split <;> decide

/-- Where no character starts, one can only start if the string goes on with bytes that continue
it, after nothing but such bytes. -/
theorem next_extend {z : Bytes} (h : next (a :: l) = none)
    (hz : next (a :: (l ++ z)) = some (c, r)) :
    (∀ b ∈ l, tail b = true) ∧ ∃ b ∈ z.head?, tail b = true := by
  obtain ⟨⟨hwidth, hlength, hcont⟩, -⟩ := Option.ite_none_right_eq_some.1 hz
  have hlt : l.length < width a - 1 := by
    refine Nat.lt_of_not_le fun hle => ?_
    rw [List.take_append_of_le_length hle] at hlength hcont
    rw [next, if_pos ⟨hwidth, hlength, hcont⟩] at h
    cases h
  have hall : ∀ b ∈ (l ++ z).take (width a - 1), tail b = true := by
    intro b hb
    cases htake : (l ++ z).take (width a - 1) with
    | nil =>
      rw [htake] at hb
      cases hb
    | cons d t =>
      rw [htake] at hb hcont
      obtain ⟨hsecond, htail⟩ := Bool.and_eq_true_iff.1 hcont
      rcases List.mem_cons.1 hb with rfl | hb
      · exact tail_of_second hsecond
      · exact List.all_eq_true.1 htail b hb
  rw [List.take_append, List.take_of_length_le (Nat.le_of_lt hlt)] at hall
  refine ⟨fun b hb => hall b (List.mem_append_left _ hb), ?_⟩
  cases z with
  | nil =>
    rw [List.append_nil, List.take_of_length_le (Nat.le_of_lt hlt)] at hlength
    omega
  | cons b z =>
    obtain ⟨k, hk⟩ := Nat.exists_eq_add_one_of_ne_zero (Nat.sub_ne_zero_of_lt hlt)
    refine ⟨b, rfl, hall b (List.mem_append_right _ ?_)⟩
    rw [hk, List.take_succ_cons]
    exact List.mem_cons_self

/-- A string that is cut before a byte that does not continue a character is read in two parts. -/
theorem runes_append {x y : Bytes} (h : ∀ b ∈ y.head?, tail b = false) :
    runes (x ++ y) = runes x ++ runes y := by
  induction x using Utf8.induction with
  | nil => rfl
  | char l c r hnext ih =>
    obtain ⟨rfl, hall⟩ := next_append hnext
    rw [List.append_assoc, runes_of_next (hall _), runes_of_next hnext, ih, List.cons_append]
  | bad a l hnext ih =>
    have hbad : next (a :: (l ++ y)) = none := by
      refine Option.eq_none_iff_forall_ne_some.2 fun p hp => ?_
      obtain ⟨-, b, hb, htail⟩ := next_extend hnext hp
      rw [h b hb] at htail
      cases htail
    rw [List.cons_append, runes_of_none hbad, runes_of_none hnext, ih, List.cons_append]

/-- So is one that is cut after ASCII. -/
theorem runes_append_of_ascii {x y : Bytes} (h : ∀ a ∈ x, a < 0x80) :
    runes (x ++ y) = x.map (fun a => some [a]) ++ runes y := by
  induction x with
  | nil => rfl
  | cons a x ih =>
    obtain ⟨ha, hx⟩ := List.forall_mem_cons.1 h
    rw [List.cons_append, runes_of_next (next_of_ascii ha), ih hx]
    rfl

theorem runes_of_tails (h : ∀ b ∈ l, tail b = true) : ∀ o ∈ runes l, o = none := by
  induction l with
  | nil => simp [runes, runesUpTo]
  | cons a l ih =>
    have hwidth : width a = 0 := by
      have ha := h a List.mem_cons_self
      simp only [tail, decide_eq_true_eq, UInt8.le_iff_toNat_le] at ha
      simp only [width, UInt8.le_iff_toNat_le, UInt8.lt_iff_toNat_lt]
      have hlow : (0x80 : UInt8).toNat = 128 := rfl
      grind
    have hnone : next (a :: l) = none := if_neg fun h => by omega
    rw [runes_of_none hnone]
    exact List.forall_mem_cons.2 ⟨rfl, ih fun b hb => h b (.tail _ hb)⟩

/-- What a string starts with is read as in the string, but for a character cut short. -/
theorem runes_left (m z : Bytes) :
    ∃ P Q, runes m = P ++ Q ∧ (∀ o ∈ Q, o = none) ∧ P <+: runes (m ++ z) := by
  induction m using Utf8.induction with
  | nil => exact ⟨[], [], rfl, by simp, List.nil_prefix⟩
  | char l c r hnext ih =>
    obtain ⟨P, Q, heq, hQ, hP⟩ := ih
    obtain ⟨rfl, hall⟩ := next_append hnext
    refine ⟨some c :: P, Q, by rw [runes_of_next hnext, heq, List.cons_append], hQ, ?_⟩
    rw [List.append_assoc, runes_of_next (hall _)]
    exact List.cons_prefix_cons.2 ⟨rfl, hP⟩
  | bad a l hnext ih =>
    obtain ⟨P, Q, heq, hQ, hP⟩ := ih
    cases hz : next (a :: (l ++ z)) with
    | none =>
      refine ⟨none :: P, Q, by rw [runes_of_none hnext, heq, List.cons_append], hQ, ?_⟩
      rw [List.cons_append, runes_of_none hz]
      exact List.cons_prefix_cons.2 ⟨rfl, hP⟩
    | some p =>
      refine ⟨[], runes (a :: l), rfl, ?_, List.nil_prefix⟩
      rw [runes_of_none hnext]
      exact List.forall_mem_cons.2 ⟨rfl, runes_of_tails (next_extend hnext hz).1⟩

/-- A substring is read as in the string, but for the characters cut at its ends. -/
theorem runes_infix {u s : Bytes} (h : u <:+: s) :
    ∃ R P Q, runes u = R ++ P ++ Q ∧ (∀ o ∈ R ++ Q, o = none) ∧ P <:+: runes s := by
  obtain ⟨x, z, rfl⟩ := h
  have hk : ∀ b ∈ u.takeWhile tail, tail b = true := List.all_eq_true.1 List.all_takeWhile
  have hsplit := List.takeWhile_append_dropWhile (p := tail) (l := u)
  cases hd : u.dropWhile tail with
  | nil =>
    rw [hd, List.append_nil] at hsplit
    rw [hsplit] at hk
    exact ⟨runes u, [], [], by simp, by simpa using runes_of_tails hk, List.nil_infix⟩
  | cons b m =>
    have hb : ∀ c ∈ (b :: m).head?, tail c = false := by
      rintro c ⟨⟩
      have hhead := List.head?_dropWhile_not tail u
      rw [hd] at hhead
      simpa using hhead
    obtain ⟨P, Q, heq, hQ, hP⟩ := runes_left (b :: m) z
    rw [hd] at hsplit
    refine ⟨runes (u.takeWhile tail), P, Q, ?_, ?_, ?_⟩
    · rw [List.append_assoc, ← heq, ← runes_append hb, hsplit]
    · exact fun o ho => (List.mem_append.1 ho).elim (runes_of_tails hk o) (hQ o)
    · have hs : x ++ u ++ z = (x ++ u.takeWhile tail) ++ (b :: m ++ z) := by
        rw [List.append_assoc x _ (b :: m ++ z), ← List.append_assoc _ (b :: m) z, hsplit,
          List.append_assoc]
      rw [hs, runes_append (by simpa using hb)]
      exact hP.isInfix.trans (List.suffix_append _ _).isInfix

/-! ## One replacement for many bytes -/

/-- The characters one after the other; the replacement character stands once for bytes that follow
each other (as the one before did, if it is said so) at which none starts. -/
def joinRunes (invalid : Bool) : List (Option Bytes) → Bytes
  | [] => []
  | none :: l => (if invalid then [] else replacement) ++ joinRunes true l
  | some c :: l => c ++ joinRunes false l

/-- `strings.ToValidUTF8` with the replacement character. -/
def toValid (s : Bytes) : Bytes := joinRunes false (runes s)

theorem toValid_of_valid (h : Valid s) : toValid s = s := by
  have hjoin : ∀ l : List (Option Bytes), none ∉ l →
      joinRunes false l = l.flatMap fun r => r.getD replacement := by
    intro l hl
    induction l with
    | nil => rfl
    | cons o l ih =>
      rw [List.mem_cons, not_or] at hl
      cases o with
      | none => exact absurd rfl hl.1
      | some c => rw [joinRunes, ih hl.2, List.flatMap_cons, Option.getD_some]
  rw [toValid, hjoin _ h]
  exact sanitize_of_valid h

/-! ## ASCII text -/

/-- The bytes of an ASCII text. -/
def ascii (l : List Char) : Bytes := l.map fun c => c.toNat.toUInt8

/-- The characters of one. -/
def chars (s : Bytes) : List Char := s.map fun b => Char.ofNat b.toNat

section Ascii

variable {l : List Char} (h : ∀ c ∈ l, c.toNat < 128)

include h

theorem chars_ascii : chars (ascii l) = l := by
  rw [chars, ascii, List.map_map]
  refine (List.map_congr_left fun c hc => ?_).trans (List.map_id l)
  have hlt := h c hc
  have hbyte : c.toNat.toUInt8.toNat = c.toNat := Nat.mod_eq_of_lt (by omega)
  rw [Function.comp_apply, hbyte, Char.ofNat_toNat, id]

theorem valid_ascii : Valid (ascii l) := by
  refine valid_of_ascii fun a ha => ?_
  obtain ⟨c, hc, rfl⟩ := List.mem_map.1 ha
  have hlt := h c hc
  have hbyte : c.toNat.toUInt8.toNat = c.toNat := Nat.mod_eq_of_lt (by omega)
  rw [UInt8.lt_iff_toNat_lt, hbyte]
  exact hlt

end Ascii

/-! ## Letter case -/

/-- An ASCII byte in lower case. -/
def asciiLower (b : UInt8) : UInt8 := if 65 ≤ b ∧ b ≤ 90 then b + 32 else b

theorem asciiLower_lt (b : UInt8) : asciiLower b < 0x80 ↔ b < 0x80 := by
  rw [asciiLower]
  split
  · rename_i hcapital
    simp only [UInt8.le_iff_toNat_le, UInt8.lt_iff_toNat_lt, UInt8.toNat_add, UInt8.reduceToNat]
      at hcapital ⊢
    omega
  · rfl

theorem asciiLower_asciiLower (b : UInt8) : asciiLower (asciiLower b) = asciiLower b := by
  by_cases hcapital : 65 ≤ b ∧ b ≤ 90
  · have hsmall : ¬ (65 ≤ b + 32 ∧ b + 32 ≤ 90) := by
      simp only [UInt8.le_iff_toNat_le, UInt8.toNat_add, UInt8.reduceToNat] at hcapital ⊢
      omega
    rw [asciiLower, asciiLower, if_pos hcapital, if_neg hsmall]
  · rw [asciiLower, asciiLower, if_neg hcapital, if_neg hcapital]

/-- Only letters change. -/
theorem asciiLower_eq_iff {b c : UInt8} (hc : c.toNat < 65) : asciiLower b = c ↔ b = c := by
  rw [asciiLower]
  split
  · rename_i hcapital
    simp only [UInt8.le_iff_toNat_le, UInt8.reduceToNat] at hcapital
    simp only [← UInt8.toNat_inj, UInt8.toNat_add, UInt8.reduceToNat]
    omega
  · rfl

end Utf8

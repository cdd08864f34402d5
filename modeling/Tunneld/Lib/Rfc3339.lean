import Tunneld.Lib.Timestamp
import Tunneld.Lib.Utf8

/-!
# RFC 3339

Instants in the layout `2006-01-02T15:04:05.999999999Z`: the nanoseconds are written without the
zeros at their end, and not at all if there are none.  `parse` reads such a text, and gives the
instant back that it was written for (`parse_format`).  The calendar and the digits are those of
`Tunneld.Lib.Timestamp`; what is new is the way back from a date to its day (`daysOf_civil`).
-/

namespace Timestamp

/-! ## The day of a date -/

/-- The day of a date, counted from the first of January of the year 1. -/
def daysOf (c : Civil) : Nat :=
  let year := if c.month ≤ 2 then c.year - 1 else c.year
  let mp := if c.month ≤ 2 then c.month + 9 else c.month - 3
  let doy := (153 * mp + 2) / 5 + (c.day - 1)
  year / 400 * 146097 + (year % 400 * 365 + year % 400 / 4 - year % 400 / 100 + doy) - 306

/-- The day of the date of a place. -/
theorem daysOf_place {p : Place} (hc : p.century ≤ 3) (hq : p.quad ≤ 24) (hy : p.year ≤ 3)
    (hd : p.day ≤ 365) :
    daysOf p.civil = 146097 * p.era + 36524 * p.century + 1461 * p.quad + 365 * p.year + p.day -
      306 := by
  -- the years of the era, and how many of them have a leap day
  obtain ⟨year, hyear⟩ : ∃ y, 400 * p.era + 100 * p.century + 4 * p.quad + p.year = y := ⟨_, rfl⟩
  have hera : year / 400 = p.era := by omega
  have hyoe : year % 400 = 100 * p.century + 4 * p.quad + p.year := by omega
  have hfour : year % 400 / 4 = 25 * p.century + p.quad := by omega
  have hhundred : year % 400 / 100 = p.century := by omega
  unfold daysOf Place.civil
  dsimp only
  rw [hyear]
  obtain ⟨mp, hmp⟩ : ∃ mp, (5 * p.day + 2) / 153 = mp := ⟨_, rfl⟩
  have hle : mp ≤ 11 := by omega
  rw [hmp]
  by_cases hlt : mp < 10
  · have hmonth : ¬ mp + 3 ≤ 2 := by omega
    simp only [if_pos hlt, if_neg hmonth, Nat.add_sub_cancel]
    rw [hera, hfour, hhundred, hyoe]
    omega
  · have hmonth : mp - 9 ≤ 2 := by omega
    have hback : mp - 9 + 9 = mp := by omega
    simp only [if_neg hlt, if_pos hmonth, Nat.add_sub_cancel, hback]
    rw [hera, hfour, hhundred, hyoe]
    omega

theorem daysOf_civil (days : Nat) : daysOf (civil days) = days := by
  obtain ⟨hz, hc, hq, hy, hd⟩ := place_spec (days + 306)
  have hday := daysOf_place hc hq hy hd
  rw [hz, Nat.add_sub_cancel] at hday
  exact hday

/-! ## The text -/

/-- Digits without the zeros at their end. -/
def trimZeros : List Char → List Char
  | [] => []
  | c :: l => if trimZeros l = [] ∧ c = '0' then [] else c :: trimZeros l

/-- Digits with zeros at their end, nine in all. -/
def pad (l : List Char) : List Char := l ++ List.replicate (9 - l.length) '0'

theorem trimZeros_append (l : List Char) :
    trimZeros l ++ List.replicate (l.length - (trimZeros l).length) '0' = l := by
  induction l with
  | nil => rfl
  | cons c l ih =>
    rw [trimZeros]
    split
    · rename_i h
      rw [h.1, List.nil_append, List.length_nil, Nat.sub_zero] at ih
      rw [List.nil_append, List.length_nil, Nat.sub_zero, List.length_cons, List.replicate_succ, ih,
        h.2]
    · rw [List.cons_append, List.length_cons, List.length_cons, Nat.add_sub_add_right, ih]

theorem mem_of_mem_trimZeros {c : Char} {l : List Char} (h : c ∈ trimZeros l) : c ∈ l := by
  rw [← trimZeros_append l]
  exact List.mem_append_left _ h

theorem pad_trimZeros {l : List Char} (h : l.length = 9) : pad (trimZeros l) = l := by
  rw [pad, ← h]
  exact trimZeros_append l

/-- The fraction of a second. -/
def fraction (ns : Nat) : List Char := if ns = 0 then [] else '.' :: trimZeros (digits 9 ns)

/-- An instant, up to the year 9999. -/
def format (t : Nat) : List Char :=
  let date := civil (t / dayLength)
  let s := t % dayLength / Timestamp.second
  digits 4 date.year ++ '-' :: (digits 2 date.month ++ '-' :: (digits 2 date.day ++ 'T' ::
    (digits 2 (s / 3600) ++ ':' :: (digits 2 (s / 60 % 60) ++ ':' :: (digits 2 (s % 60) ++
      (fraction (t % Timestamp.second) ++ ['Z']))))))

/-! ## Reading it -/

/-- A number of a fixed width. -/
def number (w : Nat) (l : List Char) : Option (Nat × List Char) :=
  if (l.take w).length = w ∧ (l.take w).all Char.isDigit then some (ofDigits (l.take w), l.drop w)
  else none

/-- A certain character. -/
def expect (c : Char) : List Char → Option (List Char)
  | [] => none
  | a :: l => if a = c then some l else none

/-- The fraction of a second, if there is one. -/
def parseFraction : List Char → Option (Nat × List Char)
  | [] => some (0, [])
  | a :: l =>
    if a = '.' then
      if l.takeWhile Char.isDigit = [] then none
      else some (ofDigits (pad ((l.takeWhile Char.isDigit).take 9)), l.dropWhile Char.isDigit)
    else some (0, a :: l)

instance (c : Civil) : Decidable c.Valid :=
  inferInstanceAs (Decidable (_ ∧ _ ∧ _ ∧ _))

/-- The instant of a text. -/
def parse (l : List Char) : Option Nat := do
  let (year, l) ← number 4 l
  let l ← expect '-' l
  let (month, l) ← number 2 l
  let l ← expect '-' l
  let (day, l) ← number 2 l
  let l ← expect 'T' l
  let (hour, l) ← number 2 l
  let l ← expect ':' l
  let (min, l) ← number 2 l
  let l ← expect ':' l
  let (sec, l) ← number 2 l
  let (ns, l) ← parseFraction l
  if l = ['Z'] ∧ (Civil.mk year month day).Valid ∧ hour < 24 ∧ min < 60 ∧ sec < 60 then
    some (daysOf ⟨year, month, day⟩ * dayLength + ((hour * 60 + min) * 60 + sec) * Timestamp.second
      + ns)
  else none

theorem number_digits {w n : Nat} (h : n < 10 ^ w) (l : List Char) :
    number w (digits w n ++ l) = some (n, l) := by
  have htake : (digits w n ++ l).take w = digits w n := List.take_left' (length_digits w n)
  rw [number, htake, if_pos ⟨length_digits w n, List.all_eq_true.2 fun c hc => isDigit_of_mem hc⟩,
    ofDigits_digits h, List.drop_left' (length_digits w n)]

theorem trimZeros_ne_nil {n : Nat} (h0 : n ≠ 0) (h : n < 10 ^ 9) : trimZeros (digits 9 n) ≠ [] := by
  intro hnil
  have hpad := pad_trimZeros (length_digits 9 n)
  rw [hnil] at hpad
  have hzero : ofDigits (digits 9 n) = 0 := by
    rw [← hpad]
    rfl
  exact h0 ((ofDigits_digits h).symm.trans hzero)

theorem parseFraction_fraction {n : Nat} (h : n < Timestamp.second) :
    parseFraction (fraction n ++ ['Z']) = some (n, ['Z']) := by
  rw [fraction]
  split
  · rename_i h0
    rw [h0]
    rfl
  · rename_i h0
    have hne := trimZeros_ne_nil h0 h
    have hdigit : ∀ c ∈ trimZeros (digits 9 n), c.isDigit = true := fun c hc =>
      isDigit_of_mem (mem_of_mem_trimZeros hc)
    have hlength : (trimZeros (digits 9 n)).length ≤ 9 := by
      have happend := congrArg List.length (trimZeros_append (digits 9 n))
      rw [List.length_append, length_digits] at happend
      omega
    have htake :
        (trimZeros (digits 9 n) ++ ['Z']).takeWhile Char.isDigit = trimZeros (digits 9 n) := by
      rw [List.takeWhile_append_of_pos hdigit]
      simp
    have hdrop : (trimZeros (digits 9 n) ++ ['Z']).dropWhile Char.isDigit = ['Z'] := by
      rw [List.dropWhile_append_of_pos hdigit]
      simp
    rw [List.cons_append, parseFraction, if_pos rfl, htake, if_neg hne, hdrop,
      List.take_of_length_le hlength, pad_trimZeros (length_digits 9 n), ofDigits_digits h]

/-- **An instant is read back.** -/
theorem parse_format {t : Nat} (h : t < limit) : parse (format t) = some t := by
  have hday : t / dayLength < maxDays := Nat.div_lt_of_lt_mul (by rwa [Nat.mul_comm])
  have hyear := civil_year hday
  have hvalid := civil_valid (t / dayLength)
  obtain ⟨-, hmonth, -, hdom⟩ := id hvalid
  have hdays := daysIn_le (civil (t / dayLength)).year (civil (t / dayLength)).month
  have hsec : t % dayLength / Timestamp.second < 86400 :=
    Nat.div_lt_of_lt_mul (by rw [Nat.mul_comm]; exact Nat.mod_lt _ (by decide))
  have hns : t % Timestamp.second < Timestamp.second := Nat.mod_lt _ (by decide)
  rw [parse, format]
  simp only [number_digits (w := 4) (Nat.lt_succ_of_le hyear),
    number_digits (w := 2) (Nat.lt_of_le_of_lt hmonth (by decide)),
    number_digits (w := 2) (n := (civil (t / dayLength)).day) (by omega),
    number_digits (w := 2) (n := t % dayLength / Timestamp.second / 3600) (by omega),
    number_digits (w := 2) (n := t % dayLength / Timestamp.second / 60 % 60) (by omega),
    number_digits (w := 2) (n := t % dayLength / Timestamp.second % 60) (by omega), expect,
    parseFraction_fraction hns, Option.bind_eq_bind, Option.bind_some, if_true]
  rw [if_pos ⟨trivial, hvalid, by omega, by omega, by omega⟩, daysOf_civil]
  simp only [dayLength, Timestamp.second, Option.some.injEq]
  omega

theorem toNat_lt_of_isDigit {c : Char} (h : c.isDigit = true) : c.toNat < 128 := by
  rw [Char.isDigit, Bool.and_eq_true, decide_eq_true_eq, decide_eq_true_eq] at h
  have hle : c.toNat ≤ 57 := h.2
  omega

theorem format_ascii (t : Nat) : ∀ c ∈ format t, c.toNat < 128 := by
  have hdigits (w n : Nat) : ∀ c ∈ digits w n, c.toNat < 128 := fun c hc =>
    toNat_lt_of_isDigit (isDigit_of_mem hc)
  have hfraction : ∀ c ∈ fraction (t % Timestamp.second), c.toNat < 128 := by
    rw [fraction]
    split
    · exact fun c hc => absurd hc List.not_mem_nil
    · intro c hc
      rcases List.mem_cons.1 hc with rfl | hc
      · decide
      · exact hdigits _ _ c (mem_of_mem_trimZeros hc)
  simp only [format, List.forall_mem_append, List.forall_mem_cons]
  exact ⟨hdigits _ _, by decide, hdigits _ _, by decide, hdigits _ _, by decide, hdigits _ _,
    by decide, hdigits _ _, by decide, hdigits _ _, hfraction, by decide,
    fun c hc => absurd hc List.not_mem_nil⟩

end Timestamp

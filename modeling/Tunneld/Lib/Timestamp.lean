import Mathlib.Algebra.Group.Nat.Defs
import Mathlib.Data.List.Basic

/-!
# Timestamps

Instants are nanoseconds since the start of the year 1, in UTC.  `civil` is the date of a day, in
the proleptic Gregorian calendar, and `stamp` writes an instant in the layout
`20060102T150405.000000000Z`.  Up to the year 9999 the year has four digits, all stamps have the
same form, and different instants have different stamps.

The calendar counts from the first of March of the year 0, so that the day that comes and goes is
the last one of its year, of its century and of its era.

## Main results

* `civil_inj`, `stamp_inj`: different days have different dates, and instants different stamps.
-/

namespace Timestamp

/-! ## Decimal numbers of a fixed width -/

/-- The last `w` decimal digits of a number. -/
def digits : Nat → Nat → List Char
  | 0, _ => []
  | w + 1, n => digits w (n / 10) ++ [Nat.digitChar (n % 10)]

@[simp] theorem length_digits (w n : Nat) : (digits w n).length = w := by
  induction w generalizing n with
  | zero => rfl
  | succ w ih => simp [digits, ih]

theorem isDigit_digitChar {n : Nat} (h : n < 10) : (Nat.digitChar n).isDigit = true := by
  revert n
  decide

theorem isDigit_of_mem {w n : Nat} {c : Char} (h : c ∈ digits w n) : c.isDigit = true := by
  induction w generalizing n with
  | zero => simp [digits] at h
  | succ w ih =>
    rw [digits, List.mem_append, List.mem_singleton] at h
    rcases h with h | rfl
    · exact ih h
    · exact isDigit_digitChar (Nat.mod_lt _ (by decide))

/-- The number that digits write. -/
def ofDigits (l : List Char) : Nat := l.foldl (fun n c => 10 * n + (c.toNat - 48)) 0

/-- Numbers that fit are read back. -/
theorem ofDigits_digits {w n : Nat} (h : n < 10 ^ w) : ofDigits (digits w n) = n := by
  induction w generalizing n with
  | zero =>
    rw [Nat.pow_zero] at h
    exact (Nat.lt_one_iff.1 h).symm
  | succ w ih =>
    have hq : n / 10 < 10 ^ w := by
      rw [Nat.pow_succ] at h
      omega
    have := ih hq
    rw [ofDigits] at this ⊢
    rw [digits, List.foldl_append, this, List.foldl_cons, List.foldl_nil,
      Nat.toNat_digitChar_of_lt_ten (Nat.mod_lt _ (by decide))]
    omega

theorem digits_inj {w m n : Nat} (hm : m < 10 ^ w) (hn : n < 10 ^ w)
    (h : digits w m = digits w n) : m = n := by
  rw [← ofDigits_digits hm, ← ofDigits_digits hn, h]

/-! ## Dates -/

/-- A date. -/
structure Civil where
  year : Nat
  month : Nat
  day : Nat
  deriving DecidableEq

theorem Civil.ext {c d : Civil} (hy : c.year = d.year) (hm : c.month = d.month)
    (hd : c.day = d.day) : c = d := by
  cases c
  cases d
  simp_all

/-- Where a day lies: in which era of 400 years, century of it, group of four years of that, and
year of that, all of which begin in March; and the day of the year. -/
structure Place where
  era : Nat
  century : Nat
  quad : Nat
  year : Nat
  day : Nat

/-- The place of a day that is `z` days after the first of March of the year 0. -/
def place (z : Nat) : Place :=
  let doe := z % 146097
  let century := min (doe / 36524) 3
  let doc := doe - 36524 * century
  let doq := doc % 1461
  let year := min (doq / 365) 3
  ⟨z / 146097, century, doc / 1461, year, doq - 365 * year⟩

theorem place_spec (z : Nat) :
    146097 * (place z).era + 36524 * (place z).century + 1461 * (place z).quad +
      365 * (place z).year + (place z).day = z ∧
    (place z).century ≤ 3 ∧ (place z).quad ≤ 24 ∧ (place z).year ≤ 3 ∧ (place z).day ≤ 365 := by
  simp only [place]
  omega

/-- The last day of a leap year is in the last year of its group, and if that is the last group of
its century, in the last century of its era. -/
theorem place_last {z : Nat} (h : (place z).day = 365) :
    (place z).year = 3 ∧ ((place z).quad = 24 → (place z).century = 3) := by
  simp only [place] at *
  omega

/-- The date of a place. -/
def Place.civil (p : Place) : Civil :=
  let mp := (5 * p.day + 2) / 153
  let year := 400 * p.era + 100 * p.century + 4 * p.quad + p.year
  ⟨if mp < 10 then year else year + 1, if mp < 10 then mp + 3 else mp - 9,
    p.day - (153 * mp + 2) / 5 + 1⟩

/-- The date of a day, counted from the first of January of the year 1. -/
def civil (days : Nat) : Civil := (place (days + 306)).civil

/-- The length of a month. -/
def daysIn (year month : Nat) : Nat :=
  if month = 2 then if year % 4 = 0 ∧ (year % 100 ≠ 0 ∨ year % 400 = 0) then 29 else 28
  else if month = 4 ∨ month = 6 ∨ month = 9 ∨ month = 11 then 30 else 31

theorem daysIn_le (year month : Nat) : daysIn year month ≤ 31 := by
  rw [daysIn]
  split <;> split <;> omega

/-- A date that the calendar has. -/
def Civil.Valid (c : Civil) : Prop :=
  1 ≤ c.month ∧ c.month ≤ 12 ∧ 1 ≤ c.day ∧ c.day ≤ daysIn c.year c.month

theorem civil_valid (days : Nat) : (civil days).Valid := by
  obtain ⟨-, hc, hq, hy, hd⟩ := place_spec (days + 306)
  have hlast := @place_last (days + 306)
  simp only [civil, Place.civil, Civil.Valid]
  generalize place (days + 306) = p at *
  have hmp : (5 * p.day + 2) / 153 ≤ 11 := by omega
  generalize hm : (5 * p.day + 2) / 153 = mp at *
  refine ⟨by split <;> omega, by split <;> omega, by omega, ?_⟩
  by_cases hfeb : mp = 11
  · -- February ends the year
    subst hfeb
    simp only [daysIn, show ¬ 11 < 10 by decide, if_false]
    rw [if_pos (by decide)]
    split <;> omega
  · obtain ⟨month, hmonth, hcase⟩ : ∃ m, (if mp < 10 then mp + 3 else mp - 9) = m ∧
        (mp < 10 ∧ m = mp + 3 ∨ m = 1) := ⟨_, rfl, by split <;> omega⟩
    rw [hmonth, daysIn, if_neg (by omega)]
    split
    · rename_i hshort
      have : mp = 1 ∨ mp = 3 ∨ mp = 6 ∨ mp = 8 := by omega
      rcases this with rfl | rfl | rfl | rfl <;> omega
    · omega

/-- The last day of the year 9999 is that day less one. -/
def maxDays : Nat := 3652059

theorem civil_year {days : Nat} (h : days < maxDays) : (civil days).year ≤ 9999 := by
  obtain ⟨hz, hc, hq, hy, hd⟩ := place_spec (days + 306)
  simp only [civil, Place.civil, maxDays] at *
  split <;> omega

/-- The day of the year is read back from month and day. -/
theorem day_of_month {d d' : Nat} (hd : d ≤ 365) (hd' : d' ≤ 365)
    (hmonth : (if (5 * d + 2) / 153 < 10 then (5 * d + 2) / 153 + 3 else (5 * d + 2) / 153 - 9) =
      if (5 * d' + 2) / 153 < 10 then (5 * d' + 2) / 153 + 3 else (5 * d' + 2) / 153 - 9)
    (hday : d - (153 * ((5 * d + 2) / 153) + 2) / 5 + 1 =
      d' - (153 * ((5 * d' + 2) / 153) + 2) / 5 + 1) : d = d' := by
  have hmp : (5 * d + 2) / 153 = (5 * d' + 2) / 153 := by
    split at hmonth <;> split at hmonth <;> omega
  rw [hmp] at hday
  omega

theorem civil_inj {a b : Nat} (h : civil a = civil b) : a = b := by
  obtain ⟨hza, hca, hqa, hya, hda⟩ := place_spec (a + 306)
  obtain ⟨hzb, hcb, hqb, hyb, hdb⟩ := place_spec (b + 306)
  simp only [civil, Place.civil, Civil.mk.injEq] at h
  obtain ⟨hyear, hmonth, hday⟩ := h
  have hd := day_of_month hda hdb hmonth hday
  rw [hd] at hyear
  have hyear : 400 * (place (a + 306)).era + 100 * (place (a + 306)).century +
        4 * (place (a + 306)).quad + (place (a + 306)).year =
      400 * (place (b + 306)).era + 100 * (place (b + 306)).century +
        4 * (place (b + 306)).quad + (place (b + 306)).year := by
    split at hyear <;> omega
  omega

/-! ## Stamps -/

/-- The number of nanoseconds in a second and in a day. -/
def second : Nat := 1000000000

def dayLength : Nat := 86400 * second

/-- The instants up to the end of the year 9999. -/
def limit : Nat := maxDays * dayLength

/-- The digits of the date, of the time of day, and of the nanoseconds. -/
def dateDigits (t : Nat) : List Char :=
  let date := civil (t / dayLength)
  digits 4 date.year ++ (digits 2 date.month ++ digits 2 date.day)

def timeDigits (t : Nat) : List Char :=
  let s := t % dayLength / second
  digits 2 (s / 3600) ++ (digits 2 (s / 60 % 60) ++ digits 2 (s % 60))

def fracDigits (t : Nat) : List Char := digits 9 (t % second)

/-- An instant in the layout `20060102T150405.000000000Z`, up to the year 9999. -/
def stamp (t : Nat) : List Char :=
  dateDigits t ++ 'T' :: (timeDigits t ++ '.' :: (fracDigits t ++ ['Z']))

theorem length_stamp (t : Nat) : (stamp t).length = 26 := by
  simp [stamp, dateDigits, timeDigits, fracDigits]

theorem stamp_inj {a b : Nat} (ha : a < limit) (hb : b < limit) (h : stamp a = stamp b) :
    a = b := by
  have hlen : ∀ t, (dateDigits t).length = 8 ∧ (timeDigits t).length = 6 := fun t => by
    simp [dateDigits, timeDigits]
  obtain ⟨hdate, h⟩ := List.append_inj h ((hlen a).1.trans (hlen b).1.symm)
  obtain ⟨htime, h⟩ := List.append_inj (List.cons.inj h).2 ((hlen a).2.trans (hlen b).2.symm)
  obtain ⟨hfrac, -⟩ := List.append_inj' (List.cons.inj h).2 rfl
  obtain ⟨hy, hdate⟩ := List.append_inj hdate (by simp)
  obtain ⟨hm, hd⟩ := List.append_inj hdate (by simp)
  obtain ⟨hh, htime⟩ := List.append_inj htime (by simp)
  obtain ⟨hmin, hs⟩ := List.append_inj htime (by simp)
  have hday : a / dayLength = b / dayLength := by
    have hfit : ∀ {t : Nat}, t < limit → (civil (t / dayLength)).year < 10 ^ 4 ∧
        (civil (t / dayLength)).month < 10 ^ 2 ∧ (civil (t / dayLength)).day < 10 ^ 2 := by
      intro t ht
      have hyear := civil_year (Nat.div_lt_of_lt_mul (by rwa [Nat.mul_comm]))
      obtain ⟨-, hmonth, -, hday⟩ := civil_valid (t / dayLength)
      have := daysIn_le (civil (t / dayLength)).year (civil (t / dayLength)).month
      exact ⟨by omega, by omega, by omega⟩
    refine civil_inj (Civil.ext ?_ ?_ ?_)
    · exact digits_inj (hfit ha).1 (hfit hb).1 hy
    · exact digits_inj (hfit ha).2.1 (hfit hb).2.1 hm
    · exact digits_inj (hfit ha).2.2 (hfit hb).2.2 hd
  have hrest : a % dayLength / second = b % dayLength / second := by
    have hlt : ∀ t, t % dayLength / second < 86400 := fun t =>
      Nat.div_lt_of_lt_mul (by rw [Nat.mul_comm]; exact Nat.mod_lt _ (by decide))
    have hlta := hlt a
    have hltb := hlt b
    have h1 := digits_inj (by omega) (by omega) hh
    have h2 := digits_inj (by omega) (by omega) hmin
    have h3 := digits_inj (by omega) (by omega) hs
    omega
  have hns : a % second = b % second :=
    digits_inj (Nat.mod_lt _ (by decide)) (Nat.mod_lt _ (by decide)) hfrac
  simp only [dayLength, second] at *
  omega

end Timestamp

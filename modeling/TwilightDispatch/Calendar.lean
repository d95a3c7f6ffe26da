import Mathlib

/-!
# The Gregorian calendar

Dates of the Gregorian calendar, before its introduction too and with a year zero, and their
numbering by days. Every day number is that of exactly one date (`Date.toDays_ofDays`), whatever
its year.
-/

namespace Calendar

/-! ## Rows of parts -/

/-- The part of a row of parts in which a position falls, and the position in that part. -/
def locate : List ℕ → ℕ → ℕ × ℕ
  | [], n => (0, n)
  | part :: parts, n =>
    if n < part then (0, n)
    else
      let r := locate parts (n - part)
      (r.1 + 1, r.2)

theorem locate_cons_lt {part n : ℕ} (h : n < part) (parts : List ℕ) :
    locate (part :: parts) n = (0, n) := if_pos h

theorem locate_cons_add (part n : ℕ) (parts : List ℕ) :
    locate (part :: parts) (part + n) = ((locate parts n).1 + 1, (locate parts n).2) := by
  rw [locate, if_neg (by omega), Nat.add_sub_cancel_left]

/-- A position inside the row falls in one of its parts, after the parts before it. -/
theorem locate_spec {parts : List ℕ} {n : ℕ} (h : n < parts.sum) :
    (locate parts n).2 < parts.getD (locate parts n).1 0 ∧
      (parts.take (locate parts n).1).sum + (locate parts n).2 = n := by
  induction parts generalizing n with
  | nil => exact absurd h (Nat.not_lt_zero n)
  | cons part parts ih =>
    rw [List.sum_cons] at h
    by_cases hlt : n < part
    · rw [locate_cons_lt hlt]
      exact ⟨hlt, Nat.zero_add n⟩
    · obtain ⟨m, rfl⟩ := Nat.exists_eq_add_of_le (not_lt.mp hlt)
      obtain ⟨hin, hsum⟩ := ih (n := m) (by omega)
      rw [locate_cons_add, List.getD_cons_succ, List.take_succ_cons, List.sum_cons]
      exact ⟨hin, by omega⟩

/-! ## Years -/

/-- Every fourth year, but of the centuries only every fourth. -/
def IsLeap (year : ℤ) : Prop := 4 ∣ year ∧ (¬ 100 ∣ year ∨ 400 ∣ year)

instance (year : ℤ) : Decidable (IsLeap year) := inferInstanceAs (Decidable (_ ∧ _))

def monthLengths (year : ℤ) : List ℕ :=
  [31, if IsLeap year then 29 else 28, 31, 30, 31, 30, 31, 31, 30, 31, 30, 31]

/-- The days from the first day of year one to the first day of `year`. -/
def daysBefore (year : ℤ) : ℤ :=
  365 * (year - 1) + (year - 1) / 4 - (year - 1) / 100 + (year - 1) / 400

theorem daysBefore_succ (year : ℤ) :
    daysBefore (year + 1) = daysBefore year + (monthLengths year).sum := by
  unfold daysBefore monthLengths
  by_cases h : IsLeap year
  · rw [if_pos h]
    unfold IsLeap at h
    simp only [List.sum_cons, List.sum_nil]
    omega
  · rw [if_neg h]
    unfold IsLeap at h
    simp only [List.sum_cons, List.sum_nil]
    omega

/-- The year of a day: the mean length of a year gives it up to one. -/
def yearOf (n : ℤ) : ℤ :=
  let year := 400 * n / 146097 + 1
  if n < daysBefore year then year - 1
  else if n < daysBefore (year + 1) then year
  else year + 1

theorem yearOf_spec (n : ℤ) : daysBefore (yearOf n) ≤ n ∧ n < daysBefore (yearOf n + 1) := by
  unfold yearOf
  simp only
  split_ifs with h h'
  · unfold daysBefore at *
    constructor <;> omega
  · exact ⟨not_lt.mp h, h'⟩
  · refine ⟨not_lt.mp h', ?_⟩
    unfold daysBefore
    omega

/-! ## Dates -/

/-- The days of a month of a year, and none for what is not a month. -/
def monthLength (year : ℤ) (month : ℕ) : ℕ := (monthLengths year).getD (month - 1) 0

/-- A date of the calendar. -/
structure Date where
  year : ℤ
  month : ℕ
  day : ℕ
  month_pos : 0 < month
  day_pos : 0 < day
  day_le : day ≤ monthLength year month

namespace Date

/-- The date with the given year, month and day, if there is one. -/
def of? (year : ℤ) (month day : ℕ) : Option Date :=
  if h : 0 < month ∧ 0 < day ∧ day ≤ monthLength year month then
    some ⟨year, month, day, h.1, h.2.1, h.2.2⟩
  else none

@[simp] theorem of?_self (d : Date) : of? d.year d.month d.day = some d :=
  dif_pos ⟨d.month_pos, d.day_pos, d.day_le⟩

/-- The number of the day, counted from the first day of year one. -/
def toDays (d : Date) : ℤ :=
  daysBefore d.year + ((monthLengths d.year).take (d.month - 1)).sum + (d.day - 1 : ℕ)

/-- The place of a day in its year, counted from zero. -/
def dayOfYear (n : ℤ) : ℕ := (n - daysBefore (yearOf n)).toNat

theorem dayOfYear_lt (n : ℤ) : dayOfYear n < (monthLengths (yearOf n)).sum := by
  obtain ⟨hle, hlt⟩ := yearOf_spec n
  rw [daysBefore_succ] at hlt
  unfold dayOfYear
  omega

/-- The date of the day with a given number. -/
def ofDays (n : ℤ) : Date where
  year := yearOf n
  month := (locate (monthLengths (yearOf n)) (dayOfYear n)).1 + 1
  day := (locate (monthLengths (yearOf n)) (dayOfYear n)).2 + 1
  month_pos := Nat.succ_pos _
  day_pos := Nat.succ_pos _
  day_le := (locate_spec (dayOfYear_lt n)).1

theorem toDays_ofDays (n : ℤ) : (ofDays n).toDays = n := by
  have hsum := (locate_spec (dayOfYear_lt n)).2
  have hle := (yearOf_spec n).1
  unfold toDays ofDays
  simp only [Nat.add_sub_cancel]
  rw [add_assoc, ← Nat.cast_add, hsum]
  unfold dayOfYear
  omega

theorem month_le (d : Date) : d.month ≤ 12 := by
  by_contra h
  have hlen : (monthLengths d.year).length ≤ d.month - 1 :=
    show 12 ≤ d.month - 1 by omega
  have hday := d.day_le
  unfold monthLength at hday
  rw [List.getD_eq_default _ _ hlen] at hday
  exact absurd d.day_pos (by omega)

theorem day_le_31 (d : Date) : d.day ≤ 31 := by
  refine d.day_le.trans ?_
  unfold monthLength
  have hall : ∀ n ∈ monthLengths d.year, n ≤ 31 := by
    unfold monthLengths
    split_ifs <;> decide
  have hlt : d.month - 1 < (monthLengths d.year).length := by
    have hlen : (monthLengths d.year).length = 12 := rfl
    have := d.month_le
    have := d.month_pos
    omega
  rw [List.getD_eq_getElem _ _ hlt]
  exact hall _ (List.getElem_mem hlt)

example : (ofDays 719162).year = 1970 ∧ (ofDays 719162).month = 1 ∧ (ofDays 719162).day = 1 := by
  decide

end Date

end Calendar

import Mathlib

/-!
# The Gregorian calendar

Dates of the proleptic Gregorian calendar from the year 1 on, one after the other, and the number of days before a date.
-/

namespace Calendar

/-- A leap year. -/
def isLeap (y : Nat) : Bool := y % 4 = 0 && (y % 100 ≠ 0 || y % 400 = 0)

/-- The number of days of a month. -/
def monthLength (y : Nat) : Nat → Nat
  | 2 => if isLeap y then 29 else 28
  | 4 | 6 | 9 | 11 => 30
  | _ => 31

/-- A date. -/
structure Date where
  year : Nat
  month : Nat
  day : Nat
  year_pos : 1 ≤ year
  month_mem : 1 ≤ month ∧ month ≤ 12
  day_mem : 1 ≤ day ∧ day ≤ monthLength year month

theorem Date.ext {d e : Date} (hy : d.year = e.year) (hm : d.month = e.month) (hd : d.day = e.day) : d = e := by
  cases d
  cases e
  subst hy hm hd
  rfl

theorem monthLength_pos (y m : Nat) : 1 ≤ monthLength y m := by
  unfold monthLength
  split
  · split <;> omega
  all_goals omega

/-- The day after. -/
def Date.next (d : Date) : Date :=
  if h : d.day < monthLength d.year d.month then ⟨d.year, d.month, d.day + 1, d.year_pos, d.month_mem, by omega, h⟩
  else if h' : d.month < 12 then
    ⟨d.year, d.month + 1, 1, d.year_pos, by omega, Nat.le_refl 1, monthLength_pos _ _⟩
  else ⟨d.year + 1, 1, 1, by omega, by omega, Nat.le_refl 1, monthLength_pos _ _⟩

/-- The number of days from the first day of the year 1 to the first day of a year. -/
def yearStart (y : Nat) : Nat := 365 * (y - 1) + (y - 1) / 4 - (y - 1) / 100 + (y - 1) / 400

/-- The number of days of a year before a month. -/
def daysBefore (y : Nat) : Nat → Nat
  | 0 => 0
  | m + 1 => if m = 0 then 0 else daysBefore y m + monthLength y m

/-- The number of days from the first day of the year 1 to a date. -/
def Date.number (d : Date) : Nat := yearStart d.year + daysBefore d.year d.month + d.day - 1

/-- The day of the week, from Sunday as 0 on: the first day of the year 1 is a Monday. -/
def Date.weekday (d : Date) : Nat := (d.number + 1) % 7

theorem isLeap_iff (y : Nat) : isLeap y = true ↔ y % 4 = 0 ∧ (y % 100 ≠ 0 ∨ y % 400 = 0) := by
  simp [isLeap]

/-- The number of days of a year. -/
theorem yearStart_succ {y : Nat} (h : 1 ≤ y) : yearStart (y + 1) = yearStart y + if isLeap y then 366 else 365 := by
  obtain ⟨z, rfl⟩ : ∃ z, y = z + 1 := ⟨y - 1, by omega⟩
  have hstart : yearStart (z + 1 + 1) = 365 * (z + 1) + (z + 1) / 4 - (z + 1) / 100 + (z + 1) / 400 := rfl
  have hend : yearStart (z + 1) = 365 * z + z / 4 - z / 100 + z / 400 := rfl
  have h4 : (z + 1) / 4 = z / 4 + if 4 ∣ z + 1 then 1 else 0 := Nat.succ_div
  have h100 : (z + 1) / 100 = z / 100 + if 100 ∣ z + 1 then 1 else 0 := Nat.succ_div
  have h400 : (z + 1) / 400 = z / 400 + if 400 ∣ z + 1 then 1 else 0 := Nat.succ_div
  have hleap := isLeap_iff (z + 1)
  simp only [← Nat.dvd_iff_mod_eq_zero, ne_eq] at hleap
  have hdvd : 100 ∣ z + 1 → 4 ∣ z + 1 := fun hd => Nat.dvd_trans (by decide) hd
  have hdvd' : 400 ∣ z + 1 → 100 ∣ z + 1 := fun hd => Nat.dvd_trans (by decide) hd
  rw [hstart, hend, h4, h100, h400]
  clear hstart hend h4 h100 h400
  by_cases h1 : 4 ∣ z + 1
  · by_cases h2 : 100 ∣ z + 1
    · by_cases h3 : 400 ∣ z + 1
      · rw [if_pos h1, if_pos h2, if_pos h3, if_pos (hleap.2 ⟨h1, .inr h3⟩)]
        omega
      · rw [if_pos h1, if_pos h2, if_neg h3, if_neg fun hl => (hleap.1 hl).2.elim (fun hno => hno h2) h3]
        omega
    · rw [if_pos h1, if_neg h2, if_neg (fun h3 => h2 (hdvd' h3)), if_pos (hleap.2 ⟨h1, .inl h2⟩)]
      omega
  · rw [if_neg h1, if_neg (fun h2 => h1 (hdvd h2)), if_neg (fun h3 => h1 (hdvd (hdvd' h3))), if_neg fun hl => h1 (hleap.1 hl).1]
    omega

theorem daysBefore_succ {y m : Nat} (h : 1 ≤ m) : daysBefore y (m + 1) = daysBefore y m + monthLength y m := by
  rw [daysBefore, if_neg (by omega)]

/-- The number of days before each month. -/
theorem daysBefore_eq (y : Nat) {m : Nat} (h : 1 ≤ m) (h' : m ≤ 12) :
    daysBefore y m = [0, 31, 59, 90, 120, 151, 181, 212, 243, 273, 304, 334].getD (m - 1) 0 + if 2 < m ∧ isLeap y then 1 else 0 := by
  obtain rfl | rfl | rfl | rfl | rfl | rfl | rfl | rfl | rfl | rfl | rfl | rfl :
    m = 1 ∨ m = 2 ∨ m = 3 ∨ m = 4 ∨ m = 5 ∨ m = 6 ∨ m = 7 ∨ m = 8 ∨ m = 9 ∨ m = 10 ∨ m = 11 ∨ m = 12 := by omega
  all_goals by_cases hl : isLeap y = true <;> simp [daysBefore, monthLength, hl]

theorem daysBefore_year (y : Nat) : daysBefore y 12 + monthLength y 12 = if isLeap y then 366 else 365 := by
  rw [daysBefore_eq y (by omega) (by omega)]
  by_cases hl : isLeap y = true <;> simp [hl, monthLength]

theorem Date.number_next (d : Date) : d.next.number = d.number + 1 := by
  have hday := d.day_mem
  have hmonth := d.month_mem
  rw [Date.next]
  by_cases h : d.day < monthLength d.year d.month
  · rw [dif_pos h]
    simp only [Date.number]
    omega
  · rw [dif_neg h]
    by_cases h' : d.month < 12
    · rw [dif_pos h']
      simp only [Date.number, daysBefore_succ hmonth.1]
      omega
    · have h12 : d.month = 12 := by omega
      have hyear := daysBefore_year d.year
      rw [dif_neg h']
      simp only [Date.number, yearStart_succ d.year_pos, ← hyear, h12, show daysBefore (d.year + 1) 1 = 0 from rfl]
      rw [h12] at h hday
      omega

theorem Date.number_iterate (d : Date) (k : Nat) : (Date.next^[k] d).number = d.number + k := by
  induction k with
  | zero => rfl
  | succ k ih => rw [Function.iterate_succ_apply', Date.number_next, ih, Nat.add_assoc]

theorem daysBefore_mono {y m n : Nat} (h : 1 ≤ m) (hmn : m < n) : daysBefore y m + monthLength y m ≤ daysBefore y n := by
  induction n with
  | zero => omega
  | succ n ih =>
    rw [daysBefore_succ (by omega)]
    rcases Nat.lt_or_eq_of_le (Nat.le_of_lt_succ hmn) with hlt | rfl
    · exact le_trans (ih hlt) (Nat.le_add_right _ _)
    · exact le_refl _

theorem yearStart_mono {x y : Nat} (h : 1 ≤ x) (hxy : x < y) : yearStart (x + 1) ≤ yearStart y := by
  induction y with
  | zero => omega
  | succ y ih =>
    rcases Nat.lt_or_eq_of_le (Nat.le_of_lt_succ hxy) with hlt | rfl
    · have := yearStart_succ (y := y) (by omega)
      exact le_trans (ih hlt) (by omega)
    · exact le_refl _

/-- A date is in its year. -/
theorem Date.number_mem (d : Date) : yearStart d.year ≤ d.number ∧ d.number < yearStart (d.year + 1) := by
  have hday := d.day_mem
  have hmonth := d.month_mem
  have hyear := daysBefore_year d.year
  have hlast : daysBefore d.year d.month + monthLength d.year d.month ≤ daysBefore d.year 12 + monthLength d.year 12 := by
    rcases Nat.lt_or_eq_of_le hmonth.2 with hlt | heq
    · exact le_trans (daysBefore_mono hmonth.1 hlt) (Nat.le_add_right _ _)
    · exact le_of_eq (by rw [heq])
  rw [yearStart_succ d.year_pos, Date.number]
  omega

/-- The number of days tells the date. -/
theorem Date.number_injective {d e : Date} (h : d.number = e.number) : d = e := by
  have hd := d.number_mem
  have he := e.number_mem
  have hdday := d.day_mem
  have heday := e.day_mem
  have hyear : d.year = e.year := by
    rcases Nat.lt_trichotomy d.year e.year with hlt | heq | hgt
    · have := yearStart_mono d.year_pos hlt
      omega
    · exact heq
    · have := yearStart_mono e.year_pos hgt
      omega
  have hmonth : d.month = e.month := by
    rcases Nat.lt_trichotomy d.month e.month with hlt | heq | hgt
    · have := daysBefore_mono (y := d.year) d.month_mem.1 hlt
      simp only [Date.number, hyear] at *
      omega
    · exact heq
    · have := daysBefore_mono (y := e.year) e.month_mem.1 hgt
      simp only [Date.number, hyear] at *
      omega
  refine Date.ext hyear hmonth ?_
  simp only [Date.number, hyear, hmonth] at h hdday
  omega

end Calendar

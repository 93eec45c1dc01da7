import Gtm.Date.Zdate
import Gtm.Lib.Calendar

/-!
# The dates of `$ZDATE`

In a calendar in which every century begins with a leap year the code counts on from day to day with the days put in that the Gregorian
calendar leaves out. What is written is as long as the check of the length says.
-/

namespace Gtm

namespace Zdate

open Calendar

variable {N J F : Nat}

theorem int4_of_eq {x y : Int} (h : x = y) (hlow : -2147483648 ≤ x) (hhigh : x < 2147483648) : int4 x = some y := by
  rw [← h]
  exact if_pos ⟨hlow, hhigh⟩

/-! ## The days left out -/

/-- Whether the year `1900 + 100 * j` is no leap year. -/
def skip (j : Nat) : Nat := if (3 + j) % 4 = 0 then 0 else 1

/-- How many of the first `j` centuries from 1900 on begin with no leap year. -/
def skips (j : Nat) : Nat := j - (j + 2) / 4

theorem skips_succ (j : Nat) : skips (j + 1) = skips j + skip j := by
  unfold skips skip
  by_cases h : (3 + j) % 4 = 0
  · rw [if_pos h]
    omega
  · rw [if_neg h]
    omega

theorem skips_le (j : Nat) : skips j ≤ j := Nat.sub_le _ _

/-- The days before a year, from the century before. -/
theorem yearStart_between {y : Nat} (hlow : 1801 + 100 * J ≤ y) (hhigh : y ≤ 1900 + 100 * J) :
    yearStart y + 14 + skips J = 365 * (y - 1) + (y - 1) / 4 := by
  have h100 : (y - 1) / 100 = 18 + J := by omega
  have h400 : (y - 1) / 400 = (18 + J) / 4 := by omega
  unfold yearStart skips
  omega

theorem isLeap_between {y : Nat} (hlow : 1801 + 100 * J ≤ y) (hhigh : y < 1900 + 100 * J) : isLeap y = true ↔ y % 4 = 0 := by
  rw [isLeap_iff]
  omega

theorem isLeap_century (J : Nat) : isLeap (1900 + 100 * J) = true ↔ skip J = 0 := by
  rw [isLeap_iff, skip]
  by_cases h : (3 + J) % 4 = 0
  · rw [if_pos h]
    omega
  · rw [if_neg h]
    omega

/-- Where the count with days put in stands: in the century that ends with the end of February of the year `1900 + 100 * J`. -/
structure Counted (N J F : Nat) : Prop where
  count : F = N + skips J
  high : F ≤ 21973 + 36525 * J
  low : 0 < J → 21973 + 36525 * (J - 1) + skip (J - 1) < F

/-- The loop over the centuries. -/
theorem centLoop_counted {j : Nat} (fuel : Nat) (hN : N ≤ 364570453) (hlow : 0 < j → 21973 + 36525 * (j - 1) + skip (j - 1) < N + skips j)
    (hfuel : N + skips j + 1 ≤ 21973 + 36525 * j + fuel) (hpos : 0 < fuel) :
    ∃ J F : Nat, centLoop fuel ((21973 + 36525 * j : Nat) : Int) ((N + skips j : Nat) : Int) (3 + j) = some (F : Int) ∧ Counted N J F := by
  induction fuel generalizing j with
  | zero => omega
  | succ fuel ih =>
    have hle := skips_le j
    rw [centLoop]
    by_cases hmore : ((21973 + 36525 * j : Nat) : Int) < ((N + skips j : Nat) : Int)
    · have hj : j ≤ 10000 := by omega
      have hskip : (if 0 < (3 + j) % 4 then 1 else 0 : Int) = (skip j : Nat) := by
        unfold skip
        by_cases h : (3 + j) % 4 = 0 <;> simp [h, Nat.pos_of_ne_zero]
      have hday : int4 (((N + skips j : Nat) : Int) + (skip j : Nat)) = some ((N + skips (j + 1) : Nat) : Int) := by
        have hsum := skips_succ j
        exact int4_of_eq (by omega) (by omega) (by omega)
      have hcent : int4 (((21973 + 36525 * j : Nat) : Int) + DAYS_IN_CENTURY) = some ((21973 + 36525 * (j + 1) : Nat) : Int) := by
        have hval : DAYS_IN_CENTURY = 36525 := rfl
        exact int4_of_eq (by omega) (by omega) (by omega)
      have hn : (3 + j + 1) % 2 ^ 32 = 3 + (j + 1) := by
        omega
      rw [if_pos hmore, hskip, hday]
      simp only [Option.bind_eq_bind, Option.bind_some, hcent, hn]
      have hsucc := skips_succ j
      exact ih (fun _ => by rw [Nat.add_sub_cancel]; omega) (by omega) (by omega)
    · rw [if_neg hmore]
      exact ⟨j, N + skips j, rfl, rfl, by omega, hlow⟩

/-! ## The date -/

/-- A day before the end of February, in a year that begins a cycle of four. -/
theorem Counted.before (h : Counted N J F) {q r : Nat} (hF : F = 1461 * q + r) (hr : r < 59) : yearStart (1840 + 4 * q) + r = N + 671680 := by
  obtain ⟨hcount, hhigh, hlow⟩ := h
  by_cases hJ : 0 < J
  · have := hlow hJ
    have hyear := yearStart_between (y := 1840 + 4 * q) (J := J) (by omega) (by omega)
    omega
  · obtain rfl : J = 0 := by omega
    have hyear := yearStart_between (y := 1840 + 4 * q) (J := 0) (by omega) (by omega)
    omega

/-- The leap day of a cycle of four years is there. -/
theorem Counted.leapDay (h : Counted N J F) {q : Nat} (hF : F = 1461 * q + 59) :
    isLeap (1840 + 4 * q) = true ∧ yearStart (1840 + 4 * q) + 59 = N + 671680 := by
  obtain ⟨hcount, hhigh, hlow⟩ := h
  by_cases hJ : 0 < J
  · obtain ⟨i, rfl⟩ : ∃ i, J = i + 1 := ⟨J - 1, by omega⟩
    have hbelow := hlow hJ
    rw [Nat.add_sub_cancel] at hbelow
    have hsucc := skips_succ i
    by_cases hcentury : 1840 + 4 * q = 1900 + 100 * i
    · have hyear := yearStart_between (y := 1840 + 4 * q) (J := i) (by omega) (by omega)
      have hzero : skip i = 0 := by omega
      refine ⟨by rw [hcentury, isLeap_century, hzero], by omega⟩
    · have hyear := yearStart_between (y := 1840 + 4 * q) (J := i + 1) (by omega) (by omega)
      exact ⟨(isLeap_between (J := i + 1) (by omega) (by omega)).2 (by omega), by omega⟩
  · obtain rfl : J = 0 := by omega
    have hyear := yearStart_between (y := 1840 + 4 * q) (J := 0) (by omega) (by omega)
    exact ⟨(isLeap_between (J := 0) (by omega) (by omega)).2 (by omega), by omega⟩

/-- A day after the end of February in the first year of a cycle of four. -/
theorem Counted.after (h : Counted N J F) {q e : Nat} (hF : F = 1461 * q + e + 1) (hlo : 59 ≤ e) (hhi : e < 365) :
    yearStart (1840 + 4 * q) + e + (if isLeap (1840 + 4 * q) then 1 else 0) = N + 671680 := by
  obtain ⟨hcount, hhigh, hlow⟩ := h
  by_cases hJ : 0 < J
  · obtain ⟨i, rfl⟩ : ∃ i, J = i + 1 := ⟨J - 1, by omega⟩
    have hbelow := hlow hJ
    have hsucc := skips_succ i
    by_cases hcentury : 1840 + 4 * q = 1900 + 100 * i
    · have hyear := yearStart_between (y := 1840 + 4 * q) (J := i) (by omega) (by omega)
      have hone : (if isLeap (1840 + 4 * q) then 1 else 0) + skip i = 1 := by
        rw [hcentury]
        by_cases hl : isLeap (1900 + 100 * i) = true
        · rw [if_pos hl, (isLeap_century i).1 hl]
        · have hne := fun h0 => hl ((isLeap_century i).2 h0)
          rw [if_neg hl]
          unfold skip at hne ⊢
          split at hne
          · exact absurd rfl hne
          · rw [if_neg ‹_›]
      omega
    · have hyear := yearStart_between (y := 1840 + 4 * q) (J := i + 1) (by omega) (by omega)
      rw [if_pos ((isLeap_between (J := i + 1) (by omega) (by omega)).2 (by omega))]
      omega
  · obtain rfl : J = 0 := by omega
    have hyear := yearStart_between (y := 1840 + 4 * q) (J := 0) (by omega) (by omega)
    rw [if_pos ((isLeap_between (J := 0) (by omega) (by omega)).2 (by omega))]
    omega

/-- A day in one of the other years of a cycle of four. -/
theorem Counted.later (h : Counted N J F) {q m e : Nat} (hF : F = 1461 * q + (365 * m + e) + 1) (hm : 0 < m) (hm' : m < 4) (hhi : e < 365) :
    isLeap (1840 + 4 * q + m) = false ∧ yearStart (1840 + 4 * q + m) + e = N + 671680 := by
  obtain ⟨hcount, hhigh, hlow⟩ := h
  have hno : isLeap (1840 + 4 * q + m) = false := by
    by_contra hl
    have := (isLeap_iff (1840 + 4 * q + m)).1 (by simpa using hl)
    omega
  refine ⟨hno, ?_⟩
  by_cases hJ : 0 < J
  · have hbelow := hlow hJ
    have hqlow : 15 + 25 * (J - 1) ≤ q := by omega
    have hqhigh : q ≤ 14 + 25 * J := by omega
    have hyear := yearStart_between (y := 1840 + 4 * q + m) (J := J) (by omega) (by omega)
    omega
  · obtain rfl : J = 0 := by omega
    have hyear := yearStart_between (y := 1840 + 4 * q + m) (J := 0) (by omega) (by omega)
    omega

/-- A day of a cycle of four years, the leap day apart, as a year of the cycle and a day of the year counted as if it were no leap year. -/
theorem Counted.split {q r : Nat} (h : Counted N J (1461 * q + r)) (hleap : ¬ r = 59) (hr : r < 1461) :
    ∃ m e : Nat, m < 4 ∧ e < 365 ∧ 365 * m + e = (if 59 < r then r - 1 else r) ∧
      yearStart (1840 + 4 * q + m) + e + (if 59 ≤ e ∧ isLeap (1840 + 4 * q + m) then 1 else 0) = N + 671680 := by
  by_cases hlow : r < 59
  · refine ⟨0, r, by omega, by omega, by rw [if_neg (by omega)]; omega, ?_⟩
    rw [if_neg (by omega)]
    exact h.before rfl hlow
  · rw [if_pos (by omega)]
    have hdiv : 365 * ((r - 1) / 365) + (r - 1) % 365 = r - 1 := Nat.div_add_mod (r - 1) 365
    have hmod : (r - 1) % 365 < 365 := Nat.mod_lt _ (by omega)
    refine ⟨(r - 1) / 365, (r - 1) % 365, by omega, hmod, hdiv, ?_⟩
    by_cases hfirst : (r - 1) / 365 = 0
    · have hafter := h.after (q := q) (e := (r - 1) % 365) (by omega) (by omega) hmod
      rw [hfirst, Nat.add_zero]
      simpa only [show 59 ≤ (r - 1) % 365 by omega, true_and] using hafter
    · obtain ⟨hno, hlater⟩ := h.later (q := q) (m := (r - 1) / 365) (e := (r - 1) % 365) (by omega) (by omega) (by omega) hmod
      rw [if_neg (by simp [hno])]
      exact hlater

/-- The loop over months finds the month in which a day is. -/
theorem montabLoop_find (lens : List Nat) {e : Nat} (i : Nat) (he : e < lens.sum) :
    ∃ m d : Nat, montabLoop (lens.map Nat.cast) e i = some ((d : Int), i + m) ∧ m < lens.length ∧ e = (lens.take m).sum + d ∧
      d < lens.getD m 0 := by
  induction lens generalizing e i with
  | nil => exact absurd he (Nat.not_lt_zero e)
  | cons len lens ih =>
    rw [List.map_cons, montabLoop]
    by_cases hnext : len ≤ e
    · obtain ⟨m, d, hrun, hm, hsum, hd⟩ := ih (e := e - len) (i + 1) (by rw [List.sum_cons] at he; omega)
      refine ⟨m + 1, d, ?_, Nat.succ_lt_succ hm, by rw [List.take_succ_cons, List.sum_cons]; omega, hd⟩
      rw [if_pos (by exact_mod_cast hnext), ← Int.ofNat_sub hnext, hrun, Nat.add_assoc, Nat.add_comm 1 m]
    · refine ⟨0, e, ?_, Nat.succ_pos _, by simp, by simpa using hnext⟩
      rw [if_neg (by exact_mod_cast hnext)]
      rfl

/-- The lengths of the months of a year that is no leap year. -/
def monthLens : List Nat := [31, 28, 31, 30, 31, 30, 31, 31, 30, 31, 30, 31]

theorem monthLens_eq (y : Nat) {m : Nat} (hm : m < 12) : monthLength y (m + 1) = monthLens.getD m 0 + (if m = 1 ∧ isLeap y then 1 else 0) ∧
      daysBefore y (m + 1) = (monthLens.take m).sum + (if 2 ≤ m ∧ isLeap y then 1 else 0) := by
  rw [daysBefore_eq y (by omega) (by omega)]
  obtain rfl | rfl | rfl | rfl | rfl | rfl | rfl | rfl | rfl | rfl | rfl | rfl :
    m = 0 ∨ m = 1 ∨ m = 2 ∨ m = 3 ∨ m = 4 ∨ m = 5 ∨ m = 6 ∨ m = 7 ∨ m = 8 ∨ m = 9 ∨ m = 10 ∨ m = 11 := by omega
  all_goals by_cases hl : isLeap y = true <;> simp [monthLength, monthLens, hl]

/-- Whether the day is after February. -/
theorem month_iff {m d e : Nat} (he : e = (monthLens.take m).sum + d) (hd : d < monthLens.getD m 0) (hm : m < 12) : 2 ≤ m ↔ 59 ≤ e := by
  obtain rfl | rfl | hlast : m = 0 ∨ m = 1 ∨ 2 ≤ m := by omega
  · simp [monthLens] at he hd
    omega
  · simp [monthLens] at he hd
    omega
  · have hsum : (monthLens.take 2).sum ≤ (monthLens.take m).sum := by
      rw [← List.take_append_drop 2 (monthLens.take m), List.sum_append, List.take_take, Nat.min_eq_left hlast]
      exact Nat.le_add_right _ _
    have h59 : (monthLens.take 2).sum = 59 := rfl
    omega

/-- The date that a day of a year, counted as if it were no leap year, stands for. -/
theorem exists_date {y e : Nat} (hy : 1 ≤ y) (he : e < 365) :
    ∃ (d : Date) (m k : Nat), montabLoop montab e 0 = some ((k : Int), m) ∧ d.year = y ∧ d.month = m + 1 ∧ d.day = k + 1 ∧
      d.number = yearStart y + e + if 59 ≤ e ∧ isLeap y then 1 else 0 := by
  obtain ⟨m, k, hrun, hm, hsum, hk⟩ := montabLoop_find monthLens 0 he
  rw [Nat.zero_add] at hrun
  obtain ⟨hlen, hbefore⟩ := monthLens_eq y hm
  have hiff := month_iff hsum hk hm
  have hlen12 : m < 12 := hm
  refine ⟨⟨y, m + 1, k + 1, hy, by omega, by rw [hlen]; omega⟩, m, k, hrun, rfl, rfl, rfl, ?_⟩
  simp only [Date.number, hbefore, hiff]
  omega

/-- The first day of 1840. -/
def firstDay : Date := ⟨1840, 1, 1, by omega, by omega, by decide⟩

/-- The date of a day number, of which 0 is the last day of 1840. -/
def dateOf (day : Int) : Date := Date.next^[(day + 365).toNat] firstDay

theorem dateOf_number (day : Int) : (dateOf day).number = (day + 365).toNat + 671680 := by
  have hfirst : firstDay.number = 671680 := by simp [Date.number, firstDay, yearStart, daysBefore]
  rw [dateOf, Date.number_iterate, hfirst, Nat.add_comm]

theorem dateOf_zero : dateOf 0 = ⟨1840, 12, 31, by omega, by omega, by decide⟩ := by
  have hlast : daysBefore 1840 12 = 335 := by simp [daysBefore_eq, isLeap]
  have hyear : yearStart 1840 = 671680 := by simp [yearStart]
  have hnum : (⟨1840, 12, 31, by omega, by omega, by decide⟩ : Date).number = 365 + 671680 := by
    simp only [Date.number, hlast, hyear]
  exact Date.number_injective ((dateOf_number 0).trans hnum.symm)

theorem eq_dateOf {d : Date} {day : Int} (h : d.number = (day + 365).toNat + 671680) : d = dateOf day :=
  Date.number_injective (h.trans (dateOf_number day).symm)

/-- What the code does after the loop over the centuries. -/
theorem zdateCalendar_eq {day : Int} (hlow : MIN_DATE ≤ day) (hhigh : day ≤ MAX_DATE) :
    ∃ J q r : Nat, Counted (day + 365).toNat J (1461 * q + r) ∧ r < 1461 ∧ zdateCalendar day =
      let dow := (((day + 365).toNat + 3 : Nat) : Int).tmod 7 + 1
      if (r : Int) = 59 then some (((1840 + 4 * q : Nat) : Int), 2, 29, dow)
      else
        let e : Int := if 59 < (r : Int) then r - 1 else r
        (int4 ((1840 + 4 * q : Nat) + e.tdiv 365)).bind fun year =>
          (montabLoop montab (e - e.tdiv 365 * 365) 0).bind fun (d, i) => some (year, (i : Int) + 1, d + 1, dow) := by
  have hmin : MIN_DATE = -365 := rfl
  have hmax : MAX_DATE = 364570088 := rfl
  obtain ⟨N, hN⟩ : ∃ N : Nat, day + 365 = N := ⟨(day + 365).toNat, by omega⟩
  have hnat : (day + 365).toNat = N := by omega
  obtain ⟨J, F, hloop, hcounted⟩ := centLoop_counted (N := N) (j := 0) (N + 1) (by omega) (fun h => absurd h (Nat.lt_irrefl 0))
    (by simp [skips]) (Nat.succ_pos N)
  have hsplit : F = 1461 * (F / 1461) + F % 1461 := (Nat.div_add_mod F 1461).symm
  have hrem : F % 1461 < 1461 := Nat.mod_lt _ (by omega)
  rw [hnat]
  refine ⟨J, F / 1461, F % 1461, by rw [← hsplit]; exact hcounted, hrem, ?_⟩
  have hfour : DAYS_IN_FOUR_YEARS = 1461 := rfl
  have hF : F ≤ 364580464 := by
    have := hcounted.count
    have := skips_le J
    by_cases hJ : 0 < J
    · have := hcounted.low hJ
      omega
    · obtain rfl : J = 0 := by omega
      omega
  have hshift : int4 (day + DAYS_MOST_YEARS) = some (N : Int) := int4_of_eq hN (by rw [show DAYS_MOST_YEARS = 365 from rfl]; omega)
    (by rw [show DAYS_MOST_YEARS = 365 from rfl]; omega)
  have hdow : int4 ((N : Int) + (COMMON_LEAP_CYCLE - 1)) = some ((N + 3 : Nat) : Int) :=
    int4_of_eq (by rw [show COMMON_LEAP_CYCLE = 4 from rfl]; omega) (by rw [show COMMON_LEAP_CYCLE = 4 from rfl]; omega)
      (by rw [show COMMON_LEAP_CYCLE = 4 from rfl]; omega)
  have hdiv : ((F : Int)).tdiv 1461 = ((F / 1461 : Nat) : Int) := rfl
  have hmod : int4 ((F : Int) - ((F / 1461 : Nat) : Int) * 1461) = some ((F % 1461 : Nat) : Int) :=
    int4_of_eq (by omega) (by omega) (by omega)
  have hyear : int4 (((F / 1461 : Nat) : Int) * COMMON_LEAP_CYCLE + BASE_YEAR) = some ((1840 + 4 * (F / 1461) : Nat) : Int) := by
    rw [show COMMON_LEAP_CYCLE = 4 from rfl, show BASE_YEAR = 1840 from rfl]
    exact int4_of_eq (by omega) (by omega) (by omega)
  have hloop' : centLoop (N + 1) DAYS_BASE_TO_1900 N 3 = some (F : Int) := by
    rw [show DAYS_BASE_TO_1900 = ((21973 + 36525 * 0 : Nat) : Int) from rfl]
    simpa only [show skips 0 = 0 from rfl, Nat.add_zero] using hloop
  have hfeb : DAYS_BEFORE_LEAP = 59 := rfl
  have hmost : DAYS_MOST_YEARS = 365 := rfl
  rw [hmost] at hshift
  rw [zdateCalendar, hmost, hfour, hfeb]
  simp only [Option.bind_eq_bind, Option.pure_def]
  rw [hshift, Option.bind_some, hdow, Option.bind_some, Int.toNat_natCast, hloop', Option.bind_some, hdiv, hmod, Option.bind_some, hyear,
    Option.bind_some]

/-- The calendar of the code is the Gregorian one. -/
theorem zdateCalendar_spec {day : Int} (hlow : MIN_DATE ≤ day) (hhigh : day ≤ MAX_DATE) :
    zdateCalendar day = some (((dateOf day).year : Int), ((dateOf day).month : Int), ((dateOf day).day : Int), ((dateOf day).weekday : Int) + 1) := by
  obtain ⟨J, q, r, hcounted, hr, hrun⟩ := zdateCalendar_eq hlow hhigh
  have hN := hcounted.count
  generalize hNdef : (day + 365).toNat = N at hcounted hrun hN
  have hsize : N ≤ 364570453 := by
    have : MAX_DATE = 364570088 := rfl
    omega
  have hq : q ≤ 300000 := by
    have := skips_le J
    by_cases hJ : 0 < J
    · have := hcounted.low hJ
      omega
    · obtain rfl : J = 0 := by omega
      omega
  have hweek : ((N + 3 : Nat) : Int).tmod 7 + 1 = ((dateOf day).weekday : Int) + 1 := by
    rw [Date.weekday, dateOf_number]
    have hmod : ((N + 3 : Nat) : Int).tmod 7 = (((N + 3) % 7 : Nat) : Int) := rfl
    omega
  rw [hrun, hweek]
  dsimp only
  by_cases hleap : r = 59
  · subst hleap
    obtain ⟨hl, hnum⟩ := hcounted.leapDay rfl
    have hlen : monthLength (1840 + 4 * q) 2 = 29 := by simp [monthLength, hl]
    have hdate : (⟨1840 + 4 * q, 2, 29, by omega, by omega, by rw [hlen]; omega⟩ : Date) = dateOf day := by
      refine eq_dateOf ?_
      rw [hNdef, ← hnum]
      simp [Date.number, daysBefore, monthLength]
    rw [← hdate]
    rfl
  · have hne : ¬ (r : Int) = 59 := by omega
    rw [if_neg hne]
    obtain ⟨m, e, hm, he, hval, hnum⟩ := hcounted.split hleap hr
    obtain ⟨d, i, k, hrunm, hdy, hdm, hdd, hdn⟩ := exists_date (y := 1840 + 4 * q + m) (e := e) (by omega) he
    have hdate : d = dateOf day := eq_dateOf (by rw [hNdef, hdn, hnum])
    have hdiv : ((365 * m + e : Nat) : Int).tdiv 365 = (m : Int) := by
      rw [show ((365 * m + e : Nat) : Int).tdiv 365 = (((365 * m + e) / 365 : Nat) : Int) from rfl]
      omega
    have hmod : ((365 * m + e : Nat) : Int) - (m : Int) * 365 = (e : Int) := by omega
    have hyear : int4 (((1840 + 4 * q : Nat) : Int) + (m : Int)) = some ((1840 + 4 * q + m : Nat) : Int) :=
      int4_of_eq (by omega) (by omega) (by omega)
    have hsub : (if 59 < (r : Int) then (r : Int) - 1 else r) = ((365 * m + e : Nat) : Int) := by
      by_cases hlt : 59 < r
      · rw [if_pos hlt] at hval
        omega
      · rw [if_neg hlt] at hval
        omega
    rw [hsub, hdiv, hmod, hyear]
    simp only [Option.bind_some, hrunm]
    rw [← hdate, hdy, hdm, hdd]
    rfl

/-! ## The length of the text -/

variable {env : ZdateEnv} {fmt moStr dayStr : List UInt8} {v : ZdateVals} {s s' : ZdateOut}

/-- What a turn of the loop over the format does: it goes on in the format, and as much more is written as the length that is expected grows
by the characters of the format. -/
structure Advances (s s' : ZdateOut) : Prop where
  place : s.p < s'.p
  written : (s'.out.length : Int) + s.outlen + s.p = s.out.length + s'.outlen + s'.p
  bound : s.outlen < 64 → s'.outlen < 64

theorem Advances.put {p : Nat} {bytes : List UInt8} (hplace : s.p < p) (hlen : bytes.length + s.p = p) :
    Advances s { s with p, out := s.out ++ bytes } := by
  refine ⟨hplace, ?_, id⟩
  dsimp only
  rw [List.length_append]
  omega

theorem digits_length (k n : Nat) : (digits k n).length = k := by
  induction k generalizing n with
  | zero => rfl
  | succ k ih => rw [digits, List.length_append, ih, List.length_singleton]

theorem putDigits_advances {k : Nat} {n : Int} (hk : 0 < k) (h : putDigits s k n = .ok s') : Advances s s' := by
  obtain rfl := Except.ok.inj h
  exact .put (Nat.lt_add_of_pos_right hk) (by rw [digits_length, Nat.add_comm])

theorem putName_advances {names default : List UInt8} {i : Int} (hi : ((i - 1).toNat + 1) * 3 ≤ default.length)
    (h : putName env names default i s = .ok s') : Advances s s' := by
  unfold putName at h
  by_cases hnames : names = []
  · rw [if_pos hnames] at h
    obtain rfl := Except.ok.inj h
    refine .put (by omega) ?_
    rw [List.length_take, List.length_drop]
    omega
  · rw [if_neg hnames] at h
    by_cases hlong : 64 ≤ s.outlen + ((env.fnp1 names i).length - 3)
    · rw [if_pos hlong] at h
      exact nomatch h
    · rw [if_neg hlong] at h
      obtain rfl := Except.ok.inj h
      refine ⟨by dsimp only; omega, ?_, fun _ => by dsimp only; omega⟩
      dsimp only
      rw [List.length_append]
      omega

/-- There are as many digits of the year as letters Y. -/
theorem yearDigits_place (env : ZdateEnv) (fmt : List UInt8) (fuel nlen p : Nat) :
    p ≤ (yearDigits env fmt fuel nlen p).2 ∧ (yearDigits env fmt fuel nlen p).1 + p = (yearDigits env fmt fuel nlen p).2 + nlen := by
  induction fuel generalizing nlen p with
  | zero => exact ⟨Nat.le_refl p, Nat.add_comm nlen p⟩
  | succ fuel ih =>
    rw [yearDigits]
    by_cases hmore : nlen ≤ 6 ∧ p < fmt.length
    · rw [if_pos hmore]
      by_cases hother : fmtAt env fmt p ≠ chr 'Y'
      · rw [if_pos hother]
        exact ⟨Nat.le_refl p, Nat.add_comm nlen p⟩
      · rw [if_neg hother]
        have := ih (nlen + 1) (p + 1)
        omega
    · rw [if_neg hmore]
      exact ⟨Nat.le_refl p, Nat.add_comm nlen p⟩

theorem Advances.ite {c : Prop} [Decidable c] {x y : Except ZdateError ZdateOut} (hx : x = .ok s' → Advances s s')
    (hy : y = .ok s' → Advances s s') (h : (if c then x else y) = .ok s') : Advances s s' := by
  by_cases hc : c
  · rw [if_pos hc] at h
    exact hx h
  · rw [if_neg hc] at h
    exact hy h

theorem Advances.error {e : ZdateError} (h : .error e = Except.ok s') : Advances s s' := nomatch h

theorem Advances.ok {t : ZdateOut} (ht : Advances s t) (h : (.ok t : Except ZdateError ZdateOut) = .ok s') : Advances s s' := by
  obtain rfl := Except.ok.inj h
  exact ht

section
variable (hmonth : 1 ≤ v.month ∧ v.month ≤ 12) (hdow : 1 ≤ v.dow ∧ v.dow ≤ 7)
include hmonth hdow

theorem zdateStep_advances (h : zdateStep env fmt moStr dayStr v s = .ok s') : Advances s s' := by
  have hmonths : (text "JANFEBMARAPRMAYJUNJULAUGSEPOCTNOVDEC").length = 36 := by decide
  have hdays : (text "SUNMONTUEWEDTHUFRISAT").length = 21 := by decide
  have htwo {n : Int} : putDigits s 2 n = .ok s' → Advances s s' := putDigits_advances (by omega)
  have hyears := yearDigits_place env fmt fmt.length 2 (s.p + 2)
  have hplace : s.p < (yearDigits env fmt fmt.length 2 (s.p + 2)).2 := by omega
  have hlen : (digits (yearDigits env fmt fmt.length 2 (s.p + 2)).1 v.year.toNat).length + s.p = (yearDigits env fmt fmt.length 2 (s.p + 2)).2 := by
    rw [digits_length]
    omega
  -- the separators, then the letters M, D and Y
  refine .ite (.ok (.put (Nat.lt_succ_self _) (Nat.add_comm _ _))) (.ite (.ite htwo (.ite .error (putName_advances (by omega))))
    (.ite (.ite htwo (.ite .error (putName_advances (by omega)))) (.ite (.ite (.ok (.put hplace hlen)) (.ite .error
      (putDigits_advances (by omega)))) ?_))) h
  -- the time
  exact .ite (.ite .error htwo) (.ite (.ite .error htwo) (.ite (.ite .error htwo) (.ite (.ite .error htwo)
    (.ite (.ite .error (.ok (.put (Nat.lt_add_of_pos_right (by omega)) (Nat.add_comm _ _)))) .error))))

/-- Before the end of the format as much is written as is expected, less the rest of the format. -/
theorem zdateLoop_length {fuel : Nat} (hfuel : fmt.length < fuel + s.p)
    (hpos : 0 < fuel) (hwritten : (s.out.length : Int) + fmt.length = s.outlen + s.p) (hbound : s.outlen < 64) :
    ∃ r, zdateLoop env fmt moStr dayStr v fuel s = some r ∧ ∀ out, r = .ok out → out.length ≤ ZDATE_MAX_LEN := by
  induction fuel generalizing s with
  | zero => exact absurd hpos (Nat.lt_irrefl 0)
  | succ fuel ih =>
    rw [zdateLoop]
    by_cases hmore : s.p < fmt.length
    · rw [if_pos hmore]
      cases hstep : zdateStep env fmt moStr dayStr v s with
      | error e => exact ⟨_, rfl, fun out hout => nomatch hout⟩
      | ok s' =>
        have hadv := zdateStep_advances hmonth hdow hstep
        have hplace := hadv.place
        have hgrown := hadv.written
        exact ih (by omega) (by omega) (by omega) (hadv.bound hbound)
    · rw [if_neg hmore]
      by_cases hpast : fmt.length < s.p
      · rw [if_pos hpast]
        exact ⟨_, rfl, fun out hout => nomatch hout⟩
      · rw [if_neg hpast]
        refine ⟨_, rfl, fun out hout => ?_⟩
        obtain rfl := Except.ok.inj hout
        have hmax : ZDATE_MAX_LEN = 64 := rfl
        omega

end

/-- For every day number of the range the year, the month, the day and the day of the week are those of the Gregorian calendar, without an
overflow and without a read past the month table; and a text that is written is never longer than the room for it. -/
theorem opFnzdate_calendar :
    (∀ day : Int, MIN_DATE ≤ day → day ≤ MAX_DATE → zdateCalendar day =
      some (((dateOf day).year : Int), ((dateOf day).month : Int), ((dateOf day).day : Int), ((dateOf day).weekday : Int) + 1)) ∧
    ∀ (env : ZdateEnv) (src : ZdateSrc) (fmt moStr dayStr : List UInt8),
      ∃ r, opFnzdate env src fmt moStr dayStr = some r ∧ ∀ out, r = .ok out → out.length ≤ ZDATE_MAX_LEN := by
  refine ⟨fun day => zdateCalendar_spec, fun env src fmt moStr dayStr => ?_⟩
  unfold opFnzdate
  cases htime : zdateTime env src with
  | error e => exact ⟨_, rfl, fun out hout => nomatch hout⟩
  | ok t =>
    dsimp only
    by_cases hrange : MAX_DATE < src.day ∨ src.day < MIN_DATE
    · rw [if_pos hrange]
      exact ⟨_, rfl, fun out hout => nomatch hout⟩
    · rw [if_neg hrange, zdateCalendar_spec (by omega) (by omega)]
      simp only [Option.bind_eq_bind, Option.bind_some, Option.pure_def]
      have hmonth := (dateOf src.day).month_mem
      have hdow : (dateOf src.day).weekday < 7 := Nat.mod_lt _ (by omega)
      by_cases hlong : ZDATE_MAX_LEN ≤ (zdateFmt env fmt ((dateOf src.day).year : Int)).length
      · rw [if_pos hlong]
        exact ⟨_, rfl, fun out hout => nomatch hout⟩
      · rw [if_neg hlong]
        have hmax : ZDATE_MAX_LEN = 64 := rfl
        exact zdateLoop_length (by dsimp only; omega) (by dsimp only; omega) (by dsimp only; omega) (Nat.succ_pos _)
          (by dsimp only [List.length_nil]; omega) (by dsimp only; omega)

theorem opFnzdate_calendar_zero : zdateCalendar 0 = some (1840, 12, 31, 5) := by
  have hweek : (dateOf 0).weekday = 4 := by rw [Date.weekday, dateOf_number]; rfl
  rw [opFnzdate_calendar.1 0 (by decide) (by decide), hweek, dateOf_zero]
  rfl

end Zdate

end Gtm

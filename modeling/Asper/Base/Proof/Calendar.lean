import Asper.Base.Time
import Mathlib.Tactic.Linarith

/-! # The calendar

The days of a 400-year era are numbered by the year of the era, from March, and the day of that
year (`yearOfEra_eq`, `exists_yearDay`). The conversions are mutual inverses
(`civilFromDays_daysFromCivil`, `daysFromCivil_civilFromDays`), and a day later is one more
(`daysFromCivil_next`). -/

namespace Asper

/-! ## Years of an era -/

/-- The days of an era before its year `y`. -/
def eraDays (y : Nat) : Nat := 365 * y + y / 4 - y / 100

/-- `yoe` of the day `doe`. -/
def yearOfEra (doe : Nat) : Nat := (doe - doe / 1460 + doe / 36524 - doe / 146096) / 365

/-- The year `y` of an era has the day `d`. The last day is the 29th of February. -/
def YearDay (y d : Nat) : Prop :=
  y < 400 ∧ (d ≤ 364 ∨ d = 365 ∧ (y % 4 = 3 ∧ y % 100 ≠ 99 ∨ y = 399))

/-- `y` by centuries, groups of four and single years. -/
theorem eraDays_split (c q r : Nat) (hq : q < 25) (hr : r < 4) (hc : c < 4) :
    eraDays (100 * c + 4 * q + r) = 36524 * c + 1461 * q + 365 * r := by
  rw [eraDays]
  omega

theorem yearOfEra_split {c q r d doe : Nat} (hc : c < 4) (hq : q < 25) (hr : r < 4)
    (hd : d ≤ 364 ∨ d = 365 ∧ r = 3 ∧ (q = 24 → c = 3))
    (hdoe : doe = 36524 * c + 1461 * q + 365 * r + d) :
    yearOfEra doe = 100 * c + 4 * q + r := by
  have h1 : doe / 1460 = 25 * c + q + (24 * c + 365 * r + q + d) / 1460 := by omega
  have ht : (24 * c + 365 * r + q + d) / 1460 ≤ d ∧
      d - (24 * c + 365 * r + q + d) / 1460 ≤ 364 := by omega
  rw [yearOfEra]
  -- the last day of the era is the only one that all three corrections count
  by_cases hlast : doe = 146096
  · subst hlast
    omega
  · have h2 : doe / 36524 = c := by omega
    have h3 : doe / 146096 = 0 := by omega
    rw [h1, h2, h3]
    omega

/-- **The year of a day** of the era is read off its number. -/
theorem yearOfEra_eq {y d : Nat} (h : YearDay y d) : yearOfEra (eraDays y + d) = y := by
  obtain ⟨hy, hd⟩ := h
  have hsplit : y = 100 * (y / 100) + 4 * (y % 100 / 4) + y % 4 := by omega
  have hdays := eraDays_split (y / 100) (y % 100 / 4) (y % 4) (by omega) (by omega) (by omega)
  rw [← hsplit] at hdays
  exact (yearOfEra_split (d := d) (by omega) (by omega) (by omega) (by omega) (by rw [hdays])).trans
    hsplit.symm

/-- Every day of an era is one of a year. -/
theorem exists_yearDay {doe : Nat} (h : doe < 146097) :
    ∃ y d, YearDay y d ∧ doe = eraDays y + d := by
  obtain ⟨c, hc, e, he, hce⟩ : ∃ c, c < 4 ∧ ∃ e, (e < 36524 ∨ e = 36524 ∧ c = 3) ∧
      doe = 36524 * c + e := by
    by_cases hlast : doe = 146096
    · exact ⟨3, by decide, 36524, .inr ⟨rfl, rfl⟩, hlast⟩
    · exact ⟨doe / 36524, by omega, doe % 36524, .inl (Nat.mod_lt _ (by decide)), by omega⟩
  obtain ⟨q, hq, f, hf, hqf⟩ : ∃ q, q < 25 ∧ ∃ f, f < 1461 ∧ e = 1461 * q + f :=
    ⟨e / 1461, by omega, e % 1461, Nat.mod_lt _ (by decide), by omega⟩
  obtain ⟨r, hr, d, hd, hrd⟩ : ∃ r, r < 4 ∧ ∃ d, (d ≤ 364 ∨ d = 365 ∧ r = 3) ∧ f = 365 * r + d := by
    by_cases hlast : f = 1460
    · exact ⟨3, by decide, 365, .inr ⟨rfl, rfl⟩, hlast⟩
    · exact ⟨f / 365, by omega, f % 365, .inl (by omega), by omega⟩
  refine ⟨100 * c + 4 * q + r, d, ⟨by omega, ?_⟩, ?_⟩
  · rcases hd with hd | ⟨rfl, rfl⟩
    · exact .inl hd
    · exact .inr ⟨rfl, by omega⟩
  · rw [eraDays_split c q r hq hr hc]
    omega

theorem YearDay.lt {y d : Nat} (h : YearDay y d) : eraDays y + d < 146097 := by
  obtain ⟨hy, hd⟩ := h
  rw [eraDays]
  omega

/-! ## Months from March -/

/-- The days of a year, from March, before its month `mp`. -/
def marchDays (mp : Nat) : Nat := (153 * mp + 2) / 5

def marchMonth (m : Nat) : Nat := if 2 < m then m - 3 else m + 9

def civilMonth (mp : Nat) : Nat := if mp < 10 then mp + 3 else mp - 9

theorem civilMonth_marchMonth {m : Nat} (h : 1 ≤ m ∧ m ≤ 12) : civilMonth (marchMonth m) = m := by
  rw [civilMonth, marchMonth]
  split <;> split <;> omega

theorem marchMonth_civilMonth {mp : Nat} (h : mp < 12) : marchMonth (civilMonth mp) = mp := by
  rw [civilMonth, marchMonth]
  split <;> split <;> omega

/-- The month of a day is read off its number; only February ends the year. -/
theorem month_eq {mp d : Nat} (hmp : mp < 12) (hd : d < 31)
    (h : marchDays mp + d < marchDays (mp + 1)) : (5 * (marchDays mp + d) + 2) / 153 = mp := by
  simp only [marchDays] at *
  omega

theorem exists_month {doy : Nat} (h : doy < 366) :
    ∃ mp d, mp < 12 ∧ d < 31 ∧ marchDays mp + d < marchDays (mp + 1) ∧ doy = marchDays mp + d ∧
      (5 * doy + 2) / 153 = mp := by
  have hmp : (5 * doy + 2) / 153 < 12 := by omega
  have hle : marchDays ((5 * doy + 2) / 153) ≤ doy := by
    rw [marchDays]
    omega
  have hlt : doy < marchDays ((5 * doy + 2) / 153 + 1) := by
    rw [marchDays]
    omega
  have hmonth : marchDays ((5 * doy + 2) / 153 + 1) ≤ marchDays ((5 * doy + 2) / 153) + 31 := by
    rw [marchDays, marchDays]
    omega
  exact ⟨(5 * doy + 2) / 153, doy - marchDays ((5 * doy + 2) / 153), hmp, by omega, by omega,
    by omega, rfl⟩

/-- A month other than February has its days in every year. -/
theorem daysInMonth_march {mp : Nat} (h : mp < 11) (y : Int) :
    daysInMonth y (civilMonth mp) = marchDays (mp + 1) - marchDays mp := by
  have hfeb : ¬ (civilMonth mp = 2 ∧ isLeap y = true) := by
    rintro ⟨h2, -⟩
    rw [civilMonth] at h2
    split at h2 <;> omega
  rw [daysInMonth, if_neg hfeb]
  have hall : ∀ mp < 11, [31, 28, 31, 30, 31, 30, 31, 31, 30, 31, 30, 31].getD (civilMonth mp - 1) 0 =
      marchDays (mp + 1) - marchDays mp := by decide
  exact hall mp h

theorem daysInMonth_february (y : Int) : daysInMonth y 2 = if isLeap y then 29 else 28 := by
  rw [daysInMonth]
  cases isLeap y <;> rfl

theorem isLeap_iff (y : Int) : isLeap y = true ↔ y % 4 = 0 ∧ y % 100 ≠ 0 ∨ y % 400 = 0 := by
  rw [isLeap, decide_eq_true_eq]
  simp only [ne_eq, ← Int.dvd_iff_tmod_eq_zero, ← Int.dvd_iff_emod_eq_zero]

/-! ## Dates -/

/-- A date of the proleptic Gregorian calendar. -/
structure Date where
  year : Int
  month : Nat
  day : Nat
  month_mem : 1 ≤ month ∧ month ≤ 12
  day_mem : 1 ≤ day ∧ day ≤ daysInMonth year month

namespace Date

/-- The year that begins in March. -/
def marchYear (x : Date) : Int := if x.month ≤ 2 then x.year - 1 else x.year

/-- The year of its era, and the day of that year, from March. -/
def yearOf (x : Date) : Nat := (x.marchYear % 400).toNat

def dayOf (x : Date) : Nat := marchDays (marchMonth x.month) + (x.day - 1)

theorem marchMonth_lt (x : Date) : marchMonth x.month < 12 := by
  have := x.month_mem
  rw [marchMonth]
  split <;> omega

theorem day_lt (x : Date) : x.day - 1 < 31 ∧
    marchDays (marchMonth x.month) + (x.day - 1) < marchDays (marchMonth x.month + 1) ∧
    (marchMonth x.month = 11 → x.day ≤ 28 ∨ x.day = 29 ∧ isLeap x.year = true) := by
  have hday := x.day_mem
  have hmonth := marchMonth_lt x
  have hciv := civilMonth_marchMonth x.month_mem
  by_cases hfeb : marchMonth x.month < 11
  · rw [← hciv, daysInMonth_march hfeb] at hday
    simp only [marchDays] at *
    exact ⟨by omega, by omega, fun h => absurd h (Nat.ne_of_lt hfeb)⟩
  · have h11 : marchMonth x.month = 11 := by omega
    rw [← hciv, h11, show civilMonth 11 = 2 from rfl, daysInMonth_february] at hday
    rw [h11]
    cases hl : isLeap x.year
    · rw [hl, if_neg Bool.false_ne_true] at hday
      exact ⟨by omega, by simp only [marchDays]; omega, fun _ => .inl hday.2⟩
    · rw [hl, if_pos rfl] at hday
      refine ⟨by omega, by simp only [marchDays]; omega, fun _ => ?_⟩
      rcases Nat.lt_or_ge x.day 29 with h | h
      · exact .inl (Nat.le_of_lt_succ h)
      · exact .inr ⟨Nat.le_antisymm hday.2 h, rfl⟩

theorem yearDay (x : Date) : YearDay x.yearOf x.dayOf := by
  obtain ⟨-, hlt, hleap⟩ := x.day_lt
  have hmonth := marchMonth_lt x
  refine ⟨by rw [yearOf]; omega, ?_⟩
  rw [dayOf]
  by_cases h11 : marchMonth x.month = 11
  · have h2 : x.month = 2 := by
      have := civilMonth_marchMonth x.month_mem
      rw [h11] at this
      exact this.symm
    have hyear : x.marchYear = x.year - 1 := by
      rw [marchYear, if_pos (by omega)]
    rw [h11] at hlt ⊢
    rcases hleap h11 with h28 | ⟨h29, hl⟩
    · left
      simp only [marchDays]
      omega
    · right
      rw [yearOf, hyear, h29]
      refine ⟨rfl, ?_⟩
      obtain ⟨k, hk⟩ : ∃ k : Nat, (x.year - 1) % 400 = k :=
        ⟨_, (Int.toNat_of_nonneg (Int.emod_nonneg _ (by decide))).symm⟩
      rw [hk, Int.toNat_natCast]
      rcases (isLeap_iff x.year).1 hl with ⟨h4, h100⟩ | h400
      · exact .inl ⟨by omega, by omega⟩
      · exact .inr (by omega)
  · left
    simp only [marchDays] at *
    omega

end Date

/-! ## The conversions -/

/-- Division as in C, shifted below zero, is the floor. -/
theorem tdiv_floor {y n : Int} (hn : 0 < n) :
    (if 0 ≤ y then y else y - (n - 1)).tdiv n = y / n := by
  split
  · next hy => exact Int.tdiv_eq_ediv_of_nonneg hy
  · next hy =>
    have hsplit : -(y - (n - 1)) = (n - 1 - y % n) + -(y / n) * n := by
      have := Int.mul_ediv_add_emod y n
      linarith
    have hr := Int.emod_nonneg y hn.ne'
    have hlt := Int.emod_lt_of_pos y hn
    rw [← Int.neg_neg (y - (n - 1)), Int.neg_tdiv, Int.tdiv_eq_ediv_of_nonneg (by omega), hsplit,
      Int.add_mul_ediv_right _ _ hn.ne', Int.ediv_eq_zero_of_lt (by omega) (by omega)]
    omega

theorem daysFromCivil_eq (x : Date) : daysFromCivil x.year x.month x.day =
    x.marchYear / 400 * 146097 + (eraDays x.yearOf + x.dayOf : Nat) - 719468 := by
  have hera : (if 0 ≤ x.marchYear then x.marchYear else x.marchYear - 399).tdiv 400 =
      x.marchYear / 400 := tdiv_floor (n := 400) (by decide)
  have hyoe : (x.marchYear - x.marchYear / 400 * 400).toNat = x.yearOf := by
    rw [Date.yearOf]
    omega
  have hday : 1 ≤ x.day := x.day_mem.1
  have hdoe : x.yearOf * 365 + x.yearOf / 4 - x.yearOf / 100 +
      ((153 * marchMonth x.month + 2) / 5 + x.day - 1) = eraDays x.yearOf + x.dayOf := by
    rw [eraDays, Date.dayOf, marchDays]
    omega
  have hy : (if x.month ≤ 2 then x.year - 1 else x.year) = x.marchYear := rfl
  have hm : (if 2 < x.month then x.month - 3 else x.month + 9) = marchMonth x.month := rfl
  simp only [daysFromCivil, hy, hm, hera, hyoe, hdoe]

/-- The date of the day `k` of the month `mp` of the year `y` of an era. -/
theorem civilFromDays_eq {era : Int} {y mp k : Nat} (hy : YearDay y (marchDays mp + k))
    (hmp : mp < 12) (hk : k < 31) (hlt : marchDays mp + k < marchDays (mp + 1)) :
    civilFromDays (era * 146097 + (eraDays y + (marchDays mp + k) : Nat) - 719468) =
      (if civilMonth mp ≤ 2 then y + era * 400 + 1 else y + era * 400, civilMonth mp, k + 1) := by
  have hdoe := hy.lt
  generalize hz : era * 146097 + (eraDays y + (marchDays mp + k) : Nat) - 719468 + 719468 = z'
  have hera : (if 0 ≤ z' then z' else z' - 146096).tdiv 146097 = era :=
    (tdiv_floor (n := 146097) (by decide)).trans (by omega)
  have hday : (z' - era * 146097).toNat = eraDays y + (marchDays mp + k) := by omega
  have hyear : ((eraDays y + (marchDays mp + k)) - (eraDays y + (marchDays mp + k)) / 1460 +
      (eraDays y + (marchDays mp + k)) / 36524 - (eraDays y + (marchDays mp + k)) / 146096) / 365 =
      y := yearOfEra_eq hy
  have hdoy : eraDays y + (marchDays mp + k) - (365 * y + y / 4 - y / 100) = marchDays mp + k :=
    Nat.add_sub_cancel_left _ _
  have hmonth := month_eq hmp hk hlt
  have hd : marchDays mp + k - (153 * mp + 2) / 5 + 1 = k + 1 := by
    rw [marchDays, Nat.add_sub_cancel_left]
  have hm : (if mp < 10 then mp + 3 else mp - 9) = civilMonth mp := rfl
  simp only [civilFromDays, hz, hera, hday, hyear, hdoy, hmonth, hd, hm]

/-- **The date of a date's day** is the date. -/
theorem civilFromDays_date (x : Date) :
    civilFromDays (daysFromCivil x.year x.month x.day) = (x.year, x.month, x.day) := by
  obtain ⟨hk, hlt, -⟩ := x.day_lt
  have hday := x.day_mem.1
  rw [daysFromCivil_eq, Date.dayOf,
    civilFromDays_eq x.yearDay x.marchMonth_lt hk hlt, civilMonth_marchMonth x.month_mem]
  have hyear : (if x.month ≤ 2 then (x.yearOf : Int) + x.marchYear / 400 * 400 + 1
      else x.yearOf + x.marchYear / 400 * 400) = x.year := by
    rw [Date.yearOf]
    have hmarch : x.marchYear = if x.month ≤ 2 then x.year - 1 else x.year := rfl
    split at hmarch <;> omega
  rw [hyear, Nat.sub_add_cancel hday]

/-- A year of an era ends in February: with its 29th in a leap year. -/
theorem february_mem {era : Int} {y k : Nat} (hy : YearDay y (marchDays 11 + k)) :
    k + 1 ≤ daysInMonth (y + era * 400 + 1) 2 := by
  have h11 : marchDays 11 = 337 := rfl
  obtain ⟨hlt, hd⟩ := hy
  rw [daysInMonth_february]
  split
  · omega
  · next hl =>
    rcases hd with hd | ⟨-, hyear⟩
    · omega
    · refine absurd ((isLeap_iff _).2 ?_) hl
      rcases hyear with ⟨h4, h100⟩ | rfl
      · exact .inl ⟨by omega, by omega⟩
      · exact .inr (by omega)

/-- Every number of days is one of a date. -/
theorem exists_date (z : Int) : ∃ x : Date, daysFromCivil x.year x.month x.day = z := by
  obtain ⟨y, d, hy, hdoe⟩ := exists_yearDay (show ((z + 719468) % 146097).toNat < _ by omega)
  obtain ⟨mp, k, hmp, hk, hlt, rfl, -⟩ := exists_month (show d < 366 by
    have := hy.2
    omega)
  have hz : z = (z + 719468) / 146097 * 146097 + (eraDays y + (marchDays mp + k) : Nat) - 719468 := by
    rw [← hdoe]
    omega
  generalize (z + 719468) / 146097 = era at hz
  have hmonth : 1 ≤ civilMonth mp ∧ civilMonth mp ≤ 12 := by
    rw [civilMonth]
    split <;> omega
  have hday : k + 1 ≤ daysInMonth
      (if civilMonth mp ≤ 2 then (y : Int) + era * 400 + 1 else y + era * 400) (civilMonth mp) := by
    by_cases h11 : mp < 11
    · rw [daysInMonth_march h11]
      omega
    · obtain rfl : mp = 11 := by omega
      exact february_mem hy
  refine ⟨⟨_, civilMonth mp, k + 1, hmonth, Nat.le_add_left 1 k, hday⟩, ?_⟩
  rw [daysFromCivil_eq, Date.dayOf, Date.yearOf]
  have hmarch : Date.marchYear ⟨_, civilMonth mp, k + 1, hmonth, Nat.le_add_left 1 k, hday⟩ =
      y + era * 400 := by
    rw [Date.marchYear]
    split
    · next h => simp only [if_pos h]; omega
    · next h => simp only [if_neg h]
  have hlt400 := hy.1
  have hyear : ((y + era * 400 : Int) % 400).toNat = y := by omega
  have hera : (y + era * 400 : Int) / 400 = era := by omega
  rw [hmarch, hyear, hera, marchMonth_civilMonth hmp, Nat.add_sub_cancel, ← hz]

/-- **The day of a date**: the conversions are inverse to one another. -/
theorem daysFromCivil_civilFromDays (z : Int) : ∃ x : Date,
    civilFromDays z = (x.year, x.month, x.day) ∧ daysFromCivil x.year x.month x.day = z := by
  obtain ⟨x, rfl⟩ := exists_date z
  exact ⟨x, civilFromDays_date x, rfl⟩

/-! ## The count of days -/

/-- The leap days of the years up to `y` in one formula. -/
theorem daysFromCivil_closed (x : Date) : daysFromCivil x.year x.month x.day =
    365 * x.marchYear + x.marchYear / 4 - x.marchYear / 100 + x.marchYear / 400 + x.dayOf -
      719468 := by
  have hera : x.marchYear / 400 * 146097 + (eraDays x.yearOf : Int) =
      365 * x.marchYear + x.marchYear / 4 - x.marchYear / 100 + x.marchYear / 400 := by
    rw [Date.yearOf, eraDays]
    omega
  rw [daysFromCivil_eq, Int.natCast_add, ← add_assoc, hera]

theorem daysInMonth_pos {y : Int} {m : Nat} (h : 1 ≤ m ∧ m ≤ 12) : 1 ≤ daysInMonth y m := by
  have hall : ∀ m < 13, 1 ≤ m →
      1 ≤ [31, 28, 31, 30, 31, 30, 31, 31, 30, 31, 30, 31].getD (m - 1) 0 := by decide
  rw [daysInMonth]
  split
  · decide
  · exact hall m (Nat.lt_succ_of_le h.2) h.1

namespace Date

/-- The first of January 1970. -/
def epoch : Date := ⟨1970, 1, 1, by decide, by decide⟩

/-- The day after. -/
def next (x : Date) : Date :=
  if hd : x.day < daysInMonth x.year x.month then
    ⟨x.year, x.month, x.day + 1, x.month_mem, Nat.le_add_left 1 _, hd⟩
  else if hm : x.month < 12 then
    have hmem : 1 ≤ x.month + 1 ∧ x.month + 1 ≤ 12 := ⟨Nat.le_add_left 1 _, hm⟩
    ⟨x.year, x.month + 1, 1, hmem, Nat.le_refl 1, daysInMonth_pos hmem⟩
  else ⟨x.year + 1, 1, 1, by decide, Nat.le_refl 1, daysInMonth_pos (by decide)⟩

theorem next_day {x : Date} (hd : x.day < daysInMonth x.year x.month) :
    x.next.year = x.year ∧ x.next.month = x.month ∧ x.next.day = x.day + 1 := by
  rw [next, dif_pos hd]
  exact ⟨rfl, rfl, rfl⟩

theorem next_month {x : Date} (hd : ¬ x.day < daysInMonth x.year x.month) (hm : x.month < 12) :
    x.next.year = x.year ∧ x.next.month = x.month + 1 ∧ x.next.day = 1 := by
  rw [next, dif_neg hd, dif_pos hm]
  exact ⟨rfl, rfl, rfl⟩

theorem next_year {x : Date} (hd : ¬ x.day < daysInMonth x.year x.month) (hm : ¬ x.month < 12) :
    x.next.year = x.year + 1 ∧ x.next.month = 1 ∧ x.next.day = 1 := by
  rw [next, dif_neg hd, dif_neg hm]
  exact ⟨rfl, rfl, rfl⟩

end Date

theorem daysFromCivil_epoch :
    daysFromCivil Date.epoch.year Date.epoch.month Date.epoch.day = 0 := by decide +kernel

/-- The last day of a month other than February. -/
theorem lastDay_march {x : Date} (h2 : x.month ≠ 2) (hd : ¬ x.day < daysInMonth x.year x.month) :
    x.dayOf + 1 = marchDays (marchMonth x.month + 1) := by
  have hday := x.day_mem
  have hmonth := x.month_mem
  have hmarch : marchMonth x.month < 11 := by
    rw [marchMonth]
    split <;> omega
  have hlen := daysInMonth_march hmarch x.year
  rw [civilMonth_marchMonth hmonth] at hlen
  rw [Date.dayOf]
  simp only [marchDays] at *
  omega

/-- The last day of February is the last of its year. -/
theorem lastDay_february {x : Date} (h2 : x.month = 2) (hd : ¬ x.day < daysInMonth x.year x.month) :
    x.dayOf + 1 = if isLeap x.year then 366 else 365 := by
  have hday := x.day_mem
  rw [h2, daysInMonth_february] at hday hd
  rw [Date.dayOf, h2, show marchMonth 2 = 11 from rfl, show marchDays 11 = 337 from rfl]
  split at hday <;> simp_all <;> omega

/-- **A day later is one more**: with the epoch at 0, `daysFromCivil` counts the days. -/
theorem daysFromCivil_next (x : Date) :
    daysFromCivil x.next.year x.next.month x.next.day =
      daysFromCivil x.year x.month x.day + 1 := by
  have hday := x.day_mem
  have hmonth := x.month_mem
  rw [daysFromCivil_closed, daysFromCivil_closed]
  by_cases hd : x.day < daysInMonth x.year x.month
  · obtain ⟨hy', hm', hd'⟩ := Date.next_day hd
    simp only [Date.marchYear, Date.dayOf, hy', hm', hd']
    omega
  by_cases h2 : x.month = 2
  · -- the only month whose end begins another March year
    have hlast := lastDay_february h2 hd
    obtain ⟨hy', hm', hd'⟩ := Date.next_month hd (by omega)
    have hfirst : x.next.dayOf = 0 := by
      rw [Date.dayOf, hm', hd', h2]
      rfl
    have hnext : x.next.marchYear = x.year := by
      rw [Date.marchYear, hy', if_neg (by omega)]
    have hyear : x.marchYear = x.year - 1 := if_pos (by omega)
    have hl := isLeap_iff x.year
    rw [hfirst, hnext, hyear]
    split at hlast
    · next h =>
      have := hl.1 h
      omega
    · next h =>
      have := mt hl.2 h
      omega
  · have hlast := lastDay_march h2 hd
    have hfirst : x.next.dayOf = marchDays (marchMonth x.month + 1) ∧
        x.next.marchYear = x.marchYear := by
      by_cases hm : x.month < 12
      · obtain ⟨hy', hm', hd'⟩ := Date.next_month hd hm
        have hmarch : marchMonth (x.month + 1) = marchMonth x.month + 1 := by
          rw [marchMonth, marchMonth]
          split <;> split <;> omega
        refine ⟨by rw [Date.dayOf, hm', hd', hmarch, Nat.sub_self, Nat.add_zero], ?_⟩
        rw [Date.marchYear, Date.marchYear, hy', hm']
        split <;> split <;> omega
      · obtain ⟨hy', hm', hd'⟩ := Date.next_year hd hm
        obtain h12 : x.month = 12 := by omega
        refine ⟨by rw [Date.dayOf, hm', hd', h12]; rfl, ?_⟩
        rw [Date.marchYear, Date.marchYear, hy', hm', h12]
        exact Int.add_sub_cancel x.year 1
    rw [hfirst.1, hfirst.2, ← hlast]
    omega

end Asper

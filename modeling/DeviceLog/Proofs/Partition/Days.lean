import DeviceLog.Partition.Calendar

/-! # A date tells its day

Years are counted from March here, as they are where dates are made, so that the leap day is the last
of its year.

* `daysBeforeYear_bounds` and `daysBeforeMonth_bounds`: the year of a day in its cycle, and the month
  of a day in its year, are those in which it falls.
* `Date.toDay` counts the days up to a date, and `toDay_ofDay` finds the day that a date was made of.
* `Instant.date_hour_iff`: date and hour together tell the hour since the beginning of 1970.
-/

namespace DeviceLog

namespace Date

/-! ## Years and months -/

theorem century_of_yearOfCycle {day : Nat} (h : day < 146096) : yearOfCycle day / 100 = day / 36524 := by
  have hlast : day / 146096 = 0 := by omega
  simp only [yearOfCycle, hlast]
  omega

theorem daysBeforeYear_bounds {day : Nat} (h : day < daysOfCycle) :
    daysBeforeYear (yearOfCycle day) ≤ day ∧ day ≤ daysBeforeYear (yearOfCycle day) + 365
      ∧ yearOfCycle day < 400 := by
  simp only [daysOfCycle] at h
  by_cases hlast : day = 146096
  · -- The last day of a cycle is the leap day that its last century has besides those of the others.
    subst hlast
    decide
  · have hcentury := century_of_yearOfCycle (show day < 146096 by omega)
    have hyear : 365 * yearOfCycle day ≤ day - day / 1460 + day / 36524
        ∧ day - day / 1460 + day / 36524 < 365 * yearOfCycle day + 365 := by
      simp only [yearOfCycle]
      omega
    simp only [daysBeforeYear, hcentury]
    omega

theorem daysBeforeMonth_bounds {day : Nat} (h : day ≤ 365) :
    daysBeforeMonth (monthOfDay day) ≤ day ∧ monthOfDay day < 12 := by
  simp only [daysBeforeMonth, monthOfDay]
  omega

/-! ## Dates -/

/-- The year of a date, where years begin in March. -/
def yearFromMarch (d : Date) : Int := if d.month < 3 then d.year - 1 else d.year

/-- How many months of that year are over. -/
def monthFromMarch (d : Date) : Nat := if d.month < 3 then d.month + 9 else d.month - 3

/-- The day of a date, by its distance from the first of January 1970. -/
def toDay (d : Date) : Int :=
  d.yearFromMarch / 400 * daysOfCycle + daysBeforeYear (d.yearFromMarch % 400).toNat
    + daysBeforeMonth d.monthFromMarch + d.day - 1 - daysBefore1970

/-- January and February are the last two months of a year that begins in March. -/
theorem fromMarch_eq {d : Date} {year : Int} {month : Nat} (h : month < 12)
    (hyear : d.year = year + if month < 10 then 0 else 1)
    (hmonth : d.month = if month < 10 then month + 3 else month - 9) :
    d.yearFromMarch = year ∧ d.monthFromMarch = month := by
  simp only [yearFromMarch, monthFromMarch]
  by_cases hspring : month < 10
  · rw [if_pos hspring] at hyear hmonth
    rw [if_neg (by omega), if_neg (by omega)]
    omega
  · rw [if_neg hspring] at hyear hmonth
    rw [if_pos (by omega), if_pos (by omega)]
    omega

theorem toDay_ofDay (day : Int) : (ofDay day).toDay = day := by
  obtain ⟨cycle, hcycle⟩ : ∃ cycle, cycle = (day + daysBefore1970) / daysOfCycle := ⟨_, rfl⟩
  obtain ⟨dayOfCycle, hdayOfCycle⟩ : ∃ n, n = ((day + daysBefore1970) % daysOfCycle).toNat := ⟨_, rfl⟩
  have hsplit : day + daysBefore1970 = cycle * daysOfCycle + dayOfCycle ∧ dayOfCycle < daysOfCycle := by
    simp only [daysOfCycle] at hcycle hdayOfCycle ⊢
    omega
  obtain ⟨hyear, hend, hcount⟩ := daysBeforeYear_bounds hsplit.2
  obtain ⟨dayOfYear, hdayOfYear⟩ : ∃ n, n = dayOfCycle - daysBeforeYear (yearOfCycle dayOfCycle) := ⟨_, rfl⟩
  obtain ⟨hmonth, htwelve⟩ := daysBeforeMonth_bounds (show dayOfYear ≤ 365 by omega)
  have hyearFrom : (ofDay day).yearFromMarch = cycle * 400 + yearOfCycle dayOfCycle
      ∧ (ofDay day).monthFromMarch = monthOfDay dayOfYear := by
    apply fromMarch_eq htwelve
    · simp only [ofDay, ← hcycle, ← hdayOfCycle, ← hdayOfYear]
    · simp only [ofDay, ← hdayOfCycle, ← hdayOfYear]
  have hday : (ofDay day).day = dayOfYear - daysBeforeMonth (monthOfDay dayOfYear) + 1 := by
    simp only [ofDay, ← hdayOfCycle, ← hdayOfYear]
  -- Of the year the cycle and the year in it are found again.
  have hcycle' : (cycle * 400 + (yearOfCycle dayOfCycle : Int)) / 400 = cycle := by omega
  have hyear' : ((cycle * 400 + (yearOfCycle dayOfCycle : Int)) % 400).toNat = yearOfCycle dayOfCycle := by
    omega
  rw [toDay, hyearFrom.1, hyearFrom.2, hday, hcycle', hyear']
  omega

theorem ofDay_inj {day day' : Int} (h : ofDay day = ofDay day') : day = day' := by
  rw [← toDay_ofDay day, h, toDay_ofDay]

end Date

/-- Instants have the same date and hour if and only if the clocks of their zones show the same hour
since the beginning of 1970. -/
theorem Instant.date_hour_iff {i i' : Instant} :
    i.date = i'.date ∧ i.hour = i'.hour ↔ i.localHours = i'.localHours := by
  simp only [date, hour]
  constructor
  · rintro ⟨hdate, hhour⟩
    have hday := Date.ofDay_inj hdate
    omega
  · intro h
    rw [h]
    exact ⟨rfl, rfl⟩

end DeviceLog

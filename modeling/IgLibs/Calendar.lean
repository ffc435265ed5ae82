import Mathlib.Data.List.Lex
import Mathlib.Logic.Function.Iterate
import Mathlib.Order.RelClasses
import Mathlib.Tactic.IntervalCases

namespace IgLibs

-- A second of the Gregorian calendar. Months and days are counted from one.
structure Moment where
  year : Nat
  mon : Nat
  mday : Nat
  hour : Nat
  min : Nat
  sec : Nat
deriving DecidableEq

namespace Moment

def leap (year : Nat) : Bool := year % 4 == 0 && (year % 100 != 0 || year % 400 == 0)

def days_in (year mon : Nat) : Nat :=
  if mon = 2 then if leap year then 29 else 28
  else if mon = 4 ∨ mon = 6 ∨ mon = 9 ∨ mon = 11 then 30
  else 31

structure Valid (m : Moment) : Prop where
  mon : 1 ≤ m.mon ∧ m.mon ≤ 12
  mday : 1 ≤ m.mday ∧ m.mday ≤ days_in m.year m.mon
  hour : m.hour < 24
  min : m.min < 60
  sec : m.sec < 60

-- The second that comes next on the calendar.
def next (m : Moment) : Moment :=
  if m.sec < 59 then { m with sec := m.sec + 1 }
  else if m.min < 59 then { m with min := m.min + 1, sec := 0 }
  else if m.hour < 23 then { m with hour := m.hour + 1, min := 0, sec := 0 }
  else if m.mday < days_in m.year m.mon then ⟨m.year, m.mon, m.mday + 1, 0, 0, 0⟩
  else if m.mon < 12 then ⟨m.year, m.mon + 1, 1, 0, 0, 0⟩
  else ⟨m.year + 1, 1, 1, 0, 0, 0⟩

-- The seconds of the calendar from the year 0 on, one after another.
def clock (n : Nat) : Moment := next^[n] ⟨0, 1, 1, 0, 0, 0⟩

-- The leap days of the years before one, and the days of the years before it.
def leap_days (year : Nat) : Nat := (year + 3) / 4 + (year + 399) / 400 - (year + 99) / 100

def year_start (year : Nat) : Nat := 365 * year + leap_days year

-- The days of the months before one in its year.
def month_start (year mon : Nat) : Nat :=
  [0, 31, 59, 90, 120, 151, 181, 212, 243, 273, 304, 334].getD (mon - 1) 0 +
    if leap year && 2 < mon then 1 else 0

def day (m : Moment) : Nat := year_start m.year + month_start m.year m.mon + (m.mday - 1)

-- The seconds since the year 0. Days, hours, minutes and seconds past their range carry over.
def seconds (m : Moment) : Nat := ((m.day * 24 + m.hour) * 60 + m.min) * 60 + m.sec

def fields (m : Moment) : List Nat := [m.year, m.mon, m.mday, m.hour, m.min, m.sec]

theorem leap_days_succ (year : Nat) :
    leap_days (year + 1) = leap_days year + if leap year then 1 else 0 := by
  have hfour : (year + 1 + 3) / 4 = (year + 3) / 4 + if year % 4 = 0 then 1 else 0 := by
    split <;> omega
  have hcentury : (year + 1 + 99) / 100 = (year + 99) / 100 + if year % 100 = 0 then 1 else 0 := by
    split <;> omega
  have hcycle : (year + 1 + 399) / 400 = (year + 399) / 400 + if year % 400 = 0 then 1 else 0 := by
    split <;> omega
  have hcenturies : year % 100 = 0 → year % 4 = 0 := by omega
  have hcycles : year % 400 = 0 → year % 100 = 0 := by omega
  have hle : (year + 99) / 100 ≤ (year + 3) / 4 := by omega
  unfold leap_days leap
  rw [hfour, hcentury, hcycle]
  generalize (year + 3) / 4 = fours, (year + 99) / 100 = centuries, (year + 399) / 400 = cycles
    at hle ⊢
  by_cases h4 : year % 4 = 0
  · by_cases h100 : year % 100 = 0
    · by_cases h400 : year % 400 = 0
      · simp [h4, h100, h400]
        omega
      · simp [h4, h100, h400]
        omega
    · have h400 : year % 400 ≠ 0 := fun h => h100 (hcycles h)
      simp [h4, h100, h400]
      omega
  · have h100 : year % 100 ≠ 0 := fun h => h4 (hcenturies h)
    have h400 : year % 400 ≠ 0 := fun h => h100 (hcycles h)
    simp [h4, h100, h400]

theorem year_start_succ (year : Nat) :
    year_start (year + 1) = year_start year + 365 + if leap year then 1 else 0 := by
  unfold year_start
  rw [leap_days_succ]
  omega

theorem month_start_succ (year : Nat) {mon : Nat} (hlo : 1 ≤ mon) (hhi : mon < 12) :
    month_start year (mon + 1) = month_start year mon + days_in year mon := by
  unfold month_start days_in
  interval_cases mon <;> cases leap year <;> rfl

theorem month_start_december (year : Nat) :
    month_start year 12 + 31 = 365 + if leap year then 1 else 0 := by
  unfold month_start
  cases leap year <;> rfl

theorem days_in_pos (year mon : Nat) : 0 < days_in year mon := by
  unfold days_in
  split_ifs <;> exact Nat.succ_pos _

section

variable {m m' : Moment} {n : Nat}

theorem Valid.next (h : m.Valid) : m.next.Valid := by
  unfold Moment.next
  split_ifs with hsec hmin hhour hmday hmon
  · exact ⟨h.mon, h.mday, h.hour, h.min, Nat.succ_lt_succ hsec⟩
  · exact ⟨h.mon, h.mday, h.hour, Nat.succ_lt_succ hmin, Nat.succ_pos _⟩
  · exact ⟨h.mon, h.mday, Nat.succ_lt_succ hhour, Nat.succ_pos _, Nat.succ_pos _⟩
  · exact ⟨h.mon, ⟨Nat.le_add_left 1 _, hmday⟩, Nat.succ_pos _, Nat.succ_pos _, Nat.succ_pos _⟩
  · exact ⟨⟨Nat.le_add_left 1 _, hmon⟩, ⟨Nat.le_refl 1, days_in_pos ..⟩, Nat.succ_pos _,
      Nat.succ_pos _, Nat.succ_pos _⟩
  · exact ⟨⟨Nat.le_refl 1, Nat.succ_pos _⟩, ⟨Nat.le_refl 1, days_in_pos ..⟩, Nat.succ_pos _,
      Nat.succ_pos _, Nat.succ_pos _⟩

-- A day that ends is followed by the next one.
theorem day_next_month (h : m.Valid) (hlast : m.mday = days_in m.year m.mon) (hmon : m.mon < 12) :
    (⟨m.year, m.mon + 1, 1, 0, 0, 0⟩ : Moment).day = m.day + 1 := by
  have hpos := days_in_pos m.year m.mon
  simp only [day, month_start_succ m.year h.mon.1 hmon, hlast]
  omega

theorem day_next_year (hlast : m.mday = days_in m.year m.mon) (hmon : m.mon = 12) :
    (⟨m.year + 1, 1, 1, 0, 0, 0⟩ : Moment).day = m.day + 1 := by
  have hdecember := month_start_december m.year
  have hdays : m.mday = 31 := by
    rw [hlast, hmon]
    rfl
  have hjanuary : month_start (m.year + 1) 1 = 0 := by
    unfold month_start
    cases leap (m.year + 1) <;> rfl
  simp only [day, year_start_succ, hjanuary, hmon, hdays]
  omega

theorem seconds_next (h : m.Valid) : m.next.seconds = m.seconds + 1 := by
  have hmin := h.min
  have hsec := h.sec
  have hhour := h.hour
  have hmday := h.mday
  have hmon := h.mon
  unfold Moment.next
  split_ifs with hsec' hmin' hhour' hmday' hmon'
  · exact (Nat.add_assoc ..).symm
  · simp only [seconds, day]
    omega
  · simp only [seconds, day]
    omega
  · have hday : (⟨m.year, m.mon, m.mday + 1, 0, 0, 0⟩ : Moment).day = m.day + 1 := by
      simp only [day]
      omega
    simp only [seconds, hday]
    omega
  · simp only [seconds, day_next_month h (by omega) hmon']
    omega
  · simp only [seconds, day_next_year (m := m) (by omega) (by omega)]
    omega

theorem valid_clock (n : Nat) : (clock n).Valid := by
  induction n with
  | zero => exact ⟨⟨by decide, by decide⟩, ⟨by decide, by decide⟩, by decide, by decide, by decide⟩
  | succ n ih =>
      rw [clock, Function.iterate_succ_apply']
      exact ih.next

theorem seconds_clock (n : Nat) : (clock n).seconds = n := by
  induction n with
  | zero => rfl
  | succ n ih =>
      have hnext := seconds_next (valid_clock n)
      rw [ih] at hnext
      rw [clock, Function.iterate_succ_apply']
      exact hnext

theorem year_start_le {year year' : Nat} (h : year ≤ year') : year_start year ≤ year_start year' := by
  induction year', h using Nat.le_induction with
  | base => exact Nat.le_refl _
  | succ year' _ ih =>
      rw [year_start_succ]
      omega

theorem month_start_le (year : Nat) {mon mon' : Nat} (hlo : 1 ≤ mon) (h : mon ≤ mon')
    (hhi : mon' ≤ 12) :
    month_start year mon ≤ month_start year mon' := by
  induction mon', h using Nat.le_induction with
  | base => exact Nat.le_refl _
  | succ mon' hle ih =>
      rw [month_start_succ year (by omega) (by omega)]
      have hbefore := ih (by omega)
      omega

-- A day lies in its year.
theorem day_lt_year (h : m.Valid) : m.day < year_start (m.year + 1) := by
  have hpos := h.mday
  have hmon := h.mon
  have hdecember := month_start_december m.year
  rw [day, year_start_succ]
  by_cases hlast : m.mon = 12
  · have hdays : days_in m.year m.mon = 31 := by
      rw [hlast]
      rfl
    rw [hlast]
    omega
  · have hnext := month_start_succ m.year hmon.1 (by omega)
    have hle := month_start_le m.year (by omega : 1 ≤ m.mon + 1) (by omega) (Nat.le_refl 12)
    omega

-- The order of the fields is the order of time.
theorem seconds_lt (h : m.Valid) (h' : m'.Valid) (hlt : m.fields < m'.fields) :
    m.seconds < m'.seconds := by
  have hmday := h.mday
  have hmday' := h'.mday
  have hday : m.day < m'.day → m.seconds < m'.seconds := by
    intro hday
    have hhour := h.hour
    have hmin := h.min
    have hsec := h.sec
    unfold seconds
    omega
  simp only [fields, List.cons_lt_cons_iff, List.not_lt_nil, and_false, or_false] at hlt
  rcases hlt with hyear | ⟨hyear, hmon | ⟨hmon, hdays | ⟨hdays, hrest⟩⟩⟩
  · apply hday
    have hend := day_lt_year h
    have hstart := year_start_le (Nat.succ_le_of_lt hyear)
    rw [Nat.succ_eq_add_one] at hstart
    unfold day at hend ⊢
    omega
  · apply hday
    have hend := month_start_succ m.year h.mon.1 (by have := h'.mon.2; omega)
    have hstart := month_start_le m.year (by omega : 1 ≤ m.mon + 1) hmon h'.mon.2
    unfold day
    rw [← hyear]
    omega
  · apply hday
    unfold day
    rw [← hyear, ← hmon]
    omega
  · have hsame : m.day = m'.day := by
      unfold day
      rw [hyear, hmon, hdays]
    have hmin := h.min
    have hsec := h.sec
    unfold seconds
    rw [hsame]
    rcases hrest with hhour | ⟨hhour, hmin' | ⟨hmin', hsec'⟩⟩
    · omega
    · omega
    · omega

theorem fields_inj (h : m.fields = m'.fields) : m = m' := by
  cases m
  cases m'
  simpa [fields] using h

theorem seconds_inj (h : m.Valid) (h' : m'.Valid) (heq : m.seconds = m'.seconds) : m = m' := by
  rcases lt_trichotomy m.fields m'.fields with hlt | hfields | hgt
  · exact absurd heq (Nat.ne_of_lt (seconds_lt h h' hlt))
  · exact fields_inj hfields
  · exact absurd heq (Nat.ne_of_gt (seconds_lt h' h hgt))

theorem clock_seconds (h : m.Valid) : clock m.seconds = m :=
  seconds_inj (valid_clock _) h (seconds_clock _)

theorem fields_clock_lt {n n' : Nat} (h : n < n') : (clock n).fields < (clock n').fields := by
  rcases lt_trichotomy (clock n).fields (clock n').fields with hlt | hfields | hgt
  · exact hlt
  · have heq := congrArg seconds (fields_inj hfields)
    rw [seconds_clock, seconds_clock] at heq
    omega
  · have hgt := seconds_lt (valid_clock n') (valid_clock n) hgt
    rw [seconds_clock, seconds_clock] at hgt
    omega

end

end Moment

end IgLibs

import Mathlib.Data.Int.Notation
import Mathlib.Data.Nat.Notation
import Mathlib.Tactic.NormNum

/-! # The Gregorian calendar

Days and seconds from the start of 1970, which was a Thursday. Months count from 0.
-/
namespace Micron.Calendar

def IsLeap (y : ℤ) : Prop := y % 4 = 0 ∧ (y % 100 ≠ 0 ∨ y % 400 = 0)

instance (y : ℤ) : Decidable (IsLeap y) := inferInstanceAs (Decidable (_ ∧ _))

def yearLen (y : ℤ) : ℤ := if IsLeap y then 366 else 365

def monthLen (y : ℤ) : ℕ → ℤ
  | 1 => if IsLeap y then 29 else 28
  | 3 | 5 | 8 | 10 => 30
  | _ => 31

def monthStart (y : ℤ) : ℕ → ℤ
  | 0 => 0
  | m + 1 => monthStart y m + monthLen y m

def leaps (y : ℤ) : ℤ := y / 4 - y / 100 + y / 400

def yearStart (y : ℤ) : ℤ := 365 * (y - 1970) + (leaps (y - 1) - leaps 1969)

variable {y y' n : ℤ} {m m' : ℕ}

theorem leaps_succ (y : ℤ) : leaps y = leaps (y - 1) + if IsLeap y then 1 else 0 := by
  unfold leaps
  split <;> rename_i h <;> unfold IsLeap at h <;> omega

theorem yearStart_origin : yearStart 1970 = 0 := rfl

theorem yearStart_succ (y : ℤ) : yearStart (y + 1) = yearStart y + yearLen y := by
  have h := leaps_succ y
  unfold yearStart yearLen
  rw [Int.add_sub_cancel,h]
  split <;> omega

theorem yearLen_pos (y : ℤ) : 0 < yearLen y := by
  unfold yearLen
  split <;> decide

theorem yearStart_mono (h : y ≤ y') : yearStart y ≤ yearStart y' := by
  obtain ⟨k,rfl⟩ := Int.le.dest h
  induction k with
  | zero => simp
  | succ k ih =>
    have hpos := yearLen_pos (y + k)
    have hsucc := yearStart_succ (y + k)
    rw [Int.natCast_succ,← Int.add_assoc]
    have := ih (Int.le.intro k rfl)
    omega

theorem monthLen_pos (y : ℤ) (m : ℕ) : 0 < monthLen y m := by
  unfold monthLen
  split <;> (try split) <;> decide

theorem monthLen_le (y : ℤ) (m : ℕ) : monthLen y m ≤ 31 := by
  unfold monthLen
  split
  · split <;> decide
  all_goals decide

theorem monthStart_mono (y : ℤ) (h : m ≤ m') : monthStart y m ≤ monthStart y m' := by
  induction m' with
  | zero =>
    obtain rfl : m = 0 := by omega
    exact Int.le_refl _
  | succ k ih =>
    rcases Nat.lt_or_eq_of_le h with hlt | rfl
    · have hpos := monthLen_pos y k
      have := ih (by omega)
      rw [monthStart]
      omega
    · exact Int.le_refl _

theorem monthStart_year (y : ℤ) : monthStart y 12 = yearLen y := by
  simp only [monthStart,monthLen,yearLen]
  split <;> rfl

/-! ## Dates -/

structure Date where
  year : ℤ
  mon : ℕ
  mday : ℤ

structure Date.Valid (d : Date) : Prop where
  mon_lt : d.mon < 12
  mday_pos : 1 ≤ d.mday
  mday_le : d.mday ≤ monthLen d.year d.mon

def Date.yday (d : Date) : ℤ := monthStart d.year d.mon + d.mday - 1

def Date.day (d : Date) : ℤ := yearStart d.year + d.yday

def Date.wday (d : Date) : ℤ := (4 + d.day) % 7

variable {d d' : Date}

theorem Date.Valid.yday_nonneg (h : d.Valid) : 0 ≤ d.yday := by
  have := monthStart_mono d.year (Nat.zero_le d.mon)
  have := h.mday_pos
  unfold Date.yday
  rw [monthStart] at *
  omega

theorem Date.Valid.yday_month (h : d.Valid) : monthStart d.year d.mon ≤ d.yday ∧
    d.yday < monthStart d.year (d.mon + 1) := by
  have := h.mday_pos
  have := h.mday_le
  unfold Date.yday
  rw [monthStart]
  omega

theorem Date.Valid.yday_lt (h : d.Valid) : d.yday < yearLen d.year := by
  rw [← monthStart_year]
  exact Int.lt_of_lt_of_le h.yday_month.2 (monthStart_mono d.year h.mon_lt)

/-- The year of a day. -/
theorem year_unique (h : yearStart y ≤ n) (hlt : n < yearStart (y + 1)) (h' : yearStart y' ≤ n)
    (hlt' : n < yearStart (y' + 1)) : y = y' := by
  rcases Int.lt_trichotomy y y' with hy | hy | hy
  · have := yearStart_mono (show y + 1 ≤ y' from hy)
    omega
  · exact hy
  · have := yearStart_mono (show y' + 1 ≤ y from hy)
    omega

/-- The month of a day of the year. -/
theorem month_unique (h : monthStart y m ≤ n) (hlt : n < monthStart y (m + 1)) (h' : monthStart y m' ≤ n)
    (hlt' : n < monthStart y (m' + 1)) : m = m' := by
  rcases Nat.lt_trichotomy m m' with hm | hm | hm
  · have := monthStart_mono y (show m + 1 ≤ m' from hm)
    omega
  · exact hm
  · have := monthStart_mono y (show m' + 1 ≤ m from hm)
    omega

theorem Date.Valid.day_year (h : d.Valid) : yearStart d.year ≤ d.day ∧ d.day < yearStart (d.year + 1) := by
  have h0 := h.yday_nonneg
  have h1 := h.yday_lt
  have hsucc := yearStart_succ d.year
  unfold Date.day
  omega

/-- Dates with the same number are the same. -/
theorem day_inj (h : d.Valid) (h' : d'.Valid) (he : d.day = d'.day) : d = d' := by
  obtain ⟨y,m,k⟩ := d
  obtain ⟨y',m',k'⟩ := d'
  obtain ⟨hy,hlt⟩ := h.day_year
  obtain ⟨hy',hlt'⟩ := h'.day_year
  rw [← he] at hy' hlt'
  obtain rfl : y = y' := year_unique hy hlt hy' hlt'
  have hyday : Date.yday ⟨y,m,k⟩ = Date.yday ⟨y,m',k'⟩ := Int.add_left_cancel he
  obtain ⟨hm,hmlt⟩ := h.yday_month
  obtain ⟨hm',hmlt'⟩ := h'.yday_month
  rw [← hyday] at hm' hmlt'
  obtain rfl : m = m' := month_unique hm hmlt hm' hmlt'
  have hk : k = k' := by
    simp only [Date.yday] at hyday
    omega
  rw [hk]

end Micron.Calendar

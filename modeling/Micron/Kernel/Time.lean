import Mathlib.Tactic.IntervalCases
import Micron.Lib.Calendar
import Micron.Lib.Machine

/-! # Calendar time

`mktime` and `gettime` of `lib/time.c`. The variables `month` and `year` of `mktime` have 16
bits and its result has 32. The numbers in `__offtime` are far below the limit of a `long`.
-/
namespace Micron.Kernel.Time
open Calendar

structure Tm where
  sec : Int32
  min : Int32
  hour : Int32
  mday : Int32
  mon : Int32
  year : Int32
  wday : Int32
  yday : Int32
  isdst : Int32

def SECS_PER_HOUR : ℤ := 60 * 60
def SECS_PER_DAY : ℤ := SECS_PER_HOUR * 24

def monYday (leap : Bool) : List ℤ :=
  if leap then [0,31,60,91,121,152,182,213,244,274,305,335,366]
  else [0,31,59,90,120,151,181,212,243,273,304,334,365]

def short (x : ℤ) : ℤ := x.bmod (2 ^ 16)

/-- The first of the two assignments to `res` has no effect. -/
def mktime (t : Tm) : UInt32 :=
  let month := short t.mon.toInt
  let year := if t.year.toInt < 70 then short (t.year.toInt + month.tdiv 12 + 2000)
    else short (t.year.toInt + month.tdiv 12 + 1900)
  let year := if month.tmod 12 < 0 then short (year - 1) else year
  let month := if month.tmod 12 < 0 then short (month.tmod 12 + 12) else month.tmod 12
  let res := UInt32.ofInt ((year - 1970) * 365 + (monYday false).getD month.toNat 0)
  let year := if month ≤ 1 then short (year - 1) else year
  let res := res + UInt32.ofInt ((year - 1968).tdiv 4)
  let res := res - UInt32.ofInt ((year - 1900).tdiv 100)
  let res := res + UInt32.ofInt ((year - 1600).tdiv 400)
  let res := res + UInt32.ofInt t.mday.toInt
  let res := res - 1
  let res := res * 24
  let res := res + UInt32.ofInt t.hour.toInt
  let res := res * 60
  let res := res + UInt32.ofInt t.min.toInt
  let res := res * 60
  res + UInt32.ofInt t.sec.toInt

/-! ## `__offtime` -/

def remUp : ℕ → ℤ → ℤ → Option (ℤ × ℤ)
  | 0, _, _ => none
  | fuel + 1, days, rem => if rem < 0 then remUp fuel (days - 1) (rem + SECS_PER_DAY) else some (days,rem)

def remDown : ℕ → ℤ → ℤ → Option (ℤ × ℤ)
  | 0, _, _ => none
  | fuel + 1, days, rem =>
    if rem ≥ SECS_PER_DAY then remDown fuel (days + 1) (rem - SECS_PER_DAY) else some (days,rem)

def div (a b : ℤ) : ℤ := a.tdiv b - if a.tmod b < 0 then 1 else 0

def leapsThruEndOf (y : ℤ) : ℤ := div y 4 - div y 100 + div y 400

def isleap (y : ℤ) : Bool := y.tmod 4 = 0 ∧ (y.tmod 100 ≠ 0 ∨ y.tmod 400 = 0)

def yearLoop : ℕ → ℤ → ℤ → Option (ℤ × ℤ)
  | 0, _, _ => none
  | fuel + 1, days, y =>
    if days < 0 ∨ days ≥ (if isleap y then 366 else 365) then
      let yg := y + days.tdiv 365 - if days.tmod 365 < 0 then 1 else 0
      yearLoop fuel (days - ((yg - y) * 365 + leapsThruEndOf (yg - 1) - leapsThruEndOf (y - 1))) yg
    else some (days,y)

/-- The search for the month, from `y` downwards; it stops when it leaves the table. -/
def monLoop (ip : List ℤ) (days : ℤ) : ℕ → Option ℕ
  | 0 => if days < ip.getD 0 0 then none else some 0
  | y + 1 => if days < ip.getD (y + 1) 0 then monLoop ip days y else some (y + 1)

def offtime (fuel : ℕ) (t : UInt32) (offset : ℤ) (tp : Tm) : Option (ℤ × Tm) := do
  let (days,rem) ← remUp fuel (t.toNat / SECS_PER_DAY) (t.toNat % SECS_PER_DAY + offset)
  let (days,rem) ← remDown fuel days rem
  let tp : Tm := { tp with
    hour := .ofInt (rem.tdiv SECS_PER_HOUR)
    min := .ofInt ((rem.tmod SECS_PER_HOUR).tdiv 60)
    sec := .ofInt ((rem.tmod SECS_PER_HOUR).tmod 60)
    wday := .ofInt ((4 + days).tmod 7) }
  let tp : Tm := if tp.wday < 0 then { tp with wday := tp.wday + 7 } else tp
  let (days,y) ← yearLoop fuel days 1970
  let tp : Tm := { tp with year := .ofInt (y - 1900) }
  if tp.year.toInt ≠ y - 1900 then return (0,tp)
  let tp : Tm := { tp with yday := .ofInt days, isdst := if isleap y then 1 else 0 }
  let mon ← monLoop (monYday (isleap y)) days 11
  return (1,{ tp with mon := .ofInt mon, mday := .ofInt (days - (monYday (isleap y)).getD mon 0 + 1) })

def gettime (fuel : ℕ) (t : UInt32) (tp : Tm) : Option (ℤ × Tm) := offtime fuel t 0 tp

/-! ## The arithmetic of the source -/

variable {y days : ℤ} {m fuel : ℕ}

theorem leapsThruEndOf_eq (y : ℤ) : leapsThruEndOf y = leaps y := by
  unfold leapsThruEndOf leaps div
  rw [Machine.tdiv_sub (by decide),Machine.tdiv_sub (by decide),Machine.tdiv_sub (by decide)]

theorem isleap_eq (y : ℤ) : isleap y = decide (IsLeap y) := by
  unfold isleap
  refine decide_eq_decide.mpr ?_
  unfold IsLeap
  rw [ne_eq,Machine.tmod_eq_zero,Machine.tmod_eq_zero,Machine.tmod_eq_zero]

theorem monYday_eq (y : ℤ) (hm : m ≤ 12) : (monYday (isleap y)).getD m 0 = monthStart y m := by
  rw [isleap_eq]
  by_cases h : IsLeap y
  · rw [decide_eq_true h]
    interval_cases m <;> simp [monthStart,monthLen,h,monYday]
  · rw [decide_eq_false h]
    interval_cases m <;> simp [monthStart,monthLen,h,monYday]

/-- The row for common years lacks the leap day. -/
theorem monYday_common (y : ℤ) (hm : m < 12) :
    (monYday false).getD m 0 + (leaps (if m ≤ 1 then y - 1 else y) - leaps (y - 1)) = monthStart y m := by
  have hleaps := leaps_succ y
  by_cases h : IsLeap y
  · rw [if_pos h] at hleaps
    interval_cases m <;> simp [monthStart,monthLen,h,monYday,hleaps]
  · rw [if_neg h] at hleaps
    interval_cases m <;> simp [monthStart,monthLen,h,monYday,hleaps]

theorem short_eq {x : ℤ} (h : -2 ^ 15 ≤ x) (h' : x < 2 ^ 15) : short x = x := Int.bmod_eq_of_le (by omega) (by omega)

theorem guess_day (y yg days : ℤ) :
    yearStart yg + (days - ((yg - y) * 365 + leapsThruEndOf (yg - 1) - leapsThruEndOf (y - 1))) = yearStart y + days := by
  simp only [leapsThruEndOf_eq,yearStart]
  omega

theorem yearLoop_done (h : 0 ≤ days) (hlt : days < yearLen y) : yearLoop (fuel + 1) days y = some (days,y) := by
  unfold yearLen at hlt
  rw [yearLoop,if_neg]
  rw [isleap_eq]
  simp only [decide_eq_true_eq]
  omega

theorem yearLoop_guess (h : days < 0 ∨ 366 ≤ days ∨ days = 365 ∧ ¬ IsLeap y) (yg : ℤ) (hyg : yg = y + days / 365) :
    yearLoop (fuel + 1) days y =
      yearLoop fuel (days - ((yg - y) * 365 + leapsThruEndOf (yg - 1) - leapsThruEndOf (y - 1))) yg := by
  have hdiv := Machine.tdiv_sub (a := days) (b := 365) (by decide)
  obtain rfl : y + days.tdiv 365 - (if days.tmod 365 < 0 then 1 else 0) = yg := by omega
  rw [yearLoop,if_pos]
  rw [isleap_eq]
  simp only [decide_eq_true_eq]
  rcases h with h | h | ⟨h,hleap⟩
  · exact Or.inl h
  · right
    split <;> omega
  · right
    rw [if_neg hleap]
    omega

/-- The first guess is right or one year too late. -/
theorem yearLoop_spec (fuel : ℕ) {n : ℤ} (h0 : 0 ≤ n) (hn : n ≤ 49710) :
    ∃ d y, yearLoop (fuel + 3) n 1970 = some (d,y) ∧ yearStart y + d = n ∧ 0 ≤ d ∧ d < yearLen y := by
  have hlen : ∀ y, 365 ≤ yearLen y := by
    intro y
    unfold yearLen
    split <;> decide
  by_cases hfirst : n < 365
  · refine ⟨n,1970,yearLoop_done h0 (Int.lt_of_lt_of_le hfirst (hlen 1970)),?_,h0,Int.lt_of_lt_of_le hfirst (hlen 1970)⟩
    rw [yearStart_origin]
    omega
  have hlate : n < 0 ∨ 366 ≤ n ∨ n = 365 ∧ ¬ IsLeap 1970 := by
    by_cases h : n = 365
    · exact Or.inr (Or.inr ⟨h,by decide⟩)
    · omega
  have hguess : yearLoop (fuel + 2 + 1) n 1970 = _ := yearLoop_guess hlate (1970 + n / 365) rfl
  have hday := guess_day 1970 (1970 + n / 365) n
  rw [hguess]
  generalize hd : n - ((1970 + n / 365 - 1970) * 365 + leapsThruEndOf (1970 + n / 365 - 1) - leapsThruEndOf (1970 - 1)) = d at *
  rw [yearStart_origin] at hday
  have hbounds : -36 ≤ d ∧ d < 365 := by
    simp only [leapsThruEndOf_eq,leaps] at hd
    omega
  by_cases hneg : d < 0
  · have hback : yearLoop (fuel + 1 + 1) d (1970 + n / 365) = _ :=
      yearLoop_guess (Or.inl hneg) (1970 + n / 365 - 1) (by omega)
    rw [hback]
    have hday' := guess_day (1970 + n / 365) (1970 + n / 365 - 1) d
    have hlast := yearStart_succ (1970 + n / 365 - 1)
    have hge := hlen (1970 + n / 365 - 1)
    rw [Int.sub_add_cancel] at hlast
    refine ⟨_,_,yearLoop_done ?_ ?_,?_,?_,?_⟩ <;> omega
  · refine ⟨d,_,yearLoop_done (by omega) ?_,by omega,by omega,?_⟩
    · exact Int.lt_of_lt_of_le hbounds.2 (hlen _)
    · exact Int.lt_of_lt_of_le hbounds.2 (hlen _)

/-- The search ends at the month of the day. -/
theorem monLoop_spec (h0 : 0 ≤ days) (hm : m < 12) (hlt : days < monthStart y (m + 1)) :
    ∃ k ≤ m, monLoop (monYday (isleap y)) days m = some k ∧ monthStart y k ≤ days ∧ days < monthStart y (k + 1) := by
  induction m with
  | zero =>
    refine ⟨0,Nat.le_refl _,?_,h0,hlt⟩
    rw [monLoop,monYday_eq y (by omega),monthStart,if_neg (Int.not_lt.mpr h0)]
  | succ m ih =>
    rw [monLoop,monYday_eq y (by omega)]
    by_cases hd : days < monthStart y (m + 1)
    · rw [if_pos hd]
      obtain ⟨k,hk,hrest⟩ := ih (by omega) hd
      exact ⟨k,by omega,hrest⟩
    · rw [if_neg hd]
      exact ⟨m + 1,Nat.le_refl _,rfl,Int.not_lt.mp hd,hlt⟩

/-! ## Broken-down times -/

def Tm.date (tm : Tm) : Date := ⟨tm.year.toInt + 1900,tm.mon.toInt.toNat,tm.mday.toInt⟩

structure Tm.Valid (tm : Tm) : Prop where
  mon_nonneg : 0 ≤ tm.mon.toInt
  date : tm.date.Valid
  hour_nonneg : 0 ≤ tm.hour.toInt
  hour_lt : tm.hour.toInt < 24
  min_nonneg : 0 ≤ tm.min.toInt
  min_lt : tm.min.toInt < 60
  sec_nonneg : 0 ≤ tm.sec.toInt
  sec_lt : tm.sec.toInt < 60

def Tm.complete (tm : Tm) : Tm :=
  { tm with
    wday := .ofInt tm.date.wday
    yday := .ofInt tm.date.yday
    isdst := if IsLeap tm.date.year then 1 else 0 }

def Tm.secs (tm : Tm) : ℤ := ((tm.date.day * 24 + tm.hour.toInt) * 60 + tm.min.toInt) * 60 + tm.sec.toInt

variable {tm tm' : Tm} {t : UInt32}

theorem Tm.Valid.secs_nonneg (h : tm.Valid) (hy : 70 ≤ tm.year.toInt) : 0 ≤ tm.secs := by
  have hday := h.date.day_year.1
  have hstart : yearStart 1970 ≤ yearStart tm.date.year := yearStart_mono (by simp only [Tm.date]; omega)
  have := h.hour_nonneg
  have := h.min_nonneg
  have := h.sec_nonneg
  rw [yearStart_origin] at hstart
  unfold Tm.secs
  omega

/-- Times that fit in 32 bits end in 2106. -/
theorem Tm.Valid.year_le (h : tm.Valid) (hs : tm.secs < 2 ^ 32) : tm.year.toInt ≤ 206 := by
  by_contra hy
  have hday := h.date.day_year.1
  have hstart : yearStart 2107 ≤ yearStart tm.date.year := yearStart_mono (by simp only [Tm.date]; omega)
  have := h.hour_nonneg
  have := h.min_nonneg
  have := h.sec_nonneg
  rw [show yearStart 2107 = 50038 from rfl] at hstart
  unfold Tm.secs at hs
  omega

theorem mktime_eq (h : tm.Valid) (hy : 70 ≤ tm.year.toInt) (hy' : tm.year.toInt ≤ 206) :
    mktime tm = UInt32.ofInt tm.secs := by
  have hm0 := h.mon_nonneg
  have hlt : tm.mon.toInt.toNat < 12 := h.date.mon_lt
  have hm12 : tm.mon.toInt < 12 := by omega
  have hmon : short tm.mon.toInt = tm.mon.toInt := short_eq (by omega) (by omega)
  have hyear : short (tm.year.toInt + 0 + 1900) = tm.date.year := by
    rw [Int.add_zero]
    exact short_eq (by omega) (by omega)
  obtain ⟨y,hy1⟩ : ∃ y, y = if tm.mon.toInt.toNat ≤ 1 then tm.date.year - 1 else tm.date.year := ⟨_,rfl⟩
  have hrange : 1970 ≤ tm.date.year ∧ tm.date.year ≤ 2106 := by
    simp only [Tm.date]
    omega
  have hprev : (if tm.mon.toInt ≤ 1 then short (tm.date.year - 1) else tm.date.year) = y := by
    rw [hy1,short_eq (by omega) (by omega)]
    exact if_congr (by omega) rfl rfl
  have hy0 : 1969 ≤ y := by
    rw [hy1]
    split <;> omega
  have htable := monYday_common tm.date.year hlt
  rw [← hy1] at htable
  unfold mktime
  simp only [hmon,Int.tdiv_eq_zero_of_lt hm0 hm12,Int.tmod_eq_of_lt hm0 hm12,if_neg (Int.not_lt.mpr hm0),
    if_neg (Int.not_lt.mpr hy),hyear,hprev]
  rw [show (1 : UInt32) = UInt32.ofInt 1 from rfl,show (24 : UInt32) = UInt32.ofInt 24 from rfl,
    show (60 : UInt32) = UInt32.ofInt 60 from rfl]
  simp only [UInt32.sub_eq_add_neg,← UInt32.ofInt_neg,← UInt32.ofInt_add,← UInt32.ofInt_mul]
  congr 1
  rw [Int.tdiv_eq_ediv_of_nonneg (by omega),Int.tdiv_eq_ediv_of_nonneg (by omega),
    Int.tdiv_eq_ediv_of_nonneg (by omega)]
  simp only [Tm.secs,Date.day,Date.yday,yearStart]
  rw [show tm.date.mon = tm.mon.toInt.toNat from rfl,← htable,show tm.date.mday = tm.mday.toInt from rfl]
  simp only [leaps]
  omega

theorem toInt_small {x : ℤ} (h : 0 ≤ x) (h' : x < 2 ^ 31) : (Int32.ofInt x).toInt = x :=
  Int32.toInt_ofInt_of_le (by omega) h'

def Tm.of (d : Date) (hour min sec : ℤ) : Tm where
  sec := .ofInt sec
  min := .ofInt min
  hour := .ofInt hour
  mday := .ofInt d.mday
  mon := .ofInt d.mon
  year := .ofInt (d.year - 1900)
  wday := .ofInt d.wday
  yday := .ofInt d.yday
  isdst := if IsLeap d.year then 1 else 0

section Of
variable {d : Date} {hour min sec : ℤ} (hd : d.Valid) (hy : 1970 ≤ d.year) (hy' : d.year ≤ 2106)
include hd hy hy'

theorem Tm.of_date : (Tm.of d hour min sec).date = d := by
  have h1 := hd.mday_pos
  have h2 := hd.yday_lt
  have h3 := hd.yday_month.1
  have h4 := hd.mon_lt
  have hlen : yearLen d.year ≤ 366 := by
    unfold yearLen
    split <;> decide
  have hstart := monthStart_mono d.year (Nat.zero_le d.mon)
  have hyday : d.yday = monthStart d.year d.mon + d.mday - 1 := rfl
  rw [monthStart] at hstart
  simp only [Tm.date,Tm.of]
  rw [toInt_small (by omega) (by omega),toInt_small (by omega) (by omega),toInt_small (by omega) (by omega)]
  rw [Int.sub_add_cancel,Int.toNat_natCast]

theorem Tm.of_complete : (Tm.of d hour min sec).complete = Tm.of d hour min sec := by
  rw [Tm.complete,Tm.of_date hd hy hy']
  rfl

variable (h0 : 0 ≤ hour) (h24 : hour < 24) (hmin0 : 0 ≤ min) (hmin : min < 60) (hsec0 : 0 ≤ sec) (hsec : sec < 60)
include h0 h24 hmin0 hmin hsec0 hsec

omit hd hy hy' in
theorem Tm.of_clock : (Tm.of d hour min sec).hour.toInt = hour ∧ (Tm.of d hour min sec).min.toInt = min ∧
    (Tm.of d hour min sec).sec.toInt = sec :=
  ⟨toInt_small h0 (by omega),toInt_small hmin0 (by omega),toInt_small hsec0 (by omega)⟩

theorem Tm.of_valid : (Tm.of d hour min sec).Valid := by
  obtain ⟨hh,hm,hs⟩ := Tm.of_clock (d := d) h0 h24 hmin0 hmin hsec0 hsec
  have hlt := hd.mon_lt
  have hmon : (Tm.of d hour min sec).mon.toInt = d.mon := toInt_small (by omega) (by omega)
  refine ⟨by omega,?_,by omega,by omega,by omega,by omega,by omega,by omega⟩
  rw [Tm.of_date hd hy hy']
  exact hd

theorem Tm.of_secs : (Tm.of d hour min sec).secs = ((d.day * 24 + hour) * 60 + min) * 60 + sec := by
  obtain ⟨hh,hm,hs⟩ := Tm.of_clock (d := d) h0 h24 hmin0 hmin hsec0 hsec
  rw [Tm.secs,Tm.of_date hd hy hy',hh,hm,hs]

end Of

theorem year_range {n : ℤ} (h0 : 0 ≤ n) (hn : n ≤ 49710) (h : yearStart y ≤ n) (h' : n < yearStart (y + 1)) :
    1970 ≤ y ∧ y ≤ 2106 := by
  constructor
  · by_contra hc
    have hmono := yearStart_mono (show y + 1 ≤ 1970 by omega)
    rw [yearStart_origin] at hmono
    omega
  · by_contra hc
    have hmono := yearStart_mono (show 2107 ≤ y by omega)
    rw [show yearStart 2107 = 50038 from rfl] at hmono
    omega

theorem gettime_spec (fuel : ℕ) (t : UInt32) (tp : Tm) : ∃ tm, gettime (fuel + 3) t tp = some (1,tm) ∧
    tm.Valid ∧ tm.complete = tm ∧ tm.secs = t.toNat ∧ 70 ≤ tm.year.toInt := by
  have ht := t.toNat_lt
  obtain ⟨n,hn⟩ : ∃ n : ℤ, n = t.toNat / SECS_PER_DAY := ⟨_,rfl⟩
  obtain ⟨r,hr⟩ : ∃ r : ℤ, r = t.toNat % SECS_PER_DAY := ⟨_,rfl⟩
  have hday : SECS_PER_DAY = 86400 := rfl
  have hhour : SECS_PER_HOUR = 3600 := rfl
  have hn' : 0 ≤ n ∧ n ≤ 49710 := by
    rw [hday] at hn
    omega
  have hr' : 0 ≤ r ∧ r < 86400 := by
    rw [hday] at hr
    omega
  obtain ⟨days,y,hloop,hsum,h0,hlt⟩ := yearLoop_spec fuel hn'.1 hn'.2
  have hsucc := yearStart_succ y
  obtain ⟨hy,hy'⟩ := year_range (y := y) hn'.1 hn'.2 (by omega) (by omega)
  obtain ⟨m,hm,hmon,hmle,hmlt⟩ := monLoop_spec (y := y) h0 (show 11 < 12 by decide) (by rwa [monthStart_year])
  have hd : Date.Valid ⟨y,m,days - monthStart y m + 1⟩ := by
    rw [monthStart] at hmlt
    refine ⟨?_,?_,?_⟩ <;> dsimp only <;> omega
  have hyday : Date.yday ⟨y,m,days - monthStart y m + 1⟩ = days := by
    simp only [Date.yday]
    omega
  have hdn : Date.day ⟨y,m,days - monthStart y m + 1⟩ = n := by
    rw [Date.day,hyday]
    exact hsum
  refine ⟨Tm.of ⟨y,m,days - monthStart y m + 1⟩ (r / 3600) (r % 3600 / 60) (r % 3600 % 60),?_,
    Tm.of_valid hd hy hy' ?_ ?_ ?_ ?_ ?_ ?_,Tm.of_complete hd hy hy',?_,?_⟩
  · have hup : remUp (fuel + 3) n (r + 0) = some (n,r) := by
      rw [Int.add_zero,remUp,if_neg (Int.not_lt.mpr hr'.1)]
    have hdown : remDown (fuel + 3) n r = some (n,r) := by
      rw [remDown,if_neg]
      rw [hday]
      omega
    have hwday : (4 + n).tmod 7 = (4 + n) % 7 := Int.tmod_eq_emod_of_nonneg (by omega)
    have hwday0 : ¬ Int32.ofInt ((4 + n) % 7) < 0 := by
      rw [Int32.lt_iff_toInt_lt,toInt_small (by omega) (by omega),Int32.toInt_zero]
      omega
    have hyear : (Int32.ofInt (y - 1900)).toInt = y - 1900 := toInt_small (by omega) (by omega)
    rw [gettime,offtime,← hn,← hr,hup]
    simp only [Option.bind_eq_bind,Option.bind_some,hdown,hwday,if_neg hwday0,hloop,hyear,ne_eq,not_true_eq_false,
      if_false,hmon,Option.pure_def]
    rw [Tm.of,Date.wday,hyday,hdn,monYday_eq y (by omega),isleap_eq,hhour,Int.tdiv_eq_ediv_of_nonneg hr'.1,
      Int.tmod_eq_emod_of_nonneg hr'.1,Int.tdiv_eq_ediv_of_nonneg (by omega),Int.tmod_eq_emod_of_nonneg (by omega)]
    simp only [decide_eq_true_eq]
  · omega
  · omega
  · omega
  · omega
  · omega
  · omega
  · rw [Tm.of_secs hd hy hy' (by omega) (by omega) (by omega) (by omega) (by omega) (by omega),hdn]
    rw [hday] at hn hr
    omega
  · have hyear : (Int32.ofInt (y - 1900)).toInt = y - 1900 := toInt_small (by omega) (by omega)
    change 70 ≤ (Int32.ofInt (y - 1900)).toInt
    omega

/-- The fields of a valid time follow from its seconds. -/
theorem complete_eq (h : tm.Valid) (h' : tm'.Valid) (he : tm.secs = tm'.secs) : tm.complete = tm'.complete := by
  have h1 := h.hour_nonneg
  have h2 := h.hour_lt
  have h3 := h.min_nonneg
  have h4 := h.min_lt
  have h5 := h.sec_nonneg
  have h6 := h.sec_lt
  have h1' := h'.hour_nonneg
  have h2' := h'.hour_lt
  have h3' := h'.min_nonneg
  have h4' := h'.min_lt
  have h5' := h'.sec_nonneg
  have h6' := h'.sec_lt
  unfold Tm.secs at he
  have hsec : tm.sec = tm'.sec := Int32.toInt_inj.mp (by omega)
  have hmin : tm.min = tm'.min := Int32.toInt_inj.mp (by omega)
  have hhour : tm.hour = tm'.hour := Int32.toInt_inj.mp (by omega)
  have hdate : tm.date = tm'.date := day_inj h.date h'.date (by omega)
  have hyear : tm.year = tm'.year := by
    have hy : tm.year.toInt + 1900 = tm'.year.toInt + 1900 := congrArg Date.year hdate
    exact Int32.toInt_inj.mp (by omega)
  have hmday : tm.mday = tm'.mday := Int32.toInt_inj.mp (congrArg Date.mday hdate)
  have hmon : tm.mon = tm'.mon := by
    have htoNat : tm.mon.toInt.toNat = tm'.mon.toInt.toNat := congrArg Date.mon hdate
    have := h.mon_nonneg
    have := h'.mon_nonneg
    exact Int32.toInt_inj.mp (by omega)
  rw [Tm.complete,Tm.complete,hdate,hsec,hmin,hhour,hyear,hmday,hmon]

/-- A time in seconds is broken down to a valid date and time, from which `mktime` gets it
back; and from what `mktime` makes of a valid date and time, `gettime` gets its fields back
and those that follow from them. -/
theorem mktime_gettime_inverse (fuel : ℕ) (tp : Tm) :
    (∀ t, ∃ tm, gettime (fuel + 3) t tp = some (1,tm) ∧ tm.Valid ∧ tm.complete = tm ∧ mktime tm = t) ∧
    ∀ tm : Tm, tm.Valid → 70 ≤ tm.year.toInt → tm.secs < 2 ^ 32 →
      gettime (fuel + 3) (mktime tm) tp = some (1,tm.complete) := by
  have hof : ∀ (tm : Tm) (t : UInt32), tm.secs = t.toNat → UInt32.ofInt tm.secs = t := by
    intro tm t h
    have ht := t.toNat_lt
    rw [h,UInt32.ofInt,Int.emod_eq_of_lt (by omega) (by omega),Int.toNat_natCast,UInt32.ofNat_toNat]
  refine ⟨fun t => ?_,fun tm h hy hs => ?_⟩
  · obtain ⟨tm,hget,hv,hc,hsecs,hy⟩ := gettime_spec fuel t tp
    have ht := t.toNat_lt
    refine ⟨tm,hget,hv,hc,?_⟩
    rw [mktime_eq hv hy (hv.year_le (by omega))]
    exact hof tm t hsecs
  · have h0 := h.secs_nonneg hy
    have hmk := mktime_eq h hy (h.year_le hs)
    obtain ⟨tm',hget,hv,hc,hsecs,-⟩ := gettime_spec fuel (mktime tm) tp
    have heq : tm'.secs = tm.secs := by
      rw [hsecs,hmk,UInt32.ofInt,Int.emod_eq_of_lt h0 hs,UInt32.toNat_ofNat',Nat.mod_eq_of_lt (by omega)]
      omega
    rw [hget,← hc,complete_eq hv h heq]

end Micron.Kernel.Time

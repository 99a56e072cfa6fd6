import Micron.Kernel.Clock
import Micron.Kernel.Render

/-! # Times as texts

`strtime` writes a time through `sprintf`. The clock is set at boot from the registers of the
clock chip, which hold two decimal digits each, and the time is shown.
-/
namespace Micron.Kernel.Time
open Vsprintf Calendar

def strtime (fuel : ℕ) (t : UInt32) (m : Tm) (stack : Stream' UInt32) : Option (ℕ × List Char) := do
  let (ok,m) ← gettime fuel t m
  if ok = 0 then return (0,[])
  else
    let r ← vsprintf (fun _ => []) "%d-%d-%d %.2d:%.2d:%.2d".toList (Stream'.appendStream'
      [(m.year + 1900).toUInt32,(m.mon + 1).toUInt32,m.mday.toUInt32,m.hour.toUInt32,m.min.toUInt32,m.sec.toUInt32] stack)
    return (r.1.length,r.1)

/-! ## The text -/

def number : Directive := ⟨[],.absent,.absent,none,.d⟩
def twoDigits : Directive := ⟨[],.absent,.numeral 2,none,.d⟩

def stampItems : List Item :=
  [.conv number,.plain '-',.conv number,.plain '-',.conv number,.plain ' ',.conv twoDigits,.plain ':',.conv twoDigits,.plain ':',
    .conv twoDigits]

theorem stampItems_format : format stampItems = "%d-%d-%d %.2d:%.2d:%.2d".toList := by decide

theorem stampItems_ok : ∀ it ∈ stampItems, it.Ok := by
  have hnumber : (Item.conv number).Ok := conv_ok .d
  have htwo : (Item.conv twoDigits).Ok := ⟨absent_small,rfl,by decide⟩
  have hplain : ∀ c : Char, c ≠ '%' → (Item.plain c).Ok := fun c h => h
  simp only [stampItems,List.forall_mem_cons]
  exact ⟨hnumber,hplain _ (by decide),hnumber,hplain _ (by decide),hnumber,hplain _ (by decide),htwo,hplain _ (by decide),htwo,
    hplain _ (by decide),htwo,List.forall_mem_nil _⟩

def decimal (n : ℕ) : List Char := Numeral.numeral (digit SIGN) 10 n

def padded (n : ℕ) : List Char := List.replicate (2 - (decimal n).length) '0' ++ decimal n

def stamp (year mon mday hour min sec : ℕ) : List Char :=
  decimal year ++ '-' :: (decimal mon ++ '-' ::
    (decimal mday ++ ' ' :: (padded hour ++ ':' :: (padded min ++ ':' :: padded sec))))

def numbers (t : List Char) : List ℕ := (t.splitOnP fun c => !c.isDigit).map (Numeral.valueOf (fun c => c.toNat - 48) 10)

section
variable {v : UInt32} {n : ℕ}

theorem signText_nat (h : v.toInt32.toInt = n) : signText v.toInt32 SIGN = [] := by
  rw [signText,if_neg]
  · rfl
  · rw [Int32.lt_iff_toInt_lt,h,Int32.toInt_zero]
    omega

theorem number_rendered (mem : UInt32 → List Char) (h : v.toInt32.toInt = n) : number.rendered mem v = decimal n := by
  rw [number,dec_rendered,dec,signText_nat h,h]
  rfl

theorem twoDigits_rendered (mem : UInt32 → List Char) (h : v.toInt32.toInt = n) : twoDigits.rendered mem v = padded n := by
  have hmag : magnitude v.toInt32 SIGN = n := by
    rw [magnitude,if_pos (by decide),h]
    rfl
  have hmissing : missing v.toInt32 10 (-1) 2 SIGN = 0 := by
    rw [missing,show (-1 : Int32).toInt = -1 from rfl]
    omega
  have hbody : body v.toInt32 10 2 SIGN = padded n := by
    rw [body,numeral_eq,hmag]
    rfl
  change formatted v.toInt32 10 (-1) 2 SIGN = _
  rw [formatted,hmissing,hbody,signText_nat h,show prefixText 10 SIGN = [] by decide]
  simp

theorem decimal_digits : ∀ c ∈ decimal n, c.isDigit = true := by
  intro c hc
  have hdigit : ∀ d < 10, (digit SIGN d).isDigit = true := by decide
  obtain ⟨d,hd,rfl⟩ := Numeral.mem_numeral (by decide) hc
  exact hdigit d hd

theorem decimal_value : Numeral.valueOf (fun c : Char => c.toNat - 48) 10 (decimal n) = n := by
  apply Numeral.valueOf_numeral _ (by decide)
  decide

theorem padded_digits : ∀ c ∈ padded n, c.isDigit = true := by
  intro c hc
  obtain hc | hc := List.mem_append.mp hc
  · rw [List.eq_of_mem_replicate hc]
    rfl
  · exact decimal_digits c hc

theorem padded_value : Numeral.valueOf (fun c : Char => c.toNat - 48) 10 (padded n) = n := by
  have hzeros : ∀ k, Numeral.valueOf (fun c : Char => c.toNat - 48) 10 (List.replicate k '0' ++ decimal n) = n := by
    intro k
    induction k with
    | zero => exact decimal_value
    | succ k ih => exact ih
  exact hzeros _

theorem numbers_cons {t rest : List Char} {c : Char} (ht : ∀ c ∈ t, c.isDigit = true) (hc : c.isDigit = false) :
    numbers (t ++ c :: rest) = Numeral.valueOf (fun c => c.toNat - 48) 10 t :: numbers rest := by
  rw [numbers,List.splitOnP_append_cons_of_forall_mem (fun c hc => by rw [ht c hc]; rfl) c (by rw [hc]; rfl)]
  rfl

theorem numbers_last {t : List Char} (ht : ∀ c ∈ t, c.isDigit = true) :
    numbers t = [Numeral.valueOf (fun c => c.toNat - 48) 10 t] := by
  rw [numbers,List.splitOnP_eq_singleton fun c hc => by rw [ht c hc]; rfl]
  rfl

theorem numbers_stamp (year mon mday hour min sec : ℕ) :
    numbers (stamp year mon mday hour min sec) = [year,mon,mday,hour,min,sec] := by
  rw [stamp,numbers_cons decimal_digits rfl,numbers_cons decimal_digits rfl,numbers_cons decimal_digits rfl,
    numbers_cons padded_digits rfl,numbers_cons padded_digits rfl,numbers_last padded_digits]
  simp only [decimal_value,padded_value]

theorem decimal_length {k : ℕ} (hk : 0 < k) (h : n < 10 ^ k) : (decimal n).length ≤ k := by
  rw [decimal,Numeral.numeral]
  split
  · exact hk
  · rw [List.length_reverse,List.length_map,Nat.digits_length_le_iff (by decide)]
    exact h

theorem padded_length (h : n < 100) : (padded n).length = 2 := by
  have hle := decimal_length (k := 2) (by decide) h
  rw [padded,List.length_append,List.length_replicate]
  omega

theorem stamp_length {year mon mday hour min sec : ℕ} (h1 : year < 10000) (h2 : mon < 100) (h3 : mday < 100) (h4 : hour < 100)
    (h5 : min < 100) (h6 : sec < 100) : (stamp year mon mday hour min sec).length ≤ 19 := by
  have hyear := decimal_length (k := 4) (by decide) h1
  have hmon := decimal_length (k := 2) (by decide) h2
  have hmday := decimal_length (k := 2) (by decide) h3
  rw [stamp]
  simp only [List.length_append,List.length_cons,padded_length h4,padded_length h5,padded_length h6]
  omega

theorem stamp_rendered {y mo d h mi s : UInt32} {year mon mday hour min sec : ℕ} (h1 : y.toInt32.toInt = year)
    (h2 : mo.toInt32.toInt = mon) (h3 : d.toInt32.toInt = mday) (h4 : h.toInt32.toInt = hour) (h5 : mi.toInt32.toInt = min)
    (h6 : s.toInt32.toInt = sec) (mem : UInt32 → List Char) (stack : Stream' UInt32) :
    (render mem 0 stampItems (Stream'.appendStream' [y,mo,d,h,mi,s] stack)).1 = stamp year mon mday hour min sec := by
  simp only [stampItems,Stream'.cons_append_stream,render_conv,render_plain]
  rw [number_rendered mem h1,number_rendered mem h2,number_rendered mem h3,twoDigits_rendered mem h4,twoDigits_rendered mem h5,
    twoDigits_rendered mem h6]
  simp [stamp,render]

end

def Tm.text (tm : Tm) : List Char :=
  stamp (tm.year.toInt + 1900).toNat (tm.mon.toInt.toNat + 1) tm.mday.toInt.toNat tm.hour.toInt.toNat tm.min.toInt.toNat
    tm.sec.toInt.toNat

theorem Tm.Valid.mday_le {tm : Tm} (h : tm.Valid) : tm.mday.toInt ≤ 31 := h.date.mday_le.trans (monthLen_le _ _)

/-- What `strtime` passes to `sprintf` is in range, so it is shown as it is. -/
theorem Tm.Valid.shown {tm : Tm} (h : tm.Valid) (hy : 70 ≤ tm.year.toInt) (hy' : tm.year.toInt ≤ 206) (mem : UInt32 → List Char)
    (stack : Stream' UInt32) : (render mem 0 stampItems (Stream'.appendStream' [(tm.year + 1900).toUInt32,(tm.mon + 1).toUInt32,
      tm.mday.toUInt32,tm.hour.toUInt32,tm.min.toUInt32,tm.sec.toUInt32] stack)).1 = tm.text := by
  have hmon := h.mon_nonneg
  have hlt : tm.mon.toInt.toNat < 12 := h.date.mon_lt
  have hmday := h.date.mday_pos
  have hyear : (tm.year + 1900).toInt = tm.year.toInt + 1900 := by
    rw [Int32.toInt_add,show (1900 : Int32).toInt = 1900 from rfl]
    exact Int.bmod_eq_of_le (by omega) (by omega)
  have hmon' : (tm.mon + 1).toInt = tm.mon.toInt + 1 := by
    rw [Int32.toInt_add,show (1 : Int32).toInt = 1 from rfl]
    exact Int.bmod_eq_of_le (by omega) (by omega)
  apply stamp_rendered
  · rw [Int32.toInt32_toUInt32]
    omega
  · rw [Int32.toInt32_toUInt32]
    omega
  · exact (Int.toNat_of_nonneg (Int.le_trans Int.one_nonneg hmday)).symm
  · exact (Int.toNat_of_nonneg h.hour_nonneg).symm
  · exact (Int.toNat_of_nonneg h.min_nonneg).symm
  · exact (Int.toNat_of_nonneg h.sec_nonneg).symm

theorem strtime_spec (fuel : ℕ) (t : UInt32) (tp : Tm) (stack : Stream' UInt32) : ∃ tm, gettime (fuel + 3) t tp = some (1,tm) ∧
    tm.Valid ∧ tm.secs = t.toNat ∧ 70 ≤ tm.year.toInt ∧ tm.year.toInt ≤ 206 ∧
      strtime (fuel + 3) t tp stack = some (tm.text.length,tm.text) := by
  have ht := t.toNat_lt
  obtain ⟨tm,hget,hv,-,hsecs,hy⟩ := gettime_spec fuel t tp
  have hy' := hv.year_le (by omega)
  have hprint : ∀ args,
      vsprintf (fun _ => []) "%d-%d-%d %.2d:%.2d:%.2d".toList args = some (render (fun _ => []) 0 stampItems args) := by
    intro args
    rw [← stampItems_format]
    exact vsprintfLoop_items stampItems_ok (fun _ => by decide) (Nat.le_refl _)
  refine ⟨tm,hget,hv,hsecs,hy,hy',?_⟩
  rw [strtime,hget,Option.bind_eq_bind,Option.bind_some]
  simp only [hprint,Option.bind_eq_bind,Option.bind_some,hv.shown hy hy']
  rfl

theorem Tm.Valid.text_length {tm : Tm} (h : tm.Valid) (hy' : tm.year.toInt ≤ 206) : tm.text.length ≤ 19 := by
  have hlt : tm.mon.toInt.toNat < 12 := h.date.mon_lt
  have hmday := h.mday_le
  have hhour := h.hour_lt
  have hmin := h.min_lt
  have hsec := h.sec_lt
  apply stamp_length <;> omega

theorem Tm.Valid.text_inj {tm tm' : Tm} (h : tm.Valid) (hy : 70 ≤ tm.year.toInt) (h' : tm'.Valid) (hy' : 70 ≤ tm'.year.toInt)
    (ht : tm.text = tm'.text) : tm.secs = tm'.secs := by
  have hnumbers := congrArg numbers ht
  rw [Tm.text,Tm.text,numbers_stamp,numbers_stamp] at hnumbers
  simp only [List.cons.injEq] at hnumbers
  obtain ⟨hyear,hmon,hmday,hhour,hmin,hsec,-⟩ := hnumbers
  have hdate : tm.date = tm'.date := by
    have hpos := h.date.mday_pos
    have hpos' := h'.date.mday_pos
    simp only [Tm.date] at hpos hpos'
    simp only [Tm.date,Date.mk.injEq]
    exact ⟨by omega,by omega,by omega⟩
  have := h.hour_nonneg
  have := h.min_nonneg
  have := h.sec_nonneg
  have := h'.hour_nonneg
  have := h'.min_nonneg
  have := h'.sec_nonneg
  rw [Tm.secs,Tm.secs,hdate]
  omega

/-- Every time is shown in at most 19 characters, from which its numbers are read back; so no two times are
shown alike. -/
theorem strtime_reads_back (fuel : ℕ) (t : UInt32) (tp : Tm) (stack : Stream' UInt32) : ∃ tm text,
    gettime (fuel + 3) t tp = some (1,tm) ∧ strtime (fuel + 3) t tp stack = some (text.length,text) ∧ text.length ≤ 19 ∧
    numbers text =
      [(tm.year.toInt + 1900).toNat,tm.mon.toInt.toNat + 1,tm.mday.toInt.toNat,tm.hour.toInt.toNat,tm.min.toInt.toNat,
      tm.sec.toInt.toNat] ∧
    ∀ t', strtime (fuel + 3) t' tp stack = some (text.length,text) → t' = t := by
  obtain ⟨tm,hget,hv,hsecs,hy,hle,hprint⟩ := strtime_spec fuel t tp stack
  refine ⟨tm,tm.text,hget,hprint,hv.text_length hle,numbers_stamp _ _ _ _ _ _,?_⟩
  intro t' h'
  obtain ⟨tm',-,hv',hsecs',hy',-,hprint'⟩ := strtime_spec fuel t' tp stack
  have htext : tm'.text = tm.text := by
    rw [h'] at hprint'
    exact (congrArg Prod.snd (Option.some.inj hprint')).symm
  have heq := hv'.text_inj hy' hv hy htext
  exact UInt32.toNat_inj.mp (by omega)

end Micron.Kernel.Time

/-! ## The clock at boot -/

namespace Micron.Kernel.Clock
open Systimer Time Calendar

def bcd (n : ℕ) : UInt8 := (n / 10 * 16 + n % 10).toUInt8

theorem bcd_read : ∀ n < 100, (BCD2HEXB (bcd n)).toInt = n := by decide

structure Shows (cmos : UInt8 → UInt8) (year mon mday hour min sec : ℕ) : Prop where
  sec : cmos 0 = bcd sec
  min : cmos 2 = bcd min
  hour : cmos 4 = bcd hour
  mday : cmos 7 = bcd mday
  mon : cmos 8 = bcd mon
  year : cmos 9 = bcd (year % 100)

structure Moment (year mon mday hour min sec : ℕ) : Prop where
  year_le : 1970 ≤ year
  year_lt : year < 2070
  mon_pos : 0 < mon
  date : Date.Valid ⟨year,mon - 1,mday⟩
  hour_lt : hour < 24
  min_lt : min < 60
  sec_lt : sec < 60

/-- `mktime` takes years before 70 for those after 2000. -/
theorem mktime_century {t : Tm} (h0 : 0 ≤ t.year.toInt) (h70 : t.year.toInt < 70) :
    mktime t = mktime { t with year := t.year + 100 } := by
  have hyear : (t.year + 100).toInt = t.year.toInt + 100 := by
    rw [Int32.toInt_add,show (100 : Int32).toInt = 100 from rfl]
    exact Int.bmod_eq_of_le (by omega) (by omega)
  have hsum : ∀ m : ℤ, t.year.toInt + 100 + m + 1900 = t.year.toInt + m + 2000 := by
    intro m
    omega
  simp only [mktime,hyear,if_pos h70,if_neg (show ¬ t.year.toInt + 100 < 70 by omega),hsum]

def fields (cmos : UInt8 → UInt8) (t : Tm) : Tm :=
  { t with
    sec := BCD2HEXB (cmos 0)
    min := BCD2HEXB (cmos 2)
    hour := BCD2HEXB (cmos 4)
    mday := BCD2HEXB (cmos 7)
    mon := BCD2HEXB (cmos 8) - 1
    year := if (BCD2HEXB (cmos 9)).toInt < 70 then BCD2HEXB (cmos 9) + 100 else BCD2HEXB (cmos 9) }

section
variable {cmos : UInt8 → UInt8} {year mon mday hour min sec : ℕ} (h : Shows cmos year mon mday hour min sec)
  (hm : Moment year mon mday hour min sec)
include h

theorem rtcInit_second (t : Tm) (timers : Timers) : (rtcInit cmos t timers).rtc_second = mktime (fields cmos t) := by
  have hyear := bcd_read (year % 100) (Nat.mod_lt _ (by decide))
  rw [← h.year] at hyear
  rw [rtcInit,fields]
  split
  · apply mktime_century
    · dsimp only
      omega
    · assumption
  · rfl

include hm

theorem fields_year (t : Tm) : (fields cmos t).year.toInt + 1900 = year := by
  have hyear := bcd_read (year % 100) (Nat.mod_lt _ (by decide))
  have := hm.year_le
  have := hm.year_lt
  rw [← h.year] at hyear
  rw [fields]
  dsimp only
  split
  · rw [Int32.toInt_add,show (100 : Int32).toInt = 100 from rfl,Int.bmod_eq_of_le (by omega) (by omega)]
    omega
  · omega

theorem fields_date (t : Tm) : (fields cmos t).mon.toInt = mon - 1 ∧ (fields cmos t).mday.toInt = mday := by
  have hpos := hm.mon_pos
  have hlt := hm.date.mon_lt
  have hle := hm.date.mday_le.trans (monthLen_le _ _)
  dsimp only at hlt hle
  have hmon := bcd_read mon (by omega)
  have hmday := bcd_read mday (by omega)
  rw [← h.mon] at hmon
  rw [← h.mday] at hmday
  refine ⟨?_,hmday⟩
  rw [fields]
  dsimp only
  rw [Int32.toInt_sub,hmon,show (1 : Int32).toInt = 1 from rfl,Int.bmod_eq_of_le (by omega) (by omega)]

theorem fields_clock (t : Tm) : (fields cmos t).hour.toInt = hour ∧ (fields cmos t).min.toInt = min ∧
    (fields cmos t).sec.toInt = sec := by
  have hhour := bcd_read hour (Nat.lt_trans hm.hour_lt (by decide))
  have hmin := bcd_read min (Nat.lt_trans hm.min_lt (by decide))
  have hsec := bcd_read sec (Nat.lt_trans hm.sec_lt (by decide))
  rw [← h.hour] at hhour
  rw [← h.min] at hmin
  rw [← h.sec] at hsec
  exact ⟨hhour,hmin,hsec⟩

theorem fields_valid (t : Tm) : (fields cmos t).Valid := by
  have hpos := hm.mon_pos
  have := hm.hour_lt
  have := hm.min_lt
  have := hm.sec_lt
  have hyear := fields_year h hm t
  obtain ⟨hmon,hmday⟩ := fields_date h hm t
  obtain ⟨hhour,hmin,hsec⟩ := fields_clock h hm t
  have hdate : (fields cmos t).date = ⟨year,mon - 1,mday⟩ := by
    rw [Tm.date,hyear,hmon,hmday]
    congr 1
    omega
  refine ⟨by omega,?_,by omega,by omega,by omega,by omega,by omega,by omega⟩
  rw [hdate]
  exact hm.date

theorem fields_text (t : Tm) : (fields cmos t).text = stamp year mon mday hour min sec := by
  have hpos := hm.mon_pos
  have hyear := fields_year h hm t
  obtain ⟨hmon,hmday⟩ := fields_date h hm t
  obtain ⟨hhour,hmin,hsec⟩ := fields_clock h hm t
  rw [Tm.text,hyear,hmon,hmday,hhour,hmin,hsec]
  congr 1
  omega

theorem fields_secs (t : Tm) (timers : Timers) : (rtcInit cmos t timers).rtc_second.toNat = (fields cmos t).secs := by
  have hv := fields_valid h hm t
  have hyear := fields_year h hm t
  have hge := hm.year_le
  have hlt := hm.year_lt
  have hday := hv.date.day_year.2
  have hend : yearStart ((fields cmos t).date.year + 1) ≤ yearStart 2070 := yearStart_mono (by simp only [Tm.date]; omega)
  rw [show yearStart 2070 = 36525 from rfl] at hend
  have hbound : (fields cmos t).secs < 2 ^ 32 := by
    have := hv.hour_lt
    have := hv.min_lt
    have := hv.sec_lt
    unfold Tm.secs
    omega
  have h0 := hv.secs_nonneg (by omega)
  rw [rtcInit_second h,mktime_eq hv (by omega) (by omega),UInt32.ofInt,Int.emod_eq_of_lt h0 hbound,UInt32.toNat_ofNat',
    Nat.mod_eq_of_lt (by omega)]
  omega

theorem boot_shown (t : Tm) (timers : Timers) (fuel : ℕ) (tp : Tm) (stack : Stream' UInt32) :
    strtime (fuel + 3) (rtcInit cmos t timers).rtc_second tp stack =
      some ((stamp year mon mday hour min sec).length,stamp year mon mday hour min sec) := by
  obtain ⟨tm,-,hv,hsecs,-,-,hprint⟩ := strtime_spec fuel (rtcInit cmos t timers).rtc_second tp stack
  rw [fields_secs h hm] at hsecs
  have htext : tm.text = stamp year mon mday hour min sec := by
    have hcomplete : ∀ tm : Tm, tm.complete.text = tm.text := fun _ => rfl
    rw [← fields_text h hm t,← hcomplete tm,complete_eq hv (fields_valid h hm t) hsecs]
    exact hcomplete _
  rw [hprint,htext]

end

/-- In `n` calls the seconds fall behind by less than one, and get ahead by less than one and by
40 ms each time the counter wraps around. -/
theorem second_drift (act : Handler → Timers → Timers) (c : Clock) (n : ℕ) : ∃ s : ℕ,
    ((rtcIntr act)^[n] c).rtc_second = c.rtc_second + s.toUInt32 ∧
      n < 100 * s + 100 ∧ 100 * s < n + 100 + 4 * (n / 2 ^ 32 + 1) := by
  have hlt := c.rtc_time.toNat_lt
  have hsecond := iterate_second act (c := c) (n := n)
  have hmarks := bumps_eq act (c := c) (n := 0) (m := n)
  rw [Nat.add_zero] at hmarks
  refine ⟨bumps act c 0 n,?_,?_⟩
  · have hsum : (marks (c.rtc_time.toNat + n)).toUInt32 = (marks c.rtc_time.toNat).toUInt32 + (bumps act c 0 n).toUInt32 := by
      rw [hmarks]
      exact UInt32.ofNat_add _ _
    rw [hsum,UInt32.add_comm (marks _).toUInt32,← UInt32.add_assoc] at hsecond
    exact (UInt32.add_left_inj _).mp hsecond
  · unfold marks at hmarks
    omega

/-- A clock set from a chip that shows a moment is shown as that moment at boot, and keeps time
from then on. -/
theorem clock_keeps_time {cmos : UInt8 → UInt8} {year mon mday hour min sec : ℕ} (h : Shows cmos year mon mday hour min sec)
    (hm : Moment year mon mday hour min sec) (t : Tm) (timers : Timers) (act : Handler → Timers → Timers) (fuel : ℕ) (tp : Tm)
    (stack : Stream' UInt32) :
    strtime (fuel + 3) (rtcInit cmos t timers).rtc_second tp stack =
      some ((stamp year mon mday hour min sec).length,stamp year mon mday hour min sec) ∧
    ∀ n, ∃ s : ℕ, ((rtcIntr act)^[n] (rtcInit cmos t timers)).rtc_second = (rtcInit cmos t timers).rtc_second + s.toUInt32 ∧
      n < 100 * s + 100 ∧ 100 * s < n + 100 + 4 * (n / 2 ^ 32 + 1) :=
  ⟨boot_shown h hm t timers fuel tp stack,second_drift act _⟩

def october : UInt8 → UInt8
  | 0 => 0x59
  | 2 => 0x07
  | 4 => 0x09
  | 7 => 0x21
  | 8 => 0x10
  | 9 => 0x07
  | _ => 0

theorem clock_keeps_october : strtime 3 (rtcInit october ⟨0,0,0,0,0,0,0,0,0⟩ (Systimer.boot fun _ => ⟨0,0,0⟩)).rtc_second
    ⟨0,0,0,0,0,0,0,0,0⟩ (Stream'.const 0) = some (19,"2007-10-21 09:07:59".toList) := by
  have hs : Shows october 2007 10 21 9 7 59 := ⟨rfl,rfl,rfl,rfl,rfl,rfl⟩
  have hm : Moment 2007 10 21 9 7 59 :=
    ⟨by decide,by decide,by decide,⟨by decide,by decide,by decide⟩,by decide,by decide,by decide⟩
  have hclock := clock_keeps_time hs hm ⟨0,0,0,0,0,0,0,0,0⟩ (Systimer.boot fun _ => ⟨0,0,0⟩) (fun _ s => s) 0 ⟨0,0,0,0,0,0,0,0,0⟩
    (Stream'.const 0)
  exact hclock.1.trans (by decide +kernel)

end Micron.Kernel.Clock

import Mathlib.Logic.Function.Iterate
import Micron.Kernel.Systimer
import Micron.Kernel.Time

/-! # The clock interrupt

`rtc_intr` counts its calls in `rtc_time` and takes every call that leaves a multiple of
`RTC_FREQUENCY` there for a full second. The number of values of `rtc_time` is no such multiple,
so the last second before the counter wraps around is cut short.
-/
namespace Micron.Kernel
open Systimer Time

structure Clock where
  rtc_time : UInt32
  rtc_second : UInt32
  timers : Timers

namespace Clock
variable (act : Handler → Timers → Timers) {c : Clock} {n m : ℕ}

def rtcIntr (c : Clock) : Clock :=
  let time := c.rtc_time + 1
  let second := if time % RTC_FREQUENCY.toUInt32 = 0 then c.rtc_second + 1 else c.rtc_second
  ⟨time,second,(timerRolling act c.timers).1⟩

def BCD2HEXB (bcd : UInt8) : Int32 := ((bcd &&& 0xf).toUInt32 + ((bcd >>> 4) &&& 0xf).toUInt32 * 10).toInt32

/-- The counters after `rtc_init` with the registers `cmos` of the clock chip; `t` is what the
local variable held before. -/
def rtcInit (cmos : UInt8 → UInt8) (t : Tm) (timers : Timers) : Clock :=
  let t := { t with
    sec := BCD2HEXB (cmos 0)
    min := BCD2HEXB (cmos 2)
    hour := BCD2HEXB (cmos 4)
    mday := BCD2HEXB (cmos 7)
    mon := BCD2HEXB (cmos 8) - 1
    year := BCD2HEXB (cmos 9) }
  ⟨mktime t * 1000,mktime t,timers⟩

/-! ## One call -/

theorem rtcIntr_time : (rtcIntr act c).rtc_time.toNat = (c.rtc_time.toNat + 1) % 2 ^ 32 := by
  simp [rtcIntr]

theorem rtcIntr_second : (rtcIntr act c).rtc_second =
    if (c.rtc_time.toNat + 1) % 2 ^ 32 % 100 = 0 then c.rtc_second + 1 else c.rtc_second := by
  have hmod : (c.rtc_time + 1) % RTC_FREQUENCY.toUInt32 = 0 ↔ (c.rtc_time.toNat + 1) % 2 ^ 32 % 100 = 0 := by
    rw [← UInt32.toNat_inj,UInt32.toNat_mod,UInt32.toNat_add]
    exact Iff.rfl
  simp only [rtcIntr,hmod]

/-- A call counts a second when it leaves a multiple of the frequency in `rtc_time`. -/
theorem second_changes : (rtcIntr act c).rtc_second ≠ c.rtc_second ↔ (c.rtc_time.toNat + 1) % 2 ^ 32 % 100 = 0 := by
  rw [rtcIntr_second]
  split
  · rename_i h
    exact ⟨fun _ => h,fun _ => by simp⟩
  · rename_i h
    exact ⟨fun hne => absurd rfl hne,fun h' => absurd h' h⟩

/-! ## Runs -/

theorem iterate_time : ((rtcIntr act)^[n] c).rtc_time.toNat = (c.rtc_time.toNat + n) % 2 ^ 32 := by
  induction n with
  | zero => exact (Nat.mod_eq_of_lt c.rtc_time.toNat_lt).symm
  | succ n ih =>
    rw [Function.iterate_succ_apply',rtcIntr_time,ih]
    omega

def bumps (c : Clock) (n m : ℕ) : ℕ :=
  (List.range m).countP (fun k => ((rtcIntr act)^[n + k + 1] c).rtc_second ≠ ((rtcIntr act)^[n + k] c).rtc_second)

/-- The seconds that a counter of 32 bits has counted at time `x`: one for each multiple of 100, the
0 of every turn included. -/
def marks (x : ℕ) : ℕ := x / 2 ^ 32 * 42949673 + x % 2 ^ 32 / 100

theorem marks_succ (x : ℕ) : marks (x + 1) = marks x + if (x + 1) % 2 ^ 32 % 100 = 0 then 1 else 0 := by
  unfold marks
  split <;> omega

theorem bumps_eq : marks (c.rtc_time.toNat + n + m) = marks (c.rtc_time.toNat + n) + bumps act c n m := by
  induction m with
  | zero => simp [bumps]
  | succ m ih =>
    have hstep := second_changes act (c := (rtcIntr act)^[n + m] c)
    rw [iterate_time,← Function.iterate_succ_apply' (rtcIntr act)] at hstep
    have hbumps : bumps act c n (m + 1) = bumps act c n m +
        if (c.rtc_time.toNat + n + m + 1) % 2 ^ 32 % 100 = 0 then 1 else 0 := by
      have hmod : ((c.rtc_time.toNat + (n + m)) % 2 ^ 32 + 1) % 2 ^ 32 = (c.rtc_time.toNat + n + m + 1) % 2 ^ 32 := by omega
      rw [hmod] at hstep
      rw [bumps,bumps,List.range_succ,List.countP_append,List.countP_singleton]
      simp only [decide_eq_true_eq,hstep]
    rw [← Nat.add_assoc,marks_succ,ih,hbumps,Nat.add_assoc]

theorem iterate_second : ((rtcIntr act)^[n] c).rtc_second + (marks c.rtc_time.toNat).toUInt32 =
    c.rtc_second + (marks (c.rtc_time.toNat + n)).toUInt32 := by
  induction n with
  | zero => rw [Nat.add_zero,Function.iterate_zero_apply]
  | succ n ih =>
    have hmod : ((c.rtc_time.toNat + n) % 2 ^ 32 + 1) % 2 ^ 32 = (c.rtc_time.toNat + n + 1) % 2 ^ 32 := by omega
    rw [Function.iterate_succ_apply',rtcIntr_second,iterate_time,hmod,← Nat.add_assoc,marks_succ]
    split
    · rw [UInt32.add_assoc,UInt32.add_comm 1,← UInt32.add_assoc,ih,UInt32.add_assoc]
      exact congrArg (c.rtc_second + ·) (UInt32.ofNat_add _ 1).symm
    · rw [Nat.add_zero,ih]

/-- In a run of the interrupt, 100 calls in a row count exactly one second unless the first of
them falls on one of four values shortly before the counter wraps around. -/
theorem second_exact_iff (c : Clock) (n : ℕ) : bumps act c n 100 = 1 ↔
    ¬ (2 ^ 32 - 100 ≤ ((rtcIntr act)^[n] c).rtc_time.toNat ∧ ((rtcIntr act)^[n] c).rtc_time.toNat < 2 ^ 32 - 96) := by
  have hbumps := bumps_eq act (c := c) (n := n) (m := 100)
  rw [iterate_time]
  unfold marks at hbumps
  omega

/-- Some time later a second passes twice in 100 calls. -/
theorem bumps_twice (c : Clock) : ∃ n, bumps act c n 100 = 2 := by
  have hlt := c.rtc_time.toNat_lt
  refine ⟨2 ^ 33 - 100 - c.rtc_time.toNat,?_⟩
  have hbumps := bumps_eq act (c := c) (n := 2 ^ 33 - 100 - c.rtc_time.toNat) (m := 100)
  rw [show c.rtc_time.toNat + (2 ^ 33 - 100 - c.rtc_time.toNat) = 2 ^ 33 - 100 by omega] at hbumps
  unfold marks at hbumps
  omega

/-- A clock that starts at zero, with no timers. -/
theorem second_twice : ∃ n, bumps (fun _ s => s)
    (rtcInit (fun _ => 0) ⟨0,0,0,0,0,0,0,0,0⟩ (Systimer.boot fun _ => ⟨0,0,0⟩)) n 100 = 2 := bumps_twice _ _

end Clock
end Micron.Kernel

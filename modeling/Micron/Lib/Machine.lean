import Mathlib.Data.Int.Notation
import Mathlib.Data.Nat.Notation
import Mathlib.Tactic.NormNum

/-! # Signed machine integers in the range of the natural numbers

Arithmetic on `Int32` values that stand for natural numbers and stay below `2 ^ 31`.
-/
namespace Micron.Machine
variable {a b : Int32} {m n : ℕ}

theorem toInt_add (ha : a.toInt = m) (hb : b.toInt = n) (h : m + n < 2 ^ 31) : (a + b).toInt = (m + n : ℕ) := by
  rw [Int32.toInt_add,ha,hb]
  rw [Int.bmod_eq_of_le (by omega) (by omega)]
  rfl

theorem toInt_sub (ha : a.toInt = m) (hb : b.toInt = n) (h : n ≤ m) : (a - b).toInt = (m - n : ℕ) := by
  have hlt := a.toInt_lt
  rw [Int32.toInt_sub,ha,hb]
  rw [Int.bmod_eq_of_le (by omega) (by omega),Int.natCast_sub h]

/-- A value that something is below can be decreased. -/
theorem toInt_sub_one (h : b < a) : (a - 1).toInt = a.toInt - 1 := by
  have hlt := a.toInt_lt
  have hle := b.le_toInt
  rw [Int32.lt_iff_toInt_lt] at h
  rw [Int32.toInt_sub,show (1 : Int32).toInt = 1 from rfl,Int.bmod_eq_of_le (by omega) (by omega)]

theorem toInt_mul (ha : a.toInt = m) (hb : b.toInt = n) (h : m * n < 2 ^ 31) : (a * b).toInt = (m * n : ℕ) := by
  rw [Int32.toInt_mul,ha,hb,← Int.natCast_mul]
  exact Int.bmod_eq_of_le (by omega) (by omega)

theorem toInt_div (ha : a.toInt = m) (hb : b.toInt = n) : (a / b).toInt = (m / n : ℕ) := by
  have hlt := a.toInt_lt
  have hle := Nat.div_le_self m n
  have hnn := Int.natCast_nonneg (m / n)
  rw [Int32.toInt_div,ha,hb,← Int.ofNat_tdiv]
  exact Int.bmod_eq_of_le (by omega) (by omega)

theorem toInt_mod (ha : a.toInt = m) (hb : b.toInt = n) : (a % b).toInt = (m % n : ℕ) := by
  rw [Int32.toInt_mod,ha,hb]
  exact Int.ofNat_tmod m n

theorem toInt_ofNat (h : n < 2 ^ 31) : n.toInt32.toInt = n := by
  rw [show n.toInt32 = Int32.ofNat n from rfl,Int32.toInt_ofNat_of_lt h]

theorem toNatClampNeg_eq (ha : a.toInt = m) : a.toNatClampNeg = m := by
  rw [← Int32.toNat_toInt,ha,Int.toNat_natCast]

theorem toInt_eq (h : 0 ≤ a.toInt) : a.toInt = a.toNatClampNeg := by
  rw [← Int32.toNat_toInt,Int.toNat_of_nonneg h]

theorem lt_iff (ha : a.toInt = m) (hb : b.toInt = n) : a < b ↔ m < n := by
  rw [Int32.lt_iff_toInt_lt,ha,hb,Int.ofNat_lt]

theorem not_neg (ha : a.toInt = m) : ¬ a < 0 := by
  rw [Int32.lt_iff_toInt_lt,ha,Int32.toInt_zero]
  omega

theorem toNat_toUInt32 (ha : a.toInt = m) : a.toUInt32.toNat = m := by
  have hz : 0 ≤ a := by
    rw [Int32.le_iff_toInt_le,ha,Int32.toInt_zero]
    omega
  rw [Int32.toNat_toUInt32_of_le hz,toNatClampNeg_eq ha]

theorem toNat_range {lo hi : Int32} (hlo : lo.toInt = m) (hhi : hi.toInt = n) (h : lo ≤ a) (h' : a ≤ hi) :
    m ≤ a.toUInt32.toNat ∧ a.toUInt32.toNat ≤ n := by
  rw [Int32.le_iff_toInt_le] at h h'
  have hnat := toNat_toUInt32 (toInt_eq (show 0 ≤ a.toInt by omega))
  rw [← Int32.toNat_toInt] at hnat
  omega

/-- Signed and unsigned reading of the same bits. -/
theorem toInt_bmod (a : Int32) : a.toInt = (a.toUInt32.toNat : ℤ).bmod (2 ^ 32) := BitVec.toInt_eq_toNat_bmod _

theorem toNat_emod (a : Int32) : (a.toUInt32.toNat : ℤ) = a.toInt % (2 ^ 32 : ℕ) := by
  have hlt : (a.toUInt32.toNat : ℤ) < (2 ^ 32 : ℕ) := Int.ofNat_lt.mpr a.toUInt32.toNat_lt
  rw [toInt_bmod,Int.bmod_emod,Int.emod_eq_of_lt (Int.natCast_nonneg _) hlt]

theorem toInt_of_lt (h : a.toUInt32.toNat < 2 ^ 31) : a.toInt = a.toUInt32.toNat := by
  rw [toInt_bmod]
  exact Int.bmod_eq_of_le (by omega) (by omega)

theorem toInt32_eq (v : UInt32) : v.toInt32 = Int32.ofNat v.toNat := by
  rw [← UInt32.toInt32_ofNat',UInt32.ofNat_toNat]

theorem toInt_toInt32 {v : UInt32} (h : v.toNat < 2 ^ 31) : v.toInt32.toInt = v.toNat := by
  rw [toInt32_eq,Int32.toInt_ofNat_of_lt h]

/-- An offset that is added to a position, seen as an unsigned number. -/
theorem toNat_add_toInt32 {v : UInt32} (h : m + v.toNat < 2 ^ 32) :
    (Int32.ofNat m + v.toInt32).toUInt32.toNat = m + v.toNat := by
  rw [toInt32_eq,← Int32.ofNat_add,Int32.toUInt32_ofNat',UInt32.toNat_ofNat',Nat.mod_eq_of_lt h]

theorem toNat_sub (v w : UInt32) : (v - w).toNat = (v.toNat + 2 ^ 32 - w.toNat) % 2 ^ 32 := by
  have hw := w.toNat_lt
  rw [UInt32.toNat_sub]
  congr 1
  omega

/-! ## Division of the language C -/

/-- The quotient rounded down, from the one that is rounded towards zero. -/
theorem tdiv_sub {a b : ℤ} (hb : 0 < b) : (a.tdiv b - if a.tmod b < 0 then 1 else 0) = a / b := by
  have hmod := Int.emod_nonneg a (Int.ne_of_gt hb)
  have hlt := Int.emod_lt_of_pos a hb
  rw [Int.tdiv_eq_ediv,Int.tmod_eq_emod]
  by_cases h : 0 ≤ a ∨ b ∣ a
  · rw [if_pos h,if_pos h,if_neg (by omega)]
    omega
  · rw [if_neg h,if_neg h,if_pos (by omega),Int.sign_eq_one_of_pos hb]
    omega

theorem tmod_eq_zero (a b : ℤ) : a.tmod b = 0 ↔ a % b = 0 := Int.dvd_iff_tmod_eq_zero.symm.trans Int.dvd_iff_emod_eq_zero

end Micron.Machine

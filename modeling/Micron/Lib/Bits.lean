import Mathlib.Data.Nat.Notation
import Mathlib.Logic.Function.Basic
import Mathlib.Tactic.IntervalCases

/-! # Bitmaps stored in bytes, most significant bit first -/
namespace Micron.Bits
open Function
variable {b : UInt8} {m : ℕ → UInt8} {i j k n : ℕ}

def bit (b : UInt8) (i : ℕ) : Bool := b.toBitVec.getMsbD i

def one (i : ℕ) : UInt8 := 1 <<< (7 - i).toUInt8

def mark (b : UInt8) (i : ℕ) (v : Bool) : UInt8 := if v then b ||| one i else b &&& ~~~ one i

/-- What holds of the bytes of all 256 values holds of every byte. -/
theorem forall_byte {P : UInt8 → Prop} (h : ∀ n : Fin 256, P (UInt8.ofNat n)) (b : UInt8) : P b := by
  have hb := h ⟨b.toNat,b.toNat_lt⟩
  rwa [UInt8.ofNat_toNat] at hb

theorem bit_one (hi : i < 8) (hj : j < 8) : bit (one i) j = decide (j = i) := by
  interval_cases i <;> interval_cases j <;> rfl

theorem bit_mark (v : Bool) (hi : i < 8) (hj : j < 8) : bit (mark b i v) j = if j = i then v else bit b j := by
  have h1 := bit_one hi hj
  unfold bit at h1
  cases v <;> by_cases h : j = i <;> simp_all [mark,bit]

theorem full_iff : b = 0xff ↔ ∀ i < 8, bit b i = true := by
  constructor
  · rintro rfl
    decide
  · intro h
    apply UInt8.eq_of_toBitVec_eq
    apply BitVec.eq_of_getMsbD_eq
    intro i hi
    rw [show b.toBitVec.getMsbD i = true from h i hi]
    exact (show ∀ i < 8, true = (0xff : UInt8).toBitVec.getMsbD i by decide) i hi

/-! ## Bitmaps -/

def get (m : ℕ → UInt8) (n : ℕ) : Bool := bit (m (n / 8)) (n % 8)

def set (m : ℕ → UInt8) (n : ℕ) (v : Bool) : ℕ → UInt8 := update m (n / 8) (mark (m (n / 8)) (n % 8) v)

theorem get_set (v : Bool) : get (set m n v) k = if k = n then v else get m k := by
  unfold get set
  by_cases hb : k / 8 = n / 8
  · rw [hb,update_self,bit_mark v (Nat.mod_lt n (by decide)) (Nat.mod_lt k (by decide))]
    by_cases hk : k % 8 = n % 8
    · rw [if_pos hk,if_pos (by omega)]
    · rw [if_neg hk,if_neg (by omega)]
  · rw [update_of_ne hb,if_neg (by omega)]

theorem set_congr {f g : ℕ → UInt8} {v : Bool} (h : f (n / 8) = g (n / 8)) (hk : f k = g k) : set f n v k = set g n v k := by
  unfold set
  by_cases hn : k = n / 8
  · rw [hn,update_self,update_self,h]
  · rw [update_of_ne hn,update_of_ne hn,hk]

/-- A bitmap in blocks of `len` bytes, one after the other. -/
theorem set_blocks (f : ℕ → ℕ → UInt8) (len : ℕ) (v : Bool) :
    set (fun k => f (k / len) (k % len)) n v k =
      update f (n / (8 * len)) (set (f (n / (8 * len))) (n % (8 * len)) v) (k / len) (k % len) := by
  have hblk : n / 8 / len = n / (8 * len) := Nat.div_div_eq_div_mul n 8 len
  have hbyte : n % (8 * len) / 8 = n / 8 % len := Nat.mod_mul_right_div_self n 8 len
  have hbit : n % (8 * len) % 8 = n % 8 := Nat.mod_mul_right_mod n 8 len
  unfold set
  rw [hbyte,hbit]
  by_cases hq : k / len = n / (8 * len)
  · rw [hq,update_self]
    by_cases hr : k % len = n / 8 % len
    · have hk : k = n / 8 := by rw [← Nat.div_add_mod k len,hq,hr,← hblk,Nat.div_add_mod]
      rw [hr,hk,update_self,update_self,← hblk]
    · have hk : k ≠ n / 8 := by
        rintro rfl
        exact hr rfl
      rw [update_of_ne hk,update_of_ne hr,hq]
  · have hk : k ≠ n / 8 := by
      rintro rfl
      exact hq hblk
    rw [update_of_ne hk,update_of_ne hq]

@[simp] theorem get_zero : get (fun _ => 0) n = false := by
  have h : ∀ i < 8, bit 0 i = false := by decide
  exact h _ (Nat.mod_lt n (by decide))

/-- Bytes that are all ones hold no clear bit. -/
theorem get_of_full (h : m (n / 8) = 0xff) : get m n = true :=
  full_iff.mp h _ (Nat.mod_lt n (by decide))

/-- The first clear bit of the first byte from `k` on that has one is the first from there on. -/
theorem first_clear_from (hfull : ∀ q, k ≤ q → q < i → m q = 0xff) (hj : j < 8) (hbit : bit (m i) j = false)
    (hlow : ∀ l < j, bit (m i) l = true) :
    get m (j + i * 8) = false ∧ ∀ l, k * 8 ≤ l → l < j + i * 8 → get m l = true := by
  have hd : (j + i * 8) / 8 = i := by omega
  have hm : (j + i * 8) % 8 = j := by omega
  constructor
  · rw [get,hd,hm,hbit]
  · intro l hkl hl
    by_cases hli : l / 8 < i
    · exact get_of_full (hfull _ (by omega) hli)
    · rw [get,show l / 8 = i by omega]
      exact hlow _ (by omega)

/-- The first clear bit of the first byte that has one is the first of the bitmap. -/
theorem first_clear (hfull : ∀ q < i, m q = 0xff) (hj : j < 8) (hbit : bit (m i) j = false)
    (hlow : ∀ l < j, bit (m i) l = true) : get m (j + i * 8) = false ∧ ∀ l < j + i * 8, get m l = true := by
  obtain ⟨hclear,hset⟩ := first_clear_from (k := 0) (fun q _ hq => hfull q hq) hj hbit hlow
  exact ⟨hclear,fun l hl => hset l (by omega) hl⟩

end Micron.Bits

import Micron.Lib.Bytes
import Micron.Lib.Machine
import Micron.Lib.Numeral

/-! # Numbers for `kprintf`

`itoa` of `libc.c` counts the digits of a number by dividing an unsigned copy of it. Then it
divides the number itself and writes the digits from the last place to the first. There
the operands are an `int` and an `unsigned`, so that the division is unsigned as well.
-/
namespace Micron.Kernel.Itoa
open Function Bytes Numeral

/-- `while(val) len++, val = val/rad`, in a number of steps; nothing for a loop that has not
ended by then, or for the trap of a division by zero. -/
def lenLoop (rad : UInt32) : ℕ → ℕ → UInt32 → Option ℕ
  | 0, _, _ => none
  | fuel + 1, len, val =>
    if val ≠ 0 then
      if rad = 0 then none else lenLoop rad fuel (len + 1) (val / rad)
    else some len

/-- `while(len--) ...`: the digits from place `len - 1` down to place 0. -/
def fillLoop (rad : UInt32) : ℕ → Int32 → (ℕ → UInt8) → ℕ → UInt8
  | 0, _, str => str
  | len + 1, value, str =>
    let digit := value.toUInt32 % rad
    if digit ≥ 0 ∧ digit ≤ 9 then
      fillLoop rad len (value.toUInt32 / rad).toInt32 (update str len (48 + digit).toUInt8)
    else if digit ≥ 10 then
      fillLoop rad len (value.toUInt32 / rad).toInt32 (update str len (97 + digit - 10).toUInt8)
    else fillLoop rad len value str

/-- The memory from `str` on, before and after the call. -/
def itoa (fuel : ℕ) (value : Int32) (str : ℕ → UInt8) (radix : Int32) : Option (ℕ → UInt8) :=
  if value = 0 then some (update (update str 0 48) 1 0)
  else do
    let len ← lenLoop radix.toUInt32 fuel 0 value.toUInt32
    return fillLoop radix.toUInt32 len value (update str len 0)

/-! ## The alphabet -/

def alphabet : List UInt8 := "0123456789abcdefghijklmnopqrstuvwxyz".toList.map (fun c => c.toNat.toUInt8)

def letter (d : ℕ) : UInt8 := alphabet.getD d 0

theorem idxOf_letter : ∀ d < 36, alphabet.idxOf (letter d) = d := by decide

theorem letter_ne_zero : ∀ d < 36, letter d ≠ 0 := by decide

theorem letter_mem : ∀ d < 36, letter d ∈ alphabet.take (d + 1) := by decide

theorem letter_eq : ∀ d < 36, letter d =
    if UInt32.ofNat d ≤ 9 then (48 + UInt32.ofNat d).toUInt8 else (97 + UInt32.ofNat d - 10).toUInt8 := by decide

/-! ## The loops -/

variable {rad n : UInt32} {fuel len : ℕ} {str : ℕ → UInt8}

theorem lenLoop_eq (len : ℕ) (hr : 2 ≤ rad.toNat) (hn : n.toNat < 2 ^ fuel) :
    lenLoop rad (fuel + 1) len n = some (len + (Nat.digits rad.toNat n.toNat).length) := by
  have hrad : rad ≠ 0 := fun h => by simp [h] at hr
  induction fuel generalizing len n with
  | zero =>
    have h0 : n = 0 := UInt32.toNat_inj.mp (by simpa using hn)
    rw [lenLoop,if_neg (not_ne_iff.mpr h0),h0]
    simp
  | succ fuel ih =>
    rw [lenLoop]
    by_cases h0 : n = 0
    · rw [if_neg (not_ne_iff.mpr h0),h0]
      simp
    · have hpos : 0 < n.toNat := Nat.pos_of_ne_zero (fun h => h0 (UInt32.toNat_inj.mp h))
      have hdiv : (n / rad).toNat < 2 ^ fuel := by
        rw [UInt32.toNat_div]
        refine Nat.lt_of_le_of_lt (Nat.div_le_div_left hr (by decide)) ?_
        omega
      rw [if_pos h0,if_neg hrad,ih _ hdiv,Nat.digits_def' (by omega) hpos,List.length_cons,UInt32.toNat_div,
        Nat.add_assoc,Nat.add_comm 1]

theorem fillLoop_succ (hr : 2 ≤ rad.toNat) (hr' : rad.toNat ≤ 36) (value : Int32) :
    fillLoop rad (len + 1) value str =
      fillLoop rad len (value.toUInt32 / rad).toInt32 (update str len (letter (value.toUInt32.toNat % rad.toNat))) := by
  have hlt : (value.toUInt32 % rad).toNat < 36 := by
    rw [UInt32.toNat_mod]
    exact Nat.lt_of_lt_of_le (Nat.mod_lt _ (by omega)) hr'
  have hletter := letter_eq _ hlt
  rw [UInt32.ofNat_toNat] at hletter
  rw [← UInt32.toNat_mod,hletter,fillLoop]
  by_cases h9 : value.toUInt32 % rad ≤ 9
  · rw [if_pos ⟨UInt32.zero_le,h9⟩,if_pos h9]
  · have h10 : value.toUInt32 % rad ≥ 10 := by
      rw [UInt32.le_iff_toNat_le] at h9
      rw [ge_iff_le,UInt32.le_iff_toNat_le]
      simp only [UInt32.reduceToNat] at h9 ⊢
      omega
    rw [if_neg (fun h => h9 h.2),if_pos h10,if_neg h9]

/-- As many places as there are digits are filled with the digits. -/
theorem fillLoop_spec (hr : 2 ≤ rad.toNat) (hr' : rad.toNat ≤ 36) (value : Int32) (str : ℕ → UInt8)
    (hlen : (Nat.digits rad.toNat value.toUInt32.toNat).length = len) :
    At (fillLoop rad len value str) 0 ((Nat.digits rad.toNat value.toUInt32.toNat).map letter).reverse ∧
      ∀ k, len ≤ k → fillLoop rad len value str k = str k := by
  induction len generalizing value str with
  | zero =>
    rw [List.length_eq_zero_iff.mp hlen]
    exact ⟨fun i hi => absurd hi (Nat.not_lt_zero i),fun _ _ => rfl⟩
  | succ len ih =>
    have hpos : 0 < value.toUInt32.toNat := by
      refine Nat.pos_of_ne_zero (fun h0 => ?_)
      rw [h0,Nat.digits_zero] at hlen
      cases hlen
    have hrest : (value.toUInt32 / rad).toInt32.toUInt32.toNat = value.toUInt32.toNat / rad.toNat := UInt32.toNat_div _ _
    rw [Nat.digits_def' (by omega) hpos] at hlen ⊢
    obtain ⟨hat,hframe⟩ := ih (value.toUInt32 / rad).toInt32
      (update str len (letter (value.toUInt32.toNat % rad.toNat))) (by rw [hrest]; exact Nat.succ.inj hlen)
    rw [hrest] at hat
    rw [fillLoop_succ hr hr',List.map_cons,List.reverse_cons,at_append]
    refine ⟨⟨hat,at_cons.mpr ⟨?_,fun i hi => absurd hi (Nat.not_lt_zero i)⟩⟩,fun k hk => ?_⟩
    · rw [List.length_reverse,List.length_map,Nat.succ.inj hlen,Nat.zero_add,hframe len (Nat.le_refl len),update_self]
    · rw [hframe k (by omega),update_of_ne (by omega)]

/-- The call leaves the numeral of the number with its terminator, and nothing else is changed. -/
theorem itoa_spec (value : Int32) (str : ℕ → UInt8) {radix : Int32} (hr : 2 ≤ radix.toUInt32.toNat)
    (hr' : radix.toUInt32.toNat ≤ 36) : ∃ str', itoa 33 value str radix = some str' ∧
      At str' 0 (numeral letter radix.toUInt32.toNat value.toUInt32.toNat ++ [0]) ∧
      ∀ k, (numeral letter radix.toUInt32.toNat value.toUInt32.toNat).length < k → str' k = str k := by
  by_cases h0 : value = 0
  · refine ⟨update (update str 0 48) 1 0,by rw [itoa,if_pos h0],?_,fun k hk => ?_⟩
    · rw [numeral,if_pos (by rw [h0]; rfl)]
      exact at_cons.mpr ⟨rfl,at_cons.mpr ⟨rfl,fun i hi => absurd hi (Nat.not_lt_zero i)⟩⟩
    · rw [numeral,if_pos (by rw [h0]; rfl),List.length_singleton] at hk
      rw [update_of_ne (by omega),update_of_ne (by omega)]
  · have hne : value.toUInt32.toNat ≠ 0 := fun h => h0 (congrArg UInt32.toInt32 (UInt32.toNat_inj.mp h))
    have hlen := lenLoop_eq (n := value.toUInt32) 0 hr value.toUInt32.toNat_lt
    obtain ⟨hat,hframe⟩ := fillLoop_spec hr hr' value
      (update str (Nat.digits radix.toUInt32.toNat value.toUInt32.toNat).length 0) rfl
    rw [numeral,if_neg hne,List.length_reverse,List.length_map]
    refine ⟨_,?_,at_append.mpr ⟨hat,at_cons.mpr ⟨?_,fun i hi => absurd hi (Nat.not_lt_zero i)⟩⟩,fun k hk => ?_⟩
    · rw [itoa,if_neg h0,hlen,Nat.zero_add]
      rfl
    · rw [List.length_reverse,List.length_map,Nat.zero_add,hframe _ (Nat.le_refl _),update_self]
    · rw [hframe k (Nat.le_of_lt hk),update_of_ne (by omega)]

/-- For every value and every radix from 2 to 36 the call returns. It leaves a string of at
most 32 digits of the radix, the first of them not zero unless it is the only one, that
stands for the value read as unsigned; behind the terminator nothing is changed. -/
theorem itoa_numeral (value : Int32) (str : ℕ → UInt8) (radix : Int32) (h2 : 2 ≤ radix) (h36 : radix ≤ 36) :
    ∃ fuel str' ds, itoa fuel value str radix = some str' ∧ At str' 0 (ds ++ [0]) ∧ ds.length ≤ 32 ∧
      (∀ k, ds.length < k → str' k = str k) ∧ ds ≠ [] ∧
      (∀ c ∈ ds, c ≠ 0 ∧ c ∈ alphabet.take radix.toUInt32.toNat) ∧
      (ds.head? = some (letter 0) → ds = [letter 0]) ∧
      valueOf alphabet.idxOf radix.toUInt32.toNat ds = value.toUInt32.toNat := by
  obtain ⟨hr,hr'⟩ := Machine.toNat_range (a := radix) (m := 2) (n := 36) rfl rfl h2 h36
  obtain ⟨str',hrun,hat,hframe⟩ := itoa_spec value str hr hr'
  have hval : ∀ d < radix.toUInt32.toNat, alphabet.idxOf (letter d) = d :=
    fun d hd => idxOf_letter d (Nat.lt_of_lt_of_le hd hr')
  refine ⟨33,str',_,hrun,hat,numeral_length_le hr (by decide) value.toUInt32.toNat_lt,hframe,numeral_ne_nil _ _ _,?_,?_,
    valueOf_numeral hval hr _⟩
  · intro c hc
    obtain ⟨d,hd,rfl⟩ := mem_numeral hr hc
    have hd' : d < 36 := Nat.lt_of_lt_of_le hd hr'
    exact ⟨letter_ne_zero d hd',List.take_subset_take_left _ hd (letter_mem d hd')⟩
  · intro hhead
    rw [numeral,if_pos (numeral_head alphabet.idxOf hval hr hhead)]

/-- `%d` of the least integer is a positive number. -/
theorem itoa_least : ∃ fuel str' ds, itoa fuel (-2147483648) (fun _ => 0xff) 10 = some str' ∧ At str' 0 (ds ++ [0]) ∧
    valueOf alphabet.idxOf 10 ds = 2147483648 := by
  obtain ⟨fuel,str',ds,hrun,hat,-,-,-,-,-,hval⟩ := itoa_numeral (-2147483648) (fun _ => 0xff) 10 (by decide) (by decide)
  exact ⟨fuel,str',ds,hrun,hat,hval⟩

end Micron.Kernel.Itoa

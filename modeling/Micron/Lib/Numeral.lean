import Mathlib.Data.Nat.Digits.Lemmas

/-! # Numerals over an alphabet

A row of characters stands for a number in a base. The first character is the most
significant digit.
-/
namespace Micron.Numeral
variable {α : Type*} {digit : ℕ → α} {val : α → ℕ} {b k n : ℕ}

def numeral (digit : ℕ → α) (b n : ℕ) : List α :=
  if n = 0 then [digit 0] else ((Nat.digits b n).map digit).reverse

def valueOf (val : α → ℕ) (b : ℕ) (ds : List α) : ℕ := ds.foldl (fun v c => v * b + val c) 0

theorem valueOf_reverse (h : ∀ d < b, val (digit d) = d) {l : List ℕ} (hl : ∀ d ∈ l, d < b) :
    valueOf val b (l.map digit).reverse = Nat.ofDigits b l := by
  rw [valueOf,List.foldl_reverse,Nat.ofDigits_eq_foldr,List.foldr_map]
  induction l with
  | nil => rfl
  | cons d l ih =>
    rw [List.foldr_cons,List.foldr_cons,ih (fun e he => hl e (List.mem_cons_of_mem d he)),
      h d (hl d List.mem_cons_self),Nat.add_comm,Nat.mul_comm]
    rfl

theorem valueOf_numeral (h : ∀ d < b, val (digit d) = d) (hb : 2 ≤ b) (n : ℕ) :
    valueOf val b (numeral digit b n) = n := by
  rw [numeral]
  split
  · rename_i h0
    rw [valueOf,List.foldl_cons,List.foldl_nil,h 0 (by omega),h0,Nat.zero_mul]
  · rw [valueOf_reverse h (fun d hd => Nat.digits_lt_base hb hd),Nat.ofDigits_digits]

/-- The first digit is zero only if the number is. -/
theorem numeral_head (val : α → ℕ) (h : ∀ d < b, val (digit d) = d) (hb : 2 ≤ b)
    (hhead : (numeral digit b n).head? = some (digit 0)) : n = 0 := by
  by_contra h0
  have hne : Nat.digits b n ≠ [] := Nat.digits_ne_nil_iff_ne_zero.mpr h0
  rw [numeral,if_neg h0,List.head?_reverse,List.getLast?_map,List.getLast?_eq_getLast_of_ne_nil hne] at hhead
  have hlast := congrArg val (Option.some.inj hhead)
  rw [h _ (Nat.digits_lt_base hb (List.getLast_mem hne)),h 0 (by omega)] at hlast
  exact Nat.getLast_digit_ne_zero b h0 hlast

theorem mem_numeral (hb : 2 ≤ b) {c : α} (hc : c ∈ numeral digit b n) : ∃ d < b, digit d = c := by
  rw [numeral] at hc
  split at hc
  · exact ⟨0,by omega,(List.mem_singleton.mp hc).symm⟩
  · obtain ⟨d,hd,rfl⟩ := List.mem_map.mp (List.mem_reverse.mp hc)
    exact ⟨d,Nat.digits_lt_base hb hd,rfl⟩

theorem numeral_ne_nil (digit : ℕ → α) (b n : ℕ) : numeral digit b n ≠ [] := by
  rw [numeral]
  split
  · exact List.cons_ne_nil _ _
  · rename_i h0
    rw [ne_eq,List.reverse_eq_nil_iff,List.map_eq_nil_iff]
    exact Nat.digits_ne_nil_iff_ne_zero.mpr h0

/-- A number below `2 ^ k` has at most `k` digits. -/
theorem digits_length_le (hb : 2 ≤ b) (hn : n < 2 ^ k) : (Nat.digits b n).length ≤ k :=
  (Nat.digits_length_le_iff (by omega) n).mpr (Nat.lt_of_lt_of_le hn (Nat.pow_le_pow_left hb k))

theorem numeral_length_le (hb : 2 ≤ b) (hk : 0 < k) (hn : n < 2 ^ k) : (numeral digit b n).length ≤ k := by
  rw [numeral]
  split
  · exact hk
  · rw [List.length_reverse,List.length_map]
    exact digits_length_le hb hn

end Micron.Numeral

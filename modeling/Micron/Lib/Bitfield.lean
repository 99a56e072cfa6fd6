import Mathlib.Algebra.Order.Group.Nat
import Mathlib.Algebra.GroupWithZero.Nat
import Mathlib.Data.Nat.Notation
import Mathlib.Data.Nat.ModEq

/-! # Packed bit-fields, the first one in the lowest bits -/
namespace Micron.Bitfield

/-- Fields with their widths; a value is cut to the width of its field. -/
def pack : List (ℕ × ℕ) → ℕ
  | [] => 0
  | (w,v) :: fs => v % 2 ^ w + 2 ^ w * pack fs

def bits (d k w : ℕ) : ℕ := d / 2 ^ k % 2 ^ w

def width (fs : List (ℕ × ℕ)) : ℕ := (fs.map Prod.fst).sum

variable {k w v : ℕ}

theorem bits_pack (pre post : List (ℕ × ℕ)) (w v : ℕ) : bits (pack (pre ++ (w,v) :: post)) (width pre) w = v % 2 ^ w := by
  induction pre with
  | nil =>
    rw [List.nil_append,pack,bits,width,List.map_nil,List.sum_nil,pow_zero,Nat.div_one,Nat.add_mul_mod_self_left,
      Nat.mod_mod]
  | cons f pre ih =>
    obtain ⟨u,x⟩ := f
    have hx : x % 2 ^ u < 2 ^ u := Nat.mod_lt x (Nat.two_pow_pos u)
    rw [bits,width] at ih
    rw [List.cons_append,pack,bits,width,List.map_cons,List.sum_cons,pow_add,← Nat.div_div_eq_div_mul,
      Nat.add_mul_div_left _ _ (Nat.two_pow_pos u),Nat.div_eq_of_lt hx,Nat.zero_add]
    exact ih

theorem bits_field (fs : List (ℕ × ℕ)) (i : ℕ) (h : fs[i]? = some (w,v)) (hk : width (fs.take i) = k) :
    bits (pack fs) k w = v % 2 ^ w := by
  obtain ⟨hi,hf⟩ := List.getElem?_eq_some_iff.mp h
  have hd := bits_pack (fs.take i) (fs.drop (i + 1)) w v
  rw [← hf,← List.drop_eq_getElem_cons hi,List.take_append_drop,hk] at hd
  exact hd

end Micron.Bitfield

import Micron.Lib.Machine
import Micron.Lib.Numeral

/-! # Formatting of integers

`number` of `vsprintf.c` writes a number in a base with sign, prefix, precision and field
width. One variable `size` counts the padding of three loops, each of which leaves it one
below the value it stopped at, in 32 bits.
-/
namespace Micron.Kernel.Vsprintf

def ZEROPAD : Int32 := 1
def SIGN : Int32 := 2
def PLUS : Int32 := 4
def SPACE : Int32 := 8
def LEFT : Int32 := 16
def SPECIAL : Int32 := 32
def SMALL : Int32 := 64

def has (type flag : Int32) : Bool := type &&& flag != 0

def digits (type : Int32) : List Char :=
  if has type SMALL then "0123456789abcdefghijklmnopqrstuvwxyz".toList
  else "0123456789ABCDEFGHIJKLMNOPQRSTUVWXYZ".toList

/-- A character of the string; behind its end there is the null byte. -/
def digit (type : Int32) (i : ℕ) : Char := (digits type).getD i '\x00'

/-- `while(size-->0) *str++ = c`: what is written, and the value of `size` behind the loop. -/
def padLoop (c : Char) (size : Int32) : List Char × Int32 :=
  if 0 < size then
    let r := padLoop c (size - 1)
    (c :: r.1,r.2)
  else ([],size - 1)
termination_by size.toInt.toNat
decreasing_by
  rename_i h
  have hpred := Machine.toInt_sub_one h
  rw [Int32.lt_iff_toInt_lt,Int32.toInt_zero] at h
  omega

def zeroLoop (i precision : Int32) : List Char :=
  if i < precision then '0' :: zeroLoop i (precision - 1) else []
termination_by (precision.toInt - i.toInt).toNat
decreasing_by
  rename_i h
  have hpred := Machine.toInt_sub_one h
  rw [Int32.lt_iff_toInt_lt] at h
  omega

/-- `while (num!=0) tmp[i++]=digits[do_div(num,base)]`, with a number of free places in
`tmp`. The instruction `divl` divides without sign. -/
def divLoop (type : Int32) (base : UInt32) : ℕ → UInt32 → List Char
  | 0, _ => []
  | places + 1, num =>
    if num ≠ 0 then digit type (num % base).toNat :: divLoop type base places (num / base) else []

def tmp (num base type : Int32) : List Char :=
  if num = 0 then ['0'] else divLoop type base.toUInt32 36 num.toUInt32

/-- The text that is written, or nothing for a base that is refused. -/
def number (num base size precision type : Int32) : Option (List Char) :=
  -- `digits` is set before ZEROPAD is taken out of the flags
  let type' := if has type LEFT then type &&& ~~~ZEROPAD else type
  if base < 2 ∨ base > 36 then none else
  let c := if has type' ZEROPAD then '0' else ' '
  let negative := has type' SIGN ∧ num < 0
  let sign := if negative then some '-' else if has type' PLUS then some '+' else if has type' SPACE then some ' ' else none
  let num := if negative then -num else num
  let size := if sign.isSome then size - 1 else size
  let size :=
    if has type' SPECIAL then
      if base = 16 then size - 2 else if base = 8 then size - 1 else size
    else size
  let tmp := tmp num base type
  let i := Int32.ofNat tmp.length
  let precision := if i > precision then i else precision
  let size := size - precision
  let before := if has type' (ZEROPAD + LEFT) then ([],size) else padLoop ' ' size
  let special :=
    if has type' SPECIAL then
      if base = 8 then ['0'] else if base = 16 then ['0',digit type 33] else []
    else []
  let middle := if has type' LEFT then ([],before.2) else padLoop c before.2
  let behind := padLoop ' ' middle.2
  some (before.1 ++ sign.toList ++ special ++ middle.1 ++ zeroLoop i precision ++ tmp.reverse ++ behind.1)

/-! ## The text that is meant -/

section Meaning
variable (num base size precision type : Int32)

def magnitude : ℕ := if has type SIGN then num.toInt.natAbs else num.toUInt32.toNat

def signText : List Char :=
  if has type SIGN ∧ num < 0 then ['-'] else if has type PLUS then ['+'] else if has type SPACE then [' '] else []

def prefixText : List Char :=
  if has type SPECIAL then
    if base = 8 then ['0'] else if base = 16 then ['0',digit type 33] else []
  else []

def numeral : List Char :=
  if magnitude num type = 0 then ['0']
  else ((Nat.digits base.toUInt32.toNat (magnitude num type)).map (digit type)).reverse

def body : List Char :=
  List.replicate (precision.toInt.toNat - (numeral num base type).length) '0' ++ numeral num base type

def bare : ℕ := (signText num type).length + (prefixText base type).length + (body num base precision type).length

def missing : ℕ := (size.toInt - bare num base precision type).toNat

def formatted : List Char :=
  let pad := List.replicate (missing num base size precision type)
  let start := signText num type ++ prefixText base type
  if has type LEFT then start ++ body num base precision type ++ pad ' '
  else if has type ZEROPAD then start ++ pad '0' ++ body num base precision type
  else pad ' ' ++ start ++ body num base precision type

/-- What `size` has to stay above for the loops that follow the first. -/
def margin : ℤ := if has type LEFT then 0 else if has type ZEROPAD then 1 else 2

/-- The width, less the text, does not fall below the range of `size`, or falls by a whole
turn of 32 bits. -/
def Counted : Prop :=
  -2147483648 + margin type ≤ size.toInt - bare num base precision type ∨
    size.toInt - bare num base precision type ≤ -4294967296

instance : Decidable (Counted num base size precision type) := by unfold Counted; infer_instance

end Meaning

/-! ## Flags -/

variable {num base size precision type : Int32}

theorem has_other {flag : Int32} (h : ~~~ZEROPAD &&& flag = flag) (type : Int32) :
    has (type &&& ~~~ZEROPAD) flag = has type flag := by
  rw [has,has,Int32.and_assoc,h]

theorem has_add (type : Int32) : has type (ZEROPAD + LEFT) = (has type ZEROPAD || has type LEFT) := by
  have h : type &&& (ZEROPAD + LEFT) = type &&& ZEROPAD ||| type &&& LEFT :=
    Int32.toBitVec_inj.mp (BitVec.and_or_distrib_left (y := ZEROPAD.toBitVec) (z := LEFT.toBitVec))
  rw [has,has,has,h,Bool.eq_iff_iff]
  simp only [bne_iff_ne,Bool.or_eq_true,ne_eq,Int32.or_eq_zero_iff]
  exact Classical.not_and_iff_not_or_not

/-! ## The loops -/

def spent (size : Int32) : Int32 := if 0 < size then -1 else size - 1

theorem padLoop_eq (c : Char) (size : Int32) : padLoop c size = (List.replicate size.toInt.toNat c,spent size) := by
  induction hn : size.toInt.toNat generalizing size with
  | zero =>
    have h : ¬ 0 < size := by
      rw [Int32.lt_iff_toInt_lt,Int32.toInt_zero]
      omega
    rw [padLoop,spent,if_neg h,if_neg h]
    rfl
  | succ n ih =>
    have h : 0 < size := by
      rw [Int32.lt_iff_toInt_lt,Int32.toInt_zero]
      omega
    have hpred := Machine.toInt_sub_one h
    rw [padLoop,if_pos h,ih (size - 1) (by omega),spent,spent,if_pos h]
    refine Prod.ext rfl ?_
    -- the last pass of the loop is the one at 1
    by_cases hone : 0 < size - 1
    · exact if_pos hone
    · rw [Int32.lt_iff_toInt_lt,Int32.toInt_zero] at hone
      have hzero : size - 1 = 0 := Int32.toInt_inj.mp (by rw [Int32.toInt_zero]; omega)
      rw [hzero]
      rfl

theorem zeroLoop_eq (i precision : Int32) :
    zeroLoop i precision = List.replicate (precision.toInt - i.toInt).toNat '0' := by
  induction hn : (precision.toInt - i.toInt).toNat generalizing precision with
  | zero =>
    have h : ¬ i < precision := by
      rw [Int32.lt_iff_toInt_lt]
      omega
    rw [zeroLoop,if_neg h]
    rfl
  | succ n ih =>
    have h : i < precision := by
      rw [Int32.lt_iff_toInt_lt]
      omega
    have hpred := Machine.toInt_sub_one h
    rw [zeroLoop,if_pos h,ih (precision - 1) (by omega)]
    rfl

theorem divLoop_eq {b n : UInt32} {places : ℕ} (hb : 2 ≤ b.toNat) (hn : n.toNat < 2 ^ places) :
    divLoop type b places n = (Nat.digits b.toNat n.toNat).map (digit type) := by
  induction places generalizing n with
  | zero =>
    have h0 : n.toNat = 0 := by omega
    rw [divLoop,h0,Nat.digits_zero]
    rfl
  | succ places ih =>
    rw [divLoop]
    split
    · rename_i hne
      have hpos : 0 < n.toNat := Nat.pos_of_ne_zero (fun h0 => hne (UInt32.toNat_inj.mp h0))
      have hdiv : n.toNat / b.toNat < 2 ^ places := by
        refine Nat.lt_of_le_of_lt (Nat.div_le_div_left hb (by decide)) ?_
        omega
      rw [ih (by rw [UInt32.toNat_div]; exact hdiv),Nat.digits_def' (by omega) hpos,UInt32.toNat_div,UInt32.toNat_mod]
      rfl
    · rename_i h0
      rw [not_ne_iff.mp h0]
      simp

theorem divLoop_length (b n : UInt32) (places : ℕ) : (divLoop type b places n).length ≤ places := by
  induction places generalizing n with
  | zero => exact Nat.le_refl 0
  | succ places ih =>
    rw [divLoop]
    split
    · exact Nat.succ_le_succ (ih (n / b))
    · exact Nat.zero_le _

/-! ## The parts of the text -/

theorem toNat_negated (num type : Int32) :
    (if has type SIGN ∧ num < 0 then -num else num).toUInt32.toNat = magnitude num type := by
  have hlt := num.toInt_lt
  have hle := num.le_toInt
  have hemod := Machine.toNat_emod num
  rw [magnitude]
  by_cases hsign : has type SIGN
  · by_cases hneg : num < 0
    · have hemod := Machine.toNat_emod (-num)
      rw [Int32.toInt_neg,Int.bmod_emod] at hemod
      rw [if_pos ⟨hsign,hneg⟩,if_pos hsign]
      rw [Int32.lt_iff_toInt_lt,Int32.toInt_zero] at hneg
      omega
    · rw [if_neg (fun h => hneg h.2),if_pos hsign]
      rw [Int32.lt_iff_toInt_lt,Int32.toInt_zero] at hneg
      omega
  · rw [if_neg (fun h => hsign h.1),if_neg hsign]

theorem tmp_length (num base type : Int32) : (tmp num base type).length ≤ 36 := by
  rw [tmp]
  split
  · decide
  · exact divLoop_length _ _ _

theorem tmp_reverse (hb : 2 ≤ base.toUInt32.toNat) :
    (tmp (if has type SIGN ∧ num < 0 then -num else num) base type).reverse = numeral num base type := by
  have hval := toNat_negated num type
  generalize (if has type SIGN ∧ num < 0 then -num else num) = v at hval
  rw [tmp,numeral,← hval]
  by_cases h0 : v = 0
  · rw [if_pos h0,h0]
    rfl
  · have hne : v.toUInt32.toNat ≠ 0 := fun h => h0 (congrArg UInt32.toInt32 (UInt32.toNat_inj.mp h))
    have hlt := v.toUInt32.toNat_lt
    rw [if_neg h0,if_neg hne,divLoop_eq hb (by omega)]

theorem body_eq (num precision type : Int32) (hb : 2 ≤ base.toUInt32.toNat) :
    let t := tmp (if has type SIGN ∧ num < 0 then -num else num) base type
    let p := if Int32.ofNat t.length > precision then Int32.ofNat t.length else precision
    zeroLoop (Int32.ofNat t.length) p ++ t.reverse = body num base precision type ∧
      p.toInt = (body num base precision type).length := by
  intro t p
  have hlen : t.length = (numeral num base type).length := by
    rw [← tmp_reverse hb,List.length_reverse]
  have hi : (Int32.ofNat t.length).toInt = t.length :=
    Int32.toInt_ofNat_of_lt (Nat.lt_of_le_of_lt (tmp_length _ _ _) (by decide))
  have hp : p.toInt = max (t.length : ℤ) precision.toInt := by
    simp only [p,gt_iff_lt,Int32.lt_iff_toInt_lt,hi]
    split
    · rw [hi]
      omega
    · omega
  rw [zeroLoop_eq,hi,hp,tmp_reverse hb,body,← hlen]
  have hpad : (max (t.length : ℤ) precision.toInt - t.length).toNat = precision.toInt.toNat - t.length := by omega
  refine ⟨?_,?_⟩
  · rw [hpad]
  · rw [List.length_append,List.length_replicate,← hlen]
    omega

/-- The text as the loops write it, with `size` taken from 32 bits. -/
def written (num base size precision type : Int32) : List Char :=
  let s := Int32.ofInt (size.toInt - bare num base precision type)
  let pad (c : Char) (s : Int32) := List.replicate s.toInt.toNat c
  let start := signText num type ++ prefixText base type
  if has type LEFT then start ++ body num base precision type ++ pad ' ' s
  else if has type ZEROPAD then start ++ pad '0' s ++ body num base precision type ++ pad ' ' (spent s)
  else pad ' ' s ++ start ++ pad ' ' (spent s) ++ body num base precision type ++ pad ' ' (spent (spent s))

theorem sub_ofInt {x y : Int32} {a b : ℤ} (hx : x = Int32.ofInt a) (hy : y.toInt = b) : x - y = Int32.ofInt (a - b) := by
  rw [Int32.ofInt_sub,hx,← hy,Int32.ofInt_toInt]

theorem signText_eq (num type : Int32) : signText num type =
    (if has type SIGN ∧ num < 0 then some '-' else if has type PLUS then some '+' else if has type SPACE then some ' '
      else none).toList := by
  rw [signText]
  split
  · rfl
  · split
    · rfl
    · split <;> rfl

theorem size_sign {o : Option Char} : (if o.isSome then size - 1 else size) = Int32.ofInt (size.toInt - o.toList.length) := by
  cases o with
  | none =>
    rw [Option.toList_none,List.length_nil,Int.natCast_zero,Int.sub_zero,Int32.ofInt_toInt]
    rfl
  | some c => exact sub_ofInt (Int32.ofInt_toInt size).symm rfl

theorem size_special {x : Int32} {a : ℤ} (hx : x = Int32.ofInt a) :
    (if has type SPECIAL then if base = 16 then x - 2 else if base = 8 then x - 1 else x else x) =
      Int32.ofInt (a - (prefixText base type).length) := by
  rw [prefixText]
  by_cases hs : has type SPECIAL
  · rw [if_pos hs,if_pos hs]
    by_cases h16 : base = 16
    · rw [if_pos h16,if_neg (by rw [h16]; decide),if_pos h16]
      exact sub_ofInt hx rfl
    · by_cases h8 : base = 8
      · rw [if_neg h16,if_pos h8,if_pos h8]
        exact sub_ofInt hx rfl
      · rw [if_neg h16,if_neg h8,if_neg h8,if_neg h16,hx]
        simp
  · rw [if_neg hs,if_neg hs,hx]
    simp

theorem number_eq (h2 : 2 ≤ base) (h36 : base ≤ 36) :
    number num base size precision type = some (written num base size precision type) := by
  have hb := (Machine.toNat_range (m := 2) (n := 36) rfl rfl h2 h36).1
  have hbase : ¬ (base < 2 ∨ base > 36) := not_or.mpr ⟨Int32.not_lt.mpr h2,Int32.not_lt.mpr h36⟩
  obtain ⟨hbody,hp⟩ := body_eq num precision type hb
  have hflag : ∀ f, ~~~ZEROPAD &&& f = f → has (if has type LEFT then type &&& ~~~ZEROPAD else type) f = has type f := by
    intro f hf
    split
    · exact has_other hf type
    · rfl
  simp only [number,if_neg hbase,hflag SIGN (by decide),hflag PLUS (by decide),hflag SPACE (by decide),
    hflag SPECIAL (by decide),hflag LEFT (by decide),has_add]
  have hsize : size.toInt - (signText num type).length - (prefixText base type).length -
      (body num base precision type).length = size.toInt - bare num base precision type := by
    rw [bare]
    omega
  rw [size_sign,size_special rfl,sub_ofInt rfl hp,← signText_eq,hsize,written]
  by_cases hleft : has type LEFT
  · simp only [hleft,Bool.or_true,if_true,padLoop_eq,← hbody,prefixText,List.nil_append,List.append_nil,List.append_assoc]
  · by_cases hzero : has type ZEROPAD
    · simp only [hleft,hzero,Bool.true_or,Bool.false_eq_true,if_true,if_false,padLoop_eq,← hbody,prefixText,
        List.nil_append,List.append_assoc]
    · simp only [hleft,hzero,Bool.or_false,Bool.false_eq_true,if_false,padLoop_eq,← hbody,prefixText,List.append_assoc]

/-! ## Padding -/

theorem body_length (num base precision type : Int32) :
    ((body num base precision type).length : ℤ) = max precision.toInt (numeral num base type).length := by
  rw [body,List.length_append,List.length_replicate]
  omega

theorem numeral_length (num type : Int32) (hb : 2 ≤ base.toUInt32.toNat) : (numeral num base type).length ≤ 36 := by
  rw [← tmp_reverse hb,List.length_reverse]
  exact tmp_length _ _ _

theorem bare_le (num precision type : Int32) (hb : 2 ≤ base.toUInt32.toNat) : bare num base precision type ≤ 2 ^ 31 + 2 := by
  have hsign : (signText num type).length ≤ 1 := by
    rw [signText]
    split
    · decide
    · split
      · decide
      · split <;> decide
  have hpre : (prefixText base type).length ≤ 2 := by
    rw [prefixText]
    split
    · split
      · exact Nat.le_succ 1
      · split
        · exact Nat.le_refl 2
        · exact Nat.zero_le 2
    · exact Nat.zero_le 2
  have hnum := numeral_length num type hb
  have hlt := precision.toInt_lt
  have hbody := body_length num base precision type
  rw [bare]
  omega

theorem toInt_spent (s : Int32) : 0 < s.toInt ∧ (spent s).toInt = -1 ∨
    s.toInt = -2147483648 ∧ (spent s).toInt = 2147483647 ∨
    s.toInt ≤ 0 ∧ -2147483648 < s.toInt ∧ (spent s).toInt = s.toInt - 1 := by
  have hlt := s.toInt_lt
  have hle := s.le_toInt
  rw [spent]
  simp only [Int32.lt_iff_toInt_lt,Int32.toInt_zero]
  split
  · exact Or.inl ⟨‹_›,rfl⟩
  · rw [Int32.toInt_sub,show (1 : Int32).toInt = 1 from rfl]
    by_cases he : s.toInt = -2147483648
    · refine Or.inr (Or.inl ⟨he,?_⟩)
      rw [he]
      rfl
    · refine Or.inr (Or.inr ⟨by omega,by omega,?_⟩)
      exact Int.bmod_eq_of_le (by omega) (by omega)

theorem toInt_wrapped {d : ℤ} (hlow : -4294967298 ≤ d) (hhigh : d < 2147483648) :
    -2147483648 ≤ d ∧ (Int32.ofInt d).toInt = d ∨ d < -2147483648 ∧ (Int32.ofInt d).toInt = d + 4294967296 := by
  rw [Int32.toInt_ofInt,show Int32.size = 2 ^ 32 from rfl]
  by_cases h : -2147483648 ≤ d
  · exact Or.inl ⟨h,Int.bmod_eq_of_le (by omega) (by omega)⟩
  · refine Or.inr ⟨Int.not_le.mp h,?_⟩
    have hturn : d.bmod (2 ^ 32) = (d + (2 ^ 32 : ℕ)).bmod (2 ^ 32) := (Int.add_bmod_right d (2 ^ 32)).symm
    rw [hturn]
    exact Int.bmod_eq_of_le (by omega) (by omega)

theorem written_eq_iff (hb : 2 ≤ base.toUInt32.toNat) :
    written num base size precision type = formatted num base size precision type ↔
      Counted num base size precision type := by
  have hle := bare_le num precision type hb
  have hlow := size.le_toInt
  have hhigh := size.toInt_lt
  have hd : -4294967298 ≤ size.toInt - bare num base precision type := by omega
  have hwrap := toInt_wrapped hd (by omega)
  have hspent := toInt_spent (Int32.ofInt (size.toInt - bare num base precision type))
  have hspent' := toInt_spent (spent (Int32.ofInt (size.toInt - bare num base precision type)))
  have hmissing : missing num base size precision type = (size.toInt - bare num base precision type).toNat := rfl
  rw [written,formatted,Counted,margin]
  generalize size.toInt - (bare num base precision type : ℤ) = d at hd hwrap hspent hspent' hmissing ⊢
  generalize Int32.ofInt d = s at hwrap hspent hspent' ⊢
  by_cases hleft : has type LEFT
  · simp only [hleft,if_true,List.append_cancel_left_eq,List.replicate_inj,or_true,and_true]
    omega
  · by_cases hzero : has type ZEROPAD
    · simp only [hleft,hzero,Bool.false_eq_true,if_true,if_false]
      constructor
      · intro h
        have hlen := congrArg List.length h
        simp only [List.length_append,List.length_replicate] at hlen
        omega
      · intro h
        have hs : s.toInt.toNat = missing num base size precision type := by omega
        have hs' : (spent s).toInt.toNat = 0 := by omega
        rw [hs,hs',List.replicate_zero,List.append_nil]
    · simp only [hleft,hzero,Bool.false_eq_true,if_false]
      constructor
      · intro h
        have hlen := congrArg List.length h
        simp only [List.length_append,List.length_replicate] at hlen
        omega
      · intro h
        have hs : s.toInt.toNat = missing num base size precision type := by omega
        have hs' : (spent s).toInt.toNat = 0 := by omega
        have hs'' : (spent (spent s)).toInt.toNat = 0 := by omega
        rw [hs,hs',hs'',List.replicate_zero,List.append_nil,List.append_nil]

/-! ## What the text says -/

def valueOf (base type : Int32) (ds : List Char) : ℕ :=
  ds.foldl (fun v c => v * base.toUInt32.toNat + (digits type).idxOf c) 0

theorem idxOf_digit {i : ℕ} (hi : i < 36) (type : Int32) : (digits type).idxOf (digit type i) = i := by
  rw [digit,digits]
  split
  · revert i
    decide
  · revert i
    decide

theorem valueOf_zeros (n : ℕ) (ds : List Char) : valueOf base type (List.replicate n '0' ++ ds) = valueOf base type ds := by
  have hzero : (digits type).idxOf '0' = 0 := by
    rw [digits]
    split <;> rfl
  induction n with
  | zero => rfl
  | succ n ih =>
    rw [← ih,List.replicate_succ]
    simp only [valueOf,List.cons_append,List.foldl_cons,hzero,Nat.zero_mul,Nat.add_zero]

theorem digit_zero (type : Int32) : digit type 0 = '0' := by
  rw [digit,digits]
  split <;> rfl

theorem numeral_eq (num base type : Int32) :
    numeral num base type = Numeral.numeral (digit type) base.toUInt32.toNat (magnitude num type) := by
  rw [numeral,Numeral.numeral,digit_zero]

theorem valueOf_numeral (h2 : 2 ≤ base.toUInt32.toNat) (h36 : base.toUInt32.toNat ≤ 36) :
    valueOf base type (numeral num base type) = magnitude num type := by
  rw [numeral_eq]
  exact Numeral.valueOf_numeral (fun d hd => idxOf_digit (Nat.lt_of_lt_of_le hd h36) type) h2 _

/-- The first digit is zero only if it is the only one. -/
theorem numeral_head (h2 : 2 ≤ base.toUInt32.toNat) (h36 : base.toUInt32.toNat ≤ 36)
    (h : (numeral num base type).head? = some '0') : magnitude num type = 0 := by
  rw [numeral_eq,← digit_zero type] at h
  exact Numeral.numeral_head (digits type).idxOf (fun d hd => idxOf_digit (Nat.lt_of_lt_of_le hd h36) type) h2 h

theorem formatted_length : ((formatted num base size precision type).length : ℤ) =
    max size.toInt (bare num base precision type) := by
  have hmissing : missing num base size precision type = (size.toInt - bare num base precision type).toNat := rfl
  rw [formatted]
  rw [bare] at hmissing ⊢
  split
  · simp only [List.length_append,List.length_replicate]
    omega
  · split
    · simp only [List.length_append,List.length_replicate]
      omega
    · simp only [List.length_append,List.length_replicate]
      omega

/-- For every number, base, width, precision and flags: `number` writes the text that is
meant exactly if `size` is counted down within its range. That text fills the width, and
its digits are those of the number. -/
theorem number_faithful_iff (num base size precision type : Int32) (h2 : 2 ≤ base) (h36 : base ≤ 36) :
    (number num base size precision type = some (formatted num base size precision type) ↔
      Counted num base size precision type) ∧
    ((formatted num base size precision type).length : ℤ) = max size.toInt
      ((signText num type).length + (prefixText base type).length + max precision.toInt (numeral num base type).length) ∧
    valueOf base type (body num base precision type) = magnitude num type ∧
    ((numeral num base type).head? = some '0' → magnitude num type = 0) := by
  obtain ⟨hb,hb'⟩ := Machine.toNat_range (m := 2) (n := 36) rfl rfl h2 h36
  refine ⟨?_,?_,?_,numeral_head hb hb'⟩
  · rw [number_eq h2 h36,Option.some_inj]
    exact written_eq_iff hb
  · rw [formatted_length,← body_length,bare]
    rfl
  · rw [body,valueOf_zeros,valueOf_numeral hb hb']

/-- `%#012.4x` with a sign. -/
theorem number_minus_42 :
    number (-42) 16 12 4 (ZEROPAD ||| SIGN ||| SPECIAL ||| SMALL) = some "-0x00000002a".toList := by
  rw [(number_faithful_iff (-42) 16 12 4 (ZEROPAD ||| SIGN ||| SPECIAL ||| SMALL) (by decide) (by decide)).1.mpr
    (by decide)]
  decide

/-- The width that `vsprintf` passes on for `%-2147483648.0d`, whose numeral wraps around: behind
the digit there are blanks up to two thousand million. -/
theorem number_least_width :
    number 5 10 (-2147483648) 0 (SIGN ||| LEFT) = some ('5' :: List.replicate 2147483647 ' ') ∧
    number 5 10 (-2147483648) 0 (SIGN ||| LEFT) ≠ some (formatted 5 10 (-2147483648) 0 (SIGN ||| LEFT)) := by
  have hbare : bare 5 10 0 (SIGN ||| LEFT) = 1 := by decide
  have hwrap : (Int32.ofInt (Int32.toInt (-2147483648) - (1 : ℕ))).toInt = 2147483647 := by decide
  have hstart : signText 5 (SIGN ||| LEFT) ++ prefixText 10 (SIGN ||| LEFT) ++ body 5 10 0 (SIGN ||| LEFT) = ['5'] := by
    decide
  rw [number_eq (by decide) (by decide)]
  refine ⟨?_,fun h => absurd ((written_eq_iff (by decide)).mp (Option.some.inj h)) (by decide)⟩
  rw [written,hbare,if_pos (by decide),hstart]
  dsimp only
  rw [hwrap]
  rfl

end Micron.Kernel.Vsprintf

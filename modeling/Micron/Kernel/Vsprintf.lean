import Mathlib.Data.Stream.Init
import Micron.Kernel.Number

/-! # Formats

`vsprintf` of `lib/vsprintf.c`. A directive is read in four steps (flags, width, precision,
qualifier) and then converted. The step that takes a width or a precision from the
arguments leaves the pointer into the format at the asterisk.
-/
namespace Micron.Kernel.Vsprintf

/-! ## Reading a directive -/

def flag : Char → Option Int32
  | '-' => some LEFT
  | '+' => some PLUS
  | ' ' => some SPACE
  | '#' => some SPECIAL
  | '0' => some ZEROPAD
  | _ => none

def scanFlags : List Char → Int32 → Int32 × List Char
  | [], flags => (flags,[])
  | c :: fmt, flags =>
    match flag c with
    | some f => scanFlags fmt (flags ||| f)
    | none => (flags,c :: fmt)

/-- The number in front and what follows it; it may overflow. -/
def skipAtoi : List Char → Int32 → Int32 × List Char
  | [], i => (i,[])
  | c :: fmt, i => if c.isDigit then skipAtoi fmt (i * 10 + Int32.ofNat c.toNat - 48) else (i,c :: fmt)

/-- The local variables of `vsprintf` while a directive is read. The arguments are the words
on the stack. -/
structure Scan where
  flags : Int32
  field_width : Int32
  precision : Int32
  fmt : List Char
  args : Stream' UInt32

def getFlags (s : Scan) : Scan :=
  let r := scanFlags s.fmt s.flags
  { s with flags := r.1, fmt := r.2 }

def getWidth (s : Scan) : Scan :=
  match s.fmt with
  | [] => s
  | c :: _ =>
    if c.isDigit then
      let r := skipAtoi s.fmt 0
      { s with field_width := r.1, fmt := r.2 }
    else if c = '*' then
      -- `fmt` still points to the asterisk
      let w := s.args.head.toInt32
      if w < 0 then { s with field_width := -w, flags := s.flags ||| LEFT, args := s.args.tail }
      else { s with field_width := w, args := s.args.tail }
    else s

def getDigits (s : Scan) : Scan :=
  match s.fmt with
  | [] => s
  | c :: _ =>
    if c.isDigit then
      let r := skipAtoi s.fmt 0
      { s with precision := r.1, fmt := r.2 }
    else if c = '*' then { s with precision := s.args.head.toInt32, args := s.args.tail }
    else s

def getPrecision (s : Scan) : Scan :=
  match s.fmt with
  | '.' :: fmt =>
    let s := getDigits { s with fmt := fmt }
    if s.precision < 0 then { s with precision := 0 } else s
  | _ => s

def getQualifier (s : Scan) : Scan :=
  match s.fmt with
  | [] => s
  | c :: fmt => if c = 'h' ∨ c = 'l' ∨ c = 'L' then { s with fmt := fmt } else s

/-! ## Conversions -/

def charLoop (field_width : Int32) : List Char × Int32 :=
  if 0 < field_width - 1 then
    let r := charLoop (field_width - 1)
    (' ' :: r.1,r.2)
  else ([],field_width - 1)
termination_by (field_width - 1).toInt.toNat
decreasing_by
  rename_i h
  have hpred := Machine.toInt_sub_one h
  rw [Int32.lt_iff_toInt_lt,Int32.toInt_zero] at h
  omega

def fieldLoop (len field_width : Int32) : List Char × Int32 :=
  if len < field_width then
    let r := fieldLoop len (field_width - 1)
    (' ' :: r.1,r.2)
  else ([],field_width - 1)
termination_by (field_width.toInt - len.toInt).toNat
decreasing_by
  rename_i h
  have hpred := Machine.toInt_sub_one h
  rw [Int32.lt_iff_toInt_lt] at h
  omega

def charText (flags field_width : Int32) (arg : UInt32) : List Char :=
  let before := if has flags LEFT then ([],field_width) else charLoop field_width
  before.1 ++ Char.ofNat (arg.toNat % 256) :: (charLoop before.2).1

def strText (flags field_width precision : Int32) (s : List Char) : List Char :=
  let len := Int32.ofNat s.length
  let len := if precision < 0 then len else if len > precision then precision else len
  let before := if has flags LEFT then ([],field_width) else fieldLoop len field_width
  before.1 ++ s.take len.toInt.toNat ++ (fieldLoop len before.2).1

/-- What a directive writes into the buffer, what it stores through a pointer, and the rest
of the format and of the arguments. -/
structure Out where
  text : List Char
  stores : List (UInt32 × ℕ)
  fmt : List Char
  args : Stream' UInt32

section Conversion
variable (mem : UInt32 → List Char) (pos : ℕ)

/-- The switch over the conversions, with `pos` characters in the buffer; `mem` has the strings
at their addresses. -/
def convert (s : Scan) : Option Out :=
  match s.fmt with
  -- the end of the format is not skipped
  | [] => some ⟨['%'],[],[],s.args⟩
  | c :: fmt =>
    let arg := s.args.head
    let out (text : List Char) : Out := ⟨text,[],fmt,s.args.tail⟩
    let num (base field_width flags : Int32) : Option Out :=
      (number arg.toInt32 base field_width s.precision flags).map out
    match c with
    | 'c' => some (out (charText s.flags s.field_width arg))
    | 's' => some (out (strText s.flags s.field_width s.precision (if arg = 0 then "<null>".toList else mem arg)))
    | 'o' => num 8 s.field_width s.flags
    | 'p' => if s.field_width = -1 then num 16 8 (s.flags ||| ZEROPAD) else num 16 s.field_width s.flags
    | 'x' => num 16 s.field_width (s.flags ||| SMALL)
    | 'X' => num 16 s.field_width s.flags
    | 'd' => num 10 s.field_width (s.flags ||| SIGN)
    | 'i' => num 10 s.field_width (s.flags ||| SIGN)
    | 'u' => num 10 s.field_width s.flags
    | 'n' => some ⟨[],[(arg,pos)],fmt,s.args.tail⟩
    | _ => some ⟨(if c ≠ '%' then ['%'] else []) ++ [c],[],fmt,s.args⟩

/-- A directive from behind its percent sign. -/
def directive (fmt : List Char) (args : Stream' UInt32) : Option Out :=
  convert mem pos (getQualifier (getPrecision (getWidth (getFlags ⟨0,-1,-1,fmt,args⟩))))

end Conversion

/-- The loop over the format, in a number of steps: the text, and what is stored by `%n`. -/
def vsprintfLoop (mem : UInt32 → List Char) : ℕ → ℕ → List Char → Stream' UInt32 → Option (List Char × List (UInt32 × ℕ))
  | _, _, [], _ => some ([],[])
  | 0, _, _ :: _, _ => none
  | fuel + 1, pos, c :: fmt, args =>
    if c ≠ '%' then do
      let r ← vsprintfLoop mem fuel (pos + 1) fmt args
      return (c :: r.1,r.2)
    else do
      let o ← directive mem pos fmt args
      let r ← vsprintfLoop mem fuel (pos + o.text.length) o.fmt o.args
      return (o.text ++ r.1,o.stores ++ r.2)

def vsprintf (mem : UInt32 → List Char) (fmt : List Char) (args : Stream' UInt32) : Option (List Char × List (UInt32 × ℕ)) :=
  vsprintfLoop mem fmt.length 0 fmt args

/-! ## Directives as they are written -/

inductive Flag where
  | minus
  | plus
  | space
  | hash
  | zero
deriving DecidableEq

def Flag.char : Flag → Char
  | .minus => '-'
  | .plus => '+'
  | .space => ' '
  | .hash => '#'
  | .zero => '0'

def Flag.bit : Flag → Int32
  | .minus => LEFT
  | .plus => PLUS
  | .space => SPACE
  | .hash => SPECIAL
  | .zero => ZEROPAD

inductive Field where
  | absent
  | numeral (n : ℕ)
  /-- an asterisk, with the argument for it -/
  | star (n : Int32)
deriving DecidableEq

inductive Qualifier where
  | h
  | l
  | L
deriving DecidableEq

def Qualifier.char : Qualifier → Char
  | .h => 'h'
  | .l => 'l'
  | .L => 'L'

inductive Conv where
  | c
  | s
  | o
  | p
  | x
  | X
  | d
  | i
  | u
deriving DecidableEq

def Conv.char : Conv → Char
  | .c => 'c'
  | .s => 's'
  | .o => 'o'
  | .p => 'p'
  | .x => 'x'
  | .X => 'X'
  | .d => 'd'
  | .i => 'i'
  | .u => 'u'

structure Directive where
  flags : List Flag
  width : Field
  precision : Field
  qualifier : Option Qualifier
  conv : Conv
deriving DecidableEq

def decimalDigit (d : ℕ) : Char := Char.ofNat (48 + d)

def decimal (n : ℕ) : List Char := Numeral.numeral decimalDigit 10 n

def Field.text : Field → List Char
  | .absent => []
  | .numeral n => decimal n
  | .star _ => ['*']

def Field.pointText : Field → List Char
  | .absent => []
  | f => '.' :: f.text

def Field.args : Field → List UInt32
  | .star n => [n.toUInt32]
  | _ => []

namespace Directive

def ending (d : Directive) (rest : List Char) : List Char :=
  (d.qualifier.map Qualifier.char).toList ++ d.conv.char :: rest

def text (d : Directive) (rest : List Char) : List Char :=
  d.flags.map Flag.char ++ (d.width.text ++ (d.precision.pointText ++ d.ending rest))

def stars (d : Directive) : List UInt32 := d.width.args ++ d.precision.args

def literalWidth (d : Directive) : Directive :=
  match d.width with
  | .star w => { d with flags := if w < 0 then d.flags ++ [.minus] else d.flags, width := .numeral w.toInt.natAbs }
  | _ => d

def literalPrecision (d : Directive) : Directive :=
  match d.precision with
  | .star p => { d with precision := .numeral p.toInt.toNat }
  | _ => d

def literal (d : Directive) : Directive := d.literalWidth.literalPrecision

end Directive

/-! ## How they are read -/

section Reading
variable {c : Char} {fmt rest : List Char} {flags : Int32} {n : ℕ} {s : Scan} {d : Directive}

structure Plain (c : Char) : Prop where
  flag : flag c = none
  digit : c.isDigit = false
  star : c ≠ '*'

instance (c : Char) : Decidable (Plain c) :=
  decidable_of_iff (Vsprintf.flag c = none ∧ c.isDigit = false ∧ c ≠ '*')
    ⟨fun h => ⟨h.1,h.2.1,h.2.2⟩,fun h => ⟨h.flag,h.digit,h.star⟩⟩

theorem Conv.plain (v : Conv) : Plain v.char := by cases v <;> decide

theorem Qualifier.plain (q : Qualifier) : Plain q.char := by cases q <;> decide

theorem ending_head (d : Directive) (rest : List Char) : ∃ c fmt, d.ending rest = c :: fmt ∧ Plain c ∧ c ≠ '.' := by
  rw [Directive.ending]
  cases d.qualifier with
  | none => exact ⟨_,_,rfl,d.conv.plain,by cases d.conv <;> decide⟩
  | some q => exact ⟨_,_,rfl,q.plain,by cases q <;> decide⟩

/-- What follows a width. -/
theorem tail_head (f : Field) (d : Directive) (rest : List Char) :
    ∃ c fmt, f.pointText ++ d.ending rest = c :: fmt ∧ Plain c := by
  cases f with
  | absent =>
    obtain ⟨c,fmt,hend,hc,-⟩ := ending_head d rest
    exact ⟨c,fmt,hend,hc⟩
  | numeral n => exact ⟨_,_,rfl,by decide⟩
  | star p => exact ⟨_,_,rfl,by decide⟩

theorem scanFlags_flags (l : List Flag) (fmt : List Char) (flags : Int32) :
    scanFlags (l.map Flag.char ++ fmt) flags = scanFlags fmt (l.foldl (fun f g => f ||| g.bit) flags) := by
  induction l generalizing flags with
  | nil => rfl
  | cons g l ih =>
    have hg : flag g.char = some g.bit := by cases g <;> rfl
    rw [List.map_cons,List.cons_append,scanFlags,hg]
    exact ih _

theorem scanFlags_stop (h : flag c = none) (fmt : List Char) (flags : Int32) :
    scanFlags (c :: fmt) flags = (flags,c :: fmt) := by
  rw [scanFlags,h]

theorem decimalDigit_isDigit : ∀ d < 10, (decimalDigit d).isDigit = true := by decide

theorem decimalDigit_toNat : ∀ d < 10, (decimalDigit d).toNat = d + 48 := by decide

/-- The value of a digit. -/
theorem decimalDigit_val (d : ℕ) (hd : d < 10) : (decimalDigit d).toNat - 48 = d := by
  rw [decimalDigit_toNat d hd,Nat.add_sub_cancel]

theorem decimalDigit_flag : ∀ d < 10, d ≠ 0 → flag (decimalDigit d) = none := by decide

/-- Digits are read as the number they stand for. -/
theorem skipAtoi_digits {ds : List Char} (h : ∀ c ∈ ds, ∃ d < 10, decimalDigit d = c) (hc : c.isDigit = false) (v : ℕ) :
    skipAtoi (ds ++ c :: fmt) (Int32.ofNat v) =
      (Int32.ofNat (ds.foldl (fun v c => v * 10 + (c.toNat - 48)) v),c :: fmt) := by
  induction ds generalizing v with
  | nil => rw [List.nil_append,skipAtoi,hc]; rfl
  | cons a ds ih =>
    obtain ⟨d,hd,rfl⟩ := h a List.mem_cons_self
    have hstep : Int32.ofNat v * 10 + Int32.ofNat (decimalDigit d).toNat - 48 =
        Int32.ofNat (v * 10 + ((decimalDigit d).toNat - 48)) := by
      rw [decimalDigit_toNat d hd,Nat.add_sub_cancel,Int32.ofNat_add,Int32.ofNat_add,Int32.ofNat_mul,← Int32.add_assoc]
      exact Int32.add_sub_cancel _ _
    rw [List.cons_append,skipAtoi,if_pos (decimalDigit_isDigit d hd),hstep,List.foldl_cons]
    exact ih (fun b hb => h b (List.mem_cons_of_mem _ hb)) _

theorem skipAtoi_decimal (fmt : List Char) (hc : c.isDigit = false) (n : ℕ) :
    skipAtoi (decimal n ++ c :: fmt) 0 = (Int32.ofNat n,c :: fmt) := by
  have hval : Numeral.valueOf (fun c : Char => c.toNat - 48) 10 (decimal n) = n :=
    Numeral.valueOf_numeral decimalDigit_val (by decide) n
  have hdigits : ∀ c ∈ decimal n, ∃ d < 10, decimalDigit d = c := fun c hc => Numeral.mem_numeral (by decide) hc
  refine (skipAtoi_digits hdigits hc 0).trans ?_
  rw [Numeral.valueOf] at hval
  rw [hval]

/-- The flags after a width is read: a zero in front counts as a flag. -/
def Field.addFlag (f : Field) (flags : Int32) : Int32 := if f = .numeral 0 then flags ||| ZEROPAD else flags

def Field.toWidth : Field → Int32
  | .numeral n => if n = 0 then -1 else Int32.ofNat n
  | _ => -1

def Field.toPrecision : Field → Int32
  | .numeral n => if Int32.ofNat n < 0 then 0 else Int32.ofNat n
  | _ => -1

def flagBits (l : List Flag) : Int32 := l.foldl (fun f g => f ||| g.bit) 0

theorem getWidth_other (hfmt : s.fmt = c :: fmt) (hc : Plain c) : getWidth s = s := by
  rw [getWidth,hfmt]
  dsimp only
  rw [hc.digit,if_neg Bool.false_ne_true,if_neg hc.star]

theorem getPrecision_other (hfmt : s.fmt = c :: fmt) (hc : c ≠ '.') : getPrecision s = s := by
  unfold getPrecision
  split
  · rename_i hdot
    rw [hfmt] at hdot
    exact absurd (List.cons.inj hdot).1 hc
  · rfl

theorem getPrecision_dot {t : Scan} (hfmt : s.fmt = '.' :: fmt) (ht : getDigits { s with fmt := fmt } = t) :
    getPrecision s = if t.precision < 0 then { t with precision := 0 } else t := by
  rw [getPrecision,hfmt,← ht]
  rfl

/-- A numeral begins with a digit, and with a flag only if it is zero. -/
theorem decimal_head (n : ℕ) : ∃ c fmt, decimal n = c :: fmt ∧ c.isDigit = true ∧ (n ≠ 0 → flag c = none) := by
  obtain ⟨c,fmt,hdec⟩ := List.exists_cons_of_ne_nil (Numeral.numeral_ne_nil decimalDigit 10 n)
  have hmem : c ∈ Numeral.numeral decimalDigit 10 n := by
    rw [hdec]
    exact List.mem_cons_self
  obtain ⟨d,hd,rfl⟩ := Numeral.mem_numeral (by decide) hmem
  refine ⟨_,fmt,hdec,decimalDigit_isDigit d hd,fun hn => decimalDigit_flag d hd ?_⟩
  rintro rfl
  have hhead : (Numeral.numeral decimalDigit 10 n).head? = some (decimalDigit 0) := by rw [hdec,List.head?_cons]
  refine hn (Numeral.numeral_head (fun c => c.toNat - 48) ?_ (by decide) hhead)
  exact decimalDigit_val

theorem getFlags_flags (hc : flag c = none) (l : List Flag) (fmt : List Char) (args : Stream' UInt32) :
    getFlags ⟨0,-1,-1,l.map Flag.char ++ c :: fmt,args⟩ = ⟨flagBits l,-1,-1,c :: fmt,args⟩ := by
  rw [getFlags,scanFlags_flags,scanFlags_stop hc]
  rfl

/-- Flags and a width without asterisk. -/
theorem read_width {f : Field} (hf : f.args = []) (hc : Plain c) (l : List Flag) (args : Stream' UInt32) :
    getWidth (getFlags ⟨0,-1,-1,l.map Flag.char ++ (f.text ++ c :: fmt),args⟩) =
      ⟨f.addFlag (flagBits l),f.toWidth,-1,c :: fmt,args⟩ := by
  have hflags : getFlags ⟨0,-1,-1,l.map Flag.char ++ (f.text ++ c :: fmt),args⟩ =
      getFlags ⟨flagBits l,-1,-1,f.text ++ c :: fmt,args⟩ := by
    rw [getFlags,getFlags,scanFlags_flags]
    rfl
  have hplain : ∀ flags, getWidth (getFlags ⟨flags,-1,-1,c :: fmt,args⟩) = ⟨flags,-1,-1,c :: fmt,args⟩ := by
    intro flags
    rw [getFlags,scanFlags_stop hc.flag]
    exact getWidth_other rfl hc
  rw [hflags]
  cases f with
  | absent => exact hplain _
  | star w => cases hf
  | numeral n =>
    by_cases hn : n = 0
    · -- the zero is taken for a flag
      subst hn
      exact hplain (flagBits l ||| ZEROPAD)
    · obtain ⟨a,ds,hdec,hdigit,hflag⟩ := decimal_head n
      have hskip := skipAtoi_decimal fmt hc.digit n
      rw [hdec,List.cons_append] at hskip
      rw [Field.text,hdec,List.cons_append,getFlags,scanFlags_stop (hflag hn),getWidth]
      dsimp only
      rw [if_pos hdigit,hskip,Field.addFlag,if_neg (by simpa using hn),Field.toWidth,if_neg hn]

/-- A precision without asterisk. -/
theorem read_precision {f : Field} (hf : f.args = []) (hc : Plain c) (hdot : c ≠ '.') (w : Int32)
    (args : Stream' UInt32) :
    getPrecision ⟨flags,w,-1,f.pointText ++ c :: fmt,args⟩ = ⟨flags,w,f.toPrecision,c :: fmt,args⟩ := by
  cases f with
  | absent => exact getPrecision_other rfl hdot
  | star p => cases hf
  | numeral n =>
    have hdigits : getDigits ⟨flags,w,-1,decimal n ++ c :: fmt,args⟩ = ⟨flags,w,Int32.ofNat n,c :: fmt,args⟩ := by
      obtain ⟨a,ds,hdec,hdigit,-⟩ := decimal_head n
      have hskip := skipAtoi_decimal fmt hc.digit n
      rw [hdec,List.cons_append] at hskip ⊢
      rw [getDigits]
      dsimp only
      rw [if_pos hdigit,hskip]
    rw [getPrecision_dot rfl hdigits,Field.toPrecision]
    split <;> rfl

theorem read_qualifier (d : Directive) (w p : Int32) (args : Stream' UInt32) :
    getQualifier ⟨flags,w,p,d.ending rest,args⟩ = ⟨flags,w,p,d.conv.char :: rest,args⟩ := by
  have hconv : ¬ (d.conv.char = 'h' ∨ d.conv.char = 'l' ∨ d.conv.char = 'L') := by cases d.conv <;> decide
  rw [Directive.ending,getQualifier]
  cases d.qualifier with
  | none => exact if_neg hconv
  | some q => exact if_pos (by cases q <;> decide)

variable (mem : UInt32 → List Char) (pos : ℕ)

/-- A directive without asterisks is read as it is written. -/
theorem directive_literal (hd : d.stars = []) (rest : List Char) (args : Stream' UInt32) :
    directive mem pos (d.text rest) args = convert mem pos
      ⟨d.width.addFlag (flagBits d.flags),d.width.toWidth,d.precision.toPrecision,d.conv.char :: rest,args⟩ := by
  obtain ⟨hw,hp⟩ := List.append_eq_nil_iff.mp hd
  obtain ⟨c,fmt,hend,hc,hdot⟩ := ending_head d rest
  obtain ⟨a,l,htail,ha⟩ := tail_head d.precision d rest
  rw [directive,Directive.text,htail,read_width hw ha,← htail,hend,read_precision hp hc hdot,← hend,read_qualifier]

/-- An asterisk is not skipped: the directive ends there, and is written as it stands. -/
theorem convert_star (fmt : List Char) (w p : Int32) (args : Stream' UInt32) :
    convert mem pos (getQualifier ⟨flags,w,p,'*' :: fmt,args⟩) = some ⟨['%','*'],[],fmt,args⟩ := rfl

theorem getWidth_star (flags w : Int32) (fmt : List Char) (args : Stream' UInt32) :
    ∃ f v, getWidth ⟨flags,-1,-1,'*' :: fmt,Stream'.cons w.toUInt32 args⟩ = ⟨f,v,-1,'*' :: fmt,args⟩ := by
  by_cases hw : w < 0
  · exact ⟨flags ||| LEFT,-w,if_pos hw⟩
  · exact ⟨flags,w,if_neg hw⟩

/-- A width that is taken from the arguments. -/
theorem directive_star_width {w : Int32} (hw : d.width = .star w) (rest : List Char) (args : Stream' UInt32) :
    directive mem pos (d.text rest) (Stream'.appendStream' d.stars args) =
      some ⟨['%','*'],[],d.precision.pointText ++ d.ending rest,Stream'.appendStream' d.precision.args args⟩ := by
  obtain ⟨f,v,hstar⟩ := getWidth_star (flagBits d.flags) w (d.precision.pointText ++ d.ending rest)
    (Stream'.appendStream' d.precision.args args)
  have hstars : Stream'.appendStream' d.stars args =
      Stream'.cons w.toUInt32 (Stream'.appendStream' d.precision.args args) := by
    rw [Directive.stars,hw]
    rfl
  rw [directive,Directive.text,hw,Field.text,List.cons_append,List.nil_append,getFlags_flags rfl,hstars,hstar,
    getPrecision_other rfl (by decide),convert_star]

/-- A precision that is taken from the arguments. -/
theorem directive_star_precision {p : Int32} (hw : d.width.args = []) (hp : d.precision = .star p) (rest : List Char)
    (args : Stream' UInt32) :
    directive mem pos (d.text rest) (Stream'.appendStream' d.stars args) = some ⟨['%','*'],[],d.ending rest,args⟩ := by
  rw [directive,Directive.text,Directive.stars,hw,hp]
  have hdot : ∀ args, getWidth (getFlags ⟨0,-1,-1,d.flags.map Flag.char ++ (d.width.text ++ '.' :: '*' :: d.ending rest),args⟩) =
      ⟨d.width.addFlag (flagBits d.flags),d.width.toWidth,-1,'.' :: '*' :: d.ending rest,args⟩ :=
    read_width hw (by decide) d.flags
  change convert mem pos (getQualifier (getPrecision (getWidth (getFlags ⟨0,-1,-1,d.flags.map Flag.char ++
    (d.width.text ++ '.' :: '*' :: d.ending rest),Stream'.cons p.toUInt32 args⟩)))) = _
  rw [hdot,getPrecision_dot (t := ⟨_,_,p,'*' :: d.ending rest,args⟩) rfl rfl]
  split <;> exact convert_star mem pos _ _ _ _

end Reading

/-! ## Asterisks -/

section Stars
variable {d : Directive}

theorem literal_of_stars (h : d.stars = []) : d.literal = d := by
  obtain ⟨hw,hp⟩ := List.append_eq_nil_iff.mp h
  obtain ⟨flags,width,precision,qualifier,conv⟩ := d
  cases width with
  | star w => cases hw
  | _ =>
    cases precision with
    | star p => cases hp
    | _ => rfl

theorem literal_stars (d : Directive) : d.literal.stars = [] := by
  obtain ⟨flags,width,precision,qualifier,conv⟩ := d
  cases width <;> cases precision <;> rfl

theorem ending_length (d : Directive) (rest : List Char) : rest.length < (d.ending rest).length := by
  rw [Directive.ending,List.length_append,List.length_cons]
  omega

/-- The conversion is left in the format by a directive with an asterisk. -/
theorem directive_stars (mem : UInt32 → List Char) (pos : ℕ) (h : d.stars ≠ []) (rest : List Char) (args : Stream' UInt32) :
    ∃ o, directive mem pos (d.text rest) (Stream'.appendStream' d.stars args) = some o ∧ o.text = ['%','*'] ∧
      rest.length < o.fmt.length := by
  have hend := ending_length d rest
  cases hw : d.width with
  | star w =>
    refine ⟨_,directive_star_width mem pos hw rest args,rfl,?_⟩
    rw [List.length_append]
    omega
  | _ =>
    have hargs : d.width.args = [] := by rw [hw]; rfl
    cases hp : d.precision with
    | star p => exact ⟨_,directive_star_precision mem pos hargs hp rest args,rfl,hend⟩
    | _ =>
      refine absurd ?_ h
      rw [Directive.stars,hw,hp]
      rfl

/-- A directive is always converted, and no part of the format is read twice. -/
theorem convert_some (mem : UInt32 → List Char) (pos : ℕ) (s : Scan) : ∃ o, convert mem pos s = some o ∧ o.fmt = s.fmt.tail := by
  unfold convert
  split
  · rename_i hfmt
    exact ⟨_,rfl,by rw [hfmt]; rfl⟩
  · rename_i c fmt hfmt
    rw [hfmt]
    have hnum : ∀ base width flags : Int32, 2 ≤ base → base ≤ 36 → ∃ o : Out,
        (number s.args.head.toInt32 base width s.precision flags).map (fun text => ⟨text,[],fmt,s.args.tail⟩) = some o ∧
          o.fmt = fmt := by
      intro base width flags h2 h36
      rw [number_eq h2 h36]
      exact ⟨_,rfl,rfl⟩
    dsimp only
    split
    · exact ⟨_,rfl,rfl⟩
    · exact ⟨_,rfl,rfl⟩
    · exact hnum _ _ _ (by decide) (by decide)
    · split <;> exact hnum _ _ _ (by decide) (by decide)
    · exact hnum _ _ _ (by decide) (by decide)
    · exact hnum _ _ _ (by decide) (by decide)
    · exact hnum _ _ _ (by decide) (by decide)
    · exact hnum _ _ _ (by decide) (by decide)
    · exact hnum _ _ _ (by decide) (by decide)
    · exact ⟨_,rfl,rfl⟩
    · exact ⟨_,rfl,rfl⟩

/-- A directive with asterisks does the same as the one with numerals in their place exactly if
it has no asterisks. With one, it writes `%*` and leaves its conversion to be copied. -/
theorem star_agrees_iff (mem : UInt32 → List Char) (pos : ℕ) (d : Directive) (rest : List Char) (args : Stream' UInt32) :
    (directive mem pos (d.text rest) (Stream'.appendStream' d.stars args) = directive mem pos (d.literal.text rest) args ↔
      d.stars = []) ∧
    (d.stars ≠ [] → ∃ o, directive mem pos (d.text rest) (Stream'.appendStream' d.stars args) = some o ∧
      o.text = ['%','*'] ∧ rest.length < o.fmt.length) ∧
    ∃ o, directive mem pos (d.literal.text rest) args = some o ∧ o.fmt = rest := by
  obtain ⟨o,ho,hfmt⟩ := convert_some mem pos ⟨d.literal.width.addFlag (flagBits d.literal.flags),d.literal.width.toWidth,
    d.literal.precision.toPrecision,d.literal.conv.char :: rest,args⟩
  rw [← directive_literal mem pos (literal_stars d)] at ho
  refine ⟨⟨fun heq => ?_,fun h => ?_⟩,fun h => directive_stars mem pos h rest args,o,ho,hfmt⟩
  · by_contra h
    obtain ⟨o',ho',-,hlen⟩ := directive_stars mem pos h rest args
    rw [ho',ho] at heq
    rw [Option.some.inj heq,hfmt] at hlen
    exact Nat.lt_irrefl _ hlen
  · rw [literal_of_stars h,h]
    rfl

/-- `%*d` with 5 and 42 is copied, `%5d` with 42 is not. -/
theorem vsprintf_star :
    vsprintf (fun _ => []) "%*d".toList (Stream'.appendStream' [5,42] (Stream'.const 0)) = some ("%*d".toList,[]) ∧
    vsprintf (fun _ => []) "%5d".toList (Stream'.appendStream' [42] (Stream'.const 0)) = some ("   42".toList,[]) := by
  have hdir : ∀ args, directive (fun _ => []) 0 ['5','d'] (Stream'.cons 42 args) = some ⟨"   42".toList,[],[],args⟩ := by
    intro args
    have hnum : directive (fun _ => []) 0 ['5','d'] (Stream'.cons 42 args) =
      (number 42 10 5 (-1) (0 ||| SIGN)).map (fun t => ⟨t,[],[],args⟩) := rfl
    rw [hnum,number_eq (by decide) (by decide),show written 42 10 5 (-1) (0 ||| SIGN) = "   42".toList by decide]
    rfl
  refine ⟨rfl,?_⟩
  have hstep : ∀ args, vsprintf (fun _ => []) "%5d".toList args = (directive (fun _ => []) 0 ['5','d'] args).bind
      (fun o => (vsprintfLoop (fun _ => []) 2 (0 + o.text.length) o.fmt o.args).map
        (fun r => (o.text ++ r.1,o.stores ++ r.2))) := fun _ => rfl
  rw [hstep]
  exact congrArg (Option.bind · _) (hdir _)

end Stars

end Micron.Kernel.Vsprintf

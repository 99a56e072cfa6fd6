import Micron.Kernel.Vsprintf

/-! # What a format means

A format is a row of items: characters that are copied, and directives. The text of an item is
defined from its argument alone, and the text of a format is that of its items in order.
-/
namespace Micron.Kernel.Vsprintf

/-! ## Fields -/

def field (left : Bool) (w : ℕ) (t : List Char) : List Char :=
  if left then t ++ List.replicate (w - t.length) ' ' else List.replicate (w - t.length) ' ' ++ t

def Field.cells : Field → ℕ
  | .numeral n => n
  | _ => 0

def Field.cut (f : Field) (s : List Char) : List Char :=
  match f with
  | .numeral n => s.take n
  | _ => s

def Directive.rendered (mem : UInt32 → List Char) (d : Directive) (arg : UInt32) : List Char :=
  let flags := d.width.addFlag (flagBits d.flags)
  let num (base width flags : Int32) := formatted arg.toInt32 base width d.precision.toPrecision flags
  match d.conv with
  | .c => field (has flags LEFT) d.width.cells [Char.ofNat (arg.toNat % 256)]
  | .s => field (has flags LEFT) d.width.cells (d.precision.cut (if arg = 0 then "<null>".toList else mem arg))
  | .o => num 8 d.width.toWidth flags
  | .p => if d.width.cells = 0 then num 16 8 (flags ||| ZEROPAD) else num 16 d.width.toWidth flags
  | .x => num 16 d.width.toWidth (flags ||| SMALL)
  | .X => num 16 d.width.toWidth flags
  | .d => num 10 d.width.toWidth (flags ||| SIGN)
  | .i => num 10 d.width.toWidth (flags ||| SIGN)
  | .u => num 10 d.width.toWidth flags

/-! ## Items -/

inductive Item
  | plain (c : Char)
  | percent
  /-- a percent sign before a character that is no part of a directive -/
  | other (c : Char)
  | conv (d : Directive)
  /-- the number of characters so far, stored through the argument -/
  | count
deriving DecidableEq

def Item.text (rest : List Char) : Item → List Char
  | .plain c => c :: rest
  | .percent => '%' :: '%' :: rest
  | .other c => '%' :: c :: rest
  | .conv d => '%' :: d.text rest
  | .count => '%' :: 'n' :: rest

def format (its : List Item) : List Char := its.foldr (fun it rest => it.text rest) []

/-- A width or a precision that 32 bits can hold, with room for a sign and a prefix. -/
def Field.Small (f : Field) : Prop := f.args = [] ∧ f.cells < 2 ^ 31 - 8

def Item.Ok : Item → Prop
  | .plain c => c ≠ '%'
  | .percent => True
  | .other c => Plain c ∧ c ∉ ['.','h','l','L','n','%'] ∧ ∀ v : Conv, v.char ≠ c
  | .conv d => d.width.Small ∧ d.precision.Small
  | .count => True

section
variable (mem : UInt32 → List Char)

def render : ℕ → List Item → Stream' UInt32 → List Char × List (UInt32 × ℕ)
  | _, [], _ => ([],[])
  | pos, it :: its, args =>
    match it with
    | .plain c =>
      let r := render (pos + 1) its args
      (c :: r.1,r.2)
    | .percent =>
      let r := render (pos + 1) its args
      ('%' :: r.1,r.2)
    | .other c =>
      let r := render (pos + 2) its args
      ('%' :: c :: r.1,r.2)
    | .conv d =>
      let t := d.rendered mem args.head
      let r := render (pos + t.length) its args.tail
      (t ++ r.1,r.2)
    | .count =>
      let r := render pos its args.tail
      (r.1,(args.head,pos) :: r.2)

end

/-! ## The loops of the conversions -/

section Loops
variable {w len flags : Int32} {n : ℕ} {f : Field}

theorem toInt_pred (h : -2 ^ 31 < w.toInt) : (w - 1).toInt = w.toInt - 1 := by
  have hlt := w.toInt_lt
  rw [Int32.toInt_sub,show (1 : Int32).toInt = 1 from rfl,Int.bmod_eq_of_le (by omega) (by omega)]

theorem charLoop_stop (h : -2 ^ 31 < w.toInt) (hw : w.toInt ≤ 1) : charLoop w = ([],w - 1) := by
  have hpred := toInt_pred h
  rw [charLoop,if_neg]
  rw [Int32.lt_iff_toInt_lt,Int32.toInt_zero]
  omega

theorem charLoop_go (h : w.toInt = n + 1) : charLoop w = (List.replicate n ' ',0) := by
  have hpred := toInt_pred (w := w) (by omega)
  induction n generalizing w with
  | zero =>
    rw [charLoop_stop (by omega) (by omega)]
    rw [show w - 1 = 0 from Int32.toInt_inj.mp (by rw [Int32.toInt_zero]; omega)]
    rfl
  | succ n ih =>
    have hgo : 0 < w - 1 := by
      rw [Int32.lt_iff_toInt_lt,Int32.toInt_zero]
      omega
    rw [charLoop,if_pos hgo,ih (by omega) (toInt_pred (by omega))]
    rfl

theorem fieldLoop_stop (h : w.toInt ≤ len.toInt) : fieldLoop len w = ([],w - 1) := by
  rw [fieldLoop,if_neg]
  rw [Int32.lt_iff_toInt_lt]
  omega

theorem fieldLoop_go (hlen : 0 ≤ len.toInt) (h : w.toInt = len.toInt + n) :
    fieldLoop len w = (List.replicate n ' ',len - 1) := by
  have hpred := toInt_pred (w := w) (by omega)
  induction n generalizing w with
  | zero =>
    rw [fieldLoop_stop (by omega),show w = len from Int32.toInt_inj.mp (by omega)]
    rfl
  | succ n ih =>
    have hgo : len < w := by
      rw [Int32.lt_iff_toInt_lt]
      omega
    rw [fieldLoop,if_pos hgo,ih (by omega) (toInt_pred (by omega))]
    rfl

/-! ## Widths and precisions -/

theorem toInt_cells (h : n < 2 ^ 31) : (Int32.ofNat n).toInt = n := Int32.toInt_ofNat_of_lt h

theorem Field.Small.width (h : f.Small) : f.cells = 0 ∧ f.toWidth.toInt = -1 ∨ 0 < f.cells ∧ f.toWidth.toInt = f.cells := by
  obtain ⟨hargs,hlt⟩ := h
  cases f with
  | absent => exact Or.inl ⟨rfl,rfl⟩
  | star n => cases hargs
  | numeral n =>
    rw [cells] at hlt
    rw [toWidth,cells]
    by_cases hn : n = 0
    · rw [if_pos hn]
      exact Or.inl ⟨hn,rfl⟩
    · rw [if_neg hn,toInt_cells (by omega)]
      exact Or.inr ⟨by omega,rfl⟩

theorem Field.Small.precision (h : f.Small) :
    f = .absent ∧ f.toPrecision.toInt = -1 ∨ f = .numeral f.cells ∧ f.toPrecision.toInt = f.cells := by
  obtain ⟨hargs,hlt⟩ := h
  cases f with
  | absent => exact Or.inl ⟨rfl,rfl⟩
  | star n => cases hargs
  | numeral n =>
    rw [cells] at hlt
    rw [toPrecision,cells,if_neg,toInt_cells (by omega)]
    · exact Or.inr ⟨rfl,rfl⟩
    · rw [Int32.lt_iff_toInt_lt,Int32.toInt_zero,toInt_cells (by omega)]
      omega

/-! ## Characters and strings -/

theorem charText_eq (h : f.Small) (arg : UInt32) :
    charText flags f.toWidth arg = field (has flags LEFT) f.cells [Char.ofNat (arg.toNat % 256)] := by
  rw [charText,field,List.length_singleton]
  obtain ⟨hz,hw⟩ | ⟨hpos,hw⟩ := h.width
  · -- neither loop is entered
    have hstop := charLoop_stop (w := f.toWidth) (by omega) (by omega)
    have hpred := toInt_pred (w := f.toWidth) (by omega)
    rw [hstop,hz]
    split
    · rw [hstop]
      rfl
    · rw [charLoop_stop (by dsimp only; omega) (by dsimp only; omega)]
      rfl
  · have hgo := charLoop_go (w := f.toWidth) (n := f.cells - 1) (by omega)
    rw [hgo]
    split
    · rw [hgo]
      rfl
    · rw [show charLoop 0 = ([],0 - 1) from charLoop_stop (by decide) (by decide)]

theorem cut_length (h : f.Small) {s : List Char} (hs : s.length < 2 ^ 31) :
    let len := if f.toPrecision < 0 then Int32.ofNat s.length else
      if Int32.ofNat s.length > f.toPrecision then f.toPrecision else Int32.ofNat s.length
    len.toInt = (f.cut s).length ∧ s.take (f.cut s).length = f.cut s := by
  intro len
  simp only [len,gt_iff_lt,Int32.lt_iff_toInt_lt,Int32.toInt_zero,toInt_cells hs]
  obtain ⟨ha,hp⟩ | ⟨hn,hp⟩ := h.precision
  · have hcut : f.cut s = s := by rw [ha]; rfl
    rw [if_pos (by omega),toInt_cells hs,hcut,List.take_length]
    exact ⟨rfl,rfl⟩
  · have hcut : f.cut s = s.take f.cells := by rw [hn]; rfl
    rw [if_neg (by omega),hcut,List.length_take,List.take_eq_take_iff]
    refine ⟨?_,by omega⟩
    split
    · omega
    · rw [toInt_cells hs]
      omega

theorem strText_eq {g : Field} (h : f.Small) (hg : g.Small) {s : List Char} (hs : s.length < 2 ^ 31) :
    strText flags f.toWidth g.toPrecision s = field (has flags LEFT) f.cells (g.cut s) := by
  obtain ⟨hlen,htake⟩ := cut_length hg hs
  rw [strText]
  generalize (if g.toPrecision < 0 then Int32.ofNat s.length else
      if Int32.ofNat s.length > g.toPrecision then g.toPrecision else Int32.ofNat s.length) = len at hlen ⊢
  simp only [hlen,Int.toNat_natCast,htake,field]
  have hpred := toInt_pred (w := len) (by omega)
  by_cases hw : f.cells ≤ (g.cut s).length
  · -- neither loop is entered
    have hle : f.toWidth.toInt ≤ len.toInt ∧ -1 ≤ f.toWidth.toInt := by
      obtain ⟨-,hw'⟩ | ⟨-,hw'⟩ := h.width
      · omega
      · omega
    have hpred' := toInt_pred (w := f.toWidth) (by omega)
    rw [fieldLoop_stop hle.1,Nat.sub_eq_zero_of_le hw]
    split
    · rw [fieldLoop_stop hle.1]
      rfl
    · rw [fieldLoop_stop (by dsimp only; omega)]
      simp
  · have hgo : fieldLoop len f.toWidth = (List.replicate (f.cells - (g.cut s).length) ' ',len - 1) := by
      apply fieldLoop_go (by omega)
      obtain ⟨hz,-⟩ | ⟨-,hw'⟩ := h.width
      · omega
      · omega
    rw [hgo]
    split
    · rw [hgo]
      rfl
    · rw [fieldLoop_stop (by dsimp only; omega)]
      simp

/-! ## Numbers -/

variable {num base size precision type : Int32}

theorem signText_length (num type : Int32) : (signText num type).length ≤ 1 := by
  rw [signText]
  split
  · decide
  · split
    · decide
    · split <;> decide

theorem prefixText_length (base type : Int32) : (prefixText base type).length ≤ 2 := by
  rw [prefixText]
  split
  · split
    · exact Nat.le_succ 1
    · split
      · exact Nat.le_refl 2
      · exact Nat.zero_le 2
  · exact Nat.zero_le 2

/-- A small precision leaves room to count down a width. -/
theorem number_formatted (h2 : 2 ≤ base) (h36 : base ≤ 36) (hsize : -1 ≤ size.toInt) (hp : precision.toInt < 2 ^ 31 - 8) :
    number num base size precision type = some (formatted num base size precision type) := by
  have hb := (Machine.toNat_range (m := 2) (n := 36) rfl rfl h2 h36).1
  have hsign := signText_length num type
  have hpre := prefixText_length base type
  have hnum := numeral_length num type hb
  have hbody := body_length num base precision type
  rw [number_eq h2 h36,Option.some_inj]
  apply (written_eq_iff hb).mpr
  left
  have hmargin : margin type ≤ 2 := by
    rw [margin]
    split
    · decide
    · split <;> decide
  rw [bare]
  omega

end Loops

/-! ## Items -/

section Items
variable {mem : UInt32 → List Char} {pos : ℕ} {d : Directive} {c : Char} {rest : List Char} {args : Stream' UInt32}

/-- A directive writes its text for the next argument. -/
theorem directive_conv (hw : d.width.Small) (hp : d.precision.Small) (hm : ∀ p, (mem p).length < 2 ^ 31) :
    directive mem pos (d.text rest) args = some ⟨d.rendered mem args.head,[],rest,args.tail⟩ := by
  have hsize : -1 ≤ d.width.toWidth.toInt := by
    obtain ⟨-,h⟩ | ⟨-,h⟩ := hw.width
    · omega
    · omega
  have hprec : d.precision.toPrecision.toInt < 2 ^ 31 - 8 := by
    have hlt := hp.2
    obtain ⟨-,h⟩ | ⟨-,h⟩ := hp.precision
    · omega
    · omega
  have habsent : d.width.toWidth = -1 ↔ d.width.cells = 0 := by
    rw [← Int32.toInt_inj,show (-1 : Int32).toInt = -1 from rfl]
    obtain ⟨hz,h⟩ | ⟨hpos,h⟩ := hw.width
    · omega
    · omega
  have hstr : (if args.head = 0 then "<null>".toList else mem args.head).length < 2 ^ 31 := by
    split
    · decide
    · exact hm _
  have hnum : ∀ base width flags : Int32, 2 ≤ base → base ≤ 36 → -1 ≤ width.toInt →
      (number args.head.toInt32 base width d.precision.toPrecision flags).map (Out.mk · [] rest args.tail) =
      some ⟨formatted args.head.toInt32 base width d.precision.toPrecision flags,[],rest,args.tail⟩ := by
    intro base width flags h2 h36 hwidth
    rw [number_formatted h2 h36 hwidth hprec,Option.map_some]
  rw [directive_literal mem pos (List.append_eq_nil_iff.mpr ⟨hw.1,hp.1⟩),Directive.rendered]
  cases d.conv with
  | c => exact congrArg (fun t => some (Out.mk t [] rest args.tail)) (charText_eq hw args.head)
  | s => exact congrArg (fun t => some (Out.mk t [] rest args.tail)) (strText_eq hw hp hstr)
  | p =>
    dsimp only [Conv.char,convert]
    by_cases h : d.width.cells = 0
    · rw [if_pos h,if_pos (habsent.mpr h)]
      exact hnum 16 8 _ (by decide) (by decide) (by decide)
    · rw [if_neg h,if_neg (mt habsent.mp h)]
      exact hnum 16 _ _ (by decide) (by decide) hsize
  | o => exact hnum 8 _ _ (by decide) (by decide) hsize
  | x => exact hnum 16 _ _ (by decide) (by decide) hsize
  | X => exact hnum 16 _ _ (by decide) (by decide) hsize
  | d => exact hnum 10 _ _ (by decide) (by decide) hsize
  | i => exact hnum 10 _ _ (by decide) (by decide) hsize
  | u => exact hnum 10 _ _ (by decide) (by decide) hsize

theorem directive_other (h : (Item.other c).Ok) : directive mem pos (c :: rest) args = some ⟨['%',c],[],rest,args⟩ := by
  obtain ⟨hc,hlist,hconv⟩ := h
  simp only [List.mem_cons,List.not_mem_nil,or_false,not_or] at hlist
  obtain ⟨hdot,hh,hl,hL,hn,hpercent⟩ := hlist
  have hread : getQualifier (getPrecision (getWidth (getFlags ⟨0,-1,-1,c :: rest,args⟩))) = ⟨0,-1,-1,c :: rest,args⟩ := by
    rw [getFlags,scanFlags_stop hc.flag,getWidth_other rfl hc,getPrecision_other rfl hdot,getQualifier]
    exact if_neg (by simp [hh,hl,hL])
  rw [directive,hread,convert]
  dsimp only
  split
  · exact absurd rfl (hconv .c)
  · exact absurd rfl (hconv .s)
  · exact absurd rfl (hconv .o)
  · exact absurd rfl (hconv .p)
  · exact absurd rfl (hconv .x)
  · exact absurd rfl (hconv .X)
  · exact absurd rfl (hconv .d)
  · exact absurd rfl (hconv .i)
  · exact absurd rfl (hconv .u)
  · exact absurd rfl hn
  · rw [if_pos hpercent]
    rfl

theorem text_length (d : Directive) (rest : List Char) : rest.length < (d.text rest).length := by
  have hend := ending_length d rest
  simp only [Directive.text,List.length_append]
  omega

/-- Every item takes a step of the loop. -/
theorem text_lt (it : Item) (rest : List Char) : rest.length < (it.text rest).length := by
  cases it with
  | conv d => exact Nat.lt_succ_of_lt (text_length d rest)
  | plain c => exact Nat.lt_succ_self _
  | _ => exact Nat.lt_succ_of_lt (Nat.lt_succ_self _)

variable {fuel : ℕ}

theorem vsprintfLoop_directive {o : Out} (h : directive mem pos rest args = some o) :
    vsprintfLoop mem (fuel + 1) pos ('%' :: rest) args =
    (vsprintfLoop mem fuel (pos + o.text.length) o.fmt o.args).map fun r => (o.text ++ r.1,o.stores ++ r.2) := by
  rw [vsprintfLoop,if_neg (by simp),h]
  exact (Option.map_eq_bind ..).symm

theorem vsprintfLoop_items {its : List Item} (hok : ∀ it ∈ its, it.Ok) (hm : ∀ p, (mem p).length < 2 ^ 31)
    (hfuel : (format its).length ≤ fuel) : vsprintfLoop mem fuel pos (format its) args = some (render mem pos its args) := by
  induction its generalizing fuel pos args with
  | nil => cases fuel <;> rfl
  | cons it its ih =>
    have hlt := text_lt it (format its)
    have hpos : (format its).length < fuel := Nat.lt_of_lt_of_le hlt hfuel
    obtain ⟨fuel,rfl⟩ := Nat.exists_eq_add_one.mpr (Nat.zero_lt_of_lt hpos)
    have hrest : (format its).length ≤ fuel := Nat.lt_succ_iff.mp hpos
    have hit := hok it List.mem_cons_self
    have ih : ∀ pos args, vsprintfLoop mem fuel pos (format its) args = some (render mem pos its args) :=
      fun _ _ => ih (fun i hi => hok i (List.mem_cons_of_mem _ hi)) hrest
    change vsprintfLoop mem (fuel + 1) pos (it.text (format its)) args = _
    cases it with
    | plain c =>
      rw [Item.text,vsprintfLoop,if_pos (show c ≠ '%' from hit),ih]
      rfl
    | percent =>
      rw [Item.text,vsprintfLoop_directive (o := ⟨['%'],[],format its,args⟩) rfl,ih]
      rfl
    | other c =>
      rw [Item.text,vsprintfLoop_directive (directive_other hit),ih]
      rfl
    | conv d =>
      rw [Item.text,vsprintfLoop_directive (directive_conv hit.1 hit.2 hm),ih]
      rfl
    | count =>
      rw [Item.text,vsprintfLoop_directive (o := ⟨[],[(args.head,pos)],format its,args.tail⟩) rfl,ih]
      rfl

/-- A row of items is written item by item: what is no directive is copied, each directive
takes the next argument and writes its text for it, and `%n` stores the number of characters
in front of it. -/
theorem vsprintf_renders (mem : UInt32 → List Char) (hm : ∀ p, (mem p).length < 2 ^ 31) (its : List Item)
    (hok : ∀ it ∈ its, it.Ok) (args : Stream' UInt32) : vsprintf mem (format its) args = some (render mem 0 its args) := by
  apply vsprintfLoop_items hok hm
  exact Nat.le_refl _

def sample : List Item :=
  [.conv ⟨[.minus],.numeral 4,.absent,none,.s⟩,.plain '|',.conv ⟨[.hash,.zero],.numeral 6,.absent,none,.x⟩,.percent,.count]

theorem vsprintf_sample : vsprintf (fun _ => "hda".toList) (format sample) (Stream'.appendStream' [7,42,9] (Stream'.const 0)) =
    some ("hda |0x002a%".toList,[(9,12)]) := by
  rw [vsprintf_renders (fun _ => "hda".toList) (fun _ => by decide) sample]
  · decide +kernel
  · intro it hit
    simp only [sample,List.mem_cons,List.not_mem_nil,or_false] at hit
    rcases hit with rfl | rfl | rfl | rfl | rfl
    · exact ⟨⟨rfl,by decide⟩,⟨rfl,by decide⟩⟩
    · exact (by decide : '|' ≠ '%')
    · exact ⟨⟨rfl,by decide⟩,⟨rfl,by decide⟩⟩
    · trivial
    · trivial

end Items

/-! ## Common items -/

section Common
variable {mem : UInt32 → List Char}

def plains (s : String) : List Item := s.toList.map .plain

theorem plains_ok {s : String} (h : '%' ∉ s.toList) : ∀ it ∈ plains s, it.Ok := by
  intro it hit
  obtain ⟨c,hc,rfl⟩ := List.mem_map.mp hit
  exact fun hp => h (hp ▸ hc)

theorem absent_small : Field.absent.Small := ⟨rfl,by decide⟩

theorem conv_ok (v : Conv) : (Item.conv ⟨[],.absent,.absent,none,v⟩).Ok := ⟨absent_small,absent_small⟩

def dec (v : UInt32) : List Char := signText v.toInt32 SIGN ++ Numeral.numeral (digit SIGN) 10 v.toInt32.toInt.natAbs

theorem formatted_bare (num base type : Int32) :
    formatted num base (-1) (-1) type = signText num type ++ prefixText base type ++ numeral num base type := by
  have hmissing : missing num base (-1) (-1) type = 0 := by
    rw [missing,show (-1 : Int32).toInt = -1 from rfl]
    omega
  have hbody : body num base (-1) type = numeral num base type := by
    rw [body,show (-1 : Int32).toInt.toNat = 0 from rfl,Nat.zero_sub]
    rfl
  rw [formatted,hmissing,hbody]
  simp

theorem dec_rendered (mem : UInt32 → List Char) (v : UInt32) :
    Directive.rendered mem ⟨[],.absent,.absent,none,.d⟩ v = dec v := by
  have h := formatted_bare v.toInt32 10 SIGN
  rw [numeral_eq,show prefixText 10 SIGN = [] by decide,List.append_nil,magnitude,if_pos (by decide)] at h
  exact h

/-- The text does not depend on where it begins. -/
theorem render_text (pos : ℕ) (its : List Item) (args : Stream' UInt32) :
    (render mem pos its args).1 = (render mem 0 its args).1 := by
  induction its generalizing pos args with
  | nil => rfl
  | cons it its ih =>
    cases it with
    | plain c => exact congrArg (c :: ·) ((ih (pos + 1) args).trans (ih (0 + 1) args).symm)
    | percent => exact congrArg ('%' :: ·) ((ih (pos + 1) args).trans (ih (0 + 1) args).symm)
    | other c => exact congrArg (fun t => '%' :: c :: t) ((ih (pos + 2) args).trans (ih (0 + 2) args).symm)
    | conv d => exact congrArg (d.rendered mem args.head ++ ·) ((ih _ args.tail).trans (ih _ args.tail).symm)
    | count => exact (ih pos args.tail).trans (ih 0 args.tail).symm

theorem render_plain (c : Char) (its : List Item) (args : Stream' UInt32) :
    (render mem 0 (.plain c :: its) args).1 = c :: (render mem 0 its args).1 :=
  congrArg (c :: ·) (render_text _ its args)

theorem render_plains (s : String) (its : List Item) (args : Stream' UInt32) :
    (render mem 0 (plains s ++ its) args).1 = s.toList ++ (render mem 0 its args).1 := by
  rw [plains]
  induction s.toList with
  | nil => rfl
  | cons c l ih =>
    rw [List.map_cons,List.cons_append,List.cons_append,← ih]
    exact render_plain _ _ _

theorem render_conv (d : Directive) (its : List Item) (v : UInt32) (args : Stream' UInt32) :
    (render mem 0 (.conv d :: its) (Stream'.cons v args)).1 = d.rendered mem v ++ (render mem 0 its args).1 :=
  congrArg (d.rendered mem v ++ ·) (render_text _ its args)

end Common

end Micron.Kernel.Vsprintf

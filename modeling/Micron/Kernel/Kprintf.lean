import Mathlib.Data.Stream.Init
import Micron.Kernel.Itoa
import Micron.Kernel.Tty
import Micron.Lib.Fuel

/-! # Kernel messages

`kprintf` of `libc.c` works on the format as it stands in memory and passes every piece to
the console at once: numbers by way of `itoa`, strings, colors and cursor positions. A
percent sign in front of the terminator makes it step over the terminator.
-/
namespace Micron.Kernel.Kprintf
open Bytes Numeral Itoa Tty Fuel

inductive Call
  | write (buf : List UInt8)
  | ioctl (cmd arg : Int32)
deriving DecidableEq

def bytes (m : ℕ → UInt8) (a n : ℕ) : List UInt8 := (List.range n).map (fun k => m (a + k))

/-- `while(*str++!='\0') len++`, in a number of steps. -/
def strlen (m : ℕ → UInt8) : ℕ → ℕ → Option ℕ
  | 0, _ => none
  | fuel + 1, str => if m str ≠ 0 then (strlen m fuel (str + 1)).map (· + 1) else some 0

def charArg (v : UInt32) : Int32 := v.toUInt8.toInt8.toInt32

section
variable (m : ℕ → UInt8)

def numberCase (fuel : ℕ) (radix : Int32) (buf : ℕ → UInt8) (args : Stream' UInt32) :
    Option (List Call × (ℕ → UInt8) × Stream' UInt32) := do
  let buf ← itoa fuel args.head.toInt32 buf radix
  let len ← strlen buf fuel 0
  return ([.write (bytes buf 0 len)],buf,args.tail)

def conversion (fuel : ℕ) (c : UInt8) (buf : ℕ → UInt8) (args : Stream' UInt32) :
    Option (List Call × (ℕ → UInt8) × Stream' UInt32) :=
  let arg := args.head
  if c = 98 then numberCase fuel 2 buf args
  else if c = 100 then numberCase fuel 10 buf args
  else if c = 120 then numberCase fuel 16 buf args
  else if c = 115 then (strlen m fuel arg.toNat).map fun len => ([.write (bytes m arg.toNat len)],buf,args.tail)
  else if c = 99 then some ([.write [arg.toUInt8]],buf,args.tail)
  else if c = 67 then some ([.ioctl 2 (charArg arg)],buf,args.tail)
  else if c = 88 then some ([.ioctl 4 (charArg arg)],buf,args.tail)
  else if c = 89 then some ([.ioctl 5 (charArg arg)],buf,args.tail)
  else some ([],buf,args)

def kprintf : ℕ → ℕ → (ℕ → UInt8) → Stream' UInt32 → Option (List Call)
  | 0, _, _, _ => none
  | fuel + 1, fmt, buf, args =>
    if m fmt = 0 then some []
    else if m fmt = 37 then do
      let r ← conversion m fuel (m (fmt + 1)) buf args
      let rest ← kprintf fuel (fmt + 2) r.2.1 r.2.2
      return r.1 ++ rest
    else do
      let rest ← kprintf fuel (fmt + 1) buf args
      return .write [m fmt] :: rest

end

/-! ## Formats as rows of items -/

inductive Conv
  | b
  | d
  | x
  | s
  | c
  | C
  | X
  | Y
deriving DecidableEq

def Conv.char : Conv → UInt8
  | .b => 98
  | .d => 100
  | .x => 120
  | .s => 115
  | .c => 99
  | .C => 67
  | .X => 88
  | .Y => 89

inductive Item
  | plain (c : UInt8)
  | conv (v : Conv)
  /-- a percent sign before a letter that means nothing -/
  | other (c : UInt8)
deriving DecidableEq

def Item.text : Item → List UInt8
  | .plain c => [c]
  | .conv v => [37,v.char]
  | .other c => [37,c]

def text (its : List Item) : List UInt8 := its.flatMap Item.text

def Item.Ok : Item → Prop
  | .plain c => c ≠ 0 ∧ c ≠ 37
  | .conv _ => True
  | .other c => c ≠ 0 ∧ ∀ v : Conv, v.char ≠ c

/-- Every string is a row of items, but for a percent sign at its end. -/
theorem exists_items (s : List UInt8) (hs : 0 ∉ s) :
    ∃ its, (∀ it ∈ its, it.Ok) ∧ (s = text its ∨ s = text its ++ [37]) := by
  have hadd : ∀ (it : Item) (s : List UInt8), it.Ok → (∃ its, (∀ it ∈ its, it.Ok) ∧ (s = text its ∨ s = text its ++ [37])) →
      ∃ its, (∀ it ∈ its, it.Ok) ∧ (it.text ++ s = text its ∨ it.text ++ s = text its ++ [37]) := by
    rintro it s hit ⟨its,hok,hs⟩
    refine ⟨it :: its,List.forall_mem_cons.mpr ⟨hit,hok⟩,?_⟩
    rw [text,List.flatMap_cons,List.append_assoc]
    exact hs.imp (congrArg _) (congrArg _)
  induction s using List.twoStepInduction with
  | nil => exact ⟨[],List.forall_mem_nil _,Or.inl rfl⟩
  | singleton c =>
    by_cases hc : c = 37
    · exact ⟨[],List.forall_mem_nil _,Or.inr (congrArg (fun c => [c]) hc)⟩
    · apply hadd (.plain c) []
      · exact ⟨fun h0 => hs (h0 ▸ List.mem_cons_self),hc⟩
      · exact ⟨[],List.forall_mem_nil _,Or.inl rfl⟩
  | cons_cons c e s ih ih' =>
    have hc : c ≠ 0 := fun h0 => hs (h0 ▸ List.mem_cons_self)
    have he : e ≠ 0 := fun h0 => hs (h0 ▸ List.mem_cons_of_mem _ List.mem_cons_self)
    by_cases hp : c = 37
    · have hrest := ih (fun hm => hs (List.mem_cons_of_mem _ (List.mem_cons_of_mem _ hm)))
      rw [hp]
      by_cases hv : ∃ v : Conv, v.char = e
      · obtain ⟨v,rfl⟩ := hv
        exact hadd (.conv v) s trivial hrest
      · exact hadd (.other e) s ⟨he,fun v hv' => hv ⟨v,hv'⟩⟩ hrest
    · exact hadd (.plain c) (e :: s) ⟨hc,hp⟩ (ih' e (fun hm => hs (List.mem_cons_of_mem _ hm)))

/-! ## What a format means -/

section
variable (str : UInt32 → List UInt8)

def Conv.call (arg : UInt32) : Conv → Call
  | .b => .write (numeral letter 2 arg.toNat)
  | .d => .write (numeral letter 10 arg.toNat)
  | .x => .write (numeral letter 16 arg.toNat)
  | .s => .write (str arg)
  | .c => .write [arg.toUInt8]
  | .C => .ioctl 2 (charArg arg)
  | .X => .ioctl 4 (charArg arg)
  | .Y => .ioctl 5 (charArg arg)

def calls : List Item → Stream' UInt32 → List Call
  | [], _ => []
  | .plain c :: its, args => .write [c] :: calls its args
  | .conv v :: its, args => v.call str args.head :: calls its args.tail
  | .other _ :: its, args => calls its args

def after : List Item → Stream' UInt32 → Stream' UInt32
  | [], args => args
  | .conv _ :: its, args => after its args.tail
  | _ :: its, args => after its args

end

def taken (w : Conv) : List Item → Stream' UInt32 → List UInt32
  | [], _ => []
  | .conv v :: its, args => if v = w then args.head :: taken w its args.tail else taken w its args.tail
  | _ :: its, args => taken w its args

/-! ## One item -/

variable {m buf : ℕ → UInt8} {a fmt : ℕ} {s : List UInt8} {args : Stream' UInt32} {str : UInt32 → List UInt8}
  {its : List Item} {v : Conv} {c : UInt8}

theorem bytes_of_at (h : At m a s) : bytes m a s.length = s := by
  apply List.ext_getElem
  · simp [bytes]
  · intro i _ hi
    simp only [bytes,List.getElem_map,List.getElem_range]
    exact h i hi

theorem strlen_settles (h : At m a (s ++ [0])) (hs : 0 ∉ s) : Settles (fun k => strlen m k a) s.length := by
  induction s generalizing a with
  | nil =>
    apply (settles_const 0).succ
    intro k
    rw [strlen,if_neg]
    exact not_ne_iff.mpr (at_cons.mp h).1
  | cons c s ih =>
    obtain ⟨h0,h⟩ := at_cons.mp h
    apply ((ih h (fun hm => hs (List.mem_cons_of_mem _ hm))).map (· + 1)).succ
    intro k
    rw [strlen,if_pos]
    rw [h0]
    exact fun hc => hs (hc ▸ List.mem_cons_self)

/-- `itoa` needs no more than 33 steps. -/
theorem itoa_steps {value radix : Int32} {fuel : ℕ} (h : 33 ≤ fuel) (h2 : 2 ≤ radix.toUInt32.toNat) :
    itoa fuel value buf radix = itoa 33 value buf radix := by
  obtain ⟨k,rfl⟩ := Nat.exists_eq_add_one.mpr (Nat.zero_lt_of_lt h)
  have hlt : value.toUInt32.toNat < 2 ^ k :=
    Nat.lt_of_lt_of_le value.toUInt32.toNat_lt (Nat.pow_le_pow_right (by decide) (Nat.le_of_succ_le_succ h))
  rw [itoa,itoa,lenLoop_eq 0 h2 hlt,lenLoop_eq 0 h2 value.toUInt32.toNat_lt]

theorem numberCase_settles (radix : Int32) (h2 : 2 ≤ radix.toUInt32.toNat) (h36 : radix.toUInt32.toNat ≤ 36) :
    ∃ buf', Settles (fun k => numberCase k radix buf args)
      ([.write (numeral letter radix.toUInt32.toNat args.head.toNat)],buf',args.tail) := by
  obtain ⟨buf',hrun,hat,-⟩ := itoa_spec args.head.toInt32 buf h2 h36
  rw [show args.head.toInt32.toUInt32 = args.head from rfl] at hat
  have hne : (0 : UInt8) ∉ numeral letter radix.toUInt32.toNat args.head.toNat := by
    intro hmem
    obtain ⟨d,hd,h0⟩ := mem_numeral h2 hmem
    exact letter_ne_zero d (Nat.lt_of_lt_of_le hd h36) h0
  have hitoa : Settles (fun k => itoa k args.head.toInt32 buf radix) buf' :=
    ⟨33,fun k hk => (itoa_steps hk h2).trans hrun⟩
  have hlen := (strlen_settles hat hne).bind (h := fun _ len => some ([Call.write (bytes buf' 0 len)],buf',args.tail))
    (settles_const _)
  rw [bytes_of_at (at_append.mp hat).1] at hlen
  exact ⟨buf',hitoa.bind hlen⟩

def StringAt (m : ℕ → UInt8) (str : UInt32 → List UInt8) (p : UInt32) : Prop :=
  At m p.toNat (str p ++ [0]) ∧ 0 ∉ str p

theorem conversion_settles (hs : v = .s → StringAt m str args.head) (buf : ℕ → UInt8) :
    ∃ buf', Settles (fun k => conversion m k v.char buf args) ([v.call str args.head],buf',args.tail) := by
  cases v with
  | b => exact numberCase_settles 2 (by decide) (by decide)
  | d => exact numberCase_settles 10 (by decide) (by decide)
  | x => exact numberCase_settles 16 (by decide) (by decide)
  | s =>
    obtain ⟨hat,hne⟩ := hs rfl
    have h := (strlen_settles hat hne).map fun len => ([Call.write (bytes m args.head.toNat len)],buf,args.tail)
    rw [bytes_of_at (at_append.mp hat).1] at h
    exact ⟨buf,h⟩
  | c => exact ⟨buf,settles_const _⟩
  | C => exact ⟨buf,settles_const _⟩
  | X => exact ⟨buf,settles_const _⟩
  | Y => exact ⟨buf,settles_const _⟩

theorem conversion_other (hc : ∀ v : Conv, v.char ≠ c) (fuel : ℕ) : conversion m fuel c buf args = some ([],buf,args) := by
  have hne : c ≠ 98 ∧ c ≠ 100 ∧ c ≠ 120 ∧ c ≠ 115 ∧ c ≠ 99 ∧ c ≠ 67 ∧ c ≠ 88 ∧ c ≠ 89 :=
    ⟨(hc .b).symm,(hc .d).symm,(hc .x).symm,(hc .s).symm,(hc .c).symm,(hc .C).symm,(hc .X).symm,(hc .Y).symm⟩
  simp only [conversion,hne,if_false]

/-! ## Rows of items -/

theorem head_taken (v : Conv) (its : List Item) (args : Stream' UInt32) : args.head ∈ taken v (.conv v :: its) args := by
  rw [taken,if_pos rfl]
  exact List.mem_cons_self

theorem taken_tail (v : Conv) {w : Conv} {p : UInt32} (hp : p ∈ taken w its args.tail) : p ∈ taken w (.conv v :: its) args := by
  rw [taken]
  split
  · exact List.mem_cons_of_mem _ hp
  · exact hp

theorem kprintf_end (h : m fmt = 0) : Settles (fun k => kprintf m k fmt buf args) [] := by
  apply (settles_const []).succ
  intro k
  rw [kprintf,if_pos h]

theorem kprintf_plain {rest : List Call} (h : m fmt = c) (hc : (Item.plain c).Ok)
    (hrest : Settles (fun k => kprintf m k (fmt + 1) buf args) rest) :
    Settles (fun k => kprintf m k fmt buf args) (.write [c] :: rest) := by
  apply (hrest.map (Call.write [c] :: ·)).succ
  intro k
  rw [kprintf,h,if_neg hc.1,if_neg hc.2]
  exact (Option.map_eq_bind ..).symm

theorem kprintf_conversion {buf' : ℕ → UInt8} {args' : Stream' UInt32} {first rest : List Call}
    (h : m fmt = 37) (h' : m (fmt + 1) = c)
    (hc : Settles (fun k => conversion m k c buf args) (first,buf',args'))
    (hrest : Settles (fun k => kprintf m k (fmt + 2) buf' args') rest) :
    Settles (fun k => kprintf m k fmt buf args) (first ++ rest) := by
  have hboth := hc.bind (h := fun k r => (kprintf m k (fmt + 2) r.2.1 r.2.2).map (r.1 ++ ·)) (hrest.map (first ++ ·))
  apply hboth.succ
  intro k
  rw [kprintf,h,h',if_neg (by decide),if_pos rfl]
  apply congrArg
  funext r
  exact (Option.map_eq_bind ..).symm

theorem kprintf_append {rest : List Call} (hok : ∀ it ∈ its, it.Ok) (hat : At m fmt (text its))
    (hs : ∀ p ∈ taken .s its args, StringAt m str p)
    (hrest : ∀ buf, Settles (fun k => kprintf m k (fmt + (text its).length) buf (after its args)) rest) (buf : ℕ → UInt8) :
    Settles (fun k => kprintf m k fmt buf args) (calls str its args ++ rest) := by
  induction its generalizing fmt buf args with
  | nil => exact hrest buf
  | cons it its ih =>
    obtain ⟨hit,htail⟩ := List.forall_mem_cons.mp hok
    obtain ⟨hfirst,hat⟩ := at_append.mp (show At m fmt (it.text ++ text its) from hat)
    rw [show text (it :: its) = it.text ++ text its from rfl,List.length_append,← Nat.add_assoc] at hrest
    cases it with
    | plain c => exact kprintf_plain (at_cons.mp hfirst).1 hit (ih htail hat hs hrest buf)
    | conv v =>
      obtain ⟨h0,h1⟩ := at_cons.mp hfirst
      have hfst : v = .s → StringAt m str args.head := fun hv => hs _ (hv ▸ head_taken v its args)
      obtain ⟨buf',hconv⟩ := conversion_settles hfst buf
      have h := kprintf_conversion h0 (at_cons.mp h1).1 hconv (ih htail hat (fun p hp => hs p (taken_tail v hp)) hrest buf')
      exact h
    | other c =>
      obtain ⟨h0,h1⟩ := at_cons.mp hfirst
      have hconv : Settles (fun k => conversion m k c buf args) ([],buf,args) := (settles_const _).congr (conversion_other hit.2)
      have h := kprintf_conversion h0 (at_cons.mp h1).1 hconv (ih htail hat hs hrest buf)
      exact h

theorem kprintf_string (hok : ∀ it ∈ its, it.Ok) (hat : At m fmt (text its ++ [0]))
    (hs : ∀ p ∈ taken .s its args, StringAt m str p)
    (buf : ℕ → UInt8) : Settles (fun k => kprintf m k fmt buf args) (calls str its args) := by
  obtain ⟨hat,h0⟩ := at_append.mp hat
  have h := kprintf_append hok hat hs (fun buf => kprintf_end (at_cons.mp h0).1) buf
  rwa [List.append_nil] at h

/-! ## On the console -/

def perform (d : TtyDisp) : Call → Option TtyDisp
  | .write buf => ttyWrite buf d
  | .ioctl cmd arg => ttyIoctl cmd arg d

def Call.event : Call → Event
  | .write buf => .write buf
  | .ioctl _ arg => .color arg

/-- Neither of the conversions that move the cursor. -/
def Item.Still (it : Item) : Prop := it ≠ .conv .X ∧ it ≠ .conv .Y

theorem letter_ascii : ∀ d < 36, letter d < 128 := by decide

theorem numeral_ascii {b n : ℕ} (h2 : 2 ≤ b) (h36 : b ≤ 36) : ∀ c ∈ numeral letter b n, c < 128 := by
  intro c hc
  obtain ⟨d,hd,rfl⟩ := mem_numeral h2 hc
  exact letter_ascii d (Nat.lt_of_lt_of_le hd h36)

/-- The calls print characters of the format, or belong to its conversions. -/
theorem mem_calls {c : Call} (hc : c ∈ calls str its args) : (∃ b, .plain b ∈ its ∧ c = .write [b]) ∨
    ∃ v p, .conv v ∈ its ∧ p ∈ taken v its args ∧ c = v.call str p := by
  induction its generalizing args with
  | nil => cases hc
  | cons it its ih =>
    cases it with
    | plain b =>
      obtain rfl | hc := List.mem_cons.mp hc
      · exact Or.inl ⟨b,List.mem_cons_self,rfl⟩
      · obtain ⟨b,hb,rfl⟩ | ⟨v,p,hv,hp,rfl⟩ := ih hc
        · exact Or.inl ⟨b,List.mem_cons_of_mem _ hb,rfl⟩
        · exact Or.inr ⟨v,p,List.mem_cons_of_mem _ hv,hp,rfl⟩
    | conv w =>
      obtain rfl | hc := List.mem_cons.mp hc
      · exact Or.inr ⟨w,args.head,List.mem_cons_self,head_taken w its args,rfl⟩
      · obtain ⟨b,hb,rfl⟩ | ⟨v,p,hv,hp,rfl⟩ := ih hc
        · exact Or.inl ⟨b,List.mem_cons_of_mem _ hb,rfl⟩
        · exact Or.inr ⟨v,p,List.mem_cons_of_mem _ hv,taken_tail w hp,rfl⟩
    | other b =>
      obtain ⟨b,hb,rfl⟩ | ⟨v,p,hv,hp,rfl⟩ := ih hc
      · exact Or.inl ⟨b,List.mem_cons_of_mem _ hb,rfl⟩
      · exact Or.inr ⟨v,p,List.mem_cons_of_mem _ hv,hp,rfl⟩

/-- The calls print 7-bit characters if the format and its strings and characters are such. -/
theorem calls_ascii (htext : ∀ c ∈ text its, c < 128) (hs : ∀ p ∈ taken .s its args, ∀ c ∈ str p, c < 128)
    (hc : ∀ p ∈ taken .c its args, p.toUInt8 < 128) : ∀ c ∈ calls str its args, c.event.Ascii := by
  intro c hcall
  obtain ⟨b,hb,rfl⟩ | ⟨v,p,hv,hp,rfl⟩ := mem_calls hcall
  · intro c hc
    rw [List.mem_singleton.mp hc]
    exact htext b (List.mem_flatMap.mpr ⟨_,hb,List.mem_cons_self⟩)
  · cases v with
    | b => exact numeral_ascii (by decide) (by decide)
    | d => exact numeral_ascii (by decide) (by decide)
    | x => exact numeral_ascii (by decide) (by decide)
    | s => exact hs p hp
    | c =>
      intro c hc'
      rw [List.mem_singleton.mp hc']
      exact hc p hp
    | C => trivial
    | X => trivial
    | Y => trivial

theorem perform_event (hst : ∀ it ∈ its, it.Still) (d : TtyDisp) : ∀ c ∈ calls str its args, perform d c = step d c.event := by
  intro c hcall
  obtain ⟨b,hb,rfl⟩ | ⟨v,p,hv,hp,rfl⟩ := mem_calls hcall
  · rfl
  · cases v with
    | X => exact absurd rfl (hst _ hv).1
    | Y => exact absurd rfl (hst _ hv).2
    | _ => rfl

theorem performs_run {cs : List Call} (h : ∀ d, ∀ c ∈ cs, perform d c = step d c.event) (d : TtyDisp) :
    cs.foldlM perform d = Tty.run d (cs.map Call.event) := by
  rw [Tty.run,List.foldlM_map]
  induction cs generalizing d with
  | nil => rfl
  | cons c cs ih =>
    rw [List.foldlM_cons,List.foldlM_cons,h d c List.mem_cons_self]
    apply congrArg
    funext e
    exact ih (fun d c hc => h d c (List.mem_cons_of_mem _ hc)) e

theorem calls_shown {k : ℕ} {d : TtyDisp} {T : Terminal} (hst : ∀ it ∈ its, it.Still) (htext : ∀ c ∈ text its, c < 128)
    (hs : ∀ p ∈ taken .s its args, ∀ c ∈ str p, c < 128) (hc : ∀ p ∈ taken .c its args, p.toUInt8 < 128) (h : Shown k d T) :
    ∃ e k', (calls str its args).foldlM perform d = some e ∧ Shown k' e (T.run ((calls str its args).map Call.event)) := by
  rw [performs_run (fun d => perform_event hst d)]
  apply h.run
  intro e he
  obtain ⟨c,hc',rfl⟩ := List.mem_map.mp he
  exact calls_ascii htext hs hc c hc'

/-- Every format is a row of items, or one with a percent sign behind it. In front of a terminator
`kprintf` makes the calls of the items, each conversion taking the next argument. With the percent
sign it steps over the terminator and goes on with the string behind it and the arguments that
are left. On a console that shows a window of a terminal, a format of 7-bit characters that does
not move the cursor prints on the terminal what its items say. -/
theorem kprintf_prints (m : ℕ → UInt8) (str : UInt32 → List UInt8) (fmt : ℕ) (its : List Item) (args : Stream' UInt32)
    (buf : ℕ → UInt8) (hok : ∀ it ∈ its, it.Ok) (hs : ∀ p ∈ taken .s its args, StringAt m str p) :
    (∀ s, 0 ∉ s → ∃ its, (∀ it ∈ its, it.Ok) ∧ (s = text its ∨ s = text its ++ [37])) ∧
    (At m fmt (text its ++ [0]) → Settles (fun k => kprintf m k fmt buf args) (calls str its args)) ∧
    (∀ its', At m fmt (text its ++ [37,0] ++ text its' ++ [0]) → (∀ it ∈ its', it.Ok) →
      (∀ p ∈ taken .s its' (after its args), StringAt m str p) →
      Settles (fun k => kprintf m k fmt buf args) (calls str its args ++ calls str its' (after its args))) ∧
    ((∀ it ∈ its, it.Still) → (∀ c ∈ text its, c < 128) → (∀ p ∈ taken .s its args, ∀ c ∈ str p, c < 128) →
      (∀ p ∈ taken .c its args, p.toUInt8 < 128) → ∀ k d T, Shown k d T →
      ∃ e k', (calls str its args).foldlM perform d = some e ∧ Shown k' e (T.run ((calls str its args).map Call.event))) := by
  refine ⟨exists_items,fun hat => kprintf_string hok hat hs buf,?_,?_⟩
  · intro its' hat hok' hs'
    rw [List.append_assoc,List.append_assoc,at_append] at hat
    obtain ⟨hat,hrest⟩ := hat
    obtain ⟨h37,hrest⟩ := at_cons.mp hrest
    obtain ⟨h0,hrest⟩ := at_cons.mp hrest
    apply kprintf_append hok hat hs
    intro buf
    -- the terminator is read as a letter that means nothing
    have hother : ∀ v : Conv, v.char ≠ 0 := by
      intro v
      cases v <;> decide
    have hconv : Settles (fun k => conversion m k 0 buf (after its args)) ([],buf,after its args) :=
      (settles_const _).congr (conversion_other hother)
    exact kprintf_conversion h37 h0 hconv (kprintf_string hok' hrest hs' buf)
  · intro hst htext hstr hchar k d T hd
    exact calls_shown hst htext hstr hchar hd

def message : List Item := [.conv .s,.plain 61,.conv .d]

def messageMem : ℕ → UInt8 := put (put (fun _ => 0) 100 [37,115,61,37,100,0]) 7 [104,100,97,0]

theorem kprintf_message :
    Settles (fun k => kprintf messageMem k 100 (fun _ => 0) (Stream'.appendStream' [7,42] (Stream'.const 0)))
    [.write [104,100,97],.write [61],.write [52,50]] := by
  have hok : ∀ it ∈ message, it.Ok := by
    simp only [message,List.forall_mem_cons]
    exact ⟨trivial,⟨by decide,by decide⟩,trivial,List.forall_mem_nil _⟩
  have hs : ∀ p ∈ taken .s message (Stream'.appendStream' [7,42] (Stream'.const 0)),
      StringAt messageMem (fun _ => [104,100,97]) p := by
    intro p hp
    rw [show taken .s message (Stream'.appendStream' [7,42] (Stream'.const 0)) = [7] from rfl,List.mem_singleton] at hp
    rw [hp]
    exact ⟨at_put,by decide⟩
  have h := (kprintf_prints messageMem (fun _ => [104,100,97]) 100 message (Stream'.appendStream' [7,42] (Stream'.const 0))
    (fun _ => 0) hok hs).2.1 (at_put.put (by decide))
  rwa [show calls (fun _ => [104,100,97]) message (Stream'.appendStream' [7,42] (Stream'.const 0)) =
    [.write [104,100,97],.write [61],.write [52,50]] by decide +kernel] at h

end Micron.Kernel.Kprintf

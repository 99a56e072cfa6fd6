import Micron.Lib.Bitfield
import Mathlib.Logic.Function.Basic

/-! # Descriptor tables

Entries of the global and the interrupt descriptor table, as the bit-fields of the source and
as the processor reads the 64 bits that they make up.
-/
namespace Micron.Kernel.Descriptors
open Function Micron.Bitfield

/-! ## Segments -/

structure Gdt where
  slim_l : ℕ
  badd_l : ℕ
  badd_m : ℕ
  type : ℕ
  dpl : ℕ
  p : ℕ
  slim_h : ℕ
  avl : ℕ
  l : ℕ
  db : ℕ
  g : ℕ
  badd_h : ℕ
deriving DecidableEq, Repr

def Gdt.fields (d : Gdt) : List (ℕ × ℕ) :=
  [(16,d.slim_l),(16,d.badd_l),(8,d.badd_m),(5,d.type),(2,d.dpl),(1,d.p),(4,d.slim_h),(1,d.avl),(1,d.l),(1,d.db),
    (1,d.g),(8,d.badd_h)]

def GDT_ENTRIES := 8

def gdtEntry (address limit : UInt32) (present dpl db type gran : ℕ) : Gdt where
  slim_l := (limit &&& 0xFFFF).toNat
  slim_h := (limit >>> 16 &&& 0xF).toNat
  badd_l := (address &&& 0xFFFF).toNat
  badd_m := (address >>> 16 &&& 0xFF).toNat
  badd_h := (address >>> 24 &&& 0xFF).toNat
  p := present
  dpl := dpl
  db := db
  type := type
  g := gran
  l := 0
  avl := 0

/-- Index 8 passes the check and lies behind the table. -/
def gdtEdit (index : ℕ) (address limit : UInt32) (present dpl db type gran : ℕ) (gdt : ℕ → Gdt) : ℤ × (ℕ → Gdt) :=
  if index > GDT_ENTRIES then (-1,gdt) else (0,update gdt index (gdtEntry address limit present dpl db type gran))

structure Segment where
  base : ℕ
  limit : ℕ
  type : ℕ
  dpl : ℕ
  present : ℕ
  db : ℕ
  gran : ℕ
deriving DecidableEq, Repr

def segment (d : ℕ) : Segment where
  base := bits d 16 16 + 2 ^ 16 * bits d 32 8 + 2 ^ 24 * bits d 56 8
  limit := bits d 0 16 + 2 ^ 16 * bits d 48 4
  type := bits d 40 5
  dpl := bits d 45 2
  present := bits d 47 1
  db := bits d 54 1
  gran := bits d 55 1

theorem segment_pack (d : Gdt) : segment (pack d.fields) =
    { base := d.badd_l % 2 ^ 16 + 2 ^ 16 * (d.badd_m % 2 ^ 8) + 2 ^ 24 * (d.badd_h % 2 ^ 8),
      limit := d.slim_l % 2 ^ 16 + 2 ^ 16 * (d.slim_h % 2 ^ 4), type := d.type % 2 ^ 5, dpl := d.dpl % 2 ^ 2,
      present := d.p % 2 ^ 1, db := d.db % 2 ^ 1, gran := d.g % 2 ^ 1 } := by
  have h0 : bits (pack d.fields) 0 16 = d.slim_l % 2 ^ 16 := bits_field d.fields 0 rfl rfl
  have h1 : bits (pack d.fields) 16 16 = d.badd_l % 2 ^ 16 := bits_field d.fields 1 rfl rfl
  have h2 : bits (pack d.fields) 32 8 = d.badd_m % 2 ^ 8 := bits_field d.fields 2 rfl rfl
  have h3 : bits (pack d.fields) 40 5 = d.type % 2 ^ 5 := bits_field d.fields 3 rfl rfl
  have h4 : bits (pack d.fields) 45 2 = d.dpl % 2 ^ 2 := bits_field d.fields 4 rfl rfl
  have h5 : bits (pack d.fields) 47 1 = d.p % 2 ^ 1 := bits_field d.fields 5 rfl rfl
  have h6 : bits (pack d.fields) 48 4 = d.slim_h % 2 ^ 4 := bits_field d.fields 6 rfl rfl
  have h9 : bits (pack d.fields) 54 1 = d.db % 2 ^ 1 := bits_field d.fields 9 rfl rfl
  have h10 : bits (pack d.fields) 55 1 = d.g % 2 ^ 1 := bits_field d.fields 10 rfl rfl
  have h11 : bits (pack d.fields) 56 8 = d.badd_h % 2 ^ 8 := bits_field d.fields 11 rfl rfl
  rw [segment,h0,h1,h2,h3,h4,h5,h6,h9,h10,h11]

theorem toNat_low (v : UInt32) (k : ℕ) (m : UInt32) (h : m.toNat = 2 ^ k - 1) : (v &&& m).toNat = v.toNat % 2 ^ k := by
  rw [UInt32.toNat_and,h,Nat.and_two_pow_sub_one_eq_mod]

theorem toNat_high (v : UInt32) (k : UInt32) (h : k.toNat < 32) : (v >>> k).toNat = v.toNat / 2 ^ k.toNat := by
  rw [UInt32.toNat_shiftRight,Nat.mod_eq_of_lt h,Nat.shiftRight_eq_div_pow]

/-- The base address is stored whole and the limit is cut to twenty bits. -/
theorem segment_gdtEntry (address limit : UInt32) (present dpl db type gran : ℕ) :
    segment (pack (gdtEntry address limit present dpl db type gran).fields) =
      { base := address.toNat, limit := limit.toNat % 2 ^ 20, type := type % 2 ^ 5, dpl := dpl % 2 ^ 2,
        present := present % 2, db := db % 2, gran := gran % 2 } := by
  have ha := address.toNat_lt
  simp only [segment_pack,gdtEntry,toNat_low _ 16 0xFFFF rfl,toNat_low _ 4 0xF rfl,toNat_low _ 8 0xFF rfl,
    toNat_high _ 16 (by decide),toNat_high _ 24 (by decide),Segment.mk.injEq,Nat.pow_one,and_true]
  change _ + 2 ^ 16 * (_ / 2 ^ 16 % _ % _) + 2 ^ 24 * (_ / 2 ^ 24 % _ % _) = _ ∧ _ + 2 ^ 16 * (_ / 2 ^ 16 % _ % _) = _
  omega

/-! ## Gates -/

structure Idt where
  offset_l : ℕ
  sel : ℕ
  zero0 : ℕ
  type : ℕ
  size : ℕ
  zero1 : ℕ
  dpl : ℕ
  p : ℕ
  offset_h : ℕ
deriving DecidableEq, Repr

def Idt.fields (d : Idt) : List (ℕ × ℕ) :=
  [(16,d.offset_l),(16,d.sel),(8,d.zero0),(3,d.type),(1,d.size),(1,d.zero1),(2,d.dpl),(1,d.p),(16,d.offset_h)]

def idtEntry (sel : ℕ) (offset : UInt32) (p dpl type size : ℕ) : Idt where
  offset_l := (offset &&& 0xFFFF).toNat
  offset_h := (offset >>> 16 &&& 0xFFFF).toNat
  sel := sel
  p := p
  dpl := dpl
  type := type
  size := size
  zero0 := 0
  zero1 := 0

def idtSetup (index sel : ℕ) (offset : UInt32) (p dpl type size : ℕ) (idt : ℕ → Idt) : ℕ → Idt :=
  update idt index (idtEntry sel offset p dpl type size)

/-- A gate as the processor sees it; kind 14 is an interrupt gate of 32 bits. -/
structure Gate where
  offset : ℕ
  sel : ℕ
  kind : ℕ
  dpl : ℕ
  present : ℕ
deriving DecidableEq, Repr

def gate (d : ℕ) : Gate where
  offset := bits d 0 16 + 2 ^ 16 * bits d 48 16
  sel := bits d 16 16
  kind := bits d 40 3 + 2 ^ 3 * bits d 43 1 + 2 ^ 4 * bits d 44 1
  dpl := bits d 45 2
  present := bits d 47 1

theorem gate_pack (d : Idt) : gate (pack d.fields) =
    { offset := d.offset_l % 2 ^ 16 + 2 ^ 16 * (d.offset_h % 2 ^ 16), sel := d.sel % 2 ^ 16,
      kind := d.type % 2 ^ 3 + 2 ^ 3 * (d.size % 2 ^ 1) + 2 ^ 4 * (d.zero1 % 2 ^ 1), dpl := d.dpl % 2 ^ 2,
      present := d.p % 2 ^ 1 } := by
  have h0 : bits (pack d.fields) 0 16 = d.offset_l % 2 ^ 16 := bits_field d.fields 0 rfl rfl
  have h1 : bits (pack d.fields) 16 16 = d.sel % 2 ^ 16 := bits_field d.fields 1 rfl rfl
  have h3 : bits (pack d.fields) 40 3 = d.type % 2 ^ 3 := bits_field d.fields 3 rfl rfl
  have h4 : bits (pack d.fields) 43 1 = d.size % 2 ^ 1 := bits_field d.fields 4 rfl rfl
  have h5 : bits (pack d.fields) 44 1 = d.zero1 % 2 ^ 1 := bits_field d.fields 5 rfl rfl
  have h6 : bits (pack d.fields) 45 2 = d.dpl % 2 ^ 2 := bits_field d.fields 6 rfl rfl
  have h7 : bits (pack d.fields) 47 1 = d.p % 2 ^ 1 := bits_field d.fields 7 rfl rfl
  have h8 : bits (pack d.fields) 48 16 = d.offset_h % 2 ^ 16 := bits_field d.fields 8 rfl rfl
  rw [gate,h0,h1,h3,h4,h5,h6,h7,h8]

theorem gate_idtEntry (sel : ℕ) (offset : UInt32) (p dpl type size : ℕ) :
    gate (pack (idtEntry sel offset p dpl type size).fields) =
      { offset := offset.toNat, sel := sel % 2 ^ 16, kind := type % 2 ^ 3 + 2 ^ 3 * (size % 2), dpl := dpl % 2 ^ 2,
        present := p % 2 } := by
  have ho := offset.toNat_lt
  simp only [gate_pack,idtEntry,toNat_low _ 16 0xFFFF rfl,toNat_high _ 16 (by decide),Gate.mk.injEq,Nat.pow_one,
    Nat.zero_mod,Nat.mul_zero,Nat.add_zero,and_true]
  change _ + 2 ^ 16 * (_ / 2 ^ 16 % _ % _) = _
  omega

/-- The processor reads from both tables what was asked for, each value cut to the width of its
field, and finds every other entry as it was; an index above 8 changes nothing. -/
theorem descriptors_read_back (gdt : ℕ → Gdt) (idt : ℕ → Idt) (index i : ℕ) (address limit offset : UInt32)
    (p dpl db type gran sel size : ℕ) :
    segment (pack ((gdtEdit index address limit p dpl db type gran gdt).2 i).fields) =
      (if i = index ∧ index ≤ 8 then
        { base := address.toNat, limit := limit.toNat % 2 ^ 20, type := type % 2 ^ 5, dpl := dpl % 2 ^ 2,
          present := p % 2, db := db % 2, gran := gran % 2 }
      else segment (pack (gdt i).fields)) ∧
    (gdtEdit index address limit p dpl db type gran gdt).1 = (if index ≤ 8 then 0 else -1) ∧
    gate (pack (idtSetup index sel offset p dpl type size idt i).fields) =
      if i = index then
        { offset := offset.toNat, sel := sel % 2 ^ 16, kind := type % 2 ^ 3 + 2 ^ 3 * (size % 2), dpl := dpl % 2 ^ 2,
          present := p % 2 }
      else gate (pack (idt i).fields) := by
  refine ⟨?_,?_,?_⟩
  · by_cases hi : index > GDT_ENTRIES
    · rw [gdtEdit,if_pos hi,if_neg (by rw [GDT_ENTRIES] at hi; omega)]
    · rw [gdtEdit,if_neg hi]
      by_cases h : i = index
      · rw [h,if_pos ⟨rfl,by rw [GDT_ENTRIES] at hi; omega⟩]
        simp only [update_self]
        exact segment_gdtEntry ..
      · rw [if_neg (fun hx => h hx.1)]
        simp only [update_of_ne h]
  · by_cases hi : index > GDT_ENTRIES
    · rw [gdtEdit,if_pos hi,if_neg (by rw [GDT_ENTRIES] at hi; omega)]
    · rw [gdtEdit,if_neg hi,if_pos (by rw [GDT_ENTRIES] at hi; omega)]
  · by_cases h : i = index
    · rw [h,if_pos rfl,idtSetup,update_self]
      exact gate_idtEntry ..
    · rw [if_neg h,idtSetup,update_of_ne h]

end Micron.Kernel.Descriptors

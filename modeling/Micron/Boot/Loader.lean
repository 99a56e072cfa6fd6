import Mathlib.Data.Nat.Bitwise
import Mathlib.Tactic.Ring
import Micron.Mkmfs.Layout

/-! # The boot loader

`arch/i386/boot/boot.s` up to the return of `kern_copy`. The BIOS is given by the geometry of
the disk and by what function 2 of interrupt 13h reads. The variables of the loader are bytes
and words next to each other, and some instructions take a byte and its neighbour for a word.
-/
namespace Micron.Boot
open Bytes

/-- What the BIOS reports of a disk: sectors of a track, last head and last cylinder. -/
structure Geometry where
  S : ℕ
  maxHead : ℕ
  maxCyl : ℕ
  S_pos : 1 ≤ S
  S_le : S ≤ 63
  head_le : maxHead ≤ 255
  cyl_le : maxCyl ≤ 1023

abbrev Disk := ℕ → ℕ → UInt8

abbrev Memory := ℕ → UInt8

/-! ## The BIOS -/

def Geometry.total (g : Geometry) : ℕ := (g.maxCyl + 1) * (g.maxHead + 1) * g.S

/-- Number of a sector, from 0; `sect` counts from 1. -/
def Geometry.lba (g : Geometry) (cyl head sect : ℕ) : ℕ := (cyl * (g.maxHead + 1) + head) * g.S + (sect - 1)

/-- The address is one of the disk, and there are `n` sectors from it on. -/
def Geometry.Readable (g : Geometry) (cyl head sect n : ℕ) : Prop :=
  1 ≤ sect ∧ sect ≤ g.S ∧ head ≤ g.maxHead ∧ cyl ≤ g.maxCyl ∧ g.lba cyl head sect + n ≤ g.total

instance (g : Geometry) (cyl head sect n : ℕ) : Decidable (g.Readable cyl head sect n) :=
  inferInstanceAs (Decidable (_ ∧ _))

def load (disk : Disk) (lba n base : ℕ) (mem : Memory) : Memory := fun a =>
  if base ≤ a ∧ a < base + 512 * n then disk (lba + (a - base) / 512) ((a - base) % 512) else mem a

/-- Interrupt 13h, function 2. The high bits of the cylinder are in `cl`; `none` is a set
carry flag. -/
def int13 (g : Geometry) (disk : Disk) (al ch cl dh : UInt8) (es bx : UInt16) (mem : Memory) : Option Memory :=
  let cyl := ch.toNat + 256 * (cl.toNat / 64)
  let sect := cl.toNat % 64
  if g.Readable cyl dh.toNat sect al.toNat then
    some (load disk (g.lba cyl dh.toNat sect) al.toNat (16 * es.toNat + bx.toNat) mem)
  else none

/-! ## The loader -/

structure Vars where
  b_devc : UInt16
  b_devh : UInt8
  b_devs : UInt8
  b_sizh : UInt16
  b_ksec : UInt16
  b_kcnt : UInt16
  copy_c : UInt16
  copy_h : UInt8
  copy_s : UInt8
  copy_n : UInt8
  copy_d : UInt16
deriving DecidableEq, Repr

def wordAt (b : UInt8) (w : UInt16) : UInt16 := b.toUInt16 ||| w <<< 8

def initial : Vars := ⟨0,0,0,0,0,0,0,0,0,0,0x1000⟩

def statDev (g : Geometry) (v : Vars) : Vars :=
  -- interrupt 13h, function 8
  let ch := g.maxCyl.toUInt8
  let cl := (64 * (g.maxCyl / 256) + g.S).toUInt8
  let dh := g.maxHead.toUInt8
  let devc := v.b_devc &&& 0xFF00 ||| ch.toUInt16
  let devs := cl &&& 0x3F
  let cx := (cl.toUInt16 &&& 0xC0) <<< 2
  { v with
    b_devc := devc + cx
    b_devs := devs
    b_devh := dh &&& 0x0F
    -- the word at b_devs takes in the low byte of b_sizh
    b_sizh := wordAt devs v.b_sizh * 512 }

def copyBlock (g : Geometry) (disk : Disk) (al : UInt8) (bx : UInt16) (dh cl : UInt8) (es si : UInt16)
    (mem : Memory) : Option Memory :=
  let bh := (bx >>> 8).toUInt8 <<< 6
  int13 g disk al bx.toUInt8 (cl ||| bh) dh es si mem

/-- Address of `buf`; the code segment is 0. -/
def buf : UInt16 := 0x7E00

def statKsize (g : Geometry) (disk : Disk) (v : Vars) (mem : Memory) : Option (Vars × Memory) := do
  let mem ← copyBlock g disk 2 0 0 2 0 buf mem
  return ({ v with
    b_ksec := get16 mem (buf.toNat + 4) * 2 + 1
    b_kcnt := get16 mem (buf.toNat + 6) * 2 },mem)

inductive Outcome where
  /-- `kern_copy` returns -/
  | returned (v : Vars) (mem : Memory)
  /-- `hlt` at `error` -/
  | halted
  | running (v : Vars) (mem : Memory)

def copyPass (g : Geometry) (disk : Disk) (v : Vars) (mem : Memory) : Outcome :=
  match copyBlock g disk v.copy_n v.copy_c v.copy_h (v.copy_s + 1) v.copy_d 0 mem with
  | none => .halted
  | some mem =>
    -- the word at copy_n takes in the low byte of copy_d
    let ax := v.b_kcnt - wordAt v.copy_n v.copy_d
    if ax &&& 0x8000 ≠ 0 then .returned v mem
    else
      let v := { v with
        b_kcnt := ax
        copy_d := v.copy_d + v.b_sizh >>> 4
        copy_n := v.b_devs
        copy_s := v.b_ksec.toUInt8
        copy_h := v.copy_h + 1 }
      if v.copy_h = v.b_devh then
        let v := { v with
          copy_c := v.copy_c + 1
          copy_h := 0 }
        if v.copy_c = v.b_devc then .halted else .running v mem
      else .running v mem

def copyLoop (g : Geometry) (disk : Disk) : ℕ → Vars → Memory → Outcome
  | 0, v, mem => .running v mem
  | fuel + 1, v, mem =>
    match copyPass g disk v mem with
    | .running v mem => copyLoop g disk fuel v mem
    | o => o

def kernCopy (g : Geometry) (disk : Disk) (fuel : ℕ) (v : Vars) (mem : Memory) : Outcome :=
  copyLoop g disk fuel { v with
    copy_n := v.b_devs
    copy_s := v.b_ksec.toUInt8 } mem

def bootHdd (g : Geometry) (disk : Disk) (fuel : ℕ) (mem : Memory) : Outcome :=
  match statKsize g disk (statDev g initial) mem with
  | none => .halted
  | some (v,mem) => kernCopy g disk fuel v mem

/-! ## Words -/

variable {g : Geometry} {disk : Disk} {mem : Memory} {ks n k m fuel : ℕ}

theorem toNat_byte {a : ℕ} (h : a < 256) : a.toUInt8.toNat = a := UInt8.toNat_ofNat_of_lt h

theorem toNat_word {a : ℕ} (h : a < 65536) : a.toUInt16.toNat = a := UInt16.toNat_ofNat_of_lt h

theorem or_toNat {a b : ℕ} (i : ℕ) (hb : b < 2 ^ i) : b ||| 2 ^ i * a = 2 ^ i * a + b := by
  rw [Nat.or_comm,Nat.two_pow_add_eq_or_of_lt hb]

theorem wordAt_toNat (b : UInt8) (w : UInt16) : (wordAt b w).toNat = b.toNat + 256 * (w.toNat % 256) := by
  have hb := b.toNat_lt
  have hshift : (w <<< 8).toNat = 2 ^ 8 * (w.toNat % 256) := by
    rw [UInt16.toNat_shiftLeft,Nat.shiftLeft_eq]
    simp
    omega
  rw [wordAt,UInt16.toNat_or,hshift,UInt8.toNat_toUInt16,or_toNat 8 hb]
  omega

theorem sign_iff (w : UInt16) : w &&& 0x8000 ≠ 0 ↔ 32768 ≤ w.toNat := by
  have hw := w.toNat_lt
  have hand : (w &&& 0x8000).toNat = (w.toNat.testBit 15).toNat * 2 ^ 15 := Nat.and_two_pow w.toNat 15
  rw [Ne,← UInt16.toNat_inj,hand,Nat.testBit_eq_decide_div_mod_eq]
  simp
  omega

theorem mask_high : ∀ a < 4, ∀ b < 64, (64 * a + b) &&& 192 = 64 * a := by decide

theorem statDev_eq (g : Geometry) : statDev g initial = { initial with
    b_devc := g.maxCyl.toUInt16
    b_devs := g.S.toUInt8
    b_devh := (g.maxHead % 16).toUInt8
    b_sizh := (512 * g.S).toUInt16 } := by
  have hS := g.S_le
  have hC := g.cyl_le
  have hH := g.head_le
  have hcl : (64 * (g.maxCyl / 256) + g.S).toUInt8.toNat = 64 * (g.maxCyl / 256) + g.S := toNat_byte (by omega)
  have hdevs : (64 * (g.maxCyl / 256) + g.S).toUInt8 &&& 0x3F = g.S.toUInt8 := by
    apply UInt8.toNat_inj.mp
    rw [UInt8.toNat_and,hcl,show (0x3F : UInt8).toNat = 2 ^ 6 - 1 from rfl,Nat.and_two_pow_sub_one_eq_mod]
    simp
    omega
  have hdevh : g.maxHead.toUInt8 &&& 0x0F = (g.maxHead % 16).toUInt8 := by
    apply UInt8.toNat_inj.mp
    rw [UInt8.toNat_and,show (0x0F : UInt8).toNat = 2 ^ 4 - 1 from rfl,Nat.and_two_pow_sub_one_eq_mod]
    simp
    omega
  have hdevc : (((0 : UInt16) &&& (0xFF00 : UInt16)) ||| g.maxCyl.toUInt8.toUInt16) +
      ((64 * (g.maxCyl / 256) + g.S).toUInt8.toUInt16 &&& (0xC0 : UInt16)) <<< (2 : UInt16) = g.maxCyl.toUInt16 := by
    apply UInt16.toNat_inj.mp
    rw [UInt16.toNat_add,UInt16.toNat_shiftLeft,UInt16.toNat_and,UInt8.toNat_toUInt16,hcl,
      show (0xC0 : UInt16).toNat = 192 from rfl,mask_high _ (by omega) _ (by omega),Nat.shiftLeft_eq]
    simp
    omega
  have hsizh : wordAt g.S.toUInt8 0 * 512 = (512 * g.S).toUInt16 := by
    apply UInt16.toNat_inj.mp
    rw [UInt16.toNat_mul,wordAt_toNat]
    simp
    omega
  simp only [statDev,initial,hdevs,hdevh,hsizh]
  rw [hdevc]

/-! ## The passes -/

/-- What the loader takes for the number of heads. -/
def Geometry.top (g : Geometry) : ℕ := g.maxHead % 16

/-- What is left of the sector count before pass `k`, as a word. The pass takes off the
sectors of a track and, in the high byte, the low byte of the segment. -/
def leftAt (S n : ℕ) : ℕ → ℕ
  | 0 => n
  | k + 1 => (leftAt S n k + 65536 - (S + 8192 * (S * k % 8))) % 65536

def varsAt (g : Geometry) (ks n k : ℕ) : Vars where
  b_devc := g.maxCyl.toUInt16
  b_devh := g.top.toUInt8
  b_devs := g.S.toUInt8
  b_sizh := (512 * g.S).toUInt16
  b_ksec := ks.toUInt16
  b_kcnt := (leftAt g.S n k).toUInt16
  copy_c := (k / g.top).toUInt16
  copy_h := (k % g.top).toUInt8
  copy_s := ks.toUInt8
  copy_n := g.S.toUInt8
  copy_d := (4096 + 32 * g.S * k).toUInt16

/-- The sector register of pass `k`, with the high bits of the cylinder. -/
def Geometry.clAt (g : Geometry) (ks k : ℕ) : ℕ :=
  let cl : UInt8 := ks.toUInt8 + 1
  let bh : UInt8 := ((k / g.top).toUInt16 >>> 8).toUInt8 <<< 6
  (cl ||| bh).toNat

def Geometry.cylAt (g : Geometry) (ks k : ℕ) : ℕ := k / g.top % 256 + 256 * (g.clAt ks k / 64)

def Geometry.ReadsAt (g : Geometry) (ks k : ℕ) : Prop :=
  g.Readable (g.cylAt ks k) (k % g.top) (g.clAt ks k % 64) g.S

instance (g : Geometry) (ks k : ℕ) : Decidable (g.ReadsAt ks k) :=
  inferInstanceAs (Decidable (g.Readable _ _ _ _))

def Geometry.lbaAt (g : Geometry) (ks k : ℕ) : ℕ := g.lba (g.cylAt ks k) (k % g.top) (g.clAt ks k % 64)

theorem copyBlock_varsAt (hk : k < 256) (hd : 4096 + 32 * g.S * k < 65536) :
    copyBlock g disk (varsAt g ks n k).copy_n (varsAt g ks n k).copy_c (varsAt g ks n k).copy_h
      ((varsAt g ks n k).copy_s + 1) (varsAt g ks n k).copy_d 0 mem = if g.ReadsAt ks k then
        some (load disk (g.lbaAt ks k) g.S (65536 + 512 * g.S * k) mem) else none := by
  have hS := g.S_le
  have hdiv := Nat.div_le_self k g.top
  have hmod := Nat.mod_le k g.top
  have hch : ((k / g.top).toUInt16.toUInt8).toNat = k / g.top % 256 := by simp
  have hdh : (k % g.top).toUInt8.toNat = k % g.top := toNat_byte (by omega)
  have hal : g.S.toUInt8.toNat = g.S := toNat_byte (by omega)
  have hes : 16 * ((4096 + 32 * g.S * k).toUInt16).toNat + (0 : UInt16).toNat = 65536 + 512 * g.S * k := by
    rw [toNat_word hd,UInt16.toNat_zero]
    ring
  simp only [copyBlock,int13,varsAt,hch,hdh,hal,hes]
  rfl

theorem succ_div_mod (k t : ℕ) : (k % t + 1 = t → (k + 1) % t = 0 ∧ (k + 1) / t = k / t + 1) ∧
    (k % t + 1 ≠ t → (k + 1) % t = k % t + 1 ∧ (k + 1) / t = k / t) := by
  rcases Nat.eq_zero_or_pos t with rfl | ht
  · simp
  · have hlt := Nat.mod_lt k ht
    have hk := Nat.div_add_mod k t
    constructor
    · intro he
      have hk1 : k + 1 = t * (k / t + 1) := by
        rw [Nat.mul_add,Nat.mul_one]
        omega
      rw [hk1,Nat.mul_mod_right,Nat.mul_div_cancel_left _ ht]
      exact ⟨rfl,rfl⟩
    · intro hne
      have hk1 : k + 1 = t * (k / t) + (k % t + 1) := by omega
      have hlt1 : k % t + 1 < t := by omega
      rw [hk1,Nat.mul_add_mod,Nat.mul_add_div ht,Nat.mod_eq_of_lt hlt1,Nat.div_eq_of_lt hlt1]
      exact ⟨rfl,rfl⟩

theorem leftAt_lt (hn : n < 65536) : leftAt g.S n k < 65536 := by
  cases k with
  | zero => exact hn
  | succ k => exact Nat.mod_lt _ (by decide)

theorem kcnt_varsAt (hn : n < 65536) (hd : 4096 + 32 * g.S * k < 65536) :
    (varsAt g ks n k).b_kcnt - wordAt (varsAt g ks n k).copy_n (varsAt g ks n k).copy_d =
      (leftAt g.S n (k + 1)).toUInt16 := by
  have hS := g.S_le
  have hleft := leftAt_lt (g := g) (k := k) hn
  have hlow : (4096 + 32 * g.S * k) % 256 = 32 * (g.S * k % 8) := by
    rw [Nat.mul_assoc]
    omega
  have hword : (wordAt g.S.toUInt8 (4096 + 32 * g.S * k).toUInt16).toNat = g.S + 8192 * (g.S * k % 8) := by
    rw [wordAt_toNat,toNat_byte (by omega),toNat_word hd,hlow]
    omega
  apply UInt16.toNat_inj.mp
  rw [varsAt,UInt16.toNat_sub,hword,toNat_word hleft,toNat_word (leftAt_lt hn),leftAt]
  omega

theorem copyPass_varsAt (hk : k + 1 < 256) (hn : n < 65536) (hd : 4096 + 32 * g.S * k < 65536) :
    copyPass g disk (varsAt g ks n k) mem =
      if ¬ g.ReadsAt ks k then Outcome.halted
      else if 32768 ≤ leftAt g.S n (k + 1) then
        .returned (varsAt g ks n k) (load disk (g.lbaAt ks k) g.S (65536 + 512 * g.S * k) mem)
      else if (k + 1) % g.top = 0 ∧ (k + 1) / g.top = g.maxCyl then .halted
      else .running (varsAt g ks n (k + 1)) (load disk (g.lbaAt ks k) g.S (65536 + 512 * g.S * k) mem) := by
  have hS := g.S_le
  have htop : g.top < 16 := Nat.mod_lt _ (by decide)
  have hcyl := g.cyl_le
  have hmod := Nat.mod_le k g.top
  have hdiv := Nat.div_le_self (k + 1) g.top
  obtain ⟨hwrap,hstay⟩ := succ_div_mod k g.top
  have hax : (varsAt g ks n k).b_kcnt - wordAt (varsAt g ks n k).copy_n (varsAt g ks n k).copy_d = _ := kcnt_varsAt hn hd
  have hd' : (4096 + 32 * g.S * k).toUInt16 + (512 * g.S).toUInt16 >>> 4 = (4096 + 32 * g.S * (k + 1)).toUInt16 := by
    apply UInt16.toNat_inj.mp
    rw [UInt16.toNat_add,UInt16.toNat_shiftRight,Nat.shiftRight_eq_div_pow,Nat.mul_add]
    simp
    omega
  have hs : ks.toUInt16.toUInt8 = ks.toUInt8 := by
    apply UInt8.toNat_inj.mp
    simp
  have hh : (k % g.top).toUInt8 + 1 = g.top.toUInt8 ↔ k % g.top + 1 = g.top := by
    rw [← UInt8.toNat_inj,UInt8.toNat_add]
    simp
    omega
  have hsign : (leftAt g.S n (k + 1)).toUInt16 &&& 0x8000 ≠ 0 ↔ 32768 ≤ leftAt g.S n (k + 1) := by
    rw [sign_iff,toNat_word (leftAt_lt hn)]
  rw [copyPass,copyBlock_varsAt (by omega) hd]
  by_cases hr : g.ReadsAt ks k
  · rw [if_pos hr,if_neg (not_not.mpr hr)]
    simp only [hax,hsign]
    by_cases hstop : 32768 ≤ leftAt g.S n (k + 1)
    · rw [if_pos hstop,if_pos hstop]
    · rw [if_neg hstop,if_neg hstop]
      simp only [varsAt,hd',hh]
      by_cases he : k % g.top + 1 = g.top
      · obtain ⟨hm,hq⟩ := hwrap he
        have hc : (k / g.top).toUInt16 + 1 = ((k + 1) / g.top).toUInt16 := by
          rw [hq]
          apply UInt16.toNat_inj.mp
          simp
        have hc' : ((k + 1) / g.top).toUInt16 = g.maxCyl.toUInt16 ↔ (k + 1) / g.top = g.maxCyl := by
          rw [← UInt16.toNat_inj,toNat_word (by omega),toNat_word (by omega)]
        rw [if_pos he,hm]
        simp only [hc,hc',hs,true_and]
        rfl
      · obtain ⟨hm,hq⟩ := hstay he
        have hc : (k % g.top).toUInt8 + 1 = (k % g.top + 1).toUInt8 := by
          apply UInt8.toNat_inj.mp
          simp
        rw [if_neg he,hm,hq,hc,hs,if_neg (fun h => absurd h.1 (Nat.succ_ne_zero _))]
  · rw [if_neg hr,if_pos hr]

/-! ## The number of passes -/

/-- How often the loop reads for `n` sectors. Unless a track has a multiple of 8 sectors, the
low byte of the segment ends the count after a few passes. -/
def passes (S n : ℕ) : ℕ :=
  if n < S then 1
  else match S % 8 with
    | 0 => n / S + 1
    | 4 => if n < 2 * S then 4 else 2
    | 5 => 5
    | 6 => 3
    | 7 => 4
    | _ => 2

/-- The count goes below zero in the last of `m` passes and not before. -/
structure Counts (S n m : ℕ) : Prop where
  pos : 0 < m
  goes : ∀ k, 0 < k → k < m → leftAt S n k < 32768
  stops : 32768 ≤ leftAt S n m
  small : ∀ k < m, S * k ≤ 1024

variable {S : ℕ}

theorem leftAt_aligned (h8 : S % 8 = 0) (hn : n < 65536) (hk : S * k ≤ n) : leftAt S n k = n - S * k := by
  induction k with
  | zero => rfl
  | succ k ih =>
    have hlow : S * k % 8 = 0 := by rw [Nat.mul_mod,h8,Nat.zero_mul,Nat.zero_mod]
    rw [Nat.mul_add,Nat.mul_one] at hk ⊢
    rw [leftAt,ih (by omega),hlow]
    omega

theorem counts_aligned (hS : 0 < S) (hS' : S ≤ 63) (h8 : S % 8 = 0) (hn : n ≤ 1024) : Counts S n (n / S + 1) where
  pos := Nat.succ_pos _
  goes k _ hk := by
    have hle : S * k ≤ n := by
      rw [Nat.mul_comm]
      exact (Nat.le_div_iff_mul_le hS).mp (by omega)
    rw [leftAt_aligned h8 (by omega) hle]
    omega
  stops := by
    have hle : S * (n / S) ≤ n := Nat.mul_div_le n S
    have hlt : n < S * (n / S) + S := by
      have := Nat.lt_mul_div_succ n hS
      rwa [Nat.mul_add,Nat.mul_one] at this
    have hlow : S * (n / S) % 8 = 0 := by rw [Nat.mul_mod,h8,Nat.zero_mul,Nat.zero_mod]
    rw [leftAt,leftAt_aligned h8 (by omega) hle,hlow]
    omega
  small k hk := by
    have hle : S * k ≤ S * (n / S) := Nat.mul_le_mul_left S (by omega)
    have := Nat.mul_div_le n S
    omega

theorem leftAt_next {a r b : ℕ} (h : leftAt S n k = a) (hr : S * k % 8 = r)
    (hb : (a + 65536 - (S + 8192 * r)) % 65536 = b) : leftAt S n (k + 1) = b := by
  rw [leftAt,h,hr,hb]

theorem counts_of_le {m : ℕ} (hS' : S ≤ 63) (hpos : 0 < m) (hm : m ≤ 5)
    (hgoes : ∀ k, 0 < k → k < m → leftAt S n k < 32768) (hstops : 32768 ≤ leftAt S n m) : Counts S n m where
  pos := hpos
  goes := hgoes
  stops := hstops
  small k hk := Nat.le_trans (Nat.mul_le_mul hS' (show k ≤ 4 by omega)) (by decide)

/-- One, two or three sectors over a multiple of 8 end the count in the second pass. -/
theorem counts_two (hS' : S ≤ 63) (hn : n ≤ 1024) (hlt : ¬ n < S) (hr : 1 ≤ S % 8) (hr' : S % 8 ≤ 3) : Counts S n 2 := by
  have h1 : leftAt S n 1 = n - S := leftAt_next (a := n) (r := 0) rfl (Nat.zero_mod 8) (by omega)
  have h2 : leftAt S n 2 = n + (65536 - 8192 * (S % 8)) - 2 * S :=
    leftAt_next h1 (congrArg (· % 8) (Nat.mul_one S)) (by omega)
  refine counts_of_le hS' (by decide) (by decide) (fun k hk hk' => ?_) (by omega)
  obtain rfl : k = 1 := by omega
  omega

theorem passes_counts (hS : 1 ≤ S) (hS' : S ≤ 63) (hn : n ≤ 1024) : Counts S n (passes S n) := by
  rw [passes]
  by_cases hlt : n < S
  · have h1 : leftAt S n 1 = n + 65536 - S := leftAt_next (a := n) (r := 0) rfl (Nat.zero_mod 8) (by omega)
    rw [if_pos hlt]
    exact counts_of_le hS' (by decide) (by decide) (by omega) (by omega)
  · have h1 : leftAt S n 1 = n - S := leftAt_next (a := n) (r := 0) rfl (Nat.zero_mod 8) (by omega)
    have h8 : S % 8 < 8 := Nat.mod_lt _ (by decide)
    rw [if_neg hlt]
    -- what is left is followed pass by pass, for each remainder of the sectors of a track
    interval_cases hr : S % 8
    · exact counts_aligned hS hS' hr hn
    · exact counts_two hS' hn hlt (by omega) (by omega)
    · exact counts_two hS' hn hlt (by omega) (by omega)
    · exact counts_two hS' hn hlt (by omega) (by omega)
    · have h2 : leftAt S n 2 = n + 32768 - 2 * S := leftAt_next h1 (r := 4) (by omega) (by omega)
      change Counts S n (if n < 2 * S then 4 else 2)
      by_cases hlt2 : n < 2 * S
      · have h3 : leftAt S n 3 = n + 32768 - 3 * S := leftAt_next h2 (r := 0) (by omega) (by omega)
        have h4 : leftAt S n 4 = n + 65536 - 4 * S := leftAt_next h3 (r := 4) (by omega) (by omega)
        rw [if_pos hlt2]
        exact counts_of_le hS' (by decide) (by decide) (fun k hk hk' => by interval_cases k <;> omega) (by omega)
      · rw [if_neg hlt2]
        exact counts_of_le hS' (by decide) (by decide) (fun k hk hk' => by interval_cases k; omega) (by omega)
    · have h2 : leftAt S n 2 = n + 24576 - 2 * S := leftAt_next h1 (r := 5) (by omega) (by omega)
      have h3 : leftAt S n 3 = n + 8192 - 3 * S := leftAt_next h2 (r := 2) (by omega) (by omega)
      have h4 : leftAt S n 4 = n + 16384 - 4 * S := leftAt_next h3 (r := 7) (by omega) (by omega)
      have h5 : leftAt S n 5 = n + 49152 - 5 * S := leftAt_next h4 (r := 4) (by omega) (by omega)
      change Counts S n 5
      exact counts_of_le hS' (by decide) (by decide) (fun k hk hk' => by interval_cases k <;> omega) (by omega)
    · have h2 : leftAt S n 2 = n + 16384 - 2 * S := leftAt_next h1 (r := 6) (by omega) (by omega)
      have h3 : leftAt S n 3 = n + 49152 - 3 * S := leftAt_next h2 (r := 4) (by omega) (by omega)
      change Counts S n 3
      exact counts_of_le hS' (by decide) (by decide) (fun k hk hk' => by interval_cases k <;> omega) (by omega)
    · have h2 : leftAt S n 2 = n + 8192 - 2 * S := leftAt_next h1 (r := 7) (by omega) (by omega)
      have h3 : leftAt S n 3 = n + 24576 - 3 * S := leftAt_next h2 (r := 6) (by omega) (by omega)
      have h4 : leftAt S n 4 = n + 49152 - 4 * S := leftAt_next h3 (r := 5) (by omega) (by omega)
      change Counts S n 4
      exact counts_of_le hS' (by decide) (by decide) (fun k hk hk' => by interval_cases k <;> omega) (by omega)

end Micron.Boot

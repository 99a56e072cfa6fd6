import Micron.Filesys.Access
import Micron.Lib.Runs

/-! # Allocation of inodes and data blocks

What the search of `mfs_seekbmp` finds, when that is right, and what follows for runs of
`mfs_ialloc`, `mfs_ifree` and `mfs_dalloc`. The bits of a bitmap are counted over all of
its blocks, but the search forgets the number of the block it stopped in, looks at one
block too many and does not know the number of data blocks.
-/
namespace Micron.Filesys
open Function Bytes Kernel Scache Prog Runs

section
variable (E : Env) (sb : Sblk) (dev : UInt32)

def Sblk.len : ℕ := sb.blksize.toNatClampNeg

def Sblk.base (type : Bmptype) : ℕ := (sb.bmp type).toNatClampNeg

def Sblk.cnt (type : Bmptype) : ℕ := (sb.bmpcnt type).toNatClampNeg

def bitOf (C : ℤ → ℕ → UInt8) (type : Bmptype) (n : ℕ) : Bool :=
  Bits.get (C (sb.base type + n / (8 * sb.len) : ℕ)) (n % (8 * sb.len))

def bmpBit (s : State) : Bmptype → ℕ → Bool := bitOf sb (s.scache.view sb.len dev.toNat)

/-- The bits of a bitmap that stand for an object: all of its bits, or one bit for each
data block. -/
def InRegion (type : Bmptype) (n : ℕ) : Prop :=
  n < sb.cnt type * (8 * sb.len) ∧ (type = .DBLK → n < sb.dblkcnt.toInt)

/-- From `s`, the search returns a clear bit of the region, or -1 exactly if there is none. -/
def SeekSound (s : State) (type : Bmptype) : Prop :=
  ∃ r t, (mfsSeekbmp E sb dev type).run s = (.ok r,t) ∧
    (∀ n, r = some n → InRegion sb type n ∧ bmpBit sb dev s type n = false) ∧
    (r = none ↔ ∀ n, InRegion sb type n → bmpBit sb dev s type n = true)

/-- The first clear bit is in the first block and in the region, or there is no clear bit up
to the block after the last. -/
def Findable (s : State) (type : Bmptype) : Prop :=
  (∃ n < 8 * sb.len, InRegion sb type n ∧ bmpBit sb dev s type n = false ∧
    ∀ m < n, bmpBit sb dev s type m = true) ∨
  ∀ n < (sb.cnt type + 1) * (8 * sb.len), bmpBit sb dev s type n = true

/-- A device with two bitmaps behind its super block that do not overlap and, with the
block after each, fit into the cache. -/
structure BmpImage : Prop where
  dev_ok : DevOk dev.toNat
  open_ok : E.devs.openOk dev.toNat
  blksize_pos : 0 < sb.blksize.toInt
  aligned : 512 ∣ sb.len
  supported : sb.len ≤ NMXBLKSZ
  bmp_pos : ∀ type, 0 < (sb.bmp type).toInt
  valid : ∀ type, ∀ b ≤ sb.cnt type, (Get.mk dev.toNat (sb.base type + b : ℕ) sb.len).Valid E.devs
  disjoint : sb.base .IBLK + sb.cnt .IBLK ≤ sb.base .DBLK ∨ sb.base .DBLK + sb.cnt .DBLK ≤ sb.base .IBLK
  fits : sb.cnt .IBLK + 1 + (sb.cnt .DBLK + 1) ≤ NSECACHS

/-! ## Runs -/

inductive BmpOp where
  | ialloc
  | ifree (node : VPtr)
  | dalloc

/-- The inodes and data blocks handed out and not released since. -/
abbrev Live := Bmptype → List ℕ

/-- The block a call of `mfs_dalloc` from `s` marks. Its result does not tell, since it is 0
for the first block and for a failure. -/
def taken (s : State) : Option ℕ :=
  match ((mfsSeekbmp E sb dev .DBLK).run s).1 with
  | .ok r => r
  | .error _ => none

def bmpStep (x : State × Live) : BmpOp → Option (State × Live)
  | .ialloc => match (mfsIalloc E sb dev).run x.1 with
    | (.ok .null,t) => some (t,x.2)
    | (.ok vp,t) => some (t,update x.2 .IBLK ((t.vnode vp).ino.toNat :: x.2 .IBLK))
    | _ => none
  | .ifree node => match (mfsIfree E sb node).run x.1 with
    | (.ok _,t) => some (t,update x.2 .IBLK ((x.2 .IBLK).erase (x.1.vnode node).ino.toNat))
    | _ => none
  | .dalloc => match (mfsDalloc E sb dev).run x.1 with
    | (.ok _,t) => some (t,update x.2 .DBLK ((taken E sb dev x.1).toList ++ x.2 .DBLK))
    | _ => none

def bmpRun (disk : ℕ → ℕ → UInt8) (ops : List BmpOp) : Option (State × Live) :=
  ops.foldlM (bmpStep E sb dev) (.boot disk,fun _ => [])

def Releases (x : State × Live) : BmpOp → Prop
  | .ifree node => node.isNode ∧ (x.1.vnode node).dev = dev ∧ InRegion sb .IBLK (x.1.vnode node).ino.toNat
  | _ => True

def Searches (x : State × Live) : BmpOp → Prop
  | .ialloc => Findable sb dev x.1 .IBLK
  | .dalloc => Findable sb dev x.1 .DBLK
  | .ifree _ => True

end

variable {E : Env} {sb : Sblk} {dev : UInt32} {s : State} {C C' : Content} {type : Bmptype} {n : ℕ}

/-! ## The blocks of the image -/

namespace BmpImage
variable (h : BmpImage E sb dev)
include h

def sizes : BlkSizes := ⟨fun _ => sb.len,fun _ => h.aligned,fun _ => h.supported⟩

theorem len_eq : sb.blksize.toInt = sb.len := Machine.toInt_eq (Int.le_of_lt h.blksize_pos)

theorem len_pos : 0 < sb.len := by
  have := h.blksize_pos
  rw [h.len_eq] at this
  omega

theorem usable {bs : BlkSizes} (hs : bs.size dev.toNat = sb.len) : Usable E bs dev sb.blksize :=
  ⟨h.dev_ok,h.open_ok,hs ▸ h.len_eq⟩

theorem base_eq : (sb.bmp type).toInt = sb.base type := Machine.toInt_eq (Int.le_of_lt (h.bmp_pos type))

end BmpImage

def bmpBlocks (sb : Sblk) (dev : UInt32) : Finset (ℕ × ℤ) :=
  (Finset.range (sb.cnt .IBLK + 1)).image (fun b => (dev.toNat,((sb.base .IBLK + b : ℕ) : ℤ))) ∪
    (Finset.range (sb.cnt .DBLK + 1)).image (fun b => (dev.toNat,((sb.base .DBLK + b : ℕ) : ℤ)))

theorem BmpImage.card_le (h : BmpImage E sb dev) : (bmpBlocks sb dev).card ≤ NSECACHS := by
  refine (Finset.card_union_le _ _).trans (le_trans (Nat.add_le_add Finset.card_image_le Finset.card_image_le) ?_)
  simpa using h.fits

theorem BmpImage.inUse {bs : BlkSizes} {B : Finset (ℕ × ℤ)} (h : BmpImage E sb dev) (hs : bs.size dev.toNat = sb.len)
    (hB : bmpBlocks sb dev ⊆ B) {b : ℕ} (hb : b ≤ sb.cnt type) : InUse E bs B dev (sb.base type + b : ℕ) where
  valid := by
    rw [BlkSizes.request,hs]
    exact h.valid type b hb
  ne_zero := by
    have := h.bmp_pos type
    rw [h.base_eq] at this
    omega
  mem := by
    have hb' : b ∈ Finset.range (sb.cnt type + 1) := Finset.mem_range.mpr (Nat.lt_succ_of_le hb)
    refine hB ?_
    cases type with
    | IBLK => exact Finset.mem_union_left _ (Finset.mem_image_of_mem _ hb')
    | DBLK => exact Finset.mem_union_right _ (Finset.mem_image_of_mem _ hb')

theorem BmpImage.blk_eq (h : BmpImage E sb dev) {blk : Int32} {b : ℕ} (hblk : blk.toInt = b)
    (hb : b ≤ sb.cnt type) : (sb.bmp type + blk).toInt = (sb.base type + b : ℕ) := by
  refine Machine.toInt_add h.base_eq hblk ?_
  have hf := (h.valid type b hb).fits
  have hpos : 0 < sb.len / 512 := by
    obtain ⟨q,hq⟩ := h.aligned
    have := h.len_pos
    omega
  have hle : ((sb.base type + b : ℕ) : ℤ) ≤ (sb.base type + b : ℕ) * (sb.len / 512 : ℕ) := by
    exact_mod_cast Nat.le_mul_of_pos_right _ hpos
  have hlt := lt_of_le_of_lt hle hf
  exact_mod_cast hlt

/-! ## The search -/

theorem seekBit_eq {b : UInt8} (hb : b ≠ 0xff) : ∃ j < 8, seekBit 8 (~~~ b) 0 = some j ∧
    Bits.bit b j = false ∧ ∀ l < j, Bits.bit b l = true := by
  revert b
  apply Bits.forall_byte
  decide +kernel

/-- The first byte with a clear bit leads to the first clear bit. -/
theorem seek_first {f : ℕ → UInt8} {len k : ℕ}
    (hfind : (List.range len).find? (fun i => decide (f i ≠ 0xff)) = some k) :
    ∃ j < 8, seekBit 8 (~~~ f k) 0 = some j ∧ j + k * 8 < 8 * len ∧ Bits.get f (j + k * 8) = false ∧
      ∀ m < j + k * 8, Bits.get f m = true := by
  have hk := List.mem_range.mp (List.mem_of_find?_eq_some hfind)
  have hne : f k ≠ 0xff := by simpa using List.find?_some hfind
  have hfull : ∀ q < k, f q = 0xff := by
    intro q hq
    have := (List.find?_range_eq_some.mp hfind).2.2 q hq
    simpa using this
  obtain ⟨j,hj,hseek,hbit,hlow⟩ := seekBit_eq hne
  obtain ⟨hclear,hset⟩ := Bits.first_clear hfull hj hbit hlow
  exact ⟨j,hj,hseek,by omega,hclear,hset⟩

/-- A search from block `b` on ends at the first clear bit from there on, of which only the
place in its block is returned, or after the block behind the last. -/
def Searched (sb : Sblk) (C : ℤ → ℕ → UInt8) (type : Bmptype) (b : ℕ) : Option ℕ → Prop
  | some n => ∃ q, b ≤ q ∧ q ≤ sb.cnt type ∧ n < 8 * sb.len ∧ bitOf sb C type (q * (8 * sb.len) + n) = false ∧
      ∀ m, b * (8 * sb.len) ≤ m → m < q * (8 * sb.len) + n → bitOf sb C type m = true
  | none => ∀ m, b * (8 * sb.len) ≤ m → m < (sb.cnt type + 1) * (8 * sb.len) → bitOf sb C type m = true

theorem bitOf_block {f : ℤ → ℕ → UInt8} {q : ℕ} (hn : n < 8 * sb.len) :
    bitOf sb f type (q * (8 * sb.len) + n) = Bits.get (f (sb.base type + q : ℕ)) n := by
  have hpos : 0 < 8 * sb.len := by omega
  rw [bitOf,Nat.mul_comm,Nat.mul_add_div hpos,Nat.mul_add_mod,Nat.div_eq_of_lt hn,Nat.mod_eq_of_lt hn,Nat.add_zero]

theorem get_congr {f g : ℕ → UInt8} {len : ℕ} (h : ∀ k < len, f k = g k) (hn : n < 8 * len) :
    Bits.get f n = Bits.get g n := by
  rw [Bits.get,Bits.get,h _ (by omega)]

theorem Searched.full {f : ℤ → ℕ → UInt8} {b : ℕ} {r : Option ℕ} (h : Searched sb f type (b + 1) r)
    (hfull : ∀ n < 8 * sb.len, bitOf sb f type (b * (8 * sb.len) + n) = true) : Searched sb f type b r := by
  have hlow : ∀ m, b * (8 * sb.len) ≤ m → m < (b + 1) * (8 * sb.len) → bitOf sb f type m = true := by
    intro m hm hm'
    obtain ⟨n,rfl⟩ := Nat.exists_eq_add_of_le hm
    apply hfull n
    rw [Nat.add_one_mul b] at hm'
    omega
  cases r with
  | none =>
    intro m hm hm'
    by_cases hlt : m < (b + 1) * (8 * sb.len)
    · exact hlow m hm hlt
    · exact h m (Nat.le_of_not_lt hlt) hm'
  | some n =>
    obtain ⟨q,hq,hqc,hn,hclear,hset⟩ := h
    refine ⟨q,by omega,hqc,hn,hclear,fun m hm hm' => ?_⟩
    by_cases hlt : m < (b + 1) * (8 * sb.len)
    · exact hlow m hm hlt
    · exact hset m (Nat.le_of_not_lt hlt) hm'

theorem Searched.eq_some {f : ℤ → ℕ → UInt8} {r : Option ℕ} {N : ℕ} (h : Searched sb f type 0 r)
    (hN : N < (sb.cnt type + 1) * (8 * sb.len)) (hclear : bitOf sb f type N = false)
    (hset : ∀ m < N, bitOf sb f type m = true) : r = some (N % (8 * sb.len)) := by
  cases r with
  | none =>
    rw [h N (by simp) hN] at hclear
    exact absurd hclear (by simp)
  | some n =>
    obtain ⟨q,-,-,hn,hclear',hset'⟩ := h
    have he : N = q * (8 * sb.len) + n := by
      rcases Nat.lt_trichotomy N (q * (8 * sb.len) + n) with hlt | heq | hgt
      · rw [hset' N (by simp) hlt] at hclear
        exact absurd hclear (by simp)
      · exact heq
      · rw [hset _ hgt] at hclear'
        exact absurd hclear' (by simp)
    rw [he,Nat.mul_comm,Nat.mul_add_mod,Nat.mod_eq_of_lt hn]

theorem Searched.found {f : ℤ → ℕ → UInt8} {buf : ℕ → UInt8} {b k : ℕ}
    (hbuf : ∀ k < sb.len, buf k = f (sb.base type + b : ℕ) k) (hb : b ≤ sb.cnt type)
    (hfind : (List.range sb.len).find? (fun i => decide (buf i ≠ 255)) = some k) :
    ∃ j, seekBit 8 (~~~ buf k) 0 = some j ∧ Searched sb f type b (some (j + k * 8)) := by
  obtain ⟨j,hj,hseek,hn,hclear,hset⟩ := seek_first hfind
  refine ⟨j,hseek,b,le_rfl,hb,hn,?_,?_⟩
  · rw [bitOf_block hn,← get_congr hbuf hn]
    exact hclear
  · intro m hm hm'
    obtain ⟨l,rfl⟩ := Nat.exists_eq_add_of_le hm
    rw [bitOf_block (by omega),← get_congr hbuf (by omega)]
    exact hset l (by omega)

theorem block_full {f : ℤ → ℕ → UInt8} {buf : ℕ → UInt8} {b : ℕ}
    (hbuf : ∀ k < sb.len, buf k = f (sb.base type + b : ℕ) k)
    (hfind : (List.range sb.len).find? (fun i => decide (buf i ≠ 255)) = none) :
    ∀ n < 8 * sb.len, bitOf sb f type (b * (8 * sb.len) + n) = true := by
  intro n hn
  rw [bitOf_block hn,← get_congr hbuf hn]
  exact Bits.get_of_full (by simpa using List.find?_eq_none.mp hfind (n / 8) (List.mem_range.mpr (by omega)))

section Cache
variable {bs : BlkSizes} {B : Finset (ℕ × ℤ)} (h : BmpImage E sb dev) (hs : bs.size dev.toNat = sb.len)
  (hB : bmpBlocks sb dev ⊆ B)
include h hs hB

theorem wp_seekBlock {X : State → Prop} {Q : Option ℕ → State → Prop} {blk : Int32}
    {b fuel : ℕ} (hblk : blk.toInt = b) (hb : b ≤ sb.cnt type) (hfuel : sb.cnt type - b < fuel)
    (hd : Disk E bs B C s.scache)
    (hQ : ∀ r c, Searched sb (C dev.toNat) type b r → Disk E bs B C c → Q r { s with scache := c }) :
    wp (seekBlock E sb dev type fuel blk) Q X s := by
  induction fuel generalizing blk b s with
  | zero => omega
  | succ fuel ih =>
    have hat := h.blk_eq hblk hb
    unfold seekBlock
    rw [wp_bind]
    refine wp_get (h.usable hs) hd (hat ▸ h.inUse hs hB hb) (fun i c hd' hent _ => ?_)
    rw [hat] at hent
    rw [wp_bind,wp_buffer]
    have hbuf : ∀ k < sb.len, c.buf (some i) k = C dev.toNat (sb.base type + b : ℕ) k :=
      fun k hk => hd'.buf hent (h.inUse hs hB hb).ne_zero (hs ▸ hk)
    have hlen : min sb.blksize.toNatClampNeg NMXBLKSZ = sb.len := Nat.min_eq_left h.supported
    dsimp only
    rw [hlen]
    cases hfind : (List.range sb.len).find? (fun i_1 => decide (c.buf (some i) i_1 ≠ 255)) with
    | some k =>
      -- the block has a clear bit
      obtain ⟨j,hseek,hfound⟩ := Searched.found hbuf hb hfind
      simp only [hseek,wp_pure]
      exact hQ (some (j + k * 8)) c hfound hd'
    | none =>
      have hfull := block_full hbuf hfind
      have hsup : ¬ NMXBLKSZ < sb.blksize.toNatClampNeg := Nat.not_lt.mpr h.supported
      simp only [hsup,if_false]
      split
      · rename_i hlt
        have hcnt : (sb.bmpcnt type).toInt = sb.cnt type := by
          refine Machine.toInt_eq (Int.le_of_lt ?_)
          have := Int32.lt_iff_toInt_lt.mp hlt
          omega
        have hbc := (Machine.lt_iff hblk hcnt).mp hlt
        have hnext : (blk + 1).toInt = (b + 1 : ℕ) := by
          have := (sb.bmpcnt type).toInt_lt
          exact Machine.toInt_add hblk (by decide) (by omega)
        exact ih hnext (by omega) (by omega) hd' (fun r c' hr hd'' => hQ r c' (hr.full hfull) hd'')
      · rename_i hge
        have hbc : b = sb.cnt type := by
          by_contra hne
          refine hge ?_
          have hpos : 0 < sb.cnt type := by omega
          have hcnt : (sb.bmpcnt type).toInt = sb.cnt type := by
            refine Machine.toInt_eq ?_
            by_contra hneg
            have : sb.cnt type = 0 := by
              rw [Sblk.cnt,← Int32.toNat_toInt]
              omega
            omega
          exact (Machine.lt_iff hblk hcnt).mpr (by omega)
        refine hQ none c ?_ hd'
        intro m hm hm'
        obtain ⟨l,rfl⟩ := Nat.exists_eq_add_of_le hm
        apply hfull l
        rw [← hbc,Nat.add_one_mul b] at hm'
        omega

theorem BmpImage.seek (hd : Disk E bs B C s.scache) (type : Bmptype) :
    ∃ r c, (mfsSeekbmp E sb dev type).run s = (.ok r,{ s with scache := c }) ∧
      Searched sb (C dev.toNat) type 0 r ∧ Disk E bs B C c := by
  have hwp : wp (mfsSeekbmp E sb dev type) (fun r t => ∃ c, t = { s with scache := c } ∧
      Searched sb (C dev.toNat) type 0 r ∧ Disk E bs B C c) (fun _ => False) s :=
    wp_seekBlock h hs hB (by decide) (Nat.zero_le _) (Nat.lt_succ_self _) hd (fun r c hr hc => ⟨c,rfl,hr,hc⟩)
  obtain ⟨r,t,hrun,c,rfl,hr,hc⟩ := hwp.run
  exact ⟨r,c,hrun,hr,hc⟩

theorem BmpImage.bmpBit_eq (hd : Disk E bs B C s.scache)
    (hn : n < (sb.cnt type + 1) * (8 * sb.len)) : bmpBit sb dev s type n = bitOf sb (C dev.toNat) type n := by
  have hpos : 0 < 8 * sb.len := Nat.mul_pos (by decide) h.len_pos
  have hb : n / (8 * sb.len) ≤ sb.cnt type := Nat.le_of_lt_succ ((Nat.div_lt_iff_lt_mul hpos).mpr hn)
  have huse := h.inUse hs hB hb
  unfold bmpBit
  rw [← hs]
  unfold bitOf
  refine get_congr (fun k (hk : k < sb.len) => hd.view_eq huse.valid ?_) (Nat.mod_lt n hpos)
  rw [volume_size huse.ne_zero,hs]
  exact hk

end Cache

abbrev BmpImage.Good (h : BmpImage E sb dev) (C : Content) (c : Scache) : Prop :=
  Disk E h.sizes (bmpBlocks sb dev) C c

theorem InRegion.lt (hn : InRegion sb type n) : n < (sb.cnt type + 1) * (8 * sb.len) :=
  Nat.lt_of_lt_of_le hn.1 (Nat.mul_le_mul_right _ (Nat.le_succ _))

/-- What a search returns is right if the first clear bit is where it looks. -/
theorem BmpImage.sound_iff (h : BmpImage E sb dev) (hd : h.Good C s.scache) {r : Option ℕ}
    (hr : Searched sb (C dev.toNat) type 0 r) :
    ((∀ n, r = some n → InRegion sb type n ∧ bmpBit sb dev s type n = false) ∧
      (r = none ↔ ∀ n, InRegion sb type n → bmpBit sb dev s type n = true)) ↔ Findable sb dev s type := by
  have heq : ∀ n < (sb.cnt type + 1) * (8 * sb.len), bmpBit sb dev s type n = bitOf sb (C dev.toNat) type n :=
    fun n hn => h.bmpBit_eq rfl subset_rfl hd hn
  have hfirst : 8 * sb.len ≤ (sb.cnt type + 1) * (8 * sb.len) := Nat.le_mul_of_pos_left _ (Nat.succ_pos _)
  cases r with
  | none =>
    have hall : ∀ n < (sb.cnt type + 1) * (8 * sb.len), bmpBit sb dev s type n = true := by
      intro n hn
      rw [heq n hn]
      exact hr n (by omega) hn
    constructor
    · intro _
      exact Or.inr hall
    · intro _
      exact ⟨by simp,⟨fun _ n hn => hall n hn.lt,fun _ => rfl⟩⟩
  | some n =>
    obtain ⟨q,-,hqc,hn,hclear,hset⟩ := hr
    have hlt : q * (8 * sb.len) + n < (sb.cnt type + 1) * (8 * sb.len) := by
      calc q * (8 * sb.len) + n < q * (8 * sb.len) + 8 * sb.len := Nat.add_lt_add_left hn _
        _ = (q + 1) * (8 * sb.len) := (Nat.add_one_mul q _).symm
        _ ≤ (sb.cnt type + 1) * (8 * sb.len) := Nat.mul_le_mul_right _ (by omega)
    have hset' : ∀ m < q * (8 * sb.len) + n, bmpBit sb dev s type m = true := by
      intro m hm
      rw [heq m (Nat.lt_trans hm hlt)]
      exact hset m (by omega) hm
    rw [← heq _ hlt] at hclear
    constructor
    · rintro ⟨hsome,-⟩
      obtain ⟨hreg,hbit⟩ := hsome n rfl
      refine Or.inl ⟨n,hn,hreg,hbit,fun m hm => hset' m ?_⟩
      omega
    · rintro (⟨m,hm,hreg,hbit,hlow⟩ | hall)
      · -- the first clear bit of the first block is the one the search stopped at
        have hmq : m = q * (8 * sb.len) + n := by
          rcases Nat.lt_trichotomy m (q * (8 * sb.len) + n) with hlt' | heq' | hgt
          · rw [hset' m hlt'] at hbit
            exact absurd hbit (by simp)
          · exact heq'
          · rw [hlow _ hgt] at hclear
            exact absurd hclear (by simp)
        have hq : q = 0 := by
          by_contra hq
          have := Nat.le_mul_of_pos_left (8 * sb.len) (Nat.pos_of_ne_zero hq)
          omega
        rw [hq,Nat.zero_mul,Nat.zero_add] at hmq
        subst hmq
        refine ⟨?_,?_⟩
        · rintro k ⟨⟩
          exact ⟨hreg,hbit⟩
        · simp only [reduceCtorEq,false_iff,not_forall]
          exact ⟨m,hreg,by simp [hbit]⟩
      · rw [hall _ hlt] at hclear
        exact absurd hclear (by simp)

theorem BmpImage.seekSound_iff (h : BmpImage E sb dev) (hd : h.Good C s.scache) :
    SeekSound E sb dev s type ↔ Findable sb dev s type := by
  obtain ⟨r,c,hrun,hr,-⟩ := h.seek rfl subset_rfl hd type
  rw [← h.sound_iff hd hr]
  constructor
  · rintro ⟨r',t,hrun',hs⟩
    rw [hrun,Prod.mk.injEq,Except.ok.injEq] at hrun'
    exact hrun'.1 ▸ hs
  · intro hs
    exact ⟨r,_,hrun,hs⟩

/-! ## Marking a bit -/

structure Marked (sb : Sblk) (f g : ℤ → ℕ → UInt8) (type : Bmptype) (n : ℕ) (v : Bool) : Prop where
  same : ∀ m, bitOf sb g type m = if m = n then v else bitOf sb f type m
  other : ∀ b : ℤ, b ≠ (sb.base type + n / (8 * sb.len) : ℕ) → g b = f b

/-- Marking a bit of one bitmap leaves those of the other alone. -/
theorem Marked.other_bit {f g : ℤ → ℕ → UInt8} {type' : Bmptype} {m : ℕ} {v : Bool} (h : BmpImage E sb dev)
    (hm : Marked sb f g type n v) (hne : type' ≠ type) (hn : n < sb.cnt type * (8 * sb.len))
    (hm' : m < sb.cnt type' * (8 * sb.len)) :
    bitOf sb g type' m = bitOf sb f type' m := by
  have hpos : 0 < 8 * sb.len := Nat.mul_pos (by decide) h.len_pos
  have h1 : n / (8 * sb.len) < sb.cnt type := (Nat.div_lt_iff_lt_mul hpos).mpr hn
  have h2 : m / (8 * sb.len) < sb.cnt type' := (Nat.div_lt_iff_lt_mul hpos).mpr hm'
  unfold bitOf
  rw [hm.other]
  have hdis := h.disjoint
  intro he
  have he' := Int.natCast_inj.mp he
  generalize n / (8 * sb.len) = x at h1 he'
  generalize m / (8 * sb.len) = y at h2 he'
  cases type <;> cases type' <;> first | exact absurd rfl hne | omega

def markContent (sb : Sblk) (dev : UInt32) (type : Bmptype) (n : ℕ) (v : Bool) (C : Content) : Content :=
  C.set dev.toNat (sb.base type + n / (8 * sb.len) : ℕ)
    (Bits.set (C dev.toNat (sb.base type + n / (8 * sb.len) : ℕ)) (n % (8 * sb.len)) v)

theorem marked_mark (C : Content) (sb : Sblk) (dev : UInt32) (type : Bmptype) (n : ℕ) (v : Bool) :
    Marked sb (C dev.toNat) (markContent sb dev type n v C dev.toNat) type n v := by
  refine ⟨fun m => ?_,fun b hb => Content.set_of_ne _ (fun he => hb (Prod.mk.inj he).2)⟩
  unfold bitOf markContent
  by_cases hm : m / (8 * sb.len) = n / (8 * sb.len)
  · rw [hm,Content.set_self,Bits.get_set]
    by_cases hmn : m % (8 * sb.len) = n % (8 * sb.len)
    · have : m = n := by rw [← Nat.div_add_mod m (8 * sb.len),hm,hmn,Nat.div_add_mod]
      simp [this]
    · rw [if_neg hmn,if_neg (fun he => hmn (by rw [he]))]
  · have hblk : (dev.toNat,((sb.base type + m / (8 * sb.len) : ℕ) : ℤ)) ≠
        (dev.toNat,((sb.base type + n / (8 * sb.len) : ℕ) : ℤ)) :=
      fun he => hm (Nat.add_left_cancel (Int.natCast_inj.mp (Prod.mk.inj he).2))
    rw [Content.set_of_ne _ hblk,if_neg (fun he => hm (by rw [he]))]

theorem wp_mark {X : State → Prop} {bs : BlkSizes} {B : Finset (ℕ × ℤ)} {Q : Unit → State → Prop} {index : Int32}
    {v : Bool} (hu : Usable E bs dev sb.blksize) (hpos : 0 < sb.len) (hbase : (sb.bmp type).toInt = sb.base type)
    (hb : InUse E bs B dev (sb.base type + n / (8 * sb.len) : ℕ)) (hidx : index.toInt = n)
    (hd : Disk E bs B C s.scache) (hQ : ∀ c, Disk E bs B (markContent sb dev type n v C) c → Q () { s with scache := c }) :
    wp (mfsMarkbmp E sb dev type index v) Q X s := by
  have hlen : sb.len = bs.size dev.toNat := Machine.toNatClampNeg_eq hu.size_eq
  have hpos8 : 0 < 8 * sb.len := Nat.mul_pos (by decide) hpos
  have hsup : sb.len ≤ NMXBLKSZ := hlen ▸ bs.supported _
  have hbits : (8 * sb.blksize).toInt = (8 * sb.len : ℕ) :=
    Machine.toInt_mul (by decide) (hlen ▸ hu.size_eq) (by simp only [NMXBLKSZ] at hsup; omega)
  have hne : 8 * sb.blksize ≠ 0 := by
    intro h0
    rw [h0] at hbits
    simp at hbits
    omega
  have hety := Machine.toInt_mod hidx hbits
  have hat := Machine.toInt_add hbase (Machine.toInt_div hidx hbits) (valid_lt hb.valid (hlen ▸ hpos))
  have hclamp := Machine.toNatClampNeg_eq hety
  have hlt := Nat.mod_lt n hpos8
  have hin : ¬ (index % (8 * sb.blksize) < 0 ∨ NMXBLKSZ ≤ (index % (8 * sb.blksize)).toNatClampNeg / 8) := by
    rw [hclamp]
    rintro (h0 | h1)
    · exact Machine.not_neg hety h0
    · omega
  unfold mfsMarkbmp
  simp only [hne,if_false,wp_bind]
  refine wp_get hu hd (hat ▸ hb) (fun i c hd' hent _ => ?_)
  simp only [hin,if_false,wp_pure,wp_setBuffer,wp_bind]
  rw [hat] at hent
  refine wp_sync hu (hd'.set hent c.mode) (hat ▸ hb) (fun r c' hd'' => hQ c' ?_)
  rw [hclamp] at hd''
  have hbuf : ∀ k < sb.len, c.buf (some i) k = C dev.toNat (sb.base type + n / (8 * sb.len) : ℕ) k :=
    fun k hk => hd'.buf hent hb.ne_zero (hlen ▸ hk)
  refine hd''.congr (fun d b k hk => ?_)
  unfold markContent
  by_cases hdb : (d,b) = (dev.toNat,((sb.base type + n / (8 * sb.len) : ℕ) : ℤ))
  · obtain ⟨rfl,rfl⟩ := Prod.mk.inj hdb
    rw [Content.set_self,Content.set_self]
    rw [volume_size hb.ne_zero,← hlen] at hk
    exact (Bits.set_congr (hbuf _ (by omega)) (hbuf k hk)).symm
  · rw [Content.set_of_ne _ hdb,Content.set_of_ne _ hdb]

theorem wp_markbmp {X : State → Prop} {bs : BlkSizes} {B : Finset (ℕ × ℤ)} (h : BmpImage E sb dev)
    (hs : bs.size dev.toNat = sb.len) (hB : bmpBlocks sb dev ⊆ B) {Q : Unit → State → Prop} {index : Int32} {v : Bool}
    (hidx : index.toInt = n) (hn : n < (sb.cnt type + 1) * (8 * sb.len)) (hd : Disk E bs B C s.scache)
    (hQ : ∀ C' c, Marked sb (C dev.toNat) (C' dev.toNat) type n v → Disk E bs B C' c → Q () { s with scache := c }) :
    wp (mfsMarkbmp E sb dev type index v) Q X s := by
  have hpos : 0 < 8 * sb.len := Nat.mul_pos (by decide) h.len_pos
  have hb : n / (8 * sb.len) ≤ sb.cnt type := Nat.le_of_lt_succ ((Nat.div_lt_iff_lt_mul hpos).mpr hn)
  exact wp_mark (h.usable hs) h.len_pos h.base_eq (h.inUse hs hB hb) hidx hd
    (fun c hc => hQ _ c (marked_mark C sb dev type n v) hc)

/-! ## Runs of allocations and releases -/

/-- The state of a run: the cache agrees with `C` and no vnode is marked as used. -/
structure BmpImage.Ready (h : BmpImage E sb dev) (C : Content) (s : State) : Prop where
  disk : h.Good C s.scache
  vlist : s.vlist.Unused NVCHCNTS

theorem Searched.lt {f : ℤ → ℕ → UInt8} {b : ℕ} (h : Searched sb f type b (some n)) : n < 8 * sb.len := by
  obtain ⟨-,-,-,hn,-⟩ := h
  exact hn

theorem BmpImage.index_lt (h : BmpImage E sb dev) (hn : n < (sb.cnt type + 1) * (8 * sb.len)) : n < 2 ^ 31 := by
  have hfits := h.fits
  have hsup := h.supported
  have hcnt : sb.cnt type + 1 ≤ 512 := by cases type <;> simp only [NSECACHS] at hfits <;> omega
  have hlen : 8 * sb.len ≤ 32768 := by simp only [NMXBLKSZ] at hsup; omega
  calc n < (sb.cnt type + 1) * (8 * sb.len) := hn
    _ ≤ 512 * 32768 := Nat.mul_le_mul hcnt hlen
    _ < 2 ^ 31 := by decide

theorem first_lt {f : ℤ → ℕ → UInt8} {b : ℕ}
    (hr : Searched sb f type b (some n)) : n < (sb.cnt type + 1) * (8 * sb.len) :=
  Nat.lt_of_lt_of_le hr.lt (Nat.le_mul_of_pos_left _ (Nat.succ_pos _))

def Takes (sb : Sblk) (f g : ℤ → ℕ → UInt8) (type : Bmptype) : Option ℕ → Prop
  | none => g = f
  | some n => Marked sb f g type n true

theorem BmpImage.ialloc (h : BmpImage E sb dev) (hs : h.Ready C s) (live : Live) :
    ∃ r t C', Searched sb (C dev.toNat) .IBLK 0 r ∧
      bmpStep E sb dev (s,live) .ialloc = some (t,update live .IBLK (r.toList ++ live .IBLK)) ∧
      h.Ready C' t ∧ Takes sb (C dev.toNat) (C' dev.toNat) .IBLK r := by
  obtain ⟨r,c,hrun,hr,hc⟩ := h.seek rfl subset_rfl hs.disk .IBLK
  cases r with
  | none =>
    refine ⟨none,{ s with scache := c },C,hr,?_,⟨hc,hs.vlist⟩,rfl⟩
    have hia : (mfsIalloc E sb dev).run s = (.ok .null,{ s with scache := c }) := by
      rw [mfsIalloc,run_bind hrun]
      rfl
    simp only [bmpStep,hia,Option.toList_none,List.nil_append,update_eq_self]
  | some n =>
    have hlt := h.index_lt (first_lt hr)
    have hwp : wp (do
        mfsMarkbmp E sb dev .IBLK n.toInt32 true
        let vp ← vcacheAlloc
        setVnode vp (fun v => { v with ino := n.toUInt32, dev := dev })
        return vp) (fun vp t => ∃ i, vp = .vc i ∧ (t.vnode vp).ino = n.toUInt32 ∧ ∃ C', h.Ready C' t ∧
          Marked sb (C dev.toNat) (C' dev.toNat) .IBLK n true) (fun _ => False) { s with scache := c } := by
      rw [wp_bind]
      refine wp_markbmp h rfl subset_rfl (Machine.toInt_ofNat hlt) (first_lt hr) hc (fun C' c' hm hc' => ?_)
      rw [wp_bind]
      refine wp_vcacheAlloc hs.vlist (fun i l hl _ _ => ?_)
      rw [wp_bind,wp_setVnode rfl,wp_pure]
      exact ⟨i,rfl,by simp,C',⟨hc',hl⟩,hm⟩
    obtain ⟨vp,t,hrest,i,rfl,hino,C',hready,hm⟩ := hwp.run
    refine ⟨some n,t,C',hr,?_,hready,hm⟩
    have hia : (mfsIalloc E sb dev).run s = (.ok (.vc i),t) := by
      rw [mfsIalloc,run_bind hrun]
      exact hrest
    have hnat : n.toUInt32.toNat = n := Nat.mod_eq_of_lt (by omega)
    simp only [bmpStep,hia,hino,hnat]
    rfl

theorem BmpImage.dalloc (h : BmpImage E sb dev) (hs : h.Ready C s) (live : Live) :
    ∃ r t C', Searched sb (C dev.toNat) .DBLK 0 r ∧
      bmpStep E sb dev (s,live) .dalloc = some (t,update live .DBLK (r.toList ++ live .DBLK)) ∧
      h.Ready C' t ∧ Takes sb (C dev.toNat) (C' dev.toNat) .DBLK r := by
  obtain ⟨r,c,hrun,hr,hc⟩ := h.seek rfl subset_rfl hs.disk .DBLK
  have htaken : taken E sb dev s = r := by rw [taken,hrun]
  cases r with
  | none =>
    refine ⟨none,{ s with scache := c },C,hr,?_,⟨hc,hs.vlist⟩,rfl⟩
    have hda : (mfsDalloc E sb dev).run s = (.ok 0,{ s with scache := c }) := by
      rw [mfsDalloc,run_bind hrun]
      rfl
    simp only [bmpStep,hda,htaken]
  | some n =>
    have hlt := h.index_lt (first_lt hr)
    have hwp : wp (do
        mfsMarkbmp E sb dev .DBLK n.toInt32 true
        return n.toInt32) (fun _ t => ∃ C', h.Ready C' t ∧
          Marked sb (C dev.toNat) (C' dev.toNat) .DBLK n true) (fun _ => False) { s with scache := c } := by
      rw [wp_bind]
      exact wp_markbmp h rfl subset_rfl (Machine.toInt_ofNat hlt) (first_lt hr) hc (fun C' c' hm hc' => ⟨C',⟨hc',hs.vlist⟩,hm⟩)
    obtain ⟨id,t,hrest,C',hready,hm⟩ := hwp.run
    refine ⟨some n,t,C',hr,?_,hready,hm⟩
    have hda : (mfsDalloc E sb dev).run s = (.ok id,t) := by
      rw [mfsDalloc,run_bind hrun]
      exact hrest
    simp only [bmpStep,hda,htaken]

theorem BmpImage.ifree (h : BmpImage E sb dev) (hs : h.Ready C s) (live : Live) {node : VPtr}
    (hf : Releases sb dev (s,live) (.ifree node)) :
    ∃ t C', bmpStep E sb dev (s,live) (.ifree node) =
        some (t,update live .IBLK ((live .IBLK).erase (s.vnode node).ino.toNat)) ∧
      h.Ready C' t ∧ Marked sb (C dev.toNat) (C' dev.toNat) .IBLK (s.vnode node).ino.toNat false := by
  obtain ⟨hnode,hdev,hreg⟩ := hf
  have hwp : wp (mfsIfree E sb node) (fun _ t => ∃ C', h.Ready C' t ∧
      Marked sb (C dev.toNat) (C' dev.toNat) .IBLK (s.vnode node).ino.toNat false) (fun _ => False) s := by
    unfold mfsIfree
    rw [wp_bind,wp_vnode hnode]
    dsimp only at hdev
    rw [hdev]
    exact wp_markbmp h rfl subset_rfl (Machine.toInt_toInt32 (h.index_lt hreg.lt)) hreg.lt hs.disk
      (fun C' c' hm hc' => ⟨C',⟨hc',hs.vlist⟩,hm⟩)
  obtain ⟨u,t,hrun,C',hready,hm⟩ := hwp.run
  exact ⟨t,C',by simp only [bmpStep,hrun],hready,hm⟩

def LiveOk (sb : Sblk) (f : ℤ → ℕ → UInt8) (live : Live) : Prop :=
  ∀ type, (live type).Nodup ∧ ∀ n ∈ live type, InRegion sb type n ∧ bitOf sb f type n = true

theorem LiveOk.take {f g : ℤ → ℕ → UInt8} {live : Live} {r : Option ℕ} (h : BmpImage E sb dev)
    (hl : LiveOk sb f live) (hr : ∀ n, r = some n → InRegion sb type n ∧ bitOf sb f type n = false)
    (ht : Takes sb f g type r) : LiveOk sb g (update live type (r.toList ++ live type)) := by
  cases r with
  | none =>
    obtain rfl : g = f := ht
    simpa [update_eq_self] using hl
  | some n =>
    obtain ⟨hreg,hclear⟩ := hr n rfl
    have hnew : n ∉ live type := by
      intro hn
      rw [((hl type).2 n hn).2] at hclear
      exact absurd hclear (by simp)
    intro type'
    by_cases hty : type' = type
    · subst hty
      rw [update_self]
      refine ⟨List.nodup_cons.mpr ⟨hnew,(hl type').1⟩,fun m hm => ?_⟩
      rcases List.mem_cons.mp hm with rfl | hm
      · exact ⟨hreg,by rw [ht.same,if_pos rfl]⟩
      · have hmn : m ≠ n := fun he => hnew (he ▸ hm)
        exact ⟨((hl type').2 m hm).1,by rw [ht.same,if_neg hmn]; exact ((hl type').2 m hm).2⟩
    · rw [update_of_ne hty]
      refine ⟨(hl type').1,fun m hm => ?_⟩
      obtain ⟨hm',hbit⟩ := (hl type').2 m hm
      exact ⟨hm',(Marked.other_bit h ht hty hreg.1 hm'.1).trans hbit⟩

theorem LiveOk.release {f g : ℤ → ℕ → UInt8} {live : Live} (h : BmpImage E sb dev)
    (hl : LiveOk sb f live) (hreg : InRegion sb type n) (hm : Marked sb f g type n false) :
    LiveOk sb g (update live type ((live type).erase n)) := by
  intro type'
  by_cases hty : type' = type
  · subst hty
    rw [update_self]
    refine ⟨(hl type').1.erase n,fun m hmem => ?_⟩
    obtain ⟨hmn,hmem'⟩ := (hl type').1.mem_erase_iff.mp hmem
    obtain ⟨hm',hbit⟩ := (hl type').2 m hmem'
    exact ⟨hm',by rw [hm.same,if_neg hmn,hbit]⟩
  · rw [update_of_ne hty]
    refine ⟨(hl type').1,fun m hmem => ?_⟩
    obtain ⟨hm',hbit⟩ := (hl type').2 m hmem
    exact ⟨hm',(Marked.other_bit h hm hty hreg.1 hm'.1).trans hbit⟩

/-- A search that finds what it should returns a clear bit of the region. -/
theorem BmpImage.found (h : BmpImage E sb dev) (hd : h.Good C s.scache) {r : Option ℕ}
    (hr : Searched sb (C dev.toNat) type 0 r) (hf : Findable sb dev s type) (hn : r = some n) :
    InRegion sb type n ∧ bitOf sb (C dev.toNat) type n = false := by
  obtain ⟨hreg,hbit⟩ := ((h.sound_iff hd hr).mpr hf).1 n hn
  exact ⟨hreg,by rw [← h.bmpBit_eq rfl subset_rfl hd hreg.lt,hbit]⟩

/-- One call succeeds, and keeps what is handed out marked if its search does. -/
theorem BmpImage.step (h : BmpImage E sb dev) (hs : h.Ready C s) (live : Live) (op : BmpOp)
    (hrel : Releases sb dev (s,live) op) : ∃ x C', bmpStep E sb dev (s,live) op = some x ∧ h.Ready C' x.1 ∧
      (Searches sb dev (s,live) op → LiveOk sb (C dev.toNat) live → LiveOk sb (C' dev.toNat) x.2) := by
  cases op with
  | ialloc =>
    obtain ⟨r,t,C',hr,hstep,hready,ht⟩ := h.ialloc hs live
    exact ⟨_,C',hstep,hready,fun hf hl => hl.take h (fun n hn => h.found hs.disk hr hf hn) ht⟩
  | ifree node =>
    obtain ⟨t,C',hstep,hready,hm⟩ := h.ifree hs live hrel
    exact ⟨_,C',hstep,hready,fun _ hl => hl.release h hrel.2.2 hm⟩
  | dalloc =>
    obtain ⟨r,t,C',hr,hstep,hready,ht⟩ := h.dalloc hs live
    exact ⟨_,C',hstep,hready,fun hf hl => hl.take h (fun n hn => h.found hs.disk hr hf hn) ht⟩

theorem boot_ready (h : BmpImage E sb dev) (disk : ℕ → ℕ → UInt8) : ∃ C, h.Ready C (.boot disk) :=
  ⟨_,⟨⟨_,boot_coherent⟩,fun i hi => absurd hi (Nat.not_lt_zero i),h.card_le⟩,AllocList.boot_unused⟩

/-- Every run succeeds. A search in the state it reaches returns a clear bit of the region,
or -1 if there is none, exactly if the first clear bit is in the first block and in the
region, or there is no clear bit up to the block after the last. If all searches of the run
were such, then no inode and no block in use has been handed out again. -/
theorem mfs_alloc_sound_iff (E : Env) (sb : Sblk) (dev : UInt32) (disk : ℕ → ℕ → UInt8)
    (h : BmpImage E sb dev) (ops : List BmpOp)
    (hrel : AllSteps (bmpStep E sb dev) (Releases sb dev) (.boot disk,fun _ => []) ops) :
    ∃ x, bmpRun E sb dev disk ops = some x ∧
      (∀ type, SeekSound E sb dev x.1 type ↔ Findable sb dev x.1 type) ∧
      (AllSteps (bmpStep E sb dev) (Searches sb dev) (.boot disk,fun _ => []) ops →
        ∀ type, (x.2 type).Nodup ∧ ∀ n ∈ x.2 type, InRegion sb type n ∧ bmpBit sb dev x.1 type n = true) := by
  obtain ⟨C₀,h₀⟩ := boot_ready h disk
  obtain ⟨x,hx,-,C,hready,hlive⟩ := run_total
    (P := fun pre x => pre.foldlM (bmpStep E sb dev) (.boot disk,fun _ => []) = some x ∧ ∃ C, h.Ready C x.1 ∧
      (AllSteps (bmpStep E sb dev) (Searches sb dev) (.boot disk,fun _ => []) pre → LiveOk sb (C dev.toNat) x.2))
    ops ⟨rfl,C₀,h₀,fun _ => by simp [LiveOk]⟩ hrel (by
      rintro pre ⟨s,live⟩ op - ⟨hrun,C,hready,hlive⟩ hok
      obtain ⟨x,C',hstep,hready',hkeep⟩ := h.step hready live op hok
      refine ⟨x,hstep,by rw [foldlM_concat,hrun,Option.bind_some,hstep],C',hready',fun hall => ?_⟩
      exact hkeep (hall pre op _ (List.prefix_refl _) hrun) (hlive (hall.mono (List.prefix_append _ _))))
  refine ⟨x,hx,fun type => h.seekSound_iff hready.disk,fun hall type => ?_⟩
  obtain ⟨hnodup,hbits⟩ := hlive hall type
  refine ⟨hnodup,fun n hn => ?_⟩
  obtain ⟨hreg,hbit⟩ := hbits n hn
  exact ⟨hreg,by rw [h.bmpBit_eq rfl subset_rfl hready.disk hreg.lt,hbit]⟩

/-! ## A run that hands out an inode in use -/

def anyEnv : Env := ⟨anyDevs,fun _ => 0,fun _ => 0,0⟩

def twoBlocks : Sblk := ⟨1,2,3,1,4,5,4096,512⟩

/-- Two bitmaps in blocks of a sector on a device that answers every request. -/
theorem sector_image (hsize : sb.blksize = 512) (hpos : ∀ type, 0 < (sb.bmp type).toInt)
    (hend : ∀ type, sb.base type + sb.cnt type < 2 ^ 31)
    (hdis : sb.base .IBLK + sb.cnt .IBLK ≤ sb.base .DBLK ∨ sb.base .DBLK + sb.cnt .DBLK ≤ sb.base .IBLK)
    (hfits : sb.cnt .IBLK + 1 + (sb.cnt .DBLK + 1) ≤ NSECACHS) : BmpImage anyEnv sb 0 := by
  have hlen : sb.len = 512 := by
    rw [Sblk.len,hsize]
    rfl
  refine ⟨by decide,rfl,by rw [hsize]; decide,by rw [hlen],by rw [hlen]; decide,hpos,fun type b hb => ?_,hdis,hfits⟩
  have := hend type
  refine ⟨show DevOk 0 by decide,Int.natCast_nonneg _,?_,fun _ => rfl⟩
  dsimp only
  rw [hlen,show 512 / 512 = 1 from rfl]
  omega

theorem twoBlocks_image : BmpImage anyEnv twoBlocks 0 :=
  sector_image rfl (by intro type; cases type <;> decide) (by intro type; cases type <;> decide) (Or.inl (by decide)) (by decide)

theorem bmpBit_boot (sb : Sblk) (dev : UInt32) (disk : ℕ → ℕ → UInt8) (type : Bmptype) (n : ℕ) :
    bmpBit sb dev (.boot disk) type n = Bits.get (fun k => disk dev.toNat
      ((sb.base type + n / (8 * sb.len)) * (sb.len / 512) * 512 + k)) (n % (8 * sb.len)) := rfl

theorem findable_of_find (hpos : 0 < sb.len) (hreg : ∀ n < 8, InRegion sb type n)
    (h : ((List.range 8).find? (fun n => !bmpBit sb dev s type n)).isSome = true) : Findable sb dev s type := by
  obtain ⟨n,hn⟩ := Option.isSome_iff_exists.mp h
  obtain ⟨hclear,hmem,hset⟩ := List.find?_range_eq_some.mp hn
  have hlt : n < 8 := List.mem_range.mp hmem
  refine Or.inl ⟨n,by omega,hreg n hlt,by simpa using hclear,fun m hm => ?_⟩
  simpa using hset m hm

/-- Inodes 0 to 2 and data block 0 are in use. -/
def partUsed : ℕ → ℕ → UInt8 := fun _ a => if a = 512 then 0xe0 else if a = 1536 then 0x80 else 0

def mixedOps : List BmpOp := [.ialloc,.ialloc,.dalloc,.ifree (.vc 0),.ialloc]

/-- Searches find a bit in the first byte, and releases are of inodes there. -/
def inFirstByte (x : State × Live) : BmpOp → Bool
  | .ialloc => ((List.range 8).find? (fun n => !bmpBit twoBlocks 0 x.1 .IBLK n)).isSome
  | .dalloc => ((List.range 8).find? (fun n => !bmpBit twoBlocks 0 x.1 .DBLK n)).isSome
  | .ifree node => decide (node.isNode ∧ (x.1.vnode node).dev = 0 ∧ (x.1.vnode node).ino.toNat < 8)

theorem inFirstByte_releases (x : State × Live) (op : BmpOp) (h : inFirstByte x op = true) : Releases twoBlocks 0 x op := by
  cases op with
  | ifree node =>
    obtain ⟨hnode,hdev,hino⟩ := of_decide_eq_true h
    exact ⟨hnode,hdev,Nat.lt_of_lt_of_le hino (by decide),nofun⟩
  | _ => trivial

theorem inFirstByte_searches (x : State × Live) (op : BmpOp) (h : inFirstByte x op = true) : Searches twoBlocks 0 x op := by
  cases op with
  | ialloc => exact findable_of_find (by decide) (fun n hn => ⟨Nat.lt_of_lt_of_le hn (by decide),nofun⟩) h
  | dalloc =>
    exact findable_of_find (by decide) (fun n hn => ⟨Nat.lt_of_lt_of_le hn (by decide),fun _ => by
      rw [show twoBlocks.dblkcnt.toInt = 4096 from rfl]
      omega⟩) h
  | ifree node => trivial

/-- Two inodes and a data block are handed out behind those in use, and the first of the inodes
again after its release. -/
theorem mfs_alloc_sound_used : ∃ x, bmpRun anyEnv twoBlocks 0 partUsed mixedOps = some x ∧
    x.2 .IBLK = [3,4] ∧ x.2 .DBLK = [1] ∧
    (∀ type, SeekSound anyEnv twoBlocks 0 x.1 type ↔ Findable twoBlocks 0 x.1 type) ∧
    ∀ type, (x.2 type).Nodup ∧ ∀ n ∈ x.2 type, InRegion twoBlocks type n ∧ bmpBit twoBlocks 0 x.1 type n = true := by
  have htest : testSteps (bmpStep anyEnv twoBlocks 0) inFirstByte (.boot partUsed,fun _ => []) mixedOps = true := by
    decide +kernel
  have hrun : (bmpRun anyEnv twoBlocks 0 partUsed mixedOps).map (fun x => (x.2 .IBLK,x.2 .DBLK)) = some ([3,4],[1]) := by
    decide +kernel
  obtain ⟨x,hx,hsound,hlive⟩ := mfs_alloc_sound_iff anyEnv twoBlocks 0 partUsed twoBlocks_image mixedOps
    (allSteps_of_test inFirstByte_releases htest)
  rw [hx] at hrun
  obtain ⟨hinodes,hblocks⟩ := Prod.mk.inj (Option.some.inj hrun)
  exact ⟨x,hx,hinodes,hblocks,hsound,hlive (allSteps_of_test inFirstByte_searches htest)⟩

def firstFull : ℕ → ℕ → UInt8 := fun _ a => if 512 ≤ a ∧ a < 1024 then 0xff else 0

theorem firstFull_bit {n : ℕ} (hn : n < 3 * 4096) :
    bmpBit twoBlocks 0 (.boot firstFull) .IBLK n = decide (n < 4096) := by
  have hlen : 8 * twoBlocks.len = 4096 := by decide
  have hbase : twoBlocks.base .IBLK = 1 := by decide
  rw [bmpBit_boot,hlen,hbase,show twoBlocks.len / 512 = 1 by decide]
  by_cases hlt : n < 4096
  · rw [decide_eq_true hlt]
    apply Bits.get_of_full
    simp only [firstFull]
    rw [if_pos (by omega)]
  · rw [decide_eq_false hlt,← Bits.get_zero (n := n % 4096)]
    refine get_congr (fun k (hk : k < 512) => ?_) (by omega)
    simp only [firstFull]
    rw [if_neg (by omega)]

/-- With the first block full and a clear bit in the second, `mfs_ialloc` hands out inode 0,
which is in use. -/
theorem mfs_ialloc_twice : bmpBit twoBlocks 0 (.boot firstFull) .IBLK 0 = true ∧
    InRegion twoBlocks .IBLK 4096 ∧ bmpBit twoBlocks 0 (.boot firstFull) .IBLK 4096 = false ∧
    ∃ x, bmpRun anyEnv twoBlocks 0 firstFull [.ialloc] = some x ∧ x.2 .IBLK = [0] := by
  refine ⟨firstFull_bit (by decide),⟨by decide,fun h => nomatch h⟩,firstFull_bit (by decide),?_⟩
  obtain ⟨C,hready⟩ := boot_ready twoBlocks_image firstFull
  obtain ⟨r,t,C',hr,hstep,-,-⟩ := twoBlocks_image.ialloc hready (fun _ => [])
  have hlen : 8 * twoBlocks.len = 4096 := by decide
  have hcnt : twoBlocks.cnt .IBLK = 2 := by decide
  have hbit : ∀ n < 3 * 4096, bitOf twoBlocks (C (UInt32.toNat 0)) .IBLK n = decide (n < 4096) := by
    intro n hn
    rw [← firstFull_bit hn,twoBlocks_image.bmpBit_eq rfl subset_rfl hready.disk (by rwa [hlen,hcnt])]
  have hr0 : r = some 0 := by
    refine hr.eq_some (N := 4096) (by rw [hlen,hcnt]; decide) (hbit 4096 (by decide)) (fun m hm => ?_)
    rw [hbit m (Nat.lt_trans hm (by decide)),decide_eq_true hm]
  subst hr0
  refine ⟨(t,update (fun _ => []) .IBLK [0]),?_,by simp⟩
  rw [bmpRun,List.foldlM_cons,hstep]
  rfl

end Micron.Filesys

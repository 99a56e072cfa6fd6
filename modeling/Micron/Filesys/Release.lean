import Micron.Filesys.Bitmap

/-! # Release of data blocks

`mfs_dfree` clears a bit in the bitmap of the inodes, and `mfs_dalloc` returns 0 for the first
data block as well as when there is none.
-/
namespace Micron.Filesys
open Function Bytes Kernel Scache Prog
variable {E : Env} {sb : Sblk} {dev : UInt32} {bs : BlkSizes} {B : Finset (ℕ × ℤ)} {C : Content} {s t u : State} {n m : ℕ}

section
variable (E : Env) (sb : Sblk) (dev : UInt32)

def AnyFree (s : State) : Prop := ∃ n, InRegion sb .DBLK n ∧ bmpBit sb dev s .DBLK n = false

def SameBits (type : Bmptype) (s t : State) : Prop :=
  ∀ k < sb.cnt type * (8 * sb.len), bmpBit sb dev t type k = bmpBit sb dev s type k

/-- If some data block is free, the release of the block just allocated restores the bitmap of
the data blocks, and that of the inodes stays as it is throughout. -/
def FreeUndoes (s : State) : Prop :=
  AnyFree sb dev s → ∃ id t u, (mfsDalloc E sb dev).run s = (.ok id,t) ∧ (mfsDfree E sb dev id).run t = (.ok (),u) ∧
    SameBits sb dev .DBLK s u ∧ SameBits sb dev .IBLK s t ∧ SameBits sb dev .IBLK s u

/-- The value for a failure is returned only if nothing is allocated. -/
def FailureTold (s : State) : Prop :=
  ∃ id t, (mfsDalloc E sb dev).run s = (.ok id,t) ∧ (id = 0 → taken E sb dev s = none)

/-- Bit `m` is the first clear one of the data bitmap and the block after it. -/
def FirstClear (s : State) (m : ℕ) : Prop :=
  m < (sb.cnt .DBLK + 1) * (8 * sb.len) ∧ bmpBit sb dev s .DBLK m = false ∧ ∀ k < m, bmpBit sb dev s .DBLK k = true

/-- The first clear bit, if any, is not the first of its block. If it is that of a data block,
it lies behind the first block of the bitmap, and the bit at its place in the first block of
the inode bitmap is clear. -/
def Undoable (s : State) : Prop := ∀ m, FirstClear sb dev s m → m % (8 * sb.len) ≠ 0 ∧
  (InRegion sb .DBLK m → 8 * sb.len ≤ m ∧ bmpBit sb dev s .IBLK (m % (8 * sb.len)) = false)

end

theorem FirstClear.unique (h : FirstClear sb dev s m) (h' : FirstClear sb dev s n) : m = n := by
  rcases Nat.lt_trichotomy m n with hlt | heq | hgt
  · exact absurd (h'.2.2 m hlt) (by simp [h.2.1])
  · exact heq
  · exact absurd (h.2.2 n hgt) (by simp [h'.2.1])

/-- A free data block comes no earlier than the first clear bit. -/
theorem FirstClear.free (h : FirstClear sb dev s m) : AnyFree sb dev s ↔ InRegion sb .DBLK m := by
  constructor
  · rintro ⟨n,hreg,hclear⟩
    have hle : m ≤ n := by
      by_contra hlt
      exact absurd (h.2.2 n (Nat.lt_of_not_le hlt)) (by simp [hclear])
    exact ⟨Nat.lt_of_le_of_lt hle hreg.1,fun _ => lt_of_le_of_lt (Int.ofNat_le.mpr hle) (hreg.2 rfl)⟩
  · intro hreg
    exact ⟨m,hreg,h.2.1⟩

theorem FirstClear.place (h : FirstClear sb dev s m) :
    bmpBit sb dev s .DBLK (m % (8 * sb.len)) = true ↔ 8 * sb.len ≤ m := by
  constructor
  · intro hset
    by_contra hlt
    rw [Nat.mod_eq_of_lt (Nat.lt_of_not_le hlt),h.2.1] at hset
    exact absurd hset (by simp)
  · intro hle
    have hpos : 0 < 8 * sb.len := Nat.pos_of_mul_pos_left (Nat.zero_lt_of_lt h.1)
    exact h.2.2 _ (Nat.lt_of_lt_of_le (Nat.mod_lt m hpos) hle)

theorem failureTold_iff {id : Int32} (hrun : (mfsDalloc E sb dev).run s = (.ok id,t)) :
    FailureTold E sb dev s ↔ (id = 0 → taken E sb dev s = none) := by
  constructor
  · rintro ⟨id',t',hrun',h⟩
    obtain ⟨rfl,rfl⟩ : id = id' ∧ t = t' := by simpa using hrun.symm.trans hrun'
    exact h
  · intro h
    exact ⟨id,t,hrun,h⟩

theorem freeUndoes_iff {id : Int32} (hrun : (mfsDalloc E sb dev).run s = (.ok id,t))
    (hfree : (mfsDfree E sb dev id).run t = (.ok (),u)) : FreeUndoes E sb dev s ↔ (AnyFree sb dev s →
      SameBits sb dev .DBLK s u ∧ SameBits sb dev .IBLK s t ∧ SameBits sb dev .IBLK s u) := by
  refine forall_congr' (fun _ => ⟨?_,fun h => ⟨id,t,u,hrun,hfree,h⟩⟩)
  rintro ⟨id',t',u',hrun',hfree',h⟩
  obtain ⟨rfl,rfl⟩ : id = id' ∧ t = t' := by simpa using hrun.symm.trans hrun'
  obtain rfl : u = u' := by simpa using hfree.symm.trans hfree'
  exact h

section Cache
variable (h : BmpImage E sb dev) (hs : bs.size dev.toNat = sb.len) (hB : bmpBlocks sb dev ⊆ B)
include h hs hB

theorem BmpImage.firstClear (hd : Disk E bs B C s.scache) (hr : Searched sb (C dev.toNat) .DBLK 0 (some n)) :
    ∃ m, FirstClear sb dev s m ∧ m % (8 * sb.len) = n := by
  obtain ⟨q,-,hqc,hn,hclear,hset⟩ := hr
  have hlt : q * (8 * sb.len) + n < (sb.cnt .DBLK + 1) * (8 * sb.len) := by
    calc q * (8 * sb.len) + n < q * (8 * sb.len) + 8 * sb.len := Nat.add_lt_add_left hn _
      _ = (q + 1) * (8 * sb.len) := (Nat.add_one_mul q _).symm
      _ ≤ (sb.cnt .DBLK + 1) * (8 * sb.len) := Nat.mul_le_mul_right _ (by omega)
  refine ⟨q * (8 * sb.len) + n,⟨hlt,?_,fun k hk => ?_⟩,?_⟩
  · rw [h.bmpBit_eq hs hB hd hlt]
    exact hclear
  · rw [h.bmpBit_eq hs hB hd (Nat.lt_trans hk hlt)]
    exact hset k (by simp) hk
  · rw [Nat.mul_comm,Nat.mul_add_mod,Nat.mod_eq_of_lt hn]

theorem BmpImage.dalloc_dfree {c : Scache} (hfound : Searched sb (C dev.toNat) .DBLK 0 (some n))
    (hrun : (mfsSeekbmp E sb dev .DBLK).run s = (.ok (some n),{ s with scache := c })) (hc : Disk E bs B C c) :
    ∃ C' C'' t u, (mfsDalloc E sb dev).run s = (.ok n.toInt32,t) ∧ (mfsDfree E sb dev n.toInt32).run t = (.ok (),u) ∧
      Disk E bs B C' t.scache ∧ Disk E bs B C'' u.scache ∧
      Marked sb (C dev.toNat) (C' dev.toNat) .DBLK n true ∧ Marked sb (C' dev.toNat) (C'' dev.toNat) .IBLK n false := by
  have hidx := Machine.toInt_ofNat (h.index_lt (first_lt hfound))
  have hlast : n < (sb.cnt .IBLK + 1) * (8 * sb.len) :=
    Nat.lt_of_lt_of_le hfound.lt (Nat.le_mul_of_pos_left _ (Nat.succ_pos _))
  have halloc : wp (mfsMarkbmp E sb dev .DBLK n.toInt32 true) (fun _ t => ∃ C', Disk E bs B C' t.scache ∧
      Marked sb (C dev.toNat) (C' dev.toNat) .DBLK n true) (fun _ => False) { s with scache := c } :=
    wp_markbmp h hs hB hidx (first_lt hfound) hc (fun C' c' hm hc' => ⟨C',hc',hm⟩)
  obtain ⟨⟨⟩,t,hmark,C',ht,hm⟩ := halloc.run
  have hfree : wp (mfsDfree E sb dev n.toInt32) (fun _ u => ∃ C'', Disk E bs B C'' u.scache ∧
      Marked sb (C' dev.toNat) (C'' dev.toNat) .IBLK n false) (fun _ => False) t :=
    wp_markbmp h hs hB hidx hlast ht (fun C'' c' hm hc' => ⟨C'',hc',hm⟩)
  obtain ⟨⟨⟩,u,hclear,C'',hu,hm'⟩ := hfree.run
  refine ⟨C',C'',t,u,?_,hclear,ht,hu,hm,hm'⟩
  rw [mfsDalloc,run_bind hrun]
  exact (run_bind hmark).trans rfl

theorem BmpImage.sameBits_iff {C' : Content} {type : Bmptype} (hd : Disk E bs B C s.scache) (ht : Disk E bs B C' t.scache) :
    SameBits sb dev type s t ↔ ∀ k < sb.cnt type * (8 * sb.len),
      bitOf sb (C' dev.toNat) type k = bitOf sb (C dev.toNat) type k := by
  refine forall₂_congr (fun k hk => ?_)
  have hk' : k < (sb.cnt type + 1) * (8 * sb.len) := Nat.lt_of_lt_of_le hk (Nat.mul_le_mul_right _ (Nat.le_succ _))
  rw [h.bmpBit_eq hs hB hd hk',h.bmpBit_eq hs hB ht hk']

/-- The release restores the bitmaps exactly if the bit that the allocation has set was set
before, and the one that the release has cleared was clear before. -/
theorem BmpImage.undone_iff {C' C'' : Content} (hd : Disk E bs B C s.scache) (ht : Disk E bs B C' t.scache)
    (hu : Disk E bs B C'' u.scache) (hI : 0 < sb.cnt .IBLK) (hD : 0 < sb.cnt .DBLK) (hn : n < 8 * sb.len)
    (hm : Marked sb (C dev.toNat) (C' dev.toNat) .DBLK n true)
    (hm' : Marked sb (C' dev.toNat) (C'' dev.toNat) .IBLK n false) :
    (SameBits sb dev .DBLK s u ∧ SameBits sb dev .IBLK s t ∧ SameBits sb dev .IBLK s u) ↔
      bmpBit sb dev s .DBLK n = true ∧ bmpBit sb dev s .IBLK n = false := by
  have hlt : ∀ type, 0 < sb.cnt type → n < sb.cnt type * (8 * sb.len) :=
    fun type hpos => Nat.lt_of_lt_of_le hn (Nat.le_mul_of_pos_left _ hpos)
  have hle : ∀ type, n < (sb.cnt type + 1) * (8 * sb.len) :=
    fun type => Nat.lt_of_lt_of_le hn (Nat.le_mul_of_pos_left _ (Nat.succ_pos _))
  have hdata : ∀ k < sb.cnt .DBLK * (8 * sb.len), bitOf sb (C'' dev.toNat) .DBLK k =
      if k = n then true else bitOf sb (C dev.toNat) .DBLK k := by
    intro k hk
    rw [hm'.other_bit h (by decide) (hlt .IBLK hI) hk,hm.same]
  have hinode : ∀ k < sb.cnt .IBLK * (8 * sb.len),
      bitOf sb (C' dev.toNat) .IBLK k = bitOf sb (C dev.toNat) .IBLK k :=
    fun k hk => hm.other_bit h (by decide) (hlt .DBLK hD) hk
  rw [h.sameBits_iff hs hB hd hu,h.sameBits_iff hs hB hd ht,h.sameBits_iff hs hB hd hu,
    h.bmpBit_eq hs hB hd (hle .DBLK),h.bmpBit_eq hs hB hd (hle .IBLK)]
  constructor
  · rintro ⟨h1,-,h3⟩
    constructor
    · rw [← h1 n (hlt .DBLK hD),hdata n (hlt .DBLK hD),if_pos rfl]
    · rw [← h3 n (hlt .IBLK hI),hm'.same,if_pos rfl]
  · rintro ⟨hset,hclear⟩
    refine ⟨fun k hk => ?_,hinode,fun k hk => ?_⟩
    · rw [hdata k hk]
      split
      · rename_i he
        rw [he,hset]
      · rfl
    · rw [hm'.same]
      split
      · rename_i he
        rw [he,hclear]
      · exact hinode k hk

/-- With the bitmaps in a cache that has room for them, the release of a block undoes its
allocation and 0 is returned for failures only, exactly if the first clear bit of the data
bitmap lies behind its first block, not at the begin of a block, and the bit at its place in
the inode bitmap is clear. -/
theorem dfree_undoes_iff (hd : Disk E bs B C s.scache) (hI : 0 < sb.cnt .IBLK) :
    (FreeUndoes E sb dev s ∧ FailureTold E sb dev s) ↔ Undoable sb dev s := by
  obtain ⟨r,c,hrun,hr,hc⟩ := h.seek hs hB hd .DBLK
  have htaken : taken E sb dev s = r := by rw [taken,hrun]
  cases r with
  | none =>
    -- all bits are set
    have hfull : ∀ m, ¬ FirstClear sb dev s m := by
      rintro m ⟨hm,hclear,-⟩
      rw [h.bmpBit_eq hs hB hd hm,hr m (by simp) hm] at hclear
      exact absurd hclear (by simp)
    have hda : (mfsDalloc E sb dev).run s = (.ok 0,{ s with scache := c }) := by
      rw [mfsDalloc,run_bind hrun]
      rfl
    refine iff_of_true ⟨?_,0,_,hda,fun _ => htaken⟩ (fun m hm => absurd hm (hfull m))
    rintro ⟨m,hreg,hclear⟩
    rw [h.bmpBit_eq hs hB hd hreg.lt,hr m (by simp) hreg.lt] at hclear
    exact absurd hclear (by simp)
  | some n =>
    obtain ⟨m,hm,hmn⟩ := h.firstClear hs hB hd hr
    obtain ⟨C',C'',t,u,halloc,hfree,ht,hu,hmark,hmark'⟩ := h.dalloc_dfree hs hB hr hrun hc
    have hid : n.toInt32 = 0 ↔ n = 0 := by
      rw [← Int32.toInt_inj,Machine.toInt_ofNat (h.index_lt (first_lt hr))]
      exact Int.natCast_eq_zero
    have htold : FailureTold E sb dev s ↔ m % (8 * sb.len) ≠ 0 := by
      rw [failureTold_iff halloc,htaken,hid,hmn]
      simp
    have hundo : FreeUndoes E sb dev s ↔ (InRegion sb .DBLK m →
        8 * sb.len ≤ m ∧ bmpBit sb dev s .IBLK (m % (8 * sb.len)) = false) := by
      rw [freeUndoes_iff halloc hfree,hm.free,hmn]
      refine forall_congr' (fun hreg => ?_)
      rw [h.undone_iff hs hB hd ht hu hI (Nat.pos_of_mul_pos_right (Nat.zero_lt_of_lt hreg.1)) hr.lt hmark hmark',← hmn,hm.place]
    rw [htold,hundo]
    constructor
    · rintro ⟨h1,h2⟩ m' hm'
      obtain rfl := hm.unique hm'
      exact ⟨h2,h1⟩
    · intro hall
      exact (hall m hm).symm

end Cache

def twoData : Sblk := ⟨1,1,2,2,4,5,8192,512⟩

theorem twoData_image : BmpImage anyEnv twoData 0 :=
  sector_image rfl (by intro type; cases type <;> decide) (by intro type; cases type <;> decide) (Or.inl (by decide)) (by decide)

/-- The first data block behind those of the first block of the bitmap is in use, the one
after it is free. -/
def dataFull : ℕ → ℕ → UInt8 := fun _ a => if 1024 ≤ a ∧ a < 1536 then 0xff else if a = 1536 then 0x80 else 0

theorem dataFull_bit {k : ℕ} (hk : k < 4097) : bmpBit twoData 0 (.boot dataFull) .DBLK k = true := by
  by_cases hlast : k = 4096
  · rw [hlast]
    decide
  · rw [bmpBit_boot,show 8 * twoData.len = 4096 by decide,show twoData.base .DBLK = 2 by decide,
      show twoData.len / 512 = 1 by decide]
    apply Bits.get_of_full
    simp only [dataFull]
    rw [if_pos (by omega)]

theorem dfree_undoes_sample : AnyFree twoData 0 (.boot dataFull) ∧ FreeUndoes anyEnv twoData 0 (.boot dataFull) ∧
    FailureTold anyEnv twoData 0 (.boot dataFull) := by
  obtain ⟨C,hready⟩ := boot_ready twoData_image dataFull
  have hclear : bmpBit twoData 0 (.boot dataFull) .DBLK 4097 = false := by decide
  have hinode : bmpBit twoData 0 (.boot dataFull) .IBLK 1 = false := by decide
  have hfirst : FirstClear twoData 0 (.boot dataFull) 4097 := ⟨by decide,hclear,fun k hk => dataFull_bit hk⟩
  refine ⟨⟨4097,⟨by decide,fun _ => by decide⟩,hclear⟩,?_⟩
  refine (dfree_undoes_iff twoData_image rfl subset_rfl hready.disk (by decide)).mpr (fun m hm => ?_)
  obtain rfl := hfirst.unique hm
  exact ⟨by decide,fun _ => ⟨by decide,hinode⟩⟩

def rootUsed : ℕ → ℕ → UInt8 := fun _ a => if a = 512 then 0x80 else 0

/-- On an image with inode 0 in use and all data blocks free, `mfs_dalloc` returns 0 as for a
failure, and the release leaves the data block in use and makes inode 0 free. -/
theorem dfree_frees_inode : AnyFree twoBlocks 0 (.boot rootUsed) ∧ ∃ t u,
    (mfsDalloc anyEnv twoBlocks 0).run (.boot rootUsed) = (.ok 0,t) ∧ taken anyEnv twoBlocks 0 (.boot rootUsed) = some 0 ∧
      (mfsDfree anyEnv twoBlocks 0 0).run t = (.ok (),u) ∧
      bmpBit twoBlocks 0 (.boot rootUsed) .DBLK 0 = false ∧ bmpBit twoBlocks 0 u .DBLK 0 = true ∧
      bmpBit twoBlocks 0 (.boot rootUsed) .IBLK 0 = true ∧ bmpBit twoBlocks 0 u .IBLK 0 = false := by
  have hdata : bmpBit twoBlocks 0 (.boot rootUsed) .DBLK 0 = false := by decide
  have hinode : bmpBit twoBlocks 0 (.boot rootUsed) .IBLK 0 = true := by decide
  obtain ⟨C,hready⟩ := boot_ready twoBlocks_image rootUsed
  obtain ⟨r,c,hrun,hr,hc⟩ := twoBlocks_image.seek rfl subset_rfl hready.disk .DBLK
  rw [twoBlocks_image.bmpBit_eq rfl subset_rfl hready.disk (by decide)] at hdata
  obtain rfl : r = some 0 := hr.eq_some (by decide) hdata (by simp)
  obtain ⟨C',C'',t,u,halloc,hfree,ht,hu,hm,hm'⟩ := twoBlocks_image.dalloc_dfree rfl subset_rfl hr hrun hc
  refine ⟨⟨0,⟨by decide,fun _ => by decide⟩,by decide⟩,t,u,halloc,by rw [taken,hrun],hfree,by decide,?_,hinode,?_⟩
  · rw [twoBlocks_image.bmpBit_eq rfl subset_rfl hu (by decide),
      hm'.other_bit twoBlocks_image (by decide) (by decide) (by decide),
      hm.same,if_pos rfl]
  · rw [twoBlocks_image.bmpBit_eq rfl subset_rfl hu (by decide),hm'.same,if_pos rfl]

end Micron.Filesys

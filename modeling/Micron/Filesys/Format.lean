import Micron.Filesys.Bitmap
import Micron.Filesys.Table
import Micron.Mkmfs.Image

/-! # One format of bitmaps

The kernel marks bits of a bitmap block by block in the cache, and the image builder in one
array. On the blocks put together both do the same.
-/
namespace Micron.Filesys
open Function Kernel Scache Prog
variable {E : Env} {bs : BlkSizes} {B : Finset (ℕ × ℤ)} {C : Content} {sb : Sblk} {dev : UInt32} {type : Bmptype}
  {s t : State} {n : ℕ} {v : Bool}

def bmpByte (sb : Sblk) (dev : UInt32) (s : State) (type : Bmptype) (k : ℕ) : UInt8 :=
  s.scache.view sb.len dev.toNat (sb.base type + k / sb.len : ℕ) (k % sb.len)

structure Addressed (E : Env) (bs : BlkSizes) (sb : Sblk) (dev : UInt32) (type : Bmptype) : Prop where
  usable : Usable E bs dev sb.blksize
  len_pos : 0 < sb.len
  bmp_pos : 0 < (sb.bmp type).toInt
  valid : ∀ b < sb.cnt type, (bs.request dev.toNat (sb.base type + b : ℕ)).Valid E.devs

section
variable (h : Addressed E bs sb dev type)
include h

theorem Addressed.len_eq : sb.len = bs.size dev.toNat := Machine.toNatClampNeg_eq h.usable.size_eq

theorem Addressed.base_eq : (sb.bmp type).toInt = sb.base type := Machine.toInt_eq (Int.le_of_lt h.bmp_pos)

theorem Addressed.blk_ne (b : ℕ) : ((sb.base type + b : ℕ) : ℤ) ≠ 0 := by
  have hpos := h.bmp_pos
  have heq := h.base_eq
  omega

theorem Addressed.byte_eq (hd : Disk E bs B C s.scache) {k : ℕ} (hk : k < sb.cnt type * sb.len) :
    bmpByte sb dev s type k = C dev.toNat (sb.base type + k / sb.len : ℕ) (k % sb.len) := by
  have hb := (Nat.div_lt_iff_lt_mul h.len_pos).mpr hk
  rw [bmpByte,h.len_eq]
  refine hd.view_eq (by rw [← h.len_eq]; exact h.valid _ hb) ?_
  rw [volume_size (h.len_eq ▸ h.blk_ne _)]
  exact Nat.mod_lt _ (h.len_eq ▸ h.len_pos)

theorem Addressed.inUse (hn : n < 8 * sb.len * sb.cnt type)
    (hB : (dev.toNat,((sb.base type + n / (8 * sb.len) : ℕ) : ℤ)) ∈ B) :
    InUse E bs B dev (sb.base type + n / (8 * sb.len) : ℕ) :=
  ⟨h.valid _ ((Nat.div_lt_iff_lt_mul (Nat.mul_pos (by decide) h.len_pos)).mpr (Nat.mul_comm (8 * sb.len) _ ▸ hn)),
    h.blk_ne _,hB⟩

theorem Addressed.mark (hn : n < 8 * sb.len * sb.cnt type)
    (hB : (dev.toNat,((sb.base type + n / (8 * sb.len) : ℕ) : ℤ)) ∈ B) {index : Int32} (hidx : index.toInt = n)
    (hd : Disk E bs B C s.scache) (v : Bool) : ∃ t, (mfsMarkbmp E sb dev type index v).run s = (.ok (),t) ∧
      Disk E bs B (markContent sb dev type n v C) t.scache := by
  have hwp : wp (mfsMarkbmp E sb dev type index v) (fun _ t => Disk E bs B (markContent sb dev type n v C) t.scache)
      (fun _ => False) s := wp_mark h.usable h.len_pos h.base_eq (h.inUse hn hB) hidx hd (fun _ hc => hc)
  obtain ⟨_,t,hrun,ht⟩ := hwp.run
  exact ⟨t,hrun,ht⟩

end

theorem markContent_flat (sb : Sblk) (dev : UInt32) (type : Bmptype) (n : ℕ) (v : Bool) (C : Content) (k : ℕ) :
    markContent sb dev type n v C dev.toNat (sb.base type + k / sb.len : ℕ) (k % sb.len) =
      Bits.set (fun k => C dev.toNat (sb.base type + k / sb.len : ℕ) (k % sb.len)) n v k := by
  have hflat := Bits.set_blocks (n := n) (k := k) (fun b => C dev.toNat (sb.base type + b : ℕ)) sb.len v
  refine Eq.trans ?_ hflat.symm
  unfold markContent
  by_cases hq : k / sb.len = n / (8 * sb.len)
  · rw [hq,Content.set_self,update_self]
  · rw [update_of_ne hq,Content.set_of_ne]
    exact fun he => hq (Nat.add_left_cancel (Int.natCast_inj.mp (Prod.mk.inj he).2))

theorem Addressed.bytes (h : Addressed E bs sb dev type) (hn : n < 8 * sb.len * sb.cnt type)
    (hd : Disk E bs B C s.scache) (ht : Disk E bs B (markContent sb dev type n v C) t.scache) {k : ℕ}
    (hk : k < sb.cnt type * sb.len) : bmpByte sb dev t type k = Mkmfs.mfsMarkbmp (bmpByte sb dev s type) n v k := by
  have hbyte : n / 8 < sb.cnt type * sb.len := by
    rw [Nat.mul_assoc,Nat.mul_comm sb.len] at hn
    omega
  rw [h.byte_eq ht hk,markContent_flat,Mkmfs.mfsMarkbmp]
  exact Bits.set_congr (h.byte_eq hd hbyte).symm (h.byte_eq hd hk).symm

/-- The kernel, block by block in the cache, and the builder, in one array, make the same
bytes: the bit gets the value last asked for, and all others are kept. -/
theorem markbmp_same_format (E : Env) (bs : BlkSizes) (C : Content) (sb : Sblk) (dev : UInt32) (type : Bmptype)
    (s : State) (h : Addressed E bs sb dev type) (hc : Cached E bs C s.scache) (hroom : s.scache.alist.cnt < NSECACHS)
    (index : Int32) (n : ℕ) (hidx : index.toInt = n) (hn : n < 8 * sb.len * sb.cnt type) (v w : Bool) :
    ∃ t u, (mfsMarkbmp E sb dev type index v).run s = (.ok (),t) ∧ (mfsMarkbmp E sb dev type index w).run t = (.ok (),u) ∧
      (∀ k < sb.cnt type * sb.len, bmpByte sb dev t type k = Mkmfs.mfsMarkbmp (bmpByte sb dev s type) n v k) ∧
      (∀ k < sb.cnt type * sb.len,
        bmpByte sb dev u type k = Mkmfs.mfsMarkbmp (Mkmfs.mfsMarkbmp (bmpByte sb dev s type) n v) n w k) ∧
      (∀ m < 8 * sb.len * sb.cnt type, Bits.get (bmpByte sb dev t type) m =
        if m = n then v else Bits.get (bmpByte sb dev s type) m) ∧
      (∀ m < 8 * sb.len * sb.cnt type, Bits.get (bmpByte sb dev u type) m =
        if m = n then w else Bits.get (bmpByte sb dev s type) m) ∧
      ∀ d b, (bs.request d b).Valid E.devs → (d,b) ≠ (dev.toNat,((sb.base type + n / (8 * sb.len) : ℕ) : ℤ)) →
        ∀ k < (volume bs E.devs).size d b, u.scache.view (bs.size d) d b k = s.scache.view (bs.size d) d b k := by
  obtain ⟨L,hL⟩ := hc
  have hd := disk_of_room (B := {(dev.toNat,((sb.base type + n / (8 * sb.len) : ℕ) : ℤ))}) hL hroom
  have hB := Finset.mem_union_right (cachedBlocks s.scache)
    (Finset.mem_singleton_self (dev.toNat,((sb.base type + n / (8 * sb.len) : ℕ) : ℤ)))
  obtain ⟨t,ht,hdt⟩ := h.mark hn hB hidx hd v
  obtain ⟨u,hu,hdu⟩ := h.mark hn hB hidx hdt w
  have hbyte : ∀ m < 8 * sb.len * sb.cnt type, m / 8 < sb.cnt type * sb.len := by
    intro m hm
    rw [Nat.mul_assoc,Nat.mul_comm sb.len] at hm
    omega
  have hst : ∀ k < sb.cnt type * sb.len, bmpByte sb dev t type k = Mkmfs.mfsMarkbmp (bmpByte sb dev s type) n v k :=
    fun k hk => h.bytes hn hd hdt hk
  have hsu : ∀ k < sb.cnt type * sb.len,
      bmpByte sb dev u type k = Mkmfs.mfsMarkbmp (Mkmfs.mfsMarkbmp (bmpByte sb dev s type) n v) n w k :=
    fun k hk => (h.bytes hn hdt hdu hk).trans (Bits.set_congr (hst _ (hbyte n hn)) (hst k hk))
  have hget : ∀ {f g : ℕ → UInt8} {m : ℕ}, (∀ k < sb.cnt type * sb.len, f k = g k) → m < 8 * sb.len * sb.cnt type →
      Bits.get f m = Bits.get g m := by
    intro f g m hfg hm
    rw [Bits.get,Bits.get,hfg _ (hbyte m hm)]
  refine ⟨t,u,ht,hu,hst,hsu,fun m hm => ?_,fun m hm => ?_,fun d b hv hne k hk => ?_⟩
  · rw [hget hst hm,Mkmfs.mfsMarkbmp,Bits.get_set]
  · rw [hget hsu hm,Mkmfs.mfsMarkbmp,Mkmfs.mfsMarkbmp,Bits.get_set,Bits.get_set]
    split <;> rfl
  · rw [hdu.view_eq hv hk,hd.view_eq hv hk]
    unfold markContent
    rw [Content.set_of_ne _ hne,Content.set_of_ne _ hne]

/-- A bit of the second block of a bitmap after boot. -/
theorem markbmp_same_format_second : ∃ t, (mfsMarkbmp anyEnv twoBlocks 0 .IBLK 4099 true).run (.boot (fun _ _ => 0)) =
    (.ok (),t) ∧ bmpByte twoBlocks 0 t .IBLK 512 = 0x10 := by
  have h : Addressed anyEnv twoBlocks_image.sizes twoBlocks 0 .IBLK :=
    ⟨twoBlocks_image.usable rfl,by decide,by decide,fun b hb => twoBlocks_image.valid .IBLK b (Nat.le_of_lt hb)⟩
  obtain ⟨C,⟨⟨L,hL⟩,-,-⟩,-⟩ := boot_ready twoBlocks_image (fun _ _ => 0)
  obtain ⟨t,-,ht,-,hst,-⟩ := markbmp_same_format anyEnv _ C twoBlocks 0 .IBLK (.boot (fun _ _ => 0)) h ⟨L,hL⟩ (by decide) 4099
    4099 (by decide) (by decide) true true
  refine ⟨t,ht,(hst 512 (by decide)).trans ?_⟩
  decide

def wideBlocks : Sblk := ⟨1,1,2,1,3,4,4096,8192⟩

theorem markbmp_overrun : 32768 < 8 * wideBlocks.len * wideBlocks.cnt .IBLK ∧
    ((mfsMarkbmp anyEnv wideBlocks 0 .IBLK 32768 true).run (.boot (fun _ _ => 0))).1 = .error .fault := by
  decide

end Micron.Filesys

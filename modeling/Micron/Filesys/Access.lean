import Micron.Filesys.Mfs
import Micron.Kernel.ScacheData
import Micron.Lib.Machine

/-! # Blocks of a mounted device

Rules for programs that read and write blocks through the sector cache while it has room,
in terms of the content of the blocks, and for the allocation of vnodes. Block 0 is first
loaded by the probe of the file system, as a single sector, so only its first 512 bytes
count.
-/
namespace Micron.Filesys
open Function Bytes Kernel Scache Prog

def volume (bs : BlkSizes) (D : BlkDevs) : Geometry where
  ok d b := (bs.request d b).Valid D
  addr d b := (bs.request d b).addr
  size d b := if b = 0 then 512 else bs.size d
  disjoint := by
    intro d b b' hb hb' hne
    have hdis := (bs.geometry D).disjoint d b b' hb hb' hne
    have h0 := hb.nonneg
    have h0' := hb'.nonneg
    simp only [BlkSizes.geometry,Get.addr,BlkSizes.request,Nat.mul_assoc,Nat.div_mul_cancel (bs.aligned d)] at *
    obtain ⟨q,hq⟩ := bs.aligned d
    by_cases hz : b = 0
    · subst hz
      rw [if_pos rfl,if_neg hne.symm]
      rcases Nat.eq_zero_or_pos q with rfl | hpos
      · right
        simp [hq]
      · left
        have hle : 512 ≤ bs.size d := by omega
        calc Int.toNat 0 * bs.size d + 512 ≤ bs.size d := by simpa using hle
          _ ≤ b'.toNat * bs.size d := Nat.le_mul_of_pos_left _ (by omega)
    · rw [if_neg hz]
      by_cases hz' : b' = 0
      · subst hz'
        rw [if_pos rfl]
        rcases Nat.eq_zero_or_pos q with rfl | hpos
        · left
          simp [hq]
        · right
          have hle : 512 ≤ bs.size d := by omega
          calc Int.toNat 0 * bs.size d + 512 ≤ bs.size d := by simpa using hle
            _ ≤ b.toNat * bs.size d := Nat.le_mul_of_pos_left _ (by omega)
      · rw [if_neg hz']
        exact hdis

@[simp] theorem volume_size {bs : BlkSizes} {D : BlkDevs} {d : ℕ} {b : ℤ} (h : b ≠ 0) :
    (volume bs D).size d b = bs.size d := if_neg h

/-- The number of a block that the device can address is a positive `off_t`. -/
theorem valid_lt {bs : BlkSizes} {D : BlkDevs} {d q : ℕ} (h : (bs.request d q).Valid D) (hpos : 0 < bs.size d) :
    q < 2 ^ 31 := by
  have hsec : 0 < bs.size d / 512 := Nat.div_pos (Nat.le_of_dvd hpos (bs.aligned d)) (by decide)
  have hle : q ≤ q * (bs.size d / 512) := Nat.le_mul_of_pos_right _ hsec
  have hfits : (q : ℤ) * (bs.size d / 512 : ℕ) < 2 ^ 31 := h.fits
  rw [← Int.natCast_mul] at hfits
  omega

structure Usable (E : Env) (bs : BlkSizes) (dev : UInt32) (blksize : Int32) : Prop where
  dev_ok : DevOk dev.toNat
  open_ok : E.devs.openOk dev.toNat
  size_eq : blksize.toInt = bs.size dev.toNat

variable {E : Env} {bs : BlkSizes} {dev : UInt32} {blk blksize : Int32} {s : State} {C : Content}
  {L : ℕ → List ℕ} {X : State → Prop} {b : ℤ}

theorem volume_fits (hv : (bs.request dev.toNat b).Valid E.devs) (h0 : b ≠ 0) :
    (bs.request dev.toNat b).Fits (volume bs E.devs) := by
  refine ⟨hv,rfl,?_⟩
  simp only [volume,BlkSizes.request,if_neg h0]
  exact Nat.le_of_eq (Nat.div_mul_cancel (bs.aligned _)).symm

theorem fits_volume {d : ℕ} {b : ℤ} (hv : (bs.request d b).Valid E.devs) (hpos : 0 < bs.size d) :
    (bs.request d b).Fits (volume bs E.devs) := by
  refine ⟨hv,rfl,?_⟩
  have hsize : bs.size d / 512 * 512 = bs.size d := Nat.div_mul_cancel (bs.aligned d)
  have hge : 512 ≤ bs.size d := Nat.le_of_dvd hpos (bs.aligned d)
  simp only [volume,BlkSizes.request]
  split <;> omega

theorem Usable.bounds (h : Usable E bs dev blksize) :
    ¬ (blksize < 0 ∨ NMXBLKSZ < blksize.toNatClampNeg / 512 * 512) := by
  have hs := bs.supported dev.toNat
  rw [Machine.toNatClampNeg_eq h.size_eq]
  rintro (h0 | h1)
  · exact Machine.not_neg h.size_eq h0
  · omega

theorem wp_scacheGet_of {Q : Ptr → State → Prop} (h : ¬ (blksize < 0 ∨ NMXBLKSZ < blksize.toNatClampNeg / 512 * 512)) :
    wp (scacheGet E dev blk blksize) Q X s ↔
      match Scache.scacheGet E.devs dev.toNat blk.toInt blksize.toNatClampNeg s.scache with
      | none => X s
      | some (p,c) => Q p { s with scache := c } := by
  rw [scacheGet,if_neg h,cached,wp_step]
  cases Scache.scacheGet E.devs dev.toNat blk.toInt blksize.toNatClampNeg s.scache <;> rfl

theorem wp_scacheGet {Q : Ptr → State → Prop} (h : Usable E bs dev blksize) :
    wp (scacheGet E dev blk blksize) Q X s ↔
      match Scache.scacheGet E.devs dev.toNat blk.toInt (bs.size dev.toNat) s.scache with
      | none => X s
      | some (p,c) => Q p { s with scache := c } := by
  rw [wp_scacheGet_of h.bounds,Machine.toNatClampNeg_eq h.size_eq]

theorem wp_scacheSync {Q : ℤ → State → Prop} (h : Usable E bs dev blksize) :
    wp (scacheSync E dev blk blksize) Q X s ↔
      match Scache.scacheSync E.devs dev.toNat blk.toInt (bs.size dev.toNat) s.scache with
      | none => X s
      | some (r,c) => Q r { s with scache := c } := by
  rw [scacheSync,if_neg h.bounds,cached,wp_step,Machine.toNatClampNeg_eq h.size_eq]
  cases Scache.scacheSync E.devs dev.toNat blk.toInt (bs.size dev.toNat) s.scache <;> rfl

/-! ## Content -/

/-- The cache is coherent with `C` and holds blocks of `B` only. -/
structure Disk (E : Env) (bs : BlkSizes) (B : Finset (ℕ × ℤ)) (C : Content) (c : Scache) : Prop where
  coherent : ∃ L, c.Coherent (volume bs E.devs) C L
  within : ∀ i < c.alist.cnt, c.src (some i) ∈ B
  card_le : B.card ≤ NSECACHS

variable {B : Finset (ℕ × ℤ)}

structure InUse (E : Env) (bs : BlkSizes) (B : Finset (ℕ × ℤ)) (dev : UInt32) (b : ℤ) : Prop where
  valid : (bs.request dev.toNat b).Valid E.devs
  ne_zero : b ≠ 0
  mem : (dev.toNat,b) ∈ B

structure Entry (c : Scache) (i : ℕ) (dev : UInt32) (b : ℤ) : Prop where
  lt : i < c.alist.cnt
  src : c.src (some i) = (dev.toNat,b)

/-- Blocks have been loaded, and none has been dropped or written back. -/
structure Keeps (c c' : Scache) : Prop where
  disk : c'.disk = c.disk
  entry : ∀ i dev b, Entry c i dev b → Entry c' i dev b

theorem Keeps.trans {c c' c'' : Scache} (h : Keeps c c') (h' : Keeps c' c'') : Keeps c c'' :=
  ⟨h'.disk.trans h.disk,fun i dev b he => h'.entry i dev b (h.entry i dev b he)⟩

theorem Disk.buf {c : Scache} {i k : ℕ} (h : Disk E bs B C c) (hi : Entry c i dev b) (h0 : b ≠ 0)
    (hk : k < bs.size dev.toNat) : c.buf (some i) k = C dev.toNat b k := by
  obtain ⟨L,hL⟩ := h.coherent
  have := hL.cached i hi.lt k
  rw [hi.src] at this
  exact this (by simpa [volume,h0] using hk)

theorem Disk.view_eq {c : Scache} {d k : ℕ} (h : Disk E bs B C c) (hb : (bs.request d b).Valid E.devs)
    (hk : k < (volume bs E.devs).size d b) : c.view (bs.size d) d b k = C d b k := by
  obtain ⟨L,hL⟩ := h.coherent
  exact hL.view_eq (g := bs.request d b) hb.dev_ok hb rfl hk

theorem Disk.congr {c : Scache} {C' : Content} (h : Disk E bs B C c)
    (hC : ∀ d b, ∀ k < (volume bs E.devs).size d b, C' d b k = C d b k) : Disk E bs B C' c := by
  obtain ⟨L,hL⟩ := h.coherent
  exact ⟨⟨L,hL.congr (fun d b _ => hC d b)⟩,h.within,h.card_le⟩

def cachedBlocks (c : Scache) : Finset (ℕ × ℤ) := (Finset.range c.alist.cnt).image (fun i => c.src (some i))

theorem disk_of_room {c : Scache} (hc : c.Coherent (volume bs E.devs) C L) (hroom : c.alist.cnt + B.card ≤ NSECACHS) :
    Disk E bs (cachedBlocks c ∪ B) C c := by
  refine ⟨⟨L,hc⟩,fun i hi => ?_,?_⟩
  · exact Finset.mem_union_left _ (Finset.mem_image_of_mem _ (Finset.mem_range.mpr hi))
  · calc (cachedBlocks c ∪ B).card ≤ (cachedBlocks c).card + B.card := Finset.card_union_le _ _
      _ ≤ c.alist.cnt + B.card := Nat.add_le_add_right (Finset.card_image_le.trans (Finset.card_range _).le) _
      _ ≤ NSECACHS := hroom

theorem wp_get_keeps {Q : Ptr → State → Prop} (hu : Usable E bs dev blksize) (h : Disk E bs B C s.scache)
    (hb : InUse E bs B dev blk.toInt)
    (hQ : ∀ i c, Disk E bs B C c → Entry c i dev blk.toInt → Keeps s.scache c → c.mode = s.scache.mode →
      Q (some i) { s with scache := c }) :
    wp (scacheGet E dev blk blksize) Q X s := by
  obtain ⟨L,hL⟩ := h.coherent
  obtain ⟨i,L',c,hc,hcoh,hgot,hw⟩ := hL.get_mem (g := bs.request dev.toNat blk.toInt) hb.valid
    (volume_fits hb.valid hb.ne_zero) hu.open_ok h.card_le h.within hb.mem
  have hkept := hL.inv.get_kept hu.dev_ok hu.open_ok h.card_le h.within hb.mem hc
  rw [wp_scacheGet hu,show Scache.scacheGet E.devs dev.toNat blk.toInt (bs.size dev.toNat) s.scache = some (some i,c) from hc]
  refine hQ i c ⟨⟨L',hcoh⟩,hw,h.card_le⟩ ⟨hgot.lt,hgot.src⟩ ⟨hgot.disk,fun j d b he => ?_⟩ (scacheGet_same hc).1
  obtain ⟨hj,hsrc⟩ := hkept j he.lt
  exact ⟨hj,hsrc.trans he.src⟩

theorem wp_get {Q : Ptr → State → Prop} (hu : Usable E bs dev blksize) (h : Disk E bs B C s.scache)
    (hb : InUse E bs B dev blk.toInt)
    (hQ : ∀ i c, Disk E bs B C c → Entry c i dev blk.toInt → c.disk = s.scache.disk →
      Q (some i) { s with scache := c }) :
    wp (scacheGet E dev blk blksize) Q X s :=
  wp_get_keeps hu h hb (fun i c hd he hk _ => hQ i c hd he hk.disk)

theorem wp_sync {Q : ℤ → State → Prop} (hu : Usable E bs dev blksize) (h : Disk E bs B C s.scache)
    (hb : InUse E bs B dev blk.toInt)
    (hQ : ∀ r c, Disk E bs B C c → Q r { s with scache := c }) :
    wp (scacheSync E dev blk blksize) Q X s := by
  obtain ⟨L,hL⟩ := h.coherent
  obtain ⟨r,disk,pos,hc,hcoh,-⟩ := hL.sync (g := bs.request dev.toNat blk.toInt) hb.valid
    (volume_fits hb.valid hb.ne_zero) hu.open_ok (by
      simp only [volume,BlkSizes.request,if_neg hb.ne_zero]
      exact Nat.div_mul_cancel (bs.aligned _))
  rw [wp_scacheSync hu,show Scache.scacheSync E.devs dev.toNat blk.toInt (bs.size dev.toNat) s.scache = _ from hc]
  exact hQ r _ ⟨⟨L,hcoh⟩,h.within,h.card_le⟩

theorem Disk.set {c : Scache} {i : ℕ} {f : ℕ → UInt8} (h : Disk E bs B C c) (hi : Entry c i dev b)
    (m : Ptr → UInt8) :
    Disk E bs B (C.set dev.toNat b f) { c with buf := update c.buf (some i) f, mode := m } := by
  obtain ⟨L,hL⟩ := h.coherent
  have hset := hL.set (f := f) hi.lt m
  rw [hi.src] at hset
  exact ⟨⟨L,hset⟩,h.within,h.card_le⟩

/-! ## Vnodes -/

theorem wp_vcacheAlloc {Q : VPtr → State → Prop} (h : s.vlist.Unused NVCHCNTS)
    (hQ : ∀ i l, l.Unused NVCHCNTS → i < l.cnt →
      (s.vlist.cnt < NVCHCNTS ∧ i = s.vlist.cnt ∧ l = s.vlist.append ∨
        s.vlist.cnt = NVCHCNTS ∧ i = 0 ∧ l = s.vlist.recycle (some 0)) →
      Q (.vc i) { s with vlist := l, allocs := s.allocs ++ [⟨s.vlist,s.ofile,some i⟩] }) :
    wp vcacheAlloc Q X s := by
  obtain ⟨i,l,ha,hl,hi,hcase⟩ := h.alloc (by decide)
  rw [vcacheAlloc,wp_step,Kernel.vcacheAlloc,ha]
  exact hQ i l hl hi hcase

end Micron.Filesys

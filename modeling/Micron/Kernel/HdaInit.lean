import Mathlib.Order.Interval.Finset.Nat
import Mathlib.Logic.Function.Basic
import Micron.Kernel.Hda
import Micron.Lib.Bytes

/-! # Detection of the partitions

The loop of `hda_init`. A partition starts at the sector where the one before it ends, and a
super block there gives its size. The size is stored as the last sector of the partition,
without the sector that the partition starts at.
-/
namespace Micron.Kernel.Hda
open Function Micron.Bytes

structure Regs where
  sect : UInt8
  cyll : UInt8
  cylh : UInt8
  device : UInt8
deriving DecidableEq, Repr

abbrev Media := Regs → ℕ → UInt8

variable {g : HdaStat} {disk : Media} {d d' : Drive} {i j k n : ℕ} {o : UInt32} {w : List ℕ}

def hdaRead (g : HdaStat) (disk : Media) : ℕ → UInt8 :=
  disk ⟨(g.s &&& 0xFF).toUInt8,(g.c &&& 0xFF).toUInt8,((g.c >>> 8) &&& 0xFF).toUInt8,(g.h &&& 0x0F).toUInt8⟩

def isMfs (buf : ℕ → UInt8) : Bool := buf 0 = 77 ∧ buf 1 = 70 ∧ buf 2 = 83

structure MfsSblk where
  s_dblk : Int32
  s_dblkcnt : Int32
  s_blksize : Int32
deriving DecidableEq, Repr

def MfsSblk.read (buf : ℕ → UInt8) : MfsSblk where
  s_dblk := (get32 buf 32).toInt32
  s_dblkcnt := (get32 buf 36).toInt32
  s_blksize := (get32 buf 40).toInt32

def MfsSblk.end_ (sp : MfsSblk) : UInt32 := ((sp.s_dblk + sp.s_dblkcnt) * (sp.s_blksize / 512)).toUInt32

def Drive.setBegin (d : Drive) (i : ℕ) (v : UInt32) : Drive :=
  { d with partition := update d.partition i { d.partition i with begin := v } }

def Drive.setEnd (d : Drive) (i : ℕ) (v : UInt32) : Drive :=
  { d with partition := update d.partition i { d.partition i with end_ := v } }

/-- `k` passes of the detection loop from entry `i` on. The result is the drive, the number
of partitions found and the indices of `hda_partition` that were assigned to; `none` is a
division by zero. -/
def detectLoop (disk : Media) : ℕ → ℕ → Drive → List ℕ → Option (Drive × ℕ × List ℕ)
  | 0, i, d, w => some (d,i,w)
  | k + 1, i, d, w => do
    let (r,d) ← hdaLseek d 0 (d.partition i).begin.toInt32
    if r = -1 then return (d,i,w)
    let buf := hdaRead d.stat disk
    if isMfs buf then
      let d := d.setEnd i (MfsSblk.read buf).end_
      let d := d.setBegin (i + 1) ((d.partition i).end_ + 1)
      detectLoop disk k (i + 1) d (w ++ [i,i + 1])
    else return (d,i,w)

/-- `hda_init` once the geometry of the disk is known. -/
def hdaInit (disk : Media) (d : Drive) : Option (Drive × ℕ × List ℕ) :=
  detectLoop disk NVFSMNTS 0 (d.setBegin 0 2) [0]

/-! ## What the disk says -/

def HdaStat.at_ (g : HdaStat) (o : UInt32) : HdaStat :=
  ⟨g.C,g.H,g.S,o / g.S / g.H % g.C,o / g.S % g.H,o % g.S⟩

def sblkAt (g : HdaStat) (disk : Media) (o : UInt32) : MfsSblk := MfsSblk.read (hdaRead (g.at_ o) disk)

def HasSuper (g : HdaStat) (disk : Media) (o : UInt32) : Prop :=
  o ≤ g.C * g.H * g.S ∧ g.size ≠ 0 ∧ isMfs (hdaRead (g.at_ o) disk) = true

def MfsSblk.sectors (sp : MfsSblk) : ℤ := (sp.s_dblk.toInt + sp.s_dblkcnt.toInt) * sp.s_blksize.toInt.tdiv 512

theorem MfsSblk.end_mod (sp : MfsSblk) : (sp.end_.toNat : ℤ) = sp.sectors % (2 ^ 32 : ℕ) := by
  rw [MfsSblk.end_,MfsSblk.sectors,Machine.toNat_emod,Int32.toInt_mul,Int.bmod_emod,Int32.toInt_add,Int32.toInt_div,
    Int.mul_emod,Int.bmod_emod,Int.bmod_emod,← Int.mul_emod]
  rfl

def beginAt (g : HdaStat) (disk : Media) : ℕ → UInt32
  | 0 => 2
  | i + 1 => (sblkAt g disk (beginAt g disk i)).end_ + 1

def entryAt (g : HdaStat) (disk : Media) (i : ℕ) : HdaPartition :=
  ⟨beginAt g disk i,(sblkAt g disk (beginAt g disk i)).end_⟩

structure Detecting (g : HdaStat) (disk : Media) (i : ℕ) (d : Drive) (w : List ℕ) : Prop where
  geometry : d.stat.C = g.C ∧ d.stat.H = g.H ∧ d.stat.S = g.S
  entry : ∀ j < i, HasSuper g disk (beginAt g disk j) ∧ d.partition j = entryAt g disk j
  begin_eq : (d.partition i).begin = beginAt g disk i
  written : i ∈ w ∧ ∀ j ∈ w, j ≤ i

theorem Detecting.seek (h : Detecting g disk i d w) :
    beginAt g disk i ≤ g.C * g.H * g.S ∧ g.size ≠ 0 ∧
      hdaLseek d 0 (d.partition i).begin.toInt32 = some (0,{ d with stat := g.at_ (beginAt g disk i) }) ∨
    ¬ beginAt g disk i ≤ g.C * g.H * g.S ∧ hdaLseek d 0 (d.partition i).begin.toInt32 = some (-1,d) := by
  obtain ⟨hC,hH,hS⟩ := h.geometry
  have hsize : d.stat.size = g.size := by rw [HdaStat.size,HdaStat.size,hC,hH,hS]
  rw [hdaLseek_disk rfl,h.begin_eq]
  by_cases hle : beginAt g disk i ≤ g.C * g.H * g.S
  · -- the size is not 0: the first pass was let through at sector 2
    have hz : g.size ≠ 0 := by
      cases i with
      | zero =>
        intro hz
        have h2 := UInt32.le_iff_toNat_le.mp hle
        rw [toNat_size (by omega),hz] at h2
        exact absurd h2 (by simp [beginAt])
      | succ i => exact (h.entry i (Nat.lt_succ_self i)).1.2.1
    refine Or.inl ⟨hle,hz,hdaPosition_some.mpr ⟨?_,hsize ▸ hz,?_⟩⟩
    · rw [hC,hH,hS,UInt32.toUInt32_toInt32]
      exact hle
    · simp only [HdaStat.at_,hC,hH,hS,UInt32.toUInt32_toInt32]
  · refine Or.inr ⟨hle,?_⟩
    rw [hdaPosition,hC,hH,hS,UInt32.toUInt32_toInt32]
    exact if_pos (UInt32.not_le.mp hle)

theorem Detecting.next (h : Detecting g disk i d w) (hs : HasSuper g disk (beginAt g disk i)) :
    Detecting g disk (i + 1) ((({ d with stat := g.at_ (beginAt g disk i) } : Drive).setEnd i
      (sblkAt g disk (beginAt g disk i)).end_).setBegin (i + 1) ((sblkAt g disk (beginAt g disk i)).end_ + 1))
      (w ++ [i,i + 1]) where
  geometry := ⟨rfl,rfl,rfl⟩
  entry j hj := by
    rcases Nat.lt_succ_iff_lt_or_eq.mp hj with hlt | rfl
    · obtain ⟨hsuper,he⟩ := h.entry j hlt
      refine ⟨hsuper,?_⟩
      simp only [Drive.setBegin,Drive.setEnd]
      rw [update_of_ne (by omega),update_of_ne (by omega),he]
    · refine ⟨hs,?_⟩
      simp only [Drive.setBegin,Drive.setEnd]
      rw [update_of_ne (by omega),update_self,h.begin_eq,entryAt]
  begin_eq := by
    simp only [Drive.setBegin,update_self]
    rfl
  written := by
    refine ⟨by simp,fun j hj => ?_⟩
    rcases List.mem_append.mp hj with hj | hj
    · exact Nat.le_succ_of_le (h.written.2 j hj)
    · rcases List.mem_pair.mp hj with rfl | rfl
      · exact Nat.le_succ j
      · exact Nat.le_refl _

/-- The loop goes on up to the first sector without a super block, or to the end of the
table. -/
theorem Detecting.loop (h : Detecting g disk i d w) : ∃ d' n w', detectLoop disk k i d w = some (d',n,w') ∧
    Detecting g disk n d' w' ∧ n ≤ i + k ∧ (n < i + k → ¬ HasSuper g disk (beginAt g disk n)) := by
  induction k generalizing i d w with
  | zero => exact ⟨d,i,w,rfl,h,Nat.le_refl _,fun hlt => absurd hlt (Nat.lt_irrefl _)⟩
  | succ k ih =>
    rw [detectLoop]
    rcases h.seek with ⟨hle,hz,hseek⟩ | ⟨hle,hseek⟩
    · rw [hseek]
      have hnext : { d with stat := g.at_ (beginAt g disk i) }.stat = g.at_ (beginAt g disk i) := rfl
      by_cases hm : isMfs (hdaRead (g.at_ (beginAt g disk i)) disk) = true
      · obtain ⟨d',n,w',hrun,hd,hn,hlast⟩ := ih (h.next ⟨hle,hz,hm⟩)
        refine ⟨d',n,w',?_,hd,by omega,fun hlt => hlast (by omega)⟩
        rw [← hrun]
        simp [hm,sblkAt,Drive.setEnd]
      · refine ⟨{ d with stat := g.at_ (beginAt g disk i) },i,w,by simp [hm],?_,Nat.le_add_right _ _,fun _ hs => hm hs.2.2⟩
        exact ⟨⟨rfl,rfl,rfl⟩,h.entry,h.begin_eq,h.written⟩
    · rw [hseek]
      exact ⟨d,i,w,by simp,h,Nat.le_add_right _ _,fun _ hs => hle hs.1⟩

/-- The partitions found are the longest prefix of super blocks that fits in the table. -/
theorem hdaInit_spec (disk : Media) (d : Drive) : ∃ d' n w, hdaInit disk d = some (d',n,w) ∧
    Detecting d.stat disk n d' w ∧ n ≤ NVFSMNTS ∧ (n < NVFSMNTS → ¬ HasSuper d.stat disk (beginAt d.stat disk n)) := by
  have hstart : Detecting d.stat disk 0 (d.setBegin 0 2) [0] :=
    ⟨⟨rfl,rfl,rfl⟩,fun j hj => absurd hj (Nat.not_lt_zero j),by simp [Drive.setBegin,beginAt],by simp,by simp⟩
  obtain ⟨d',n,w,hrun,hd,hn,hlast⟩ := hstart.loop (k := NVFSMNTS)
  rw [Nat.zero_add] at hn hlast
  exact ⟨d',n,w,hrun,hd,hn,hlast⟩

/-! ## The partitions of a disk -/

def HdaPartition.range (p : HdaPartition) : Finset ℕ := Finset.Icc p.begin.toNat p.end_.toNat

def Accepts (d : Drive) (i : ℕ) : Prop :=
  ∀ x ∈ (d.partition i).range, ∃ d', hdaLseek d (i + 1) (x.toUInt32 - (d.partition i).begin).toInt32 = some (0,d')

/-- The partitions found are apart from each other, as large as their super blocks say and
accepted as a whole, and nothing behind the table was assigned to. -/
def Detected (disk : Media) (d : Drive) : Prop :=
  ∃ d' n w, hdaInit disk d = some (d',n,w) ∧
    (∀ j < n, ∀ i < j, Disjoint (d'.partition i).range (d'.partition j).range) ∧
    (∀ i < n, ((d'.partition i).range.card : ℤ) = (sblkAt d.stat disk (d'.partition i).begin).sectors) ∧
    (∀ i < n, Accepts d' i) ∧ ∀ i ∈ w, i < NVFSMNTS

/-- Only two kinds of partition have the size their super blocks say: those of no sectors,
and those that start at sector 1. -/
theorem card_range (sp : MfsSblk) (b : UInt32) : ((⟨b,sp.end_⟩ : HdaPartition).range.card : ℤ) = sp.sectors ↔
    sp.sectors = 0 ∧ b ≠ 0 ∨ b = 1 ∧ 0 < sp.sectors ∧ sp.sectors < 2 ^ 32 := by
  have he := sp.end_mod
  have hlt := sp.end_.toNat_lt
  have h0 : b ≠ 0 ↔ b.toNat ≠ 0 := not_congr (UInt32.toNat_inj (b := 0)).symm
  have h1 : b = 1 ↔ b.toNat = 1 := (UInt32.toNat_inj (b := 1)).symm
  rw [HdaPartition.range,Nat.card_Icc,h0,h1]
  dsimp only
  omega

/-- The ends of the partitions fit only if the disk holds no super block where the first
one is looked for, or one of an empty file system there and at most one more, at sector 1. -/
def EndsFit (g : HdaStat) (disk : Media) : Prop :=
  HasSuper g disk 2 → (sblkAt g disk 2).sectors = 0 ∧ (HasSuper g disk 1 →
    0 < (sblkAt g disk 1).sectors ∧ (sblkAt g disk 1).sectors ≤ (g.C * g.H * g.S).toNat ∧
    ¬ HasSuper g disk ((sblkAt g disk 1).end_ + 1))

theorem MfsSblk.end_eq_zero {sp : MfsSblk} (h : sp.sectors = 0) : sp.end_ = 0 := by
  have he := sp.end_mod
  rw [h] at he
  exact UInt32.toNat_inj.mp (by simpa using he)

theorem beginAt_one (h : (sblkAt g disk 2).sectors = 0) : beginAt g disk 1 = 1 := by
  rw [beginAt,beginAt,MfsSblk.end_eq_zero h]
  rfl

/-- An empty file system at sector 1 is found again and again. -/
theorem beginAt_stays (h : (sblkAt g disk 2).sectors = 0) (h1 : (sblkAt g disk 1).sectors = 0) :
    beginAt g disk (i + 1) = 1 := by
  induction i with
  | zero => exact beginAt_one h
  | succ i ih =>
    rw [beginAt,ih,MfsSblk.end_eq_zero h1]
    rfl

theorem Detecting.accepts (h : Detecting g disk n d w) (hn : n ≤ NVFSMNTS) (hi : i < n) :
    Accepts d i ↔ ∀ x ∈ (entryAt g disk i).range, x ≤ (g.C * g.H * g.S).toNat := by
  obtain ⟨⟨-,hz,-⟩,he⟩ := h.entry i hi
  obtain ⟨hC,hH,hS⟩ := h.geometry
  have hminor : MINOR (i + 1) = i + 1 := by
    have : NVFSMNTS = 8 := rfl
    exact Nat.mod_eq_of_lt (by omega)
  have hsize : d.stat.size ≠ 0 := by rwa [HdaStat.size,hC,hH,hS]
  have hpart (o : Int32) (d' : Drive) : hdaLseek d (i + 1) o = some (0,d') ↔ _ :=
    hdaLseek_partition (by omega) (by omega)
  rw [Accepts,he]
  refine forall₂_congr (fun x hx => ?_)
  obtain ⟨hb,hx⟩ := Finset.mem_Icc.mp hx
  have hlt := (entryAt g disk i).end_.toNat_lt
  have hnat : x.toUInt32.toNat = x := Nat.mod_eq_of_lt (by omega)
  simp only [hpart,hminor,Nat.add_sub_cancel,he,
    UInt32.toUInt32_toInt32,UInt32.sub_add_cancel,hdaPosition_some,hC,hH,hS,UInt32.le_iff_toNat_le,hnat]
  simp [hx,hsize]

structure Entries (g : HdaStat) (disk : Media) (n : ℕ) : Prop where
  apart : ∀ j < n, ∀ i < j, Disjoint (entryAt g disk i).range (entryAt g disk j).range
  sized : ∀ i < n, ((entryAt g disk i).range.card : ℤ) = (sblkAt g disk (beginAt g disk i)).sectors
  fits : ∀ i < n, ∀ x ∈ (entryAt g disk i).range, x ≤ (g.C * g.H * g.S).toNat

theorem Detecting.detected (h : Detecting d.stat disk n d' w) (hn : n ≤ NVFSMNTS)
    (hrun : hdaInit disk d = some (d',n,w)) : Detected disk d ↔ n < NVFSMNTS ∧ Entries d.stat disk n := by
  have hentry : ∀ i < n, d'.partition i = entryAt d.stat disk i := fun i hi => (h.entry i hi).2
  constructor
  · rintro ⟨_,_,_,hsame,hdisj,hcard,hacc,hw⟩
    obtain ⟨rfl,rfl,rfl⟩ : d' = _ ∧ n = _ ∧ w = _ := by simpa using hrun.symm.trans hsame
    refine ⟨hw _ h.written.1,⟨fun j hj i hi => ?_,fun i hi => ?_,fun i hi => (h.accepts hn hi).mp (hacc i hi)⟩⟩
    · rw [← hentry j hj,← hentry i (Nat.lt_trans hi hj)]
      exact hdisj j hj i hi
    · have hc := hcard i hi
      rwa [hentry i hi] at hc
  · rintro ⟨hlt,hdisj,hcard,hfits⟩
    refine ⟨d',n,w,hrun,fun j hj i hi => ?_,fun i hi => ?_,fun i hi => (h.accepts hn hi).mpr (hfits i hi),
      fun i hi => Nat.lt_of_le_of_lt (h.written.2 i hi) hlt⟩
    · rw [hentry j hj,hentry i (Nat.lt_trans hi hj)]
      exact hdisj j hj i hi
    · rw [hentry i hi]
      exact hcard i hi

theorem entryAt_one (h : (sblkAt g disk 2).sectors = 0) :
    (entryAt g disk 1).range = Finset.Icc 1 (sblkAt g disk 1).end_.toNat := by
  rw [entryAt,beginAt_one h]
  rfl

theorem Entries.endsFit (h : Entries g disk n) (hlast : ¬ HasSuper g disk (beginAt g disk n)) : EndsFit g disk := by
  have hmore : ∀ m ≤ n, HasSuper g disk (beginAt g disk m) → m < n :=
    fun m hm hs => Nat.lt_of_le_of_ne hm (fun he => hlast (he ▸ hs))
  have hcard : ∀ i < n, _ := fun i hi => (card_range _ _).mp (h.sized i hi)
  intro h2
  -- the first partition starts at sector 2, so it is empty
  have hn0 := hmore 0 (Nat.zero_le n) h2
  have hs0 : (sblkAt g disk 2).sectors = 0 := by
    rcases hcard 0 hn0 with ⟨hz,-⟩ | ⟨hb,-⟩
    · exact hz
    · exact absurd hb (by decide : (2 : UInt32) ≠ 1)
  have hb1 := beginAt_one hs0
  refine ⟨hs0,fun h1 => ?_⟩
  have hn1 := hmore 1 hn0 (hb1 ▸ h1)
  have hpos : 0 < (sblkAt g disk 1).sectors ∧ (sblkAt g disk 1).sectors < 2 ^ 32 := by
    have hc1 := hcard 1 hn1
    rw [hb1] at hc1
    rcases hc1 with ⟨hz,-⟩ | ⟨-,hpos⟩
    · obtain ⟨m,rfl⟩ := Nat.exists_eq_add_one.mpr hn0
      rw [beginAt_stays hs0 hz] at hlast
      exact absurd h1 hlast
    · exact hpos
  have hend := (sblkAt g disk 1).end_mod
  have hb2 : beginAt g disk 2 = (sblkAt g disk 1).end_ + 1 := by rw [beginAt,hb1]
  refine ⟨hpos.1,?_,fun h3 => ?_⟩
  · have hle := h.fits 1 hn1 (sblkAt g disk 1).end_.toNat (by rw [entryAt_one hs0,Finset.mem_Icc]; omega)
    omega
  -- the third partition would be empty, and the fourth the second again
  · have hn2 := hmore 2 hn1 (hb2 ▸ h3)
    have hs2 : (sblkAt g disk (beginAt g disk 2)).sectors = 0 := by
      rcases hcard 2 hn2 with ⟨hz,-⟩ | ⟨hb,-⟩
      · exact hz
      · rw [hb2] at hb
        have hz : (sblkAt g disk 1).end_ = 0 := by simpa using hb
        rw [hz,UInt32.toNat_zero] at hend
        omega
    have hb3 : beginAt g disk 3 = 1 := by
      rw [beginAt,MfsSblk.end_eq_zero hs2]
      rfl
    have hn3 := hmore 3 hn2 (hb3 ▸ h1)
    have hsame : entryAt g disk 3 = entryAt g disk 1 := by rw [entryAt,entryAt,hb3,hb1]
    have hdis := h.apart 3 hn3 1 (by decide)
    rw [hsame,disjoint_self,entryAt_one hs0] at hdis
    have hempty := Finset.Icc_eq_empty_iff.mp hdis
    omega

theorem EndsFit.entries (h : EndsFit g disk) (hsuper : ∀ i < n, HasSuper g disk (beginAt g disk i)) :
    n < NVFSMNTS ∧ Entries g disk n := by
  -- the partitions are found one by one, and there is no third
  have h0 : 0 < n → (sblkAt g disk 2).sectors = 0 := fun hn => (h (hsuper 0 hn)).1
  have h1 (hn : 1 < n) : 0 < (sblkAt g disk 1).sectors ∧ (sblkAt g disk 1).sectors ≤ (g.C * g.H * g.S).toNat ∧
      ¬ HasSuper g disk ((sblkAt g disk 1).end_ + 1) := by
    have hs1 := hsuper 1 hn
    rw [beginAt_one (h0 (by omega))] at hs1
    exact (h (hsuper 0 (by omega))).2 hs1
  have hn : n ≤ 2 := by
    by_contra hgt
    have hs2 := hsuper 2 (by omega)
    rw [beginAt,beginAt_one (h0 (by omega))] at hs2
    exact (h1 (by omega)).2.2 hs2
  have hempty (hn : 0 < n) : (entryAt g disk 0).range = ∅ := by
    rw [HdaPartition.range,entryAt,beginAt,MfsSblk.end_eq_zero (h0 hn)]
    decide
  refine ⟨Nat.lt_of_le_of_lt hn (by decide),fun j hj i hi => ?_,fun i hi => ?_,fun i hi => ?_⟩
  · obtain rfl : i = 0 := by omega
    rw [hempty (by omega)]
    exact Finset.disjoint_empty_left _
  · rw [entryAt,card_range]
    rcases (by omega : i = 0 ∨ i = 1) with rfl | rfl
    · exact Or.inl ⟨h0 hi,(by decide : (2 : UInt32) ≠ 0)⟩
    · obtain ⟨hpos,hle,-⟩ := h1 hi
      have hlt := (g.C * g.H * g.S).toNat_lt
      rw [beginAt_one (h0 (by omega))]
      exact Or.inr ⟨rfl,hpos,by omega⟩
  · rcases (by omega : i = 0 ∨ i = 1) with rfl | rfl
    · rw [hempty hi]
      exact fun x hx => absurd hx (Finset.notMem_empty x)
    · obtain ⟨hpos,hle,-⟩ := h1 hi
      have hlt := (g.C * g.H * g.S).toNat_lt
      have hend := (sblkAt g disk 1).end_mod
      rw [entryAt_one (h0 (by omega))]
      intro x hx
      have hx := (Finset.mem_Icc.mp hx).2
      omega

/-- The detection is right on just the disks whose ends fit. -/
theorem detected_iff (disk : Media) (d : Drive) : Detected disk d ↔ EndsFit d.stat disk := by
  obtain ⟨d',n,w,hrun,hd,hn,hlast⟩ := hdaInit_spec disk d
  rw [hd.detected hn hrun]
  constructor
  · rintro ⟨hlt,hentries⟩
    exact hentries.endsFit (hlast hlt)
  · exact fun h => h.entries (fun i hi => (hd.entry i hi).1)

def samples : Media := fun _ => put (fun _ => 0) 0
  ([77,70,83] ++ List.replicate 29 0 ++ [50,0,0,0] ++ [50,0,0,0] ++ [0,2,0,0])

/-- The first partition misses a sector, the second has none at all, and the table is left. -/
theorem samples_overflow : ¬ Detected samples ⟨⟨10,4,8,0,0,0⟩,fun _ => ⟨0,0⟩⟩ ∧
    (sblkAt ⟨10,4,8,0,0,0⟩ samples 2).sectors = 100 ∧
    (hdaInit samples ⟨⟨10,4,8,0,0,0⟩,fun _ => ⟨0,0⟩⟩).map (fun r => (r.1.partition 0,r.1.partition 1,r.2)) =
      some (⟨2,100⟩,⟨101,100⟩,8,[0,0,1,1,2,2,3,3,4,4,5,5,6,6,7,7,8]) := by
  have hval : (hdaInit samples ⟨⟨10,4,8,0,0,0⟩,fun _ => ⟨0,0⟩⟩).map (fun r => (r.1.partition 0,r.1.partition 1,r.2)) =
      some (⟨2,100⟩,⟨101,100⟩,8,[0,0,1,1,2,2,3,3,4,4,5,5,6,6,7,7,8]) := by decide +kernel
  refine ⟨?_,by decide +kernel,hval⟩
  rintro ⟨d',n,w,hrun,-,-,-,hw⟩
  rw [hrun] at hval
  simp only [Option.map_some,Option.some.injEq,Prod.mk.injEq] at hval
  obtain ⟨-,-,-,rfl⟩ := hval
  exact absurd (hw 8 (by decide)) (by decide)

end Micron.Kernel.Hda

import Mathlib.Tactic.Ring
import Micron.Kernel.Scache
import Micron.Lib.Machine

/-! # The hard disk

`hda_lseek` of `driver/blkdev/hda.c`. An offset into a partition is moved to the whole disk,
compared with the limits and split into cylinder, head and sector. Offsets are signed, all
that they are compared and divided with is unsigned.
-/
namespace Micron.Kernel.Hda

structure HdaStat where
  C : UInt32
  H : UInt32
  S : UInt32
  c : UInt32
  h : UInt32
  s : UInt32
deriving DecidableEq, Repr

structure HdaPartition where
  begin : UInt32
  end_ : UInt32
deriving DecidableEq, Repr

structure Drive where
  stat : HdaStat
  partition : ℕ → HdaPartition

variable {d d' : Drive} {g : HdaStat} {p : HdaPartition} {id : ℕ} {offset : Int32}

/-- `hda_lseek` from the test against the size of the disk on; `none` is a division by zero. -/
def hdaPosition (d : Drive) (offset : Int32) : Option (ℤ × Drive) :=
  let g := d.stat
  if offset.toUInt32 > g.C * g.H * g.S then some (-1,d)
  else if g.S = 0 ∨ g.H = 0 ∨ g.C = 0 then none
  else some (0,{ d with stat := { g with
    c := offset.toUInt32 / g.S / g.H % g.C
    h := offset.toUInt32 / g.S % g.H
    s := offset.toUInt32 % g.S } })

/-- The argument `whence` is not looked at. -/
def hdaLseek (d : Drive) (id : ℕ) (offset : Int32) : Option (ℤ × Drive) :=
  if MINOR id > 0 then
    if MINOR id > NVFSMNTS then some (-1,d)
    else
      let p := d.partition (MINOR id - 1)
      let offset := (offset.toUInt32 + p.begin).toInt32
      if offset.toUInt32 > p.end_ then some (-1,d) else hdaPosition d offset
  else hdaPosition d offset

/-! ## Addresses -/

def HdaStat.size (g : HdaStat) : ℕ := g.C.toNat * g.H.toNat * g.S.toNat

def HdaStat.lba (g : HdaStat) : ℕ := (g.c.toNat * g.H.toNat + g.h.toNat) * g.S.toNat + g.s.toNat

theorem digits_eq (o C H S : ℕ) : (o / S / H % C * H + o / S % H) * S + o % S = o % (C * H * S) := by
  have hinner : o / S % (H * C) = o / S % H + H * (o / S / H % C) := Nat.mod_mul
  have houter : o % (S * (H * C)) = o % S + S * (o / S % (H * C)) := Nat.mod_mul
  calc (o / S / H % C * H + o / S % H) * S + o % S = o % S + S * (o / S % H + H * (o / S / H % C)) := by ring
    _ = o % (S * (H * C)) := by rw [← hinner,← houter]
    _ = o % (C * H * S) := by rw [Nat.mul_comm S,Nat.mul_comm H]

/-- A position is accepted exactly up to the product of the geometry, which may wrap, and it
is taken modulo the number of sectors. -/
theorem hdaPosition_some : hdaPosition d offset = some (0,d') ↔
    offset.toUInt32 ≤ d.stat.C * d.stat.H * d.stat.S ∧ d.stat.size ≠ 0 ∧
    d' = { d with stat := { d.stat with
      c := offset.toUInt32 / d.stat.S / d.stat.H % d.stat.C
      h := offset.toUInt32 / d.stat.S % d.stat.H
      s := offset.toUInt32 % d.stat.S } } := by
  have hsize : d.stat.size ≠ 0 ↔ ¬ (d.stat.S = 0 ∨ d.stat.H = 0 ∨ d.stat.C = 0) := by
    have hz : ∀ a : UInt32, a.toNat = 0 ↔ a = 0 := fun a => UInt32.toNat_inj (b := 0)
    rw [HdaStat.size,Ne,Nat.mul_eq_zero,Nat.mul_eq_zero,hz,hz,hz,or_comm,or_comm (a := d.stat.C = 0)]
  unfold hdaPosition
  dsimp only
  by_cases hle : offset.toUInt32 ≤ d.stat.C * d.stat.H * d.stat.S
  · rw [if_neg (UInt32.not_lt.mpr hle),hsize]
    by_cases hz : d.stat.S = 0 ∨ d.stat.H = 0 ∨ d.stat.C = 0
    · simp [hz]
    · rw [if_neg hz,Option.some.injEq,Prod.mk.injEq,eq_comm (a := d')]
      simp [hle,hz]
  · rw [if_pos (UInt32.not_le.mp hle)]
    simp [hle]

theorem lba_of_position (h : hdaPosition d offset = some (0,d')) :
    d'.stat.lba = offset.toUInt32.toNat % d.stat.size := by
  obtain ⟨-,-,rfl⟩ := hdaPosition_some.mp h
  simp only [HdaStat.lba,HdaStat.size,UInt32.toNat_mod,UInt32.toNat_div]
  exact digits_eq _ _ _ _

structure HdaStat.Addresses (g : HdaStat) (offset : Int32) : Prop where
  c_lt : g.c < g.C
  h_lt : g.h < g.H
  s_lt : g.s < g.S
  lba_eq : (g.lba : ℤ) = offset.toInt

/-- On the device `id`, the accepted ones of the offsets in `X` are positioned to their own
addresses, and no two of them to the same. -/
def OwnAddresses (d : Drive) (id : ℕ) (X : Set Int32) : Prop :=
  (∀ o ∈ X, ∀ d', hdaLseek d id o = some (0,d') → d'.stat.Addresses o) ∧
  ∀ o₁ ∈ X, ∀ o₂ ∈ X, ∀ d₁ d₂, hdaLseek d id o₁ = some (0,d₁) → hdaLseek d id o₂ = some (0,d₂) → o₁ ≠ o₂ →
    (d₁.stat.c,d₁.stat.h,d₁.stat.s) ≠ (d₂.stat.c,d₂.stat.h,d₂.stat.s)

theorem hdaLseek_disk (hid : MINOR id = 0) : hdaLseek d id offset = hdaPosition d offset := by
  rw [hdaLseek,if_neg (by omega)]

theorem toNat_size (hlt : g.size < 2 ^ 32) : (g.C * g.H * g.S).toNat = g.size := by
  rw [UInt32.toNat_mul,UInt32.toNat_mul,Nat.mod_mul_mod]
  exact Nat.mod_eq_of_lt hlt

/-- On a disk below 2^31 sectors, an accepted offset is not negative and at most the number
of sectors. -/
theorem accepted_le (hlt : d.stat.size < 2 ^ 31) (h : hdaPosition d offset = some (0,d')) :
    offset.toInt = offset.toUInt32.toNat ∧ offset.toUInt32.toNat ≤ d.stat.size := by
  obtain ⟨hle,-,-⟩ := hdaPosition_some.mp h
  rw [UInt32.le_iff_toNat_le,toNat_size (by omega)] at hle
  exact ⟨Machine.toInt_of_lt (by omega),hle⟩

/-- Every accepted offset but the number of sectors itself has a disk address of its own. -/
theorem hda_addresses_iff (d : Drive) (id : ℕ) (X : Set Int32) (hid : MINOR id = 0) (hpos : 0 < d.stat.size)
    (hlt : d.stat.size < 2 ^ 31) : OwnAddresses d id X ↔ ∀ o ∈ X, o.toInt ≠ d.stat.size := by
  simp only [OwnAddresses,hdaLseek_disk hid]
  constructor
  · rintro ⟨haddr,-⟩ o ho heq
    have hnat : o.toUInt32.toNat = d.stat.size := Machine.toNat_toUInt32 heq
    have hle : o.toUInt32 ≤ d.stat.C * d.stat.H * d.stat.S := by
      rw [UInt32.le_iff_toNat_le,toNat_size (by omega),hnat]
    have hacc := hdaPosition_some.mpr ⟨hle,Nat.ne_of_gt hpos,rfl⟩
    -- the division by the number of cylinders takes it back to the start of the disk
    have hlba := (haddr o ho _ hacc).lba_eq
    rw [lba_of_position hacc,hnat,Nat.mod_self,heq] at hlba
    omega
  · intro hne
    have hown : ∀ o ∈ X, ∀ d', hdaPosition d o = some (0,d') → (d'.stat.lba : ℤ) = o.toInt := by
      intro o ho d' h
      obtain ⟨hint,hle⟩ := accepted_le hlt h
      have := hne o ho
      rw [lba_of_position h,Nat.mod_eq_of_lt (by omega),hint]
    refine ⟨fun o ho d' h => ?_,fun o₁ h₁ o₂ h₂ d₁ d₂ hd₁ hd₂ hne hsame => ?_⟩
    · have hlba := hown o ho d' h
      obtain ⟨-,hz,rfl⟩ := hdaPosition_some.mp h
      have hpos : ∀ a : UInt32, a.toNat ≠ 0 → 0 < a := fun a ha => UInt32.lt_iff_toNat_lt.mpr (Nat.pos_of_ne_zero ha)
      obtain ⟨hCH,hS⟩ := Nat.mul_ne_zero_iff.mp hz
      obtain ⟨hC,hH⟩ := Nat.mul_ne_zero_iff.mp hCH
      exact ⟨UInt32.mod_lt _ (hpos _ hC),UInt32.mod_lt _ (hpos _ hH),UInt32.mod_lt _ (hpos _ hS),hlba⟩
    · have hlba : d₁.stat.lba = d₂.stat.lba := by
        obtain ⟨-,-,rfl⟩ := hdaPosition_some.mp hd₁
        obtain ⟨-,-,rfl⟩ := hdaPosition_some.mp hd₂
        simp only [Prod.mk.injEq] at hsame
        obtain ⟨hc,hh,hs⟩ := hsame
        simp only [HdaStat.lba,hc,hh,hs]
      have h₁' := hown o₁ h₁ d₁ hd₁
      have h₂' := hown o₂ h₂ d₂ hd₂
      exact hne (Int32.toInt_inj.mp (by omega))

/-- A disk of two cylinders with three heads and four sectors; the partitions are empty but
for the first. -/
def smallDrive : Drive := ⟨⟨2,3,4,0,0,0⟩,fun i => if i = 0 then ⟨2,10⟩ else ⟨0,0⟩⟩

theorem smallDrive_addresses : 0 < smallDrive.stat.size ∧ smallDrive.stat.size < 2 ^ 31 ∧
    OwnAddresses smallDrive 0 {o | o.toInt < 24} := by
  refine ⟨by decide,by decide,(hda_addresses_iff smallDrive 0 _ rfl (by decide) (by decide)).mpr fun o ho => ?_⟩
  have hsize : smallDrive.stat.size = 24 := by decide
  rw [hsize]
  exact ne_of_lt ho

/-- The offset behind the last sector is accepted and leads to the first. -/
theorem smallDrive_folds : ¬ OwnAddresses smallDrive 0 Set.univ ∧
    hdaLseek smallDrive 0 24 = some (0,smallDrive) ∧ hdaLseek smallDrive 0 0 = some (0,smallDrive) := by
  refine ⟨fun h => ?_,rfl,rfl⟩
  have hlba := (h.1 24 trivial smallDrive rfl).lba_eq
  exact absurd hlba (by decide)

/-! ## Partitions -/

/-- Where the device `id` accepts the offset, the drive is positioned inside its partition. -/
def Confined (d : Drive) (id : ℕ) (offset : Int32) : Prop :=
  ∀ d', hdaLseek d id offset = some (0,d') →
    (d.partition (MINOR id - 1)).begin.toNat ≤ d'.stat.lba ∧ d'.stat.lba ≤ (d.partition (MINOR id - 1)).end_.toNat

/-- An offset within the limits does not wrap around to a sector before the partition, and
is not the number of sectors of the disk unless the partition starts with the disk. -/
def SeekSafe (g : HdaStat) (p : HdaPartition) (offset : Int32) : Prop :=
  offset.toUInt32 + p.begin ≤ p.end_ → offset.toUInt32 + p.begin ≤ g.C * g.H * g.S → g.size ≠ 0 →
    p.begin ≤ offset.toUInt32 + p.begin ∧ ((offset.toUInt32 + p.begin).toNat = g.size → p.begin = 0)

theorem hdaLseek_partition (hpos : 1 ≤ MINOR id) (hle : MINOR id ≤ NVFSMNTS) :
    hdaLseek d id offset = some (0,d') ↔
      offset.toUInt32 + (d.partition (MINOR id - 1)).begin ≤ (d.partition (MINOR id - 1)).end_ ∧
      hdaPosition d (offset.toUInt32 + (d.partition (MINOR id - 1)).begin).toInt32 = some (0,d') := by
  rw [hdaLseek,if_pos (show MINOR id > 0 from hpos),if_neg (Nat.not_lt.mpr hle)]
  dsimp only
  rw [UInt32.toUInt32_toInt32]
  by_cases hend : offset.toUInt32 + (d.partition (MINOR id - 1)).begin ≤ (d.partition (MINOR id - 1)).end_
  · rw [if_neg (UInt32.not_lt.mpr hend)]
    simp [hend]
  · rw [if_pos (UInt32.not_le.mp hend)]
    simp [hend]

/-- A partition confines the accepted offset exactly when the sum with its start is safe. -/
theorem partition_confined_iff (d : Drive) (id : ℕ) (offset : Int32) (hpos : 1 ≤ MINOR id) (hle : MINOR id ≤ NVFSMNTS) :
    Confined d id offset ↔ SeekSafe d.stat (d.partition (MINOR id - 1)) offset := by
  simp only [Confined,hdaLseek_partition hpos hle]
  generalize d.partition (MINOR id - 1) = p
  unfold SeekSafe
  constructor
  · intro h hend hsize hz
    have hacc := hdaPosition_some.mpr ⟨by rwa [UInt32.toUInt32_toInt32],hz,rfl⟩
    obtain ⟨hb,-⟩ := h _ ⟨hend,hacc⟩
    rw [lba_of_position hacc,UInt32.toUInt32_toInt32] at hb
    refine ⟨UInt32.le_iff_toNat_le.mpr (hb.trans (Nat.mod_le _ _)),fun heq => ?_⟩
    rw [heq,Nat.mod_self] at hb
    exact UInt32.toNat_inj.mp (Nat.le_zero.mp hb)
  · rintro h d' ⟨hend,hacc⟩
    obtain ⟨hsize,hz,-⟩ := hdaPosition_some.mp hacc
    rw [UInt32.toUInt32_toInt32] at hsize
    obtain ⟨hb,h0⟩ := h hend hsize hz
    rw [lba_of_position hacc,UInt32.toUInt32_toInt32]
    refine ⟨?_,(Nat.mod_le _ _).trans (UInt32.le_iff_toNat_le.mp hend)⟩
    have hle : (offset.toUInt32 + p.begin).toNat ≤ d.stat.size := by
      refine (UInt32.le_iff_toNat_le.mp hsize).trans ?_
      rw [UInt32.toNat_mul,UInt32.toNat_mul,Nat.mod_mul_mod]
      exact Nat.mod_le _ _
    rcases Nat.eq_or_lt_of_le hle with heq | hlt
    · rw [h0 heq]
      exact Nat.zero_le _
    · rw [Nat.mod_eq_of_lt hlt]
      exact UInt32.le_iff_toNat_le.mp hb

theorem smallDrive_confined : (1 ≤ MINOR 1 ∧ MINOR 1 ≤ NVFSMNTS) ∧
    (hdaLseek smallDrive 1 3).map Prod.fst = some 0 ∧ Confined smallDrive 1 3 := by
  refine ⟨by decide,by decide,(partition_confined_iff smallDrive 1 3 (by decide) (by decide)).mpr ?_⟩
  intro _ _ _
  decide

/-- A negative offset is accepted and leads to the sector before the partition. -/
theorem smallDrive_escapes : ¬ Confined smallDrive 1 (-1) ∧
    (hdaLseek smallDrive 1 (-1)).map (fun r => (r.1,r.2.stat.lba)) = some (0,1) := by
  have hrun : hdaLseek smallDrive 1 (-1) = some (0,{ smallDrive with stat := ⟨2,3,4,0,0,1⟩ }) := rfl
  refine ⟨fun h => ?_,by decide⟩
  exact absurd (h _ hrun).1 (by decide)

/-! ## The drive as a block device -/

/-- The drive is the only block device. What it accepts does not depend on its position. -/
def devs (d : Drive) : BlkDevs where
  openOk dev := MAJOR dev = 0
  seekOk dev off := MAJOR dev = 0 ∧ (hdaLseek d dev (Int32.ofInt off)).map Prod.fst = some 0

end Micron.Kernel.Hda

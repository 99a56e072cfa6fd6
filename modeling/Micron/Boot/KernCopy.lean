import Micron.Boot.Loader

/-! # What the boot loader loads

A run of `kern_copy` in terms of its passes: it returns exactly if each of them can be read,
and then the memory holds their sectors one after the other.
-/
namespace Micron.Boot
open Bytes

variable {g : Geometry} {disk : Disk} {mem : Memory} {ks n k m fuel : ℕ}

/-! ## The whole copy -/

def memAt (g : Geometry) (disk : Disk) (ks : ℕ) (mem : Memory) : ℕ → Memory
  | 0 => mem
  | k + 1 => load disk (g.lbaAt ks k) g.S (65536 + 512 * g.S * k) (memAt g disk ks mem k)

/-- Pass `j` of `m` can be read, and the cylinder after it is not the last one. -/
def Geometry.OkAt (g : Geometry) (ks m j : ℕ) : Prop :=
  g.ReadsAt ks j ∧ (j + 1 < m → ¬ ((j + 1) % g.top = 0 ∧ (j + 1) / g.top = g.maxCyl))

theorem Counts.seg_lt (h : Counts g.S n m) (hk : k < m) : 4096 + 32 * g.S * k < 65536 := by
  have := h.small k hk
  rw [Nat.mul_assoc]
  omega

theorem copyLoop_reaches (h : Counts g.S n m) (hm : m ≤ 129) (hn : n < 65536) (hk : k < m)
    (hok : ∀ j < k, g.OkAt ks m j) :
    copyLoop g disk (k + fuel) (varsAt g ks n 0) mem = copyLoop g disk fuel (varsAt g ks n k) (memAt g disk ks mem k) := by
  induction k generalizing fuel with
  | zero => rw [Nat.zero_add]; rfl
  | succ k ih =>
    obtain ⟨hread,hnext⟩ := hok k (Nat.lt_succ_self k)
    have hgo := h.goes (k + 1) (Nat.succ_pos k) hk
    rw [Nat.add_assoc,Nat.add_comm 1,ih (by omega) (fun j hj => hok j (by omega)),copyLoop,
      copyPass_varsAt (by omega) hn (h.seg_lt (by omega)),if_neg (not_not.mpr hread),if_neg (by omega),if_neg (hnext hk)]
    rfl

theorem copyLoop_returns (h : Counts g.S n m) (hm : m ≤ 129) (hn : n < 65536) (hok : ∀ j < m, g.OkAt ks m j) :
    copyLoop g disk m (varsAt g ks n 0) mem = .returned (varsAt g ks n (m - 1)) (memAt g disk ks mem m) := by
  obtain ⟨m,rfl⟩ := Nat.exists_eq_add_one.mpr h.pos
  rw [copyLoop_reaches h hm hn (Nat.lt_succ_self m) (fun j hj => hok j (by omega)),copyLoop,
    copyPass_varsAt (by omega) hn (h.seg_lt (Nat.lt_succ_self m)),
    if_neg (not_not.mpr (hok m (Nat.lt_succ_self m)).1),if_pos h.stops]
  rfl

theorem copyLoop_halts (h : Counts g.S n m) (hm : m ≤ 129) (hn : n < 65536) (hk : k < m)
    (hok : ∀ j < k, g.OkAt ks m j) (hbad : ¬ g.OkAt ks m k) :
    copyLoop g disk (k + (fuel + 1)) (varsAt g ks n 0) mem = .halted := by
  rw [copyLoop_reaches h hm hn hk hok,copyLoop,copyPass_varsAt (by omega) hn (h.seg_lt hk)]
  by_cases hread : g.ReadsAt ks k
  · have hnext : k + 1 < m ∧ ((k + 1) % g.top = 0 ∧ (k + 1) / g.top = g.maxCyl) := by
      by_contra hcon
      exact hbad ⟨hread,fun hlt hlast => hcon ⟨hlt,hlast⟩⟩
    have hgo := h.goes (k + 1) (Nat.succ_pos k) hnext.1
    rw [if_neg (not_not.mpr hread),if_neg (by omega),if_pos hnext.2]
  · rw [if_pos hread]

theorem copyLoop_more {v v' : Vars} {mem' : Memory} (e : ℕ) (h : copyLoop g disk fuel v mem = .returned v' mem') :
    copyLoop g disk (fuel + e) v mem = .returned v' mem' := by
  induction fuel generalizing v mem with
  | zero => simp [copyLoop] at h
  | succ fuel ih =>
    rw [Nat.add_right_comm,copyLoop]
    rw [copyLoop] at h
    cases hp : copyPass g disk v mem with
    | returned w mem'' =>
      rw [hp] at h
      exact h
    | halted =>
      rw [hp] at h
      exact h
    | running w mem'' =>
      rw [hp] at h
      exact ih h

theorem copyLoop_iff (h : Counts g.S n m) (hm : m ≤ 129) (hn : n < 65536) {P : Memory → Prop} :
    (∃ fuel v mem', copyLoop g disk fuel (varsAt g ks n 0) mem = .returned v mem' ∧ P mem') ↔
      (∀ j < m, g.OkAt ks m j) ∧ P (memAt g disk ks mem m) := by
  constructor
  · rintro ⟨fuel,v,mem',hrun,hP⟩
    have hok : ∀ j < m, g.OkAt ks m j := by
      intro j
      induction j using Nat.strong_induction_on with
      | h k ih =>
        intro hk
        by_contra hbad
        have hhalt : copyLoop g disk (k + (fuel + 1)) (varsAt g ks n 0) mem = .halted :=
          copyLoop_halts h hm hn hk (fun j hj => ih j hj (by omega)) hbad
        have hmore := copyLoop_more (k + 1) hrun
        rw [show fuel + (k + 1) = k + (fuel + 1) by omega,hhalt] at hmore
        cases hmore
    have hret : copyLoop g disk (m + fuel) (varsAt g ks n 0) mem = _ := copyLoop_more fuel (copyLoop_returns h hm hn hok)
    have hmore := copyLoop_more m hrun
    rw [Nat.add_comm fuel,hret] at hmore
    obtain ⟨-,rfl⟩ := Outcome.returned.inj hmore
    exact ⟨hok,hP⟩
  · rintro ⟨hok,hP⟩
    exact ⟨m,_,_,copyLoop_returns h hm hn hok,hP⟩

/-- What a pass loads is kept by the later ones. -/
theorem memAt_slot {i x : ℕ} (hi : i < g.S * k) (hx : x < 512) :
    memAt g disk ks mem k (65536 + 512 * i + x) = disk (g.lbaAt ks (i / g.S) + i % g.S) x := by
  have hS := g.S_pos
  induction k with
  | zero => omega
  | succ k ih =>
    rw [memAt,load]
    rw [Nat.mul_add,Nat.mul_one] at hi
    rcases Nat.lt_or_ge i (g.S * k) with hlt | hge
    · rw [if_neg (by rw [Nat.mul_assoc]; omega)]
      exact ih hlt
    · have hi' : i = g.S * k + (i - g.S * k) := by omega
      have hdiv : i / g.S = k := by
        rw [hi',Nat.mul_add_div hS,Nat.div_eq_of_lt (by omega),Nat.add_zero]
      have hmod : i % g.S = i - g.S * k := by
        conv_lhs => rw [hi']
        rw [Nat.mul_add_mod,Nat.mod_eq_of_lt (by omega)]
      have ha : 65536 + 512 * i + x - (65536 + 512 * g.S * k) = 512 * (i - g.S * k) + x := by
        rw [Nat.mul_assoc]
        omega
      rw [if_pos (by rw [Nat.mul_assoc]; omega),ha,hdiv,hmod,Nat.mul_add_div (by decide),Nat.div_eq_of_lt hx,Nat.add_zero,
        Nat.mul_add_mod,Nat.mod_eq_of_lt hx]

theorem memAt_above {i x : ℕ} (hi : g.S * k ≤ i) : memAt g disk ks mem k (65536 + 512 * i + x) = mem (65536 + 512 * i + x) := by
  induction k with
  | zero => rfl
  | succ k ih =>
    rw [Nat.mul_add,Nat.mul_one] at hi
    rw [memAt,load,if_neg (by rw [Nat.mul_assoc]; omega)]
    exact ih (by omega)

/-! ## What is loaded -/

def Says (disk : Disk) (kblk kb : UInt16) : Prop := get16 (disk 1) 4 = kblk ∧ get16 (disk 1) 6 = kb

def LoadsKernel (g : Geometry) (disk : Disk) (mem : Memory) (kblk kb : ℕ) : Prop :=
  ∃ fuel v mem', bootHdd g disk fuel mem = .returned v mem' ∧
    ∀ i < 2 * kb, ∀ x < 512, mem' (65536 + 512 * i + x) = disk (2 * kblk + 1 + i) x

theorem bootHdd_eq {kblk kb : UInt16} (hsb : Says disk kblk kb) : bootHdd g disk fuel mem =
    if 2 ≤ g.S ∧ 3 ≤ g.total then
      copyLoop g disk fuel (varsAt g (2 * kblk.toNat + 1) (2 * kb.toNat) 0) (load disk 1 2 0x7E00 mem)
    else .halted := by
  have hread : g.Readable 0 0 2 2 ↔ 2 ≤ g.S ∧ 3 ≤ g.total := by
    simp only [Geometry.Readable,Geometry.lba]
    omega
  have hcopy : copyBlock g disk 2 0 0 2 0 buf mem =
      if 2 ≤ g.S ∧ 3 ≤ g.total then some (load disk 1 2 0x7E00 mem) else none := by
    rw [← if_congr hread rfl rfl]
    simp [copyBlock,int13,Geometry.lba,buf]
  have hbyte : ∀ a < 512, load disk 1 2 0x7E00 mem (0x7E00 + a) = disk 1 a := by
    intro a ha
    rw [load,if_pos (by omega),Nat.add_sub_cancel_left,Nat.div_eq_of_lt ha,Nat.mod_eq_of_lt ha]
  have hword : ∀ a, a + 1 < 512 → get16 (load disk 1 2 0x7E00 mem) (buf.toNat + a) = get16 (disk 1) a := by
    intro a ha
    rw [get16,get16,show buf.toNat = 0x7E00 from rfl,hbyte a (by omega),Nat.add_assoc,hbyte (a + 1) ha]
  have hksec : kblk * 2 + 1 = (2 * kblk.toNat + 1).toUInt16 := by
    apply UInt16.toNat_inj.mp
    simp
    omega
  have hkcnt : kb * 2 = (2 * kb.toNat).toUInt16 := by
    apply UInt16.toNat_inj.mp
    simp
    omega
  have hs : ((2 * kblk.toNat + 1).toUInt16).toUInt8 = (2 * kblk.toNat + 1).toUInt8 := by
    apply UInt8.toNat_inj.mp
    simp
  rw [bootHdd,statDev_eq,statKsize,hcopy]
  by_cases hok : 2 ≤ g.S ∧ 3 ≤ g.total
  · rw [if_pos hok,if_pos hok]
    simp only [Option.bind_eq_bind,Option.bind_some,Option.pure_def,hword 4 (by decide),hword 6 (by decide),hsb.1,hsb.2,
      hksec,hkcnt,kernCopy,initial,hs,varsAt,leftAt,Geometry.top,Nat.zero_div,Nat.zero_mod,Nat.mul_zero]
    rfl
  · rw [if_neg hok,if_neg hok]
    rfl

theorem clAt_eq (hk : k < 256) : g.clAt ks k = (ks + 1) % 256 := by
  have hdiv := Nat.div_le_self k g.top
  have hhigh : ((k / g.top).toUInt16 >>> 8).toUInt8 <<< 6 = (0 : UInt8) := by
    apply UInt8.toNat_inj.mp
    have hz : ((k / g.top).toUInt16 >>> 8).toNat = 0 := by
      rw [UInt16.toNat_shiftRight,toNat_word (by omega),Nat.shiftRight_eq_div_pow]
      exact Nat.div_eq_of_lt (by simp; omega)
    simp [hz]
  rw [Geometry.clAt,hhigh]
  simp

theorem lbaAt_eq (hk : k < 256) (hks : ks < 63) :
    g.lbaAt ks k = (k / g.top * (g.maxHead + 1) + k % g.top) * g.S + ks := by
  have hdiv := Nat.div_le_self k g.top
  rw [Geometry.lbaAt,Geometry.cylAt,clAt_eq hk,Nat.mod_eq_of_lt (show ks + 1 < 256 by omega),
    Nat.div_eq_of_lt (show ks + 1 < 64 by omega),Nat.mod_eq_of_lt (show ks + 1 < 64 by omega),
    Nat.mod_eq_of_lt (show k / g.top < 256 by omega),Geometry.lba]
  rfl

theorem readsAt_iff (hk : k < 256) (hks : ks < g.S) :
    g.ReadsAt ks k ↔ k % g.top ≤ g.maxHead ∧ k / g.top ≤ g.maxCyl ∧ g.lbaAt ks k + g.S ≤ g.total := by
  have hS := g.S_le
  have hdiv := Nat.div_le_self k g.top
  rw [Geometry.ReadsAt,Geometry.Readable,← Geometry.lbaAt,Geometry.cylAt,clAt_eq hk,
    Nat.mod_eq_of_lt (show ks + 1 < 256 by omega),Nat.div_eq_of_lt (show ks + 1 < 64 by omega),
    Nat.mod_eq_of_lt (show ks + 1 < 64 by omega),Nat.mod_eq_of_lt (show k / g.top < 256 by omega)]
  omega

theorem top_le (g : Geometry) : g.top ≤ g.maxHead := Nat.mod_le _ _

/-- Passes stay in order over the heads of the first cylinder only: the last head of a
cylinder is left out. -/
theorem lbaAt_order (hk : k < 256) (hks : ks < 63) : g.lbaAt ks k = ks + k * g.S ↔ g.top = 0 ∨ k < g.top := by
  have hS := g.S_pos
  have htop := top_le g
  rw [lbaAt_eq hk hks,Nat.add_comm,Nat.add_left_cancel_iff,Nat.mul_left_inj (by omega)]
  rcases Nat.eq_zero_or_pos g.top with h0 | hpos
  · simp [h0]
  · have hk := Nat.div_add_mod k g.top
    rw [or_iff_right (by omega),← Nat.div_eq_zero_iff_lt hpos]
    constructor
    · intro he
      by_contra hq
      have hlt : k / g.top * g.top < k / g.top * (g.maxHead + 1) :=
        Nat.mul_lt_mul_of_pos_left (by omega) (Nat.pos_of_ne_zero hq)
      rw [Nat.mul_comm] at hk
      omega
    · intro hq
      rw [hq] at hk ⊢
      omega

def Geometry.Passes (g : Geometry) (ks m : ℕ) : Prop :=
  if g.top = 0 then m ≤ g.maxHead + 1 ∧ ks + m * g.S ≤ g.total else m ≤ g.top ∨ (m - 1) / g.top < g.maxCyl

instance (g : Geometry) (ks m : ℕ) : Decidable (g.Passes ks m) := inferInstanceAs (Decidable (ite _ _ _))

theorem lbaAt_le (hk : k < 256) (hks : ks < g.S) (hpos : 0 < g.top) (hin : k < g.top ∨ k / g.top < g.maxCyl) :
    g.lbaAt ks k + g.S ≤ g.total := by
  have hS := g.S_le
  have htop := top_le g
  have hmod := Nat.mod_lt k hpos
  have hcyl : k / g.top * (g.maxHead + 1) + k % g.top + 2 ≤ (g.maxCyl + 1) * (g.maxHead + 1) := by
    have hle : k / g.top ≤ g.maxCyl := by
      rcases hin with hlt | hlt
      · rw [Nat.div_eq_of_lt hlt]
        exact Nat.zero_le _
      · omega
    have hmul := Nat.mul_le_mul_right (g.maxHead + 1) hle
    rw [Nat.add_mul,Nat.one_mul]
    omega
  rw [lbaAt_eq hk (by omega),Geometry.total]
  have hmul := Nat.mul_le_mul_right g.S hcyl
  rw [Nat.add_mul] at hmul
  omega

theorem passes_iff (hpos : 0 < m) (hm : m ≤ 129) (hks : ks < g.S) : (∀ j < m, g.OkAt ks m j) ↔ g.Passes ks m := by
  have hS := g.S_le
  have htop := top_le g
  rw [Geometry.Passes]
  rcases Nat.eq_zero_or_pos g.top with h0 | h0
  · rw [if_pos h0]
    -- all passes are in cylinder 0, one head after the other
    have hlba : ∀ j < m, g.lbaAt ks j = ks + j * g.S := fun j hj => (lbaAt_order (by omega) (by omega)).mpr (Or.inl h0)
    constructor
    · intro hok
      obtain ⟨hhead,-,hle⟩ := (readsAt_iff (by omega) hks).mp (hok (m - 1) (by omega)).1
      rw [h0,Nat.mod_zero] at hhead
      rw [hlba (m - 1) (by omega)] at hle
      have hm1 : m * g.S = (m - 1) * g.S + g.S := by
        rw [← Nat.succ_mul,Nat.succ_eq_add_one,Nat.sub_add_cancel hpos]
      omega
    · rintro ⟨hhead,hle⟩ j hj
      refine ⟨(readsAt_iff (by omega) hks).mpr ⟨?_,?_,?_⟩,fun _ hlast => ?_⟩
      · rw [h0,Nat.mod_zero]
        omega
      · rw [h0,Nat.div_zero]
        exact Nat.zero_le _
      · have hmul := Nat.mul_le_mul_right g.S (show j + 1 ≤ m from hj)
        rw [Nat.add_mul,Nat.one_mul] at hmul
        rw [hlba j hj]
        omega
      · rw [h0,Nat.mod_zero] at hlast
        omega
  · rw [if_neg (by omega)]
    constructor
    · intro hok
      by_contra hcon
      have hq : 0 < (m - 1) / g.top := Nat.div_pos (by omega) h0
      obtain ⟨-,hcyl,-⟩ := (readsAt_iff (by omega) hks).mp (hok (m - 1) (by omega)).1
      -- the pass that entered the last cylinder
      have hle : (m - 1) / g.top * g.top ≤ m - 1 := Nat.div_mul_le_self _ _
      have hone : 0 < (m - 1) / g.top * g.top := Nat.mul_pos hq h0
      refine (hok ((m - 1) / g.top * g.top - 1) (by omega)).2 (by omega) ?_
      rw [Nat.sub_add_cancel hone,Nat.mul_mod_left,Nat.mul_div_cancel _ h0]
      omega
    · intro hin j hj
      have hle : j / g.top ≤ (m - 1) / g.top := Nat.div_le_div_right (by omega)
      have hin' : j < g.top ∨ j / g.top < g.maxCyl := by omega
      refine ⟨(readsAt_iff (by omega) hks).mpr ⟨?_,?_,lbaAt_le (by omega) hks h0 hin'⟩,fun hlt hlast => ?_⟩
      · have := Nat.mod_lt j h0
        omega
      · rcases hin' with hlt | hlt
        · rw [Nat.div_eq_of_lt hlt]
          exact Nat.zero_le _
        · omega
      · have hle1 : (j + 1) / g.top ≤ (m - 1) / g.top := Nat.div_le_div_right (by omega)
        have hdvd := Nat.le_of_dvd (Nat.succ_pos j) (Nat.dvd_of_mod_eq_zero hlast.1)
        omega

/-! ## Which kernels are loaded -/

/-- The kernel starts in the first track, the passes reach its end and can all be read, and
none of those with the kernel is behind the head where the loader turns to the next cylinder.
For an empty kernel the one pass has to be readable. -/
def Geometry.Loadable (g : Geometry) (kblk kb : ℕ) : Prop :=
  2 ≤ g.S ∧ if kb = 0 then g.Readable (256 * ((2 * kblk + 2) % 256 / 64)) 0 ((2 * kblk + 2) % 256 % 64) g.S
  else 2 * kblk + 1 < g.S ∧ 2 * kb ≤ g.S * passes g.S (2 * kb) ∧ g.Passes (2 * kblk + 1) (passes g.S (2 * kb)) ∧
    (g.top = 0 ∨ 2 * kb ≤ g.S * g.top)

instance (g : Geometry) (kblk kb : ℕ) : Decidable (g.Loadable kblk kb) := inferInstanceAs (Decidable (_ ∧ ite _ _ _))

theorem passes_le {S : ℕ} (hS : 1 ≤ S) (hn : n ≤ 1024) : passes S n ≤ 129 := by
  rw [passes]
  split
  · decide
  split
  · rename_i h8
    have hle : n / S ≤ n / 8 := Nat.div_le_div_left (by omega) (by decide)
    omega
  · split <;> decide
  all_goals decide

theorem loadsKernel_iff {kblk kb : UInt16} (hsb : Says disk kblk kb) (hkb : kb.toNat ≤ 512) (h3 : 3 ≤ g.total) :
    LoadsKernel g disk mem kblk.toNat kb.toNat ↔ 2 ≤ g.S ∧
      (∀ j < passes g.S (2 * kb.toNat), g.OkAt (2 * kblk.toNat + 1) (passes g.S (2 * kb.toNat)) j) ∧
      ∀ i < 2 * kb.toNat, ∀ x < 512, memAt g disk (2 * kblk.toNat + 1) (load disk 1 2 0x7E00 mem)
        (passes g.S (2 * kb.toNat)) (65536 + 512 * i + x) = disk (2 * kblk.toNat + 1 + i) x := by
  have hcounts := passes_counts (n := 2 * kb.toNat) g.S_pos g.S_le (by omega)
  have hle := passes_le (n := 2 * kb.toNat) g.S_pos (by omega)
  simp only [LoadsKernel,bootHdd_eq hsb]
  by_cases hS : 2 ≤ g.S
  · simp only [hS,h3,and_self,if_true,true_and]
    exact copyLoop_iff hcounts hle (by omega)
      (P := fun mem' => ∀ i < 2 * kb.toNat, ∀ x < 512, mem' (65536 + 512 * i + x) = disk (2 * kblk.toNat + 1 + i) x)
  · simp [hS]

theorem okAt_single : (∀ j < passes g.S 0, g.OkAt ks (passes g.S 0) j) ↔
    g.Readable (256 * ((ks + 1) % 256 / 64)) 0 ((ks + 1) % 256 % 64) g.S := by
  have hone : passes g.S 0 = 1 := if_pos g.S_pos
  have hread : g.ReadsAt ks 0 ↔ g.Readable (256 * ((ks + 1) % 256 / 64)) 0 ((ks + 1) % 256 % 64) g.S := by
    rw [Geometry.ReadsAt,Geometry.cylAt,clAt_eq (by decide),Nat.zero_div,Nat.zero_mod,Nat.zero_mod,Nat.zero_add]
  rw [hone,← hread]
  constructor
  · exact fun h => (h 0 Nat.one_pos).1
  · intro h j hj
    obtain rfl : j = 0 := by omega
    exact ⟨h,fun hlt => absurd hlt (Nat.lt_irrefl 1)⟩

/-- A first pass that reads the kernel's first sector reads it from the first track. -/
theorem start_lt (hread : g.ReadsAt ks 0) (hlba : g.lbaAt ks 0 = ks) : ks < g.S := by
  obtain ⟨hpos,hle,-⟩ := hread
  rw [Geometry.lbaAt,Geometry.lba,Geometry.cylAt] at hlba
  rw [clAt_eq (by decide)] at hpos hle hlba
  simp only [Nat.zero_div,Nat.zero_mod,Nat.zero_add,Nat.add_zero] at hlba
  rw [Nat.mul_assoc,Nat.mul_assoc] at hlba
  generalize hX : (ks + 1) % 256 / 64 * ((g.maxHead + 1) * g.S) = X at hlba
  have hz : (ks + 1) % 256 / 64 = 0 := by omega
  rw [hz,Nat.zero_mul] at hX
  omega

def tagged (kblk kb : UInt16) : Disk := fun i =>
  put (put (fun _ => 0) 8 (le32 i.toUInt32)) 4 (if i = 1 then le16 kblk ++ le16 kb else [])

theorem tagged_super (kblk kb : UInt16) : Says (tagged kblk kb) kblk kb := by
  have h : At (tagged kblk kb 1) 4 (le16 kblk ++ le16 kb) := at_put
  obtain ⟨h4,h6⟩ := at_append.mp h
  exact ⟨get16_of_at h4,get16_of_at h6⟩

theorem tagged_tag (kblk kb : UInt16) (i : ℕ) : get32 (tagged kblk kb i) 8 = i.toUInt32 := by
  have hlen : (if i = 1 then le16 kblk ++ le16 kb else []).length ≤ 4 := by
    split
    · exact Nat.le_refl 4
    · exact Nat.zero_le 4
  rw [tagged,get32_put (Or.inr (by omega))]
  exact get32_of_at at_put

theorem tagged_zero (kblk kb : UInt16) (i : ℕ) : tagged kblk kb i 0 = 0 := by
  rw [tagged,put_frame (Or.inl (by decide)),put_frame (Or.inl (by decide))]

theorem toNat_long {a : ℕ} (h : a < 2 ^ 32) : a.toUInt32.toNat = a := UInt32.toNat_ofNat_of_lt h

theorem total_le (g : Geometry) : g.total ≤ 1024 * 256 * 63 :=
  Nat.mul_le_mul (Nat.mul_le_mul (Nat.succ_le_succ g.cyl_le) (Nat.succ_le_succ g.head_le)) g.S_le

/-- Where the tagged sectors arrive, the passes are long enough and in order. -/
theorem tagged_loaded {kblk kb : UInt16} {i : ℕ} (hok : ∀ j < m, g.OkAt ks m j) (hks : ks + i < g.total)
    (hmem : ∀ x < 512, memAt g (tagged kblk kb) ks (load (tagged kblk kb) 1 2 0x7E00 (fun _ => 1)) m
      (65536 + 512 * i + x) = tagged kblk kb (ks + i) x) : i < g.S * m ∧ g.lbaAt ks (i / g.S) + i % g.S = ks + i := by
  have hS := g.S_pos
  have htotal := total_le g
  have hi : i < g.S * m := by
    by_contra hge
    have h0 := hmem 0 (by decide)
    rw [memAt_above (by omega),load,if_neg (by omega),tagged_zero] at h0
    exact absurd h0 (by decide)
  have hj : i / g.S < m := Nat.div_lt_of_lt_mul hi
  obtain ⟨-,-,-,-,hread⟩ := (hok _ hj).1
  have hsame : get32 (tagged kblk kb (g.lbaAt ks (i / g.S) + i % g.S)) 8 = get32 (tagged kblk kb (ks + i)) 8 := by
    have hx : ∀ x < 512, tagged kblk kb (g.lbaAt ks (i / g.S) + i % g.S) x = tagged kblk kb (ks + i) x := by
      intro x hx
      exact (memAt_slot hi hx).symm.trans (hmem x hx)
    rw [get32,get32,hx 8 (by decide),hx 9 (by decide),hx 10 (by decide),hx 11 (by decide)]
  have hmod := Nat.mod_lt i hS
  have hlba : g.lbaAt ks (i / g.S) + i % g.S < g.total := by
    rw [Geometry.lbaAt]
    omega
  rw [tagged_tag,tagged_tag] at hsame
  have hnat := congrArg UInt32.toNat hsame
  rw [toNat_long (by omega),toNat_long (by omega)] at hnat
  exact ⟨hi,hnat⟩

theorem Geometry.Loadable.loads {kblk kb : UInt16} (h : g.Loadable kblk.toNat kb.toNat) (hkb : kb.toNat ≤ 512)
    (h3 : 3 ≤ g.total) (hsb : Says disk kblk kb) : LoadsKernel g disk mem kblk.toNat kb.toNat := by
  obtain ⟨hS,h⟩ := h
  have hm := passes_le (n := 2 * kb.toNat) g.S_pos (by omega)
  have hcounts := passes_counts (n := 2 * kb.toNat) g.S_pos g.S_le (by omega)
  rw [loadsKernel_iff hsb hkb h3]
  refine ⟨hS,?_⟩
  by_cases hz : kb.toNat = 0
  · rw [if_pos hz] at h
    rw [hz]
    exact ⟨okAt_single.mpr h,fun i hi => absurd hi (Nat.not_lt_zero i)⟩
  · rw [if_neg hz] at h
    obtain ⟨hks,hlen,hpass,htop⟩ := h
    refine ⟨(passes_iff hcounts.pos hm hks).mpr hpass,fun i hi x hx => ?_⟩
    have hin : i < g.S * passes g.S (2 * kb.toNat) := by omega
    have hj : i / g.S < passes g.S (2 * kb.toNat) := Nat.div_lt_of_lt_mul hin
    have hS' := g.S_le
    have hlba : g.lbaAt (2 * kblk.toNat + 1) (i / g.S) = 2 * kblk.toNat + 1 + i / g.S * g.S := by
      refine (lbaAt_order (by omega) (by omega)).mpr (htop.imp_right (fun hle => ?_))
      exact Nat.div_lt_of_lt_mul (Nat.lt_of_lt_of_le hi hle)
    rw [memAt_slot hin hx,hlba,Nat.add_assoc,Nat.div_add_mod']

theorem loadable_of_tagged {kblk kb : UInt16} (hkb : kb.toNat ≤ 512) (h3 : 3 ≤ g.total)
    (hfit : 2 * kblk.toNat + 1 + 2 * kb.toNat ≤ g.total)
    (h : LoadsKernel g (tagged kblk kb) (fun _ => 1) kblk.toNat kb.toNat) : g.Loadable kblk.toNat kb.toNat := by
  have hm := passes_le (n := 2 * kb.toNat) g.S_pos (by omega)
  have hcounts := passes_counts (n := 2 * kb.toNat) g.S_pos g.S_le (by omega)
  obtain ⟨hS,hok,hmem⟩ := (loadsKernel_iff (tagged_super kblk kb) hkb h3).mp h
  refine ⟨hS,?_⟩
  by_cases hz : kb.toNat = 0
  · rw [if_pos hz]
    rw [hz] at hok
    exact okAt_single.mp hok
  · rw [if_neg hz]
    have harrive : ∀ i < 2 * kb.toNat, i < g.S * passes g.S (2 * kb.toNat) ∧
        g.lbaAt (2 * kblk.toNat + 1) (i / g.S) + i % g.S = 2 * kblk.toNat + 1 + i :=
      fun i hi => tagged_loaded hok (by omega) (hmem i hi)
    have hfirst := (harrive 0 (by omega)).2
    rw [Nat.zero_div,Nat.zero_mod] at hfirst
    have hks := start_lt (hok 0 hcounts.pos).1 hfirst
    obtain ⟨hlast,hlba⟩ := harrive (2 * kb.toNat - 1) (by omega)
    have hS' := g.S_le
    refine ⟨hks,by omega,(passes_iff hcounts.pos hm hks).mp hok,?_⟩
    have hj : (2 * kb.toNat - 1) / g.S < passes g.S (2 * kb.toNat) := Nat.div_lt_of_lt_mul hlast
    have hdm := Nat.div_add_mod' (2 * kb.toNat - 1) g.S
    have horder : g.top = 0 ∨ (2 * kb.toNat - 1) / g.S < g.top :=
      (lbaAt_order (by omega) (show 2 * kblk.toNat + 1 < 63 by omega)).mp (by omega)
    refine horder.imp_right (fun hlt => ?_)
    have := Nat.lt_mul_of_div_lt hlt g.S_pos
    rw [Nat.mul_comm g.top] at this
    omega

/-- The boot loader loads the kernel of every disk with the given geometry and super block
exactly in the cases above. The image builder stores the kernel where it is loaded from. -/
theorem kernel_loaded_iff (g : Geometry) (kblk kb : UInt16) (hkb : kb.toNat ≤ 512) (h3 : 3 ≤ g.total)
    (hfit : 2 * kblk.toNat + 1 + 2 * kb.toNat ≤ g.total) :
    ((∀ disk mem, Says disk kblk kb → LoadsKernel g disk mem kblk.toNat kb.toNat) ↔
      g.Loadable kblk.toNat kb.toNat) ∧
    ∀ im : Mkmfs.Image, ∀ i < 2 * Mkmfs.NKBLK, ∀ x < 512,
      Mkmfs.mfsEnd im (512 * (2 * Mkmfs.mfsNew.sblk.kblk.toNat + 1 + i) + x) = im.kern (512 * i + x) := by
  refine ⟨⟨fun h => ?_,fun h disk mem hsb => h.loads hkb h3 hsb⟩,fun im i hi x hx => ?_⟩
  · exact loadable_of_tagged hkb h3 hfit (h _ _ (tagged_super kblk kb))
  · have haddr : 512 * (2 * Mkmfs.mfsNew.sblk.kblk.toNat + 1 + i) + x = 512 + Mkmfs.MFS_BLKSIZE + (512 * i + x) := by
      rw [show Mkmfs.mfsNew.sblk.kblk.toNat = 1 from rfl,show Mkmfs.MFS_BLKSIZE = 1024 from rfl]
      omega
    rw [haddr]
    refine Mkmfs.mfsEnd_kern im ?_
    simp only [Mkmfs.NKBLK,Mkmfs.MFS_BLKSIZE] at hi ⊢
    omega

/-- Tracks of eight sectors and a kernel of 60 blocks. -/
theorem kernel_loaded_small :
    LoadsKernel ⟨8,15,100,by decide,by decide,by decide,by decide⟩ (tagged 1 60) (fun _ => 1) 1 60 :=
  (kernel_loaded_iff ⟨8,15,100,by decide,by decide,by decide,by decide⟩ 1 60 (by decide) (by decide) (by decide)).1.mpr
    (by decide +kernel) _ _ (tagged_super 1 60)

def usual : Geometry := ⟨63,15,1023,by decide,by decide,by decide,by decide⟩

/-- With tracks of 63 sectors and the kernel size of the image builder, the copy ends after
four tracks, and what is behind them in memory stays as it was. -/
theorem usual_kernel_cut : ¬ LoadsKernel usual (tagged 1 512) (fun _ => 1) 1 512 ∧
    ∀ disk mem, Says disk 1 512 → ∃ fuel v mem', bootHdd usual disk fuel mem = .returned v mem' ∧
      ∀ i, 252 ≤ i → ∀ x, mem' (65536 + 512 * i + x) = mem (65536 + 512 * i + x) := by
  refine ⟨fun h => ?_,fun disk mem hsb => ?_⟩
  · exact absurd (show usual.Loadable 1 512 from
      loadable_of_tagged (by decide) (by decide) (by decide) h) (by decide +kernel)
  · have hcounts : Counts usual.S 1024 4 := passes_counts (by decide) (by decide) (by decide)
    have hok : ∀ j < 4, usual.OkAt 3 4 j := (passes_iff (by decide) (by decide) (by decide)).mpr (by decide)
    have hrun : bootHdd usual disk 4 mem =
        .returned (varsAt usual 3 1024 3) (memAt usual disk 3 (load disk 1 2 0x7E00 mem) 4) := by
      rw [bootHdd_eq hsb,if_pos ⟨by decide,by decide⟩]
      exact copyLoop_returns hcounts (by decide) (by decide) hok
    refine ⟨4,_,_,hrun,fun i hi x => ?_⟩
    rw [memAt_above hi,load,if_neg (by omega)]

end Micron.Boot

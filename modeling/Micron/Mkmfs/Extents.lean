import Micron.Mkmfs.Forest

/-! # The data blocks of the files

Blocks are taken one by one, each the first free one, and a file records the last of its
blocks minus their number plus one as its first. Nothing is ever freed, so the used
blocks stay a prefix and the blocks of a file are the next ones.
-/
namespace Micron.Mkmfs
open Function Bytes Linked
variable {im im' : Image} {clock : ℕ → UInt32} {path name buff data : List UInt8} {k u p d a : ℕ} {c : Call}

/-- The blocks of a file start where the used blocks ended. -/
theorem blkentry_eq {r : ℕ} (hr : r ≠ 0) (hu : u + r ≤ 8 * (MFS_BLKSIZE * NDBMP)) :
    ((u + r - 1).toUInt32 - r.toUInt32 + 1).toNat = u := by
  change u + r ≤ 8192 at hu
  simp only [Nat.toUInt32_eq,UInt32.toNat_add,UInt32.toNat_sub,UInt32.toNat_ofNat',UInt32.toNat_one]
  omega

theorem le_dblkr (size : ℕ) : size ≤ dblkr size * MFS_BLKSIZE := by
  unfold dblkr MFS_BLKSIZE
  split <;> omega

theorem dblkr_ne_zero (h : data ≠ []) : dblkr data.length ≠ 0 := by
  intro h0
  have hsize := le_dblkr data.length
  rw [h0,Nat.zero_mul] at hsize
  exact h (List.length_eq_zero_iff.mp (Nat.le_zero.mp hsize))

/-- Data copied to block `u` leaves the blocks before it alone. -/
theorem copyData_ok (dblk : ℕ → UInt8) (ha : data ≠ [] → a = u * MFS_BLKSIZE)
    (hb : u * MFS_BLKSIZE + data.length ≤ MFS_BLKSIZE * NDBLK) :
    ∃ dblk', copyData dblk a data = .ok dblk' ∧ (∀ x < u * MFS_BLKSIZE, dblk' x = dblk x) ∧
      ∀ i (h : i < data.length), dblk' (u * MFS_BLKSIZE + i) = data[i] := by
  refine ⟨fun x => if h : a ≤ x ∧ x < a + data.length then data[x - a] else dblk x,?_,?_,?_⟩
  · rw [copyData,if_neg]
    rintro ⟨hne,hlt⟩
    rw [ha hne] at hlt
    omega
  · intro x hx
    dsimp only
    rw [dif_neg]
    rintro ⟨h1,h2⟩
    have hne : data ≠ [] := by
      rintro rfl
      simp only [List.length_nil] at h2
      omega
    rw [ha hne] at h1
    omega
  · intro i hi
    have hne : data ≠ [] := List.ne_nil_of_length_pos (Nat.zero_lt_of_lt hi)
    obtain rfl := ha hne
    dsimp only
    rw [dif_pos ⟨Nat.le_add_right _ _,Nat.add_lt_add_left hi _⟩]
    simp

def lastBlock (u r : ℕ) : ℕ := if r = 0 then 0 else u + r - 1

section Entry
variable (hu : u + dblkr data.length ≤ 8 * (MFS_BLKSIZE * NDBMP))
include hu

/-- An empty file gets entry block 1, but no byte is stored there. -/
theorem regInode_blkentry (hne : data ≠ []) :
    (regInode clock im name data k p (lastBlock u (dblkr data.length))).blkentry.toNat = u := by
  rw [lastBlock,if_neg (dblkr_ne_zero hne)]
  exact blkentry_eq (dblkr_ne_zero hne) hu

theorem regInode_addr (clock : ℕ → UInt32) (im : Image) (name : List UInt8) (k p : ℕ) (hne : data ≠ []) :
    ((regInode clock im name data k p (lastBlock u (dblkr data.length))).blkentry * MFS_BLKSIZE.toUInt32).toNat =
      u * MFS_BLKSIZE := by
  rw [UInt32.toNat_mul,regInode_blkentry hu hne]
  change u * 1024 % 2 ^ 32 = u * 1024
  change u + dblkr data.length ≤ 8192 at hu
  omega

end Entry

theorem data_fits (hu : u + dblkr data.length ≤ NDBLK) : u * MFS_BLKSIZE + data.length ≤ MFS_BLKSIZE * NDBLK := by
  have hsize := le_dblkr data.length
  have hbound : (u + dblkr data.length) * MFS_BLKSIZE ≤ MFS_BLKSIZE * NDBLK := by
    rw [Nat.mul_comm MFS_BLKSIZE]
    exact Nat.mul_le_mul_right _ hu
  rw [Nat.add_mul] at hbound
  omega

/-- What a successful `mfs_write` does to the records and the data. -/
theorem write_data (h : Forest im k) (hf : Front im.dbmp (MFS_BLKSIZE * NDBMP) u)
    (hu : u + dblkr data.length ≤ NDBLK) (hc : mfsWrite clock path name data im = .ok im') :
    ∃ p ≤ k, mfsIget im path = .ok (some p) ∧
      Adds im im' (k + 1) p (regInode clock im name data (k + 1) p (lastBlock u (dblkr data.length))) ∧
      Front im'.dbmp (MFS_BLKSIZE * NDBMP) (u + dblkr data.length) ∧
      (∀ x < u * MFS_BLKSIZE, im'.dblk x = im.dblk x) ∧
      ∀ i (h : i < data.length), im'.dblk (u * MFS_BLKSIZE + i) = data[i] := by
  obtain ⟨p,hp,d,hget,halloc,hcopy,-,ha⟩ := h.write hc
  obtain ⟨bmp,halloc',hfront⟩ := hf.allocBlocks (r := dblkr data.length) (d := 0) (Nat.le_trans hu (by decide))
  have hd : (d,im'.dbmp) = (lastBlock u (dblkr data.length),bmp) := Except.ok.inj (halloc.symm.trans halloc')
  obtain ⟨rfl,rfl⟩ := Prod.mk.inj hd
  obtain ⟨dblk,hcopy',hlow,hdata⟩ := copyData_ok im.dblk
    (regInode_addr (Nat.le_trans hu (by decide)) clock im name (k + 1) p) (data_fits hu)
  obtain rfl : im'.dblk = dblk := Except.ok.inj (hcopy.symm.trans hcopy')
  exact ⟨p,hp,hget,ha,hfront,hlow,hdata⟩

/-! ## Every sequence of calls -/

def Call.need : Call → ℕ
  | .mkdir _ _ => 0
  | .write _ _ buff => dblkr buff.length

def Call.bytes : Call → List UInt8
  | .mkdir _ _ => []
  | .write _ _ buff => buff

def needs (calls : List Call) : ℕ := (calls.map Call.need).sum

def Image.Extent (im : Image) (n b : ℕ) : Prop :=
  (im.iblk n).blkentry.toNat ≤ b ∧ b < (im.iblk n).blkentry.toNat + (im.iblk n).blocks.toNat

/-- The record of the call after `pre`: it has the next blocks, and they hold its bytes. -/
structure Holds (im : Image) (pre : List Call) (c : Call) : Prop where
  blocks : (im.iblk (pre.length + 1)).blocks.toNat = c.need
  entry : c.bytes ≠ [] → (im.iblk (pre.length + 1)).blkentry.toNat = needs pre
  data : ∀ i (h : i < c.bytes.length), im.dblk ((im.iblk (pre.length + 1)).blkentry.toNat * MFS_BLKSIZE + i) = c.bytes[i]

theorem needs_concat (pre : List Call) : needs (pre ++ [c]) = needs pre + c.need := by
  simp [needs]

theorem Call.need_eq_zero (h : c.bytes = []) : c.need = 0 := by
  cases c with
  | mkdir => rfl
  | write path name buff =>
    obtain rfl : buff = [] := h
    rfl

/-- The blocks of the record are the ones from `needs pre` on. -/
theorem Holds.extent {pre : List Call} (h : Holds im pre c) {b : ℕ} :
    im.Extent (pre.length + 1) b ↔ needs pre ≤ b ∧ b < needs pre + c.need := by
  rw [Image.Extent,h.blocks]
  by_cases hd : c.bytes = []
  · rw [Call.need_eq_zero hd]
    omega
  · rw [h.entry hd]

theorem bytes_le (c : Call) : c.bytes.length ≤ c.need * MFS_BLKSIZE := by
  cases c with
  | mkdir => exact Nat.zero_le _
  | write path name buff => exact le_dblkr buff.length

theorem Holds.data_lt {pre : List Call} (h : Holds im pre c) {i : ℕ} (hi : i < c.bytes.length) :
    (im.iblk (pre.length + 1)).blkentry.toNat * MFS_BLKSIZE + i < (needs pre + c.need) * MFS_BLKSIZE := by
  have hle := bytes_le c
  rw [h.entry (List.ne_nil_of_length_pos (Nat.zero_lt_of_lt hi)),Nat.add_mul]
  omega

theorem needs_mono {pre calls : List Call} (h : pre <+: calls) : needs pre ≤ needs calls := by
  obtain ⟨r,rfl⟩ := h
  simp [needs]

/-- Records that exist keep their blocks. -/
theorem Adds.extent {ip : Inode} (h : Adds im im' (k + 1) p ip) {i : ℕ} (hi : i ≤ k) :
    (im'.iblk i).blocks = (im.iblk i).blocks ∧ (im'.iblk i).blkentry = (im.iblk i).blkentry := by
  by_cases hip : i = p
  · rw [hip,h.parent]
    exact ⟨rfl,rfl⟩
  · rw [h.other i (by omega) hip]
    exact ⟨rfl,rfl⟩

/-- The image after `calls`: the used blocks are a prefix, and every record holds its bytes. -/
structure Filled (im : Image) (calls : List Call) : Prop where
  forest : Forest im calls.length
  front : Front im.dbmp (MFS_BLKSIZE * NDBMP) (needs calls)
  holds : ∀ pre c, pre ++ [c] <+: calls → Holds im pre c

theorem Holds.keep {ip : Inode} {pre calls : List Call} (h : Holds im pre c) (hpre : pre ++ [c] <+: calls)
    (ha : Adds im im' (calls.length + 1) p ip) (hd : ∀ x < needs calls * MFS_BLKSIZE, im'.dblk x = im.dblk x) :
    Holds im' pre c := by
  have hlen := hpre.length_le
  rw [List.length_append,List.length_singleton] at hlen
  obtain ⟨hb,he⟩ := ha.extent hlen
  refine ⟨hb ▸ h.blocks,he ▸ h.entry,fun i hi => ?_⟩
  have hlt := h.data_lt hi
  have hle : (needs pre + c.need) * MFS_BLKSIZE ≤ needs calls * MFS_BLKSIZE := by
    rw [← needs_concat]
    exact Nat.mul_le_mul_right _ (needs_mono hpre)
  rw [he,hd _ (Nat.lt_of_lt_of_le hlt hle)]
  exact h.data i hi

/-- One call keeps the extents of the others and adds its own. -/
theorem Filled.call {calls : List Call} (h : Filled im calls) (hn : needs calls + c.need ≤ NDBLK)
    (hc : callStep clock im c = some im') : Filled im' (calls ++ [c]) := by
  have hforest := (h.forest.call hc).1
  obtain ⟨p,ip,ha,hfront,hlow,hnew⟩ : ∃ p ip, Adds im im' (calls.length + 1) p ip ∧
      Front im'.dbmp (MFS_BLKSIZE * NDBMP) (needs calls + c.need) ∧
      (∀ x < needs calls * MFS_BLKSIZE, im'.dblk x = im.dblk x) ∧ Holds im' calls c := by
    cases c with
    | mkdir path name =>
      have hok := toOption_some.mp hc
      obtain ⟨p,-,-,-,ha⟩ := h.forest.mkdir hok
      obtain ⟨-,q,i,-,-,him⟩ := mfsMkdir_ok_iff.mp hok
      refine ⟨p,_,ha,by rw [him]; exact h.front,fun _ _ => by rw [him]; rfl,?_,fun hne => absurd rfl hne,?_⟩
      · rw [ha.new]
        rfl
      · exact fun i hi => absurd hi (Nat.not_lt_zero i)
    | write path name buff =>
      obtain ⟨p,-,-,ha,hfront,hlow,hdata⟩ := write_data h.forest h.front hn (toOption_some.mp hc)
      have hentry : buff ≠ [] → (im'.iblk (calls.length + 1)).blkentry.toNat = needs calls := by
        rw [ha.new]
        exact regInode_blkentry (Nat.le_trans hn (by decide))
      refine ⟨p,_,ha,hfront,hlow,?_,hentry,fun i hi => ?_⟩
      · rw [ha.new]
        exact Nat.mod_eq_of_lt (Nat.lt_of_le_of_lt (Nat.le_trans (Nat.le_add_left _ _) hn) (by decide))
      · rw [hentry (List.ne_nil_of_length_pos (Nat.zero_lt_of_lt hi))]
        exact hdata i hi
  refine ⟨by simpa using hforest,by rw [needs_concat]; exact hfront,fun pre e hpre => ?_⟩
  rcases Runs.prefix_concat_cases hpre with hpre | ⟨rfl,rfl⟩
  · exact (h.holds pre e hpre).keep hpre ha hlow
  · exact hnew

theorem new_filled : Filled mfsNew [] := by
  refine ⟨new_forest,fun n _ => ?_,fun pre c h => ?_⟩
  · change Bits.get (fun _ => 0) n = _
    simp [needs]
  · exact absurd (List.prefix_nil.mp h) (by simp)

theorem callRun_filled {calls : List Call} (h : callRun clock calls = some im) (hn : needs calls ≤ NDBLK) :
    Filled im calls := by
  refine Runs.run_inv (P := fun pre im => Filled im pre) new_filled ?_ h
  intro pre im c im' hpre hf hc
  refine hf.call ?_ hc
  rw [← needs_concat]
  exact Nat.le_trans (needs_mono hpre) hn

theorem prefix_of_le {calls : List Call} {i : ℕ} (hi : 0 < i) (hle : i ≤ calls.length) :
    ∃ pre c, pre ++ [c] <+: calls ∧ pre.length + 1 = i := by
  obtain ⟨i,rfl⟩ := Nat.exists_eq_add_one.mpr hi
  refine ⟨calls.take i,calls[i],?_,by rw [List.length_take,Nat.min_eq_left (Nat.le_of_succ_le hle)]⟩
  rw [List.take_append_getElem]
  exact List.take_prefix _ _

/-- For every sequence of successful calls that needs at most `NDBLK` data blocks in total:
after each call exactly the blocks needed so far are marked, a call marks the blocks of
its own record, the blocks of different records are disjoint, and the bytes of every
file are still in its blocks in the end. -/
theorem mkmfs_extents (clock : ℕ → UInt32) (calls : List Call) (im : Image) (h : callRun clock calls = some im)
    (hn : needs calls ≤ NDBLK) :
    (∀ pre im₁, pre <+: calls → callRun clock pre = some im₁ →
      ∀ b < 8 * (MFS_BLKSIZE * NDBMP), Bits.get im₁.dbmp b = true ↔ b < needs pre) ∧
    (∀ pre c im₁ im₂, pre ++ [c] <+: calls → callRun clock pre = some im₁ → callRun clock (pre ++ [c]) = some im₂ →
      ∀ b < 8 * (MFS_BLKSIZE * NDBMP),
        Bits.get im₁.dbmp b = false ∧ Bits.get im₂.dbmp b = true ↔ im₂.Extent (pre.length + 1) b) ∧
    (∀ i j b, 0 < i → i < j → j ≤ calls.length → im.Extent i b → ¬ im.Extent j b) ∧
    ∀ pre path name buff, pre ++ [.write path name buff] <+: calls → ∀ i (hi : i < buff.length),
      im.dblk ((im.iblk (pre.length + 1)).blkentry.toNat * MFS_BLKSIZE + i) = buff[i] := by
  have hfilled : ∀ pre im₁, pre <+: calls → callRun clock pre = some im₁ → Filled im₁ pre :=
    fun pre im₁ hpre h₁ => callRun_filled h₁ (Nat.le_trans (needs_mono hpre) hn)
  have hf := callRun_filled h hn
  refine ⟨?_,?_,?_,?_⟩
  · intro pre im₁ hpre h₁ b hb
    rw [(hfilled pre im₁ hpre h₁).front b hb,decide_eq_true_eq]
  · intro pre c im₁ im₂ hpre h₁ h₂ b hb
    have hf₁ := hfilled pre im₁ ((List.prefix_append pre [c]).trans hpre) h₁
    have hf₂ := hfilled _ im₂ hpre h₂
    rw [(hf₂.holds pre c (List.prefix_refl _)).extent,hf₁.front b hb,hf₂.front b hb,needs_concat]
    simp
  · intro i j b hi hij hj hbi hbj
    obtain ⟨pre,c,hpre,rfl⟩ := prefix_of_le hi (Nat.le_trans (Nat.le_of_lt hij) hj)
    obtain ⟨pre',c',hpre',rfl⟩ := prefix_of_le (Nat.lt_trans hi hij) hj
    rw [(hf.holds pre c hpre).extent] at hbi
    rw [(hf.holds pre' c' hpre').extent] at hbj
    -- the earlier call and its need are counted in front of the later one
    have hle : needs pre + c.need ≤ needs pre' := by
      rw [← needs_concat]
      refine needs_mono (List.prefix_of_prefix_length_le hpre ((List.prefix_append pre' [c']).trans hpre') ?_)
      rw [List.length_append,List.length_singleton]
      omega
    omega
  · exact fun pre path name buff hpre => (hf.holds pre _ hpre).data

/-- Two files with an empty one between them. -/
theorem mkmfs_extents_two : ∃ im,
    callRun (fun _ => 0) [.write [slash] [97] [1,2,3],.write [slash] [98] [],.write [slash] [99] [4]] = some im ∧
      needs [.write [slash] [97] [1,2,3],.write [slash] [98] [],.write [slash] [99] [4]] ≤ NDBLK ∧
      ∀ i (hi : i < [1,2,3].length), im.dblk ((im.iblk 1).blkentry.toNat * MFS_BLKSIZE + i) = [1,2,3][i] := by
  have hrun : (callRun (fun _ => 0)
      [.write [slash] [97] [1,2,3],.write [slash] [98] [],.write [slash] [99] [4]]).isSome := by
    decide +kernel
  obtain ⟨im,him⟩ := Option.isSome_iff_exists.mp hrun
  have hn : needs [.write [slash] [97] [1,2,3],.write [slash] [98] [],.write [slash] [99] [4]] ≤ NDBLK := by decide
  exact ⟨im,him,hn,(mkmfs_extents _ _ im him hn).2.2.2 [] [slash] [97] [1,2,3] ⟨_,rfl⟩⟩

end Micron.Mkmfs

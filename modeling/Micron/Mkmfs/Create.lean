import Mathlib.Data.Nat.Find
import Micron.Lib.Linked
import Micron.Mkmfs.Image

/-! # The pieces of an inode creation

The bitmaps of the builder are filled from the front, since nothing is ever freed. A
search then finds the first bit after the used ones. Child lists are read along
`i_next` with index 0 as the null link.
-/
namespace Micron.Mkmfs
open Function Bytes Linked
variable {bmp : ℕ → UInt8} {b : UInt8} {im : Image} {l : List ℕ} {ent : List UInt8} {len u p q hi : ℕ}

/-! ## Searching a bitmap -/

def Front (bmp : ℕ → UInt8) (len u : ℕ) : Prop := ∀ n < 8 * len, Bits.get bmp n = decide (n < u)

theorem seekBit_spec (hb : b ≠ 0xff) : ∃ j < 8, seekBit 8 (~~~ b).toNat 0 = .ok j ∧
    Bits.bit b j = false ∧ ∀ l < j, Bits.bit b l = true := by
  revert b
  apply Bits.forall_byte
  decide +kernel

theorem seekByte_found {cnt s : ℕ} (hfull : ∀ i, s ≤ i → i < q → bmp i = 0xff) (hq : bmp q ≠ 0xff)
    (hs : s ≤ q) (hlen : q < len) (hcnt : q - s < cnt) : seekByte bmp len cnt s = .ok (some q) := by
  induction cnt generalizing s with
  | zero => omega
  | succ cnt ih =>
    rw [seekByte,if_neg (by omega)]
    by_cases he : s = q
    · subst he
      rw [if_pos hq]
    · rw [if_neg (by simpa using hfull s (Nat.le_refl s) (by omega))]
      exact ih (fun i hi => hfull i (by omega)) (by omega) (by omega)

theorem seekByte_none {cnt s : ℕ} (hfull : ∀ i, s ≤ i → i < s + cnt → bmp i = 0xff) (hlen : s + cnt ≤ len) :
    seekByte bmp len cnt s = .ok none := by
  induction cnt generalizing s with
  | zero => rfl
  | succ cnt ih =>
    rw [seekByte,if_neg (by omega),if_neg (by simpa using hfull s (Nat.le_refl s) (by omega))]
    exact ih (fun i hi hi' => hfull i (by omega) (by omega)) (by omega)

/-- The byte loop stops at the first byte with a clear bit. -/
theorem seekByte_spec (bmp : ℕ → UInt8) {cnt s : ℕ} (hlen : s + cnt ≤ len) :
    (∃ q, s ≤ q ∧ q < s + cnt ∧ bmp q ≠ 0xff ∧ (∀ i, s ≤ i → i < q → bmp i = 0xff) ∧
      seekByte bmp len cnt s = .ok (some q)) ∨
    ((∀ i, s ≤ i → i < s + cnt → bmp i = 0xff) ∧ seekByte bmp len cnt s = .ok none) := by
  by_cases hall : ∃ i, s ≤ i ∧ i < s + cnt ∧ bmp i ≠ 0xff
  · have hfull : ∀ i, s ≤ i → i < Nat.find hall → bmp i = 0xff := by
      intro i hi hlt
      have hmin := Nat.find_min hall hlt
      have hlast := (Nat.find_spec hall).2.1
      by_contra hb
      exact hmin ⟨hi,by omega,hb⟩
    obtain ⟨hs,hcnt,hb⟩ := Nat.find_spec hall
    exact .inl ⟨_,hs,hcnt,hb,hfull,seekByte_found hfull hb hs (by omega) (by omega)⟩
  · have hfull : ∀ i, s ≤ i → i < s + cnt → bmp i = 0xff := fun i hi hlt => by
      by_contra hb
      exact hall ⟨i,hi,hlt,hb⟩
    exact .inr ⟨hfull,seekByte_none hfull hlen⟩

/-- Between whole bytes the search returns the least clear bit, or nothing when there is none. -/
theorem mfsSeekbmp_spec (bmp : ℕ → UInt8) {lo : ℕ} (hlo : lo % 8 = 0) (hhi : hi % 8 = 0) (hlen : hi ≤ 8 * len) :
    (∃ i, IsLeast {k | lo ≤ k ∧ k < hi ∧ Bits.get bmp k = false} i ∧ mfsSeekbmp bmp len lo hi = .ok (some i)) ∨
    ((∀ k, lo ≤ k → k < hi → Bits.get bmp k = true) ∧ mfsSeekbmp bmp len lo hi = .ok none) := by
  by_cases hle : hi ≤ lo
  · refine .inr ⟨fun k hk hk' => by omega,?_⟩
    simp only [mfsSeekbmp,show hi / 8 - lo / 8 = 0 by omega,seekByte,bind,Except.bind]
    rfl
  rcases seekByte_spec bmp (show lo / 8 + (hi / 8 - lo / 8) ≤ len by omega) with
    ⟨q,hs,hcnt,hb,hfull,hbyte⟩ | ⟨hfull,hbyte⟩
  · obtain ⟨j,hj,hseek,hbit,hlow⟩ := seekBit_spec hb
    obtain ⟨hclear,hset⟩ := Bits.first_clear_from hfull hj hbit hlow
    refine .inl ⟨j + q * 8,⟨⟨by omega,by omega,hclear⟩,?_⟩,?_⟩
    · rintro k ⟨hk,-,hget⟩
      by_contra hlt
      rw [hset k (by omega) (by omega)] at hget
      cases hget
    · simp only [mfsSeekbmp,hbyte,bind,Except.bind,hseek]
      rfl
  · refine .inr ⟨fun k hk hk' => Bits.get_of_full (hfull _ (by omega) (by omega)),?_⟩
    simp only [mfsSeekbmp,hbyte,bind,Except.bind]
    rfl

/-- The bit loop ends within its byte, and the search returns the least clear bit of the
range if there is one and fails if there is none. -/
theorem seekbmp_least (bmp : ℕ → UInt8) (len lo hi : ℕ) (hlo : lo % 8 = 0) (hhi : hi % 8 = 0) (hlen : hi ≤ 8 * len) :
    (∀ b : UInt8, b ≠ 0xff → ∃ j < 8, seekBit 8 (~~~ b).toNat 0 = .ok j) ∧
    (∀ i, mfsSeekbmp bmp len lo hi = .ok (some i) ↔ IsLeast {k | lo ≤ k ∧ k < hi ∧ Bits.get bmp k = false} i) ∧
    (mfsSeekbmp bmp len lo hi = .ok none ↔ ∀ k, lo ≤ k → k < hi → Bits.get bmp k = true) := by
  refine ⟨fun b hb => (seekBit_spec hb).imp fun j hj => ⟨hj.1,hj.2.1⟩,?_⟩
  rcases mfsSeekbmp_spec bmp hlo hhi hlen with ⟨i,hleast,hseek⟩ | ⟨hall,hseek⟩
  · rw [hseek]
    refine ⟨fun k => ⟨fun h => ?_,fun h => by rw [hleast.unique h]⟩,⟨nofun,fun h => ?_⟩⟩
    · cases h
      exact hleast
    · obtain ⟨hk,hk',hget⟩ := hleast.1
      rw [h i hk hk'] at hget
      cases hget
  · rw [hseek]
    refine ⟨fun k => ⟨nofun,fun h => ?_⟩,⟨fun _ => hall,fun _ => rfl⟩⟩
    obtain ⟨hk,hk',hget⟩ := h.1
    rw [hall k hk hk'] at hget
    cases hget

theorem seekbmp_least_third : IsLeast {k | 8 ≤ k ∧ k < 24 ∧
    Bits.get (fun q => if q = 1 then 0xff else if q = 2 then 0xdf else 0) k = false} 18 :=
  ((seekbmp_least _ 3 8 24 (by decide) (by decide) (by decide)).2.1 18).mp (by rfl)

theorem Front.byte_full (h : Front bmp len u) (hq : q < u / 8) (hu : u ≤ 8 * len) : bmp q = 0xff := by
  rw [Bits.full_iff]
  intro i hi
  have := h (q * 8 + i) (by omega)
  rw [Bits.get,show (q * 8 + i) / 8 = q by omega,show (q * 8 + i) % 8 = i by omega] at this
  rw [this]
  exact decide_eq_true (by omega)

theorem Front.byte_free (h : Front bmp len u) (hu : u < 8 * len) : bmp (u / 8) ≠ 0xff := by
  intro hb
  have hget := h u hu
  rw [Bits.get_of_full hb] at hget
  simp at hget

/-- The search finds the first bit after the used ones. -/
theorem Front.seek (h : Front bmp len u) (hu : u < 8 * len) (hhi : u / 8 < hi / 8) :
    mfsSeekbmp bmp len 0 hi = .ok (some u) := by
  have hbyte : seekByte bmp len (hi / 8 - 0 / 8) (0 / 8) = .ok (some (u / 8)) :=
    seekByte_found (fun i _ hi' => h.byte_full hi' (by omega)) (h.byte_free hu) (by omega) (by omega) (by omega)
  obtain ⟨j,hj,hseek,hbit,hlow⟩ := seekBit_spec (h.byte_free hu)
  have hfirst := Bits.first_clear (m := bmp) (i := u / 8) (fun q hq => h.byte_full hq (by omega)) hj hbit hlow
  have hju : j + u / 8 * 8 = u := by
    rcases Nat.lt_trichotomy (j + u / 8 * 8) u with hlt | heq | hgt
    · have := h _ (by omega : j + u / 8 * 8 < 8 * len)
      rw [hfirst.1] at this
      simp [hlt] at this
    · exact heq
    · have := h u hu
      rw [hfirst.2 u hgt] at this
      simp at this
  simp only [mfsSeekbmp,hbyte,bind,Except.bind,hseek,hju]
  rfl

theorem Front.seek_full (h : Front bmp len (8 * len)) : mfsSeekbmp bmp len 0 (8 * len) = .ok none := by
  have hbyte : seekByte bmp len (8 * len / 8 - 0 / 8) (0 / 8) = .ok none := by
    refine seekByte_none (fun i _ hi => ?_) (by omega)
    exact h.byte_full (by omega) (by omega)
  simp only [mfsSeekbmp,hbyte,bind,Except.bind]
  rfl

theorem Front.mark (h : Front bmp len u) : Front (mfsMarkbmp bmp u true) len (u + 1) := by
  intro n hn
  rw [mfsMarkbmp,Bits.get_set]
  split
  · simp [*]
  · rw [h n hn]
    simp only [decide_eq_decide]
    omega

theorem Front.allocBlocks {r d : ℕ} (h : Front bmp (MFS_BLKSIZE * NDBMP) u) (hr : u + r ≤ 8 * (MFS_BLKSIZE * NDBMP)) :
    ∃ bmp', allocBlocks r d bmp = .ok (if r = 0 then d else u + r - 1,bmp') ∧
      Front bmp' (MFS_BLKSIZE * NDBMP) (u + r) := by
  induction r generalizing d u bmp with
  | zero => exact ⟨bmp,rfl,h⟩
  | succ r ih =>
    have hseek : mfsSeekbmp bmp (MFS_BLKSIZE * NDBMP) 0 (MFS_BLKSIZE * NDBLK * 8) = .ok (some u) := by
      refine h.seek (by omega) ?_
      simp only [MFS_BLKSIZE,NDBMP,NDBLK,NIBLK,NIBMP,INODESZ] at *
      omega
    obtain ⟨bmp',hrest,hfront⟩ := ih (d := u) h.mark (by omega)
    refine ⟨bmp',?_,?_⟩
    · simp only [Mkmfs.allocBlocks,hseek,bind,Except.bind]
      rw [hrest]
      by_cases hr0 : r = 0
      · simp [hr0]
      · simp only [if_neg hr0,if_neg (Nat.succ_ne_zero r)]
        rw [show u + 1 + r - 1 = u + (r + 1) - 1 by omega]
    · rwa [show u + (r + 1) = u + 1 + r by omega]

/-! ## Child lists -/

/-- A link field as a pointer: 0 is the null link. -/
def ptr (v : UInt32) : Option ℕ := if v = 0 then none else some v.toNat

def Image.inext (im : Image) : Option ℕ → Option ℕ
  | none => none
  | some i => ptr (im.iblk i).next

theorem inext_some (im : Image) (i : ℕ) : im.inext (some i) = ptr (im.iblk i).next := rfl

def Image.Children (im : Image) (n : ℕ) (l : List ℕ) : Prop := Chain im.inext (ptr (im.iblk n).child) l

theorem ptr_some {v : UInt32} {i : ℕ} : ptr v = some i ↔ i ≠ 0 ∧ v.toNat = i := by
  unfold ptr
  split
  · rename_i hv
    subst hv
    simp only [reduceCtorEq,UInt32.toNat_zero,false_iff,not_and]
    exact fun h h' => h h'.symm
  · rename_i hv
    have : v.toNat ≠ 0 := fun h => hv (UInt32.toNat_inj.mp h)
    simp only [Option.some.injEq]
    constructor
    · rintro rfl
      exact ⟨this,rfl⟩
    · exact fun h => h.2

theorem ptr_none {v : UInt32} : ptr v = none ↔ v = 0 := by
  unfold ptr
  split <;> simp [*]

/-- The pointer made of an index that is stored in a link field. -/
theorem ptr_toUInt32 (hp : p ≠ 0) (hlt : p < 2 ^ 32) : ptr p.toUInt32 = some p := by
  rw [ptr_some]
  refine ⟨hp,?_⟩
  rw [Nat.toUInt32_eq,UInt32.toNat_ofNat',Nat.mod_eq_of_lt hlt]

theorem walk_eq {v : UInt32} {fuel : ℕ} (hc : Chain im.inext (ptr v) l) (hl : ∀ i ∈ l, i < NINODE)
    (hf : l.length < fuel) :
    walk im ent fuel v.toNat = .ok ((l.find? (fun i => (im.iblk i).str = ent)).getD 0) := by
  induction l generalizing v fuel with
  | nil =>
    obtain ⟨fuel,rfl⟩ : ∃ f, fuel = f + 1 := ⟨fuel - 1,by simp at hf; omega⟩
    have hv : v = 0 := ptr_none.mp hc
    subst hv
    simp [walk]
  | cons i l ih =>
    obtain ⟨hp,hc⟩ := hc
    obtain ⟨hi,hv⟩ := ptr_some.mp hp
    obtain ⟨fuel,rfl⟩ : ∃ f, fuel = f + 1 := ⟨fuel - 1,by simp at hf; omega⟩
    rw [hv,walk,if_neg hi,if_neg (Nat.not_le.mpr (hl i List.mem_cons_self)),List.find?_cons]
    by_cases he : (im.iblk i).str = ent
    · simp [he]
    · simp only [he,↓reduceIte,decide_false]
      exact ih hc (fun j hj => hl j (List.mem_cons_of_mem i hj)) (by simpa using hf)

/-- A path entry leads to the first child of that name; where there is none, the record of
the root decides. -/
theorem igetStep_eq (hc : im.Children p l) (hl : ∀ i ∈ l, i < NINODE) (hlen : l.length ≤ NINODE) :
    igetStep im (some p) ent = .ok (match l.find? (fun i => (im.iblk i).str = ent) with
      | some i => some i
      | none => if (im.iblk 0).str = ent then some 0 else none) := by
  simp only [igetStep,walk_eq hc hl (Nat.lt_succ_of_le hlen),bind,Except.bind]
  cases hf : l.find? (fun i => (im.iblk i).str = ent) with
  | none => rfl
  | some i =>
    have hi := List.find?_some hf
    simp only [decide_eq_true_eq] at hi
    simp only [Option.getD_some,if_pos hi]
    rfl

/-! ## Success of the two calls -/

def dirInode (clock : ℕ → UInt32) (im : Image) (name : List UInt8) (k p : ℕ) : Inode :=
  { (im.iblk k).setup clock im.now name k.toUInt32 (S_IFDIR ||| S_IRWXU ||| S_IRWXG ||| S_IROTH) 0
      (im.iblk p).child p.toUInt32 with
    blkentry := 0
    blocks := 0 }

def regInode (clock : ℕ → UInt32) (im : Image) (name buff : List UInt8) (k p dblki : ℕ) : Inode :=
  { (im.iblk k).setup clock im.now name k.toUInt32 (S_IFREG ||| S_IRWXU ||| S_IRWXG ||| S_IROTH)
      buff.length.toUInt32 (im.iblk p).child p.toUInt32 with
    blocks := (dblkr buff.length).toUInt32
    blkentry := dblki.toUInt32 - (dblkr buff.length).toUInt32 + 1 }

variable {clock : ℕ → UInt32} {path name buff : List UInt8} {im' : Image}

theorem mfsMkdir_ok_iff : mfsMkdir clock path name im = .ok im' ↔
    name.length ≤ MFS_NAMELEN ∧ ∃ p k, mfsIget im path = .ok (some p) ∧
      mfsSeekbmp im.ibmp (MFS_BLKSIZE * NIBMP) 0 (MFS_BLKSIZE * 8) = .ok (some k) ∧
      im' = im.link k p (dirInode clock im name k p) := by
  unfold mfsMkdir
  by_cases hn : name.length > MFS_NAMELEN
  · simp only [hn,↓reduceIte,throw,throwThe,MonadExceptOf.throw,bind,Except.bind,reduceCtorEq,false_iff]
    exact fun h => absurd h.1 (Nat.not_le.mpr hn)
  · simp only [hn,↓reduceIte,bind,Except.bind,pure,Except.pure,Nat.not_lt.mp hn,true_and]
    cases mfsIget im path with
    | error e => simp
    | ok o =>
      cases o with
      | none => simp [throw,throwThe,MonadExceptOf.throw]
      | some p =>
        simp only [Except.ok.injEq,Option.some.injEq,exists_and_left,exists_eq_left']
        cases mfsSeekbmp im.ibmp (MFS_BLKSIZE * NIBMP) 0 (MFS_BLKSIZE * 8) with
        | error e => simp
        | ok o =>
          cases o with
          | none => simp [throw,throwThe,MonadExceptOf.throw]
          | some k => simp [dirInode,eq_comm]

theorem mfsWrite_ok_iff : mfsWrite clock path name buff im = .ok im' ↔
    name.length ≤ MFS_NAMELEN ∧ ∃ p k d bmp dblk, mfsIget im path = .ok (some p) ∧
      (im.iblk p).mode &&& S_IFDIR = S_IFDIR ∧
      mfsSeekbmp im.ibmp (MFS_BLKSIZE * NIBMP) 0 (MFS_BLKSIZE * 8) = .ok (some k) ∧
      allocBlocks (dblkr buff.length) 0 im.dbmp = .ok (d,bmp) ∧
      copyData im.dblk ((regInode clock im name buff k p d).blkentry * MFS_BLKSIZE.toUInt32).toNat buff =
        .ok dblk ∧
      im' = { im.link k p (regInode clock im name buff k p d) with dbmp := bmp, dblk := dblk } := by
  unfold mfsWrite
  by_cases hn : name.length > MFS_NAMELEN
  · simp only [hn,↓reduceIte,throw,throwThe,MonadExceptOf.throw,bind,Except.bind,reduceCtorEq,false_iff]
    exact fun h => absurd h.1 (Nat.not_le.mpr hn)
  · simp only [hn,↓reduceIte,bind,Except.bind,pure,Except.pure,Nat.not_lt.mp hn,true_and,
      show MFS_BLKSIZE * NIBMP * 8 = MFS_BLKSIZE * 8 from rfl]
    cases mfsIget im path with
    | error e => simp
    | ok o =>
      cases o with
      | none => simp [throw,throwThe,MonadExceptOf.throw]
      | some p =>
        simp only [Except.ok.injEq,Option.some.injEq,exists_and_left,exists_eq_left']
        by_cases hm : (im.iblk p).mode &&& S_IFDIR = S_IFDIR
        · simp only [hm,ne_eq,not_true_eq_false,↓reduceIte,true_and]
          cases mfsSeekbmp im.ibmp (MFS_BLKSIZE * NIBMP) 0 (MFS_BLKSIZE * 8) with
          | error e => simp
          | ok o =>
            cases o with
            | none => simp [throw,throwThe,MonadExceptOf.throw]
            | some k =>
              simp only [Except.ok.injEq,Option.some.injEq,exists_eq_left']
              cases allocBlocks (dblkr buff.length) 0 im.dbmp with
              | error e => simp
              | ok r =>
                obtain ⟨d,bmp⟩ := r
                simp only [Except.ok.injEq,Prod.mk.injEq,and_assoc,exists_and_left,exists_eq_left',regInode]
                generalize copyData im.dblk ((d.toUInt32 - (dblkr buff.length).toUInt32 + 1) *
                    MFS_BLKSIZE.toUInt32).toNat buff = r
                cases r with
                | error e => simp
                | ok dblk => simp [eq_comm]
        · simp [hm,throw,throwThe,MonadExceptOf.throw]

end Micron.Mkmfs

import Micron.Filesys.Bitmap
import Micron.Filesys.Link

/-! # The inode bitmap of a mounted table

A clear bit of the first block of the bitmap is found, and any bit is set or cleared in the
cache and on the disk. The blocks of the table are others and keep what they hold. If the
first block is full, the place of a clear bit in a later block is taken for an inode of the
first one.
-/
namespace Micron.Filesys
open Function Bytes Kernel Scache Prog
variable {E : Env} {bs : BlkSizes} {C C' : Content} {T : Table} {o : ℕ → Ofile} {P : VPtr → Prop} {s : State}
  {X : State → Prop} {c c' : Scache} {n m : ℕ} {v : Bool}

def Table.bit (T : Table) (C : Content) (n : ℕ) : Bool := bitOf T.sb (C T.dev.toNat) .IBLK n

/-- The device has an inode bitmap besides the table. The inodes of its first block exist,
and those in use are marked. -/
structure Table.Mapped (E : Env) (bs : BlkSizes) (C : Content) (T : Table) : Prop where
  bmp_pos : 0 < T.sb.ibmp.toInt
  cnt_pos : 0 < T.sb.cnt .IBLK
  valid : ∀ i < T.sb.cnt .IBLK, (bs.request T.dev.toNat (T.sb.base .IBLK + i : ℕ)).Valid E.devs
  apart : ∀ i < T.sb.cnt .IBLK, ∀ n < T.count, T.sb.base .IBLK + i ≠ T.blk bs n
  bits_le : 8 * T.len bs ≤ T.count
  marked : ∀ n, T.used n → n < 8 * T.len bs → T.bit C n = true

def Table.bmp (T : Table) : ℕ := T.sb.base .IBLK

def Table.bmpOf (T : Table) (bs : BlkSizes) (n : ℕ) : ℕ := T.sb.base .IBLK + n / (8 * T.len bs)

theorem Table.bmpOf_first (hn : n < 8 * T.len bs) : T.bmpOf bs n = T.bmp := by
  rw [Table.bmpOf,Nat.div_eq_of_lt hn]
  rfl

structure Marks (E : Env) (bs : BlkSizes) (T : Table) (n : ℕ) (v : Bool) (C C' : Content) (c c' : Scache) : Prop where
  bits : ∀ m, T.bit C' m = if m = n then v else T.bit C m
  content : ∀ d b, (d,b) ≠ (T.dev.toNat,(T.bmpOf bs n : ℤ)) → C' d b = C d b
  stored : c'.OnDisk (volume bs E.devs) C' T.dev.toNat (T.bmpOf bs n)
  disk : ∀ d b, (volume bs E.devs).ok d b → (d,b) ≠ (T.dev.toNat,(T.bmpOf bs n : ℤ)) →
    c.OnDisk (volume bs E.devs) C d b → c'.OnDisk (volume bs E.devs) C' d b

theorem Table.On.congr (hon : T.On E bs C) (hC : ∀ n < T.count, C' T.dev.toNat (T.blk bs n) = C T.dev.toNat (T.blk bs n)) :
    T.On E bs C' where
  usable := hon.usable
  len_pos := hon.len_pos
  base_eq := hon.base_eq
  base_pos := hon.base_pos
  count_le := hon.count_le
  valid := hon.valid
  read n hn := by
    rw [hC n hn]
    exact hon.read n hn

section
variable (hon : T.On E bs C) (hm : T.Mapped E bs C)
include hm

theorem Table.Mapped.first_lt (hn : n < 8 * T.len bs) : n < T.sb.cnt .IBLK * (8 * T.len bs) :=
  Nat.lt_of_lt_of_le hn (Nat.le_mul_of_pos_left _ hm.cnt_pos)

omit hm in
theorem Table.bmpOf_lt (hn : n < T.sb.cnt .IBLK * (8 * T.len bs)) : n / (8 * T.len bs) < T.sb.cnt .IBLK :=
  Nat.div_lt_of_lt_mul (Nat.mul_comm _ _ ▸ hn)

theorem Table.Mapped.ne_blk (hm' : m < T.sb.cnt .IBLK * (8 * T.len bs)) (hn : n < T.count) :
    (T.dev.toNat,(T.blk bs n : ℤ)) ≠ (T.dev.toNat,(T.bmpOf bs m : ℤ)) :=
  fun he => hm.apart _ (Table.bmpOf_lt hm') n hn (Int.natCast_inj.mp (Prod.mk.inj he).2).symm

theorem Table.Mapped.bmp_eq : (T.sb.bmp .IBLK).toInt = T.bmp := Machine.toInt_eq (Int.le_of_lt hm.bmp_pos)

theorem Table.Mapped.base_pos : 0 < T.sb.base .IBLK := by
  have hpos := hm.bmp_pos
  have heq := hm.bmp_eq
  change T.sb.ibmp.toInt = (T.sb.base .IBLK : ℕ) at heq
  omega

theorem Table.Mapped.blk_ne (q : ℕ) : ((T.sb.base .IBLK + q : ℕ) : ℤ) ≠ 0 :=
  Int.natCast_ne_zero.mpr (Nat.ne_of_gt (Nat.add_pos_left hm.base_pos _))

theorem Table.Mapped.bmp_ne : (T.bmp : ℤ) ≠ 0 := hm.blk_ne 0

theorem Marks.on (hmarks : Marks E bs T n v C C' c c') (hn : n < T.sb.cnt .IBLK * (8 * T.len bs))
    (hon : T.On E bs C) : T.On E bs C' :=
  hon.congr (fun _ hk => hmarks.content _ _ (hm.ne_blk hn hk))

theorem Marks.tree (hmarks : Marks E bs T n v C C' s.scache c') (hn : n < T.sb.cnt .IBLK * (8 * T.len bs))
    (h : Tree E bs C T o P s) (hc : Cached E bs C' c') (hon : T.On E bs C) : Tree E bs C' T o P { s with scache := c' } :=
  h.recache hc (fun k hk => hmarks.disk _ _ (hon.valid k hk) (hm.ne_blk hn hk) (h.stored k hk))

include hon

omit hm in
theorem Table.On.len_eq : T.sb.len = T.len bs := Machine.toNatClampNeg_eq hon.usable.size_eq

omit hm in
theorem Table.On.bit_eq (hn : n < 8 * T.len bs) : T.bit C' n = Bits.get (C' T.dev.toNat T.bmp) n := by
  rw [← hon.len_eq] at hn
  have hblock : bitOf T.sb (C' T.dev.toNat) .IBLK (0 * (8 * T.sb.len) + n) =
      Bits.get (C' T.dev.toNat (T.sb.base .IBLK + 0 : ℕ)) n := bitOf_block hn
  rwa [Nat.zero_mul,Nat.zero_add] at hblock

omit hm in
theorem Table.On.bit_get : T.bit C' n = Bits.get (C' T.dev.toNat (T.bmpOf bs n)) (n % (8 * T.len bs)) := by
  rw [Table.bit,bitOf,hon.len_eq]
  rfl

theorem Table.Mapped.get_spec {blk : Int32} {q : ℕ} (hq : q < T.sb.cnt .IBLK)
    (hblk : blk.toInt = (T.sb.base .IBLK + q : ℕ)) (hX : Limit o X) (hc : Cached E bs C s.scache) :
    Ends X (scacheGet E T.dev blk T.sb.blksize) (fun p t => ∃ i c, p = some i ∧ t = { s with scache := c } ∧
      Cached E bs C c ∧ Keeps s.scache c ∧ Entry c i T.dev (T.sb.base .IBLK + q : ℕ) ∧
      ∀ k < T.len bs, c.buf (some i) k = C T.dev.toNat (T.sb.base .IBLK + q : ℕ) k) s := by
  have hvalid := hm.valid q hq
  refine (hX.scacheGet hc hon.usable.size_eq (bs.supported _) (by rw [hblk]; exact hvalid)
    (by rw [hblk]; exact volume_fits hvalid (hm.blk_ne q)) hon.usable.open_ok).mono ?_
  rintro p t - ⟨i,c,rfl,rfl,⟨L,hL⟩,hk,hent⟩
  rw [hblk] at hent
  refine ⟨i,c,rfl,rfl,⟨L,hL⟩,hk,hent,fun k hk => ?_⟩
  have hbuf := hL.cached i hent.lt k
  rw [hent.src] at hbuf
  refine hbuf ?_
  rw [volume_size (hm.blk_ne q)]
  exact hk

/-- Where there is a clear bit from block `b` on, the search ends in a block of the bitmap. -/
theorem seekBlock_spec {blk : Int32} {b fuel : ℕ} (hX : Limit o X) (hc : Cached E bs C s.scache)
    (hblk : blk.toInt = b) (hn : n < T.sb.cnt .IBLK * (8 * T.len bs)) (hb : b * (8 * T.len bs) ≤ n)
    (hclear : T.bit C n = false) (hfuel : T.sb.cnt .IBLK - b < fuel) :
    Ends X (seekBlock E T.sb T.dev .IBLK fuel blk) (fun r t => ∃ k c, r = some k ∧ t = { s with scache := c } ∧
      Cached E bs C c ∧ Keeps s.scache c ∧ Searched T.sb (C T.dev.toNat) .IBLK b (some k)) s := by
  induction fuel generalizing blk b s with
  | zero => omega
  | succ fuel ih =>
    have hq : b < T.sb.cnt .IBLK := Nat.lt_of_mul_lt_mul_right (Nat.lt_of_le_of_lt hb hn)
    have hat : (T.sb.bmp .IBLK + blk).toInt = (T.sb.base .IBLK + b : ℕ) :=
      Machine.toInt_add hm.bmp_eq hblk (valid_lt (hm.valid b hq) hon.len_pos)
    unfold seekBlock
    refine Ends.bind hX.mono (hm.get_spec hon hq hat hX hc) ?_
    rintro p t - ⟨i,c,rfl,rfl,hc',hk,hent,hbuf⟩
    have hlen : T.sb.blksize.toNatClampNeg = T.sb.len := rfl
    have hsup : T.sb.len ≤ NMXBLKSZ := hon.len_eq.symm ▸ bs.supported _
    rw [← hon.len_eq] at hbuf
    unfold Ends
    rw [wp_bind,wp_buffer]
    dsimp only
    rw [hlen,Nat.min_eq_left hsup]
    cases hfind : (List.range T.sb.len).find? (fun k => decide (c.buf (some i) k ≠ 255)) with
    | some k =>
      obtain ⟨j,hseek,hfound⟩ := Searched.found hbuf hq.le hfind
      simp only [hseek,wp_pure]
      exact Or.inr ⟨j + k * 8,c,rfl,rfl,hc',hk,hfound⟩
    | none =>
      have hfull := block_full hbuf hfind
      rw [hon.len_eq] at hfull
      have hlate : (b + 1) * (8 * T.len bs) ≤ n := by
        by_contra hlt
        obtain ⟨m,rfl⟩ := Nat.exists_eq_add_of_le hb
        rw [Nat.succ_mul] at hlt
        rw [show T.bit C _ = true from hfull m (by omega)] at hclear
        exact Bool.noConfusion hclear
      have hcnt : (T.sb.bmpcnt .IBLK).toInt = T.sb.cnt .IBLK := by
        refine Machine.toInt_eq (Int.le_of_lt (Int.not_le.mp fun hneg => ?_))
        have hzero : T.sb.cnt .IBLK = 0 := Int32.toNatClampNeg_eq_zero_iff.mpr (Int32.le_iff_toInt_le.mpr (by simpa using hneg))
        omega
      rw [if_neg (Nat.not_lt.mpr hsup),if_pos ((Machine.lt_iff hblk hcnt).mpr hq)]
      have hnext : (blk + 1).toInt = (b + 1 : ℕ) := by
        have := (T.sb.bmpcnt .IBLK).toInt_lt
        exact Machine.toInt_add hblk (by decide) (by omega)
      refine (ih (s := { s with scache := c }) hc' hnext hlate (by omega)).mono ?_
      rintro r t - ⟨k,c',rfl,rfl,hc'',hk',hfound⟩
      exact ⟨k,c',rfl,rfl,hc'',hk.trans hk',hfound.full (hon.len_eq ▸ hfull)⟩

theorem mfsSeekbmp_spec (hX : Limit o X) (hc : Cached E bs C s.scache) (hn : n < T.sb.cnt .IBLK * (8 * T.len bs))
    (hclear : T.bit C n = false) :
    Ends X (mfsSeekbmp E T.sb T.dev .IBLK) (fun r t => ∃ k c, r = some k ∧ t = { s with scache := c } ∧
      Cached E bs C c ∧ Keeps s.scache c ∧ k < 8 * T.len bs ∧ (n < 8 * T.len bs → T.bit C k = false)) s := by
  have hstart : (0 : Int32).toInt = (0 : ℕ) := rfl
  unfold mfsSeekbmp
  refine (seekBlock_spec hon hm hX hc hstart hn (by simp) hclear (Nat.lt_succ_self (T.sb.cnt .IBLK))).mono ?_
  rintro r t - ⟨k,c,rfl,rfl,hc',hk,q,-,-,hlt,hfree,hset⟩
  rw [hon.len_eq] at hlt hfree hset
  refine ⟨k,c,rfl,rfl,hc',hk,hlt,fun hfirst => ?_⟩
  -- the bit found is not behind the clear one
  have hq : q = 0 := by
    by_contra hne
    have hle : 8 * T.len bs ≤ q * (8 * T.len bs) := Nat.le_mul_of_pos_left _ (Nat.pos_of_ne_zero hne)
    rw [show T.bit C n = true from hset n (by simp) (by omega)] at hclear
    exact Bool.noConfusion hclear
  rw [hq,Nat.zero_mul,Nat.zero_add] at hfree
  exact hfree

omit hm in
theorem Table.On.bit_set {f : ℕ → UInt8}
    (hf : ∀ m < 8 * T.len bs, Bits.get f m =
      if m = n % (8 * T.len bs) then v else Bits.get (C T.dev.toNat (T.bmpOf bs n)) m) (m : ℕ) :
    T.bit (C.set T.dev.toNat (T.bmpOf bs n) f) m = if m = n then v else T.bit C m := by
  have hpos : 0 < 8 * T.len bs := Nat.mul_pos (by decide) hon.len_pos
  have hm' := Nat.div_add_mod' m (8 * T.len bs)
  have hn' := Nat.div_add_mod' n (8 * T.len bs)
  rw [hon.bit_get,hon.bit_get]
  by_cases hq : m / (8 * T.len bs) = n / (8 * T.len bs)
  · have hsame : T.bmpOf bs m = T.bmpOf bs n := by rw [Table.bmpOf,hq,Table.bmpOf]
    rw [hsame,Content.set_self,hf _ (Nat.mod_lt m hpos)]
    refine if_congr ?_ rfl rfl
    rw [hq] at hm'
    omega
  · have hne : m ≠ n := fun he => hq (by rw [he])
    rw [if_neg hne,Content.set_of_ne f (fun he => hq ?_)]
    exact Nat.add_left_cancel (Int.natCast_inj.mp (Prod.mk.inj he).2)

theorem mfsMarkbmp_spec {index : Int32} (hX : Limit o X) (hc : Cached E bs C s.scache) (hidx : index.toInt = n)
    (hn : n < T.sb.cnt .IBLK * (8 * T.len bs)) (v : Bool) :
    Ends X (mfsMarkbmp E T.sb T.dev .IBLK index v) (fun _ t => ∃ C' c', t = { s with scache := c' } ∧
      Cached E bs C' c' ∧ Marks E bs T n v C C' s.scache c') s := by
  have hsup : T.len bs ≤ NMXBLKSZ := bs.supported _
  have hpos : 0 < 8 * T.len bs := Nat.mul_pos (by decide) hon.len_pos
  have hbits : (8 * T.sb.blksize).toInt = (8 * T.len bs : ℕ) :=
    Machine.toInt_mul (by decide) hon.usable.size_eq (by
      simp only [NMXBLKSZ] at hsup
      omega)
  have hne : 8 * T.sb.blksize ≠ 0 := by
    intro h0
    rw [h0] at hbits
    simp at hbits
    omega
  have hdiv := Machine.toInt_div hidx hbits
  have hety := Machine.toInt_mod hidx hbits
  have hq := Table.bmpOf_lt hn
  have hblk : (T.sb.bmp .IBLK + index / (8 * T.sb.blksize)).toInt = T.bmpOf bs n :=
    Machine.toInt_add hm.bmp_eq hdiv (valid_lt (hm.valid _ hq) hon.len_pos)
  have hclamp := Machine.toNatClampNeg_eq hety
  have hmod := Nat.mod_lt n hpos
  have hin : ¬ (index % (8 * T.sb.blksize) < 0 ∨ NMXBLKSZ ≤ (index % (8 * T.sb.blksize)).toNatClampNeg / 8) := by
    rw [hclamp]
    rintro (h0 | h1)
    · exact Machine.not_neg hety h0
    · omega
  rw [mfsMarkbmp]
  simp only [if_neg hne]
  refine Ends.bind hX.mono (hm.get_spec hon hq hblk hX hc) ?_
  rintro p t - ⟨i,c,rfl,rfl,⟨L,hL⟩,hk,hent,hbuf⟩
  change Entry c i T.dev (T.bmpOf bs n) at hent
  simp only [if_neg hin]
  unfold Ends
  rw [wp_bind,wp_setBuffer,hclamp]
  have hset := hL.set (f := Bits.set (c.buf (some i)) (n % (8 * T.len bs)) v) hent.lt c.mode
  rw [hent.src] at hset
  refine Ends.bind hX.mono (hon.usable.sync_spec (i := i) ⟨L,hset⟩ hblk (hm.blk_ne _) (hm.valid _ hq)
    ⟨hent.lt,hent.src⟩) ?_
  rintro r t - ⟨c',rfl,hc',hnew,hkeep,-⟩
  refine Or.inr ⟨_,c',rfl,hc',⟨hon.bit_set (fun m hlt => ?_),fun d b hdb => Content.set_of_ne _ hdb,hnew,?_⟩⟩
  · rw [Bits.get_set,get_congr hbuf hlt]
    rfl
  · intro d b hok hdb hd
    refine hkeep d b hok (fun k hk' => ?_)
    rw [Content.set_of_ne _ hdb]
    exact (congrFun (congrFun hk.disk d) _).trans (hd k hk')

omit hon hm in
theorem Marks.of_keeps {c₀ : Scache} (hk : Keeps c₀ c) (h : Marks E bs T n v C C' c c') : Marks E bs T n v C C' c₀ c' :=
  ⟨h.bits,h.content,h.stored,fun d b hok hdb hd =>
    h.disk d b hok hdb (fun k hk' => (congrFun (congrFun hk.disk d) _).trans (hd k hk'))⟩

theorem Table.Mapped.index_lt (hn : n < 8 * T.len bs) : n < 2 ^ 25 :=
  Nat.lt_of_lt_of_le hn (Nat.le_trans hm.bits_le hon.count_le)

theorem mfsIalloc_spec (hX : Limit o X) (hc : Cached E bs C s.scache) (hv : s.vlist.Unused NVCHCNTS)
    (ho : s.ofile = o) (hn : n < T.sb.cnt .IBLK * (8 * T.len bs)) (hclear : T.bit C n = false) :
    Ends X (mfsIalloc E T.sb T.dev) (fun vp t => ∃ k C' c', vp = .vc s.vlist.cnt ∧ k < 8 * T.len bs ∧
      (n < 8 * T.len bs → T.bit C k = false) ∧ Cached E bs C' c' ∧ Marks E bs T k true C C' s.scache c' ∧
      s.vlist.append.Unused NVCHCNTS ∧ t = { s with
        scache := c'
        vlist := s.vlist.append
        allocs := s.allocs ++ [⟨s.vlist,s.ofile,some s.vlist.cnt⟩]
        vnode := update s.vnode (.vc s.vlist.cnt) { s.vnode (.vc s.vlist.cnt) with ino := k.toUInt32, dev := T.dev } }) s := by
  refine Ends.bind hX.mono (mfsSeekbmp_spec hon hm hX hc hn hclear) ?_
  rintro r t - ⟨k,c,rfl,rfl,hc₁,hkeep,hk,hfree⟩
  have hidx : k.toInt32.toInt = k := Machine.toInt_ofNat (Nat.lt_trans (hm.index_lt hon hk) (by decide))
  refine Ends.bind hX.mono (mfsMarkbmp_spec hon hm hX (s := { s with scache := c }) hc₁ hidx (hm.first_lt hk) true) ?_
  rintro _ t - ⟨C',c',rfl,hc',hmarks⟩
  refine Ends.bind hX.mono (hX.vcacheAlloc (s := { s with scache := c' }) ho hv) ?_
  rintro vp t - ⟨rfl,rfl,hv'⟩
  unfold Ends
  rw [wp_bind,wp_setVnode rfl,wp_pure]
  exact Or.inr ⟨k,C',c',rfl,hk,hfree,hc',hmarks.of_keeps hkeep,hv',rfl⟩

theorem mfsIfree_spec {p : VPtr} (hX : Limit o X) (hc : Cached E bs C s.scache) (hp : p.isNode)
    (hdev : (s.vnode p).dev = T.dev) (hlt : s.ino p < T.count) (hn : s.ino p < T.sb.cnt .IBLK * (8 * T.len bs)) :
    Ends X (mfsIfree E T.sb p) (fun _ t => ∃ C' c', t = { s with scache := c' } ∧ Cached E bs C' c' ∧
      Marks E bs T (s.ino p) false C C' s.scache c') s := by
  have hidx : (s.vnode p).ino.toInt32.toInt = s.ino p :=
    Machine.toInt_toInt32 (Nat.lt_of_lt_of_le hlt (Nat.le_trans hon.count_le (by decide)))
  unfold Ends mfsIfree
  rw [wp_bind,wp_vnode hp,hdev]
  exact mfsMarkbmp_spec hon hm hX hc hidx hn false

end

end Micron.Filesys

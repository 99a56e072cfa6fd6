import Micron.Filesys.Access

/-! # Inode tables

A table of inode records in the blocks of a device, the lists of children and of
expansions that their links form, and how a vnode is filled from a record.
-/
namespace Micron.Filesys
open Function Bytes Kernel Scache Prog

/-! ## Vnodes made of records -/

theorem Vnode.load_bytes (v : Vnode) {m : ℕ → UInt8} (h : ∀ k, NVNAMLEN ≤ k → m k = v.bytes.getD k 0) :
    v.load m = { v with name := fun i => m i } := by
  have hat : At m 68 (v.bytes.drop 68) := by
    intro i hi
    rw [h (68 + i) (by simp only [NVNAMLEN]; omega)]
    simp at hi ⊢
    rw [List.getElem?_eq_getElem (by omega)]
    rfl
  rw [Vnode.bytes,List.drop_left' (show (List.ofFn v.name).length = 68 from List.length_ofFn)] at hat
  simp only [at_append,le32_length,le16_length,Nat.reduceAdd] at hat
  obtain ⟨h0,h1,h2,h3,h4,h5,h6,h7,h8,h9,h10,h11,h12⟩ := hat
  simp only [Vnode.load,get32_of_at h0,get32_of_at h1,get32_of_at h2,get32_of_at h3,get16_of_at h4,get16_of_at h5,
    get32_of_at h6,get32_of_at h7,get32_of_at h8,get32_of_at h9,get32_of_at h10,get32_of_at h11,get32_of_at h12,
    Int32.toInt32_toUInt32]

/-- A name that fits is copied without touching the other fields. -/
theorem Vnode.strcpy_eq (v : Vnode) {s : List UInt8} (h : s.length < NVNAMLEN) :
    v.strcpy s = some { v with name := Bytes.strcpy v.name s } := by
  have hlen : NVNAMLEN ≤ 116 := by decide
  rw [Vnode.strcpy,if_neg (by omega),Vnode.load_bytes]
  · congr 2
    funext i
    have hi := i.isLt
    rw [put,Bytes.strcpy]
    by_cases h1 : (i : ℕ) < s.length
    · rw [dif_pos (by simp; omega),dif_pos h1]
      simp [h1]
    · rw [dif_neg h1]
      by_cases h2 : (i : ℕ) = s.length
      · rw [dif_pos (by simp; omega),if_pos h2]
        simp [h2]
      · rw [dif_neg (by simp; omega),if_neg h2,Vnode.bytes,List.getD_eq_getElem?_getD,
          List.getElem?_append_left (by rwa [List.length_ofFn])]
        simp
  · intro k hk
    exact put_frame (Or.inr (by simp; omega))

def Vnode.fill (v : Vnode) (r : Inode) (dev : UInt32) : Vnode :=
  { v with
    name := Bytes.strcpy v.name r.str
    dev := dev
    ino := r.ino
    mode := r.mode
    nlink := r.nlink
    uid := r.uid
    gid := r.gid
    rdev := r.rdev
    size := r.size
    atime := r.atime
    mtime := r.mtime
    ctime := r.ctime
    blkentry := r.blkentry
    blocks := r.blocks }

structure Vnode.Shows (v : Vnode) (r : Inode) : Prop where
  str : v.str = r.str
  ino : v.ino = r.ino
  mode : v.mode = r.mode
  nlink : v.nlink = r.nlink
  uid : v.uid = r.uid
  gid : v.gid = r.gid
  rdev : v.rdev = r.rdev
  size : v.size = r.size
  atime : v.atime = r.atime
  mtime : v.mtime = r.mtime
  ctime : v.ctime = r.ctime
  blkentry : v.blkentry = r.blkentry
  blocks : v.blocks = r.blocks

structure Inode.Fits (r : Inode) : Prop where
  no_nul : 0 ∉ r.str
  length_lt : r.str.length < NVNAMLEN

theorem Vnode.Shows.congr {v w : Vnode} {r : Inode} (h : v.Shows r) (hw : w = { v with
    next := w.next, parent := w.parent, child := w.child, expand := w.expand }) : w.Shows r := by
  rw [hw]
  exact ⟨h.str,h.ino,h.mode,h.nlink,h.uid,h.gid,h.rdev,h.size,h.atime,h.mtime,h.ctime,h.blkentry,h.blocks⟩

theorem Vnode.fill_shows (v : Vnode) {r : Inode} (dev : UInt32) (h : r.Fits) : (v.fill r dev).Shows r where
  str := by
    have hcopy := cstr_strcpy v.name h.no_nul h.length_lt
    rw [Vnode.str,Vnode.bytes,cstr_append_right]
    · exact hcopy
    · rw [Vnode.fill,hcopy,List.length_ofFn]
      exact h.length_lt
  ino := rfl
  mode := rfl
  nlink := rfl
  uid := rfl
  gid := rfl
  rdev := rfl
  size := rfl
  atime := rfl
  mtime := rfl
  ctime := rfl
  blkentry := rfl
  blocks := rfl

/-- A record depends on its own bytes only. -/
theorem Inode.read_congr {m m' : ℕ → UInt8} {a : ℕ} (h : ∀ k < INODESZ, m (a + k) = m' (a + k)) :
    Inode.read m a = Inode.read m' a := by
  have hk : ∀ k j, k + j < INODESZ → m (a + k + j) = m' (a + k + j) := by
    intro k j hkj
    rw [Nat.add_assoc]
    exact h _ hkj
  have h16 : ∀ k, k + 1 < INODESZ → get16 m (a + k) = get16 m' (a + k) := by
    intro k hlt
    rw [get16,get16,hk k 1 hlt,h k (by omega)]
  have h32 : ∀ k, k + 3 < INODESZ → get32 m (a + k) = get32 m' (a + k) := by
    intro k hlt
    rw [get32,get32,hk k 1 (by omega),hk k 2 (by omega),hk k 3 hlt,h k (by omega)]
  have hstr : (List.range INODESZ).map (fun k => m (a + k)) = (List.range INODESZ).map (fun k => m' (a + k)) :=
    List.map_congr_left (fun k hk => h k (List.mem_range.mp hk))
  simp only [Inode.read,hstr,h16 80 (by decide),h16 82 (by decide),h32 68 (by decide),h32 72 (by decide),
    h32 76 (by decide),h32 84 (by decide),h32 88 (by decide),h32 92 (by decide),h32 96 (by decide),
    h32 100 (by decide),h32 104 (by decide),h32 108 (by decide),h32 112 (by decide),h32 116 (by decide),
    h32 120 (by decide),h32 124 (by decide)]

structure IPtr.Reads (ip : IPtr) (c : Scache) (r : Inode) : Prop where
  le : ip.off + INODESZ ≤ NMXBLKSZ
  read : ∃ i, ip.sp = some i ∧ Inode.read (c.buf (some i)) ip.off = r

variable {s : State} {X : State → Prop} {ip : IPtr} {r : Inode} {p : VPtr} {c c' : Scache}

theorem wp_inode {Q : Inode → State → Prop} (h : ip.Reads c r) (hc : s.scache = c) : wp (inode ip) Q X s ↔ Q r s := by
  obtain ⟨i,hi,rfl⟩ := h.read
  subst hc
  rw [inode,if_neg (Nat.not_lt.mpr h.le),hi]
  rfl

theorem wp_translate {Q : Unit → State → Prop} {dev : UInt32} (h : ip.Reads c r) (hc : s.scache = c) (hr : r.Fits)
    (hp : p.isNode) : wp (translate ip dev p) Q X s ↔
      Q () { s with vnode := update s.vnode p ((s.vnode p).fill r dev) } := by
  simp only [translate,wp_bind,wp_inode h hc,wp_setVnode hp,wp_vnode hp,update_self,
    Vnode.strcpy_eq _ hr.length_lt]
  simp only [update_idem]
  rfl

/-! ## Programs up to a full cache -/

/-- `X` holds of the states in which the sector cache is full and, as long as the open files
are `o`, of those after a vnode has been recycled. -/
structure Limit (o : ℕ → Ofile) (X : State → Prop) : Prop where
  mono : ∀ s t, s ≤ t → X s → X t
  scache : ∀ s, s.scache.alist.cnt = NSECACHS → X s
  vcache : ∀ s : State, s.ofile = o → s.vlist.cnt = NVCHCNTS →
    X { s with vlist := s.vlist.recycle (some 0), allocs := s.allocs ++ [⟨s.vlist,s.ofile,some 0⟩] }

def Full (s : State) : Prop := NVCHCNTS ≤ s.vlist.cnt ∨ NSECACHS ≤ s.scache.alist.cnt

instance (s : State) : Decidable (Full s) := inferInstanceAs (Decidable (_ ∨ _))

theorem full_limit (o : ℕ → Ofile) : Limit o Full where
  mono _ _ h := Or.imp (fun hf => hf.trans h.1) (fun hf => hf.trans h.2.1)
  scache s h := Or.inr h.ge
  vcache s _ h := Or.inl (by rw [AllocList.recycle_cnt,h])

variable {E : Env} {bs : BlkSizes} {C : Content} {o : ℕ → Ofile}

def Cached (E : Env) (bs : BlkSizes) (C : Content) (c : Scache) : Prop := ∃ L, c.Coherent (volume bs E.devs) C L

theorem Limit.scacheGet {dev : UInt32} {blk blksize : Int32} {n : ℕ} (hX : Limit o X) (hc : Cached E bs C s.scache)
    (hn : blksize.toInt = n) (hle : n ≤ NMXBLKSZ) (hv : (Get.mk dev.toNat blk.toInt n).Valid E.devs)
    (hf : (Get.mk dev.toNat blk.toInt n).Fits (volume bs E.devs)) (ho : E.devs.openOk dev.toNat) :
    Ends X (scacheGet E dev blk blksize) (fun p t => ∃ i c, p = some i ∧ t = { s with scache := c } ∧
      Cached E bs C c ∧ Keeps s.scache c ∧ Entry c i dev blk.toInt) s := by
  obtain ⟨L,hL⟩ := hc
  by_cases hfull : s.scache.alist.cnt = NSECACHS
  · exact Ends.of_limit hX.mono (hX.scache s hfull)
  have hbounds : ¬ (blksize < 0 ∨ NMXBLKSZ < blksize.toNatClampNeg / 512 * 512) := by
    rw [Machine.toNatClampNeg_eq hn]
    rintro (h0 | h1)
    · exact Machine.not_neg hn h0
    · have := Nat.div_mul_le_self n 512
      omega
  obtain ⟨i,L',c,hget,hcoh,hgot⟩ := hL.get (g := ⟨dev.toNat,blk.toInt,n⟩) hv hf ho
    (fun _ h => absurd h hfull) (fun _ h => absurd h hfull)
  have hroom := Nat.lt_of_le_of_ne hL.inv.cnt_le hfull
  refine Ends.of_wp ?_
  rw [Filesys.scacheGet,if_neg hbounds,cached,wp_step,Machine.toNatClampNeg_eq hn,hget]
  refine ⟨i,c,rfl,rfl,⟨L',hcoh⟩,⟨hgot.disk,fun j d b he => ?_⟩,⟨hgot.lt,hgot.src⟩⟩
  obtain ⟨hj,hsrc⟩ := hgot.keep hroom j he.lt
  exact ⟨hj,hsrc.trans he.src⟩

theorem Limit.vcacheAlloc (hX : Limit o X) (ho : s.ofile = o) (h : s.vlist.Unused NVCHCNTS) :
    Ends X vcacheAlloc (fun p t => p = .vc s.vlist.cnt ∧ t = { s with
      vlist := s.vlist.append, allocs := s.allocs ++ [⟨s.vlist,s.ofile,some s.vlist.cnt⟩] } ∧
      s.vlist.append.Unused NVCHCNTS) s := by
  refine wp_vcacheAlloc h ?_
  rintro i l hl - (⟨-,rfl,rfl⟩ | ⟨hfull,rfl,rfl⟩)
  · exact Or.inr ⟨rfl,rfl,hl⟩
  · exact Or.inl (hX.vcache s ho hfull)

/-! ## Where a record stands -/

def blockOf (len n : ℕ) : ℕ := INODESZ * n / len

def recordOf (len n : ℕ) : ℕ := n % (len / INODESZ)

section Address
variable {sb : Sblk} {dev node : UInt32} {len n : ℕ}

theorem blockOf_add_recordOf (h : INODESZ ∣ len) (n : ℕ) : blockOf len n * len + recordOf len n * INODESZ = n * INODESZ := by
  obtain ⟨q,rfl⟩ := h
  have hpos : 0 < INODESZ := by decide
  rw [blockOf,recordOf,Nat.mul_div_mul_left _ _ hpos,Nat.mul_div_cancel_left _ hpos]
  rw [Nat.mul_comm INODESZ q,← Nat.mul_assoc,← Nat.add_mul,Nat.div_add_mod']

theorem recordOf_le (h : INODESZ ≤ len) (n : ℕ) : recordOf len n * INODESZ + INODESZ ≤ len := by
  have hlt := Nat.mod_lt n (Nat.div_pos h (by decide))
  calc recordOf len n * INODESZ + INODESZ = (recordOf len n + 1) * INODESZ := (Nat.succ_mul _ _).symm
    _ ≤ len / INODESZ * INODESZ := Nat.mul_le_mul_right _ hlt
    _ ≤ len := Nat.div_mul_le_self _ _

theorem blockOf_le (h : INODESZ ≤ len) (n : ℕ) : blockOf len n ≤ n := by
  rw [blockOf]
  exact Nat.div_le_of_le_mul (Nat.mul_le_mul_right n h)

theorem toInt32_blockOf (hlen : sb.blksize.toInt = len) (hn : node.toNat < 2 ^ 25) :
    (INODESZ.toUInt32 * node / sb.blksize.toUInt32).toInt32 = Int32.ofNat (blockOf len node.toNat) := by
  have hmul : (INODESZ.toUInt32 * node).toNat = INODESZ * node.toNat := by
    rw [UInt32.toNat_mul,show INODESZ.toUInt32.toNat = INODESZ from rfl]
    refine Nat.mod_eq_of_lt ?_
    simp only [INODESZ]
    omega
  rw [Machine.toInt32_eq,UInt32.toNat_div,hmul,Machine.toNat_toUInt32 hlen]
  rfl

theorem mfsGet_at (hlen : sb.blksize.toInt = len) (hle : INODESZ ≤ len) (node : UInt32) : mfsGet E sb dev node = (do
    let sp ← scacheGet E dev (sb.iblk + (INODESZ.toUInt32 * node / sb.blksize.toUInt32).toInt32) sb.blksize
    return ⟨sp,recordOf len node.toNat * INODESZ⟩) := by
  have hdiv : (sb.blksize.toUInt32 / INODESZ.toUInt32).toNat = len / INODESZ := by
    rw [UInt32.toNat_div,Machine.toNat_toUInt32 hlen]
    rfl
  have hne : sb.blksize.toUInt32 / INODESZ.toUInt32 ≠ 0 := by
    intro h0
    rw [h0] at hdiv
    exact Nat.ne_of_lt (Nat.div_pos hle (by decide)) hdiv
  have hety : (node % (sb.blksize.toUInt32 / INODESZ.toUInt32)).toNat = recordOf len node.toNat := by
    rw [UInt32.toNat_mod,hdiv]
    rfl
  rw [mfsGet]
  simp only [if_neg hne,hety]

theorem mfsPut_at (hlen : sb.blksize.toInt = len) (hpos : 0 < len) (node : UInt32) : mfsPut E sb dev node = (do
    let _ ← scacheSync E dev (sb.iblk + (INODESZ.toUInt32 * node / sb.blksize.toUInt32).toInt32) sb.blksize) := by
  have hne : sb.blksize.toUInt32 ≠ 0 := by
    intro h0
    have hnat := Machine.toNat_toUInt32 hlen
    rw [h0] at hnat
    exact Nat.ne_of_lt hpos hnat
  rw [mfsPut]
  simp only [if_neg hne]

end Address

/-! ## Inode tables -/

/-- The records of `count` inodes from block `base` of a device on. Those in `used` form a
tree of directories; a record may have expansions. -/
structure Table where
  dev : UInt32
  sb : Sblk
  base : ℕ
  count : ℕ
  record : ℕ → Inode
  used : ℕ → Prop
  kids : ℕ → List ℕ
  exps : ℕ → List ℕ

def Follows (record : ℕ → Inode) (link : Inode → UInt32) : UInt32 → List ℕ → Prop
  | v, [] => v = 0
  | v, m :: l => v ≠ 0 ∧ v.toNat = m ∧ Follows record link (link (record m)) l

namespace Table
variable {T : Table}

def len (T : Table) (bs : BlkSizes) : ℕ := bs.size T.dev.toNat

def blk (T : Table) (bs : BlkSizes) (n : ℕ) : ℕ := T.base + INODESZ * n / T.len bs

def off (T : Table) (bs : BlkSizes) (n : ℕ) : ℕ := n % (T.len bs / INODESZ) * INODESZ

/-- The device holds the records in blocks with content `C`. -/
structure On (E : Env) (bs : BlkSizes) (C : Content) (T : Table) : Prop where
  usable : Usable E bs T.dev T.sb.blksize
  len_pos : 0 < T.len bs
  base_eq : T.sb.iblk.toInt = T.base
  base_pos : 0 < T.base
  count_le : T.count ≤ 2 ^ 25
  valid : ∀ n < T.count, (bs.request T.dev.toNat (T.blk bs n)).Valid E.devs
  read : ∀ n < T.count, Inode.read (C T.dev.toNat (T.blk bs n)) (T.off bs n) = T.record n

/-- The links of the records in use form a tree. Every child has its own number and a name
that fits, and the lists are shorter than `fuel`. -/
structure Shaped (fuel : ℕ) (T : Table) : Prop where
  root : T.used 0
  lt : ∀ n, T.used n → n < T.count
  follows : ∀ n, T.used n → Follows T.record Inode.next (T.record n).child (T.kids n)
  kid : ∀ n, T.used n → ∀ m ∈ T.kids n, T.used m ∧ m ≠ 0
  nodup : ∀ n, T.used n → (T.kids n).Nodup
  parent : ∀ n n' m, T.used n → T.used n' → m ∈ T.kids n → m ∈ T.kids n' → n = n'
  ino : ∀ n, T.used n → ∀ m ∈ T.kids n, (T.record m).ino.toNat = m
  fits : ∀ n, T.used n → ∀ m ∈ T.kids n, (T.record m).Fits
  kids_lt : ∀ n, T.used n → (T.kids n).length < fuel
  expands : ∀ n < T.count, Follows T.record Inode.expand (T.record n).expand (T.exps n)
  exp : ∀ n < T.count, ∀ e ∈ T.exps n, e < T.count ∧ (T.record e).Fits
  exps_lt : ∀ n < T.count, (T.exps n).length < fuel

theorem On.inode_le (h : T.On E bs C) : INODESZ ≤ T.len bs :=
  Nat.le_trans (by decide) (Nat.le_of_dvd h.len_pos (bs.aligned _ : 512 ∣ T.len bs))

theorem On.off_le (h : T.On E bs C) (n : ℕ) : T.off bs n + INODESZ ≤ T.len bs := recordOf_le h.inode_le n

theorem On.blk_ne (h : T.On E bs C) (n : ℕ) : (T.blk bs n : ℤ) ≠ 0 :=
  Int.natCast_ne_zero.mpr (Nat.ne_of_gt (Nat.add_pos_left h.base_pos _))

structure Points (bs : BlkSizes) (T : Table) (ip : IPtr) (c : Scache) (n : ℕ) : Prop where
  off : ip.off = T.off bs n
  entry : ∃ i, ip.sp = some i ∧ Entry c i T.dev (T.blk bs n)

theorem Points.keep {n : ℕ} (h : T.Points bs ip c n) (hk : Keeps c c') : T.Points bs ip c' n :=
  ⟨h.off,h.entry.imp (fun i he => ⟨he.1,hk.entry i _ _ he.2⟩)⟩

theorem Points.reads {n : ℕ} (hp : T.Points bs ip c n) (h : T.On E bs C) (hc : Cached E bs C c) (hn : n < T.count) :
    ip.Reads c (T.record n) := by
  obtain ⟨L,hL⟩ := hc
  obtain ⟨i,hi,hent⟩ := hp.entry
  have hoff := h.off_le n
  refine ⟨?_,i,hi,?_⟩
  · rw [hp.off]
    exact Nat.le_trans hoff (bs.supported _)
  · rw [hp.off,← h.read n hn]
    refine Inode.read_congr (fun k hk => ?_)
    have hbuf := hL.cached i hent.lt (T.off bs n + k)
    rw [hent.src] at hbuf
    refine hbuf ?_
    rw [volume_size (h.blk_ne n)]
    exact Nat.lt_of_lt_of_le (Nat.add_lt_add_left hk _) hoff

theorem On.mfsGet_eq (h : T.On E bs C) (node : UInt32) : Filesys.mfsGet E T.sb T.dev node = (do
    let sp ← scacheGet E T.dev (T.sb.iblk + (INODESZ.toUInt32 * node / T.sb.blksize.toUInt32).toInt32) T.sb.blksize
    return ⟨sp,T.off bs node.toNat⟩) := mfsGet_at h.usable.size_eq h.inode_le node

theorem On.mfsPut_eq (h : T.On E bs C) (node : UInt32) : Filesys.mfsPut E T.sb T.dev node = (do
    let _ ← scacheSync E T.dev (T.sb.iblk + (INODESZ.toUInt32 * node / T.sb.blksize.toUInt32).toInt32) T.sb.blksize) :=
  mfsPut_at h.usable.size_eq h.len_pos node

section Get
variable {node : UInt32} (h : T.On E bs C) (hn : node.toNat < T.count)
include h hn

/-- The block number that `mfs_get` and `mfs_put` compute. -/
theorem On.blk_eq : (T.sb.iblk + (INODESZ.toUInt32 * node / T.sb.blksize.toUInt32).toInt32).toInt =
    T.blk bs node.toNat := by
  have hlt := valid_lt (h.valid _ hn) h.len_pos
  have hle : blockOf (T.len bs) node.toNat ≤ T.blk bs node.toNat := Nat.le_add_left _ _
  rw [toInt32_blockOf h.usable.size_eq (Nat.lt_of_lt_of_le hn h.count_le)]
  exact Machine.toInt_add h.base_eq (Int32.toInt_ofNat_of_lt (Nat.lt_of_le_of_lt hle hlt)) hlt

theorem On.mfsGet (hX : Limit o X) (hc : Cached E bs C s.scache) :
    Ends X (mfsGet E T.sb T.dev node) (fun ip t => ∃ c, t = { s with scache := c } ∧ Cached E bs C c ∧
      Keeps s.scache c ∧ T.Points bs ip c node.toNat) s := by
  have hblk := h.blk_eq hn
  have hvalid := h.valid _ hn
  rw [h.mfsGet_eq]
  refine Ends.bind hX.mono (hX.scacheGet hc h.usable.size_eq (bs.supported _) (by rw [hblk]; exact hvalid)
    (by rw [hblk]; exact volume_fits hvalid (h.blk_ne _)) h.usable.open_ok) ?_
  rintro p t - ⟨i,c,rfl,rfl,hc',hk,hent⟩
  rw [hblk] at hent
  exact Or.inr ⟨c,rfl,hc',hk,rfl,i,rfl,hent⟩

theorem On.wp_mfsGet {B : Finset (ℕ × ℤ)} (hd : Disk E bs B C s.scache)
    (hB : (T.dev.toNat,(T.blk bs node.toNat : ℤ)) ∈ B) :
    wp (Filesys.mfsGet E T.sb T.dev node) (fun ip t => ∃ c, t = { s with scache := c } ∧ Disk E bs B C c ∧
      Keeps s.scache c ∧ T.Points bs ip c node.toNat) X s := by
  have hblk := h.blk_eq hn
  rw [h.mfsGet_eq,wp_bind]
  refine wp_get_keeps h.usable hd (by rw [hblk]; exact ⟨h.valid _ hn,h.blk_ne _,hB⟩) (fun i c hd' hent hk _ => ?_)
  rw [hblk] at hent
  exact ⟨c,rfl,hd',hk,rfl,i,rfl,hent⟩

end Get

end Table

end Micron.Filesys

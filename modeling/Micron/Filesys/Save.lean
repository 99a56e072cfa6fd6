import Micron.Filesys.Tree

/-! # Saving a node and its children

`mfs_snode` writes the records of a node and of all its children, each with its links as
inode numbers, and writes the block of each back to the disk. The other records keep their
bytes.
-/
namespace Micron.Filesys
open Function Bytes Kernel Scache Prog
variable {E : Env} {bs : BlkSizes} {C : Content} {T : Table} {o : ℕ → Ofile} {s t : State} {X : State → Prop}
  {p q node : VPtr} {c : Scache} {ip : IPtr}

/-! ## One record in memory -/

def Inode.save (r : Inode) (v : Vnode) (next parent child : UInt32) : Inode where
  str := v.str
  ino := v.ino
  mode := v.mode
  nlink := v.nlink
  uid := v.uid
  gid := v.gid
  rdev := v.rdev
  size := v.size
  atime := v.atime
  mtime := v.mtime
  ctime := v.ctime
  blkentry := v.blkentry
  blocks := v.blocks
  next := next
  parent := parent
  child := child
  expand := r.expand

/-- The stores of `mfs_snode` for the record at `a`; the parent is not always stored. -/
def storeRecord (m : ℕ → UInt8) (a : ℕ) (v : Vnode) (next : UInt32) (parent : Option UInt32) (child : UInt32) :
    ℕ → UInt8 :=
  let m := put m (a + 0) (v.str ++ [0])
  let m := put m (a + 68) (le32 v.ino ++ le32 v.mode ++ le32 v.nlink ++ le16 v.uid ++ le16 v.gid ++ le32 v.rdev ++
    le32 v.size ++ le32 v.atime ++ le32 v.mtime ++ le32 v.ctime ++ le32 v.blkentry.toUInt32 ++
    le32 v.blocks.toUInt32)
  let m := put m (a + 112) (le32 next)
  let m := match parent with
    | some n => put m (a + 116) (le32 n)
    | none => m
  put m (a + 120) (le32 child)

theorem Vnode.str_no_nul (v : Vnode) : 0 ∉ v.str := fun h => absurd (List.mem_takeWhile_imp h) (by simp)

section Store
variable {m : ℕ → UInt8} {a : ℕ} {v : Vnode} {next child : UInt32} {parent : Option UInt32}
  (hstr : v.str.length < NVNAMLEN)
include hstr

theorem storeRecord_frame {k : ℕ} (hk : k < a ∨ a + INODESZ ≤ k) : storeRecord m a v next parent child k = m k := by
  simp only [NVNAMLEN,INODESZ] at *
  cases parent <;> simp only [storeRecord] <;>
    simp (disch := simp; omega) only [put_frame]

theorem read_storeRecord : Inode.read (storeRecord m a v next parent child) a =
    (Inode.read m a).save v next (parent.getD (Inode.read m a).parent) child := by
  have hlen : (v.str ++ [0]).length ≤ 68 := by
    rw [List.length_append]
    exact hstr
  -- the parent is stored between the next link and the child
  have hlast : ∀ m' : ℕ → UInt8, At m' a (v.str ++ [0]) →
      At m' (a + 68) (le32 v.ino ++ le32 v.mode ++ le32 v.nlink ++ le16 v.uid ++ le16 v.gid ++ le32 v.rdev ++
        le32 v.size ++ le32 v.atime ++ le32 v.mtime ++ le32 v.ctime ++ le32 v.blkentry.toUInt32 ++
        le32 v.blocks.toUInt32) → At m' (a + 112) (le32 next) →
      get32 m' (a + 116) = parent.getD (Inode.read m a).parent → get32 m' (a + 124) = get32 m (a + 124) →
      Inode.read (put m' (a + 120) (le32 child)) a =
        (Inode.read m a).save v next (parent.getD (Inode.read m a).parent) child := by
    intro m' hname hfields hnext hparent hexpand
    have hname' := hname.put (r := le32 child) (b := a + 120) (Or.inl (by omega))
    have hfields' := hfields.put (r := le32 child) (b := a + 120) (Or.inl (by simp))
    have hnext' := hnext.put (r := le32 child) (b := a + 120) (Or.inl (by simp))
    simp only [at_append,List.length_append,le32_length,le16_length,Nat.add_assoc,Nat.reduceAdd,and_assoc] at hfields'
    obtain ⟨h0,h1,h2,h3,h4,h5,h6,h7,h8,h9,h10,h11⟩ := hfields'
    have hstr' := cstr_of_at hname' v.str_no_nul (Nat.lt_trans hstr (show NVNAMLEN < INODESZ by decide))
    simp only [Inode.read,Inode.save,hstr',get32_of_at h0,get32_of_at h1,get32_of_at h2,get16_of_at h3,
      get16_of_at h4,get32_of_at h5,get32_of_at h6,get32_of_at h7,get32_of_at h8,get32_of_at h9,get32_of_at h10,
      get32_of_at h11,get32_of_at hnext',get32_of_at at_put,Int32.toInt32_toUInt32]
    rw [get32_put (Or.inl (by omega)),hparent,get32_put (Or.inr (by simp)),hexpand]
    rfl
  cases parent with
  | none =>
    refine hlast _ ?_ ?_ at_put ?_ ?_
    · exact (at_put.put (Or.inl (by omega))).put (Or.inl (by omega))
    · exact at_put.put (Or.inl (by simp))
    · rw [get32_put (Or.inr (by simp)),get32_put (Or.inr (by simp)),get32_put (Or.inr (by omega))]
      rfl
    · rw [get32_put (Or.inr (by simp)),get32_put (Or.inr (by simp)),get32_put (Or.inr (by omega))]
  | some n =>
    refine hlast _ ?_ ?_ ?_ (get32_of_at at_put) ?_
    · exact ((at_put.put (Or.inl (by omega))).put (Or.inl (by omega))).put (Or.inl (by omega))
    · exact (at_put.put (Or.inl (by simp))).put (Or.inl (by simp))
    · exact at_put.put (Or.inl (by simp))
    · rw [get32_put (Or.inr (by simp)),get32_put (Or.inr (by simp)),get32_put (Or.inr (by simp)),
        get32_put (Or.inr (by omega))]

end Store

/-! ## Links as numbers -/

def State.numOf (s : State) (q : VPtr) : UInt32 := if q = .null then 0 else (s.vnode q).ino

def State.childNum (E : Env) (s : State) (q : VPtr) : UInt32 :=
  if (s.vnode q).child.isNode && decide ((s.vnode (s.vnode q).child).parent = q) then (s.vnode (s.vnode q).child).ino
  else (s.vnode q).child.toIno E

theorem wp_nextIno {Q : UInt32 → State → Prop} (hq : q.isNode)
    (hn : (s.vnode q).next = .null ∨ (s.vnode q).next.isNode) :
    wp (nextIno q) Q X s ↔ Q (s.numOf (s.vnode q).next) s := by
  rw [nextIno,wp_bind,wp_vnode hq,State.numOf]
  by_cases hnull : (s.vnode q).next = .null
  · rw [if_neg (not_not.mpr hnull),if_pos hnull,wp_pure]
  · rw [if_pos hnull,if_neg hnull,wp_bind,wp_vnode (hn.resolve_left hnull),wp_pure]

theorem wp_childIno {Q : UInt32 → State → Prop} (hq : q.isNode) :
    wp (childIno E q) Q X s ↔ Q (s.childNum E q) s := by
  rw [childIno,wp_bind,wp_vnode hq,wp_bind,wp_loaded hq,State.childNum]
  split
  · rename_i h
    rw [wp_bind,wp_vnode (Bool.and_eq_true_iff.mp h).1,wp_pure]
  · exact wp_pure _

/-! ## One record on the disk -/

theorem wp_setInode {Q : Unit → State → Prop} {i off : ℕ} {l : List UInt8} (hi : ip.sp = some i)
    (hle : ip.off + INODESZ ≤ NMXBLKSZ) : wp (setInode ip off l) Q X s ↔ Q () { s with
      scache := { s.scache with
        buf := update s.scache.buf (some i) (put (s.scache.buf (some i)) (ip.off + off) l) } } := by
  rw [setInode,if_neg (Nat.not_lt.mpr hle),hi]
  exact wp_setBuffer

structure Savable (T : Table) (s : State) (q : VPtr) : Prop where
  isNode : q.isNode
  lt : s.ino q < T.count
  str : (s.vnode q).str.length < NVNAMLEN
  next : (s.vnode q).next = .null ∨ (s.vnode q).next.isNode

def Table.save (E : Env) (s : State) (node q : VPtr) (child : Bool) (T : Table) : Table :=
  { T with
    record := update T.record (s.ino q) ((T.record (s.ino q)).save (s.vnode q) (s.numOf (s.vnode q).next)
      (if child then (s.vnode node).ino else (T.record (s.ino q)).parent) (s.childNum E q)) }

structure Backed (E : Env) (bs : BlkSizes) (C : Content) (T : Table) (c : Scache) : Prop where
  cached : Cached E bs C c
  table : T.On E bs C
  stored : ∀ n < T.count, c.OnDisk (volume bs E.devs) C T.dev.toNat (T.blk bs n)

/-- Two records of one block do not overlap. -/
theorem Table.On.off_disjoint (h : T.On E bs C) {n k : ℕ} (hb : T.blk bs n = T.blk bs k) (hne : n ≠ k) :
    T.off bs n + INODESZ ≤ T.off bs k ∨ T.off bs k + INODESZ ≤ T.off bs n := by
  have hdvd : INODESZ ∣ T.len bs := Nat.dvd_trans (by decide : INODESZ ∣ 512) (bs.aligned _)
  obtain ⟨w,hw⟩ := hdvd
  have hpos := h.len_pos
  rw [hw] at hpos
  have hw0 : 0 < w := Nat.pos_of_mul_pos_left hpos
  have hdiv : ∀ n, INODESZ * n / T.len bs = n / w := fun n => by
    rw [hw,Nat.mul_div_mul_left _ _ (by decide)]
  have hlen : T.len bs / INODESZ = w := by rw [hw,Nat.mul_div_cancel_left _ (by decide)]
  rw [Table.blk,Table.blk,hdiv,hdiv] at hb
  rw [Table.off,Table.off,hlen]
  have hmod : n % w ≠ k % w := by
    intro he
    have hn := Nat.div_add_mod n w
    have hk := Nat.div_add_mod k w
    rw [Nat.add_left_cancel hb,he] at hn
    exact hne (hn.symm.trans hk)
  rcases Nat.lt_or_gt_of_ne hmod with hlt | hlt
  · exact Or.inl ((Nat.succ_mul _ _).symm.trans_le (Nat.mul_le_mul_right _ hlt))
  · exact Or.inr ((Nat.succ_mul _ _).symm.trans_le (Nat.mul_le_mul_right _ hlt))

theorem Table.On.update (h : T.On E bs C) {n : ℕ} {r : Inode} {f : ℕ → UInt8}
    (hread : Inode.read f (T.off bs n) = r)
    (hframe : ∀ k < T.len bs, k < T.off bs n ∨ T.off bs n + INODESZ ≤ k → f k = C T.dev.toNat (T.blk bs n) k) :
    Table.On E bs (C.set T.dev.toNat (T.blk bs n) f) { T with record := Function.update T.record n r } where
  usable := h.usable
  len_pos := h.len_pos
  base_eq := h.base_eq
  base_pos := h.base_pos
  count_le := h.count_le
  valid := h.valid
  read k hk := by
    change Inode.read (C.set T.dev.toNat (T.blk bs n) f T.dev.toNat (T.blk bs k)) (T.off bs k) =
      Function.update T.record n r k
    by_cases hkn : k = n
    · rw [hkn,update_self,Content.set_self]
      exact hread
    · rw [update_of_ne hkn,← h.read k hk]
      by_cases hb : T.blk bs k = T.blk bs n
      · rw [hb,Content.set_self]
        refine Inode.read_congr (fun j hj => ?_)
        have hoff := h.off_le k
        have hdis := h.off_disjoint hb hkn
        exact hframe _ (by omega) (by omega)
      · rw [Content.set_of_ne _ (fun he => hb (Int.natCast_inj.mp (Prod.mk.inj he).2))]

theorem wp_saveNode {Q : IPtr → State → Prop} {child : Bool} {i : ℕ} (hnode : node.isNode) (hq : Savable T s q)
    (hi : ip.sp = some i) (hle : ip.off + INODESZ ≤ NMXBLKSZ) :
    wp (do
      saveFields ip (s.vnode q)
      setInode ip 112 (le32 (← nextIno q))
      if child then setInode ip 116 (le32 (← vnode node).ino)
      setInode ip 120 (le32 (← childIno E q))
      return ip) Q X s ↔
      Q ip { s with scache := { s.scache with buf := update s.scache.buf (some i) (storeRecord (s.scache.buf (some i))
        ip.off (s.vnode q) (s.numOf (s.vnode q).next) (if child then some (s.vnode node).ino else none)
        (s.childNum E q)) } } := by
  simp only [saveFields,wp_bind,wp_setInode hi hle]
  rw [wp_nextIno hq.isNode (by exact hq.next)]
  cases child with
  | false =>
    rw [if_neg (by simp),wp_bind,wp_childIno hq.isNode,wp_bind,wp_setInode hi hle,wp_pure]
    simp only [update_idem,update_self]
    exact Iff.rfl
  | true =>
    rw [if_pos rfl,wp_bind,wp_vnode hnode,wp_bind,wp_setInode hi hle,wp_bind,wp_childIno hq.isNode,wp_bind,
      wp_setInode hi hle,wp_pure]
    simp only [update_idem,update_self]
    exact Iff.rfl

def Outside (E : Env) (bs : BlkSizes) (T : Table) (C C' : Content) (c c' : Scache) : Prop :=
  ∀ d b, (volume bs E.devs).ok d b → (∀ n < T.count, (d,b) ≠ (T.dev.toNat,(T.blk bs n : ℤ))) →
    C' d b = C d b ∧ (c.OnDisk (volume bs E.devs) C d b → c'.OnDisk (volume bs E.devs) C' d b)

theorem Outside.trans {C' C'' : Content} {c' c'' : Scache} (h : Outside E bs T C C' c c')
    (h' : Outside E bs T C' C'' c' c'') : Outside E bs T C C'' c c'' := by
  intro d b hok hne
  obtain ⟨hC,hd⟩ := h d b hok hne
  obtain ⟨hC',hd'⟩ := h' d b hok hne
  exact ⟨hC'.trans hC,fun ho => hd' (hd ho)⟩

section Node
variable (hX : ∀ s t, s ≤ t → X s → X t)
include hX

/-- The record is changed in the cached copy of its block, once `mfs_get` has found it; the disk
follows later. -/
theorem saveNode_of_get {child : Bool} (h : T.On E bs C) (hnode : node.isNode) (hdev : (s.vnode node).dev = T.dev)
    (hq : Savable T s q) (hget : Ends X (mfsGet E T.sb T.dev (s.vnode q).ino) (fun ip t => ∃ c,
      t = { s with scache := c } ∧ Cached E bs C c ∧ c.disk = s.scache.disk ∧ T.Points bs ip c (s.ino q)) s) :
    Ends X (saveNode E T.sb node q child) (fun _ t => ∃ f c', t = { s with scache := c' } ∧
      Cached E bs (C.set T.dev.toNat (T.blk bs (s.ino q)) f) c' ∧ c'.disk = s.scache.disk ∧
      (∀ k < T.len bs, k < T.off bs (s.ino q) ∨ T.off bs (s.ino q) + INODESZ ≤ k →
        f k = C T.dev.toNat (T.blk bs (s.ino q)) k) ∧
      (T.save E s node q child).On E bs (C.set T.dev.toNat (T.blk bs (s.ino q)) f) ∧
      ∃ i, Entry c' i T.dev (T.blk bs (s.ino q))) s := by
  unfold Ends saveNode
  rw [wp_bind,wp_vnode hq.isNode,wp_bind,wp_vnode hnode,hdev]
  refine Ends.bind hX hget ?_
  rintro ip _ - ⟨c,rfl,⟨L,hL⟩,hdisk,hip⟩
  obtain ⟨i,hi,hent⟩ := hip.entry
  have hoff := h.off_le (s.ino q)
  have hle : ip.off + INODESZ ≤ NMXBLKSZ := by
    rw [hip.off]
    exact Nat.le_trans hoff (bs.supported _)
  have hbuf : ∀ k < T.len bs, c.buf (some i) k = C T.dev.toNat (T.blk bs (s.ino q)) k := by
    intro k hk
    have hcached := hL.cached i hent.lt k
    rw [hent.src] at hcached
    refine hcached ?_
    rw [volume_size (h.blk_ne _)]
    exact hk
  unfold Ends
  refine (wp_saveNode (s := { s with scache := c }) hnode ⟨hq.isNode,hq.lt,hq.str,hq.next⟩ hi hle).mpr ?_
  have hset := hL.set (f := storeRecord (c.buf (some i)) ip.off (s.vnode q) (s.numOf (s.vnode q).next)
    (if child then some (s.vnode node).ino else none) (s.childNum E q)) hent.lt c.mode
  rw [hent.src] at hset
  obtain ⟨j,hj,hread⟩ := (hip.reads h ⟨L,hL⟩ hq.lt).read
  obtain rfl : i = j := Option.some.inj (hi.symm.trans hj)
  rw [hip.off] at hread hset ⊢
  have hframe : ∀ k < T.len bs, k < T.off bs (s.ino q) ∨ T.off bs (s.ino q) + INODESZ ≤ k →
      storeRecord (c.buf (some i)) (T.off bs (s.ino q)) (s.vnode q) (s.numOf (s.vnode q).next)
        (if child then some (s.vnode node).ino else none) (s.childNum E q) k =
      C T.dev.toNat (T.blk bs (s.ino q)) k :=
    fun k hk hout => (storeRecord_frame hq.str hout).trans (hbuf k hk)
  refine Or.inr ⟨_,_,rfl,⟨L,hset⟩,hdisk,hframe,h.update ?_ hframe,i,⟨hent.lt,hent.src⟩⟩
  rw [read_storeRecord hq.str,hread]
  cases child <;> rfl

omit hX in
theorem Usable.sync_spec {dev : UInt32} {blk blksize : Int32} {b i : ℕ} (h : Usable E bs dev blksize)
    (hc : Cached E bs C s.scache) (hblk : blk.toInt = b) (hb : (b : ℤ) ≠ 0)
    (hvalid : (bs.request dev.toNat b).Valid E.devs) (hi : Entry s.scache i dev b) :
    Ends X (scacheSync E dev blk blksize) (fun _ t => ∃ c', t = { s with scache := c' } ∧ Cached E bs C c' ∧
      c'.OnDisk (volume bs E.devs) C dev.toNat b ∧ (∀ d b, (volume bs E.devs).ok d b →
        s.scache.OnDisk (volume bs E.devs) C d b → c'.OnDisk (volume bs E.devs) C d b) ∧
      ∀ d a, (d = dev.toNat → a < (volume bs E.devs).addr d b ∨ (volume bs E.devs).addr d b + bs.size d ≤ a) →
        c'.disk d a = s.scache.disk d a) s := by
  obtain ⟨L,hL⟩ := hc
  obtain ⟨r,disk,pos,hsync,hcoh,hkeep,hnew⟩ := hL.sync (g := bs.request dev.toNat b) hvalid (volume_fits hvalid hb)
    h.open_ok (by
      simp only [volume,BlkSizes.request,if_neg hb]
      exact Nat.div_mul_cancel (bs.aligned _))
  refine Ends.of_wp ?_
  rw [wp_scacheSync h,hblk]
  rw [show Scache.scacheSync E.devs dev.toNat b (bs.size dev.toNat) s.scache = _ from hsync]
  refine ⟨_,rfl,⟨L,hcoh⟩,hnew ⟨i,hi.lt,hi.src⟩,hkeep,fun d a hout => ?_⟩
  refine scacheSync_frame hvalid h.open_ok hsync (fun hd => ?_)
  have hlen : bs.size dev.toNat / 512 * 512 = bs.size dev.toNat := Nat.div_mul_cancel (bs.aligned _)
  have hout' := hout hd
  rw [hd] at hout'
  exact hlen.symm ▸ hout'

theorem mfsPut_spec {n : UInt32} {i : ℕ} (h : T.On E bs C) (hc : Cached E bs C s.scache) (hn : n.toNat < T.count)
    (hi : Entry s.scache i T.dev (T.blk bs n.toNat)) :
    Ends X (mfsPut E T.sb T.dev n) (fun _ t => ∃ c', t = { s with scache := c' } ∧ Cached E bs C c' ∧
      c'.OnDisk (volume bs E.devs) C T.dev.toNat (T.blk bs n.toNat) ∧
      (∀ d b, (volume bs E.devs).ok d b → s.scache.OnDisk (volume bs E.devs) C d b →
        c'.OnDisk (volume bs E.devs) C d b) ∧
      ∀ d a, (d = T.dev.toNat → a < (volume bs E.devs).addr d (T.blk bs n.toNat) ∨
          (volume bs E.devs).addr d (T.blk bs n.toNat) + bs.size d ≤ a) →
        c'.disk d a = s.scache.disk d a) s := by
  rw [h.mfsPut_eq]
  refine Ends.bind hX (h.usable.sync_spec hc (h.blk_eq hn) (h.blk_ne _) (h.valid _ hn) hi) ?_
  rintro r t - ht
  exact Or.inr ht

theorem put_spec {child : Bool} {f : ℕ → UInt8} {i : ℕ} (h : Backed E bs C T s.scache) (hq : Savable T s q)
    (hc : Cached E bs (C.set T.dev.toNat (T.blk bs (s.ino q)) f) c) (hdisk : c.disk = s.scache.disk)
    (hon : (T.save E s node q child).On E bs (C.set T.dev.toNat (T.blk bs (s.ino q)) f))
    (hent : Entry c i T.dev (T.blk bs (s.ino q))) :
    Ends X (mfsPut E T.sb T.dev (s.vnode q).ino) (fun _ t => ∃ C' c', t = { s with scache := c' } ∧
      Backed E bs C' (T.save E s node q child) c' ∧ Outside E bs T C C' s.scache c') { s with scache := c } := by
  have hput := mfsPut_spec hX (s := { s with scache := c }) hon hc hq.lt hent
  refine hput.mono ?_
  rintro _ t - ⟨c',rfl,hc',hnew,hkeep,-⟩
  -- the blocks other than the one of the record
  have hold : ∀ d b, (volume bs E.devs).ok d b → (d,b) ≠ (T.dev.toNat,(T.blk bs (s.ino q) : ℤ)) →
      s.scache.OnDisk (volume bs E.devs) C d b →
      c'.OnDisk (volume bs E.devs) (C.set T.dev.toNat (T.blk bs (s.ino q)) f) d b := by
    intro d b hok hne hd
    refine hkeep d b hok (fun k hk => ?_)
    rw [Content.set_of_ne f hne]
    exact (congrFun (congrFun hdisk d) _).trans (hd k hk)
  refine ⟨_,c',rfl,⟨hc',hon,fun n hn => ?_⟩,fun d b hok hne => ?_⟩
  · by_cases hb : T.blk bs n = T.blk bs (s.ino q)
    · change c'.OnDisk _ _ T.dev.toNat (T.blk bs n)
      rw [hb]
      exact hnew
    · exact hold _ _ (h.table.valid n hn) (fun he => hb (Int.natCast_inj.mp (Prod.mk.inj he).2)) (h.stored n hn)
  · have hne' := hne _ hq.lt
    exact ⟨Content.set_of_ne f hne',hold d b hok hne'⟩

end Node

theorem Sibs.cache {l : List ℕ} (h : Sibs s p q l) (c : Scache) : Sibs { s with scache := c } p q l :=
  h.congr (Nat.le_refl _) (fun _ _ _ => ⟨rfl,rfl,rfl⟩)

def Table.saveKids (E : Env) (s : State) (p : VPtr) (l : List ℕ) (T : Table) : Table :=
  l.foldl (fun T j => T.save E s p (.vc j) true) T

section Loop
variable (hX : Limit o X)
include hX

theorem saveNode_spec {child : Bool} (h : T.On E bs C) (hc : Cached E bs C s.scache) (hnode : node.isNode)
    (hdev : (s.vnode node).dev = T.dev) (hq : Savable T s q) :
    Ends X (saveNode E T.sb node q child) (fun _ t => ∃ f c', t = { s with scache := c' } ∧
      Cached E bs (C.set T.dev.toNat (T.blk bs (s.ino q)) f) c' ∧ c'.disk = s.scache.disk ∧
      (T.save E s node q child).On E bs (C.set T.dev.toNat (T.blk bs (s.ino q)) f) ∧
      ∃ i, Entry c' i T.dev (T.blk bs (s.ino q))) s := by
  refine (saveNode_of_get hX.mono h hnode hdev hq ?_).mono ?_
  · refine (h.mfsGet hq.lt hX hc).mono ?_
    rintro ip t - ⟨c,rfl,hc',hk,hip⟩
    exact ⟨c,rfl,hc',hk.disk,hip⟩
  · rintro ip t - ⟨f,c',ht,hc',hdisk,-,hrest⟩
    exact ⟨f,c',ht,hc',hdisk,hrest⟩

theorem snodeLoop_spec {l : List ℕ} {fuel : ℕ} (h : Backed E bs C T s.scache) (hp : p.isNode)
    (hdev : (s.vnode p).dev = T.dev) (hl : Sibs s p q l) (hne : l ≠ []) (hsave : ∀ j ∈ l, Savable T s (.vc j))
    (hfuel : l.length ≤ fuel) :
    Ends X (snodeLoop E T.sb p fuel q) (fun _ t => ∃ C' c', t = { s with scache := c' } ∧
      Backed E bs C' (T.saveKids E s p l) c' ∧ Outside E bs T C C' s.scache c') s := by
  induction l generalizing s T C q fuel with
  | nil => exact absurd rfl hne
  | cons j l ih =>
    obtain ⟨rfl,hj,hpar,hexp,hl⟩ := hl
    have hsj := hsave j List.mem_cons_self
    cases fuel with
    | zero => simp at hfuel
    | succ fuel =>
      rw [snodeLoop]
      refine Ends.bind hX.mono (saveNode_spec hX h.table h.cached hp hdev hsj) ?_
      rintro ip _ - ⟨f,c,rfl,hc,hdisk,hon,i,hent⟩
      unfold Ends
      rw [wp_bind,wp_vnode hsj.isNode,if_neg (not_not.mpr (by exact hexp)),wp_bind,wp_vnode hp]
      dsimp only
      rw [hdev]
      refine Ends.bind hX.mono (put_spec hX.mono h hsj hc hdisk hon hent) ?_
      rintro _ _ - ⟨C',c',rfl,h',hout⟩
      cases l with
      | nil =>
        rw [if_pos (by exact hl)]
        exact Or.inr ⟨C',c',rfl,h',hout⟩
      | cons k l =>
        rw [if_neg (by
          rw [hl.1]
          exact nofun)]
        refine (ih (s := { s with scache := c' }) h' hdev (hl.cache c') (by simp) (fun m hm => ?_)
          (by simpa using hfuel)).mono ?_
        · obtain ⟨hnode,hlt,hstr,hnext⟩ := hsave m (List.mem_cons_of_mem _ hm)
          exact ⟨hnode,hlt,hstr,hnext⟩
        · rintro _ t - ⟨C'',c'',rfl,h'',hout'⟩
          exact ⟨C'',c'',rfl,h'',hout.trans hout'⟩

def Table.saveAll (E : Env) (s : State) (p : VPtr) (l : List ℕ) (T : Table) : Table :=
  (T.save E s p p false).saveKids E s p l

theorem mfsSnode_spec {l : List ℕ} (h : Backed E bs C T s.scache) (hdev : (s.vnode p).dev = T.dev)
    (hl : Sibs s p (s.vnode p).child l) (hp : Savable T s p) (hsave : ∀ j ∈ l, Savable T s (.vc j))
    (hfuel : l.length ≤ E.fuel) :
    Ends X (mfsSnode E T.sb p) (fun _ t => ∃ C' c', t = { s with scache := c' } ∧
      Backed E bs C' (T.saveAll E s p l) c' ∧ Outside E bs T C C' s.scache c') s := by
  refine Ends.bind hX.mono (saveNode_spec hX h.table h.cached hp.isNode hdev hp) ?_
  rintro ip _ - ⟨f,c,rfl,hc,hdisk,hon,i,hent⟩
  unfold Ends
  rw [wp_bind,wp_vnode hp.isNode]
  dsimp only
  rw [hdev]
  refine Ends.bind hX.mono (put_spec hX.mono h hp hc hdisk hon hent) ?_
  rintro _ _ - ⟨C',c',rfl,h',hout⟩
  cases l with
  | nil =>
    rw [if_pos (by exact hl)]
    exact Or.inr ⟨C',c',rfl,h',hout⟩
  | cons j l =>
    rw [if_neg (by
      rw [hl.1]
      exact nofun)]
    refine (snodeLoop_spec hX (s := { s with scache := c' }) h' hp.isNode hdev (hl.cache c') (by simp)
      (fun m hm => ?_) hfuel).mono ?_
    · obtain ⟨hnode,hlt,hstr,hnext⟩ := hsave m hm
      exact ⟨hnode,hlt,hstr,hnext⟩
    · rintro _ t - ⟨C'',c'',rfl,h'',hout'⟩
      exact ⟨C'',c'',rfl,h'',hout.trans hout'⟩

end Loop

/-! ## The records afterwards -/

section Records
variable {l : List ℕ} {n j : ℕ}

theorem save_of_ne {child : Bool} (hn : n ≠ s.ino q) : (T.save E s p q child).record n = T.record n :=
  update_of_ne hn _ _

theorem saveKids_eq : T.saveKids E s p l = { T with record := (T.saveKids E s p l).record } := by
  induction l generalizing T with
  | nil => rfl
  | cons j l ih => exact ih

theorem saveKids_of_notMem (hn : n ∉ l.map (fun j => s.ino (.vc j))) :
    (T.saveKids E s p l).record n = T.record n := by
  induction l generalizing T with
  | nil => rfl
  | cons j l ih =>
    obtain ⟨hj,hl⟩ := not_or.mp (mt List.mem_cons.mpr hn)
    exact (ih hl).trans (save_of_ne hj)

theorem saveKids_of_mem (hnd : (l.map (fun j => s.ino (.vc j))).Nodup) (hj : j ∈ l) :
    (T.saveKids E s p l).record (s.ino (.vc j)) = (T.record (s.ino (.vc j))).save (s.vnode (.vc j))
      (s.numOf (s.vnode (.vc j)).next) (s.vnode p).ino (s.childNum E (.vc j)) := by
  induction l generalizing T with
  | nil => cases hj
  | cons k l ih =>
    obtain ⟨hk,hnd⟩ := List.nodup_cons.mp hnd
    rcases List.mem_cons.mp hj with rfl | hj
    · exact (saveKids_of_notMem hk).trans (update_self _ _ _)
    · have hne : s.ino (.vc j) ≠ s.ino (.vc k) := fun he => hk (List.mem_map.mpr ⟨j,hj,he⟩)
      refine (ih hnd hj).trans ?_
      rw [save_of_ne hne]

theorem saveAll_eq : T.saveAll E s p l = { T with record := (T.saveAll E s p l).record } := saveKids_eq

theorem saveAll_self (hp : s.ino p ∉ l.map (fun j => s.ino (.vc j))) :
    (T.saveAll E s p l).record (s.ino p) = (T.record (s.ino p)).save (s.vnode p) (s.numOf (s.vnode p).next)
      (T.record (s.ino p)).parent (s.childNum E p) :=
  (saveKids_of_notMem hp).trans (update_self _ _ _)

theorem saveAll_of_mem (hp : s.ino p ∉ l.map (fun j => s.ino (.vc j))) (hnd : (l.map (fun j => s.ino (.vc j))).Nodup)
    (hj : j ∈ l) : (T.saveAll E s p l).record (s.ino (.vc j)) = (T.record (s.ino (.vc j))).save (s.vnode (.vc j))
      (s.numOf (s.vnode (.vc j)).next) (s.vnode p).ino (s.childNum E (.vc j)) := by
  have hne : s.ino (.vc j) ≠ s.ino p := fun he => hp (List.mem_map.mpr ⟨j,hj,he⟩)
  refine (saveKids_of_mem hnd hj).trans ?_
  rw [save_of_ne hne]

theorem saveAll_of_notMem (hn : n ≠ s.ino p) (hl : n ∉ l.map (fun j => s.ino (.vc j))) :
    (T.saveAll E s p l).record n = T.record n :=
  (saveKids_of_notMem hl).trans (save_of_ne hn)

end Records

end Micron.Filesys

import Micron.Filesys.Inodes
import Micron.Filesys.Readback

/-! # New directories

`mkdir` adds one leaf to the table: in memory as the first child of its parent, and on the
disk after the parent and its children have been saved.
-/
namespace Micron.Filesys
open Function Bytes Kernel Scache Prog
variable {E : Env} {bs : BlkSizes} {C : Content} {T : Table} {o : ℕ → Ofile} {P : VPtr → Prop} {s t : State}
  {X : State → Prop} {p q : VPtr} {l : List ℕ} {j n d : ℕ}

/-! ## The step from one table to the next -/

structure Adopts (s t : State) (p : VPtr) (j : ℕ) : Prop where
  node : InTree s p
  out : ¬ InTree s (.vc j)
  inTree : ∀ q, InTree t q ↔ InTree s q ∨ q = .vc j
  vnode : ∀ q, InTree s q → t.vnode q = { s.vnode q with child := if q = p then .vc j else (s.vnode q).child }
  next : (t.vnode (.vc j)).next = (s.vnode p).child
  parent : (t.vnode (.vc j)).parent = p

/-- The record `r` has been added below `d`, in memory and on the disk, where the records
are `R` now. -/
structure Made (E : Env) (bs : BlkSizes) (o : ℕ → Ofile) (T : Table) (d : ℕ) (r : Inode) (R : ℕ → Inode)
    (C C' : Content) (s t : State) : Prop where
  takes : T.Takes d r
  first : r.ino.toNat < 8 * T.len bs
  clear : T.bit C r.ino.toNat = false
  memory : ∃ u p j, Grows s u ∧ u.ino p = d ∧ Adopts u t p j
  like : (T.insert d r).Like R
  mode : (R r.ino.toNat).mode = r.mode
  table : Table.On E bs C' { T.insert d r with record := R }
  mapped : Table.Mapped E bs C' { T.insert d r with record := R }
  bits : ∀ m < T.sb.cnt .IBLK * (8 * T.len bs), T.bit C' m = if m = r.ino.toNat then true else T.bit C m
  tree : Tree E bs C' { T.insert d r with record := R } o (fun _ => True) t
  rooted : Rooted t
  saved : Resaves T.record s d (T.kids d) R
  other : ∀ n, n ≠ d → n ∉ r.ino.toNat :: T.kids d → R n = T.record n

theorem Complete.cache (h : Complete T s p) (c : Scache) : Complete T { s with scache := c } p := by
  obtain ⟨l,hl,hmap⟩ := h
  exact ⟨l,⟨hl.sibs.cache c,hl.initial⟩,hmap⟩

theorem Complete.beside (h : Complete T s p) (hb : Beside s t) (hp : InTree s p) : Complete T t p := by
  obtain ⟨l,hl,hmap⟩ := h
  refine ⟨l,hl.beside hb hp,?_⟩
  rw [hb.ino hp,List.map_congr_left (fun j hj => hb.ino (hp.child hl.sibs hj))]
  exact hmap

theorem Table.Mapped.bit_outside {C₁ C' : Content} {c c' : Scache} {m : ℕ} (hm : T.Mapped E bs C)
    (hon : T.On E bs C) (hout : Outside E bs T C₁ C' c c') (hlt : m < T.sb.cnt .IBLK * (8 * T.len bs)) :
    T.bit C' m = T.bit C₁ m := by
  have hpos : 0 < 8 * T.len bs := Nat.mul_pos (by decide) hon.len_pos
  have hq : m / (8 * T.len bs) < T.sb.cnt .IBLK := (Nat.div_lt_iff_lt_mul hpos).mpr hlt
  have hblk := (hout T.dev.toNat (T.sb.base .IBLK + m / (8 * T.len bs) : ℕ) (hm.valid _ hq) (fun n hn he =>
    hm.apart _ hq n hn (Int.natCast_inj.mp (Prod.mk.inj he).2))).1
  rw [Table.bit,Table.bit,bitOf,bitOf,hon.len_eq,hblk]

/-! ## Linking and saving -/

structure Vnode.Prepared (w : Vnode) (dev : UInt32) (n : ℕ) (p next : VPtr) : Prop where
  ino : w.ino = n.toUInt32
  dev_eq : w.dev = dev
  str : w.str.length < NVNAMLEN
  parent : w.parent = p
  child : w.child = .null
  next_eq : w.next = next
  expand : w.expand = .null

def State.prepare (s : State) (c : Scache) (a : List Alloc) (k : ℕ) (w : Vnode) : State :=
  { s with
    scache := c
    vlist := s.vlist.append
    allocs := a
    times := k
    vnode := update s.vnode (.vc s.vlist.cnt) w }

theorem prepare_setChild {c : Scache} {a : List Alloc} {k : ℕ} {w : Vnode} (hp : InTree s p) (q : VPtr) :
    (s.prepare c a k w).setChild p q = { s with
      scache := c
      vlist := s.vlist.append
      allocs := a
      times := k
      vnode := update (update s.vnode (.vc s.vlist.cnt) w) p { s.vnode p with child := q } } := by
  have hold : (s.prepare c a k w).vnode p = s.vnode p := update_of_ne hp.ne_new _ _
  rw [State.setChild,hold]
  rfl

def Vnode.newDir (v : Vnode) (name : List UInt8) (dev ino mode atime mtime ctime : UInt32) (p next : VPtr) : Vnode where
  name := Bytes.strcpy v.name name
  dev := dev
  ino := ino
  mode := (mode &&& 0xFFF) ||| S_IFDIR
  nlink := 0
  uid := 0
  gid := 0
  rdev := 0
  size := 0
  atime := atime
  mtime := mtime
  ctime := ctime
  blkentry := 0
  blocks := 0
  next := next
  parent := p
  child := .null
  expand := .null

theorem Vnode.newDir_str (v : Vnode) {name : List UInt8} (dev ino mode atime mtime ctime : UInt32) (p next : VPtr)
    (hnul : 0 ∉ name) (hlen : name.length < NVNAMLEN) :
    (v.newDir name dev ino mode atime mtime ctime p next).str = name := by
  have hcopy := cstr_strcpy v.name hnul hlen
  rw [Vnode.str,Vnode.bytes,cstr_append_right]
  · exact hcopy
  · rw [Vnode.newDir,hcopy,List.length_ofFn]
    exact hlen

theorem Vnode.newDir_prepared (v : Vnode) {name : List UInt8} {dev dev' : UInt32} (hdev : dev = dev') (n : ℕ)
    (mode atime mtime ctime : UInt32) (p next : VPtr) (hnul : 0 ∉ name) (hlen : name.length < NVNAMLEN) :
    (v.newDir name dev n.toUInt32 mode atime mtime ctime p next).Prepared dev' n p next where
  ino := rfl
  dev_eq := hdev
  str := by
    rw [v.newDir_str dev n.toUInt32 mode atime mtime ctime p next hnul hlen]
    exact hlen
  parent := rfl
  child := rfl
  next_eq := rfl
  expand := rfl

section Link
variable (hX : Limit o X) (hon : T.On E bs C) (hT : T.Shaped E.fuel) (hcount : T.count ≤ E.fuel)
  (hm : T.Mapped E bs C) (h : Tree E bs C T o (fun _ => True) s) (hroot : Rooted s) (hp : InTree s p)
  (hc : Complete T s p) {C₁ : Content} {c₁ : Scache} (hn : n < 8 * T.len bs) (hclear : T.bit C n = false)
  (hc₁ : Cached E bs C₁ c₁) (hmarks : Marks E bs T n true C C₁ s.scache c₁) (hv : s.vlist.append.Unused NVCHCNTS)
  {w : Vnode} (hw : w.Prepared T.dev n p (s.vnode p).child) (a : List Alloc) (k : ℕ)

def newRecord (T : Table) (d n : ℕ) (w : Vnode) : Inode := (T.record n).save w (T.record d).child 0 0

include hon hm hn hw

theorem newRecord_ino : (newRecord T d n w).ino.toNat = n := by
  have hlt := hm.index_lt hon hn
  change w.ino.toNat = n
  rw [hw.ino]
  exact Nat.mod_eq_of_lt (Nat.lt_trans hlt (by decide))

include h hp hclear

theorem newRecord_takes : T.Takes (s.ino p) (newRecord T (s.ino p) n w) := by
  have hino := newRecord_ino (d := s.ino p) hon hm hn hw
  refine ⟨h.used p hp,?_,?_,⟨w.str_no_nul,hw.str⟩,rfl,rfl,?_⟩
  · rw [hino]
    intro hu
    rw [hm.marked n hu hn] at hclear
    exact Bool.noConfusion hclear
  · rw [hino]
    exact Nat.lt_of_lt_of_le hn hm.bits_le
  · rw [hino]
    rfl

omit hon hm hn hp hclear hw in
theorem prepare_beside : Beside { s with scache := c₁ } (s.prepare c₁ a k w) := by
  refine Beside.alloc (s := { s with scache := c₁ }) (fun q hq => update_of_ne hq.ne_new _ _) (fun i hi => ?_)
  rw [update_of_ne (fun he => absurd (VPtr.vc.inj he) (Nat.ne_of_gt hi))]
  exact h.fresh i (Nat.le_of_lt hi)

omit hon hm h hn hp hclear hw in
theorem prepare_vnode (hq : InTree s q) : (s.prepare c₁ a k w).vnode q = s.vnode q := update_of_ne hq.ne_new _ _

include hc₁ hmarks

omit hclear hp hw in
theorem prepare_inTree : InTree (s.prepare c₁ a k w) q ↔ InTree s q :=
  ((prepare_beside h a k).inTree (hmarks.tree hm (hm.first_lt hn) h hc₁ hon)).trans (inTree_cache c₁)

omit hclear in
theorem prepare_ready : Ready T (s.prepare c₁ a k w) p s.vlist.cnt (newRecord T (s.ino p) n w) := by
  have hnew : (s.prepare c₁ a k w).vnode (.vc s.vlist.cnt) = w := update_self _ _ _
  refine ⟨?_,?_,?_,?_,?_,?_,?_,?_⟩
  · change s.vlist.cnt < s.vlist.append.cnt
    rw [AllocList.append_cnt]
    omega
  · rw [prepare_inTree hon hm h hn hc₁ hmarks]
    exact fun hin => hin.ne_new rfl
  · rw [hnew]
    exact hw.parent
  · rw [hnew,prepare_vnode a k hp]
    exact hw.next_eq
  · rw [hnew]
    exact hw.child
  · rw [hnew]
    exact hw.expand
  · rw [hnew]
    exact hw.dev_eq
  · rw [hnew]
    exact ⟨rfl,rfl,rfl,rfl,rfl,rfl,rfl,rfl,rfl,rfl,rfl,rfl,rfl⟩

include hX hT hcount hroot hc hv

theorem linkNew_spec :
    Ends X (mfsSnode E T.sb p) (fun _ t => ∃ R C',
      Made E bs o T (s.ino p) (newRecord T (s.ino p) n w) R C C' s t)
      ((s.prepare c₁ a k w).setChild p (.vc s.vlist.cnt)) := by
  have hr := newRecord_takes hon hm h hp hn hclear hw
  have hino := newRecord_ino (d := s.ino p) hon hm hn hw
  have hb : Beside { s with scache := c₁ } (s.prepare c₁ a k w) := prepare_beside h a k
  have h₁ := hmarks.tree hm (hm.first_lt hn) h hc₁ hon
  have h₂ := h₁.beside hb hv hc₁
  have hon₁ := hmarks.on hm (hm.first_lt hn) hon
  have hp₂ := hb.mono (hp.cache c₁)
  have hd : (s.prepare c₁ a k w).ino p = s.ino p := hb.ino (hp.cache c₁)
  obtain ⟨l,hl,hmap⟩ := (hc.cache c₁).beside hb (hp.cache c₁)
  have hready := prepare_ready hon hm h hp hn hc₁ hmarks hw a k
  rw [← hd] at hr hready hino ⊢
  have h₃ := h₂.link hp₂ hl hmap hready hr hT
  have hroot₃ : Rooted ((s.prepare c₁ a k w).setChild p (.vc s.vlist.cnt)) :=
    hroot.congr ⟨_,by rw [setChild_vnode,prepare_vnode a k .root]⟩
  have hp₃ : InTree ((s.prepare c₁ a k w).setChild p (.vc s.vlist.cnt)) p :=
    (link_inTree h₂ hp₂ hl hready).mpr (Or.inl hp₂)
  refine (h₃.snode (hT.insert hr hcount) hroot₃ hX hp₃ (link_complete hl hmap hready) (D := T.record) ?_ ?_ ?_).mono ?_
  · exact ⟨hon₁.usable,hon₁.len_pos,hon₁.base_eq,hon₁.base_pos,hon₁.count_le,hon₁.valid,hon₁.read⟩
  · intro i hi hkids
    rw [setChild_ino] at hi hkids
    rw [insert_kids_self] at hkids
    rw [insert_record_old (fun he => hkids (he ▸ List.mem_cons_self)),if_neg hi]
  · exact fun i => (insert_expand hr).symm
  rintro _ t - ⟨C',c,R,rfl,hlike,hon',htree,hout,hrew⟩
  have hout' : Outside E bs T C₁ C' c₁ c := hout
  have hbits : ∀ m < T.sb.cnt .IBLK * (8 * T.len bs), T.bit C' m = if m = n then true else T.bit C m := by
    intro m hlt
    rw [hm.bit_outside hon hout' hlt]
    exact hmarks.bits m
  have hfirst : ∀ m < 8 * T.len bs, m < T.sb.cnt .IBLK * (8 * T.len bs) :=
    fun m hlt => Nat.lt_of_lt_of_le hlt (Nat.le_mul_of_pos_left _ hm.cnt_pos)
  have hnew : (s.prepare c₁ a k w).vnode (.vc s.vlist.cnt) = w := update_self _ _ _
  have hadopts : Adopts s { (s.prepare c₁ a k w).setChild p (.vc s.vlist.cnt) with scache := c } p s.vlist.cnt := by
    refine ⟨hp,fun hin => hin.ne_new rfl,fun q => ?_,fun q hq => ?_,?_,?_⟩
    · rw [inTree_cache,link_inTree h₂ hp₂ hl hready,prepare_inTree hon hm h hn hc₁ hmarks]
    · change ((s.prepare c₁ a k w).setChild p (.vc s.vlist.cnt)).vnode q = _
      rw [setChild_vnode,prepare_vnode a k hq]
    · change (((s.prepare c₁ a k w).setChild p (.vc s.vlist.cnt)).vnode (.vc s.vlist.cnt)).next = _
      rw [setChild_vnode,hnew]
      exact hw.next_eq
    · change (((s.prepare c₁ a k w).setChild p (.vc s.vlist.cnt)).vnode (.vc s.vlist.cnt)).parent = _
      rw [setChild_vnode,hnew]
      exact hw.parent
  have hmode : (R (newRecord T ((s.prepare c₁ a k w).ino p) n w).ino.toNat).mode = w.mode := by
    have hshows := htree.shows s.vlist.cnt ((hadopts.inTree _).mpr (Or.inr rfl))
    have hcnt : State.ino { (s.prepare c₁ a k w).setChild p (.vc s.vlist.cnt) with scache := c } (.vc s.vlist.cnt) =
        (newRecord T ((s.prepare c₁ a k w).ino p) n w).ino.toNat := (setChild_ino _).trans hready.ino
    rw [hcnt] at hshows
    rw [← hshows.mode]
    change (((s.prepare c₁ a k w).setChild p (.vc s.vlist.cnt)).vnode (.vc s.vlist.cnt)).mode = _
    rw [setChild_vnode,hnew]
  have hold : (s.prepare c₁ a k w).vnode (.root 0) = s.vnode (.root 0) := prepare_vnode a k .root
  have hsaved : Resaves T.record s ((s.prepare c₁ a k w).ino p) (T.kids ((s.prepare c₁ a k w).ino p)) R :=
    (link_resaves h₂ hp₂ hl hmap hready hr hT hcount (hroot.congr ⟨_,hold⟩) hrew).congr ⟨_,hold⟩
  refine ⟨R,C',⟨hr,hino ▸ hn,hino ▸ hclear,⟨s,p,_,.refl s,hd.symm,hadopts⟩,hlike,hmode,hon',?_,?_,htree,
    hroot₃.congr ⟨_,rfl⟩,hsaved,fun m hne hmem => hrew.other m ?_ ?_⟩⟩
  · refine ⟨hm.bmp_pos,hm.cnt_pos,hm.valid,hm.apart,hm.bits_le,fun m hu hlt => ?_⟩
    refine (hbits m (hfirst m hlt)).trans ?_
    rcases hu with hu | rfl
    · rw [hm.marked m hu hlt,ite_self]
    · exact if_pos hino
  · rw [hino]
    exact hbits
  · rw [setChild_ino]
    exact hne
  · rw [setChild_ino,insert_kids_self]
    exact hmem

end Link

theorem Made.grows {r : Inode} {R : ℕ → Inode} {C' : Content} {u : State} (hg : Grows s u)
    (h : Made E bs o T d r R C C' u t) : Made E bs o T d r R C C' s t := by
  obtain ⟨u',p,j,hg',hd,had⟩ := h.memory
  exact { h with memory := ⟨u',p,j,hg.trans hg',hd,had⟩, saved := h.saved.congr ⟨_,hg.vnode _ .root⟩ }

/-! ## The call -/

theorem wp_time {Q : UInt32 → State → Prop} :
    wp (time E) Q X s ↔ Q (E.clock s.times) { s with times := s.times + 1 } := Iff.rfl

structure Filled (E : Env) (bs : BlkSizes) (C : Content) (T : Table) (o : ℕ → Ofile) (d k : ℕ) (u : State) (p : VPtr)
    (C₁ : Content) (c₁ : Scache) (w : Vnode) : Prop where
  tree : Tree E bs C T o (fun _ => True) u
  node : InTree u p
  ino : u.ino p = d
  complete : Complete T u p
  lt : k < 8 * T.len bs
  cached : Cached E bs C₁ c₁
  marks : Marks E bs T k true C C₁ u.scache c₁
  unused : u.vlist.append.Unused NVCHCNTS
  prepared : w.Prepared T.dev k p (u.vnode p).child

theorem mkdir_fills {dirs : List (List UInt8)} {name : List UInt8} {Q : State → Prop} (hX : Limit o X)
    (hon : T.On E bs C) (hT : T.Shaped E.fuel) (hdev : T.dev ≠ 0) (hm : T.Mapped E bs C)
    (h : Tree E bs C T o (fun _ => True) s) (hpath : ∀ c ∈ dirs ++ [name], slash ∉ c)
    (hd : T.resolve 0 dirs = some d) (hlen : name.length < NVNAMLEN) (hnul : 0 ∉ name)
    (hn : n < T.sb.cnt .IBLK * (8 * T.len bs)) (hclear : T.bit C n = false) (mode : UInt32)
    (hsave : ∀ k u p C₁ c₁ w a i, Grows s u → Filled E bs C T o d k u p C₁ c₁ w →
      (n < 8 * T.len bs → T.bit C k = false) → w.str = name → w.mode = (mode &&& 0xFFF) ||| S_IFDIR →
      Ends X (mfsSnode E T.sb p) (fun _ t => Q t) ((u.prepare c₁ a i w).setChild p (.vc u.vlist.cnt))) :
    Ends X (mkdir E (absPath (dirs ++ [name])) mode) (fun r t => r = 0 ∧ Q t) s := by
  refine Ends.bind hX.mono (vget_absPath hon hT hX hdev h hpath true) ?_
  rintro p u - ⟨hu,hg,hp,hc⟩
  rw [if_pos rfl,List.append_nil,hd] at hp
  obtain ⟨hp,rfl⟩ := hp
  have hcomplete := hc hp.ne_null
  have herr : p ≠ .err := by
    rintro rfl
    exact absurd hp.isNode (by decide)
  rw [if_neg hp.ne_null,if_neg herr]
  unfold Ends
  rw [wp_bind,wp_vnode hp.isNode,hu.dev p hp,wp_bind]
  refine wp_of_run (mountabGet_tree hu) ?_
  dsimp only
  rw [wp_bind,wp_mount,wp_bind,wp_vnode hp.isNode,hu.dev p hp,hu.sole.sblk,hu.sole.fs]
  refine Ends.bind hX.mono (mfsIalloc_spec hon hm hX hu.cached hu.vlist hu.ofile hn hclear) ?_
  rintro _ t - ⟨k,C₁,c₁,rfl,hk,hkclear,hc₁,hmarks,hv,rfl⟩
  have hj : (VPtr.vc u.vlist.cnt).isNode := rfl
  have hjp : p ≠ .vc u.vlist.cnt := hp.ne_new
  unfold Ends
  simp only [wp_bind,wp_vnode hj,wp_vnode hp.isNode,splitPath_absPath hpath,Vnode.strcpy_eq _ hlen,wp_setVnode hj,
    wp_setVnode hp.isNode,wp_time,update_self,update_idem,update_of_ne hjp]
  have hw := (u.vnode (.vc u.vlist.cnt)).newDir_prepared (hu.dev p hp) k mode (E.clock u.times)
    (E.clock (u.times + 1)) (E.clock (u.times + 1 + 1)) p (u.vnode p).child hnul hlen
  have hlink := hsave k u p C₁ c₁ _ (u.allocs ++ [⟨u.vlist,u.ofile,some u.vlist.cnt⟩]) (u.times + 1 + 1 + 1) hg
    ⟨hu,hp,rfl,hcomplete,hk,hc₁,hmarks,hv,hw⟩ hkclear (Vnode.newDir_str _ _ _ _ _ _ _ _ _ hnul hlen) rfl
  rw [prepare_setChild hp,Vnode.newDir] at hlink
  refine wp.mono hlink (fun _ t _ ht => ht.imp_right ?_) (fun _ _ hx => hx)
  exact fun hq => ⟨rfl,hq⟩

theorem mkdir_spec {dirs : List (List UInt8)} {name : List UInt8} (hX : Limit o X) (hon : T.On E bs C)
    (hT : T.Shaped E.fuel) (hcount : T.count ≤ E.fuel) (hdev : T.dev ≠ 0) (hm : T.Mapped E bs C)
    (h : Tree E bs C T o (fun _ => True) s) (hroot : Rooted s) (hpath : ∀ c ∈ dirs ++ [name], slash ∉ c)
    (hd : T.resolve 0 dirs = some d) (hlen : name.length < NVNAMLEN) (hnul : 0 ∉ name)
    (hn : n < 8 * T.len bs) (hclear : T.bit C n = false) (mode : UInt32) :
    Ends X (mkdir E (absPath (dirs ++ [name])) mode) (fun a t => a = 0 ∧ ∃ r R C', r.str = name ∧
      r.mode = (mode &&& 0xFFF) ||| S_IFDIR ∧ Made E bs o T d r R C C' s t) s := by
  refine mkdir_fills hX hon hT hdev hm h hpath hd hlen hnul (hm.first_lt hn) hclear mode ?_
  intro k u p C₁ c₁ w a i hg hf hk hstr hmode
  have hlink := linkNew_spec hX hon hT hcount hm hf.tree (hg.rooted hroot) hf.node hf.complete hf.lt (hk hn) hf.cached
    hf.marks hf.unused hf.prepared a i
  rw [hf.ino] at hlink
  refine hlink.mono ?_
  rintro _ t - ⟨R,C',hmade⟩
  exact ⟨_,R,C',hstr,hmode,hmade.grows hg⟩

/-! ## What lookups find -/

structure Serves (E : Env) (bs : BlkSizes) (C : Content) (T : Table) (s : State) : Prop where
  dev_ne : T.dev ≠ 0
  table : T.On E bs C
  shaped : T.Shaped E.fuel
  tree : Tree E bs C T s.ofile (fun _ => True) s

structure Extensible (E : Env) (bs : BlkSizes) (C : Content) (T : Table) (s : State) : Prop extends
    Serves E bs C T s where
  count_le : T.count ≤ E.fuel
  mapped : T.Mapped E bs C
  rooted : Rooted s

def components (path : List UInt8) : List (List UInt8) := (splitPath path.tail).1 ++ [(splitPath path.tail).2]

def Table.find (T : Table) (path : List UInt8) : Option ℕ :=
  if path.head? = some slash then T.resolve 0 (components path) else none

theorem absPath_splitPath (cs : List UInt8) : absPath ((splitPath cs).1 ++ [(splitPath cs).2]) = slash :: cs := by
  induction cs with
  | nil => rfl
  | cons c cs ih =>
    rw [splitPath]
    generalize splitPath cs = x at ih
    obtain ⟨dirs,name⟩ := x
    by_cases hc : c = slash
    · simp only [if_pos hc,List.cons_append,absPath,List.nil_append]
      rw [ih,hc]
    · simp only [if_neg hc]
      cases dirs with
      | nil => simpa [absPath] using ih
      | cons d dirs => simpa [absPath] using ih

theorem splitPath_slash (cs : List UInt8) : ∀ c ∈ (splitPath cs).1 ++ [(splitPath cs).2], slash ∉ c := by
  induction cs with
  | nil => simp [splitPath]
  | cons c cs ih =>
    rw [splitPath]
    generalize splitPath cs = x at ih
    obtain ⟨dirs,name⟩ := x
    by_cases hc : c = slash
    · simpa [if_pos hc] using ih
    · have hc' : ¬ slash = c := fun he => hc he.symm
      cases dirs with
      | nil => simpa [if_neg hc,hc'] using ih
      | cons d dirs => simpa [if_neg hc,hc'] using ih

theorem absPath_components {path : List UInt8} (h : path.head? = some slash) : absPath (components path) = path := by
  cases path with
  | nil => cases h
  | cons c cs =>
    obtain rfl : c = slash := Option.some.inj h
    exact absPath_splitPath cs

/-- The lookup of a path ends with `Q`, unless a cache is full afterwards. -/
def Answers (E : Env) (s : State) (path : List UInt8) (Q : VPtr → State → Prop) : Prop :=
  ¬ Full ((vget E path false).run s).2 → ∃ p t, (vget E path false).run s = (.ok p,t) ∧ Q p t

def Resolves (E : Env) (s : State) (path : List UInt8) (r : Option ℕ) : Prop :=
  Answers E s path (fun p t => match r with
    | none => p = .null ∨ p = .err
    | some n => p.isNode ∧ t.ino p = n)

theorem Answers.mono {path : List UInt8} {Q Q' : VPtr → State → Prop} (h : Answers E s path Q)
    (hQ : ∀ p t, Q p t → Q' p t) : Answers E s path Q' := by
  intro hfull
  obtain ⟨p,t,hrun,hq⟩ := h hfull
  exact ⟨p,t,hrun,hQ p t hq⟩

theorem Serves.vget {X : State → Prop} (h : Serves E bs C T s) (hX : Limit s.ofile X) (path : List UInt8) :
    Ends X (vget E path false) (fun p t => Serves E bs C T t ∧ t.ofile = s.ofile ∧ Grows s t ∧
      match T.find path with
      | none => p = .null ∨ p = .err
      | some n => n ≠ 0 ∧ InTree t p ∧ t.ino p = n ∧ Complete T t p) s := by
  unfold Table.find
  by_cases hpath : path.head? = some slash
  · refine (vget_spec h.table h.shaped hX h.dev_ne h.tree hpath).mono ?_
    rintro p t - ⟨ht,hg,hp,hc⟩
    rw [if_neg Bool.false_ne_true] at hp
    refine ⟨⟨h.dev_ne,h.table,h.shaped,ht.ofile.symm ▸ ht⟩,ht.ofile,hg,?_⟩
    rw [if_pos hpath,components]
    cases hres : T.resolve 0 ((splitPath path.tail).1 ++ [(splitPath path.tail).2]) with
    | none =>
      rw [hres] at hp
      exact Or.inl hp
    | some n =>
      rw [hres] at hp
      exact ⟨h.shaped.resolve_ne_zero hres,hp.1,hp.2,hc hp.1.ne_null⟩
  · rw [if_neg hpath,Filesys.vget,if_pos hpath]
    exact Or.inr ⟨h,rfl,.refl s,Or.inr rfl⟩

theorem Serves.shows {n : ℕ} {p : VPtr} (h : Serves E bs C T s) (hp : InTree s p) (hn : s.ino p = n) (h0 : n ≠ 0) :
    (s.vnode p).Shows (T.record n) := by
  subst hn
  cases hp with
  | root => exact absurd h.tree.root h0
  | child hq hl hj => exact h.tree.shows _ (hq.child hl hj)

theorem Serves.answers (h : Serves E bs C T s) (path : List UInt8) : Answers E s path (fun p t =>
    match T.find path with
    | none => p = .null ∨ p = .err
    | some n => p.isNode ∧ t.ino p = n ∧ (t.vnode p).Shows (T.record n)) := by
  intro hfull
  obtain ⟨p,t,hrun,ht,-,-,hp⟩ := (h.vget (full_limit s.ofile) path).run hfull
  refine ⟨p,t,hrun,?_⟩
  cases hfind : T.find path with
  | none =>
    rw [hfind] at hp
    exact hp
  | some n =>
    rw [hfind] at hp
    exact ⟨hp.2.1.isNode,hp.2.2.1,ht.shows hp.2.1 hp.2.2.1 hp.1⟩

theorem Serves.resolves (h : Serves E bs C T s) (path : List UInt8) : Resolves E s path (T.find path) := by
  refine (h.answers path).mono (fun p t hp => ?_)
  cases hfind : T.find path with
  | none =>
    rw [hfind] at hp
    exact hp
  | some n =>
    rw [hfind] at hp
    exact ⟨hp.1,hp.2.1⟩

/-! ## All vnodes are dropped -/

/-- The vnodes and the cached blocks are dropped. What is left is the disk and the mounts. -/
def State.reload (s : State) : State :=
  { State.boot s.scache.disk with
    vnode := fun p => match p with
      | .root i => { s.vnode (.root i) with child := .null }
      | _ => .zero
    mountab := s.mountab }

theorem Table.On.of_disk {c : Scache} (hon : T.On E bs C)
    (hst : ∀ n < T.count, c.OnDisk (volume bs E.devs) C T.dev.toNat (T.blk bs n)) :
    T.On E bs (contentOf bs E.devs c.disk) where
  usable := hon.usable
  len_pos := hon.len_pos
  base_eq := hon.base_eq
  base_pos := hon.base_pos
  count_le := hon.count_le
  valid := hon.valid
  read n hn := by
    rw [← hon.read n hn]
    refine Inode.read_congr (fun k hk => hst n hn _ ?_)
    rw [volume_size (hon.blk_ne n)]
    exact Nat.lt_of_lt_of_le (Nat.add_lt_add_left hk _) (hon.off_le n)

theorem Serves.reload (h : Serves E bs C T s) : Serves E bs (contentOf bs E.devs s.scache.disk) T s.reload where
  dev_ne := h.dev_ne
  table := h.table.of_disk h.tree.stored
  shaped := h.shaped
  tree := Tree.bare h.shaped h.tree.sole ⟨_,boot_coherent⟩ rfl rfl
    (UInt32.toNat_inj.mp h.tree.root) (h.tree.dev _ .root) (fun _ => rfl)

/-! ## Images -/

section Image
variable {dev : UInt32} {im : Mkmfs.Image} {disk : ℕ → ℕ → UInt8} {calls : List Mkmfs.Call}

/-- The bitmap of an image has the bits of the inodes in use. -/
theorem Carries.bit_eq (h : Carries E dev im disk) (hb : Mkmfs.Built calls im)
    (hn : n < 8 * Mkmfs.MFS_BLKSIZE) : (imageTable dev im calls.length).bit (contentOf mfsSizes E.devs disk) n =
      decide (n < calls.length + 1) := by
  have hon := h.on (k := calls.length) hb
  have hbmp : (imageTable dev im calls.length).bmp = 1 + Mkmfs.NKBLK := by
    rw [Table.bmp,imageTable,hb.sblk]
    rfl
  have hbytes : ∀ k < Mkmfs.MFS_BLKSIZE,
      contentOf mfsSizes E.devs disk dev.toNat (1 + Mkmfs.NKBLK : ℕ) k = im.ibmp k := by
    intro k hk
    have hk' : k < 1024 := hk
    rw [← Mkmfs.mfsEnd_ibmp im (show k < Mkmfs.MFS_BLKSIZE * Mkmfs.NIBMP from hk),← h.content,contentOf]
    · simp only [volume,BlkSizes.request,Get.addr,Int.toNat_natCast,Nat.mul_assoc,
        Nat.div_mul_cancel (mfsSizes.aligned _)]
      rw [Mkmfs.ibmpAddr,Nat.mul_comm Mkmfs.MFS_BLKSIZE]
      rfl
    · simp only [Mkmfs.ibmpAddr,tableBlocks,Mkmfs.MFS_BLKSIZE,Mkmfs.INODESZ,Mkmfs.NKBLK,Mkmfs.NIBMP,Mkmfs.NDBMP,
        Mkmfs.NIBLK]
      omega
  rw [hon.bit_eq (by exact hn),← hb.used.forest.front n hn,hbmp]
  exact get_congr hbytes hn

theorem Carries.mapped (h : Carries E dev im disk) (hb : Mkmfs.Built calls im) :
    (imageTable dev im calls.length).Mapped E mfsSizes (contentOf mfsSizes E.devs disk) := by
  have hsb : (imageTable dev im calls.length).sb = Sblk.ofSuperblk Mkmfs.mfsNew.sblk := by
    rw [imageTable,hb.sblk]
  have hbase : (imageTable dev im calls.length).sb.base .IBLK = 1 + Mkmfs.NKBLK := by
    rw [hsb]
    rfl
  have hcnt : (imageTable dev im calls.length).sb.cnt .IBLK = 1 := by
    rw [hsb]
    rfl
  refine ⟨?_,?_,?_,?_,?_,?_⟩
  · rw [hsb]
    decide
  · rw [hcnt]
    decide
  · intro i hi
    rw [hcnt] at hi
    rw [hbase]
    refine h.valid ?_
    simp only [tableBlocks,Mkmfs.INODESZ,Mkmfs.NKBLK,Mkmfs.NIBMP,Mkmfs.NDBMP,Mkmfs.NIBLK]
    omega
  · intro i hi n _
    rw [hcnt] at hi
    have hle : 1 + Mkmfs.NKBLK + Mkmfs.NIBMP + Mkmfs.NDBMP ≤ (imageTable dev im calls.length).blk mfsSizes n :=
      Nat.le_add_right _ _
    simp only [Mkmfs.NIBMP,Mkmfs.NDBMP] at hle
    rw [hbase]
    omega
  · exact (show 8 * Mkmfs.MFS_BLKSIZE ≤ Mkmfs.NINODE by decide)
  · intro n hu hn
    rw [h.bit_eq hb hn]
    exact decide_eq_true (Nat.lt_succ_of_le hu)

/-- After boot, the mount of an image of the builder and any lookups, directories can be
made. -/
theorem Carries.extensible (h : Carries E dev im disk) (hb : Mkmfs.Built calls im) (hdev : dev ≠ 0)
    (hfuel : Mkmfs.NINODE ≤ E.fuel) (lookups : List (List UInt8 × Bool))
    (hroom : ¬ Full ((started E dev lookups).run (State.boot disk)).2) :
    Extensible E mfsSizes (contentOf mfsSizes E.devs disk) (imageTable dev im calls.length)
      ((started E dev lookups).run (State.boot disk)).2 := by
  have hT := imageTable_shaped dev hb hfuel
  have hends := started_spec lookups hT (h.on hb) (full_limit (State.boot disk).ofile) hdev (h.bootable hb)
  obtain ⟨_,t,hrun,ht,hroot⟩ := hends.run hroom
  change (started E dev lookups).run (State.boot disk) = _ at hrun
  rw [hrun]
  refine ⟨⟨hdev,h.on hb,hT,?_⟩,hfuel,h.mapped hb,hroot⟩
  change Tree E mfsSizes _ _ t.ofile _ t
  rw [ht.ofile]
  exact ht

end Image

/-! ## One path more -/

theorem Made.extensible {r : Inode} {R : ℕ → Inode} {C' : Content} (h : Extensible E bs C T s)
    (hmade : Made E bs s.ofile T d r R C C' s t) : Extensible E bs C' { T.insert d r with record := R } t where
  dev_ne := h.dev_ne
  table := hmade.table
  shaped := (h.shaped.insert hmade.takes h.count_le).like hmade.like
  tree := by
    have ht := hmade.tree
    rw [← ht.ofile] at ht
    exact ht
  count_le := h.count_le
  mapped := hmade.mapped
  rooted := hmade.rooted

theorem components_absPath {dirs : List (List UInt8)} {name : List UInt8} (hpath : ∀ c ∈ dirs ++ [name], slash ∉ c) :
    components (absPath (dirs ++ [name])) = dirs ++ [name] := by
  rw [components,splitPath_absPath hpath]

theorem head_absPath (dirs : List (List UInt8)) (name : List UInt8) :
    (absPath (dirs ++ [name])).head? = some slash := by
  rw [absPath_eq (by simp)]
  rfl

theorem find_insert {r : Inode} {R : ℕ → Inode} {dirs : List (List UInt8)} {fuel : ℕ} (hT : T.Shaped fuel)
    (hcount : T.count ≤ fuel) (hr : T.Takes d r) (hR : (T.insert d r).Like R) (hd : T.resolve 0 dirs = some d)
    (hname : T.child d r.str = none) (hpath : ∀ c ∈ dirs ++ [r.str], slash ∉ c) :
    Table.find { T.insert d r with record := R } = update T.find (absPath (dirs ++ [r.str])) (some r.ino.toNat) := by
  funext path
  by_cases hhead : path.head? = some slash
  · have hiff : components path = dirs ++ [r.str] ↔ path = absPath (dirs ++ [r.str]) := by
      constructor
      · intro hc
        rw [← hc,absPath_components hhead]
      · rintro rfl
        exact components_absPath hpath
    rw [Table.find,if_pos hhead,(hT.insert hr hcount).resolve_like hR,hT.resolve_insert hr hd hname,update_apply,
      Table.find,if_pos hhead]
    exact if_congr hiff rfl rfl
  · have hne : path ≠ absPath (dirs ++ [r.str]) := by
      rintro rfl
      exact hhead (head_absPath dirs r.str)
    rw [update_of_ne hne,Table.find,Table.find,if_neg hhead,if_neg hhead]

theorem dir_mode (mode : UInt32) : ((mode &&& 0xFFF) ||| S_IFDIR) &&& S_IFMT = S_IFDIR := by
  have hlow : (mode &&& 0xFFF) &&& S_IFMT = 0 := by
    rw [UInt32.and_assoc,show (0xFFF : UInt32) &&& S_IFMT = 0 from rfl,UInt32.and_zero]
  apply UInt32.toBitVec_inj.mp
  rw [UInt32.toBitVec_and,UInt32.toBitVec_or,BitVec.and_or_distrib_right,← UInt32.toBitVec_and,hlow]
  decide

/-- After `mkdir`, lookups find what they found before and, under the new path, a new
directory; they also do when all vnodes and cached blocks have been dropped. -/
theorem mkdir_adds_path (E : Env) (bs : BlkSizes) (C : Content) (T : Table) (s : State) (dirs : List (List UInt8))
    (name : List UInt8) (mode : UInt32) (d : ℕ) (h : Extensible E bs C T s)
    (hpath : ∀ c ∈ dirs ++ [name], slash ∉ c) (hd : T.resolve 0 dirs = some d) (hname : T.child d name = none)
    (hlen : name.length < NVNAMLEN) (hnul : 0 ∉ name) (hfree : ∃ n < 8 * T.len bs, T.bit C n = false)
    (hroom : ¬ Full ((mkdir E (absPath (dirs ++ [name])) mode).run s).2) :
    ∃ m t, (mkdir E (absPath (dirs ++ [name])) mode).run s = (.ok 0,t) ∧ ¬ T.used m ∧ T.bit C m = false ∧
      T.find (absPath (dirs ++ [name])) = none ∧ (∀ path, Resolves E s path (T.find path)) ∧
      ∀ u, u = t ∨ u = t.reload →
        (∀ path, Resolves E u path (update T.find (absPath (dirs ++ [name])) (some m) path)) ∧
        Answers E u (absPath (dirs ++ [name])) (fun p v => (v.vnode p).mode &&& S_IFMT = S_IFDIR) := by
  obtain ⟨n,hn,hclear⟩ := hfree
  obtain ⟨_,t,hrun,rfl,r,R,C',rfl,hmode,hmade⟩ := (mkdir_spec (full_limit s.ofile) h.table h.shaped h.count_le h.dev_ne
    h.mapped h.tree h.rooted hpath hd hlen hnul hn hclear mode).run hroom
  have hfind := find_insert h.shaped h.count_le hmade.takes hmade.like hd hname hpath
  have hnew := (hmade.extensible h).toServes
  have hold : T.find (absPath (dirs ++ [r.str])) = none := by
    rw [Table.find,if_pos (head_absPath dirs r.str),components_absPath hpath,T.resolve_concat,hd]
    exact hname
  refine ⟨r.ino.toNat,t,hrun,hmade.takes.free,hmade.clear,hold,h.resolves,fun u hu => ?_⟩
  have hserves : ∃ C'', Serves E bs C'' { T.insert d r with record := R } u := by
    rcases hu with rfl | rfl
    · exact ⟨C',hnew⟩
    · exact ⟨_,hnew.reload⟩
  obtain ⟨C'',hserves⟩ := hserves
  refine ⟨fun path => hfind ▸ hserves.resolves path,(hserves.answers _).mono (fun p v hp => ?_)⟩
  rw [hfind,update_self] at hp
  rw [hp.2.2.mode]
  change (R r.ino.toNat).mode &&& S_IFMT = S_IFDIR
  rw [hmade.mode,hmode]
  exact dir_mode mode

def sampleState : State := ((started sampleEnv 1 []).run (State.boot sampleDisk)).2

theorem sample_extensible : Extensible sampleEnv mfsSizes (contentOf mfsSizes sampleEnv.devs sampleDisk)
    (imageTable 1 sampleImage 2) sampleState :=
  sample_carries.extensible (Mkmfs.build_built sample_build sample_short) (by decide) (by decide) []
    (by decide +kernel)

theorem sample_clear : (imageTable 1 sampleImage 2).bit (contentOf mfsSizes sampleEnv.devs sampleDisk) 3 = false :=
  sample_carries.bit_eq (Mkmfs.build_built sample_build sample_short) (show 3 < 8 * Mkmfs.MFS_BLKSIZE by decide)

/-- `/a/c` becomes a directory. -/
theorem mkdir_adds_path_sample : ∃ m t, (mkdir sampleEnv (absPath [[97],[99]]) 0).run sampleState = (.ok 0,t) ∧
    Resolves sampleEnv t (absPath [[97],[99]]) (some m) ∧ Resolves sampleEnv t.reload (absPath [[97],[99]]) (some m) := by
  obtain ⟨m,t,hrun,-,-,-,-,hnew⟩ := mkdir_adds_path sampleEnv mfsSizes _ (imageTable 1 sampleImage 2) sampleState [[97]]
    [99] 0 1 sample_extensible (by decide) (by decide +kernel) (by decide +kernel) (by decide) (by decide)
    ⟨3,show 3 < 8 * Mkmfs.MFS_BLKSIZE by decide,sample_clear⟩ (by decide +kernel)
  have h₁ := (hnew t (Or.inl rfl)).1 (absPath [[97],[99]])
  have h₂ := (hnew t.reload (Or.inr rfl)).1 (absPath [[97],[99]])
  rw [List.singleton_append] at hrun
  rw [List.singleton_append,update_self] at h₁ h₂
  exact ⟨m,t,hrun,h₁,h₂⟩

end Micron.Filesys

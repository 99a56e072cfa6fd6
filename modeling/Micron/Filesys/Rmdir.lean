import Micron.Filesys.Mkdir

/-! # Directories that go again

`rmdir` of a directory that is the first child of its parent and has no children takes the
leaf out of the table. After `mkdir` of the same path this brings back what was there.
-/
namespace Micron.Filesys
open Function Bytes Kernel Scache Prog
variable {E : Env} {bs : BlkSizes} {C : Content} {T : Table} {o : ℕ → Ofile} {s t u : State} {X : State → Prop}
  {p q : VPtr} {l ks : List ℕ} {j n d m : ℕ} {dirs : List (List UInt8)} {name : List UInt8}

/-! ## The first child of a directory -/

structure Table.First (T : Table) (d m : ℕ) (name : List UInt8) (ks : List ℕ) : Prop where
  used : T.used d
  kids : T.kids d = m :: ks
  leaf : T.kids m = []
  str : (T.record m).str = name
  mode : (T.record m).mode &&& S_IFMT = S_IFDIR

theorem Table.First.child (h : T.First d m name ks) : T.child d name = some m := by
  rw [Table.child,Names.child,h.kids,List.find?_cons_of_pos]
  exact decide_eq_true h.str

section Found
variable (hT : T.Shaped E.fuel) (h : Tree E bs C T o (fun _ => True) s) (hf : T.First d m name ks) (hq : InTree s q)
  (hm : s.ino q = m) (hc : Complete T s q)
include hT h hf hq hm

theorem Table.First.found : ∃ p j l, q = .vc j ∧ InTree s p ∧ s.ino p = d ∧ Loaded T s p (j :: l) ∧
    (j :: l).map (fun j => s.ino (.vc j)) = T.kids (s.ino p) := by
  have hmem : m ∈ T.kids d := by
    rw [hf.kids]
    exact List.mem_cons_self
  cases hq with
  | root => exact absurd (hm.symm.trans h.root) (hT.kid d hf.used m hmem).2
  | @child p l k hp hl hk =>
    have hkids := h.kids_eq hp hl (List.ne_nil_of_mem hk)
    obtain rfl : s.ino p = d := hT.parent _ _ m (h.used p hp) hf.used (hm ▸ h.mem_kids hp hl hk) hmem
    cases l with
    | nil => cases hk
    | cons j l =>
      have hj : s.ino (.vc j) = m := by
        rw [hf.kids] at hkids
        exact (List.cons.inj hkids).1
      have hjk : VPtr.vc j = .vc k :=
        h.ino_inj hT (hp.child hl List.mem_cons_self) (hp.child hl hk) (hj.trans hm.symm)
      exact ⟨p,j,l,hjk.symm,hp,rfl,⟨hl,hkids ▸ List.prefix_refl _⟩,hkids⟩

include hc

omit hT h hq in
theorem Table.First.no_child : (s.vnode q).child = .null := by
  obtain ⟨l,hl,hmap⟩ := hc
  rw [hm,hf.leaf] at hmap
  rw [List.map_eq_nil_iff.mp hmap] at hl
  exact hl.sibs

end Found

/-! ## The call -/

/-- The leaf `m` below `d` is gone, in memory and on the disk, where the records are `R`
now. -/
structure Gone (E : Env) (bs : BlkSizes) (o : ℕ → Ofile) (T : Table) (d m : ℕ) (R : ℕ → Inode) (C C' : Content)
    (s t : State) : Prop where
  memory : ∃ u p j c, Grows s u ∧ Tree E bs C T o (fun _ => True) u ∧ InTree u p ∧ u.ino p = d ∧
    (u.vnode p).child = .vc j ∧ t = { u.unlink p j with scache := c } ∧ (∀ q, InTree t q ↔ InTree u q ∧ q ≠ .vc j) ∧
    Complete (T.remove d m) t p
  like : (T.remove d m).Like R
  table : Table.On E bs C' { T.remove d m with record := R }
  bits : ∀ n < T.sb.cnt .IBLK * (8 * T.len bs), T.bit C' n = if n = m then false else T.bit C n
  stored : t.scache.OnDisk (volume bs E.devs) C' T.dev.toNat (T.bmpOf bs m)
  tree : Tree E bs C' { T.remove d m with record := R } o (fun _ => True) t
  saved : Resaves T.record s d ((T.kids d).erase m) R
  other : ∀ n, n ≠ d → n ∉ (T.kids d).erase m → R n = T.record n

theorem Gone.grows {R : ℕ → Inode} {C' : Content} (hg : Grows s u) (h : Gone E bs o T d m R C C' u t) :
    Gone E bs o T d m R C C' s t := by
  obtain ⟨u',p,j,c,hg',hmem⟩ := h.memory
  exact { h with memory := ⟨u',p,j,c,hg.trans hg',hmem⟩, saved := h.saved.congr ⟨_,hg.vnode _ .root⟩ }

theorem unlink_spec (hX : Limit o X) (hon : T.On E bs C) (hT : T.Shaped E.fuel) (hm : T.Mapped E bs C)
    (h : Tree E bs C T o (fun _ => True) s) (hroot : Rooted s) (hp : InTree s p) (hl : Loaded T s p (j :: l))
    (hmap : (j :: l).map (fun j => s.ino (.vc j)) = T.kids (s.ino p)) (hleaf : (s.vnode (.vc j)).child = .null)
    (hj : s.ino (.vc j) < T.sb.cnt .IBLK * (8 * T.len bs)) :
    Ends X (do
      mfsIfree E T.sb (.vc j)
      mfsSnode E T.sb p) (fun _ t => ∃ R C', Gone E bs o T (s.ino p) (s.ino (.vc j)) R C C' s t) (s.unlink p j) := by
  have hin : InTree s (.vc j) := hp.child hl.sibs List.mem_cons_self
  have h₁ := h.unlink hT hp hl hmap hleaf
  have hino : (s.unlink p j).ino (.vc j) = s.ino (.vc j) := setChild_ino _
  have hdev : ((s.unlink p j).vnode (.vc j)).dev = T.dev := by
    rw [setChild_vnode]
    exact h.dev _ hin
  refine Ends.bind hX.mono (mfsIfree_spec hon hm hX h₁.cached rfl hdev (hino ▸ hT.lt _ (h.used _ hin)) (hino ▸ hj)) ?_
  rintro _ _ - ⟨C₁,c₁,rfl,hc₁,hmarks⟩
  rw [hino] at hmarks
  have hon₁ := hmarks.on hm hj hon
  have h₂ := h₁.recache hc₁ (fun n hn => hmarks.disk _ _ (hon.valid n hn) (hm.ne_blk hj hn) (h.stored n hn))
  have hkids : T.kids (s.ino p) = s.ino (.vc j) :: l.map (fun j => s.ino (.vc j)) := hmap.symm
  have hroot₂ : Rooted { s.unlink p j with scache := c₁ } := hroot.congr ⟨_,setChild_vnode _⟩
  have hp₁ : InTree (s.unlink p j) p :=
    (unlink_inTree hT h hp hl hmap hleaf).mpr ⟨hp,hp.not_child hl.sibs j List.mem_cons_self⟩
  refine (h₂.snode (hT.remove (h.used p hp) hkids) hroot₂ hX (hp₁.cache c₁) ((unlink_complete hl hmap).cache c₁)
    (D := T.record) ?_ ?_ ?_).mono ?_
  · exact ⟨hon₁.usable,hon₁.len_pos,hon₁.base_eq,hon₁.base_pos,hon₁.count_le,hon₁.valid,hon₁.read⟩
  · intro i hi _
    change i ≠ (s.unlink p j).ino p at hi
    rw [setChild_ino] at hi
    rw [remove_record,if_neg hi]
  · exact fun i => by rw [remove_record]
  rintro _ t - ⟨C',c,R,rfl,hlike,hon',htree,hout,hrew⟩
  have hout' : Outside E bs T C₁ C' c₁ c := hout
  have hcomplete := (unlink_complete hl hmap).cache c
  have hrest : (T.kids (s.ino p)).erase (s.ino (.vc j)) = l.map (fun j => s.ino (.vc j)) := by
    rw [hkids,List.erase_cons_head]
  have hrew' : Rewrites E (T.remove (s.ino p) (s.ino (.vc j))) (s.unlink p j) p T.record R := hrew.cache
  refine ⟨R,C',⟨⟨s,p,j,c,.refl s,h,hp,rfl,hl.sibs.1,rfl,fun q => ?_,hcomplete⟩,hlike,hon',fun i hi => ?_,?_,htree,
    hrest.symm ▸ unlink_resaves hT h hp hl hmap hleaf hroot hrew',fun n hn hmem => hrew'.other n ?_ ?_⟩⟩
  · rw [← unlink_inTree hT h hp hl hmap hleaf]
    exact inTree_cache (s := s.unlink p j) c
  · rw [hm.bit_outside hon hout' hi]
    exact hmarks.bits i
  · exact (hout' _ _ (hm.valid _ (Table.bmpOf_lt hj)) (fun n hn he => hm.ne_blk hj hn he.symm)).2 hmarks.stored
  · rw [setChild_ino]
    exact hn
  · rw [setChild_ino,remove_kids_self hkids,← hrest]
    exact hmem

theorem rmdir_spec (hX : Limit s.ofile X) (h : Extensible E bs C T s) (hpath : ∀ c ∈ dirs ++ [name], slash ∉ c)
    (hd : T.resolve 0 dirs = some d) (hf : T.First d m name ks) (hm : m < T.sb.cnt .IBLK * (8 * T.len bs)) :
    Ends X (rmdir E (absPath (dirs ++ [name]))) (fun a t => a = 0 ∧ ∃ R C', Gone E bs s.ofile T d m R C C' s t) s := by
  have hT := h.shaped
  have hon := h.table
  refine Ends.bind hX.mono (vget_absPath hon hT hX h.dev_ne h.tree hpath false) ?_
  rintro q u - ⟨hu,hg,hq,hc⟩
  rw [if_neg Bool.false_ne_true,T.resolve_concat,hd,Option.bind_some,hf.child] at hq
  obtain ⟨hq,hqm⟩ := hq
  have hcomplete := hc hq.ne_null
  have hnull := hf.no_child hqm hcomplete
  obtain ⟨p,j,l,rfl,hp,hpd,hl,hmap⟩ := hf.found hT hu hq hqm
  have hshows := hu.shows j hq
  rw [hqm] at hshows
  have hmode : ¬ ((u.vnode (.vc j)).mode &&& S_IFMT ≠ S_IFDIR) := by
    rw [hshows.mode]
    exact not_not.mpr hf.mode
  have hparent : (u.vnode (.vc j)).parent = p := hl.sibs.2.2.1
  have hfirst : (u.vnode p).child = .vc j := hl.sibs.1
  have hj : (VPtr.vc j).isNode := rfl
  unfold Ends
  rw [wp_bind,wp_vnode hj,if_neg hmode,if_neg (not_not.mpr hnull),hparent]
  rw [wp_bind,wp_vnode hp.isNode,if_pos hfirst]
  simp only [wp_bind,wp_setVnode hp.isNode,wp_pure,wp_vnode hj]
  change wp (mountabGet ((u.unlink p j).vnode (.vc j)).dev) _ X (u.unlink p j)
  have hdev : ((u.unlink p j).vnode (.vc j)).dev = T.dev := by
    rw [setChild_vnode]
    exact hu.dev _ hq
  rw [hdev]
  have hget := mountabGet_tree (hu.unlink hT hp hl hmap hnull)
  change (mountabGet T.dev).run _ = _ at hget
  refine wp_of_run hget ?_
  dsimp only
  rw [wp_bind,wp_mount,show (u.unlink p j).mountab = u.mountab from rfl,hu.sole.sblk,hu.sole.fs]
  have hends := unlink_spec hX hon hT h.mapped hu (hg.rooted h.rooted) hp hl hmap hnull (by rw [hqm]; exact hm)
  rw [hpd,hqm] at hends
  unfold Ends at hends
  rw [wp_bind] at hends
  rw [wp_bind]
  refine wp.mono hends (fun _ v _ hv => ?_) (fun _ _ hx => hx)
  rw [wp_bind]
  refine wp.mono hv (fun _ t _ ht => ?_) (fun _ _ hx => hx)
  refine ht.imp_right ?_
  rintro ⟨R,C',hgone⟩
  exact ⟨rfl,R,C',hgone.grows hg⟩

theorem Gone.extensible {R : ℕ → Inode} {C' : Content} (h : Extensible E bs C T s) (hf : T.First d m name ks)
    (hg : Gone E bs o T d m R C C' s t) : Extensible E bs C' { T.remove d m with record := R } t where
  dev_ne := h.dev_ne
  table := hg.table
  shaped := (h.shaped.remove hf.used hf.kids).like hg.like
  tree := by
    have ht := hg.tree
    rw [← ht.ofile] at ht
    exact ht
  count_le := h.count_le
  mapped := by
    refine ⟨h.mapped.bmp_pos,h.mapped.cnt_pos,h.mapped.valid,h.mapped.apart,h.mapped.bits_le,?_⟩
    rintro n ⟨hu,hn⟩ hlt
    refine (hg.bits n (Nat.lt_of_lt_of_le hlt (Nat.le_mul_of_pos_left _ h.mapped.cnt_pos))).trans ?_
    rw [if_neg hn]
    exact h.mapped.marked n hu hlt
  rooted := by
    obtain ⟨u,p,j,c,hsu,-,-,-,-,rfl,-⟩ := hg.memory
    exact (hsu.rooted h.rooted).congr ⟨_,setChild_vnode _⟩

/-! ## There and back -/

theorem Table.Mapped.bmpBit_eq {C' : Content} (hm : T.Mapped E bs C) (hon : T.On E bs C) (hc : Cached E bs C' s.scache)
    (hn : n < T.sb.cnt .IBLK * (8 * T.len bs)) : bmpBit T.sb T.dev s .IBLK n = T.bit C' n := by
  have hpos : 0 < 8 * T.len bs := Nat.mul_pos (by decide) hon.len_pos
  have hq : n / (8 * T.len bs) < T.sb.cnt .IBLK := (Nat.div_lt_iff_lt_mul hpos).mpr hn
  obtain ⟨L,hL⟩ := hc
  rw [bmpBit,Table.bit,bitOf,bitOf,hon.len_eq]
  refine get_congr (fun k (hk : k < T.len bs) => ?_) (Nat.mod_lt n hpos)
  have hvalid := hm.valid _ hq
  refine hL.view_eq (g := bs.request T.dev.toNat _) hvalid.dev_ok hvalid rfl ?_
  rw [volume_size]
  · exact hk
  · have hbase : T.sb.base .IBLK ≠ 0 := Int.natCast_ne_zero.mp hm.bmp_ne
    exact Int.natCast_ne_zero.mpr (Nat.ne_of_gt (Nat.add_pos_left (Nat.pos_of_ne_zero hbase) _))

def Table.stored (T : Table) (E : Env) (bs : BlkSizes) (s : State) (n : ℕ) : Inode :=
  Inode.read (contentOf bs E.devs s.scache.disk T.dev.toNat (T.blk bs n)) (T.off bs n)

def StoredKids (E : Env) (bs : BlkSizes) (T : Table) (s : State) (n : ℕ) (l : List ℕ) : Prop :=
  Follows (T.stored E bs s) Inode.next (T.stored E bs s n).child l

theorem Serves.stored_eq (h : Serves E bs C T s) (hn : n < T.count) : T.stored E bs s n = T.record n :=
  h.reload.table.read n hn

theorem Serves.storedKids (h : Serves E bs C T s) (hn : T.used n) : StoredKids E bs T s n (T.kids n) := by
  rw [StoredKids,h.stored_eq (h.shaped.lt n hn)]
  refine (h.shaped.follows n hn).congr (fun k hk => ?_)
  rw [h.stored_eq (h.shaped.lt k (h.shaped.kid n hn k hk).1)]

theorem Adopts.child (ha : Adopts s t p j) : (t.vnode p).child = .vc j := by
  rw [ha.vnode p ha.node]
  exact if_pos rfl

theorem Adopts.ino (ha : Adopts s t p j) : t.ino p = s.ino p := by
  rw [State.ino,ha.vnode p ha.node]
  rfl

/-- What was there before the child was added is there again after it has been taken out. -/
theorem Adopts.undo (ha : Adopts s t p j) (hg : Grows t u) (c : Scache)
    (hin : ∀ q, InTree { u.unlink p j with scache := c } q ↔ InTree u q ∧ q ≠ .vc j) :
    Grows s { u.unlink p j with scache := c } := by
  have hj : InTree t (.vc j) := (ha.inTree _).mpr (Or.inr rfl)
  have hnext : (u.vnode (.vc j)).next = (s.vnode p).child := by
    rw [hg.vnode _ hj]
    exact ha.next
  have hold : ∀ q, InTree s q → InTree t q := fun q hq => (ha.inTree q).mpr (Or.inl hq)
  have hne : ∀ q, InTree s q → q ≠ .vc j := by
    rintro q hq rfl
    exact ha.out hq
  have hchild : ∀ q, q ≠ p → InTree s q → (t.vnode q).child = (s.vnode q).child := by
    intro q hqp hq
    rw [ha.vnode q hq]
    exact if_neg hqp
  refine ⟨fun q hq => (hin q).mpr ⟨hg.inTree q (hold q hq),hne q hq⟩,fun q hq => ?_,fun q hq hnode => ?_⟩
  · change (u.unlink p j).vnode q = { s.vnode q with child := ((u.unlink p j).vnode q).child }
    rw [setChild_vnode,hg.vnode q (hold q hq),ha.vnode q hq]
  · change ((u.unlink p j).vnode q).child = _
    by_cases hqp : q = p
    · rw [hqp,setChild_self,hnext]
    · have heq := hchild q hqp hq
      rw [setChild_child hqp,hg.child q (hold q hq) (heq ▸ hnode),heq]

theorem Grows.sibs (hg : Grows s t) (hle : s.vlist.cnt ≤ t.vlist.cnt) (hp : InTree s p)
    (hnode : (s.vnode p).child.isNode) (hl : Sibs s p (s.vnode p).child l) : Sibs t p (t.vnode p).child l := by
  rw [hg.child p hp hnode]
  refine hl.congr hle (fun k hk _ => ?_)
  rw [hg.vnode _ (hp.child hl hk)]
  exact ⟨rfl,rfl,rfl⟩

theorem Made.isFirst {r : Inode} {R : ℕ → Inode} {C' : Content} (hT : T.Shaped E.fuel)
    (h : Made E bs o T d r R C C' s t) (hmode : r.mode &&& S_IFMT = S_IFDIR) :
    Table.First { T.insert d r with record := R } d r.ino.toNat r.str (T.kids d) where
  used := Or.inl h.takes.used
  kids := insert_kids_self
  leaf := insert_kids_new h.takes
  str := by
    have hne : r.ino.toNat ≠ 0 := fun he => h.takes.free (he ▸ hT.root)
    refine (h.like.str _ (Or.inr rfl) hne).trans ?_
    rw [insert_record_new h.takes]
  mode := by
    change (R r.ino.toNat).mode &&& S_IFMT = S_IFDIR
    rw [h.mode,hmode]

/-- The nodes of the tree are what they were, and the parent has its old children. -/
theorem Made.undone {r : Inode} {R R' : ℕ → Inode} {C₁ C' : Content}
    (hT : Table.Shaped E.fuel { T.insert d r with record := R }) (h : Made E bs o T d r R C C₁ s u)
    (hg : Gone E bs o { T.insert d r with record := R } d m R' C₁ C' u t) :
    ∃ p, InTree t p ∧ t.ino p = d ∧ Grows s t ∧
      Complete (Table.remove { T.insert d r with record := R } d m) t p := by
  obtain ⟨u₁,p,j,hsu,hd,ha⟩ := h.memory
  obtain ⟨v,p',j',c,huv,hv,hp',hd',hj',rfl,hin,hcomplete⟩ := hg.memory
  have hp : InTree u p := (ha.inTree p).mpr (Or.inl ha.node)
  obtain rfl : p = p' := hv.ino_inj hT (huv.inTree p hp) hp' (by rw [huv.ino hp,ha.ino,hd,hd'])
  obtain rfl : j = j' := by
    rw [huv.child p hp (by rw [ha.child]; rfl),ha.child] at hj'
    exact VPtr.vc.inj hj'
  have hout : p ≠ .vc j := by
    rintro rfl
    exact ha.out ha.node
  exact ⟨p,(hin p).mpr ⟨hp',hout⟩,(setChild_ino p).trans hd',hsu.trans (ha.undo huv c hin),hcomplete⟩

def mkdirRmdir (E : Env) (path : List UInt8) (mode : UInt32) : K (ℤ × ℤ) := do
  let a ← mkdir E path mode
  let b ← rmdir E path
  return (a,b)

theorem kids_insert_remove {r : Inode} {R : ℕ → Inode} (hr : T.Takes d r) (hn : T.used n) :
    (Table.remove { T.insert d r with record := R } d r.ino.toNat).kids n = T.kids n := by
  by_cases hd : n = d
  · have hk : Table.kids { T.insert d r with record := R } d = r.ino.toNat :: T.kids d := insert_kids_self
    rw [hd,remove_kids_self hk]
  · rw [remove_kids_old hd]
    exact insert_kids_old hr hn hd

/-- The bitmap, the vnodes in the tree, the children of the parent and the lists on the disk
are what they were before the directory was made. -/
theorem mkdir_rmdir_restores (E : Env) (bs : BlkSizes) (C : Content) (T : Table) (s : State)
    (dirs : List (List UInt8)) (name : List UInt8) (mode : UInt32) (d : ℕ) (h : Extensible E bs C T s)
    (hpath : ∀ c ∈ dirs ++ [name], slash ∉ c) (hd : T.resolve 0 dirs = some d) (hname : T.child d name = none)
    (hlen : name.length < NVNAMLEN) (hnul : 0 ∉ name) (hfree : ∃ n < 8 * T.len bs, T.bit C n = false)
    (hroom : ¬ Full ((mkdirRmdir E (absPath (dirs ++ [name])) mode).run s).2) :
    ∃ t, (mkdirRmdir E (absPath (dirs ++ [name])) mode).run s = (.ok (0,0),t) ∧
      (∀ n < T.sb.cnt .IBLK * (8 * T.len bs), bmpBit T.sb T.dev t .IBLK n = bmpBit T.sb T.dev s .IBLK n) ∧
      (∀ n < 8 * T.len bs, T.bit (contentOf bs E.devs t.scache.disk) n = bmpBit T.sb T.dev s .IBLK n) ∧
      (∃ p, InTree t p ∧ t.ino p = d ∧ Complete T t p) ∧
      (∀ p l, InTree s p → (s.vnode p).child.isNode → Sibs s p (s.vnode p).child l → Sibs t p (t.vnode p).child l) ∧
      ∀ n, T.used n → StoredKids E bs T s n (T.kids n) ∧ StoredKids E bs T t n (T.kids n) := by
  have hX := full_limit s.ofile
  obtain ⟨n,hn,hclear⟩ := hfree
  have hends : Ends Full (mkdirRmdir E (absPath (dirs ++ [name])) mode) (fun a t => a = (0,0) ∧ s ≤ t ∧
      ∃ r R u C₁ R' C', r.mode &&& S_IFMT = S_IFDIR ∧ Made E bs s.ofile T d r R C C₁ s u ∧
        Gone E bs s.ofile { T.insert d r with record := R } d r.ino.toNat R' C₁ C' u t) s := by
    refine Ends.bind hX.mono (mkdir_spec hX h.table h.shaped h.count_le h.dev_ne h.mapped h.tree h.rooted hpath hd hlen
      hnul hn hclear mode) ?_
    rintro _ u hsu ⟨rfl,r,R,C₁,rfl,hmode,hmade⟩
    have hd' : Table.resolve { T.insert d r with record := R } 0 dirs = some d := by
      rw [(h.shaped.insert hmade.takes h.count_le).resolve_like hmade.like,
        h.shaped.resolve_insert hmade.takes hd hname,if_neg (by simp)]
      exact hd
    have hu := hmade.extensible h
    have ho : u.ofile = s.ofile := hmade.tree.ofile
    have hfirst := hmade.isFirst h.shaped (hmode ▸ dir_mode mode)
    refine Ends.bind hX.mono (rmdir_spec (ho ▸ hX) hu hpath hd' hfirst (h.mapped.first_lt hmade.first)) ?_
    rintro _ t hut ⟨rfl,R',C',hgone⟩
    exact Or.inr ⟨rfl,hsu.trans hut,r,R,u,C₁,R',C',hmode ▸ dir_mode mode,hmade,ho ▸ hgone⟩
  obtain ⟨_,t,hrun,rfl,hst,r,R,u,C₁,R',C',hdir,hmade,hgone⟩ := hends.run hroom
  have hu := hmade.extensible h
  obtain ⟨p,hp,hpd,hg,hcomplete⟩ := hmade.undone hu.shaped hgone
  have hbits : ∀ n < T.sb.cnt .IBLK * (8 * T.len bs), T.bit C' n = T.bit C n := by
    intro n hn
    refine (hgone.bits n hn).trans ?_
    by_cases hm : n = r.ino.toNat
    · rw [if_pos hm,hm,hmade.clear]
    · rw [if_neg hm]
      exact (hmade.bits n hn).trans (if_neg hm)
  have hkids : ∀ n, T.used n → Table.kids (Table.remove { T.insert d r with record := R } d r.ino.toNat) n = T.kids n :=
    fun n hn => kids_insert_remove hmade.takes hn
  have hserves := (hgone.extensible hu (hmade.isFirst h.shaped hdir)).toServes
  refine ⟨t,hrun,fun n hn => ?_,fun n hn => ?_,⟨p,hp,hpd,?_⟩,fun p l hp hnode hl => hg.sibs hst.1 hp hnode hl,fun n hn => ?_⟩
  · rw [h.mapped.bmpBit_eq h.table h.tree.cached hn,← hbits n hn]
    exact h.mapped.bmpBit_eq h.table hgone.tree.cached hn
  · have hlt := Nat.lt_of_lt_of_le hn (Nat.le_mul_of_pos_left _ h.mapped.cnt_pos)
    rw [h.mapped.bmpBit_eq h.table h.tree.cached hlt,← hbits n hlt,h.table.bit_eq hn,h.table.bit_eq hn]
    refine get_congr (fun k (hk : k < T.len bs) => ?_) hn
    have hstored : t.scache.OnDisk (volume bs E.devs) C' T.dev.toNat (T.bmpOf bs r.ino.toNat) := hgone.stored
    rw [Table.bmpOf_first hmade.first] at hstored
    exact hstored k (Nat.lt_of_lt_of_eq hk (volume_size h.mapped.bmp_ne).symm)
  · obtain ⟨l,hl,hmap⟩ := hcomplete
    rw [hpd,hkids d hmade.takes.used] at hmap
    rw [← hpd] at hmap
    exact ⟨l,⟨hl.sibs,hmap ▸ List.prefix_refl _⟩,hmap⟩
  · have hstored := hserves.storedKids (n := n) ⟨Or.inl hn,fun he => hmade.takes.free (he ▸ hn)⟩
    refine ⟨h.storedKids hn,?_⟩
    rw [show Table.kids _ n = T.kids n from hkids n hn] at hstored
    exact hstored

/-- `/a/c` comes and goes. -/
theorem mkdir_rmdir_restores_sample : ∃ t,
    (mkdirRmdir sampleEnv (absPath [[97],[99]]) 0).run sampleState = (.ok (0,0),t) ∧
      ∀ n, (imageTable 1 sampleImage 2).used n →
        StoredKids sampleEnv mfsSizes (imageTable 1 sampleImage 2) t n ((imageTable 1 sampleImage 2).kids n) := by
  obtain ⟨t,hrun,-,-,-,-,hkids⟩ := mkdir_rmdir_restores sampleEnv mfsSizes _ (imageTable 1 sampleImage 2) sampleState
    [[97]] [99] 0 1 sample_extensible (by decide) (by decide +kernel) (by decide +kernel) (by decide) (by decide)
    ⟨3,show 3 < 8 * Mkmfs.MFS_BLKSIZE by decide,sample_clear⟩ (by decide +kernel)
  rw [List.singleton_append] at hrun
  exact ⟨t,hrun,fun n hn => (hkids n hn).2⟩

end Micron.Filesys

import Micron.Filesys.Lookup
import Micron.Filesys.Save

/-! # From the links in memory to those of the records

A tree in memory determines the links of the records it stands for: the pointers lead to
the vnodes whose numbers are in the records. So when the children of one node have been
linked anew, saving that node brings the records of the disk up to date.
-/
namespace Micron.Filesys
open Function Bytes Kernel Scache Prog
variable {E : Env} {bs : BlkSizes} {C : Content} {T : Table} {o : ℕ → Ofile} {P : VPtr → Prop} {s t : State}
  {X : State → Prop} {p q : VPtr} {l : List ℕ} {j n fuel : ℕ} {R D : ℕ → Inode}

/-! ## Numbers of nodes -/

theorem Sibs.next (h : Sibs s p q l) (hj : j ∈ l) : ∃ l', Sibs s p (s.vnode (.vc j)).next l' := by
  induction l generalizing q with
  | nil => cases hj
  | cons k l ih =>
    obtain ⟨-,-,-,-,hl⟩ := h
    rcases List.mem_cons.mp hj with rfl | hj
    · exact ⟨l,hl⟩
    · exact ih hl hj

theorem Sibs.null_or_node (h : Sibs s p q l) : q = .null ∨ q.isNode := by
  cases l with
  | nil => exact Or.inl h
  | cons j l =>
    rw [h.1]
    exact Or.inr rfl

theorem Sibs.numOf (h : Sibs s p q l) {v : UInt32} (hf : Follows R Inode.next v (l.map (fun j => s.ino (.vc j)))) :
    s.numOf q = v := by
  cases l with
  | nil =>
    rw [State.numOf,if_pos (show q = .null from h)]
    exact (show v = 0 from hf).symm
  | cons j l =>
    rw [State.numOf,h.1,if_neg (by simp)]
    exact UInt32.toNat_inj.mp hf.2.1.symm

theorem Sibs.next_num (h : Sibs s p q l) {v : UInt32} (hf : Follows R Inode.next v (l.map (fun j => s.ino (.vc j))))
    (hj : j ∈ l) : s.numOf (s.vnode (.vc j)).next = (R (s.ino (.vc j))).next := by
  induction l generalizing q v with
  | nil => cases hj
  | cons k l ih =>
    rcases List.mem_cons.mp hj with rfl | hj
    · exact h.2.2.2.2.numOf hf.2.2
    · exact ih h.2.2.2.2 hf.2.2 hj

theorem Sibs.childNum (h : Sibs s p (s.vnode p).child l) : s.childNum E p = s.numOf (s.vnode p).child := by
  cases l with
  | nil =>
    rw [State.childNum,State.numOf,show (s.vnode p).child = .null from h]
    rfl
  | cons j l =>
    have hloaded : ((s.vnode p).child.isNode && decide ((s.vnode (s.vnode p).child).parent = p)) = true := by
      rw [h.1]
      simp [VPtr.isNode,h.2.2.1]
    rw [State.childNum,if_pos hloaded,State.numOf,if_neg (by simp [h.1])]

theorem toIno_ofIno (v : UInt32) : (VPtr.ofIno v).toIno E = v := by
  unfold VPtr.ofIno
  split
  · rename_i h
    rw [h]
    rfl
  · rfl

theorem Table.Shaped.treelike (hT : T.Shaped fuel) : Names.Treelike T.kids T.used 0 := ⟨hT.root,hT.kid,hT.parent⟩

section Numbers
variable (hT : T.Shaped E.fuel) (h : Tree E bs C T o (fun _ => True) s)
include h

/-- Children in memory are all the children there are. -/
theorem Tree.kids_eq (hp : InTree s p) (hl : Sibs s p (s.vnode p).child l) (hne : l ≠ []) :
    l.map (fun j => s.ino (.vc j)) = T.kids (s.ino p) := by
  rcases h.links p hp with hu | ⟨l',hl',hkids⟩
  · cases l with
    | nil => exact absurd rfl hne
    | cons j l => exact absurd hu.not_node (by rw [hl.1]; simp [VPtr.isNode])
  · rw [hl.unique hl'.sibs]
    exact hkids trivial

theorem Tree.mem_kids (hp : InTree s p) (hl : Sibs s p (s.vnode p).child l) (hj : j ∈ l) :
    s.ino (.vc j) ∈ T.kids (s.ino p) := by
  rw [← h.kids_eq hp hl (List.ne_nil_of_mem hj)]
  exact List.mem_map.mpr ⟨j,hj,rfl⟩

include hT

theorem Tree.ino_ne_zero (hj : InTree s (.vc j)) : s.ino (.vc j) ≠ 0 := by
  cases hj with
  | child hp hl hj => exact (hT.kid _ (h.used _ hp) _ (h.mem_kids hp hl hj)).2

/-- No two nodes of the tree have the same number. -/
theorem Tree.ino_inj (hp : InTree s p) (hq : InTree s q) (he : s.ino p = s.ino q) : p = q := by
  induction hp generalizing q with
  | root =>
    cases hq with
    | root => rfl
    | child hq hl hj => exact absurd (he.symm.trans h.root) (h.ino_ne_zero hT (hq.child hl hj))
  | child hp hl hj ih =>
    cases hq with
    | root => exact absurd (he.trans h.root) (h.ino_ne_zero hT (hp.child hl hj))
    | child hq hl' hj' =>
      have hmem := h.mem_kids hp hl hj
      have hmem' := h.mem_kids hq hl' hj'
      rw [← he] at hmem'
      obtain rfl := ih hq (hT.parent _ _ _ (h.used _ hp) (h.used _ hq) hmem hmem')
      obtain rfl := hl.unique hl'
      have hnd := hT.nodup _ (h.used _ hp)
      rw [← h.kids_eq hp hl (List.ne_nil_of_mem hj)] at hnd
      rw [List.inj_on_of_nodup_map hnd hj hj' he]

theorem Tree.next_num (hj : InTree s (.vc j)) :
    s.numOf (s.vnode (.vc j)).next = (T.record (s.ino (.vc j))).next := by
  cases hj with
  | child hp hl hj =>
    have hf := hT.follows _ (h.used _ hp)
    rw [← h.kids_eq hp hl (List.ne_nil_of_mem hj)] at hf
    exact hl.next_num hf hj

/-- A root without children in memory tells nothing about its record. -/
theorem Tree.child_num (hp : InTree s p) (hc : p ≠ .root 0 ∨ Complete T s p) :
    s.childNum E p = (T.record (s.ino p)).child := by
  have hcomplete : Complete T s p → s.childNum E p = (T.record (s.ino p)).child := by
    rintro ⟨l,hl,hkids⟩
    rw [hl.sibs.childNum]
    exact hl.sibs.numOf (hkids ▸ hT.follows _ (h.used _ hp))
  rcases h.links p hp with hu | ⟨l,hl,hkids⟩
  · rcases hc with hroot | hc
    · rcases hu with hu | ⟨hr,-⟩
      · rw [State.childNum,hu,ofIno_not_node,toIno_ofIno]
        rfl
      · exact absurd hr hroot
    · exact hcomplete hc
  · exact hcomplete ⟨l,hl,hkids trivial⟩

end Numbers

/-! ## Records that say the same -/

/-- The records `R` say the same as those of the table, except for attributes and for what
the root has no use for. -/
structure Table.Like (T : Table) (R : ℕ → Inode) : Prop where
  child : ∀ n, T.used n → (R n).child = (T.record n).child
  expand : ∀ n, (R n).expand = (T.record n).expand
  fits : ∀ n, (T.record n).Fits → (R n).Fits
  next : ∀ n, T.used n → n ≠ 0 → (R n).next = (T.record n).next
  ino : ∀ n, T.used n → n ≠ 0 → (R n).ino = (T.record n).ino
  str : ∀ n, T.used n → n ≠ 0 → (R n).str = (T.record n).str

theorem Follows.congr {r r' : ℕ → Inode} {link : Inode → UInt32} {v : UInt32} (h : Follows r link v l)
    (hr : ∀ n ∈ l, link (r' n) = link (r n)) : Follows r' link v l := by
  induction l generalizing v with
  | nil => exact h
  | cons n l ih =>
    refine ⟨h.1,h.2.1,?_⟩
    rw [hr n List.mem_cons_self]
    exact ih h.2.2 (fun k hk => hr k (List.mem_cons_of_mem _ hk))

theorem Table.Shaped.like (hT : T.Shaped fuel) (hR : T.Like R) : Table.Shaped fuel { T with record := R } where
  root := hT.root
  lt := hT.lt
  follows n hn := by
    change Follows R Inode.next (R n).child (T.kids n)
    rw [hR.child n hn]
    exact (hT.follows n hn).congr (fun m hm => hR.next m (hT.kid n hn m hm).1 (hT.kid n hn m hm).2)
  kid := hT.kid
  nodup := hT.nodup
  parent := hT.parent
  ino n hn m hm := by
    change (R m).ino.toNat = m
    rw [hR.ino m (hT.kid n hn m hm).1 (hT.kid n hn m hm).2]
    exact hT.ino n hn m hm
  fits n hn m hm := hR.fits m (hT.fits n hn m hm)
  kids_lt := hT.kids_lt
  expands n hn := by
    change Follows R Inode.expand (R n).expand (T.exps n)
    rw [hR.expand n]
    exact (hT.expands n hn).congr (fun m _ => hR.expand m)
  exp n hn e he := ⟨(hT.exp n hn e he).1,hR.fits e (hT.exp n hn e he).2⟩
  exps_lt := hT.exps_lt

theorem Table.Shaped.resolve_like (hT : T.Shaped fuel) (hR : T.Like R) (comps : List (List UInt8)) :
    Table.resolve { T with record := R } 0 comps = T.resolve 0 comps :=
  hT.treelike.resolve_congr (fun n hn m hm => hR.str m (hT.kid n hn m hm).1 (hT.kid n hn m hm).2) comps

/-! ## The tree after a change on the disk -/

theorem InTree.cache (h : InTree s q) (c : Scache) : InTree { s with scache := c } q := by
  induction h with
  | root => exact .root
  | child hp hl hj ih => exact ih.child (hl.cache c) hj

/-- The tree depends on the vnodes only. -/
theorem inTree_cache (c : Scache) : InTree { s with scache := c } q ↔ InTree s q :=
  ⟨fun h => h.cache s.scache,fun h => h.cache c⟩

theorem Tree.recache {C' : Content} {c : Scache} (h : Tree E bs C T o P s) (hc : Cached E bs C' c)
    (hst : ∀ n < T.count, c.OnDisk (volume bs E.devs) C' T.dev.toNat (T.blk bs n)) :
    Tree E bs C' T o P { s with scache := c } where
  vlist := h.vlist
  cached := hc
  stored := hst
  ofile := h.ofile
  sole := h.sole
  fresh := h.fresh
  root := h.root
  dev p hp := h.dev p ((inTree_cache c).mp hp)
  used p hp := h.used p ((inTree_cache c).mp hp)
  shows j hj := h.shows j ((inTree_cache c).mp hj)
  links p hp := by
    rcases h.links p ((inTree_cache c).mp hp) with hu | ⟨l,hl,hkids⟩
    · exact Or.inl hu
    · exact Or.inr ⟨l,⟨hl.sibs.cache c,hl.initial⟩,hkids⟩

theorem Tree.like (h : Tree E bs C T o P s) (hR : T.Like R)
    (hshows : ∀ j, InTree s (.vc j) → (s.vnode (.vc j)).Shows (R (s.ino (.vc j)))) :
    Tree E bs C { T with record := R } o P s where
  vlist := h.vlist
  cached := h.cached
  stored := h.stored
  ofile := h.ofile
  sole := ⟨h.sole.stat,h.sole.sblk,h.sole.fs,h.sole.hdev⟩
  fresh := h.fresh
  root := h.root
  dev := h.dev
  used := h.used
  shows := hshows
  links p hp := by
    rcases h.links p hp with hu | ⟨l,hl,hkids⟩
    · refine Or.inl (hu.imp_left (fun hu => ?_))
      rw [hu,hR.child _ (h.used p hp)]
    · exact Or.inr ⟨l,⟨hl.sibs,hl.initial⟩,hkids⟩

/-! ## Saving a node of a tree -/

/-- No node is its own child. -/
theorem InTree.not_child (hp : InTree s p) (hl : Sibs s p (s.vnode p).child l) : ∀ j ∈ l, p ≠ .vc j := by
  induction hp generalizing l with
  | root => exact fun j _ => nofun
  | @child p l' k hp hl' hk ih =>
    intro j hj he
    obtain rfl := VPtr.vc.inj he
    have hpar := (hl.mem hj).2.1
    have hpar' := (hl'.mem hk).2.1
    exact ih hl' k hk (hpar'.symm.trans hpar)

structure Rewrites (E : Env) (T : Table) (s : State) (p : VPtr) (D R : ℕ → Inode) : Prop where
  self : R (s.ino p) = (D (s.ino p)).save (s.vnode p) (s.numOf (s.vnode p).next) (D (s.ino p)).parent (s.childNum E p)
  kid : ∀ k ∈ T.kids (s.ino p), ∃ j, InTree s (.vc j) ∧ s.ino (.vc j) = k ∧
    R k = (D k).save (s.vnode (.vc j)) (s.numOf (s.vnode (.vc j)).next) (s.vnode p).ino (s.childNum E (.vc j))
  other : ∀ n, n ≠ s.ino p → n ∉ T.kids (s.ino p) → R n = D n

theorem Rewrites.cache {c : Scache} (h : Rewrites E T { s with scache := c } p D R) : Rewrites E T s p D R := by
  refine ⟨h.self,fun k hk => ?_,h.other⟩
  obtain ⟨j,hj,hino,he⟩ := h.kid k hk
  exact ⟨j,(inTree_cache c).mp hj,hino,he⟩

def Resaved (E : Env) (T : Table) (s : State) (D R : ℕ → Inode) : Prop :=
  ∀ n, (∃ q x, InTree s q ∧ (q ≠ .root 0 ∨ Complete T s q) ∧ s.ino q = n ∧
    R n = (D n).save (s.vnode q) (s.numOf (s.vnode q).next) x (s.childNum E q)) ∨ R n = T.record n

section Saving
variable (hT : T.Shaped E.fuel) (h : Tree E bs C T o (fun _ => True) s) (hroot : Rooted s)
include hT h hroot

theorem Tree.savable (hq : InTree s q) : Savable T s q := by
  have hlt := hT.lt _ (h.used q hq)
  cases hq with
  | root => exact ⟨rfl,hlt,hroot.str,Or.inl hroot.next⟩
  | child hp hl hj =>
    refine ⟨rfl,hlt,?_,?_⟩
    · rw [(h.shows _ (hp.child hl hj)).str]
      exact (hT.fits _ (h.used _ hp) _ (h.mem_kids hp hl hj)).length_lt
    · obtain ⟨l',hl'⟩ := hl.next hj
      exact hl'.null_or_node

theorem Resaved.like (hR : Resaved E T s D R) (hexp : ∀ n, (D n).expand = (T.record n).expand) : T.Like R := by
  have hvc : ∀ q n, InTree s q → s.ino q = n → n ≠ 0 → ∃ j, q = .vc j := by
    intro q n hq hn hne
    cases hq with
    | root => exact absurd (hn.symm.trans h.root) hne
    | child _ _ _ => exact ⟨_,rfl⟩
  constructor
  · intro n _
    rcases hR n with ⟨q,x,hq,hc,rfl,he⟩ | he
    · rw [he]
      exact h.child_num hT hq hc
    · rw [he]
  · intro n
    rcases hR n with ⟨q,x,hq,hc,rfl,he⟩ | he
    · rw [he]
      exact hexp _
    · rw [he]
  · intro n hn
    rcases hR n with ⟨q,x,hq,hc,rfl,he⟩ | he
    · rw [he]
      exact ⟨(s.vnode q).str_no_nul,(h.savable hT hroot hq).str⟩
    · rwa [he]
  · intro n _ hne
    rcases hR n with ⟨q,x,hq,hc,rfl,he⟩ | he
    · obtain ⟨j,rfl⟩ := hvc q _ hq rfl hne
      rw [he]
      exact h.next_num hT hq
    · rw [he]
  · intro n _ hne
    rcases hR n with ⟨q,x,hq,hc,rfl,he⟩ | he
    · obtain ⟨j,rfl⟩ := hvc q _ hq rfl hne
      rw [he]
      exact (h.shows j hq).ino
    · rw [he]
  · intro n _ hne
    rcases hR n with ⟨q,x,hq,hc,rfl,he⟩ | he
    · obtain ⟨j,rfl⟩ := hvc q _ hq rfl hne
      rw [he]
      exact (h.shows j hq).str
    · rw [he]

omit hroot in
theorem Resaved.shows (hR : Resaved E T s D R) (hj : InTree s (.vc j)) :
    (s.vnode (.vc j)).Shows (R (s.ino (.vc j))) := by
  rcases hR (s.ino (.vc j)) with ⟨q,x,hq,-,hn,he⟩ | he
  · obtain rfl := h.ino_inj hT hq hj hn
    rw [he]
    exact ⟨rfl,rfl,rfl,rfl,rfl,rfl,rfl,rfl,rfl,rfl,rfl,rfl,rfl⟩
  · rw [he]
    exact h.shows j hj

omit hroot in
theorem Tree.not_own_kid (hp : InTree s p) (hc : Complete T s p) : s.ino p ∉ T.kids (s.ino p) := by
  obtain ⟨l,hl,hkids⟩ := hc
  rw [← hkids]
  intro hmem
  obtain ⟨j,hj,he⟩ := List.mem_map.mp hmem
  exact hp.not_child hl.sibs j hj (h.ino_inj hT hp (hp.child hl.sibs hj) he.symm)

omit hroot in
theorem rewrites_saveAll (hp : InTree s p) (hl : Loaded T s p l)
    (hkids : l.map (fun j => s.ino (.vc j)) = T.kids (s.ino p)) :
    Rewrites E T s p D (Table.saveAll E s p l { T with record := D }).record := by
  have hself : s.ino p ∉ l.map (fun j => s.ino (.vc j)) := hkids.symm ▸ h.not_own_kid hT hp ⟨l,hl,hkids⟩
  refine ⟨saveAll_self hself,fun k hk => ?_,fun n hn hmem => saveAll_of_notMem hn (hkids.symm ▸ hmem)⟩
  rw [← hkids] at hk
  obtain ⟨j,hj,rfl⟩ := List.mem_map.mp hk
  have hnd : (l.map (fun j => s.ino (.vc j))).Nodup := hkids ▸ hT.nodup _ (h.used p hp)
  exact ⟨j,hp.child hl.sibs hj,rfl,saveAll_of_mem hself hnd hj⟩

omit hT h hroot in
theorem Rewrites.resaved (hR : Rewrites E T s p D R) (hp : InTree s p) (hc : Complete T s p)
    (hsame : ∀ n, n ≠ s.ino p → n ∉ T.kids (s.ino p) → D n = T.record n) : Resaved E T s D R := by
  intro n
  by_cases hn : n = s.ino p
  · exact Or.inl ⟨p,_,hp,Or.inr hc,hn.symm,by rw [hn]; exact hR.self⟩
  · by_cases hmem : n ∈ T.kids (s.ino p)
    · obtain ⟨j,hj,hino,he⟩ := hR.kid n hmem
      exact Or.inl ⟨.vc j,_,hj,Or.inl nofun,hino,he⟩
    · exact Or.inr ((hR.other n hn hmem).trans (hsame n hn hmem))

omit hT h hroot in
/-- What a vnode shows is saved without a change. -/
theorem Inode.save_shows {r : Inode} {v : Vnode} (hv : v.Shows r) (x : UInt32) (c : UInt32) :
    r.save v r.next x c = { r with parent := x, child := c } := by
  obtain ⟨h0,h1,h2,h3,h4,h5,h6,h7,h8,h9,h10,h11,h12⟩ := hv
  rw [Inode.save,h0,h1,h2,h3,h4,h5,h6,h7,h8,h9,h10,h11,h12]

/-- The disk had the records `D`, which may differ from the tree in the node `p` and its
children. -/
theorem Tree.snode (hX : Limit o X) (hp : InTree s p) (hc : Complete T s p)
    (hon : Table.On E bs C { T with record := D })
    (hsame : ∀ n, n ≠ s.ino p → n ∉ T.kids (s.ino p) → D n = T.record n)
    (hexp : ∀ n, (D n).expand = (T.record n).expand) :
    Ends X (mfsSnode E T.sb p) (fun _ t => ∃ C' c R, t = { s with scache := c } ∧ T.Like R ∧
      Table.On E bs C' { T with record := R } ∧ Tree E bs C' { T with record := R } o (fun _ => True) t ∧
      Outside E bs T C C' s.scache c ∧ Rewrites E T s p D R) s := by
  have hcomplete := hc
  obtain ⟨l,hl,hkids⟩ := hc
  have hsave : ∀ q, InTree s q → Savable { T with record := D } s q := by
    intro q hq
    obtain ⟨hnode,hlt,hstr,hnext⟩ := h.savable hT hroot hq
    exact ⟨hnode,hlt,hstr,hnext⟩
  have hlen : l.length ≤ E.fuel := by
    have := hT.kids_lt _ (h.used p hp)
    rw [← hkids,List.length_map] at this
    omega
  refine (mfsSnode_spec hX (T := { T with record := D }) ⟨h.cached,hon,h.stored⟩ (h.dev p hp) hl.sibs (hsave p hp)
    (fun j hj => hsave _ (hp.child hl.sibs hj)) hlen).mono ?_
  rintro _ t - ⟨C',c,rfl,hback,hout⟩
  have hrew := rewrites_saveAll (D := D) hT h hp hl hkids
  have hR := hrew.resaved hp hcomplete hsame
  have hlike := hR.like hT h hroot hexp
  rw [saveAll_eq] at hback
  exact ⟨C',c,_,rfl,hlike,hback.table,(h.like hlike (fun j => hR.shows hT h)).recache hback.cached hback.stored,hout,hrew⟩

/-- Saving the directory `d` over the records `D` keeps its own record, except for the link to
its children; but the root is not loaded from its record, which gets what the vnode has. -/
structure Resaves (D : ℕ → Inode) (s : State) (d : ℕ) (ks : List ℕ) (R : ℕ → Inode) : Prop where
  dir : d ≠ 0 → R d = { D d with child := (R d).child }
  root : d = 0 → R 0 = (D 0).save (s.vnode (.root 0)) 0 (D 0).parent (R 0).child
  kid : ∀ k ∈ ks, R k = { D k with parent := d.toUInt32 }

omit hT h hroot in
theorem Resaves.congr {d : ℕ} {ks : List ℕ} (hR : Resaves D s d ks R)
    (hv : ∃ c, s.vnode (.root 0) = { t.vnode (.root 0) with child := c }) : Resaves D t d ks R := by
  obtain ⟨c,hc⟩ := hv
  refine ⟨hR.dir,fun hd => (hR.root hd).trans ?_,hR.kid⟩
  rw [hc]
  rfl

/-- The table differs from the records `D` in the children of `p` only. -/
theorem Rewrites.resaves {ks : List ℕ} {v : UInt32} (hR : Rewrites E T s p D R) (hp : InTree s p)
    (hc : Complete T s p) (hks : ∀ k ∈ ks, k ∈ T.kids (s.ino p) ∧ (k ≠ s.ino p → T.record k = D k))
    (hrec : T.record (s.ino p) = { D (s.ino p) with child := v }) : Resaves D s (s.ino p) ks R := by
  have hself := hR.self
  refine ⟨fun hd => ?_,fun hd => ?_,fun k hk => ?_⟩
  · -- a directory below the root has been loaded from its record
    obtain ⟨j,rfl⟩ : ∃ j, p = .vc j := by
      cases hp with
      | root => exact absurd h.root hd
      | child _ _ _ => exact ⟨_,rfl⟩
    obtain ⟨h0,h1,h2,h3,h4,h5,h6,h7,h8,h9,h10,h11,h12⟩ := hrec ▸ h.shows j hp
    have hshows : (s.vnode (.vc j)).Shows (D (s.ino (.vc j))) := ⟨h0,h1,h2,h3,h4,h5,h6,h7,h8,h9,h10,h11,h12⟩
    have hnext : s.numOf (s.vnode (.vc j)).next = (D (s.ino (.vc j))).next := by
      rw [h.next_num hT hp,hrec]
    rw [hnext,Inode.save_shows hshows] at hself
    rw [hself]
  · obtain rfl : p = .root 0 := h.ino_inj hT hp .root (hd.trans h.root.symm)
    rw [hd,hroot.next] at hself
    rw [hself]
    rfl
  · obtain ⟨hmem,hsame⟩ := hks k hk
    obtain ⟨j,hj,rfl,he⟩ := hR.kid k hmem
    have hsame := hsame (fun he => h.not_own_kid hT hp hc (he ▸ hmem))
    have hshows := h.shows j hj
    have hnext := h.next_num hT hj
    have hchild := h.child_num hT hj (Or.inl nofun)
    rw [hsame] at hshows hnext hchild
    rw [he,hnext,hchild,Inode.save_shows hshows]
    congr 1
    exact (UInt32.ofNat_toNat).symm

end Saving

end Micron.Filesys

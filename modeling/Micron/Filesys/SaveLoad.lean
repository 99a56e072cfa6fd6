import Micron.Filesys.SaveFrame

/-! # Saving a directory and loading it again

`mfs_snode` writes the records of a node and of its children, and `mfs_lnode` makes vnodes
from them. The list comes back as it was, as long as no child has an expansion and the number 0,
which ends a list on the disk, is not the number of a child.
-/
namespace Micron.Filesys
open Function Bytes Kernel Scache Prog
variable {E : Env} {bs : BlkSizes} {B : Finset (ℕ × ℤ)} {C : Content} {T : Table} {s t : State} {X : State → Prop}
  {p q lvp lvep : VPtr} {ip : IPtr} {l ms : List ℕ} {j m fuel : ℕ}

/-! ## Lists of vnodes -/

def LinkedBy (link : Vnode → VPtr) (s : State) : VPtr → List ℕ → Prop
  | q, [] => q = .null
  | q, j :: l => q = .vc j ∧ LinkedBy link s (link (s.vnode (.vc j))) l

namespace LinkedBy
variable {link : Vnode → VPtr}

theorem congr (h : LinkedBy link s q l) (hv : t.vnode = s.vnode) : LinkedBy link t q l := by
  induction l generalizing q with
  | nil => exact h
  | cons j l ih => exact ⟨h.1,by rw [hv]; exact ih h.2⟩

theorem unique (h : LinkedBy link s q l) (h' : LinkedBy link s q ms) : l = ms := by
  induction l generalizing q ms with
  | nil =>
    cases ms with
    | nil => rfl
    | cons k ms => exact absurd (h.symm.trans h'.1) nofun
  | cons j l ih =>
    obtain ⟨rfl,h⟩ := h
    cases ms with
    | nil => exact absurd h' nofun
    | cons k ms =>
      obtain ⟨hk,h'⟩ := h'
      cases hk
      rw [ih h h']

theorem sibs (h : LinkedBy Vnode.next s q l) (hl : ∀ j ∈ l, j < s.vlist.cnt ∧ (s.vnode (.vc j)).parent = p ∧
    (s.vnode (.vc j)).expand = .null) : Sibs s p q l := by
  induction l generalizing q with
  | nil => exact h
  | cons j l ih =>
    obtain ⟨hj,hpar,hexp⟩ := hl j List.mem_cons_self
    exact ⟨h.1,hj,hpar,hexp,ih h.2 (fun k hk => hl k (List.mem_cons_of_mem _ hk))⟩

end LinkedBy

theorem Sibs.linked (h : Sibs s p q l) : LinkedBy Vnode.next s q l := by
  induction l generalizing q with
  | nil => exact h
  | cons j l ih =>
    obtain ⟨rfl,-,-,-,hl⟩ := h
    exact ⟨rfl,ih hl⟩

/-! ## Loading a list of records -/

def hook (f : VPtr → Vnode) (p lvp : VPtr) (j : ℕ) : VPtr → Vnode :=
  if lvp = .null then update f p { f p with child := .vc j } else update f lvp { f lvp with next := .vc j }

theorem hook_of_ne {f : VPtr → Vnode} (hp : q ≠ p) (hl : q ≠ lvp) : hook f p lvp j q = f q := by
  unfold hook
  split
  · exact update_of_ne hp _ _
  · exact update_of_ne hl _ _

theorem hook_update {f : VPtr → Vnode} {x : VPtr} {w : Vnode} (hp : p ≠ x) (hl : lvp ≠ x) (hq : q ≠ x) :
    hook (update f x w) p lvp j q = hook f p lvp j q := by
  unfold hook
  split
  · rw [update_of_ne hp]
    by_cases hqp : q = p
    · rw [hqp,update_self,update_self]
    · rw [update_of_ne hqp,update_of_ne hqp,update_of_ne hq]
  · rw [update_of_ne hl]
    by_cases hql : q = lvp
    · rw [hql,update_self,update_self]
    · rw [update_of_ne hql,update_of_ne hql,update_of_ne hq]

theorem hook_dev {f : VPtr → Vnode} : (hook f p lvp j q).dev = (f q).dev := by
  unfold hook
  split
  · by_cases hqp : q = p
    · rw [hqp,update_self]
    · rw [update_of_ne hqp]
  · by_cases hql : q = lvp
    · rw [hql,update_self]
    · rw [update_of_ne hql]

theorem hook_self {f : VPtr → Vnode} (hl : lvp ≠ .null) : hook f p lvp j lvp = { f lvp with next := .vc j } := by
  rw [hook,if_neg hl,update_self]

theorem wp_hook {α : Type} {Q : α → State → Prop} {k : Unit → K α} (hp : p.isNode) (hl : lvp = .null ∨ lvp.isNode)
    (h : wp (k ()) Q X { s with vnode := hook s.vnode p lvp j }) :
    wp (if lvp = .null then setVnode p (fun v => { v with child := .vc j }) >>= k
      else setVnode lvp (fun v => { v with next := .vc j }) >>= k) Q X s := by
  unfold hook at h
  by_cases h0 : lvp = .null
  · rw [if_pos h0] at h ⊢
    rw [wp_bind,wp_setVnode hp]
    exact h
  · rw [if_neg h0] at h ⊢
    rw [wp_bind,wp_setVnode (hl.resolve_left h0)]
    exact h

def Vnode.adopt (v : Vnode) (r : Inode) (dev : UInt32) (p : VPtr) : Vnode :=
  { v.fill r dev with parent := p, child := .ofIno r.child, next := .null }

theorem Vnode.adopt_shows {v : Vnode} {r : Inode} {dev : UInt32} (h : r.Fits) : (v.adopt r dev p).Shows r :=
  (v.fill_shows dev h).congr rfl

structure Table.Leaf (bs : BlkSizes) (B : Finset (ℕ × ℤ)) (T : Table) (m : ℕ) : Prop where
  lt : m < T.count
  mem : (T.dev.toNat,(T.blk bs m : ℤ)) ∈ B
  fits : (T.record m).Fits
  expand : (T.record m).expand = 0

/-- A node that is in use, with a cache that has room for the blocks of `B` and vnodes without
expansions to hand out. -/
structure Receives (E : Env) (bs : BlkSizes) (B : Finset (ℕ × ℤ)) (C : Content) (T : Table) (p : VPtr) (s : State) :
    Prop where
  isNode : p.isNode
  dev : (s.vnode p).dev = T.dev
  disk : Disk E bs B C s.scache
  vlist : s.vlist.Unused NVCHCNTS
  old : ∀ j ≥ s.vlist.cnt, p ≠ .vc j
  fresh : ∀ j ≥ s.vlist.cnt, (s.vnode (.vc j)).expand = .null

structure Copied (T : Table) (s t : State) (p : VPtr) (ms : List ℕ) : Prop where
  cnt : t.vlist.cnt = s.vlist.cnt + ms.length
  sibs : Sibs t p (.vc s.vlist.cnt) (List.range' s.vlist.cnt ms.length)
  shows : List.Forall₂ (fun j m => (t.vnode (.vc j)).Shows (T.record m)) (List.range' s.vlist.cnt ms.length) ms

theorem Copied.cons (hcnt : t.vlist.cnt = s.vlist.cnt + 1 + ms.length) (hshow : (t.vnode (.vc s.vlist.cnt)).Shows (T.record m))
    (hpar : (t.vnode (.vc s.vlist.cnt)).parent = p) (hexp : (t.vnode (.vc s.vlist.cnt)).expand = .null)
    (hsibs : Sibs t p (t.vnode (.vc s.vlist.cnt)).next (List.range' (s.vlist.cnt + 1) ms.length))
    (hshows : List.Forall₂ (fun j m => (t.vnode (.vc j)).Shows (T.record m)) (List.range' (s.vlist.cnt + 1) ms.length) ms) :
    Copied T s t p (m :: ms) := by
  refine ⟨?_,?_,?_⟩
  · rw [hcnt,List.length_cons]
    omega
  · rw [List.length_cons,List.range'_succ]
    exact ⟨rfl,by omega,hpar,hexp,hsibs⟩
  · rw [List.length_cons,List.range'_succ]
    exact .cons hshow hshows

theorem lnodeLoop_copied (hT : T.On E bs C) (h : Receives E bs B C T p s) (hip : T.Points bs ip s.scache m)
    (hm : ∀ x ∈ m :: ms, T.Leaf bs B x) (hf : Follows T.record Inode.next (T.record m).next ms)
    (hroom : s.vlist.cnt + (m :: ms).length ≤ NVCHCNTS) (hfuel : ms.length < fuel) (hl : lvp = .null ∨ lvp.isNode)
    (hlvp : ∀ j ≥ s.vlist.cnt, lvp ≠ .vc j) (hne : lvp ≠ p) :
    wp (lnodeLoop E T.sb p fuel ip lvp lvep) (fun _ t => Copied T s t p (m :: ms) ∧
      ∀ q, (∀ j ≥ s.vlist.cnt, q ≠ .vc j) → t.vnode q = hook s.vnode p lvp s.vlist.cnt q) X s := by
  induction fuel generalizing s m ms ip lvp with
  | zero => omega
  | succ fuel ih =>
    have hleaf := hm m List.mem_cons_self
    have hreads := hip.reads hT h.disk.coherent hleaf.lt
    rw [List.length_cons] at hroom
    rw [lnodeLoop,wp_bind]
    refine wp_vcacheAlloc h.vlist (fun i l hun _ hcase => ?_)
    obtain ⟨-,rfl,rfl⟩ := hcase.resolve_right (fun hc => by omega)
    rw [if_neg (by simp),wp_bind,wp_vnode h.isNode,wp_bind]
    refine Iff.mpr (wp_translate hreads rfl hleaf.fits rfl) ?_
    rw [wp_bind]
    refine Iff.mpr (wp_inode hreads rfl) ?_
    rw [wp_bind,wp_setVnode rfl]
    refine wp_hook h.isNode hl ?_
    rw [if_neg (not_not.mpr hleaf.expand),wp_bind,wp_pure,wp_bind]
    refine Iff.mpr (wp_inode hreads rfl) ?_
    dsimp only
    rw [update_self,update_idem]
    change wp _ _ X { s with
      vlist := s.vlist.append
      allocs := _
      vnode := hook (update s.vnode (.vc s.vlist.cnt) ((s.vnode (.vc s.vlist.cnt)).adopt (T.record m) (s.vnode p).dev p))
        p lvp s.vlist.cnt }
    generalize hw : (s.vnode (.vc s.vlist.cnt)).adopt (T.record m) (s.vnode p).dev p = w
    have hshows : w.Shows (T.record m) := hw ▸ Vnode.adopt_shows hleaf.fits
    have hexp : w.expand = .null := by rw [← hw]; exact h.fresh _ (Nat.le_refl _)
    have hpar : w.parent = p := by rw [← hw]; rfl
    have hnull : w.next = .null := by rw [← hw]; rfl
    have hnew : ∀ j ≥ s.vlist.cnt, hook (update s.vnode (.vc s.vlist.cnt) w) p lvp s.vlist.cnt (.vc j) =
        update s.vnode (.vc s.vlist.cnt) w (.vc j) :=
      fun j hj => hook_of_ne (h.old j hj).symm (hlvp j hj).symm
    have hold : ∀ q, (∀ j ≥ s.vlist.cnt, q ≠ .vc j) →
        hook (update s.vnode (.vc s.vlist.cnt) w) p lvp s.vlist.cnt q = hook s.vnode p lvp s.vlist.cnt q :=
      fun q hq => hook_update (h.old _ (Nat.le_refl _)) (hlvp _ (Nat.le_refl _)) (hq _ (Nat.le_refl _))
    generalize hook (update s.vnode (.vc s.vlist.cnt) w) p lvp s.vlist.cnt = f at hnew hold
    have hself : f (.vc s.vlist.cnt) = w := (hnew _ (Nat.le_refl _)).trans (update_self _ _ _)
    by_cases hz : (T.record m).next = 0
    · rw [if_pos hz]
      cases ms with
      | cons m' ms => exact absurd hz hf.1
      | nil =>
        refine ⟨Copied.cons AllocList.append_cnt ?_ ?_ ?_ ?_ .nil,hold⟩ <;> dsimp only <;> rw [hself]
        · exact hshows
        · exact hpar
        · exact hexp
        · exact hnull
    · rw [if_neg hz]
      cases ms with
      | nil => exact absurd hf hz
      | cons m' ms =>
        obtain ⟨-,hm',hf⟩ := hf
        subst hm'
        have hleaf' := hm _ (List.mem_cons_of_mem _ List.mem_cons_self)
        have hdev : (f p).dev = T.dev := by rw [hold p h.old,hook_dev,h.dev]
        rw [List.length_cons] at hroom hfuel
        rw [wp_bind,wp_vnode h.isNode,wp_bind]
        dsimp only
        rw [hdev]
        refine wp.mono (hT.wp_mfsGet hleaf'.lt h.disk hleaf'.mem) ?_ (fun _ _ hx => hx)
        rintro ip' _ - ⟨c,rfl,hd,-,hip'⟩
        have hcnt : s.vlist.append.cnt = s.vlist.cnt + 1 := AllocList.append_cnt
        have hlt : ∀ j ≥ s.vlist.append.cnt, s.vlist.cnt < j := fun j hj => by omega
        have hrec : Receives E bs B C T p { s with
            vlist := s.vlist.append, allocs := s.allocs ++ [⟨s.vlist,s.ofile,some s.vlist.cnt⟩], vnode := f, scache := c } := by
          refine ⟨h.isNode,hdev,hd,hun,fun j hj => h.old j (Nat.le_of_lt (hlt j hj)),fun j hj => ?_⟩
          have hj := hlt j hj
          dsimp only
          rw [hnew j (Nat.le_of_lt hj),update_of_ne (fun he => Nat.ne_of_gt hj (VPtr.vc.inj he))]
          exact h.fresh j (Nat.le_of_lt hj)
        refine wp.mono (ih hrec hip' (fun x hx => hm x (List.mem_cons_of_mem _ hx)) hf ?_ (by omega) (Or.inr rfl)
          (fun j hj he => Nat.ne_of_lt (hlt j hj) (VPtr.vc.inj he)) (h.old _ (Nat.le_refl _)).symm) ?_ (fun _ _ hx => hx)
        · dsimp only
          rw [List.length_cons]
          omega
        · rintro _ t - ⟨⟨htcnt,hsibs,hforall⟩,hold'⟩
          dsimp only at htcnt hsibs hforall hold'
          rw [hcnt] at htcnt hsibs hforall
          have hvc : t.vnode (.vc s.vlist.cnt) = { w with next := .vc (s.vlist.cnt + 1) } := by
            rw [hold' _ (fun j hj he => Nat.ne_of_lt (hlt j hj) (VPtr.vc.inj he)),hook_self (by simp),hself,hcnt]
          refine ⟨Copied.cons htcnt ?_ ?_ ?_ ?_ hforall,fun q hq => ?_⟩
          · rw [hvc]
            exact hshows.congr rfl
          · rw [hvc]
            exact hpar
          · rw [hvc]
            exact hexp
          · rw [hvc]
            exact hsibs
          · rw [hold' q (fun j hj => hq j (Nat.le_of_lt (hlt j hj))),hook,if_neg (by simp),
              update_of_ne (hq _ (Nat.le_refl _))]
            exact hold q hq

theorem mfsLnode_copied (hT : T.On E bs C) (h : Receives E bs B C T p s) (hlt : s.ino p < T.count)
    (hmem : (T.dev.toNat,(T.blk bs (s.ino p) : ℤ)) ∈ B) (hm : ∀ x ∈ ms, T.Leaf bs B x)
    (hf : Follows T.record Inode.next (T.record (s.ino p)).child ms) (hroom : s.vlist.cnt + ms.length ≤ NVCHCNTS)
    (hfuel : ms.length ≤ E.fuel) :
    wp (mfsLnode E T.sb p) (fun _ t => Sibs t p (t.vnode p).child (List.range' s.vlist.cnt ms.length) ∧
      List.Forall₂ (fun j m => (t.vnode (.vc j)).Shows (T.record m)) (List.range' s.vlist.cnt ms.length) ms) X s := by
  rw [mfsLnode,wp_bind,wp_vnode h.isNode,wp_bind,h.dev]
  refine wp.mono (hT.wp_mfsGet hlt h.disk hmem) ?_ (fun _ _ hx => hx)
  rintro ip _ - ⟨c,rfl,hd,-,hip⟩
  rw [wp_bind]
  refine Iff.mpr (wp_inode (hip.reads hT hd.coherent hlt) rfl) ?_
  change wp (if (T.record (s.ino p)).child = 0 then _ else _) _ X _
  cases ms with
  | nil =>
    rw [if_pos (show (T.record (s.ino p)).child = 0 from hf),wp_setVnode h.isNode]
    refine ⟨?_,.nil⟩
    dsimp only
    rw [update_self]
    rfl
  | cons m ms =>
    obtain ⟨hz,rfl,hf⟩ := hf
    have hleaf := hm _ List.mem_cons_self
    rw [if_neg hz,wp_bind]
    refine wp.mono (hT.wp_mfsGet (s := { s with scache := c }) hleaf.lt hd hleaf.mem) ?_ (fun _ _ hx => hx)
    rintro ip' _ - ⟨c',rfl,hd',-,hip'⟩
    have hrec : Receives E bs B C T p { s with scache := c' } := ⟨h.isNode,h.dev,hd',h.vlist,h.old,h.fresh⟩
    refine wp.mono (lnodeLoop_copied hT hrec hip' hm hf hroom hfuel (Or.inl rfl) nofun ?_) ?_ (fun _ _ hx => hx)
    · rintro rfl
      exact absurd h.isNode (by decide)
    · rintro _ t - ⟨hcopy,hold⟩
      have hchild : (t.vnode p).child = .vc s.vlist.cnt := by
        rw [hold p h.old,hook,if_pos rfl,update_self]
      rw [hchild]
      exact ⟨hcopy.sibs,hcopy.shows⟩

/-! ## Saving with room in the cache -/

/-- A record in a block that the cache has room for is saved, and the cache keeps to its blocks. -/
theorem saveRecord_room (hT : T.On E bs C) (hd : Disk E bs B (contentOf bs E.devs s.scache.disk) s.scache) (hp : p.isNode)
    (hdev : (s.vnode p).dev = T.dev) (hq : Savable T s q) (hlink : ChildLink s q)
    (hmem : (T.dev.toNat,(T.blk bs (s.ino q) : ℤ)) ∈ B) :
    ∃ t, (saveRecord E T.sb p q).run s = (.ok (),t) ∧ Saves E bs T s p [q] t ∧
      ∀ i < t.scache.alist.cnt, t.scache.src (some i) ∈ B := by
  obtain ⟨L,hL⟩ := hd.coherent
  have hvalid := hT.valid _ hq.lt
  obtain ⟨i,L',c,hget,hcoh,hgot,hwithin⟩ := hL.get_mem (g := bs.request T.dev.toNat (T.blk bs (s.ino q))) hvalid
    (volume_fits hvalid (hT.blk_ne _)) hT.usable.open_ok hd.card_le hd.within hmem
  obtain ⟨f,d,k,hrun⟩ := saveRecord_get hT hp hdev hq hget (hcoh.inv.seek_of_src hgot.lt hgot.src)
  have hspare : s.scache.SparesHeads T.dev.toNat (T.blk bs (s.ino q)) := by
    intro hmiss hfull
    have hlt := hL.inv.room hd.card_le hd.within hmem ((hL.inv.seek_none hT.usable.dev_ok).mp hmiss)
    omega
  obtain ⟨_,t,hrun',hsave⟩ := (saveRecord_spec hT ⟨L,hL⟩ hp hdev hq hlink hspare).run
  obtain rfl := (Prod.mk.inj (hrun.symm.trans hrun')).2
  exact ⟨_,hrun,hsave,hwithin⟩

theorem snode_room (hT : T.On E bs C) (hd : Disk E bs B (contentOf bs E.devs s.scache.disk) s.scache)
    (hdir : Directory T s p l) (hstr : ∀ q ∈ p :: l.map .vc, (s.vnode q).str.length < NVNAMLEN)
    (hmem : ∀ q ∈ p :: l.map .vc, (T.dev.toNat,(T.blk bs (s.ino q) : ℤ)) ∈ B) (hfuel : l.length ≤ E.fuel) :
    ∃ t, (mfsSnode E T.sb p).run s = (.ok (),t) ∧ Saves E bs T s p (p :: l.map .vc) t ∧
      Disk E bs B (contentOf bs E.devs t.scache.disk) t.scache := by
  have hstep : ∀ c, ∀ q ∈ p :: l.map .vc, ∀ qs : List VPtr, Synced E bs c → (∀ i < c.alist.cnt, c.src (some i) ∈ B) →
      ∃ t, (saveRecord E T.sb p q).run { s with scache := c } = (.ok (),t) ∧
        Saves E bs T { s with scache := c } p [q] t ∧ ∀ i < t.scache.alist.cnt, t.scache.src (some i) ∈ B := by
    intro c q hq _ hc hwithin
    obtain ⟨hnode,hlt,hnext,hlink⟩ := hdir.savable hq
    exact saveRecord_room (s := { s with scache := c }) hT ⟨hc,hwithin,hd.card_le⟩ hdir.isNode hdir.dev
      ⟨hnode,hlt,hstr q hq,hnext⟩ hlink (hmem q hq)
  obtain ⟨t,hrun,hsaves,hwithin⟩ := saveRecords_run (P := fun s _ => ∀ i < s.scache.alist.cnt, s.scache.src (some i) ∈ B)
    hdir.lt hdir.nodup hd.within hd.coherent hstep
  refine ⟨t,?_,hsaves,hsaves.synced,hwithin,hd.card_le⟩
  rw [mfsSnode_eq hdir.isNode hdir.sibs (fun _ hj => hdir.ne_self hj) hfuel]
  exact hrun

/-! ## Expansions -/

/-- The loop over the expansions does not come to an end: it looks at the vnode after the last one. -/
theorem snodeExpand_stops {sb : Sblk} : wp (snodeExpand E sb p ip fuel q) (fun _ _ => False) (fun _ => True) s := by
  induction fuel generalizing s q with
  | zero => trivial
  | succ fuel ih =>
    rw [snodeExpand]
    refine wp_bind_any fun e _ => wp_bind_any fun _ _ => wp_bind_any fun _ _ => wp_bind_any fun _ _ => ?_
    refine wp_bind_any fun _ _ => wp_bind_any fun _ _ => wp_bind_any fun _ _ => wp_bind_any fun _ _ => ?_
    refine wp_bind_any fun _ _ => wp_bind_any fun _ _ => ?_
    by_cases hnode : e.expand.isNode
    · refine wp_bind_any fun _ _ => wp_bind_any fun _ _ => wp_bind_any fun _ _ => wp_bind_any fun _ _ => ?_
      rw [if_neg (fun he => by rw [he] at hnode; exact absurd hnode (by decide))]
      exact ih
    · rw [wp_bind,vnode,if_neg hnode]
      trivial

/-- If the loop over the children ends, none of them has an expansion. -/
theorem snodeLoop_expand {sb : Sblk} (hl : LinkedBy Vnode.next s q l) :
    wp (snodeLoop E sb p fuel q) (fun _ _ => ∀ j ∈ l, (s.vnode (.vc j)).expand = .null) (fun _ => True) s := by
  induction l generalizing s q fuel with
  | nil => exact wp.mono wp_true (fun _ _ _ _ j hj => absurd hj List.not_mem_nil) (fun _ _ _ => trivial)
  | cons j l ih =>
    obtain ⟨rfl,hl⟩ := hl
    cases fuel with
    | zero => trivial
    | succ fuel =>
      rw [snodeLoop]
      refine Fixes.wp_bind (g := State.vnode) (Blind.saveNode (fun _ _ => rfl) _ _ _) fun ip t ht => ?_
      rw [wp_bind,wp_vnode rfl,ht]
      by_cases hexp : (s.vnode (.vc j)).expand = .null
      · rw [if_neg (not_not.mpr hexp)]
        refine Fixes.wp_bind (g := State.vnode) (fixes_vnode _) fun _ t₁ ht₁ => ?_
        refine Fixes.wp_bind (g := State.vnode) (Blind.mfsPut (fun _ _ => rfl) _ _) fun _ t₂ ht₂ => ?_
        have hsame : t₂.vnode = s.vnode := (ht₂.trans ht₁).trans ht
        cases l with
        | nil =>
          rw [if_pos (by exact hl)]
          exact fun k hk => (List.mem_singleton.mp hk).symm ▸ hexp
        | cons k l =>
          rw [if_neg (by simp [hl.1])]
          refine wp.mono (ih (hl.congr hsame)) ?_ (fun _ _ hx => hx)
          rintro _ _ - hall i hi
          rw [hsame] at hall
          rcases List.mem_cons.mp hi with rfl | hi
          · exact hexp
          · exact hall i hi
      · rw [if_pos hexp,wp_bind]
        exact wp.mono snodeExpand_stops (fun _ _ _ hfalse => hfalse.elim) (fun _ _ _ => trivial)

theorem mfsSnode_expand {sb : Sblk} (hp : p.isNode) (hl : LinkedBy Vnode.next s (s.vnode p).child l) :
    wp (mfsSnode E sb p) (fun _ _ => ∀ j ∈ l, (s.vnode (.vc j)).expand = .null) (fun _ => True) s := by
  rw [mfsSnode]
  refine Fixes.wp_bind (g := State.vnode) (Blind.saveNode (fun _ _ => rfl) _ _ _) fun _ t ht => ?_
  rw [wp_bind,wp_vnode hp,ht]
  refine Fixes.wp_bind (g := State.vnode) (Blind.mfsPut (fun _ _ => rfl) _ _) fun _ t₁ ht₁ => ?_
  have hsame : t₁.vnode = s.vnode := ht₁.trans ht
  cases l with
  | nil =>
    rw [if_pos (by exact hl)]
    exact fun _ hj => absurd hj List.not_mem_nil
  | cons j l =>
    rw [if_neg (by simp [hl.1])]
    refine wp.mono (snodeLoop_expand (hl.congr hsame)) ?_ (fun _ _ hx => hx)
    rintro _ _ - hall
    rw [hsame] at hall
    exact hall

/-! ## Directories -/

def Vnode.attrs (v : Vnode) : Inode where
  str := v.str
  ino := v.ino
  mode := v.mode
  nlink := v.nlink
  uid := v.uid
  gid := v.gid
  rdev := v.rdev
  size := v.size
  atime := v.atime
  mtime := v.mtime
  ctime := v.ctime
  blkentry := v.blkentry
  blocks := v.blocks
  next := 0
  parent := 0
  child := 0
  expand := 0

theorem Vnode.Shows.attrs_eq {v w : Vnode} {r : Inode} (hv : v.Shows r) (hw : w.Shows r) : v.attrs = w.attrs := by
  obtain ⟨h0,h1,h2,h3,h4,h5,h6,h7,h8,h9,h10,h11,h12⟩ := hv
  obtain ⟨k0,k1,k2,k3,k4,k5,k6,k7,k8,k9,k10,k11,k12⟩ := hw
  rw [attrs,attrs,h0,h1,h2,h3,h4,h5,h6,h7,h8,h9,h10,h11,h12,k0,k1,k2,k3,k4,k5,k6,k7,k8,k9,k10,k11,k12]

/-- The directory `p` has the children with the attributes `d`, in this order, each with the
attributes of its expansions. -/
def Listing (s : State) (p : VPtr) (d : List (Inode × List Inode)) : Prop :=
  ∃ l : List (ℕ × List ℕ), LinkedBy Vnode.next s (s.vnode p).child (l.map Prod.fst) ∧
    (∀ x ∈ l, LinkedBy Vnode.expand s (s.vnode (.vc x.1)).expand x.2) ∧
    l.map (fun x => ((s.vnode (.vc x.1)).attrs,x.2.map (fun e => (s.vnode (.vc e)).attrs))) = d

theorem Listing.unique {d d' : List (Inode × List Inode)} (h : Listing s p d) (h' : Listing s p d') : d = d' := by
  obtain ⟨l,hl,hexp,rfl⟩ := h
  obtain ⟨l',hl',hexp',rfl⟩ := h'
  have hfst := hl.unique hl'
  have hsame : l = l' := by
    clear hl hl'
    induction l generalizing l' with
    | nil => exact (List.map_eq_nil_iff.mp hfst.symm).symm
    | cons x l ih =>
      cases l' with
      | nil => exact absurd hfst (by simp)
      | cons y l' =>
        obtain ⟨hxy,hfst⟩ := List.cons.inj hfst
        have hx := hexp x List.mem_cons_self
        rw [hxy] at hx
        rw [ih (fun z hz => hexp z (List.mem_cons_of_mem _ hz)) l' (fun z hz => hexp' z (List.mem_cons_of_mem _ hz)) hfst,
          Prod.ext hxy (hx.unique (hexp' y List.mem_cons_self))]
  rw [hsame]

/-- A node with children, each with its expansions, that can be saved: all of them have different
numbers of the table and names that fit. -/
structure Family (T : Table) (s : State) (p : VPtr) (l : List (ℕ × List ℕ)) : Prop where
  isNode : p.isNode
  dev : (s.vnode p).dev = T.dev
  next : (s.vnode p).next = .null ∨ (s.vnode p).next.isNode
  kids : LinkedBy Vnode.next s (s.vnode p).child (l.map Prod.fst)
  exps : ∀ x ∈ l, LinkedBy Vnode.expand s (s.vnode (.vc x.1)).expand x.2
  used : ∀ x ∈ l, x.1 < s.vlist.cnt ∧ (s.vnode (.vc x.1)).parent = p ∧ ChildLink s (.vc x.1)
  nodup : ((p :: (l.flatMap (fun x => x.1 :: x.2)).map .vc).map s.ino).Nodup
  lt : ∀ q ∈ p :: (l.flatMap (fun x => x.1 :: x.2)).map .vc, s.ino q < T.count
  str : ∀ q ∈ p :: (l.flatMap (fun x => x.1 :: x.2)).map .vc, (s.vnode q).str.length < NVNAMLEN

/-- Saving the node and loading its records into `p'` gives the same directory. -/
def RoundTrips (E : Env) (sb : Sblk) (s : State) (p p' : VPtr) : Prop :=
  ∃ d t u, Listing s p d ∧ (mfsSnode E sb p).run s = (.ok (),t) ∧ (mfsLnode E sb p').run t = (.ok (),u) ∧ Listing u p' d

/-- The numbers that the links of the saved records lead through: a child with number 0 ends them. -/
theorem Sibs.follows {R : ℕ → Inode} (h : Sibs s p q l)
    (hR : ∀ j ∈ l, (R (s.ino (.vc j))).next = s.numOf (s.vnode (.vc j)).next) :
    Follows R Inode.next (s.numOf q) ((l.takeWhile (fun j => s.ino (.vc j) ≠ 0)).map (fun j => s.ino (.vc j))) := by
  induction l generalizing q with
  | nil => exact if_pos h
  | cons j l ih =>
    obtain ⟨rfl,-,-,-,hl⟩ := h
    have hnum : s.numOf (.vc j) = (s.vnode (.vc j)).ino := if_neg nofun
    by_cases h0 : s.ino (.vc j) = 0
    · rw [List.takeWhile_cons_of_neg (by simpa using h0),hnum]
      exact UInt32.toNat_inj.mp h0
    · rw [List.takeWhile_cons_of_pos (by simpa using h0),List.map_cons,hnum]
      refine ⟨fun hz => h0 (congrArg UInt32.toNat hz),rfl,?_⟩
      rw [hR j List.mem_cons_self]
      exact ih hl (fun k hk => hR k (List.mem_cons_of_mem _ hk))

theorem Sibs.firstChild (h : Sibs s p (s.vnode p).child l) : s.firstChild p = s.numOf (s.vnode p).child := by
  unfold State.firstChild State.numOf
  cases l with
  | nil =>
    rw [show (s.vnode p).child = .null from h]
    rfl
  | cons j l =>
    rw [h.1]
    rfl

/-- The vnodes of a list without expansions, with attributes known from records. -/
theorem Sibs.listing {R : ℕ → Inode} {f : ℕ → Vnode} {g : ℕ → ℕ} (h : Sibs s p (s.vnode p).child l)
    (hs : List.Forall₂ (fun j m => (s.vnode (.vc j)).Shows (R m)) l (ms.map g)) (hR : ∀ j ∈ ms, (f j).Shows (R (g j))) :
    Listing s p (ms.map (fun j => ((f j).attrs,[]))) := by
  refine ⟨l.map (fun j => (j,[])),?_,fun x hx => ?_,?_⟩
  · have hfst : (l.map (fun j => (j,([] : List ℕ)))).map Prod.fst = l := by
      rw [List.map_map]
      exact List.map_id l
    rw [hfst]
    exact h.linked
  · obtain ⟨j,hj,rfl⟩ := List.mem_map.mp hx
    exact (h.mem hj).2.2
  · rw [List.map_map]
    clear h
    induction ms generalizing l with
    | nil =>
      cases hs
      rfl
    | cons m ms ih =>
      obtain _ | ⟨hj,hs⟩ := hs
      rw [List.map_cons,List.map_cons,ih hs (fun j hj => hR j (List.mem_cons_of_mem _ hj))]
      rw [← hj.attrs_eq (hR m List.mem_cons_self)]
      rfl

/-- What comes back of the children of a directory: those before the first with number 0. -/
theorem Directory.reload {p' : VPtr} (hdir : Directory T s p l) (hT : T.On E bs C)
    (hrec : Receives E bs B (contentOf bs E.devs s.scache.disk) T p' s) (hino : s.ino p' = s.ino p)
    (hstr : ∀ q ∈ p :: l.map .vc, (s.vnode q).str.length < NVNAMLEN)
    (hmem : ∀ q ∈ p :: l.map .vc, (T.dev.toNat,(T.blk bs (s.ino q) : ℤ)) ∈ B)
    (hstale : ∀ j ∈ l, (T.stored E bs s (s.ino (.vc j))).expand = 0) (hroom : s.vlist.cnt + l.length ≤ NVCHCNTS)
    (hfuel : l.length ≤ E.fuel) :
    ∃ t u, (mfsSnode E T.sb p).run s = (.ok (),t) ∧ (mfsLnode E T.sb p').run t = (.ok (),u) ∧
      Listing u p' ((l.takeWhile (fun j => s.ino (.vc j) ≠ 0)).map (fun j => ((s.vnode (.vc j)).attrs,[]))) := by
  obtain ⟨t,hrun,hsaves,hdisk⟩ := snode_room hT hrec.disk hdir hstr hmem hfuel
  obtain ⟨c,rfl⟩ : ∃ c, t = { s with scache := c } := ⟨_,hsaves.same⟩
  have hT' := hT.current { s with scache := c }
  have hmemvc : ∀ j ∈ l, VPtr.vc j ∈ p :: l.map .vc := fun j hj => List.mem_cons_of_mem _ (List.mem_map_of_mem hj)
  have hsub : ∀ j ∈ l.takeWhile (fun j => s.ino (.vc j) ≠ 0), j ∈ l := fun j hj => List.takeWhile_subset _ hj
  have hlen : (l.takeWhile (fun j => s.ino (.vc j) ≠ 0)).length ≤ l.length := (List.takeWhile_sublist _).length_le
  have hrecord : ∀ q ∈ p :: l.map .vc, (T.current E bs { s with scache := c }).record (s.ino q) =
      s.savedRecord p q (T.stored E bs s (s.ino q)) := hsaves.record
  have hfollows : Follows (T.current E bs { s with scache := c }).record Inode.next
      ((T.current E bs { s with scache := c }).record (s.ino p)).child
      ((l.takeWhile (fun j => s.ino (.vc j) ≠ 0)).map (fun j => s.ino (.vc j))) := by
    rw [hrecord p List.mem_cons_self]
    change Follows _ _ (s.firstChild p) _
    rw [hdir.sibs.firstChild]
    refine hdir.sibs.follows (fun j hj => ?_)
    rw [hrecord _ (hmemvc j hj)]
    rfl
  have hleaf : ∀ m ∈ (l.takeWhile (fun j => s.ino (.vc j) ≠ 0)).map (fun j => s.ino (.vc j)),
      (T.current E bs { s with scache := c }).Leaf bs B m := by
    intro m hm
    obtain ⟨j,hj,rfl⟩ := List.mem_map.mp hm
    have hq := hmemvc j (hsub j hj)
    refine ⟨hdir.lt _ hq,hmem _ hq,?_,?_⟩ <;> rw [hrecord _ hq]
    · exact ⟨(s.vnode (.vc j)).str_no_nul,hstr _ hq⟩
    · exact hstale j (hsub j hj)
  have hload := mfsLnode_copied (s := { s with scache := c }) (X := fun _ => False) hT'
    ⟨hrec.isNode,hrec.dev,hdisk,hrec.vlist,hrec.old,hrec.fresh⟩ (hino.trans_lt (hdir.lt p List.mem_cons_self))
    (hino ▸ hmem p List.mem_cons_self) hleaf (hino ▸ hfollows) (by rw [List.length_map]; dsimp only; omega)
    (by rw [List.length_map]; omega)
  obtain ⟨_,u,hu,hsibs,hshows⟩ := hload.run
  refine ⟨_,u,hrun,hu,hsibs.listing hshows (fun j hj => ?_)⟩
  rw [hrecord _ (hmemvc j (hsub j hj))]
  exact ⟨rfl,rfl,rfl,rfl,rfl,rfl,rfl,rfl,rfl,rfl,rfl,rfl,rfl⟩

theorem Family.directory {l : List (ℕ × List ℕ)} (h : Family T s p l) (hexp : ∀ x ∈ l, x.2 = []) :
    Directory T s p (l.map Prod.fst) ∧ ∀ q ∈ p :: (l.map Prod.fst).map .vc, (s.vnode q).str.length < NVNAMLEN := by
  have hflat : l.flatMap (fun x => x.1 :: x.2) = l.map Prod.fst := by
    rw [List.map_eq_flatMap]
    exact List.flatMap_congr (fun x hx => by rw [hexp x hx])
  have hnodup := h.nodup
  have hlt := h.lt
  have hstr := h.str
  rw [hflat] at hnodup hlt hstr
  refine ⟨⟨h.isNode,h.dev,h.next,h.kids.sibs (fun j hj => ?_),hnodup,hlt,fun j hj => ?_⟩,hstr⟩
  · obtain ⟨x,hx,rfl⟩ := List.mem_map.mp hj
    have hnull := h.exps x hx
    rw [hexp x hx] at hnull
    exact ⟨(h.used x hx).1,(h.used x hx).2.1,hnull⟩
  · obtain ⟨x,hx,rfl⟩ := List.mem_map.mp hj
    exact (h.used x hx).2.2

/-- With room in the caches and no expansions left over in the records of the children, the
directory comes back exactly if no child has an expansion or the number 0. -/
theorem snode_lnode_iff (E : Env) (bs : BlkSizes) (B : Finset (ℕ × ℤ)) (T : Table) (s : State) (p p' : VPtr)
    (l : List (ℕ × List ℕ)) (hT : T.On E bs (contentOf bs E.devs s.scache.disk)) (hfam : Family T s p l)
    (hrec : Receives E bs B (contentOf bs E.devs s.scache.disk) T p' s) (hino : s.ino p' = s.ino p)
    (hmem : ∀ q ∈ p :: (l.map Prod.fst).map .vc, (T.dev.toNat,(T.blk bs (s.ino q) : ℤ)) ∈ B)
    (hstale : ∀ x ∈ l, (T.stored E bs s (s.ino (.vc x.1))).expand = 0) (hroom : s.vlist.cnt + l.length ≤ NVCHCNTS)
    (hfuel : l.length ≤ E.fuel) :
    RoundTrips E T.sb s p p' ↔ ∀ x ∈ l, x.2 = [] ∧ s.ino (.vc x.1) ≠ 0 := by
  have hlist : Listing s p (l.map (fun x => ((s.vnode (.vc x.1)).attrs,x.2.map (fun e => (s.vnode (.vc e)).attrs)))) :=
    ⟨l,hfam.kids,hfam.exps,rfl⟩
  have hreload : (∀ x ∈ l, x.2 = []) → ∃ t u, (mfsSnode E T.sb p).run s = (.ok (),t) ∧
      (mfsLnode E T.sb p').run t = (.ok (),u) ∧ Listing u p' (((l.map Prod.fst).takeWhile
        (fun j => s.ino (.vc j) ≠ 0)).map (fun j => ((s.vnode (.vc j)).attrs,[]))) := by
    intro hexp
    obtain ⟨hdir,hstr⟩ := hfam.directory hexp
    refine hdir.reload hT hrec hino hstr hmem (fun j hj => ?_) (by rwa [List.length_map]) (by rwa [List.length_map])
    obtain ⟨x,hx,rfl⟩ := List.mem_map.mp hj
    exact hstale x hx
  constructor
  · rintro ⟨d,t,u,hd,hs,hl,hu⟩
    have hnull := (mfsSnode_expand hfam.isNode hfam.kids).of_run hs
    have hexp : ∀ x ∈ l, x.2 = [] := fun x hx =>
      (hfam.exps x hx).unique (show LinkedBy Vnode.expand s _ [] from hnull x.1 (List.mem_map_of_mem hx))
    obtain ⟨t',u',hs',hl',hu'⟩ := hreload hexp
    obtain rfl : t = t' := (Prod.mk.inj (hs.symm.trans hs')).2
    obtain rfl : u = u' := (Prod.mk.inj (hl.symm.trans hl')).2
    -- what came back is as long as what was there
    have hlen := congrArg List.length ((hlist.unique hd).trans (hu.unique hu'))
    rw [List.length_map,List.length_map] at hlen
    have hall : (l.map Prod.fst).takeWhile (fun j => s.ino (.vc j) ≠ 0) = l.map Prod.fst :=
      (List.takeWhile_prefix _).eq_of_length (by rw [← hlen,List.length_map])
    rw [List.takeWhile_eq_self_iff] at hall
    exact fun x hx => ⟨hexp x hx,by simpa using hall x.1 (List.mem_map_of_mem hx)⟩
  · intro h
    obtain ⟨t,u,hs,hl,hu⟩ := hreload (fun x hx => (h x hx).1)
    refine ⟨_,t,u,hlist,hs,hl,?_⟩
    rw [List.takeWhile_eq_self_iff.mpr,List.map_map] at hu
    · convert hu using 1
      exact List.map_congr_left (fun x hx => by rw [(h x hx).1]; rfl)
    · intro j hj
      obtain ⟨x,hx,rfl⟩ := List.mem_map.mp hj
      simpa using (h x hx).2

def kidBlocks : Finset (ℕ × ℤ) := {(0,600),(0,601),(0,2)}

/-- Two children with their attributes come back, from records in different blocks. -/
theorem snode_lnode_kids : RoundTrips kidEnv kidTable.sb (kidState (.boot kidDisk)) (.root 0) (.root 1) := by
  have hdir := kid_directory (.boot kidDisk)
  have hkids : ∀ {P : ℕ × List ℕ → Prop}, P (0,[]) → P (1,[]) → ∀ x ∈ [(0,[]),(1,[])], P x :=
    fun h0 h1 => List.forall_mem_cons.mpr ⟨h0,List.forall_mem_singleton.mpr h1⟩
  have hfam : Family kidTable (kidState (.boot kidDisk)) (.root 0) [(0,[]),(1,[])] :=
    ⟨rfl,rfl,Or.inl rfl,⟨rfl,rfl,rfl⟩,hkids rfl rfl,hkids ⟨show 0 < 2 by decide,rfl,Or.inl rfl⟩
      ⟨show 1 < 2 by decide,rfl,Or.inl rfl⟩,hdir.nodup,hdir.lt,kid_str⟩
  have hrec : Receives kidEnv sectorSizes kidBlocks (contentOf sectorSizes kidEnv.devs kidDisk) kidTable (.root 1)
      (kidState (.boot kidDisk)) := by
    refine ⟨rfl,rfl,⟨boot_synced _ _ _,fun i hi => absurd hi (Nat.not_lt_zero i),by decide⟩,?_,nofun,fun j hj => ?_⟩
    · exact (AllocList.boot_unused.append (by decide)).append (by decide)
    · obtain _ | _ | j := j
      · exact absurd hj (by decide)
      · exact absurd hj (by decide)
      · rfl
  have hmem : ∀ q ∈ [VPtr.root 0,.vc 0,.vc 1],
      ((0 : ℕ),(kidTable.blk sectorSizes ((kidState (.boot kidDisk)).ino q) : ℤ)) ∈ kidBlocks := by
    have hblk : ∀ n, kidTable.blk sectorSizes n = 1 + n / 4 := fun _ => sectorTable_blk
    simp only [hblk]
    exact forall_kids (show ((0 : ℕ),((1 + 2396 / 4 : ℕ) : ℤ)) ∈ kidBlocks by decide)
      (show ((0 : ℕ),((1 + 2400 / 4 : ℕ) : ℤ)) ∈ kidBlocks by decide)
      (show ((0 : ℕ),((1 + 5 / 4 : ℕ) : ℤ)) ∈ kidBlocks by decide)
  refine (snode_lnode_iff kidEnv sectorSizes kidBlocks kidTable (kidState (.boot kidDisk)) (.root 0) (.root 1)
    [(0,[]),(1,[])] (sectorTable_on rfl (by decide)) hfam hrec rfl hmem (hkids ?_ ?_) (by decide) (Nat.le_refl 2)).mpr
    (hkids ⟨rfl,show 2400 ≠ 0 by decide⟩ ⟨rfl,show 5 ≠ 0 by decide⟩)
  · decide +kernel
  · decide +kernel

/-! ## A child with an expansion -/

def lineState : State :=
  { State.boot (fun _ _ => 0) with
    vlist := AllocList.boot.append.append
    vnode := fun q => match q with
      | .root 0 => { Vnode.zero with child := .vc 0 }
      | .vc 0 => { Vnode.zero with ino := 1, parent := .root 0, expand := .vc 1 }
      | .vc 1 => { Vnode.zero with ino := 2, parent := .root 0 }
      | _ => Vnode.zero }

def lineDisk (_ a : ℕ) : UInt8 := if a = 632 ∨ a = 708 then 1 else if a = 764 ∨ a = 836 then 2 else 0

/-- The directory cannot be saved. Nor can it be loaded: from records with all of their links
`mfs_lnode` makes both vnodes, but the child does not lead to the other one. -/
theorem snode_lnode_line : Family (sectorTable (fun _ _ => 0) 3) lineState (.root 0) [(0,[1])] ∧
    Receives kidEnv sectorSizes {(0,1)} (contentOf sectorSizes kidEnv.devs lineState.scache.disk)
      (sectorTable (fun _ _ => 0) 3) (.root 1) lineState ∧
    ¬ RoundTrips kidEnv (sectorTable (fun _ _ => 0) 3).sb lineState (.root 0) (.root 1) ∧
    ((mfsSnode kidEnv (sectorTable (fun _ _ => 0) 3).sb (.root 0)).run lineState).1 = .error .fault ∧
    ∃ u, (mfsLnode kidEnv (sectorTable lineDisk 3).sb (.root 0)).run (.boot lineDisk) = (.ok (),u) ∧
      (u.vnode (.root 0)).child = .vc 0 ∧ u.ino (.vc 0) = 1 ∧ (u.vnode (.vc 0)).expand = .null ∧ u.ino (.vc 1) = 2 := by
  have hfam : Family (sectorTable (fun _ _ => 0) 3) lineState (.root 0) [(0,[1])] := by
    refine ⟨rfl,rfl,Or.inl rfl,⟨rfl,rfl⟩,fun x hx => ?_,fun x hx => ?_,?_,forall_kids ?_ ?_ ?_,forall_kids ?_ ?_ ?_⟩
    · rw [List.mem_singleton.mp hx]
      exact ⟨rfl,rfl⟩
    · rw [List.mem_singleton.mp hx]
      exact ⟨show 0 < 2 by decide,rfl,Or.inl rfl⟩
    · exact show [0,1,2].Nodup by decide
    · exact show 0 < 3 by decide
    · exact show 1 < 3 by decide
    · exact show 2 < 3 by decide
    · decide
    · decide
    · decide
  refine ⟨hfam,⟨rfl,rfl,⟨boot_synced _ _ _,fun i hi => absurd hi (Nat.not_lt_zero i),by decide⟩,?_,nofun,fun j hj => ?_⟩,
    ?_,?_,?_⟩
  · exact (AllocList.boot_unused.append (by decide)).append (by decide)
  · obtain _ | _ | j := j
    · exact absurd hj (by decide)
    · exact absurd hj (by decide)
    · rfl
  · rintro ⟨d,t,u,-,hs,-⟩
    exact absurd ((mfsSnode_expand hfam.isNode hfam.kids).of_run hs 0 List.mem_cons_self) nofun
  · decide +kernel
  · have hrun : ((mfsLnode kidEnv (sectorTable lineDisk 3).sb (.root 0)).run (.boot lineDisk)).1 = .ok () := by decide +kernel
    have hu : (fun u : State => ((u.vnode (.root 0)).child,u.ino (.vc 0),(u.vnode (.vc 0)).expand,u.ino (.vc 1)))
        ((mfsLnode kidEnv (sectorTable lineDisk 3).sb (.root 0)).run (.boot lineDisk)).2 = (.vc 0,1,.null,2) := by
      decide +kernel
    generalize (mfsLnode kidEnv (sectorTable lineDisk 3).sb (.root 0)).run (.boot lineDisk) = r at hrun hu
    obtain ⟨hchild,hu⟩ := Prod.mk.inj hu
    obtain ⟨hino,hu⟩ := Prod.mk.inj hu
    exact ⟨r.2,Prod.ext hrun rfl,hchild,hino,(Prod.mk.inj hu).1,(Prod.mk.inj hu).2⟩

end Micron.Filesys

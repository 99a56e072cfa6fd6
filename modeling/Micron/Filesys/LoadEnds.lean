import Micron.Filesys.Sectors

/-! # When the loading of a directory ends

`mfs_lnode` follows the links of the records, and nothing but a link 0 takes it out of its
two loops: the allocator recycles vnodes and never fails. So it returns when the list of
children and the expansions of each of them end, and runs forever when one of these
chains leads back into itself.
-/
namespace Micron.Filesys
open Function Bytes Kernel Scache Prog

/-! ## Chains of links -/

namespace Table
variable {T : Table} {link : Inode → UInt32} {P : ℕ → Prop} {v : UInt32} {n : ℕ}

def Bounded (T : Table) (link : Inode → UInt32) (P : ℕ → Prop) (n : ℕ) (v : UInt32) : Prop :=
  ∃ l, Follows T.record link v l ∧ (∀ m ∈ l, P m) ∧ l.length ≤ n

theorem bounded_null (hv : v = 0) : T.Bounded link P n v := ⟨[],hv,fun _ hm => absurd hm List.not_mem_nil,Nat.zero_le n⟩

theorem not_bounded (hv : v ≠ 0) : ¬ T.Bounded link P 0 v := by
  rintro ⟨l,hl,-,hlen⟩
  rw [List.length_eq_zero_iff.mp (Nat.le_zero.mp hlen)] at hl
  exact hv hl

theorem bounded_succ (hv : v ≠ 0) :
    T.Bounded link P (n + 1) v ↔ P v.toNat ∧ T.Bounded link P n (link (T.record v.toNat)) := by
  constructor
  · rintro ⟨_ | ⟨m,l⟩,hl,hP,hlen⟩
    · exact absurd hl hv
    · obtain ⟨-,rfl,hl⟩ := hl
      exact ⟨hP _ List.mem_cons_self,l,hl,fun m hm => hP m (List.mem_cons_of_mem _ hm),Nat.le_of_succ_le_succ hlen⟩
  · rintro ⟨hv',l,hl,hP,hlen⟩
    refine ⟨v.toNat :: l,⟨hv,rfl,hl⟩,fun m hm => ?_,Nat.succ_le_succ hlen⟩
    rcases List.mem_cons.mp hm with rfl | hm
    · exact hv'
    · exact hP m hm

abbrev Expands (T : Table) (n m : ℕ) : Prop := T.Bounded Inode.expand (fun _ => True) n (T.record m).expand

def Walks (T : Table) (v : UInt32) : Prop :=
  ∃ l, Follows T.record Inode.next v l ∧ ∀ m ∈ l, ∃ le, Follows T.record Inode.expand (T.record m).expand le

theorem Walks.of_bounded {k : ℕ} (h : T.Bounded Inode.next (T.Expands k) n v) : T.Walks v := by
  obtain ⟨l,hl,hP,-⟩ := h
  exact ⟨l,hl,fun m hm => (hP m hm).imp (fun _ he => he.1)⟩

/-- Some number of iterations is enough for every loop. -/
theorem Walks.bounded (h : T.Walks v) : ∃ N, ∀ f ≥ N, T.Bounded Inode.next (T.Expands f) f v := by
  obtain ⟨l,hl,hexp⟩ := h
  have hmax : ∃ N, ∀ m ∈ l, ∀ f ≥ N, T.Expands f m := by
    clear hl
    induction l with
    | nil => exact ⟨0,fun m hm => absurd hm List.not_mem_nil⟩
    | cons m l ih =>
      obtain ⟨N,hN⟩ := ih (fun m hm => hexp m (List.mem_cons_of_mem _ hm))
      obtain ⟨le,hle⟩ := hexp m List.mem_cons_self
      refine ⟨max N le.length,fun m' hm' f hf => ?_⟩
      rcases List.mem_cons.mp hm' with rfl | hm'
      · exact ⟨le,hle,fun _ _ => trivial,Nat.le_trans (Nat.le_max_right _ _) hf⟩
      · exact hN m' hm' f (Nat.le_trans (Nat.le_max_left _ _) hf)
  obtain ⟨N,hN⟩ := hmax
  exact ⟨max N l.length,fun f hf => ⟨l,hl,fun m hm => hN m hm f (Nat.le_trans (Nat.le_max_left _ _) hf),
    Nat.le_trans (Nat.le_max_right _ _) hf⟩⟩

end Table

/-! ## Records in reach -/

variable {E : Env} {bs : BlkSizes} {B : Finset (ℕ × ℤ)} {C : Content} {T : Table} {R : Set ℕ} {s t : State}
  {p q vp lvep : VPtr} {ip iep : IPtr} {v : UInt32} {n fuel : ℕ} {X : State → Prop}

/-- The links of the records in `R` lead to records in `R`. All of them are in blocks of `B`,
and their names end before the links of a vnode. -/
structure Table.Spans (bs : BlkSizes) (B : Finset (ℕ × ℤ)) (T : Table) (R : Set ℕ) : Prop where
  lt : ∀ n ∈ R, n < T.count
  mem : ∀ n ∈ R, (T.dev.toNat,(T.blk bs n : ℤ)) ∈ B
  next : ∀ n ∈ R, (T.record n).next ≠ 0 → (T.record n).next.toNat ∈ R
  expand : ∀ n ∈ R, (T.record n).expand ≠ 0 → (T.record n).expand.toNat ∈ R
  str : ∀ n ∈ R, (T.record n).str.length ≤ 116

/-- The sector cache has room for the blocks of `B`. The node is on the device, and stays there: a
name that is too long for a vnode is not copied to the node itself. -/
structure Steady (E : Env) (bs : BlkSizes) (B : Finset (ℕ × ℤ)) (C : Content) (T : Table) (R : Set ℕ) (p : VPtr)
    (s : State) : Prop where
  isNode : p.isNode
  dev : (s.vnode p).dev = T.dev
  disk : Disk E bs B C s.scache
  vlist : s.vlist.Unused NVCHCNTS
  spared : (∀ n ∈ R, (T.record n).str.length < NVNAMLEN) ∨ ∀ i, p = .vc i → 0 < i ∧ i < s.vlist.cnt

theorem Steady.set {f : VPtr → Vnode} (h : Steady E bs B C T R p s) (hf : (f p).dev = (s.vnode p).dev) :
    Steady E bs B C T R p { s with vnode := f } :=
  { h with dev := hf.trans h.dev }

theorem Steady.link {w : Vnode} (h : Steady E bs B C T R p s) (hw : w.dev = (s.vnode q).dev) :
    Steady E bs B C T R p { s with vnode := update s.vnode q w } := by
  refine h.set ?_
  by_cases hpq : p = q
  · rw [hpq,update_self,hw]
  · rw [update_of_ne hpq]

theorem Steady.cached (h : Steady E bs B C T R p s) : Cached E bs C s.scache := h.disk.coherent

/-- The translations when the name may run on into the attributes. -/
theorem wp_translate_any {Q : Unit → State → Prop} {dev : UInt32} {c : Scache} {r : Inode} (h : ip.Reads c r)
    (hc : s.scache = c) (hr : r.str.length ≤ 116) (hq : q.isNode)
    (hQ : ∀ w : Vnode, (r.str.length < NVNAMLEN → w.dev = dev) → Q () { s with vnode := update s.vnode q w }) :
    wp (translate ip dev q) Q X s := by
  simp only [translate,wp_bind,wp_inode h hc,wp_setVnode hq,wp_vnode hq,update_self]
  rw [Vnode.strcpy,if_neg (Nat.not_lt.mpr hr)]
  simp only [wp_setVnode hq,update_idem]
  refine hQ _ (fun hlt => ?_)
  have hcopy := Vnode.strcpy_eq { s.vnode q with dev := dev } hlt
  rw [Vnode.strcpy,if_neg (Nat.not_lt.mpr hr),Option.some_inj] at hcopy
  rw [hcopy]

/-- The program ends with `Q` if `P` holds, and otherwise it runs forever. -/
def EndsIff {α : Type} (P : Prop) (k : K α) (Q : α → State → Prop) (s : State) : Prop :=
  Yields k (fun a t => P ∧ Q a t) (fun e => e = .hang ∧ ¬ P) s

theorem EndsIff.congr {α : Type} {P P' : Prop} {k : K α} {Q Q' : α → State → Prop} (h : EndsIff P k Q s) (hP : P ↔ P')
    (hQ : P → ∀ a t, Q a t → Q' a t) : EndsIff P' k Q' s :=
  Yields.mono h (fun a t hq => ⟨hP.mp hq.1,hQ hq.1 a t hq.2⟩) (fun _ he => ⟨he.1,fun hP' => he.2 (hP.mpr hP')⟩)

section Steps
variable {α : Type} {P : Prop} {Q : α → State → Prop} (hT : T.Spans bs B R) (hon : T.On E bs C)
  (h : Steady E bs B C T R p s)
include hT hon h

/-- A vnode is handed out, maybe the node itself, and filled from a record. -/
theorem Steady.fill {k : VPtr → K α} (hip : T.Points bs ip s.scache n) (hn : n ∈ R)
    (hk : ∀ i t, Steady E bs B C T R p t → t.scache = s.scache → EndsIff P (k (.vc i)) Q t) :
    EndsIff P (do
      let vp ← vcacheAlloc
      if vp = .null then stop .panic
      translate ip (← vnode p).dev vp
      k vp) Q s := by
  refine wp.yields_bind (wp_vcacheAlloc h.vlist ?_)
  intro i l hl hi hcase
  rw [if_neg (by simp)]
  refine wp.yields_bind ((wp_vnode h.isNode).mpr ?_)
  refine wp.yields_bind (wp_translate_any (hip.reads hon h.cached (hT.lt n hn)) rfl (hT.str n hn) rfl ?_)
  intro w hw
  refine hk i _ ⟨h.isNode,?_,h.disk,hl,h.spared.imp_right (fun hs j hj => ?_)⟩ rfl
  · by_cases hpi : p = .vc i
    · subst hpi
      rcases h.spared with hfit | hs
      · dsimp only
        rw [update_self,hw (hfit n hn),h.dev]
      · -- a node in the cache other than vnode 0 is not the one that is handed out
        have := hs i rfl
        rcases hcase with ⟨-,rfl,-⟩ | ⟨-,rfl,-⟩ <;> omega
    · dsimp only
      rw [update_of_ne hpi,h.dev]
  · have hle : s.vlist.cnt ≤ l.cnt := by
      rcases hcase with ⟨-,-,rfl⟩ | ⟨-,-,rfl⟩
      · rw [AllocList.append_cnt]
        omega
      · rw [AllocList.recycle_cnt]
    exact ⟨(hs j hj).1,Nat.lt_of_lt_of_le (hs j hj).2 hle⟩

theorem Steady.get {k : IPtr → K α} (hv : v.toNat ∈ R)
    (hk : ∀ ip t, Steady E bs B C T R p t → Keeps s.scache t.scache → T.Points bs ip t.scache v.toNat →
      EndsIff P (k ip) Q t) : EndsIff P (mfsGet E T.sb (s.vnode p).dev v >>= k) Q s := by
  rw [h.dev]
  refine wp.yields_bind ((hon.wp_mfsGet (hT.lt _ hv) h.disk (hT.mem _ hv)).mono ?_ (fun _ _ hx => hx))
  rintro ip _ - ⟨c,rfl,hd,hkeep,hip⟩
  exact hk ip _ { h with disk := hd } hkeep hip

end Steps

/-! ## The loops -/

theorem Keeps.refl (c : Scache) : Keeps c c := ⟨rfl,fun _ _ _ he => he⟩

/-- The loop over the expansions ends when it gets through their chain. -/
theorem lnodeExpand_endsIff (hT : T.Spans bs B R) (hon : T.On E bs C) (h : Steady E bs B C T R p s)
    (hvp : vp.isNode) (hip : T.Points bs iep s.scache v.toNat) (hv : v ≠ 0) (hR : v.toNat ∈ R)
    (hl : lvep = .null ∨ lvep.isNode) :
    EndsIff (T.Bounded Inode.expand (fun _ => True) fuel v) (lnodeExpand E T.sb p vp fuel iep lvep)
      (fun q t => Steady E bs B C T R p t ∧ Keeps s.scache t.scache ∧ q.isNode) s := by
  induction fuel generalizing s v iep lvep with
  | zero => exact ⟨rfl,Table.not_bounded hv⟩
  | succ fuel ih =>
    rw [lnodeExpand,Table.bounded_succ hv]
    refine h.fill hT hon hip hR (fun i t ht hsame => ?_)
    have hreads := hip.reads hon h.cached (hT.lt _ hR)
    -- what is left to do once the vnode is linked
    have hrest : ∀ u, Steady E bs B C T R p u → u.scache = s.scache →
        EndsIff (True ∧ T.Bounded Inode.expand (fun _ => True) fuel (T.record v.toNat).expand) (do
          if (← inode iep).expand = 0 then return .vc i
          let iep ← mfsGet E T.sb (← vnode p).dev (← inode iep).expand
          lnodeExpand E T.sb p vp fuel iep (.vc i))
          (fun q t => Steady E bs B C T R p t ∧ Keeps s.scache t.scache ∧ q.isNode) u := by
      intro u hu hcache
      refine wp.yields_bind ((wp_inode hreads hcache).mpr ?_)
      by_cases hz : (T.record v.toNat).expand = 0
      · rw [if_pos hz]
        exact ⟨⟨trivial,Table.bounded_null hz⟩,hu,hcache ▸ .refl _,rfl⟩
      · rw [if_neg hz]
        refine wp.yields_bind ((wp_vnode hu.isNode).mpr ?_)
        refine wp.yields_bind ((wp_inode hreads hcache).mpr ?_)
        have hR' := hT.expand _ hR hz
        refine hu.get hT hon hR' (fun iep' u' hu' hkeep hiep' => ?_)
        refine (ih hu' hiep' hz hR' (Or.inr rfl)).congr (and_iff_right trivial).symm ?_
        rintro - q t' ⟨ht',hk',hq⟩
        exact ⟨ht',hcache ▸ hkeep.trans hk',hq⟩
    refine wp.yields_bind ((wp_vnode hvp).mpr ?_)
    refine wp.yields_bind ((wp_setVnode rfl).mpr ?_)
    have ht' := ht.link (q := .vc i) (w := { t.vnode (.vc i) with
      parent := (t.vnode vp).parent, child := (t.vnode vp).child, next := (t.vnode vp).next, expand := .null }) rfl
    by_cases hnull : lvep = .null
    · rw [if_pos hnull]
      refine wp.yields_bind ((wp_setVnode hvp).mpr ?_)
      exact hrest _ (ht'.link rfl) hsame
    · rw [if_neg hnull]
      refine wp.yields_bind ((wp_setVnode (hl.resolve_left hnull)).mpr ?_)
      exact hrest _ (ht'.link rfl) hsame

/-- The loop over the children ends when it gets through their list and the expansions of
each of them. -/
theorem lnodeLoop_endsIff (hT : T.Spans bs B R) (hon : T.On E bs C) {lvp : VPtr} (h : Steady E bs B C T R p s)
    (hip : T.Points bs ip s.scache v.toNat) (hv : v ≠ 0) (hR : v.toNat ∈ R) (hp : lvp = .null ∨ lvp.isNode)
    (hl : lvep = .null ∨ lvep.isNode) :
    EndsIff (T.Bounded Inode.next (T.Expands E.fuel) fuel v) (lnodeLoop E T.sb p fuel ip lvp lvep)
      (fun _ _ => True) s := by
  induction fuel generalizing s v ip lvp lvep with
  | zero => exact ⟨rfl,Table.not_bounded hv⟩
  | succ fuel ih =>
    rw [lnodeLoop,Table.bounded_succ hv]
    refine h.fill hT hon hip hR (fun i t ht hsame => ?_)
    have hreads := hip.reads hon h.cached (hT.lt _ hR)
    -- what is left to do after the expansions
    have hnext : T.Expands E.fuel v.toNat → ∀ q u, Steady E bs B C T R p u → Keeps s.scache u.scache →
        (q = .null ∨ q.isNode) → EndsIff (T.Expands E.fuel v.toNat ∧
          T.Bounded Inode.next (T.Expands E.fuel) fuel (T.record v.toNat).next) (do
            let n ← inode ip
            if n.next = 0 then return
            let ip ← mfsGet E T.sb (← vnode p).dev n.next
            lnodeLoop E T.sb p fuel ip (.vc i) q) (fun _ _ => True) u := by
      intro hexp q u hu hkeep hq
      refine wp.yields_bind ((wp_inode ((hip.keep hkeep).reads hon hu.cached (hT.lt _ hR)) rfl).mpr ?_)
      by_cases hz : (T.record v.toNat).next = 0
      · rw [if_pos hz]
        exact ⟨⟨hexp,Table.bounded_null hz⟩,trivial⟩
      · rw [if_neg hz]
        refine wp.yields_bind ((wp_vnode hu.isNode).mpr ?_)
        have hR' := hT.next _ hR hz
        refine hu.get hT hon hR' (fun ip' u' hu' _ hip' => ?_)
        exact (ih hu' hip' hz hR' (Or.inr rfl) hq).congr (and_iff_right hexp).symm (fun _ _ _ ht => ht)
    -- and what is left to do once the child is linked
    have hrest : ∀ u, Steady E bs B C T R p u → u.scache = s.scache → EndsIff (T.Expands E.fuel v.toNat ∧
        T.Bounded Inode.next (T.Expands E.fuel) fuel (T.record v.toNat).next) (do
          let lvep ← if (T.record v.toNat).expand ≠ 0 then do
              let iep ← mfsGet E T.sb (← vnode p).dev (T.record v.toNat).expand
              lnodeExpand E T.sb p (.vc i) E.fuel iep lvep
            else pure lvep
          let n ← inode ip
          if n.next = 0 then return
          let ip ← mfsGet E T.sb (← vnode p).dev n.next
          lnodeLoop E T.sb p fuel ip (.vc i) lvep) (fun _ _ => True) u := by
      intro u hu hcache
      by_cases hz : (T.record v.toNat).expand = 0
      · rw [if_neg (not_not.mpr hz)]
        exact hnext (Table.bounded_null hz) lvep u hu (hcache ▸ .refl _) hl
      · rw [if_pos hz]
        refine wp.yields_bind ((wp_vnode hu.isNode).mpr ?_)
        have hR' := hT.expand _ hR hz
        refine hu.get hT hon hR' (fun iep u' hu' hkeep hiep => ?_)
        refine Yields.bind (Yields.mono (lnodeExpand_endsIff hT hon hu' rfl hiep hz hR' hl) ?_ ?_)
        · rintro q t' ⟨hb,ht',hk',hq⟩
          exact hnext hb q t' ht' (hcache ▸ hkeep.trans hk') (Or.inr hq)
        · rintro e ⟨rfl,hb⟩
          exact ⟨rfl,fun hc => hb hc.1⟩
    refine wp.yields_bind ((wp_inode hreads hsame).mpr ?_)
    refine wp.yields_bind ((wp_setVnode rfl).mpr ?_)
    have ht' := ht.link (q := .vc i) (w := { t.vnode (.vc i) with
      parent := p, child := .ofIno (T.record v.toNat).child, next := .null }) rfl
    by_cases hnull : lvp = .null
    · rw [if_pos hnull]
      refine wp.yields_bind ((wp_setVnode h.isNode).mpr ?_)
      exact hrest _ (ht'.link rfl) hsame
    · rw [if_neg hnull]
      refine wp.yields_bind ((wp_setVnode (hp.resolve_left hnull)).mpr ?_)
      exact hrest _ (ht'.link rfl) hsame

theorem mfsLnode_endsIff (hT : T.Spans bs B R) (hon : T.On E bs C) (h : Steady E bs B C T R p s)
    (hino : s.ino p ∈ R) (hchild : (T.record (s.ino p)).child ≠ 0 → (T.record (s.ino p)).child.toNat ∈ R) :
    EndsIff (T.Bounded Inode.next (T.Expands E.fuel) E.fuel (T.record (s.ino p)).child) (mfsLnode E T.sb p)
      (fun _ _ => True) s := by
  unfold mfsLnode
  refine wp.yields_bind ((wp_vnode h.isNode).mpr ?_)
  refine h.get hT hon hino (fun ip t ht hkeep hip => ?_)
  refine wp.yields_bind ((wp_inode (hip.reads hon ht.cached (hT.lt _ hino)) rfl).mpr ?_)
  by_cases hz : (T.record (s.vnode p).ino.toNat).child = 0
  · rw [if_pos hz]
    refine wp.yields ((wp_setVnode h.isNode).mpr ?_)
    exact ⟨Table.bounded_null hz,trivial⟩
  · rw [if_neg hz,h.dev,← ht.dev]
    exact ht.get hT hon (hchild hz) (fun ip' u hu _ hip' =>
      lnodeLoop_endsIff hT hon hu hip' hz (hchild hz) (Or.inl rfl) (Or.inl rfl))

/-! ## Directories that can be loaded -/

def Finishes (E : Env) (sb : Sblk) (p : VPtr) (s : State) : Prop :=
  ∃ N, ∀ f ≥ N, ((mfsLnode { E with fuel := f } sb p).run s).1 = .ok () ∨
    ((mfsLnode { E with fuel := f } sb p).run s).1 = .error .panic

theorem Table.On.refuel (h : T.On E bs C) (f : ℕ) : T.On { E with fuel := f } bs C :=
  ⟨⟨h.usable.dev_ok,h.usable.open_ok,h.usable.size_eq⟩,h.len_pos,h.base_eq,h.base_pos,h.count_le,h.valid,h.read⟩

theorem Steady.refuel (h : Steady E bs B C T R p s) (f : ℕ) : Steady { E with fuel := f } bs B C T R p s :=
  ⟨h.isNode,h.dev,⟨h.disk.coherent,h.disk.within,h.disk.card_le⟩,h.vlist,h.spared⟩

section Finishes
variable (hon : T.On E bs C) (hT : T.Spans bs B R) (h : Steady E bs B C T R p s) (hino : s.ino p ∈ R)
  (hchild : (T.record (s.ino p)).child ≠ 0 → (T.record (s.ino p)).child.toNat ∈ R)
include hon hT h hino hchild

theorem lnode_cases (f : ℕ) :
    ((mfsLnode { E with fuel := f } T.sb p).run s).1 = .ok () ∧
        T.Bounded Inode.next (T.Expands f) f (T.record (s.ino p)).child ∨
      ((mfsLnode { E with fuel := f } T.sb p).run s).1 = .error .hang ∧
        ¬ T.Bounded Inode.next (T.Expands f) f (T.record (s.ino p)).child := by
  have hends := mfsLnode_endsIff hT (hon.refuel f) (h.refuel f) hino hchild
  unfold EndsIff Yields at hends
  split at hends <;> rename_i hr <;> rw [hr]
  · exact Or.inl ⟨rfl,hends.1⟩
  · exact Or.inr ⟨by rw [hends.1],hends.2⟩

theorem lnode_hang (hw : ¬ T.Walks (T.record (s.ino p)).child) (f : ℕ) :
    ((mfsLnode { E with fuel := f } T.sb p).run s).1 = .error .hang := by
  rcases lnode_cases hon hT h hino hchild f with ⟨-,hb⟩ | ⟨hr,-⟩
  · exact absurd (.of_bounded hb) hw
  · exact hr

end Finishes

theorem not_finishes {sb : Sblk} (h : ∀ f, ((mfsLnode { E with fuel := f } sb p).run s).1 = .error .hang) :
    ¬ Finishes E sb p s := by
  rintro ⟨N,hN⟩
  rcases hN N (Nat.le_refl N) with h' | h' <;> rw [h N] at h' <;> cases h'

/-- While the sector cache has room for the blocks with the records in reach, loading the
children of a node finishes exactly if their list ends and so do the expansions of each of
them; otherwise it never ends, however many vnodes there are. -/
theorem lnode_finishes_iff (E : Env) (bs : BlkSizes) (B : Finset (ℕ × ℤ)) (C : Content) (T : Table) (R : Set ℕ)
    (p : VPtr) (s : State) (hon : T.On E bs C) (hT : T.Spans bs B R) (h : Steady E bs B C T R p s)
    (hino : s.ino p ∈ R) (hchild : (T.record (s.ino p)).child ≠ 0 → (T.record (s.ino p)).child.toNat ∈ R) :
    (Finishes E T.sb p s ↔ T.Walks (T.record (s.ino p)).child) ∧
      (¬ T.Walks (T.record (s.ino p)).child →
        ∀ f, ((mfsLnode { E with fuel := f } T.sb p).run s).1 = .error .hang) := by
  have hhang := lnode_hang hon hT h hino hchild
  refine ⟨⟨fun hf => ?_,fun hw => ?_⟩,hhang⟩
  · by_contra hw
    exact not_finishes (hhang hw) hf
  · obtain ⟨N,hN⟩ := hw.bounded
    refine ⟨N,fun f hf => ?_⟩
    rcases lnode_cases hon hT h hino hchild f with ⟨hr,-⟩ | ⟨-,hb⟩
    · exact Or.inl hr
    · exact absurd (hN f hf) hb

/-! ## A directory with one child -/

/-- Sectors of four records: the first child of record 0 is record 1, which is followed by
record `next`. -/
def tinyDisk (next : UInt8) : ℕ → ℕ → UInt8 := fun _ a => if a = 632 then 1 else if a = 752 then next else 0

def tinyContent (next : UInt8) : Content := contentOf sectorSizes anyDevs (tinyDisk next)

def tinyTable (next : UInt8) : Table := sectorTable (tinyDisk next) 2

theorem tiny_on (next : UInt8) : (tinyTable next).On anyEnv sectorSizes (tinyContent next) :=
  sectorTable_on rfl (by decide)

theorem tiny_steady (next : UInt8) : Steady anyEnv sectorSizes {(0,1)} (tinyContent next) (tinyTable next) {0,1}
    (.root 0) (.boot (tinyDisk next)) where
  isNode := rfl
  dev := rfl
  disk := ⟨⟨_,boot_coherent⟩,fun _ hi => absurd hi (Nat.not_lt_zero _),by decide⟩
  vlist := AllocList.boot_unused
  spared := Or.inr (fun _ hi => nomatch hi)

/-- The links of the two records. -/
theorem tiny_links {next : UInt8} (h : next = 0 ∨ next = 1) :
    ((tinyTable next).record 0).child = 1 ∧ ((tinyTable next).record 1).next = next.toUInt32 ∧
    (∀ n ∈ ({0,1} : Set ℕ), ((tinyTable next).record n).expand = 0 ∧ ((tinyTable next).record n).str = []) ∧
    ((tinyTable next).record 0).next = 0 := by
  have hall : ∀ next ∈ [(0 : UInt8),1], ((tinyTable next).record 0).child = 1 ∧
      ((tinyTable next).record 1).next = next.toUInt32 ∧
      (((tinyTable next).record 0).expand = 0 ∧ ((tinyTable next).record 0).str = []) ∧
      (((tinyTable next).record 1).expand = 0 ∧ ((tinyTable next).record 1).str = []) ∧
      ((tinyTable next).record 0).next = 0 := by decide +kernel
  obtain ⟨hchild,hnext,h0,h1,hzero⟩ := hall next (by simpa using h)
  refine ⟨hchild,hnext,?_,hzero⟩
  rintro n (rfl | rfl)
  · exact h0
  · exact h1

theorem tiny_spans {next : UInt8} (h : next = 0 ∨ next = 1) : (tinyTable next).Spans sectorSizes {(0,1)} {0,1} := by
  obtain ⟨-,hnext,hboth,hzero⟩ := tiny_links h
  have hlt : ∀ n ∈ ({0,1} : Set ℕ), n < 2 := by
    rintro n (rfl | rfl) <;> decide
  refine ⟨hlt,?_,?_,?_,?_⟩
  · intro n hn
    rw [tinyTable,sectorTable_blk,Nat.div_eq_of_lt (Nat.lt_of_lt_of_le (hlt n hn) (by decide))]
    exact Finset.mem_singleton_self _
  · rintro n (rfl | rfl) hne
    · exact absurd hzero hne
    · rw [hnext]
      rcases h with rfl | rfl <;> simp
  · intro n hn hne
    exact absurd (hboth n hn).1 hne
  · intro n hn
    rw [(hboth n hn).2]
    exact Nat.zero_le _

theorem tiny_child {next : UInt8} (h : next = 0 ∨ next = 1) :
    ((tinyTable next).record ((State.boot (tinyDisk next)).ino (.root 0))).child = 1 := (tiny_links h).1

/-- The list of one child is loaded. -/
theorem lnode_finishes_tiny : Finishes anyEnv (tinyTable 0).sb (.root 0) (.boot (tinyDisk 0)) := by
  obtain ⟨-,hnext,hboth,-⟩ := tiny_links (Or.inl rfl)
  have hchild := tiny_child (Or.inl rfl)
  refine (lnode_finishes_iff anyEnv sectorSizes _ _ (tinyTable 0) _ (.root 0) _ (tiny_on 0) (tiny_spans (Or.inl rfl))
    (tiny_steady 0) (Or.inl rfl) (fun _ => hchild ▸ Or.inr rfl)).1.mpr ?_
  rw [hchild]
  refine ⟨[1],⟨by decide,rfl,hnext⟩,fun m hm => ⟨[],?_⟩⟩
  rw [List.mem_singleton.mp hm]
  exact (hboth 1 (Or.inr rfl)).1

/-- With a child that is its own successor no number of iterations is enough. -/
theorem lnode_cycle : ((tinyTable 1).record 1).next = 1 ∧
    (∀ f, ((mfsLnode ⟨anyEnv.devs,anyEnv.clock,anyEnv.addr,f⟩ (tinyTable 1).sb (.root 0)).run
      (.boot (tinyDisk 1))).1 = .error .hang) ∧
    ¬ Finishes anyEnv (tinyTable 1).sb (.root 0) (.boot (tinyDisk 1)) := by
  have hnext : ((tinyTable 1).record 1).next = 1 := (tiny_links (Or.inr rfl)).2.1
  have hchild := tiny_child (Or.inr rfl)
  have hloop : ∀ l, ¬ Follows (tinyTable 1).record Inode.next 1 l := by
    intro l
    induction l with
    | nil => exact fun h : (1 : UInt32) = 0 => absurd h (by decide)
    | cons m l ih =>
      rintro ⟨-,rfl,hl⟩
      rw [show (1 : UInt32).toNat = 1 from rfl,hnext] at hl
      exact ih hl
  have hwalk : ¬ (tinyTable 1).Walks ((tinyTable 1).record ((State.boot (tinyDisk 1)).ino (.root 0))).child := by
    rw [hchild]
    exact fun ⟨l,hl,_⟩ => hloop l hl
  have hhang := lnode_hang (tiny_on 1) (tiny_spans (Or.inr rfl)) (tiny_steady 1) (Or.inl rfl)
    (fun _ => hchild ▸ Or.inr rfl) hwalk
  exact ⟨hnext,hhang,not_finishes hhang⟩

end Micron.Filesys

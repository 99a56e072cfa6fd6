import Mathlib.Data.List.Find
import Micron.Filesys.Crossing
import Micron.Filesys.Tree
import Micron.Lib.Names

/-! # Lookup in a mounted table

`mfs_lnode` loads the children of a node, and `vget` follows the components of a path
through nodes that it loads on its way. While neither cache is full, it finds exactly the
node that the names in the records lead to.
-/
namespace Micron.Filesys
open Function Bytes Kernel Scache Prog
variable {E : Env} {bs : BlkSizes} {C : Content} {T : Table} {o : ℕ → Ofile} {P : VPtr → Prop} {s t : State}
  {X : State → Prop} {p vp lvep : VPtr} {ip iep : IPtr} {l rest : List ℕ} {fuel e m : ℕ}

/-! ## Expansions -/

/-- A vnode that has been handed out but is not part of the tree, or none. -/
def Aside (s : State) (p : VPtr) : Prop := p = .null ∨ ∃ i < s.vlist.cnt, p = .vc i ∧ ¬ InTree s p

theorem Beside.refl (h : Tree E bs C T o P s) : Beside s s :=
  ⟨Nat.le_refl _,rfl,rfl,fun _ _ => rfl,h.fresh,rfl,fun _ _ _ he => he⟩

theorem Beside.trans {u : State} (hb : Beside s t) (hb' : Beside t u) : Beside s u where
  cnt := Nat.le_trans hb.cnt hb'.cnt
  mountab := hb'.mountab.trans hb.mountab
  ofile := hb'.ofile.trans hb.ofile
  vnode q hq := (hb'.vnode q (hb.mono hq)).trans (hb.vnode q hq)
  fresh := hb'.fresh
  keeps := hb.keeps.trans hb'.keeps

theorem Beside.cache {c : Scache} (h : Tree E bs C T o P s) (hk : Keeps s.scache c) : Beside s { s with scache := c } :=
  ⟨Nat.le_refl _,rfl,rfl,fun _ _ => rfl,h.fresh,hk⟩

theorem Beside.alloc {f : VPtr → Vnode} {a : List Alloc} {k : ℕ} (hf : ∀ q, InTree s q → f q = s.vnode q)
    (hfresh : ∀ j, s.vlist.cnt < j → (f (.vc j)).expand = .null) :
    Beside s { s with vlist := s.vlist.append, allocs := a, times := k, vnode := f } where
  cnt := by simp only [AllocList.append_cnt]; omega
  mountab := rfl
  ofile := rfl
  vnode := hf
  fresh j hj := by
    simp only [AllocList.append_cnt] at hj
    exact hfresh j hj
  keeps := ⟨rfl,fun _ _ _ he => he⟩

theorem lnodeExpand_spec (hon : T.On E bs C) (hX : Limit o X) (h : Tree E bs C T o P s) (hp : InTree s p)
    (hvp : InTree s vp) (hexp : (s.vnode vp).expand = .null) (hip : T.Points bs iep s.scache e)
    (he : ∀ x ∈ e :: rest, x < T.count ∧ (T.record x).Fits)
    (hf : Follows T.record Inode.expand (T.record e).expand rest) (hfuel : rest.length < fuel)
    (hl : Aside s lvep) :
    Ends X (lnodeExpand E T.sb p vp fuel iep lvep) (fun q t => Beside s t ∧ t.vlist.Unused NVCHCNTS ∧
      Cached E bs C t.scache ∧ Aside t q) s := by
  induction fuel generalizing s e rest iep lvep with
  | zero => omega
  | succ fuel ih =>
    obtain ⟨hlt,hfits⟩ := he e List.mem_cons_self
    have hreads := hip.reads hon h.cached hlt
    rw [lnodeExpand]
    refine Ends.bind hX.mono (hX.vcacheAlloc h.ofile h.vlist) ?_
    rintro _ _ - ⟨rfl,rfl,hv⟩
    rw [if_neg (by simp)]
    have hnew : VPtr.isNode (.vc s.vlist.cnt) := rfl
    -- what is left to do once the vnode is filled
    have hrest : ∀ f : VPtr → Vnode, (∀ q, InTree s q → f q = s.vnode q) →
        (∀ j, s.vlist.cnt < j → (f (.vc j)).expand = .null) →
        Ends X (do
          if (← inode iep).expand = 0 then return .vc s.vlist.cnt
          let iep ← mfsGet E T.sb (← vnode p).dev (← inode iep).expand
          lnodeExpand E T.sb p vp fuel iep (.vc s.vlist.cnt))
          (fun q t => Beside s t ∧ t.vlist.Unused NVCHCNTS ∧ Cached E bs C t.scache ∧ Aside t q)
          { s with vlist := s.vlist.append, allocs := s.allocs ++ [⟨s.vlist,s.ofile,some s.vlist.cnt⟩], vnode := f } := by
      intro f hfold hfresh
      have hb := Beside.alloc (a := s.allocs ++ [⟨s.vlist,s.ofile,some s.vlist.cnt⟩]) (k := s.times) hfold hfresh
      have ht := h.beside hb hv h.cached
      have haside : ¬ InTree { s with
          vlist := s.vlist.append, allocs := s.allocs ++ [⟨s.vlist,s.ofile,some s.vlist.cnt⟩], vnode := f }
          (.vc s.vlist.cnt) := fun hin => Nat.lt_irrefl _ ((hb.inTree h).mp hin).lt
      have hcnt : s.vlist.cnt < s.vlist.append.cnt := by rw [AllocList.append_cnt]; omega
      unfold Ends
      rw [wp_bind,wp_inode hreads (by rfl)]
      cases rest with
      | nil =>
        rw [if_pos (show (T.record e).expand = 0 from hf),wp_pure]
        exact Or.inr ⟨hb,hv,h.cached,Or.inr ⟨_,hcnt,rfl,haside⟩⟩
      | cons e' rest =>
        obtain ⟨hne,rfl,hf⟩ := hf
        rw [if_neg hne,wp_bind,wp_vnode hp.isNode,wp_bind,wp_inode hreads (by rfl)]
        have hdev := ht.dev p (hb.mono hp)
        rw [hdev]
        refine Ends.bind hX.mono (hon.mfsGet (he _ (by simp)).1 hX ht.cached) ?_
        rintro iep' _ - ⟨c,rfl,hc,hk,hip'⟩
        have hbc := Beside.cache ht hk
        have htc := ht.beside hbc hv hc
        have hb' := hb.trans hbc
        refine (ih htc (hb'.mono hp) (hb'.mono hvp) (by rw [hb'.vnode vp hvp]; exact hexp) hip'
          (fun x hx => he x (List.mem_cons_of_mem _ hx)) hf (by simpa using hfuel)
          (Or.inr ⟨_,hcnt,rfl,fun hin => haside ((hbc.inTree ht).mp hin)⟩)).mono ?_
        rintro q t - ⟨hbt,hrest⟩
        exact ⟨hb'.trans hbt,hrest⟩
    unfold Ends
    rw [wp_bind,wp_vnode hp.isNode,wp_bind]
    refine (wp_translate hreads (by rfl) hfits hnew).mpr ?_
    rw [wp_bind,wp_vnode hvp.isNode,wp_bind,wp_setVnode hnew]
    simp only [update_idem,update_self]
    have hbeyond : ∀ j, s.vlist.cnt < j → VPtr.vc j ≠ .vc s.vlist.cnt := by
      rintro j hj ⟨⟩
      exact Nat.lt_irrefl _ hj
    by_cases hnull : lvep = .null
    · rw [if_pos hnull,wp_bind,wp_setVnode hvp.isNode]
      dsimp only
      refine hrest _ (fun q hq => ?_) (fun j hj => ?_)
      · by_cases hqv : q = vp
        · rw [hqv,update_self,update_of_ne hvp.ne_new,hnull,← hexp]
        · rw [update_of_ne hqv,update_of_ne hq.ne_new]
      · have hne : VPtr.vc j ≠ vp := by
          rintro rfl
          exact absurd hvp.lt (Nat.not_lt.mpr (Nat.le_of_lt hj))
        rw [update_of_ne hne,update_of_ne (hbeyond j hj)]
        exact h.fresh j (Nat.le_of_lt hj)
    · obtain ⟨i,hi,rfl,hnot⟩ := hl.resolve_left hnull
      rw [if_neg hnull,wp_bind,wp_setVnode rfl]
      dsimp only
      refine hrest _ (fun q hq => ?_) (fun j hj => ?_)
      · have hqi : q ≠ .vc i := by
          rintro rfl
          exact hnot hq
        rw [update_of_ne hqi,update_of_ne hq.ne_new]
      · have hne : VPtr.vc j ≠ .vc i := by
          rintro ⟨⟩
          omega
        rw [update_of_ne hne,update_of_ne (hbeyond j hj)]
        exact h.fresh j (Nat.le_of_lt hj)

theorem childExpand_spec {β : Type} {f : VPtr → K β} {R : β → State → Prop} (hon : T.On E bs C)
    (hT : T.Shaped E.fuel) (hX : Limit o X) (h : Tree E bs C T o P s)
    (hp : InTree s p) (hvp : InTree s vp) (hexp : (s.vnode vp).expand = .null) (hm : m < T.count)
    (hl : Aside s lvep) (hR : ∀ q t, Beside s t → t.vlist.Unused NVCHCNTS → Cached E bs C t.scache → Aside t q →
      Ends X (f q) R t) :
    Ends X (if (T.record m).expand ≠ 0 then do
        let iep ← mfsGet E T.sb (← vnode p).dev (T.record m).expand
        let q ← lnodeExpand E T.sb p vp E.fuel iep lvep
        f q
      else do
        let q ← pure lvep
        f q) R s := by
  have hf := hT.expands m hm
  have hlt := hT.exps_lt m hm
  have he := hT.exp m hm
  cases hl' : T.exps m with
  | nil =>
    rw [hl'] at hf
    rw [if_neg (not_not.mpr (show (T.record m).expand = 0 from hf))]
    exact hR lvep s (.refl h) h.vlist h.cached hl
  | cons e rest =>
    rw [hl'] at hf hlt he
    obtain ⟨hne,rfl,hf⟩ := hf
    rw [if_pos hne]
    unfold Ends
    rw [wp_bind,wp_vnode hp.isNode,h.dev p hp]
    refine Ends.bind hX.mono (hon.mfsGet (he _ (by simp)).1 hX h.cached) ?_
    rintro iep _ - ⟨c,rfl,hc,hk,hip⟩
    have hb := Beside.cache h hk
    have hl₁ : Aside { s with scache := c } lvep :=
      hl.imp_right (fun ⟨i,hi,hq,hn⟩ => ⟨i,hi,hq,fun hin => hn ((hb.inTree h).mp hin)⟩)
    refine Ends.bind hX.mono (lnodeExpand_spec hon hX (h.beside hb h.vlist hc) (hb.mono hp) (hb.mono hvp) hexp hip
      he hf (by simp only [List.length_cons] at hlt; omega) hl₁) ?_
    rintro q t - ⟨hbt,hv,hct,hq⟩
    exact hR q t (hb.trans hbt) hv hct hq

/-! ## Children -/

theorem Tree.complete (h : Tree E bs C T o (· ≠ p) s) (hl : Loaded T s p l)
    (hkids : l.map (fun j => s.ino (.vc j)) = T.kids (s.ino p)) : Tree E bs C T o (fun _ => True) s :=
  { h with
    links := by
      intro q hq
      by_cases hqp : q = p
      · subst hqp
        exact Or.inr ⟨l,hl,fun _ => hkids⟩
      · exact (h.links q hq).imp_right (fun ⟨l',hl',hP⟩ => ⟨l',hl',fun _ => hP hqp⟩) }

/-- The loop allocates the next vnode, fills it and links it behind the last one. -/
theorem lnodeLoop_spec {lvep : VPtr} {u : State} (hon : T.On E bs C) (hT : T.Shaped E.fuel) (hX : Limit o X)
    (h : Tree E bs C T o (· ≠ p) s) (hl : Loading T s p l)
    (hkids : l.map (fun j => s.ino (.vc j)) ++ m :: rest = T.kids (s.ino p)) (hip : T.Points bs ip s.scache m)
    (hf : Follows T.record Inode.next (T.record m).next rest) (hfuel : rest.length < fuel) (hlvep : Aside s lvep)
    (hg : Grows u s) (hu : InTree u p → (u.vnode p).child.isNode = false) (hnew : ∀ j ∈ l, ¬ InTree u (.vc j))
    (hcnt : u.vlist.cnt ≤ s.vlist.cnt) :
    Ends X (lnodeLoop E T.sb p fuel ip (lastOf l) lvep) (fun _ t => Tree E bs C T o (fun _ => True) t ∧ Grows u t ∧
      ∃ l, Loaded T t p l ∧ l.map (fun j => t.ino (.vc j)) = T.kids (t.ino p)) s := by
  induction fuel generalizing s l m rest ip lvep with
  | zero => omega
  | succ fuel ih =>
    have hp := hl.inTree
    have hmem : m ∈ T.kids (s.ino p) := hkids ▸ (by simp)
    have hm : l.map (fun j => s.ino (.vc j)) ++ [m] <+: T.kids (s.ino p) := ⟨rest,by simpa using hkids⟩
    obtain ⟨hmused,-⟩ := hT.kid _ (h.used p hp) m hmem
    have hmlt := hT.lt m hmused
    have hreads := hip.reads hon h.cached hmlt
    have hfits := hT.fits _ (h.used p hp) m hmem
    rw [lnodeLoop]
    refine Ends.bind hX.mono (hX.vcacheAlloc h.ofile h.vlist) ?_
    rintro _ _ - ⟨rfl,rfl,hv⟩
    rw [if_neg (by simp)]
    have hisNode : VPtr.isNode (.vc s.vlist.cnt) := rfl
    -- what is left to do once the child is linked
    have hrest : Ends X (do
        let lvep ← if (T.record m).expand ≠ 0 then do
            let iep ← mfsGet E T.sb (← vnode p).dev (T.record m).expand
            lnodeExpand E T.sb p (.vc s.vlist.cnt) E.fuel iep lvep
          else pure lvep
        let n ← inode ip
        if n.next = 0 then return
        let ip ← mfsGet E T.sb (← vnode p).dev n.next
        lnodeLoop E T.sb p fuel ip (.vc s.vlist.cnt) lvep)
        (fun _ t => Tree E bs C T o (fun _ => True) t ∧ Grows u t ∧
          ∃ l, Loaded T t p l ∧ l.map (fun j => t.ino (.vc j)) = T.kids (t.ino p))
        (s.addChild (T.record m) p (lastOf l)) := by
      have hnd := hl.nodup h hT hm
      have h₁ := h.addChild hl hT hm hv
      have hl₁ := hl.addChild h hT hm
      have hg₁ := hg.addChild (r := T.record m) hl h hnd hu hnew
      have hin₁ := fun q => addChild_inTree (q := q) (r := T.record m) hl h hnd
      have hvp : InTree (s.addChild (T.record m) p (lastOf l)) (.vc s.vlist.cnt) := (hin₁ _).mpr (Or.inr rfl)
      have hmap : (l ++ [s.vlist.cnt]).map (fun j => (s.addChild (T.record m) p (lastOf l)).ino (.vc j)) ++ rest =
          T.kids ((s.addChild (T.record m) p (lastOf l)).ino p) := by
        rw [addChild_ino hl hp,← hkids,List.map_append,List.map_singleton,addChild_kid hl h hT hm,
          List.map_congr_left (fun j hj => addChild_ino hl (hl.mem hj))]
        simp
      refine childExpand_spec hon hT hX h₁ hl₁.inTree hvp ?_ hmlt ?_ ?_
      · exact ((hl₁.loaded (by simp)).sibs.mem (by simp)).2.2
      · rcases hlvep with h0 | ⟨i,hi,hq,hn⟩
        · exact Or.inl h0
        refine Or.inr ⟨i,?_,hq,fun hin => ?_⟩
        · rw [State.addChild,AllocList.append_cnt]
          omega
        · rcases (hin₁ _).mp hin with hin | he
          · exact hn hin
          · rw [hq] at he
            exact absurd (VPtr.vc.inj he) (by omega)
      intro lvep' t hb hv' hc' haside
      have ht := h₁.beside hb hv' hc'
      have hlt := hl₁.beside hb
      have hgt := hg₁.trans hb.grows
      have hmapt : (l ++ [s.vlist.cnt]).map (fun j => t.ino (.vc j)) ++ rest = T.kids (t.ino p) := by
        rw [hb.ino hl₁.inTree,← hmap,List.map_congr_left (fun j hj => hb.ino (hl₁.mem hj))]
      have hreads' := (hip.keep hb.keeps).reads hon hc' hmlt
      unfold Ends
      rw [wp_bind,wp_inode hreads' rfl]
      cases rest with
      | nil =>
        rw [if_pos (show (T.record m).next = 0 from hf),wp_pure]
        rw [List.append_nil] at hmapt
        exact Or.inr ⟨ht.complete (hlt.loaded (by simp)) hmapt,hgt,_,hlt.loaded (by simp),hmapt⟩
      | cons m' rest =>
        obtain ⟨hne,rfl,hf⟩ := hf
        have hmem' : (T.record m).next.toNat ∈ T.kids (t.ino p) := hmapt ▸ (by simp)
        rw [if_neg hne,wp_bind,wp_vnode hlt.inTree.isNode,ht.dev p hlt.inTree]
        refine Ends.bind hX.mono (hon.mfsGet (hT.lt _ (hT.kid _ (ht.used p hlt.inTree) _ hmem').1) hX ht.cached) ?_
        rintro ip' _ - ⟨c,rfl,hc,hk,hip'⟩
        have hbc := Beside.cache ht hk
        have haside' : Aside { t with scache := c } lvep' := by
          rcases haside with h0 | ⟨i,hi,hq,hn⟩
          · exact Or.inl h0
          · exact Or.inr ⟨i,hi,hq,fun hin => hn ((hbc.inTree ht).mp hin)⟩
        have hrec := ih (l := l ++ [s.vlist.cnt]) (ht.beside hbc hv' hc) (hlt.beside hbc) hmapt hip' hf
          (by simpa using hfuel)
          haside' (hgt.trans hbc.grows) ?_ (Nat.le_trans hcnt (Nat.le_trans (Nat.le_of_lt (by
            rw [State.addChild,AllocList.append_cnt]; omega)) hb.cnt))
        · rwa [lastOf_concat] at hrec
        · intro j hj hin
          rcases List.mem_append.mp hj with hj | hj
          · exact hnew j hj hin
          · rw [List.mem_singleton.mp hj] at hin
            exact absurd hin.lt (Nat.not_lt.mpr hcnt)
    unfold Ends
    rw [wp_bind,wp_vnode hp.isNode,wp_bind]
    refine (wp_translate hreads (by rfl) hfits hisNode).mpr ?_
    rw [wp_bind,wp_inode hreads (by rfl),wp_bind,wp_setVnode hisNode]
    simp only [update_idem,update_self]
    by_cases hnull : lastOf l = .null
    · rw [if_pos hnull,wp_bind,wp_setVnode hp.isNode]
      rw [State.addChild,if_pos hnull] at hrest
      exact hrest
    · rw [if_neg hnull,wp_bind,wp_setVnode (hl.last.resolve_left hnull).1.isNode]
      rw [State.addChild,if_neg hnull] at hrest
      exact hrest

def Complete (T : Table) (s : State) (p : VPtr) : Prop :=
  ∃ l, Loaded T s p l ∧ l.map (fun j => s.ino (.vc j)) = T.kids (s.ino p)

theorem mfsLnode_spec (hon : T.On E bs C) (hT : T.Shaped E.fuel) (hX : Limit o X)
    (h : Tree E bs C T o (fun _ => True) s) (hp : InTree s p) (hu : Unloaded T s p) :
    Ends X (mfsLnode E T.sb p) (fun _ t => Tree E bs C T o (fun _ => True) t ∧ Grows s t ∧ Complete T t p) s := by
  have hused := h.used p hp
  have hlt := hT.lt _ hused
  have hf := hT.follows _ hused
  unfold Ends mfsLnode
  rw [wp_bind,wp_vnode hp.isNode,h.dev p hp]
  refine Ends.bind hX.mono (hon.mfsGet hlt hX h.cached) ?_
  rintro ip _ - ⟨c,rfl,hc,hk,hip⟩
  have hb := Beside.cache h hk
  have h₁ := h.beside hb h.vlist hc
  unfold Ends
  rw [wp_bind,wp_inode (hip.reads hon hc hlt) rfl]
  cases hkids : T.kids (s.ino p) with
  | nil =>
    rw [hkids] at hf
    have hzero : (T.record (s.ino p)).child = 0 := hf
    have hnull : (s.vnode p).child = .null := by
      rcases hu with hu | ⟨-,hu⟩
      · rw [hu,hzero]
        rfl
      · exact hu
    have hsame : update s.vnode p { s.vnode p with child := .null } = s.vnode := by
      rw [← hnull]
      exact update_eq_self p s.vnode
    rw [if_pos (show (T.record (s.vnode p).ino.toNat).child = 0 from hzero),wp_setVnode hp.isNode]
    dsimp only
    rw [hsame]
    exact Or.inr ⟨h₁,hb.grows,[],⟨hnull,by simp⟩,hkids.symm⟩
  | cons m rest =>
    rw [hkids] at hf
    obtain ⟨hne,rfl,hf⟩ := hf
    have hmem : (T.record (s.ino p)).child.toNat ∈ T.kids (s.ino p) := hkids ▸ List.mem_cons_self
    have hlen := hT.kids_lt _ hused
    rw [hkids,List.length_cons] at hlen
    rw [if_neg (show (T.record (s.vnode p).ino.toNat).child ≠ 0 from hne)]
    refine Ends.bind hX.mono (hon.mfsGet (hT.lt _ (hT.kid _ hused _ hmem).1) hX hc) ?_
    rintro ip' _ - ⟨c',rfl,hc',hk',hip'⟩
    have hb' := hb.trans (Beside.cache h₁ hk')
    have h₂ := h.beside hb' h.vlist hc'
    have hl : Loading T { s with scache := c' } p [] :=
      ⟨hb'.mono hp,fun _ => hu.beside hb' hp,fun hnil => absurd rfl hnil⟩
    have h₃ : Tree E bs C T o (· ≠ p) { s with scache := c' } :=
      { h₂ with links := fun q hq => (h₂.links q hq).imp_right (fun ⟨l,hl,hP⟩ => ⟨l,hl,fun _ => hP trivial⟩) }
    exact lnodeLoop_spec (l := []) hon hT hX h₃ hl hkids.symm hip' hf (by omega) (Or.inl rfl) hb'.grows
      (fun _ => hu.not_node) (fun _ hj => absurd hj (by simp)) (Nat.le_refl _)

theorem mountabGet_tree (h : Tree E bs C T o P s) : (mountabGet T.dev).run s = (.ok (some 0),s) := by
  have hdev := h.dev _ .root
  have hfind : (List.range NVFSMNTS).find? (fun i => decide ((s.vnode (.root i)).dev = T.dev)) = some 0 := by
    rw [List.find?_range_eq_some]
    exact ⟨decide_eq_true hdev,by decide,fun j hj => absurd hj (Nat.not_lt_zero j)⟩
  exact congrArg (fun x => (Except.ok x,s)) hfind

theorem loaded_cases (hT : T.Shaped E.fuel) (h : Tree E bs C T o (fun _ => True) s) (hp : InTree s p) :
    (((s.vnode p).child.isNode && decide ((s.vnode (s.vnode p).child).parent = p)) = false ∧ Unloaded T s p) ∨
    ((s.vnode p).child.isNode && decide ((s.vnode (s.vnode p).child).parent = p)) = true ∧ Complete T s p := by
  rcases h.links p hp with hu | ⟨l,hl,hkids⟩
  · exact Or.inl ⟨by rw [hu.not_node]; rfl,hu⟩
  · cases l with
    | nil =>
      have hnull : (s.vnode p).child = .null := hl.sibs
      have hf := hT.follows _ (h.used p hp)
      rw [← hkids trivial] at hf
      refine Or.inl ⟨by rw [hnull]; rfl,Or.inl ?_⟩
      rw [hnull,show (T.record (s.ino p)).child = 0 from hf]
      rfl
    | cons j l =>
      obtain ⟨hj,-,hpar,-⟩ := hl.sibs
      refine Or.inr ⟨?_,_,hl,hkids trivial⟩
      rw [hj,hpar,decide_eq_true rfl]
      rfl

theorem loadChildren_spec (hon : T.On E bs C) (hT : T.Shaped E.fuel) (hX : Limit o X)
    (h : Tree E bs C T o (fun _ => True) s) (hp : InTree s p) :
    Ends X (loadChildren E p) (fun b t => b = true ∧ Tree E bs C T o (fun _ => True) t ∧ Grows s t ∧
      Complete T t p) s := by
  unfold Ends loadChildren
  rw [wp_bind,wp_vnode hp.isNode,h.dev p hp,wp_bind]
  refine wp_of_run (mountabGet_tree h) ?_
  dsimp only
  rw [wp_bind,wp_mount,wp_bind,wp_loaded hp.isNode]
  rcases loaded_cases hT h hp with ⟨hno,hu⟩ | ⟨hyes,hc⟩
  · rw [hno,h.sole.sblk,h.sole.fs]
    refine Ends.bind hX.mono (mfsLnode_spec hon hT hX h hp hu) ?_
    rintro _ t - ht
    exact Or.inr ⟨rfl,ht⟩
  · rw [hyes]
    exact Or.inr ⟨rfl,h,.refl s,hc⟩

/-! ## Names -/

abbrev Table.resolve (T : Table) (n : ℕ) (comps : List (List UInt8)) : Option ℕ :=
  Names.resolve T.kids (fun m => (T.record m).str) n comps

abbrev Table.child (T : Table) (n : ℕ) (name : List UInt8) : Option ℕ :=
  Names.child T.kids (fun m => (T.record m).str) n name

theorem Table.resolve_concat (T : Table) (n : ℕ) (comps : List (List UInt8)) (c : List UInt8) :
    T.resolve n (comps ++ [c]) = (T.resolve n comps).bind (fun m => T.child m c) := Names.resolve_append n comps c

theorem Table.resolve_cons (T : Table) (n : ℕ) (c : List UInt8) (comps : List (List UInt8)) :
    T.resolve n (c :: comps) = (T.child n c).bind (fun m => T.resolve m comps) := rfl

theorem Table.Shaped.resolve_used {n : ℕ} {comps : List (List UInt8)} (hT : T.Shaped fuel) (hn : T.used n)
    (h : T.resolve n comps = some m) : T.used m := by
  induction comps generalizing n with
  | nil => exact Option.some.inj h ▸ hn
  | cons c comps ih =>
    rw [T.resolve_cons] at h
    obtain ⟨k,hk,hm⟩ := Option.bind_eq_some_iff.mp h
    exact ih (hT.kid n hn k (List.mem_of_find?_eq_some hk)).1 hm

/-- No path leads back to the root. -/
theorem Table.Shaped.resolve_ne_zero {comps : List (List UInt8)} {c : List UInt8} (hT : T.Shaped fuel)
    (h : T.resolve 0 (comps ++ [c]) = some m) : m ≠ 0 := by
  rw [T.resolve_concat] at h
  obtain ⟨n,hn,hm⟩ := Option.bind_eq_some_iff.mp h
  exact (hT.kid n (hT.resolve_used hT.root hn) m (List.mem_of_find?_eq_some hm)).2

theorem Sibs.childList (h : Sibs s p q l) : ChildList s q l := by
  induction l generalizing q with
  | nil => exact h
  | cons j l ih =>
    obtain ⟨rfl,-,-,-,hl⟩ := h
    exact ⟨rfl,ih hl⟩

/-- Nothing is mounted on a node of the tree. -/
theorem Tree.hostSlot_none (h : Tree E bs C T o P s) (hdev : T.dev ≠ 0) {j : ℕ} (hj : InTree s (.vc j)) :
    hostSlot s j = none := by
  refine List.find?_eq_none.mpr (fun i _ => ?_)
  rw [h.sole.hdev i,h.dev _ hj]
  simp [hdev.symm]

theorem Tree.capture_none (h : Tree E bs C T o P s) (hdev : T.dev ≠ 0) (hl : ∀ j ∈ l, InTree s (.vc j))
    (name : List UInt8) : capture s name l = none := by
  induction l with
  | nil => rfl
  | cons j l ih =>
    rw [capture,h.hostSlot_none hdev (hl j List.mem_cons_self)]
    dsimp only
    split
    · rfl
    · exact ih (fun k hk => hl k (List.mem_cons_of_mem _ hk))

def Finds (s : State) (p : VPtr) : Option ℕ → Prop
  | none => p = .null
  | some n => InTree s p ∧ s.ino p = n

theorem seekName_spec (cross : Bool) (name : List UInt8) (hT : T.Shaped E.fuel)
    (h : Tree E bs C T o (fun _ => True) s) (hdev : T.dev ≠ 0) (hp : InTree s p) (hc : Complete T s p) :
    ∃ q, (seekName cross name E.fuel (s.vnode p).child).run s = (.ok q,s) ∧ Finds s q (T.child (s.ino p) name) := by
  obtain ⟨l,hl,hkids⟩ := hc
  have hmem : ∀ j ∈ l, InTree s (.vc j) := fun j hj => hp.child hl.sibs hj
  have hlen : l.length ≤ E.fuel := by
    have := hT.kids_lt _ (h.used p hp)
    rw [← hkids,List.length_map] at this
    exact Nat.le_of_lt this
  refine ⟨_,seekName_run cross hl.sibs.childList hlen,?_⟩
  have hnone : (if cross = true then capture s name l else none) = none := by
    rw [h.capture_none hdev hmem]
    split <;> rfl
  have hfind : T.child (s.ino p) name = (l.find? (named s name)).map (fun j => s.ino (.vc j)) := by
    rw [Table.child,Names.child,← hkids,List.find?_map]
    refine congrArg _ (List.find?_congr fun j hj => ?_)
    rw [named,(h.shows j (hmem j hj)).str]
    rfl
  rw [reached,hnone,hfind]
  dsimp only
  cases hj : l.find? (named s name) with
  | none => rfl
  | some j => exact ⟨hmem j (List.mem_of_find?_eq_some hj),rfl⟩

/-! ## `vget` -/

theorem vgetLoop_spec {dirs : List (List UInt8)} (hon : T.On E bs C) (hT : T.Shaped E.fuel) (hX : Limit o X)
    (hdev : T.dev ≠ 0) (h : Tree E bs C T o (fun _ => True) s) (hp : InTree s p) :
    Ends X (vgetLoop E dirs p) (fun q t => Tree E bs C T o (fun _ => True) t ∧ Grows s t ∧
      Finds t q (T.resolve (s.ino p) dirs)) s := by
  induction dirs generalizing s p with
  | nil => exact Or.inr ⟨h,.refl s,hp,rfl⟩
  | cons dir dirs ih =>
    rw [vgetLoop]
    refine Ends.bind hX.mono (loadChildren_spec hon hT hX h hp) ?_
    rintro _ t - ⟨rfl,ht,hg,hc⟩
    have hpt := hg.inTree p hp
    obtain ⟨q,hrun,hq⟩ := seekName_spec true dir hT ht hdev hpt hc
    rw [hg.ino hp] at hq
    unfold Ends
    rw [if_neg (by simp),wp_bind,wp_vnode hpt.isNode,wp_bind]
    refine wp_of_run hrun ?_
    rw [Table.resolve_cons]
    cases hchild : T.child (s.ino p) dir with
    | none =>
      rw [hchild] at hq
      obtain rfl : q = .null := hq
      exact Or.inr ⟨ht,hg,rfl⟩
    | some n =>
      rw [hchild] at hq
      obtain ⟨hq,rfl⟩ := hq
      rw [if_neg hq.ne_null]
      refine (ih ht hq).mono ?_
      rintro r u - ⟨hu,hgu,hr⟩
      exact ⟨hu,hg.trans hgu,hr⟩

/-- What `vget` returns for a path: null if it leads nowhere; if only the parent is wanted,
the node of the directory; otherwise the node itself. In either case the children of the
result are in memory. -/
theorem vget_spec {path : List UInt8} {parent : Bool} (hon : T.On E bs C) (hT : T.Shaped E.fuel) (hX : Limit o X)
    (hdev : T.dev ≠ 0) (h : Tree E bs C T o (fun _ => True) s) (hpath : path.head? = some slash) :
    Ends X (vget E path parent) (fun q t => Tree E bs C T o (fun _ => True) t ∧ Grows s t ∧
      Finds t q (T.resolve 0 ((splitPath path.tail).1 ++ if parent then [] else [(splitPath path.tail).2])) ∧
      (q ≠ .null → Complete T t q)) s := by
  have hroot : mountabGetroot.run s = (.ok (some 0),s) := by
    have hstat : (if (s.mountab 0).stat then some 0 else none) = some 0 := if_pos h.sole.stat
    exact congrArg (fun x => (Except.ok x,s)) hstat
  rw [vget,if_neg (not_not.mpr hpath)]
  unfold Ends
  rw [wp_bind]
  refine wp_of_run hroot ?_
  refine Ends.bind hX.mono (vgetLoop_spec hon hT hX hdev h .root) ?_
  rintro q t - ⟨ht,hg,hq⟩
  rw [h.root] at hq
  cases hdirs : T.resolve 0 (splitPath path.tail).1 with
  | none =>
    rw [hdirs] at hq
    obtain rfl : q = .null := hq
    rw [if_pos (Or.inl rfl)]
    refine Or.inr ⟨ht,hg,?_,fun hne => absurd rfl hne⟩
    cases parent with
    | true =>
      rw [if_pos rfl,List.append_nil,hdirs]
      rfl
    | false =>
      rw [if_neg (by simp),T.resolve_concat,hdirs]
      rfl
  | some n =>
    rw [hdirs] at hq
    obtain ⟨hq,rfl⟩ := hq
    have herr : q ≠ .err := by
      rintro rfl
      exact absurd hq.isNode (by decide)
    rw [if_neg (not_or.mpr ⟨hq.ne_null,herr⟩)]
    refine Ends.bind hX.mono (loadChildren_spec hon hT hX ht hq) ?_
    rintro _ u - ⟨rfl,hu,hgu,hcu⟩
    have hqu := hgu.inTree q hq
    rw [if_neg (by simp)]
    cases parent with
    | true =>
      rw [if_pos rfl]
      refine Or.inr ⟨hu,hg.trans hgu,?_,fun _ => hcu⟩
      rw [if_pos rfl,List.append_nil,hdirs]
      exact ⟨hqu,hgu.ino hq⟩
    | false =>
      obtain ⟨r,hrun,hr⟩ := seekName_spec false (splitPath path.tail).2 hT hu hdev hqu hcu
      rw [hgu.ino hq] at hr
      rw [if_neg (by simp),if_neg (by simp),T.resolve_concat,hdirs,Option.bind_some]
      unfold Ends
      rw [wp_bind,wp_vnode hqu.isNode,wp_bind]
      refine wp_of_run hrun ?_
      cases hchild : T.child (t.ino q) (splitPath path.tail).2 with
      | none =>
        rw [hchild] at hr
        obtain rfl : r = .null := hr
        exact Or.inr ⟨hu,hg.trans hgu,rfl,fun hne => absurd rfl hne⟩
      | some m =>
        rw [hchild] at hr
        obtain ⟨hr,rfl⟩ := hr
        rw [if_neg hr.ne_null]
        refine Ends.bind hX.mono (loadChildren_spec hon hT hX hu hr) ?_
        rintro _ v - ⟨rfl,hv,hgv,hcv⟩
        exact Or.inr ⟨hv,(hg.trans hgu).trans hgv,⟨hgv.inTree r hr,hgv.ino hr⟩,fun _ => hcv⟩

end Micron.Filesys

import Micron.Filesys.Table

/-! # The vnodes of a mounted table

The part of an inode table that has been loaded into vnodes hangs on the root of the
first mount: the children of a node are either not in memory or all there, in the order
of the records. Vnodes outside of this tree, such as expansions, do not matter.
-/
namespace Micron.Filesys
open Function Bytes Kernel Scache Prog

def State.ino (s : State) (p : VPtr) : ℕ := (s.vnode p).ino.toNat

def Sibs (s : State) (p : VPtr) : VPtr → List ℕ → Prop
  | q, [] => q = .null
  | q, j :: l => q = .vc j ∧ j < s.vlist.cnt ∧ (s.vnode (.vc j)).parent = p ∧ (s.vnode (.vc j)).expand = .null ∧
      Sibs s p (s.vnode (.vc j)).next l

inductive InTree (s : State) : VPtr → Prop
  | root : InTree s (.root 0)
  | child {p : VPtr} {l : List ℕ} {j : ℕ} (hp : InTree s p) (hl : Sibs s p (s.vnode p).child l) (hj : j ∈ l) :
      InTree s (.vc j)

/-- The children of `p` are not in memory. A vnode made of a record has the number of the
first child in place of a pointer; the root of a mount has nothing there. -/
def Unloaded (T : Table) (s : State) (p : VPtr) : Prop :=
  (s.vnode p).child = .ofIno (T.record (s.ino p)).child ∨ p = .root 0 ∧ (s.vnode p).child = .null

structure Loaded (T : Table) (s : State) (p : VPtr) (l : List ℕ) : Prop where
  sibs : Sibs s p (s.vnode p).child l
  initial : l.map (fun j => s.ino (.vc j)) <+: T.kids (s.ino p)

/-- The table is mounted, and nothing else. -/
structure Sole (T : Table) (m : ℕ → Mountab) : Prop where
  stat : (m 0).stat = true
  sblk : (m 0).super = T.sb
  fs : (m 0).fs = some .MFS
  hdev : ∀ i, (m i).hdev = 0

/-- A state with the table mounted and open files `o`. The nodes with `P` have all of their
children in memory or none. -/
structure Tree (E : Env) (bs : BlkSizes) (C : Content) (T : Table) (o : ℕ → Ofile) (P : VPtr → Prop) (s : State) :
    Prop where
  vlist : s.vlist.Unused NVCHCNTS
  cached : Cached E bs C s.scache
  stored : ∀ n < T.count, s.scache.OnDisk (volume bs E.devs) C T.dev.toNat (T.blk bs n)
  ofile : s.ofile = o
  sole : Sole T s.mountab
  fresh : ∀ j, s.vlist.cnt ≤ j → (s.vnode (.vc j)).expand = .null
  root : s.ino (.root 0) = 0
  dev : ∀ p, InTree s p → (s.vnode p).dev = T.dev
  used : ∀ p, InTree s p → T.used (s.ino p)
  shows : ∀ j, InTree s (.vc j) → (s.vnode (.vc j)).Shows (T.record (s.ino (.vc j)))
  links : ∀ p, InTree s p → Unloaded T s p ∨
    ∃ l, Loaded T s p l ∧ (P p → l.map (fun j => s.ino (.vc j)) = T.kids (s.ino p))

variable {E : Env} {bs : BlkSizes} {C : Content} {T : Table} {o : ℕ → Ofile} {P : VPtr → Prop} {s t u : State}
  {p q : VPtr} {l : List ℕ} {j : ℕ} {X : State → Prop}

theorem ofIno_not_node (n : UInt32) : (VPtr.ofIno n).isNode = false := by
  unfold VPtr.ofIno
  split <;> rfl

theorem Unloaded.not_node (h : Unloaded T s p) : (s.vnode p).child.isNode = false := by
  rcases h with h | ⟨-,h⟩
  · rw [h]
    exact ofIno_not_node _
  · rw [h]
    rfl

/-! ## Lists of children -/

theorem Sibs.unique {l' : List ℕ} (h : Sibs s p q l) (h' : Sibs s p q l') : l = l' := by
  induction l generalizing q l' with
  | nil =>
    obtain rfl : q = .null := h
    cases l' with
    | nil => rfl
    | cons j l' => exact VPtr.noConfusion h'.1
  | cons j l ih =>
    obtain ⟨rfl,-,-,-,hl⟩ := h
    cases l' with
    | nil => exact VPtr.noConfusion (show VPtr.vc j = .null from h')
    | cons k l' =>
      obtain ⟨hk,-,-,-,hl'⟩ := h'
      obtain rfl := VPtr.vc.inj hk
      rw [ih hl hl']

theorem Sibs.mem (h : Sibs s p q l) (hj : j ∈ l) :
    j < s.vlist.cnt ∧ (s.vnode (.vc j)).parent = p ∧ (s.vnode (.vc j)).expand = .null := by
  induction l generalizing q with
  | nil => cases hj
  | cons k l ih =>
    obtain ⟨-,hk,hpar,hexp,hrest⟩ := h
    rcases List.mem_cons.mp hj with rfl | hj
    · exact ⟨hk,hpar,hexp⟩
    · exact ih hrest hj

theorem Sibs.congr (h : Sibs s p q l) (hle : s.vlist.cnt ≤ t.vlist.cnt)
    (hv : ∀ j ∈ l, (s.vnode (.vc j)).parent = p → (t.vnode (.vc j)).parent = (s.vnode (.vc j)).parent ∧
      (t.vnode (.vc j)).expand = (s.vnode (.vc j)).expand ∧ (t.vnode (.vc j)).next = (s.vnode (.vc j)).next) :
    Sibs t p q l := by
  induction l generalizing q with
  | nil => exact h
  | cons j l ih =>
    obtain ⟨rfl,hj,hpar,hexp,hrest⟩ := h
    obtain ⟨hpar',hexp',hnext⟩ := hv j List.mem_cons_self hpar
    refine ⟨rfl,Nat.lt_of_lt_of_le hj hle,hpar'.trans hpar,hexp'.trans hexp,?_⟩
    rw [hnext]
    exact ih hrest (fun k hk => hv k (List.mem_cons_of_mem _ hk))

def lastOf (l : List ℕ) : VPtr := (l.getLast?.map VPtr.vc).getD .null

@[simp] theorem lastOf_nil : lastOf [] = .null := rfl

@[simp] theorem lastOf_concat (l : List ℕ) (j : ℕ) : lastOf (l ++ [j]) = .vc j := by simp [lastOf]

theorem Sibs.concat {i k : ℕ} (h : Sibs s p q (l ++ [i])) (hle : s.vlist.cnt ≤ t.vlist.cnt)
    (hv : ∀ j ∈ l ++ [i], (t.vnode (.vc j)).parent = (s.vnode (.vc j)).parent ∧
      (t.vnode (.vc j)).expand = (s.vnode (.vc j)).expand)
    (hold : ∀ j ∈ l, (t.vnode (.vc j)).next = (s.vnode (.vc j)).next) (hnext : (t.vnode (.vc i)).next = .vc k)
    (hk : Sibs t p (.vc k) [k]) : Sibs t p q (l ++ [i] ++ [k]) := by
  induction l generalizing q with
  | nil =>
    obtain ⟨rfl,hi,hpar,hexp,-⟩ := h
    obtain ⟨hpar',hexp'⟩ := hv i (by simp)
    exact ⟨rfl,Nat.lt_of_lt_of_le hi hle,hpar'.trans hpar,hexp'.trans hexp,hnext ▸ hk⟩
  | cons j l ih =>
    obtain ⟨rfl,hj,hpar,hexp,hrest⟩ := h
    obtain ⟨hpar',hexp'⟩ := hv j (by simp)
    refine ⟨rfl,Nat.lt_of_lt_of_le hj hle,hpar'.trans hpar,hexp'.trans hexp,?_⟩
    rw [hold j List.mem_cons_self]
    exact ih hrest (fun m hm => hv m (List.mem_cons_of_mem _ hm)) (fun m hm => hold m (List.mem_cons_of_mem _ hm))

/-! ## Membership -/

theorem InTree.isNode (h : InTree s p) : p.isNode := by
  cases h <;> rfl

theorem InTree.lt (h : InTree s (.vc j)) : j < s.vlist.cnt := by
  cases h with
  | child hp hl hj => exact (hl.mem hj).1

theorem InTree.ne_new (h : InTree s p) : p ≠ .vc s.vlist.cnt := by
  rintro rfl
  exact Nat.lt_irrefl _ h.lt

theorem InTree.ne_null (h : InTree s p) : p ≠ .null := by
  rintro rfl
  exact absurd h.isNode (by decide)

def Below (t : State) (S : VPtr → Prop) (p : VPtr) : Prop :=
  ∀ l, Sibs t p (t.vnode p).child l → ∀ j ∈ l, S (.vc j)

variable {S : VPtr → Prop}

theorem below_of_not_node (h : (t.vnode p).child.isNode = false) : Below t S p := by
  intro l hl j hj
  cases l with
  | nil => cases hj
  | cons k l =>
    rw [hl.1] at h
    exact Bool.noConfusion h

theorem below_of_sibs (h : Sibs t p (t.vnode p).child l) (hl : ∀ j ∈ l, S (.vc j)) : Below t S p := by
  intro l' hl' j hj
  obtain rfl := h.unique hl'
  exact hl j hj

theorem InTree.sub (h : InTree t q) (hroot : S (.root 0)) (hS : ∀ p, InTree t p → S p → Below t S p) : S q := by
  induction h with
  | root => exact hroot
  | child hp hl hj ih => exact hS _ hp ih _ hl _ hj

/-! ## Changes beside the tree -/

/-- Nothing has changed but vnodes outside of the tree and the blocks in the cache. -/
structure Beside (s t : State) : Prop where
  cnt : s.vlist.cnt ≤ t.vlist.cnt
  mountab : t.mountab = s.mountab
  ofile : t.ofile = s.ofile
  vnode : ∀ q, InTree s q → t.vnode q = s.vnode q
  fresh : ∀ j, t.vlist.cnt ≤ j → (t.vnode (.vc j)).expand = .null
  keeps : Keeps s.scache t.scache

section Beside
variable (h : Tree E bs C T o P s) (hb : Beside s t)
include hb

theorem Beside.sibs (hp : InTree s p) (hl : Sibs s p (s.vnode p).child l) : Sibs t p (t.vnode p).child l := by
  rw [hb.vnode p hp]
  refine hl.congr hb.cnt (fun j hj _ => ?_)
  rw [hb.vnode _ (hp.child hl hj)]
  exact ⟨rfl,rfl,rfl⟩

theorem Beside.mono (hq : InTree s q) : InTree t q := by
  induction hq with
  | root => exact .root
  | child hp hl hj ih => exact ih.child (hb.sibs hp hl) hj

theorem Beside.ino (hq : InTree s q) : t.ino q = s.ino q := by
  rw [State.ino,hb.vnode q hq]
  rfl

include h

theorem Beside.inTree : InTree t q ↔ InTree s q := by
  refine ⟨fun hq => hq.sub .root (fun p _ hp => ?_),hb.mono⟩
  rcases h.links p hp with hu | ⟨l,hl,-⟩
  · exact below_of_not_node (by rw [hb.vnode p hp]; exact hu.not_node)
  · exact below_of_sibs (hb.sibs hp hl.sibs) (fun j hj => hp.child hl.sibs hj)

omit h in
theorem Loaded.beside (hp : InTree s p) (hl : Loaded T s p l) : Loaded T t p l := by
  refine ⟨hb.sibs hp hl.sibs,?_⟩
  rw [hb.ino hp,List.map_congr_left (fun j hj => hb.ino (hp.child hl.sibs hj))]
  exact hl.initial

omit h in
theorem Unloaded.beside (hp : InTree s p) (hu : Unloaded T s p) : Unloaded T t p := by
  unfold Unloaded
  rw [hb.ino hp,hb.vnode p hp]
  exact hu

theorem Tree.beside (hv : t.vlist.Unused NVCHCNTS) (hc : Cached E bs C t.scache) : Tree E bs C T o P t where
  vlist := hv
  cached := hc
  stored n hn k hk := by
    rw [hb.keeps.disk]
    exact h.stored n hn k hk
  ofile := hb.ofile.trans h.ofile
  sole := hb.mountab ▸ h.sole
  fresh := hb.fresh
  root := (hb.ino .root).trans h.root
  dev p hp := by
    rw [hb.vnode p ((hb.inTree h).mp hp)]
    exact h.dev p ((hb.inTree h).mp hp)
  used p hp := by
    rw [hb.ino ((hb.inTree h).mp hp)]
    exact h.used p ((hb.inTree h).mp hp)
  shows j hj := by
    rw [hb.ino ((hb.inTree h).mp hj),hb.vnode _ ((hb.inTree h).mp hj)]
    exact h.shows j ((hb.inTree h).mp hj)
  links p hp := by
    have hp' := (hb.inTree h).mp hp
    rcases h.links p hp' with hu | ⟨l,hl,hP⟩
    · exact Or.inl (hu.beside hb hp')
    · refine Or.inr ⟨l,hl.beside hb hp',fun hPp => ?_⟩
      rw [hb.ino hp',List.map_congr_left (fun j hj => hb.ino (hp'.child hl.sibs hj))]
      exact hP hPp

end Beside

/-! ## One more child -/

def Vnode.childOf (v : Vnode) (r : Inode) (dev : UInt32) (p : VPtr) : Vnode :=
  { v.fill r dev with parent := p, child := .ofIno r.child, next := .null }

def State.addChild (s : State) (r : Inode) (p lvp : VPtr) : State :=
  let j := s.vlist.cnt
  let u := update s.vnode (.vc j) ((s.vnode (.vc j)).childOf r (s.vnode p).dev p)
  { s with
    vlist := s.vlist.append
    allocs := s.allocs ++ [⟨s.vlist,s.ofile,some j⟩]
    vnode := if lvp = .null then update u p { u p with child := .vc j }
      else update u lvp { u lvp with next := .vc j } }

structure Loading (T : Table) (s : State) (p : VPtr) (l : List ℕ) : Prop where
  inTree : InTree s p
  start : l = [] → Unloaded T s p
  loaded : l ≠ [] → Loaded T s p l

theorem Loading.mem (h : Loading T s p l) (hj : j ∈ l) : InTree s (.vc j) :=
  h.inTree.child (h.loaded (List.ne_nil_of_mem hj)).sibs hj

theorem Loading.last (h : Loading T s p l) : lastOf l = .null ∨ InTree s (lastOf l) ∧ (s.vnode (lastOf l)).parent = p := by
  rcases List.eq_nil_or_concat' l with rfl | ⟨l,i,rfl⟩
  · exact Or.inl rfl
  · rw [lastOf_concat]
    exact Or.inr ⟨h.mem (by simp),((h.loaded (by simp)).sibs.mem (by simp)).2.1⟩

theorem Loading.beside (h : Loading T s p l) (hb : Beside s t) : Loading T t p l :=
  ⟨hb.mono h.inTree,fun hl => (h.start hl).beside hb h.inTree,fun hl => (h.loaded hl).beside hb h.inTree⟩

section AddChild
variable {r : Inode} (hl : Loading T s p l)
include hl

theorem addChild_new : (s.addChild r p (lastOf l)).vnode (.vc s.vlist.cnt) =
    (s.vnode (.vc s.vlist.cnt)).childOf r (s.vnode p).dev p := by
  simp only [State.addChild]
  split
  · rw [update_of_ne hl.inTree.ne_new.symm,update_self]
  · rename_i hne
    rw [update_of_ne (hl.last.resolve_left hne).1.ne_new.symm,update_self]

theorem addChild_old (hq : InTree s q) : (s.addChild r p (lastOf l)).vnode q = { s.vnode q with
    child := if lastOf l = .null ∧ q = p then .vc s.vlist.cnt else (s.vnode q).child
    next := if q = lastOf l then .vc s.vlist.cnt else (s.vnode q).next } := by
  have hqn := hq.ne_null
  simp only [State.addChild]
  split
  · rename_i h0
    rw [h0]
    by_cases hqp : q = p
    · subst hqp
      simp [update_of_ne hq.ne_new,hqn]
    · simp [update_of_ne hq.ne_new,hqp,hqn]
  · rename_i h0
    by_cases hql : q = lastOf l
    · subst hql
      simp [update_of_ne hq.ne_new,h0]
    · simp [update_of_ne hq.ne_new,hql,h0]

theorem addChild_ino (hq : InTree s q) : (s.addChild r p (lastOf l)).ino q = s.ino q := by
  rw [State.ino,addChild_old hl hq]
  rfl

theorem addChild_sibs {l' : List ℕ} (hq : InTree s q) (hqp : q ≠ p) (hl' : Sibs s q (s.vnode q).child l') :
    Sibs (s.addChild r p (lastOf l)) q ((s.addChild r p (lastOf l)).vnode q).child l' := by
  rw [addChild_old hl hq]
  simp only [hqp,and_false,if_false]
  refine hl'.congr (by rw [State.addChild,AllocList.append_cnt]; omega) (fun j hj hpar => ?_)
  rw [addChild_old hl (hq.child hl' hj)]
  refine ⟨rfl,rfl,if_neg ?_⟩
  intro he
  rcases hl.last with hnull | ⟨-,hlast⟩
  · exact VPtr.noConfusion (he.trans hnull)
  · exact hqp (hpar.symm.trans (he ▸ hlast))

variable (h : Tree E bs C T o (· ≠ p) s)
include h

theorem addChild_last : Sibs (s.addChild r p (lastOf l)) p (.vc s.vlist.cnt) [s.vlist.cnt] := by
  refine ⟨rfl,by rw [State.addChild,AllocList.append_cnt]; omega,?_,?_,?_⟩
  · rw [addChild_new hl]
    rfl
  · rw [addChild_new hl]
    exact h.fresh _ (Nat.le_refl _)
  · rw [addChild_new hl]
    rfl

theorem addChild_list (hnd : l.Nodup) :
    Sibs (s.addChild r p (lastOf l)) p ((s.addChild r p (lastOf l)).vnode p).child (l ++ [s.vlist.cnt]) := by
  have hlast := addChild_last (r := r) hl h
  rw [addChild_old hl hl.inTree]
  rcases List.eq_nil_or_concat' l with rfl | ⟨l,i,rfl⟩
  · simpa using hlast
  · have hsibs := (hl.loaded (by simp)).sibs
    simp only [lastOf_concat,reduceCtorEq,false_and,if_false]
    refine hsibs.concat (by rw [State.addChild,AllocList.append_cnt]; omega) ?_ ?_ ?_ ?_
    · intro j hj
      have hold := addChild_old (r := r) hl (hl.mem hj)
      rw [lastOf_concat] at hold
      rw [hold]
      exact ⟨rfl,rfl⟩
    · intro j hj
      have hold := addChild_old (r := r) hl (hl.mem (List.mem_append_left [i] hj))
      rw [lastOf_concat] at hold
      rw [hold]
      refine if_neg (fun he => ?_)
      obtain rfl := VPtr.vc.inj he
      exact (List.nodup_append.mp hnd).2.2 j hj j (by simp) rfl
    · have hold := addChild_old (r := r) hl (hl.mem (show i ∈ l ++ [i] by simp))
      rw [lastOf_concat] at hold
      rw [hold]
      exact if_pos rfl
    · rwa [lastOf_concat] at hlast

theorem addChild_inTree (hnd : l.Nodup) :
    InTree (s.addChild r p (lastOf l)) q ↔ InTree s q ∨ q = .vc s.vlist.cnt := by
  have hlist := addChild_list (r := r) hl h hnd
  have hmono : ∀ q, InTree s q → InTree (s.addChild r p (lastOf l)) q := by
    intro q hq
    induction hq with
    | root => exact .root
    | @child q l' j hq hl' hj ih =>
      by_cases hqp : q = p
      · subst hqp
        refine ih.child hlist (List.mem_append_left _ ?_)
        have hne : l ≠ [] := by
          rintro rfl
          exact below_of_not_node (S := fun _ => False) (hl.start rfl).not_node l' hl' j hj
        rwa [(hl.loaded hne).sibs.unique hl']
      · exact ih.child (addChild_sibs hl hq hqp hl') hj
  constructor
  · intro hq
    refine hq.sub (S := fun q => InTree s q ∨ q = .vc s.vlist.cnt) (Or.inl .root) (fun q' _ hq' => ?_)
    rcases hq' with hq' | rfl
    · by_cases hqp : q' = p
      · subst hqp
        refine below_of_sibs hlist (fun j hj => ?_)
        rcases List.mem_append.mp hj with hj | hj
        · exact Or.inl (hl.mem hj)
        · exact Or.inr (by rw [List.mem_singleton.mp hj])
      · rcases h.links q' hq' with hu | ⟨l',hl',-⟩
        · refine below_of_not_node ?_
          rw [addChild_old hl hq']
          simpa [hqp] using hu.not_node
        · exact below_of_sibs (addChild_sibs hl hq' hqp hl'.sibs) (fun j hj => Or.inl (hq'.child hl'.sibs hj))
    · refine below_of_not_node ?_
      rw [addChild_new hl]
      exact ofIno_not_node _
  · rintro (hq | rfl)
    · exact hmono q hq
    · exact (hmono p hl.inTree).child hlist (by simp)

variable {m : ℕ} (hT : T.Shaped E.fuel) (hm : l.map (fun j => s.ino (.vc j)) ++ [m] <+: T.kids (s.ino p))
include hT hm

theorem Loading.nodup : l.Nodup := by
  have hkids := (hT.nodup _ (h.used p hl.inTree)).sublist hm.sublist
  exact List.Nodup.of_map _ (List.nodup_append.mp hkids).1

theorem addChild_kid : (s.addChild (T.record m) p (lastOf l)).ino (.vc s.vlist.cnt) = m := by
  rw [State.ino,addChild_new hl]
  exact hT.ino _ (h.used p hl.inTree) m (hm.subset (by simp))

theorem Loading.addChild : Loading T (s.addChild (T.record m) p (lastOf l)) p (l ++ [s.vlist.cnt]) := by
  have hnd := hl.nodup h hT hm
  refine ⟨(addChild_inTree hl h hnd).mpr (Or.inl hl.inTree),fun he => absurd he (by simp),fun _ => ?_⟩
  refine ⟨addChild_list hl h hnd,?_⟩
  rw [List.map_append,List.map_singleton,addChild_kid hl h hT hm,addChild_ino hl hl.inTree,
    List.map_congr_left (fun j hj => addChild_ino hl (hl.mem hj))]
  exact hm

theorem Tree.addChild (hroom : s.vlist.append.Unused NVCHCNTS) :
    Tree E bs C T o (· ≠ p) (s.addChild (T.record m) p (lastOf l)) := by
  have hnd := hl.nodup h hT hm
  have hn := h.used p hl.inTree
  have hkid : m ∈ T.kids (s.ino p) := hm.subset (by simp)
  have hnew := addChild_new (r := T.record m) hl
  have hino := addChild_kid hl h hT hm
  refine ⟨hroom,h.cached,h.stored,h.ofile,h.sole,?_,?_,?_,?_,?_,?_⟩
  · intro j hj
    rw [show (s.addChild (T.record m) p (lastOf l)).vlist = s.vlist.append from rfl,AllocList.append_cnt] at hj
    have hold : (s.addChild (T.record m) p (lastOf l)).vnode (.vc j) = s.vnode (.vc j) := by
      have hne : ∀ q, InTree s q → .vc j ≠ q := by
        rintro q hq rfl
        exact absurd hq.lt (by omega)
      have hnew : VPtr.vc j ≠ .vc s.vlist.cnt := fun he => absurd (VPtr.vc.inj he) (by omega)
      simp only [State.addChild]
      split
      · rw [update_of_ne (hne p hl.inTree),update_of_ne hnew]
      · rename_i hnull
        rw [update_of_ne (hne _ (hl.last.resolve_left hnull).1),update_of_ne hnew]
    rw [hold]
    exact h.fresh j (by omega)
  · rw [addChild_ino hl .root]
    exact h.root
  · intro q hq
    rcases (addChild_inTree hl h hnd).mp hq with hq | rfl
    · rw [addChild_old hl hq]
      exact h.dev q hq
    · rw [hnew]
      exact h.dev p hl.inTree
  · intro q hq
    rcases (addChild_inTree hl h hnd).mp hq with hq | rfl
    · rw [addChild_ino hl hq]
      exact h.used q hq
    · rw [hino]
      exact (hT.kid _ hn m hkid).1
  · intro j hj
    rcases (addChild_inTree hl h hnd).mp hj with hj | hj
    · rw [addChild_ino hl hj,addChild_old hl hj]
      exact (h.shows j hj).congr rfl
    · obtain rfl := VPtr.vc.inj hj
      rw [hino,hnew]
      exact ((s.vnode _).fill_shows _ (hT.fits _ hn m hkid)).congr rfl
  · intro q hq
    rcases (addChild_inTree hl h hnd).mp hq with hq | rfl
    · by_cases hqp : q = p
      · subst hqp
        exact Or.inr ⟨_,(hl.addChild h hT hm).loaded (by simp),fun hne => absurd rfl hne⟩
      · have hchild : ((s.addChild (T.record m) p (lastOf l)).vnode q).child = (s.vnode q).child := by
          rw [addChild_old hl hq]
          simp [hqp]
        rcases h.links q hq with hu | ⟨l',hl',hP⟩
        · left
          unfold Unloaded
          rw [addChild_ino hl hq,hchild]
          exact hu
        · have hmap : l'.map (fun j => (s.addChild (T.record m) p (lastOf l)).ino (.vc j)) =
              l'.map (fun j => s.ino (.vc j)) :=
            List.map_congr_left (fun j hj => addChild_ino hl (hq.child hl'.sibs hj))
          refine Or.inr ⟨l',⟨addChild_sibs hl hq hqp hl'.sibs,?_⟩,fun hne => ?_⟩
          · rw [hmap,addChild_ino hl hq]
            exact hl'.initial
          · rw [hmap,addChild_ino hl hq]
            exact hP hne
    · left
      left
      rw [hino,hnew]
      rfl

end AddChild

/-! ## Loading leaves the nodes alone -/

structure Grows (s t : State) : Prop where
  inTree : ∀ q, InTree s q → InTree t q
  vnode : ∀ q, InTree s q → t.vnode q = { s.vnode q with child := (t.vnode q).child }
  child : ∀ q, InTree s q → (s.vnode q).child.isNode → (t.vnode q).child = (s.vnode q).child

theorem Grows.refl (s : State) : Grows s s := ⟨fun _ h => h,fun _ _ => rfl,fun _ _ _ => rfl⟩

theorem Grows.trans (h : Grows s t) (h' : Grows t u) : Grows s u where
  inTree q hq := h'.inTree q (h.inTree q hq)
  vnode q hq := by
    rw [h'.vnode q (h.inTree q hq),h.vnode q hq]
  child q hq hc := by
    have heq := h.child q hq hc
    rw [h'.child q (h.inTree q hq) (heq ▸ hc),heq]

theorem Grows.ino (h : Grows s t) (hq : InTree s q) : t.ino q = s.ino q := by
  rw [State.ino,h.vnode q hq]
  rfl

theorem Beside.grows (hb : Beside s t) : Grows s t where
  inTree _ hq := hb.mono hq
  vnode q hq := by rw [hb.vnode q hq]
  child q hq _ := by rw [hb.vnode q hq]

/-- Children are added to a node that had none in memory. -/
theorem Grows.addChild {r : Inode} (hg : Grows u s) (hl : Loading T s p l) (h : Tree E bs C T o (· ≠ p) s)
    (hnd : l.Nodup) (hp : InTree u p → (u.vnode p).child.isNode = false) (hnew : ∀ j ∈ l, ¬ InTree u (.vc j)) :
    Grows u (s.addChild r p (lastOf l)) where
  inTree q hq := (addChild_inTree hl h hnd).mpr (Or.inl (hg.inTree q hq))
  vnode q hq := by
    have hne : q ≠ lastOf l := by
      rintro rfl
      rcases List.eq_nil_or_concat' l with rfl | ⟨l,i,rfl⟩
      · exact hq.ne_null rfl
      · rw [lastOf_concat] at hq
        exact hnew i (by simp) hq
    rw [addChild_old hl (hg.inTree q hq),hg.vnode q hq]
    simp [hne]
  child q hq hc := by
    have hqp : q ≠ p := by
      rintro rfl
      exact absurd (hp hq) (by simp [hc])
    rw [addChild_old hl (hg.inTree q hq)]
    simp only [hqp,and_false,if_false]
    exact hg.child q hq hc

/-! ## The root -/

structure Rooted (s : State) : Prop where
  next : (s.vnode (.root 0)).next = .null
  str : (s.vnode (.root 0)).str.length < NVNAMLEN

theorem Rooted.congr (h : Rooted s) (hv : ∃ c, t.vnode (.root 0) = { s.vnode (.root 0) with child := c }) : Rooted t := by
  obtain ⟨c,hc⟩ := hv
  refine ⟨?_,?_⟩
  · rw [hc]
    exact h.next
  · rw [hc]
    exact h.str

theorem Grows.rooted (hg : Grows s t) (h : Rooted s) : Rooted t := h.congr ⟨_,hg.vnode _ .root⟩

end Micron.Filesys

import Micron.Filesys.Relink

/-! # A leaf comes and goes

A record becomes the first child of a directory, and the first child is taken away again if
nothing is below it. Both are described for the table and for the vnodes, where only the
link from the directory to its first child changes.
-/
namespace Micron.Filesys
open Function Bytes Kernel Scache Prog
variable {E : Env} {bs : BlkSizes} {C : Content} {T : Table} {o : ℕ → Ofile} {P : VPtr → Prop} {s t : State}
  {X : State → Prop} {p q c : VPtr} {l l' : List ℕ} {j k n d m fuel : ℕ} {r : Inode}

/-! ## Tables -/

def Table.insert (T : Table) (d : ℕ) (r : Inode) : Table :=
  { T with
    record := update (update T.record r.ino.toNat r) d { T.record d with child := r.ino }
    used := fun n => T.used n ∨ n = r.ino.toNat
    kids := update (update T.kids r.ino.toNat []) d (r.ino.toNat :: T.kids d) }

structure Table.Takes (T : Table) (d : ℕ) (r : Inode) : Prop where
  used : T.used d
  free : ¬ T.used r.ino.toNat
  lt : r.ino.toNat < T.count
  fits : r.Fits
  child : r.child = 0
  next : r.next = (T.record d).child
  expand : r.expand = (T.record r.ino.toNat).expand

theorem length_lt_of_nodup {l : List ℕ} {b : ℕ} (hnd : l.Nodup) (h : ∀ n ∈ l, n < b ∧ n ≠ 0) (hb : 0 < b) :
    l.length < b := by
  have hsub : l.toFinset ⊆ (Finset.range b).erase 0 := by
    intro n hn
    obtain ⟨hlt,hne⟩ := h n (List.mem_toFinset.mp hn)
    exact Finset.mem_erase.mpr ⟨hne,Finset.mem_range.mpr hlt⟩
  have hcard := Finset.card_le_card hsub
  rw [List.toFinset_card_of_nodup hnd,Finset.card_erase_of_mem (Finset.mem_range.mpr hb),Finset.card_range] at hcard
  omega

section Insert
variable (hT : T.Shaped fuel) (hr : T.Takes d r)
include hr

theorem Table.Takes.ne : d ≠ r.ino.toNat := fun he => hr.free (he ▸ hr.used)

theorem insert_record_new : (T.insert d r).record r.ino.toNat = r :=
  (update_of_ne hr.ne.symm _ _).trans (update_self _ _ _)

omit hr in
/-- Only the child of `d` changes in the old records. -/
theorem insert_record_old (hn : n ≠ r.ino.toNat) : (T.insert d r).record n =
    { T.record n with child := if n = d then r.ino else (T.record n).child } := by
  by_cases hd : n = d
  · rw [hd,if_pos rfl]
    exact update_self _ _ _
  · rw [if_neg hd]
    exact (update_of_ne hd _ _).trans (update_of_ne hn _ _)

theorem insert_kids_new : (T.insert d r).kids r.ino.toNat = [] :=
  (update_of_ne hr.ne.symm _ _).trans (update_self _ _ _)

omit hr in
theorem insert_kids_self : (T.insert d r).kids d = r.ino.toNat :: T.kids d := update_self _ _ _

theorem insert_kids_old (hn : T.used n) (hd : n ≠ d) : (T.insert d r).kids n = T.kids n :=
  have hne : n ≠ r.ino.toNat := fun he => hr.free (he ▸ hn)
  (update_of_ne hd _ _).trans (update_of_ne hne _ _)

theorem insert_mem_kids (hn : (T.insert d r).used n) :
    k ∈ (T.insert d r).kids n ↔ T.used n ∧ k ∈ T.kids n ∨ n = d ∧ k = r.ino.toNat := by
  rcases hn with hn | rfl
  · by_cases hd : n = d
    · subst hd
      rw [insert_kids_self]
      simp [hn,or_comm]
    · rw [insert_kids_old hr hn hd]
      simp [hn,hd]
  · rw [insert_kids_new hr]
    simp [hr.free,hr.ne.symm]

theorem insert_expand : ((T.insert d r).record n).expand = (T.record n).expand := by
  by_cases hn : n = r.ino.toNat
  · rw [hn,insert_record_new hr]
    exact hr.expand
  · rw [insert_record_old hn]

include hT

theorem Table.Takes.ne_zero : r.ino.toNat ≠ 0 := fun he => hr.free (he ▸ hT.root)

theorem Table.Takes.not_kid (hn : T.used n) : r.ino.toNat ∉ T.kids n := fun hk => hr.free (hT.kid n hn _ hk).1

/-- The new record joins a list of siblings without changing the others. -/
theorem insert_follows (hn : T.used n) {v : UInt32} (hf : Follows T.record Inode.next v (T.kids n)) :
    Follows (T.insert d r).record Inode.next v (T.kids n) := by
  refine hf.congr (fun k hk => ?_)
  have hne : k ≠ r.ino.toNat := fun he => hr.not_kid hT hn (he ▸ hk)
  rw [insert_record_old hne]

theorem Table.Shaped.insert (hcount : T.count ≤ fuel) : (T.insert d r).Shaped fuel where
  root := Or.inl hT.root
  lt n hn := by
    rcases hn with hn | rfl
    · exact hT.lt n hn
    · exact hr.lt
  follows n hn := by
    rcases hn with hn | rfl
    · have hne : n ≠ r.ino.toNat := fun he => hr.free (he ▸ hn)
      by_cases hd : n = d
      · subst hd
        rw [insert_kids_self,insert_record_old hne,if_pos rfl]
        have hne0 : r.ino ≠ 0 := fun h0 => hr.ne_zero hT (congrArg UInt32.toNat h0)
        refine ⟨hne0,rfl,?_⟩
        rw [insert_record_new hr,hr.next]
        exact insert_follows hT hr hn (hT.follows n hn)
      · rw [insert_kids_old hr hn hd,insert_record_old hne,if_neg hd]
        exact insert_follows hT hr hn (hT.follows n hn)
    · rw [insert_kids_new hr,insert_record_new hr]
      exact hr.child
  kid n hn k hk := by
    rcases (insert_mem_kids hr hn).mp hk with ⟨hn,hk⟩ | ⟨rfl,rfl⟩
    · exact ⟨Or.inl (hT.kid n hn k hk).1,(hT.kid n hn k hk).2⟩
    · exact ⟨Or.inr rfl,hr.ne_zero hT⟩
  nodup n hn := by
    rcases hn with hn | rfl
    · by_cases hd : n = d
      · subst hd
        rw [insert_kids_self]
        exact List.nodup_cons.mpr ⟨hr.not_kid hT hn,hT.nodup n hn⟩
      · rw [insert_kids_old hr hn hd]
        exact hT.nodup n hn
    · rw [insert_kids_new hr]
      exact List.nodup_nil
  parent n n' k hn hn' hk hk' := by
    rcases (insert_mem_kids hr hn).mp hk with ⟨hu,hold⟩ | ⟨hd,hnew⟩
    · rcases (insert_mem_kids hr hn').mp hk' with ⟨hu',hold'⟩ | ⟨-,hnew'⟩
      · exact hT.parent n n' k hu hu' hold hold'
      · exact absurd (hnew' ▸ hold) (hr.not_kid hT hu)
    · rcases (insert_mem_kids hr hn').mp hk' with ⟨hu',hold'⟩ | ⟨hd',-⟩
      · exact absurd (hnew ▸ hold') (hr.not_kid hT hu')
      · exact hd.trans hd'.symm
  ino n hn k hk := by
    rcases (insert_mem_kids hr hn).mp hk with ⟨hn,hk⟩ | ⟨rfl,rfl⟩
    · rw [insert_record_old (fun he => hr.not_kid hT hn (he ▸ hk))]
      exact hT.ino n hn k hk
    · rw [insert_record_new hr]
  fits n hn k hk := by
    rcases (insert_mem_kids hr hn).mp hk with ⟨hn,hk⟩ | ⟨rfl,rfl⟩
    · rw [insert_record_old (fun he => hr.not_kid hT hn (he ▸ hk))]
      exact ⟨(hT.fits n hn k hk).no_nul,(hT.fits n hn k hk).length_lt⟩
    · rw [insert_record_new hr]
      exact hr.fits
  kids_lt n hn := by
    rcases hn with hn | rfl
    · by_cases hd : n = d
      · subst hd
        rw [insert_kids_self]
        refine Nat.lt_of_lt_of_le (length_lt_of_nodup ?_ ?_ (Nat.lt_of_le_of_lt (Nat.zero_le _) hr.lt)) hcount
        · exact List.nodup_cons.mpr ⟨hr.not_kid hT hn,hT.nodup n hn⟩
        · intro k hk
          rcases List.mem_cons.mp hk with rfl | hk
          · exact ⟨hr.lt,hr.ne_zero hT⟩
          · exact ⟨hT.lt k (hT.kid n hn k hk).1,(hT.kid n hn k hk).2⟩
      · rw [insert_kids_old hr hn hd]
        exact hT.kids_lt n hn
    · rw [insert_kids_new hr]
      exact Nat.lt_of_le_of_lt (Nat.zero_le _) (hT.kids_lt 0 hT.root)
  expands n hn := by
    rw [insert_expand hr]
    exact (hT.expands n hn).congr (fun k _ => insert_expand hr)
  exp n hn e he := by
    refine ⟨(hT.exp n hn e he).1,?_⟩
    by_cases hm : e = r.ino.toNat
    · rw [hm,insert_record_new hr]
      exact hr.fits
    · rw [insert_record_old hm]
      exact ⟨(hT.exp n hn e he).2.no_nul,(hT.exp n hn e he).2.length_lt⟩
  exps_lt := hT.exps_lt

theorem Table.Shaped.resolve_insert {dirs comps : List (List UInt8)} (hd : T.resolve 0 dirs = some d)
    (hname : T.child d r.str = none) :
    (T.insert d r).resolve 0 comps = if comps = dirs ++ [r.str] then some r.ino.toNat else T.resolve 0 comps := by
  refine Names.Grafted.resolve hT.treelike ⟨insert_kids_self,insert_kids_new hr,?_,?_,?_⟩ hd hname
  · rw [insert_record_new hr]
  · exact fun n hn hne => insert_kids_old hr hn hne
  · intro n hn k hk
    rw [insert_record_old (fun he => hr.not_kid hT hn (he ▸ hk))]

end Insert

def Table.remove (T : Table) (d m : ℕ) : Table :=
  { T with
    record := update T.record d { T.record d with child := (T.record m).next }
    used := fun n => T.used n ∧ n ≠ m
    kids := update T.kids d ((T.kids d).erase m) }

section Remove
variable {ks : List ℕ} (hT : T.Shaped fuel) (hd : T.used d) (hk : T.kids d = m :: ks)

theorem remove_record (n : ℕ) : (T.remove d m).record n =
    { T.record n with child := if n = d then (T.record m).next else (T.record n).child } := by
  by_cases hn : n = d
  · rw [hn,if_pos rfl]
    exact update_self _ _ _
  · rw [if_neg hn]
    exact update_of_ne hn _ _

include hk

theorem remove_kids_self : (T.remove d m).kids d = ks := by
  refine (update_self _ _ _).trans ?_
  rw [hk,List.erase_cons_head]

omit hk in
theorem remove_kids_old (hn : n ≠ d) : (T.remove d m).kids n = T.kids n := update_of_ne hn _ _

include hT hd

/-- The other lists do not have the leaf. -/
theorem remove_mem_kids (hn : T.used n) : k ∈ (T.remove d m).kids n ↔ k ∈ T.kids n ∧ k ≠ m := by
  have hnd := hT.nodup d hd
  rw [hk] at hnd
  by_cases he : n = d
  · subst he
    rw [remove_kids_self hk,hk,List.mem_cons]
    constructor
    · intro hks
      exact ⟨Or.inr hks,fun he => (List.nodup_cons.mp hnd).1 (he ▸ hks)⟩
    · rintro ⟨rfl | hks,hne⟩
      · exact absurd rfl hne
      · exact hks
  · rw [remove_kids_old he]
    refine ⟨fun hkn => ⟨hkn,?_⟩,fun hkn => hkn.1⟩
    rintro rfl
    exact he (hT.parent n d k hn hd hkn (by rw [hk]; exact List.mem_cons_self))

omit hT hd hk in
theorem remove_follows {v : UInt32} {l : List ℕ} (hf : Follows T.record Inode.next v l) :
    Follows (T.remove d m).record Inode.next v l :=
  hf.congr (fun k _ => by rw [remove_record])

theorem Table.Shaped.remove : (T.remove d m).Shaped fuel := by
  have hm := hT.kid d hd m (by rw [hk]; exact List.mem_cons_self)
  have hsub : ∀ n, T.used n → (T.remove d m).kids n <:+ T.kids n := by
    intro n _
    by_cases he : n = d
    · rw [he,remove_kids_self hk,hk]
      exact List.suffix_cons m ks
    · rw [remove_kids_old he]
  refine ⟨⟨hT.root,hm.2.symm⟩,fun n hn => hT.lt n hn.1,?_,?_,?_,?_,?_,?_,?_,?_,?_,hT.exps_lt⟩
  · intro n hn
    rw [remove_record]
    refine remove_follows ?_
    by_cases he : n = d
    · subst he
      have hf := hT.follows n hd
      rw [hk] at hf
      rw [remove_kids_self hk,if_pos rfl]
      exact hf.2.2
    · rw [remove_kids_old he,if_neg he]
      exact hT.follows n hn.1
  · intro n hn k hkn
    obtain ⟨hkn,hne⟩ := (remove_mem_kids hT hd hk hn.1).mp hkn
    exact ⟨⟨(hT.kid n hn.1 k hkn).1,hne⟩,(hT.kid n hn.1 k hkn).2⟩
  · exact fun n hn => (hT.nodup n hn.1).sublist (hsub n hn.1).sublist
  · exact fun n n' k hn hn' hkn hkn' => hT.parent n n' k hn.1 hn'.1 ((hsub n hn.1).subset hkn) ((hsub n' hn'.1).subset hkn')
  · intro n hn k hkn
    rw [remove_record]
    exact hT.ino n hn.1 k ((hsub n hn.1).subset hkn)
  · intro n hn k hkn
    have hfits := hT.fits n hn.1 k ((hsub n hn.1).subset hkn)
    rw [remove_record]
    exact ⟨hfits.no_nul,hfits.length_lt⟩
  · exact fun n hn => Nat.lt_of_le_of_lt (hsub n hn.1).length_le (hT.kids_lt n hn.1)
  · intro n hn
    rw [remove_record]
    exact (hT.expands n hn).congr (fun k _ => by rw [remove_record])
  · intro n hn e he
    obtain ⟨hlt,hfits⟩ := hT.exp n hn e he
    rw [remove_record]
    exact ⟨hlt,hfits.no_nul,hfits.length_lt⟩

end Remove

/-! ## Vnodes -/

def State.setChild (s : State) (p c : VPtr) : State :=
  { s with vnode := update s.vnode p { s.vnode p with child := c } }

theorem setChild_vnode (q : VPtr) : (s.setChild p c).vnode q =
    { s.vnode q with child := if q = p then c else (s.vnode q).child } := by
  by_cases hq : q = p
  · rw [hq,if_pos rfl]
    exact update_self _ _ _
  · rw [if_neg hq]
    exact update_of_ne hq _ _

theorem setChild_ino (q : VPtr) : (s.setChild p c).ino q = s.ino q := by
  rw [State.ino,setChild_vnode]
  rfl

theorem setChild_child (hq : q ≠ p) : ((s.setChild p c).vnode q).child = (s.vnode q).child := by
  rw [setChild_vnode]
  exact if_neg hq

theorem setChild_self : ((s.setChild p c).vnode p).child = c := by
  rw [setChild_vnode]
  exact if_pos rfl

theorem Sibs.setChild {q v : VPtr} (h : Sibs s q v l) : Sibs (s.setChild p c) q v l := by
  refine h.congr (Nat.le_refl _) (fun j _ _ => ?_)
  rw [setChild_vnode]
  exact ⟨rfl,rfl,rfl⟩

theorem setChild_sibs (hq : q ≠ p) (h : Sibs s q (s.vnode q).child l) :
    Sibs (s.setChild p c) q ((s.setChild p c).vnode q).child l := by
  rw [setChild_child hq]
  exact h.setChild

/-- What has changed for the tree when `p` gets other children: the lists of the other
nodes `q`, old and new, are as they are in the records. -/
theorem Tree.setChild_links {T' : Table} (h : Tree E bs C T o (fun _ => True) s) (hq : InTree s q) (hqp : q ≠ p)
    (hrec : (T'.record (s.ino q)).child = (T.record (s.ino q)).child) (hkids : T'.kids (s.ino q) = T.kids (s.ino q)) :
    Unloaded T' (s.setChild p c) q ∨ ∃ l, Loaded T' (s.setChild p c) q l ∧
      (True → l.map (fun j => (s.setChild p c).ino (.vc j)) = T'.kids ((s.setChild p c).ino q)) := by
  simp only [Unloaded,setChild_ino,setChild_child hqp,hrec,hkids]
  rcases h.links q hq with hu | ⟨l,hl,hmap⟩
  · exact Or.inl hu
  · refine Or.inr ⟨l,⟨setChild_sibs hqp hl.sibs,?_⟩,hmap⟩
    simp only [setChild_ino,hkids]
    exact hl.initial

/-! ## A new first child -/

/-- The vnode `j` outside of the tree is ready to become the first child of `p`, with the
record `r`. -/
structure Ready (T : Table) (s : State) (p : VPtr) (j : ℕ) (r : Inode) : Prop where
  lt : j < s.vlist.cnt
  out : ¬ InTree s (.vc j)
  parent : (s.vnode (.vc j)).parent = p
  next : (s.vnode (.vc j)).next = (s.vnode p).child
  child : (s.vnode (.vc j)).child = .null
  expand : (s.vnode (.vc j)).expand = .null
  dev : (s.vnode (.vc j)).dev = T.dev
  shows : (s.vnode (.vc j)).Shows r

section Link
variable (h : Tree E bs C T o (fun _ => True) s) (hp : InTree s p) (hl : Loaded T s p l)
  (hmap : l.map (fun j => s.ino (.vc j)) = T.kids (s.ino p)) (hj : Ready T s p j r)
include hp hl hj

omit hp in
theorem link_list : Sibs (s.setChild p (.vc j)) p ((s.setChild p (.vc j)).vnode p).child (j :: l) := by
  have hlist : Sibs s p (.vc j) (j :: l) := ⟨rfl,hj.lt,hj.parent,hj.expand,hj.next ▸ hl.sibs⟩
  rw [setChild_self]
  exact hlist.setChild

include h

theorem link_inTree : InTree (s.setChild p (.vc j)) q ↔ InTree s q ∨ q = .vc j := by
  have hlist := link_list hl hj
  have hmono : ∀ q, InTree s q → InTree (s.setChild p (.vc j)) q := by
    intro q hq
    induction hq with
    | root => exact .root
    | @child q l' k hq hl' hk ih =>
      by_cases hqp : q = p
      · subst hqp
        refine ih.child hlist (List.mem_cons_of_mem _ ?_)
        rwa [hl.sibs.unique hl']
      · exact ih.child (setChild_sibs hqp hl') hk
  constructor
  · intro hq
    refine hq.sub (S := fun q => InTree s q ∨ q = .vc j) (Or.inl .root) (fun q' _ hq' => ?_)
    rcases hq' with hq' | rfl
    · by_cases hqp : q' = p
      · subst hqp
        refine below_of_sibs hlist (fun k hk => ?_)
        rcases List.mem_cons.mp hk with rfl | hk
        · exact Or.inr rfl
        · exact Or.inl (hp.child hl.sibs hk)
      · rcases h.links q' hq' with hu | ⟨l',hl',-⟩
        · exact below_of_not_node (by rw [setChild_child hqp]; exact hu.not_node)
        · exact below_of_sibs (setChild_sibs hqp hl'.sibs) (fun k hk => Or.inl (hq'.child hl'.sibs hk))
    · have hjp : VPtr.vc j ≠ p := fun he => hj.out (he ▸ hp)
      exact below_of_not_node (by rw [setChild_child hjp,hj.child]; rfl)
  · rintro (hq | rfl)
    · exact hmono q hq
    · exact (hmono p hp).child hlist List.mem_cons_self

omit h hp hl in
theorem Ready.ino : s.ino (.vc j) = r.ino.toNat := congrArg UInt32.toNat hj.shows.ino

include hmap

omit h hp in
theorem link_complete : Complete (T.insert (s.ino p) r) (s.setChild p (.vc j)) p := by
  have hkids : (j :: l).map (fun k => (s.setChild p (.vc j)).ino (.vc k)) =
      (T.insert (s.ino p) r).kids ((s.setChild p (.vc j)).ino p) := by
    simp only [setChild_ino]
    rw [insert_kids_self,List.map_cons,hmap,hj.ino]
  exact ⟨j :: l,⟨link_list hl hj,hkids ▸ List.prefix_refl _⟩,hkids⟩

theorem Tree.link (hr : T.Takes (s.ino p) r) (hT : T.Shaped E.fuel) :
    Tree E bs C (T.insert (s.ino p) r) o (fun _ => True) (s.setChild p (.vc j)) := by
  have hin : ∀ q, InTree (s.setChild p (.vc j)) q → InTree s q ∨ q = .vc j := fun q => (link_inTree h hp hl hj).mp
  have hnew : ∀ q, InTree s q → s.ino q ≠ r.ino.toNat := fun q hq he => hr.free (he ▸ h.used q hq)
  refine ⟨h.vlist,h.cached,h.stored,h.ofile,⟨h.sole.stat,h.sole.sblk,h.sole.fs,h.sole.hdev⟩,?_,?_,?_,?_,?_,?_⟩
  · intro k hk
    rw [setChild_vnode]
    exact h.fresh k hk
  · rw [setChild_ino]
    exact h.root
  · intro q hq
    rw [setChild_vnode]
    rcases hin q hq with hq | rfl
    · exact h.dev q hq
    · exact hj.dev
  · intro q hq
    rw [setChild_ino]
    rcases hin q hq with hq | rfl
    · exact Or.inl (h.used q hq)
    · exact Or.inr hj.ino
  · intro k hk
    rw [setChild_ino,setChild_vnode]
    rcases hin _ hk with hk | hk
    · rw [insert_record_old (hnew _ hk)]
      obtain ⟨h0,h1,h2,h3,h4,h5,h6,h7,h8,h9,h10,h11,h12⟩ := h.shows k hk
      exact ⟨h0,h1,h2,h3,h4,h5,h6,h7,h8,h9,h10,h11,h12⟩
    · obtain rfl := VPtr.vc.inj hk
      rw [hj.ino,insert_record_new hr]
      exact hj.shows.congr rfl
  · intro q hq
    rcases hin q hq with hq | rfl
    · by_cases hqp : q = p
      · subst hqp
        obtain ⟨l',hl',hmap'⟩ := link_complete hl hmap hj
        exact Or.inr ⟨l',hl',fun _ => hmap'⟩
      · have hne : s.ino q ≠ s.ino p := fun he => hqp (h.ino_inj hT hq hp he)
        refine h.setChild_links hq hqp ?_ (insert_kids_old hr (h.used q hq) hne)
        rw [insert_record_old (hnew q hq),if_neg hne]
    · have hjp : VPtr.vc j ≠ p := fun he => hj.out (he ▸ hp)
      left
      left
      rw [setChild_child hjp,setChild_ino,hj.ino,insert_record_new hr,hj.child,hr.child]
      rfl

/-- Saving the directory afterwards keeps the records of the directory and of its old children. -/
theorem link_resaves {R : ℕ → Inode} (hr : T.Takes (s.ino p) r) (hT : T.Shaped E.fuel) (hcount : T.count ≤ E.fuel)
    (hroot : Rooted s) (hR : Rewrites E (T.insert (s.ino p) r) (s.setChild p (.vc j)) p T.record R) :
    Resaves T.record s (s.ino p) (T.kids (s.ino p)) R := by
  have hv : (s.setChild p (.vc j)).vnode (.root 0) = _ := setChild_vnode _
  have hd : (s.setChild p (.vc j)).ino p = s.ino p := setChild_ino p
  have hks : ∀ k ∈ T.kids (s.ino p), k ∈ (T.insert (s.ino p) r).kids ((s.setChild p (.vc j)).ino p) ∧
      (k ≠ (s.setChild p (.vc j)).ino p → (T.insert (s.ino p) r).record k = T.record k) := by
    intro k hk
    rw [hd]
    refine ⟨?_,fun hne => ?_⟩
    · rw [insert_kids_self]
      exact List.mem_cons_of_mem _ hk
    · rw [insert_record_old (fun he => hr.not_kid hT hr.used (he ▸ hk)),if_neg hne]
  have hrec : (T.insert (s.ino p) r).record ((s.setChild p (.vc j)).ino p) =
      { T.record ((s.setChild p (.vc j)).ino p) with child := r.ino } := by
    rw [hd,insert_record_old hr.ne,if_pos rfl]
  have hsaved := hR.resaves (hT.insert hr hcount) (h.link hp hl hmap hj hr hT) (hroot.congr ⟨_,hv⟩)
    ((link_inTree h hp hl hj).mpr (Or.inl hp)) (link_complete hl hmap hj) hks hrec
  rw [hd] at hsaved
  exact hsaved.congr ⟨_,hv⟩

end Link

/-! ## The first child goes -/

section Unlink
variable (hT : T.Shaped E.fuel) (h : Tree E bs C T o (fun _ => True) s) (hp : InTree s p)
  (hl : Loaded T s p (j :: l)) (hmap : (j :: l).map (fun j => s.ino (.vc j)) = T.kids (s.ino p))
  (hleaf : (s.vnode (.vc j)).child = .null)

abbrev State.unlink (s : State) (p : VPtr) (j : ℕ) : State := s.setChild p (s.vnode (.vc j)).next

include hl

theorem unlink_list : Sibs (s.unlink p j) p ((s.unlink p j).vnode p).child l := by
  rw [setChild_self]
  exact hl.sibs.2.2.2.2.setChild

include h hp hmap hT

omit hl in
theorem unlink_notMem : j ∉ l := by
  have hnd := hT.nodup _ (h.used p hp)
  rw [← hmap] at hnd
  exact (List.nodup_cons.mp (List.Nodup.of_map _ hnd)).1

include hleaf

theorem unlink_inTree : InTree (s.unlink p j) q ↔ InTree s q ∧ q ≠ .vc j := by
  have hlist := unlink_list hl
  have hpj : p ≠ .vc j := hp.not_child hl.sibs j List.mem_cons_self
  constructor
  · intro hq
    refine hq.sub (S := fun q => InTree s q ∧ q ≠ .vc j) ⟨.root,nofun⟩ (fun q' _ hq' => ?_)
    by_cases hqp : q' = p
    · subst hqp
      refine below_of_sibs hlist (fun k hk => ⟨hp.child hl.sibs (List.mem_cons_of_mem _ hk),fun he => ?_⟩)
      obtain rfl := VPtr.vc.inj he
      exact unlink_notMem hT h hp hmap hk
    · rcases h.links q' hq'.1 with hu | ⟨l',hl',-⟩
      · exact below_of_not_node (by rw [setChild_child hqp]; exact hu.not_node)
      · refine below_of_sibs (setChild_sibs hqp hl'.sibs) (fun k hk => ⟨hq'.1.child hl'.sibs hk,fun he => ?_⟩)
        -- the leaf has one parent
        obtain rfl := VPtr.vc.inj he
        exact hqp ((hl'.sibs.mem hk).2.1.symm.trans hl.sibs.2.2.1)
  · rintro ⟨hq,hne⟩
    induction hq with
    | root => exact .root
    | @child q l' k hq hl' hk ih =>
      have hqj : q ≠ .vc j := by
        rintro rfl
        rw [hleaf] at hl'
        exact below_of_not_node (t := s) (S := fun _ => False) (by rw [hleaf]; rfl) l' (by rw [hleaf]; exact hl') k hk
      by_cases hqp : q = p
      · subst hqp
        obtain rfl := hl.sibs.unique hl'
        rcases List.mem_cons.mp hk with rfl | hk
        · exact absurd rfl hne
        · exact (ih hqj).child hlist hk
      · exact (ih hqj).child (setChild_sibs hqp hl') hk

omit hT h hp hleaf in
theorem unlink_complete : Complete (T.remove (s.ino p) (s.ino (.vc j))) (s.unlink p j) p := by
  have hkids : l.map (fun k => (s.unlink p j).ino (.vc k)) =
      (T.remove (s.ino p) (s.ino (.vc j))).kids ((s.unlink p j).ino p) := by
    simp only [setChild_ino]
    rw [remove_kids_self (hmap.symm.trans (List.map_cons ..))]
  exact ⟨l,⟨unlink_list hl,hkids ▸ List.prefix_refl _⟩,hkids⟩

theorem Tree.unlink : Tree E bs C (T.remove (s.ino p) (s.ino (.vc j))) o (fun _ => True) (s.unlink p j) := by
  have hj : InTree s (.vc j) := hp.child hl.sibs List.mem_cons_self
  have hin : ∀ q, InTree (s.unlink p j) q → InTree s q ∧ q ≠ .vc j :=
    fun q => (unlink_inTree hT h hp hl hmap hleaf).mp
  refine ⟨h.vlist,h.cached,h.stored,h.ofile,⟨h.sole.stat,h.sole.sblk,h.sole.fs,h.sole.hdev⟩,?_,?_,?_,?_,?_,?_⟩
  · intro k hk
    rw [setChild_vnode]
    exact h.fresh k hk
  · rw [setChild_ino]
    exact h.root
  · intro q hq
    rw [setChild_vnode]
    exact h.dev q (hin q hq).1
  · intro q hq
    rw [setChild_ino]
    exact ⟨h.used q (hin q hq).1,fun he => (hin q hq).2 (h.ino_inj hT (hin q hq).1 hj he)⟩
  · intro k hk
    rw [setChild_ino,setChild_vnode,remove_record]
    obtain ⟨h0,h1,h2,h3,h4,h5,h6,h7,h8,h9,h10,h11,h12⟩ := h.shows k (hin _ hk).1
    exact ⟨h0,h1,h2,h3,h4,h5,h6,h7,h8,h9,h10,h11,h12⟩
  · intro q hq
    by_cases hqp : q = p
    · subst hqp
      obtain ⟨l',hl',hmap'⟩ := unlink_complete hl hmap
      exact Or.inr ⟨l',hl',fun _ => hmap'⟩
    · have hq' := (hin q hq).1
      have hne : s.ino q ≠ s.ino p := fun he => hqp (h.ino_inj hT hq' hp he)
      refine h.setChild_links hq' hqp ?_ (remove_kids_old hne)
      rw [remove_record,if_neg hne]

/-- Saving the directory afterwards keeps the records of the directory and of its other children. -/
theorem unlink_resaves {R : ℕ → Inode} (hroot : Rooted s)
    (hR : Rewrites E (T.remove (s.ino p) (s.ino (.vc j))) (s.unlink p j) p T.record R) :
    Resaves T.record s (s.ino p) (l.map (fun j => s.ino (.vc j))) R := by
  have hv : (s.unlink p j).vnode (.root 0) = _ := setChild_vnode _
  have hd : (s.unlink p j).ino p = s.ino p := setChild_ino p
  have hkids : T.kids (s.ino p) = s.ino (.vc j) :: l.map (fun j => s.ino (.vc j)) := hmap.symm
  have hp' : InTree (s.unlink p j) p :=
    (unlink_inTree hT h hp hl hmap hleaf).mpr ⟨hp,hp.not_child hl.sibs j List.mem_cons_self⟩
  have hks : ∀ k ∈ l.map (fun j => s.ino (.vc j)),
      k ∈ (T.remove (s.ino p) (s.ino (.vc j))).kids ((s.unlink p j).ino p) ∧
      (k ≠ (s.unlink p j).ino p → (T.remove (s.ino p) (s.ino (.vc j))).record k = T.record k) := by
    intro k hk
    rw [hd]
    refine ⟨?_,fun hne => ?_⟩
    · rw [remove_kids_self hkids]
      exact hk
    · rw [remove_record,if_neg hne]
  have hrec : (T.remove (s.ino p) (s.ino (.vc j))).record ((s.unlink p j).ino p) =
      { T.record ((s.unlink p j).ino p) with child := (T.record (s.ino (.vc j))).next } := by
    rw [hd,remove_record,if_pos rfl]
  have hsaved := hR.resaves (hT.remove (h.used p hp) hkids) (h.unlink hT hp hl hmap hleaf) (hroot.congr ⟨_,hv⟩) hp'
    (unlink_complete hl hmap) hks hrec
  rw [hd] at hsaved
  exact hsaved.congr ⟨_,hv⟩

end Unlink

end Micron.Filesys

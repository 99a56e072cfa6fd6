import Micron.Filesys.Frame
import Micron.Filesys.Rmdir
import Micron.Filesys.Sectors
import Micron.Kernel.ScacheCycle

/-! # What saving a directory changes on the disk

`mfs_snode` gets the record of the node and of every child through the sector cache, fills it
there and writes its block back, one after the other. While recycling spares the heads of
the lists of the cache, every step changes the bytes of its own record and no others.
-/
namespace Micron.Filesys
open Function Bytes Kernel Scache Prog Runs
variable {E : Env} {bs : BlkSizes} {C : Content} {T : Table} {s t : State} {X : State → Prop} {p q : VPtr}
  {c : Scache} {qs : List VPtr} {l : List ℕ} {n : ℕ}

/-! ## A cache that agrees with the disk -/

/-- Every cached block agrees with the disk. -/
def Synced (E : Env) (bs : BlkSizes) (c : Scache) : Prop := Cached E bs (contentOf bs E.devs c.disk) c

theorem boot_synced (E : Env) (bs : BlkSizes) (disk : ℕ → ℕ → UInt8) : Synced E bs (Scache.boot disk) :=
  ⟨_,boot_coherent⟩

/-- All blocks are on the disk. -/
theorem Synced.of_onDisk (hc : Cached E bs C c)
    (hd : ∀ d b, (volume bs E.devs).ok d b → c.OnDisk (volume bs E.devs) C d b) : Synced E bs c := by
  obtain ⟨L,hL⟩ := hc
  exact ⟨L,hL.congr (fun d b hok k hk => hd d b hok k hk)⟩

/-- What would be dropped by a miss is on the disk. -/
theorem Synced.clean {L : ℕ → List ℕ} (h : c.Coherent (volume bs E.devs) (contentOf bs E.devs c.disk) L)
    (hfull : c.alist.cnt = NSECACHS) : c.Clean (volume bs E.devs) c.alist.begin := by
  obtain ⟨i,hi⟩ := Option.ne_none_iff_exists'.mp (h.inv.closed.begin_some (by rw [hfull]; decide))
  rw [hi]
  exact h.cached i (h.inv.closed.begin_lt i hi)

theorem Table.On.mfsGet_spares {node : UInt32} (h : T.On E bs C) (hn : node.toNat < T.count) (hs : Synced E bs s.scache)
    (hspare : s.scache.SparesHeads T.dev.toNat (T.blk bs node.toNat)) :
    wp (Filesys.mfsGet E T.sb T.dev node) (fun ip t => ∃ c, t = { s with scache := c } ∧
      Cached E bs (contentOf bs E.devs s.scache.disk) c ∧ c.disk = s.scache.disk ∧ T.Points bs ip c node.toNat) X s := by
  obtain ⟨L,hL⟩ := hs
  have hvalid := h.valid _ hn
  obtain ⟨i,L',c,hget,hcoh,hgot⟩ := hL.get (g := bs.request T.dev.toNat (T.blk bs node.toNat)) hvalid
    (volume_fits hvalid (h.blk_ne _)) h.usable.open_ok hspare (fun _ hfull => Synced.clean hL hfull)
  rw [h.mfsGet_eq,wp_bind,wp_scacheGet h.usable,h.blk_eq hn]
  rw [show Scache.scacheGet E.devs T.dev.toNat (T.blk bs node.toNat) (bs.size T.dev.toNat) s.scache = _ from hget]
  exact ⟨c,rfl,⟨L',hcoh⟩,hgot.disk,rfl,i,rfl,hgot.lt,hgot.src⟩

/-! ## One record -/

def Table.current (T : Table) (E : Env) (bs : BlkSizes) (s : State) : Table := { T with record := T.stored E bs s }

theorem Table.On.current (h : T.On E bs C) (s : State) :
    (T.current E bs s).On E bs (contentOf bs E.devs s.scache.disk) :=
  ⟨h.usable,h.len_pos,h.base_eq,h.base_pos,h.count_le,h.valid,fun _ _ => rfl⟩

def Table.Covers (bs : BlkSizes) (T : Table) (n a : ℕ) : Prop :=
  (bs.request T.dev.toNat (T.blk bs n)).addr + T.off bs n ≤ a ∧
    a < (bs.request T.dev.toNat (T.blk bs n)).addr + T.off bs n + INODESZ

def State.firstChild (s : State) (q : VPtr) : UInt32 :=
  match (s.vnode q).child with
  | .null | .err => 0
  | .ino n => n
  | c => (s.vnode c).ino

/-- The link to the first child is empty, a number, or the address of a vnode that knows its
parent. -/
def ChildLink (s : State) (q : VPtr) : Prop :=
  (s.vnode q).child = .null ∨ (∃ n, (s.vnode q).child = .ino n) ∨
    (s.vnode q).child.isNode ∧ (s.vnode (s.vnode q).child).parent = q

theorem ChildLink.childNum_eq (h : ChildLink s q) : s.childNum E q = s.firstChild q := by
  unfold State.childNum State.firstChild
  rcases h with h | ⟨n,h⟩ | ⟨hnode,hpar⟩
  · rw [h]
    rfl
  · rw [h]
    rfl
  · rw [hpar,hnode,decide_eq_true rfl]
    cases hc : (s.vnode q).child <;> rw [hc] at hnode <;> first | rfl | cases hnode

def State.savedRecord (s : State) (p q : VPtr) (r : Inode) : Inode :=
  r.save (s.vnode q) (s.numOf (s.vnode q).next) (if q = p then r.parent else (s.vnode p).ino) (s.firstChild q)

def saveRecord (E : Env) (sb : Sblk) (node q : VPtr) : K Unit := do
  let _ ← saveNode E sb node q (decide (q ≠ node))
  let v ← vnode q
  mfsPut E sb (← vnode node).dev v.ino

/-- The disk after the records of `qs` have been saved: they have the attributes and links of
the vnodes, and no other byte of any device has changed. -/
structure Saves (E : Env) (bs : BlkSizes) (T : Table) (s : State) (p : VPtr) (qs : List VPtr) (t : State) : Prop where
  same : t = { s with scache := t.scache }
  synced : Synced E bs t.scache
  record : ∀ q ∈ qs, T.stored E bs t (s.ino q) = s.savedRecord p q (T.stored E bs s (s.ino q))
  others : ∀ n < T.count, n ∉ qs.map s.ino → T.stored E bs t n = T.stored E bs s n
  frame : ∀ d a, (∀ q ∈ qs, ¬ (d = T.dev.toNat ∧ T.Covers bs (s.ino q) a)) → t.scache.disk d a = s.scache.disk d a

theorem saveRecord_spec (hT : T.On E bs C) (hs : Synced E bs s.scache) (hp : p.isNode)
    (hdev : (s.vnode p).dev = T.dev) (hq : Savable T s q) (hchild : ChildLink s q)
    (hspare : s.scache.SparesHeads T.dev.toNat (T.blk bs (s.ino q))) :
    wp (saveRecord E T.sb p q) (fun _ t => Saves E bs T s p [q] t) (fun _ => False) s := by
  have hfalse : ∀ s t : State, s ≤ t → False → False := fun _ _ _ => id
  have hends : Ends (fun _ => False) (saveRecord E T.sb p q) (fun _ t => Saves E bs T s p [q] t) s := by
    refine Ends.bind hfalse (saveNode_of_get (T := T.current E bs s) hfalse (hT.current s) hp hdev
      ⟨hq.isNode,hq.lt,hq.str,hq.next⟩ (Ends.of_wp ((hT.current s).mfsGet_spares hq.lt hs hspare))) ?_
    rintro ip _ - ⟨f,c,rfl,hc,hdisk,hframe,hon,i,hent⟩
    unfold Ends
    rw [wp_bind,wp_vnode hq.isNode,wp_bind,wp_vnode hp]
    dsimp only
    rw [hdev]
    refine Ends.mono (mfsPut_spec (T := (T.current E bs s).save E s p q (decide (q ≠ p))) hfalse
      (s := { s with scache := c }) hon hc hq.lt hent) ?_
    rintro _ t - ⟨c',rfl,hc',hnew,hkeep,hout⟩
    change c'.OnDisk (volume bs E.devs) ((contentOf bs E.devs s.scache.disk).set T.dev.toNat (T.blk bs (s.ino q)) f)
      T.dev.toNat (T.blk bs (s.ino q)) at hnew
    have hall : ∀ d b, (volume bs E.devs).ok d b → c'.OnDisk (volume bs E.devs)
        ((contentOf bs E.devs s.scache.disk).set T.dev.toNat (T.blk bs (s.ino q)) f) d b := by
      intro d b hok
      by_cases he : (d,b) = (T.dev.toNat,(T.blk bs (s.ino q) : ℤ))
      · obtain ⟨rfl,rfl⟩ := Prod.mk.inj he
        exact hnew
      · refine hkeep d b hok (fun k _ => ?_)
        change c.disk d _ = (contentOf bs E.devs s.scache.disk).set T.dev.toNat (T.blk bs (s.ino q)) f d b k
        rw [Content.set_of_ne f he]
        exact congrFun (congrFun hdisk d) _
    have hread := (hon.of_disk (fun n hn => hall _ _ (hT.valid n hn))).read
    refine ⟨rfl,Synced.of_onDisk hc' hall,?_,?_,?_⟩
    · intro q' hq'
      obtain rfl := List.mem_singleton.mp hq'
      refine (hread _ hq.lt).trans ((update_self _ _ _).trans ?_)
      rw [hchild.childNum_eq,State.savedRecord]
      by_cases hpq : q' = p
      · rw [if_neg (by simp [hpq]),if_pos hpq]
        rfl
      · rw [if_pos (by simp [hpq]),if_neg hpq]
        rfl
    · intro n hn hne
      exact (hread n hn).trans (update_of_ne (by simpa using hne) _ _)
    · intro d a hnot
      have hnot' := hnot q List.mem_cons_self
      by_cases hin : d = T.dev.toNat ∧ (bs.request T.dev.toNat (T.blk bs (s.ino q))).addr ≤ a ∧
          a < (bs.request T.dev.toNat (T.blk bs (s.ino q))).addr + T.len bs
      · obtain ⟨rfl,hle,hlt⟩ := hin
        obtain ⟨k,rfl⟩ := Nat.exists_eq_add_of_le hle
        have hk : k < T.len bs := by omega
        have hnew' := hnew k (by rw [volume_size (hT.blk_ne _)]; exact hk)
        rw [Content.set_self] at hnew'
        refine hnew'.trans (hframe k hk ?_)
        by_contra hcov
        refine hnot' ⟨rfl,?_⟩
        unfold Table.Covers
        change ¬ (k < T.off bs (s.ino q) ∨ T.off bs (s.ino q) + INODESZ ≤ k) at hcov
        omega
      · refine (hout d a (fun hd => ?_)).trans (congrFun (congrFun hdisk d) a)
        by_contra hcov
        refine hin ⟨hd,?_⟩
        subst hd
        change ¬ (a < (bs.request T.dev.toNat (T.blk bs (s.ino q))).addr ∨
          (bs.request T.dev.toNat (T.blk bs (s.ino q))).addr + T.len bs ≤ a) at hcov
        omega
  exact wp.mono hends (fun _ _ _ h => h.resolve_left id) (fun _ _ h => h)

/-! ## The node and its children -/

def saveRecords (E : Env) (sb : Sblk) (p : VPtr) : List VPtr → K Unit
  | [] => pure ()
  | q :: qs => do
    saveRecord E sb p q
    saveRecords E sb p qs

section Loop
variable {sb : Sblk} {u : State} {ip : IPtr}

/-- Saving a record leaves all vnodes alone. -/
theorem saveNode_vnode {child : Bool} {r : Except Stop IPtr} (h : (saveNode E sb p q child).run s = (r,u)) :
    u.vnode = s.vnode ∧ u.vlist = s.vlist := by
  have hv : ((saveNode E sb p q child).run s).2.vnode = s.vnode := Blind.saveNode (fun _ _ => rfl) p q child s
  have hl : ((saveNode E sb p q child).run s).2.vlist = s.vlist := Blind.saveNode (fun _ _ => rfl) p q child s
  rw [h] at hv hl
  exact ⟨hv,hl⟩

theorem mfsPut_vnode {dev node : UInt32} {r : Except Stop Unit} (h : (mfsPut E sb dev node).run s = (r,u)) :
    u.vnode = s.vnode ∧ u.vlist = s.vlist := by
  have hv : ((mfsPut E sb dev node).run s).2.vnode = s.vnode := Blind.mfsPut (fun _ _ => rfl) dev node s
  have hl : ((mfsPut E sb dev node).run s).2.vlist = s.vlist := Blind.mfsPut (fun _ _ => rfl) dev node s
  rw [h] at hv hl
  exact ⟨hv,hl⟩

theorem vnode_run_eq (hp : p.isNode) : (vnode p).run s = (.ok (s.vnode p),s) := by
  rw [vnode,if_pos hp]
  rfl

theorem saveRecord_error {e : Stop} (h : (saveNode E sb p q (decide (q ≠ p))).run s = (.error e,u)) :
    (saveRecord E sb p q).run s = (.error e,u) := run_bind_error h

theorem saveRecord_run (hp : p.isNode) (hq : q.isNode) (h : (saveNode E sb p q (decide (q ≠ p))).run s = (.ok ip,u)) :
    (saveRecord E sb p q).run s = (mfsPut E sb (s.vnode p).dev (s.vnode q).ino).run u := by
  rw [saveRecord,run_bind h,run_bind (vnode_run_eq hq),run_bind (vnode_run_eq hp),(saveNode_vnode h).1]

/-- The loop over the children saves one record after the other. -/
theorem snodeLoop_eq {fuel : ℕ} (hp : p.isNode) (hl : Sibs s p q l) (hne : l ≠ []) (hself : ∀ j ∈ l, VPtr.vc j ≠ p)
    (hfuel : l.length ≤ fuel) : (snodeLoop E sb p fuel q).run s = (saveRecords E sb p (l.map .vc)).run s := by
  induction l generalizing s q fuel with
  | nil => exact absurd rfl hne
  | cons j l ih =>
    obtain ⟨rfl,hj,hpar,hexp,hl⟩ := hl
    cases fuel with
    | zero => simp at hfuel
    | succ fuel =>
      have hnode : VPtr.isNode (.vc j) := rfl
      have hchild : decide (VPtr.vc j ≠ p) = true := decide_eq_true (hself j List.mem_cons_self)
      rw [snodeLoop,List.map_cons,saveRecords]
      rcases hr : (saveNode E sb p (.vc j) true).run s with ⟨e | ip,u⟩
      · rw [run_bind_error hr,run_bind_error (saveRecord_error (by rw [hchild]; exact hr))]
      · obtain ⟨hv,hvl⟩ := saveNode_vnode hr
        have hrec := saveRecord_run hp hnode (by rw [hchild]; exact hr)
        rw [run_bind hr,run_bind (vnode_run_eq hnode),hv,if_neg (not_not.mpr hexp),run_bind (vnode_run_eq hp),hv]
        rcases hput : (mfsPut E sb (s.vnode p).dev (s.vnode (.vc j)).ino).run u with ⟨e | x,w⟩
        · rw [run_bind_error hput,run_bind_error (hrec.trans hput)]
        · obtain ⟨hv',hvl'⟩ := mfsPut_vnode hput
          rw [run_bind hput,run_bind (hrec.trans hput)]
          have hvw : w.vnode = s.vnode := hv'.trans hv
          have hlw : Sibs w p (s.vnode (.vc j)).next l :=
            hl.congr (by rw [hvl',hvl]) (fun _ _ _ => by rw [hvw]; exact ⟨rfl,rfl,rfl⟩)
          cases l with
          | nil =>
            rw [if_pos (by exact hl)]
            rfl
          | cons k l =>
            rw [if_neg (by simp [hl.1])]
            exact ih hlw (by simp) (fun m hm => hself m (List.mem_cons_of_mem _ hm)) (by simpa using hfuel)

theorem mfsSnode_eq (hp : p.isNode) (hl : Sibs s p (s.vnode p).child l) (hself : ∀ j ∈ l, VPtr.vc j ≠ p)
    (hfuel : l.length ≤ E.fuel) : (mfsSnode E sb p).run s = (saveRecords E sb p (p :: l.map .vc)).run s := by
  have hself' : decide (p ≠ p) = false := decide_eq_false (fun h => h rfl)
  rw [mfsSnode,saveRecords]
  rcases hr : (saveNode E sb p p false).run s with ⟨e | ip,u⟩
  · rw [run_bind_error hr,run_bind_error (saveRecord_error (by rw [hself']; exact hr))]
  · obtain ⟨hv,hvl⟩ := saveNode_vnode hr
    have hrec := saveRecord_run hp hp (by rw [hself']; exact hr)
    rw [run_bind hr,run_bind (vnode_run_eq hp),hv]
    rcases hput : (mfsPut E sb (s.vnode p).dev (s.vnode p).ino).run u with ⟨e | x,w⟩
    · rw [run_bind_error hput,run_bind_error (hrec.trans hput)]
    · obtain ⟨hv',hvl'⟩ := mfsPut_vnode hput
      rw [run_bind hput,run_bind (hrec.trans hput)]
      have hvw : w.vnode = s.vnode := hv'.trans hv
      have hlw : Sibs w p (s.vnode p).child l :=
        hl.congr (by rw [hvl',hvl]) (fun _ _ _ => by rw [hvw]; exact ⟨rfl,rfl,rfl⟩)
      cases l with
      | nil =>
        rw [if_pos (by exact hl)]
        rfl
      | cons k l =>
        rw [if_neg (by rw [hl.1]; exact nofun)]
        exact snodeLoop_eq hp hlw (by simp) hself hfuel

end Loop

/-! ## Whole directories -/

def saveStep (E : Env) (sb : Sblk) (p : VPtr) (s : State) (q : VPtr) : Option State :=
  match (saveRecord E sb p q).run s with
  | (.ok _,t) => some t
  | (.error _,_) => none

/-- The name of `q` fits into its record, and getting the block of the record does not recycle
the head of a list. -/
def SafeSave (bs : BlkSizes) (T : Table) (s : State) (q : VPtr) : Prop :=
  (s.vnode q).str.length < NVNAMLEN ∧ s.scache.SparesHeads T.dev.toNat (T.blk bs (s.ino q))

structure Directory (T : Table) (s : State) (p : VPtr) (l : List ℕ) : Prop where
  isNode : p.isNode
  dev : (s.vnode p).dev = T.dev
  next : (s.vnode p).next = .null ∨ (s.vnode p).next.isNode
  sibs : Sibs s p (s.vnode p).child l
  nodup : ((p :: l.map .vc).map s.ino).Nodup
  lt : ∀ q ∈ p :: l.map .vc, s.ino q < T.count
  link : ∀ j ∈ l, ChildLink s (.vc j)

theorem Saves.trans {u : State} (h : Saves E bs T s p [q] t) (h' : Saves E bs T t p qs u) (hq : s.ino q < T.count)
    (hlt : ∀ q' ∈ qs, s.ino q' < T.count) (hnot : s.ino q ∉ qs.map s.ino) : Saves E bs T s p (q :: qs) u := by
  obtain ⟨c,rfl⟩ : ∃ c, t = { s with scache := c } := ⟨_,h.same⟩
  have hino : State.ino { s with scache := c } = s.ino := rfl
  refine ⟨h'.same,h'.synced,?_,?_,?_⟩
  · intro q' hq'
    rcases List.mem_cons.mp hq' with rfl | hq'
    · exact (h'.others _ hq (by rw [hino]; exact hnot)).trans (h.record _ List.mem_cons_self)
    · have hne : s.ino q' ≠ s.ino q := fun he => hnot (List.mem_map.mpr ⟨q',hq',he⟩)
      refine (h'.record q' hq').trans ?_
      rw [hino,h.others _ (hlt q' hq') (by simpa using hne)]
      rfl
  · intro n hn hmem
    rw [List.map_cons,List.mem_cons,not_or] at hmem
    rw [h'.others n hn (by rw [hino]; exact hmem.2),h.others n hn (by simpa using hmem.1)]
  · intro d a hall
    rw [h'.frame d a (fun q' hq' => hall q' (List.mem_cons_of_mem _ hq'))]
    exact h.frame d a (fun q' hq' => hall q' (by rw [List.mem_singleton.mp hq']; exact List.mem_cons_self))

/-- When every step ends and saves its record, so does the whole run. -/
theorem saveRecords_run {P : State → List VPtr → Prop} (hlt : ∀ q ∈ qs, s.ino q < T.count) (hnd : (qs.map s.ino).Nodup)
    (hP : P s qs) (hsync : Synced E bs s.scache) (hstep : ∀ c, ∀ q ∈ qs, ∀ qs', Synced E bs c →
      P { s with scache := c } (q :: qs') → ∃ t, (saveRecord E T.sb p q).run { s with scache := c } = (.ok (),t) ∧
        Saves E bs T { s with scache := c } p [q] t ∧ P t qs') :
    ∃ t, (saveRecords E T.sb p qs).run s = (.ok (),t) ∧ Saves E bs T s p qs t ∧ P t [] := by
  induction qs generalizing s with
  | nil =>
    exact ⟨s,rfl,⟨rfl,hsync,fun _ h => absurd h List.not_mem_nil,fun _ _ _ => rfl,fun _ _ _ => rfl⟩,hP⟩
  | cons q qs ih =>
    obtain ⟨hnot,hnd⟩ := List.nodup_cons.mp hnd
    obtain ⟨t,hrun,hsave,hP⟩ := hstep s.scache q List.mem_cons_self qs hsync hP
    obtain ⟨c,rfl⟩ : ∃ c, t = { s with scache := c } := ⟨_,hsave.same⟩
    obtain ⟨u,hu,hsaves,hPu⟩ := ih (s := { s with scache := c }) (fun q' hq' => hlt q' (List.mem_cons_of_mem _ hq')) hnd hP
      hsave.synced
      (fun c' q' hq' => hstep c' q' (List.mem_cons_of_mem _ hq'))
    refine ⟨u,?_,hsave.trans hsaves (hlt q List.mem_cons_self) (fun q' hq' => hlt q' (List.mem_cons_of_mem _ hq')) hnot,hPu⟩
    rw [saveRecords,run_bind hrun]
    exact hu

theorem saveRecords_saves (hT : T.On E bs C) (hs : Synced E bs s.scache) (hp : p.isNode) (hdev : (s.vnode p).dev = T.dev)
    (hq : ∀ q ∈ qs, q.isNode ∧ s.ino q < T.count ∧ ((s.vnode q).next = .null ∨ (s.vnode q).next.isNode) ∧ ChildLink s q)
    (hnd : (qs.map s.ino).Nodup) (hok : AllSteps (saveStep E T.sb p) (SafeSave bs T) s qs) :
    ∃ t, (saveRecords E T.sb p qs).run s = (.ok (),t) ∧ Saves E bs T s p qs t := by
  have hstep : ∀ c, ∀ q ∈ qs, ∀ qs', Synced E bs c →
      AllSteps (saveStep E T.sb p) (SafeSave bs T) { s with scache := c } (q :: qs') →
      ∃ t, (saveRecord E T.sb p q).run { s with scache := c } = (.ok (),t) ∧
        Saves E bs T { s with scache := c } p [q] t ∧ AllSteps (saveStep E T.sb p) (SafeSave bs T) t qs' := by
    intro c q hmem qs' hc hall
    obtain ⟨hnode,hlt,hnext,hlink⟩ := hq q hmem
    obtain ⟨hstr,hspare⟩ := hall.head
    obtain ⟨_,t,hrun,hsave⟩ := (saveRecord_spec (s := { s with scache := c }) hT hc hp hdev ⟨hnode,hlt,hstr,hnext⟩
      hlink hspare).run
    refine ⟨t,hrun,hsave,hall.tail ?_⟩
    simp only [saveStep,hrun]
  obtain ⟨t,hrun,hsaves,-⟩ := saveRecords_run (fun q hmem => (hq q hmem).2.1) hnd hok hs hstep
  exact ⟨t,hrun,hsaves⟩

namespace Directory
variable (h : Directory T s p l)
include h

theorem ne_self {j : ℕ} (hj : j ∈ l) : VPtr.vc j ≠ p := by
  rintro rfl
  exact (List.nodup_cons.mp h.nodup).1 (List.mem_map_of_mem (List.mem_map_of_mem hj))

theorem link_self : ChildLink s p := by
  have hl := h.sibs
  cases l with
  | nil => exact Or.inl hl
  | cons j l =>
    obtain ⟨hc,-,hpar,-⟩ := hl
    exact Or.inr (Or.inr (by rw [hc]; exact ⟨rfl,hpar⟩))

theorem savable (hq : q ∈ p :: l.map .vc) :
    q.isNode ∧ s.ino q < T.count ∧ ((s.vnode q).next = .null ∨ (s.vnode q).next.isNode) ∧ ChildLink s q := by
  have hlt := h.lt q hq
  rcases List.mem_cons.mp hq with rfl | hq
  · exact ⟨h.isNode,hlt,h.next,h.link_self⟩
  · obtain ⟨j,hj,rfl⟩ := List.mem_map.mp hq
    obtain ⟨l',hl'⟩ := h.sibs.next hj
    exact ⟨rfl,hlt,hl'.null_or_node,h.link j hj⟩

end Directory

theorem wp_sync_hit {Q : ℤ → State → Prop} {dev : UInt32} {blk blksize : Int32} {i : ℕ} (h : Usable E bs dev blksize)
    (hseek : s.scache.scacheSeek (s.scache.clist (slot dev.toNat)) blk.toInt = some (some i))
    (hQ : ∀ d k, Q 0 { s with scache := { s.scache with disk := d, pos := k } }) :
    wp (scacheSync E dev blk blksize) Q X s := by
  obtain ⟨d,k,hsync⟩ := scacheSync_hit (D := E.devs) (n := bs.size dev.toNat) hseek h.open_ok
  rw [wp_scacheSync h,hsync]
  exact hQ d k

section Cycle
variable {i : ℕ} (hT : T.On E bs C) (hp : p.isNode) (hdev : (s.vnode p).dev = T.dev) (hq : Savable T s q)
include hT hp hdev hq

/-- Saving a record takes the links of the cache where `scache_get` takes them. -/
theorem saveRecord_get (hget : Scache.scacheGet E.devs T.dev.toNat (T.blk bs (s.ino q)) (bs.size T.dev.toNat) s.scache =
      some (some i,c)) (hseek : c.scacheSeek (c.clist (slot T.dev.toNat)) (T.blk bs (s.ino q)) = some (some i)) :
    ∃ f d k, (saveRecord E T.sb p q).run s = (.ok (),{ s with scache := { c with buf := f, disk := d, pos := k } }) := by
  have hle : T.off bs (s.ino q) + INODESZ ≤ NMXBLKSZ := Nat.le_trans (hT.off_le _) (bs.supported _)
  have hblk : (T.sb.iblk + (INODESZ.toUInt32 * (s.vnode q).ino / T.sb.blksize.toUInt32).toInt32).toInt =
      T.blk bs (s.ino q) := hT.blk_eq hq.lt
  have hwp : wp (saveRecord E T.sb p q) (fun _ t => ∃ f d k,
      t = { s with scache := { c with buf := f, disk := d, pos := k } }) (fun _ => False) s := by
    rw [saveRecord,wp_bind,saveNode,wp_bind,wp_vnode hq.isNode,wp_bind,wp_vnode hp,hdev,wp_bind,hT.mfsGet_eq,wp_bind,
      wp_scacheGet hT.usable,hblk,hget]
    refine (wp_saveNode (s := { s with scache := c }) hp ⟨hq.isNode,hq.lt,hq.str,hq.next⟩ rfl hle).mpr ?_
    rw [wp_bind,wp_vnode hq.isNode,wp_bind,wp_vnode hp]
    dsimp only
    rw [hdev,hT.mfsPut_eq,wp_bind]
    exact wp_sync_hit hT.usable (by rw [hblk]; exact hseek) (fun d k => ⟨_,d,k,rfl⟩)
  obtain ⟨_,t,hrun,f,d,k,rfl⟩ := hwp.run
  exact ⟨f,d,k,hrun⟩

theorem saveRecord_hang (hget : Scache.scacheGet E.devs T.dev.toNat (T.blk bs (s.ino q)) (bs.size T.dev.toNat) s.scache =
      none) : (saveRecord E T.sb p q).run s = (.error .hang,s) := by
  refine saveRecord_error ?_
  rw [saveNode,run_bind (vnode_run_eq hq.isNode),run_bind (vnode_run_eq hp),hdev,hT.mfsGet_eq]
  refine run_bind_error (run_bind_error ?_)
  have hblk : (T.sb.iblk + (INODESZ.toUInt32 * (s.vnode q).ino / T.sb.blksize.toUInt32).toInt32).toInt =
      T.blk bs (s.ino q) := hT.blk_eq hq.lt
  rw [scacheGet,if_neg hT.usable.bounds]
  simp only [cached,step,hblk,Machine.toNatClampNeg_eq hT.usable.size_eq,hget]

end Cycle

/-- In a run of `mfs_snode` all of whose steps find a name that fits and spare the heads of the
lists, the disk ends up with the records of the node and of its children, and nothing else
changes on any device. -/
theorem snode_saves (E : Env) (bs : BlkSizes) (T : Table) (s : State) (p : VPtr) (l : List ℕ)
    (hT : T.On E bs (contentOf bs E.devs s.scache.disk)) (hs : Synced E bs s.scache) (hdir : Directory T s p l)
    (hfuel : l.length ≤ E.fuel) (hok : AllSteps (saveStep E T.sb p) (SafeSave bs T) s (p :: l.map .vc)) :
    ∃ t, (mfsSnode E T.sb p).run s = (.ok (),t) ∧ Saves E bs T s p (p :: l.map .vc) t := by
  rw [mfsSnode_eq hdir.isNode hdir.sibs (fun _ hj => hdir.ne_self hj) hfuel]
  exact saveRecords_saves hT hs hdir.isNode hdir.dev (fun _ hq => hdir.savable hq) hdir.nodup hok

/-! ## A directory whose records go through a full cache -/

def kidEnv : Env := ⟨anyDevs,fun _ => 0,fun _ => 0,2⟩

/-- Record 4 has a name. -/
def kidDisk (_ a : ℕ) : UInt8 := if a = 1024 then 88 else 0

def kidTable : Table := sectorTable kidDisk 2404

/-- The directory of inode 2396 with the children `a` and `bc`. -/
def kidVnode : VPtr → Vnode
  | .root 0 => { Vnode.zero with ino := 2396, mode := 0x41ed, nlink := 3, child := .vc 0 }
  | .root 1 => { Vnode.zero with ino := 2396 }
  | .vc 0 => ⟨fun k => [97].getD k 0,0,2400,0x81a4,1,2,3,4,1000,5,6,7,8,9,.vc 1,.root 0,.null,.null⟩
  | .vc 1 => ⟨fun k => [98,99].getD k 0,0,5,0x41ed,2,10,11,0,0,12,13,14,0,0,.null,.root 0,.null,.null⟩
  | _ => Vnode.zero

def kidState (c : Scache) : State :=
  { State.boot kidDisk with scache := c, vlist := AllocList.boot.append.append, vnode := kidVnode }

theorem forall_kids {P : VPtr → Prop} (h : P (.root 0)) (h0 : P (.vc 0)) (h1 : P (.vc 1)) :
    ∀ q ∈ [VPtr.root 0,.vc 0,.vc 1], P q :=
  List.forall_mem_cons.mpr ⟨h,List.forall_mem_cons.mpr ⟨h0,List.forall_mem_singleton.mpr h1⟩⟩

theorem kid_str : ∀ q ∈ [VPtr.root 0,.vc 0,.vc 1], (kidVnode q).str.length < NVNAMLEN :=
  forall_kids (by decide) (by decide) (by decide)

theorem kid_directory (c : Scache) : Directory kidTable (kidState c) (.root 0) [0,1] where
  isNode := rfl
  dev := rfl
  next := Or.inl rfl
  sibs := ⟨rfl,show 0 < 2 by decide,rfl,rfl,rfl,show 1 < 2 by decide,rfl,rfl,rfl⟩
  nodup := show [2396,2400,5].Nodup by decide
  lt := forall_kids (show 2396 < 2404 by decide) (show 2400 < 2404 by decide) (show 5 < 2404 by decide)
  link := List.forall_mem_cons.mpr ⟨Or.inl rfl,List.forall_mem_singleton.mpr (Or.inl rfl)⟩

/-- A record in a block behind the first sectors goes into entry 0. -/
theorem kid_step {c : Scache} {b : ℤ} (h : c.Rolling b) (b' : ℕ) (hq : q ∈ [VPtr.root 0,.vc 0,.vc 1])
    (hb : 1 + (kidState c).ino q / 4 = b') (hle : 511 ≤ (b' : ℤ)) (hne : b ≠ b') :
    ∃ c', saveStep kidEnv kidTable.sb (.root 0) (kidState c) q = some (kidState c') ∧ c'.Rolling b' := by
  obtain ⟨c₁,hget,-,hroll⟩ := h.get b' hle hne
  obtain ⟨L,hinv⟩ := hroll.inv
  have hon : kidTable.On kidEnv sectorSizes (contentOf sectorSizes anyDevs kidDisk) := sectorTable_on rfl (by decide)
  obtain ⟨hnode,hlt,hnext,-⟩ := (kid_directory c).savable hq
  have hblk : kidTable.blk sectorSizes ((kidState c).ino q) = b' := sectorTable_blk.trans hb
  subst hblk
  obtain ⟨f,d,k,hrun⟩ := saveRecord_get (s := kidState c) (p := .root 0) hon rfl rfl ⟨hnode,hlt,kid_str q hq,hnext⟩ hget
    (hinv.seek_of_src (by rw [hroll.cnt]; decide) hroll.zero)
  refine ⟨{ c₁ with buf := f, disk := d, pos := k },?_,hroll.touch f d k⟩
  rw [saveStep,hrun]
  rfl

theorem synced_of_gets {gs : List Get} {disk : ℕ → ℕ → UInt8}
    (hgs : ∀ g ∈ gs, g.Valid E.devs ∧ g.Fits (volume bs E.devs) ∧ E.devs.openOk g.dev) (hlen : gs.length ≤ NSECACHS)
    (hrun : getRun E.devs disk gs = some c) : Synced E bs c := by
  obtain ⟨_,hboot⟩ := boot_synced E bs disk
  obtain ⟨c',L,hrun',hcoh,hdisk⟩ := hboot.gets hgs (by simpa [boot,AllocList.boot] using hlen)
  obtain rfl : c' = c := Option.some.inj (hrun'.symm.trans hrun)
  refine ⟨L,?_⟩
  rw [hdisk]
  exact hcoh

/-- In a full table the records of the node and of the first child recycle the same entry, which
is not the head of its list. -/
theorem snode_saves_kids : ∃ c, getRun anyDevs kidDisk (oneThenSectors 0 NSECACHS 0 511) = some c ∧
    c.alist.cnt = NSECACHS ∧ ∃ t, (mfsSnode kidEnv kidTable.sb (.root 0)).run (kidState c) = (.ok (),t) ∧
      Saves kidEnv sectorSizes kidTable (kidState c) (.root 0) [.root 0,.vc 0,.vc 1] t := by
  obtain ⟨c,L,hrun,hfill,hdisk⟩ := oneThenSectors_prefix (d := 0) (e := 0) (b := NSECACHS) (n := 511) kidDisk (by decide)
    (by decide) (by decide) (fun j hj he => by
      have hjb : (NSECACHS : ℤ) = j := (Prod.mk.inj he).2
      have hlt : NSECACHS = 512 := rfl
      omega) (List.prefix_refl _)
  have hroll : c.Rolling NSECACHS := hfill.rolling (by decide)
  have hon : kidTable.On kidEnv sectorSizes (contentOf sectorSizes anyDevs c.disk) := by
    rw [hdisk]
    exact sectorTable_on rfl (by decide)
  have hsynced : Synced kidEnv sectorSizes c := by
    refine synced_of_gets (fun g hg => ?_) (by simp [oneThenSectors,NSECACHS]) hrun
    have hvalid := oneThenSectors_valid (by decide) (by decide) (by decide) (by decide) (by decide) g hg
    have hg' : g = sectorSizes.request 0 g.blk := by
      rcases List.mem_cons.mp hg with rfl | hg
      · rfl
      · obtain ⟨j,-,rfl⟩ := List.mem_map.mp hg
        rfl
    rw [hg'] at hvalid ⊢
    exact ⟨hvalid,fits_volume hvalid (by decide),rfl⟩
  refine ⟨c,hrun,hroll.cnt,snode_saves kidEnv sectorSizes kidTable (kidState c) (.root 0) [0,1] hon hsynced
    (kid_directory c) (Nat.le_refl 2) ?_⟩
  refine allSteps_cons ⟨kid_str _ (by simp),fun _ _ => hroll.begin_eq ▸ hroll.spare⟩ (fun t ht => ?_)
  obtain ⟨c₁,hstep,hroll₁⟩ := kid_step (q := .root 0) hroll 600 (by simp) (show 1 + 2396 / 4 = 600 by decide)
    (by decide) (by decide)
  obtain rfl : kidState c₁ = t := Option.some.inj (hstep.symm.trans ht)
  refine allSteps_cons ⟨kid_str _ (by simp),fun _ _ => hroll₁.begin_eq ▸ hroll₁.spare⟩ (fun t ht => ?_)
  obtain ⟨c₂,hstep,hroll₂⟩ := kid_step (q := .vc 0) hroll₁ 601 (by simp) (show 1 + 2400 / 4 = 601 by decide)
    (by decide) (by decide)
  obtain rfl : kidState c₂ = t := Option.some.inj (hstep.symm.trans ht)
  exact allSteps_cons ⟨kid_str _ (by simp),fun _ _ => hroll₂.begin_eq ▸ hroll₂.spare⟩ (fun _ _ => allSteps_nil)

/-! ## A table without room -/

/-- Vnodes for a node with records in blocks that take the cache round: a miss, a hit and two
blocks more. -/
def crowdState (c : Scache) : State :=
  { State.boot (fun _ _ => 0) with
    scache := c
    vlist := AllocList.boot.append.append.append
    vnode := fun q => match q with
      | .root 0 => { Vnode.zero with ino := 2396, child := .vc 0 }
      | .vc 0 => { Vnode.zero with ino := 8, parent := .root 0, next := .vc 1 }
      | .vc 1 => { Vnode.zero with ino := 1, parent := .root 0, next := .vc 2 }
      | .vc 2 => { Vnode.zero with ino := 12, parent := .root 0 }
      | _ => Vnode.zero }

def crowdTable : Table := sectorTable (fun _ _ => 0) 2400

theorem crowd_directory (c : Scache) : Directory crowdTable (crowdState c) (.root 0) [0,1,2] where
  isNode := rfl
  dev := rfl
  next := Or.inl rfl
  sibs := ⟨rfl,show 0 < 3 by decide,rfl,rfl,rfl,show 1 < 3 by decide,rfl,rfl,rfl,show 2 < 3 by decide,rfl,rfl,rfl⟩
  nodup := show [2396,8,1,12].Nodup by decide
  lt q hq := by
    change q ∈ [VPtr.root 0,.vc 0,.vc 1,.vc 2] at hq
    simp only [List.mem_cons,List.not_mem_nil,or_false] at hq
    rcases hq with rfl | rfl | rfl | rfl
    · exact show 2396 < 2400 by decide
    · exact show 8 < 2400 by decide
    · exact show 1 < 2400 by decide
    · exact show 12 < 2400 by decide
  link j hj := by
    simp only [List.mem_cons,List.not_mem_nil,or_false] at hj
    rcases hj with rfl | rfl | rfl <;> exact Or.inl rfl

theorem crowd_savable {c : Scache} {q : VPtr} (hq : q ∈ [VPtr.root 0,.vc 0,.vc 1,.vc 2]) :
    Savable crowdTable (crowdState c) q := by
  obtain ⟨hnode,hlt,hnext,-⟩ := (crowd_directory c).savable hq
  refine ⟨hnode,hlt,?_,hnext⟩
  have hname : ((crowdState c).vnode q).name = Vnode.zero.name := by
    simp only [List.mem_cons,List.not_mem_nil,or_false] at hq
    rcases hq with rfl | rfl | rfl | rfl <;> rfl
  rw [Vnode.str,Vnode.bytes,hname,cstr_append_right (by decide)]
  decide

theorem crowd_synced {c : Scache} (hrun : getRun anyDevs (fun _ _ => 0) crowd = some c) :
    Synced anyEnv sectorSizes c := by
  refine synced_of_gets (fun g hg => ?_) (by simp [crowd]) hrun
  obtain ⟨i,hi,rfl⟩ := List.mem_map.mp hg
  have hlt : i < 512 := List.mem_range.mp hi
  have hbounds : 1 ≤ crowdBlk i ∧ crowdBlk i ≤ 513 := by
    unfold crowdBlk
    split_ifs <;> omega
  have hvalid : (sectorSizes.request 0 (crowdBlk i)).Valid anyEnv.devs := by
    refine ⟨show DevOk 0 by decide,?_,?_,fun _ => rfl⟩
    · dsimp only [BlkSizes.request]
      omega
    · dsimp only [BlkSizes.request,sectorSizes]
      rw [show 512 / 512 = 1 from rfl]
      omega
  exact ⟨hvalid,fits_volume hvalid (by decide),rfl⟩

theorem crowd_get {E : Env} {c c' : Scache} {q : VPtr} {b i : ℕ} (hE : E.devs = anyDevs)
    (hq : q ∈ [VPtr.root 0,.vc 0,.vc 1,.vc 2]) (hb : 1 + (crowdState c).ino q / 4 = b)
    (hget : Scache.scacheGet anyDevs 0 b 512 c = some (some i,c'))
    (hseek : c'.scacheSeek (c'.clist (slot 0)) b = some (some i)) :
    ∃ f d k, (saveRecord E crowdTable.sb (.root 0) q).run (crowdState c) =
      (.ok (),crowdState { c' with buf := f, disk := d, pos := k }) := by
  have hon : crowdTable.On E sectorSizes (contentOf sectorSizes anyDevs (fun _ _ => 0)) := sectorTable_on hE (by decide)
  have hblk : crowdTable.blk sectorSizes ((crowdState c).ino q) = b := sectorTable_blk.trans hb
  subst hblk
  rw [← hE] at hget
  exact saveRecord_get hon rfl rfl (crowd_savable hq) hget hseek

theorem crowd_hang {E : Env} {c : Scache} (hE : E.devs = anyDevs) (hfuel : 3 ≤ E.fuel)
    (hrun : getRun anyDevs (fun _ _ => 0) crowd = some c) :
    ((mfsSnode E crowdTable.sb (.root 0)).run (crowdState c)).1 = .error .hang := by
  obtain ⟨c',L,B,hrun',hfill,-,hcnt,hblk,hL,hmem⟩ := crowd_run (fun _ _ => 0)
  obtain rfl : c' = c := Option.some.inj (hrun'.symm.trans hrun)
  have hon : crowdTable.On E sectorSizes (contentOf sectorSizes anyDevs (fun _ _ => 0)) := sectorTable_on hE (by decide)
  have horder : c'.alist.Holds (0 :: 1 :: 2 :: List.range' 3 509) := by
    have h := hfill.order
    rw [List.length_map,crowd,List.length_map,List.length_range,List.range_eq_range'] at h
    exact h
  have hB : 1 ∈ B := by
    have h := (hmem 1).mpr (show 1 < 512 by decide)
    simpa using h
  have hne : ∀ x ∈ 2 :: B, x < 512 ∧ x ≠ 0 := by
    intro x hx
    have hnd := hfill.inv.lists.nodup (slot 0)
    rw [hL,List.nodup_cons] at hnd
    exact ⟨(hmem x).mp (List.mem_cons_of_mem _ hx),fun h0 => hnd.1 (h0 ▸ hx)⟩
  have hβ : ∀ x ∈ 2 :: B, c'.blk (some x) = crowdBlk x := fun x hx => (hblk x (hne x hx).1).2
  have hβ1 : c'.blk (some 1) = 3 := hβ 1 (List.mem_cons_of_mem _ hB)
  -- the record of the node recycles the head of the list
  obtain ⟨c₁,hget₁,halist,hloose⟩ := hfill.inv.get_head (D := anyDevs) (n := 512) (b := 600) hcnt horder.begin_eq hL
    (show DevOk 0 by decide) rfl (fun x hx he => by
      rw [hcnt] at hx
      rw [(hblk x hx).1] at he
      have hx : x < 512 := hx
      have he : crowdBlk x = 600 := (Prod.mk.inj he).2
      unfold crowdBlk at he
      split_ifs at he <;> omega)
  obtain ⟨f₁,d₁,k₁,hstep₁⟩ := crowd_get hE (q := .root 0) (b := 600) (by simp) (show 1 + 2396 / 4 = 600 by decide) hget₁
    (by rw [hloose.head]; exact seek_head hloose.blk_head)
  -- the first child promotes the entry next to be recycled
  have huniq : ∀ x ∈ 2 :: B, c'.blk (some x) = c'.blk (some 1) → x = 1 := by
    intro x hx he
    rw [hβ x hx,hβ 1 (List.mem_cons_of_mem _ hB)] at he
    exact crowdBlk_inj he
  have hne1 : c'.blk (some 1) ≠ 600 := by rw [hβ1]; decide
  obtain ⟨hget₂,hloose₂⟩ := (hloose.touch f₁ d₁ k₁).get_hit (D := anyDevs) (n := 512) hB hne1 huniq
  have hseek₂ := hloose₂.seek_eq hB hne1 huniq
  rw [hβ1] at hget₂ hseek₂
  obtain ⟨f₂,d₂,k₂,hstep₂⟩ := crowd_get hE (q := .vc 0) (b := 3) (by simp) (show 1 + 8 / 4 = 3 by decide) hget₂ hseek₂
  have hbegin : (c₁.alist.promo (some 1)).begin = some 2 := by
    rw [halist]
    obtain ⟨hlast,hnext⟩ := AllocList.recycle_first horder
    exact AllocList.promo_begin hlast hnext (by decide)
  have hnew : ∀ x ∈ 2 :: B, c'.blk (some x) ≠ 1 := by
    intro x hx he
    rw [hβ x hx] at he
    exact (hne x hx).2 (crowdBlk_inj (i := x) (j := 0) he)
  -- the second child recycles the successor of the head and goes in front of it
  obtain ⟨c₃,hget₃,hcirc⟩ := (hloose₂.touch f₂ d₂ k₂).get_second (D := anyDevs) (n := 512) hbegin rfl (by decide) hnew
  obtain ⟨f₃,d₃,k₃,hstep₃⟩ := crowd_get hE (q := .vc 1) (b := 1) (by simp) (show 1 + 1 / 4 = 1 by decide) hget₃
    (by rw [hcirc.head]; exact seek_head hcirc.blk_head)
  -- the third child looks for its block in the circle
  have hget₄ : Scache.scacheGet anyDevs 0 4 512 { c₃ with buf := f₃, disk := d₃, pos := k₃ } = none :=
    (hcirc.touch f₃ d₃ k₃).get (by decide) (by decide)
  rw [mfsSnode_eq rfl (crowd_directory c').sibs (fun _ hj => (crowd_directory c').ne_self hj) hfuel]
  simp only [saveRecords,List.map_cons]
  rw [run_bind hstep₁,run_bind hstep₂,run_bind hstep₃]
  have hblk₄ : crowdTable.blk sectorSizes 12 = 4 := sectorTable_blk.trans (by decide)
  rw [run_bind_error (saveRecord_hang hon rfl rfl (crowd_savable (by simp)) (by rw [hE]; exact hblk₄ ▸ hget₄))]

/-- Saving the four records with the device list set up by `crowd`: the third block closes the list
to a circle, and the search for the fourth never ends. -/
theorem snode_cycle : ∃ c, getRun anyDevs (fun _ _ => 0) crowd = some c ∧ Synced anyEnv sectorSizes c ∧
    crowdTable.On anyEnv sectorSizes (contentOf sectorSizes anyDevs c.disk) ∧
    Directory crowdTable (crowdState c) (.root 0) [0,1,2] ∧
    (∀ q ∈ [VPtr.root 0,.vc 0,.vc 1,.vc 2], ((crowdState c).vnode q).str.length < NVNAMLEN) ∧
    ∀ f ≥ 3, ((mfsSnode ⟨anyDevs,fun _ => 0,fun _ => 0,f⟩ crowdTable.sb (.root 0)).run (crowdState c)).1 =
      .error .hang := by
  obtain ⟨c,L,B,hrun,-,hdisk,-⟩ := crowd_run (fun _ _ => 0)
  refine ⟨c,hrun,crowd_synced hrun,?_,crowd_directory c,fun q hq => (crowd_savable hq).str,
    fun f hf => crowd_hang rfl hf hrun⟩
  rw [hdisk]
  exact sectorTable_on rfl (by decide)

end Micron.Filesys

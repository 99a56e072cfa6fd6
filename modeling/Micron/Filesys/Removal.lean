import Micron.Filesys.Frame
import Micron.Filesys.Rmdir

/-! # What `rmdir` removes

An empty directory that is the first child of its parent is taken out of the list, in memory
and on the disk. For one further back the loop that unlinks it ends at the null pointer,
which is then saved in place of the parent, and a path that leads nowhere is followed
without a test.
-/
namespace Micron.Filesys
open Function Bytes Kernel Scache Prog
variable {E : Env} {bs : BlkSizes} {C C' : Content} {T : Table} {o : ℕ → Ofile} {s t u : State} {R : ℕ → Inode}
  {p q : VPtr} {l ks : List ℕ} {j n d m : ℕ} {path : List UInt8}

/-! ## What should happen -/

/-- The directory `m` is out of the list of its parent `d`, in memory and on the disk, and its
bit is clear. The other records, the other bits and the paths to other nodes are as before. -/
structure Removed (E : Env) (bs : BlkSizes) (T : Table) (s t : State) (d m : ℕ) : Prop where
  memory : ∃ p l, InTree t p ∧ t.ino p = d ∧ Sibs t p (t.vnode p).child l ∧
    l.map (fun j => t.ino (.vc j)) = (T.kids d).erase m
  kids : StoredKids E bs T t d ((T.kids d).erase m)
  bits : ∀ n < T.sb.cnt .IBLK * (8 * T.len bs), bmpBit T.sb T.dev t .IBLK n =
    if n = m then false else bmpBit T.sb T.dev s .IBLK n
  cleared : T.bit (contentOf bs E.devs t.scache.disk) m = false
  parent : T.stored E bs t d = { T.stored E bs s d with child := (T.stored E bs t d).child }
  others : ∀ n < T.count, n ≠ d → T.stored E bs t n = T.stored E bs s n
  gone : ∀ path, Answers E t path (fun p u => p.isNode → u.ino p ≠ m)
  paths : ∀ path n, T.find path = some n → n ≠ m → Resolves E t path (some n)

structure Untouched (E : Env) (bs : BlkSizes) (C : Content) (T : Table) (s t : State) : Prop where
  serves : Serves E bs C T t
  grows : Grows s t
  disk : t.scache.disk = s.scache.disk
  mode : t.scache.mode = s.scache.mode
  ofile : t.ofile = s.ofile
  mountab : t.mountab = s.mountab

def Table.EmptyDir (T : Table) (m : ℕ) : Prop := (T.record m).mode &&& S_IFMT = S_IFDIR ∧ T.kids m = []

instance (T : Table) (m : ℕ) : Decidable (T.EmptyDir m) := inferInstanceAs (Decidable (_ ∧ _))

/-- The call removes the empty directory that the path leads to, or fails without a change. -/
def RmdirExact (E : Env) (bs : BlkSizes) (C : Content) (T : Table) (s : State) (path : List UInt8) : Prop :=
  (∀ m, T.find path = some m → T.EmptyDir m →
    ∃ d t, T.used d ∧ m ∈ T.kids d ∧ (rmdir E path).run s = (.ok 0,t) ∧ Removed E bs T s t d m) ∧
  ((∀ m, T.find path = some m → ¬ T.EmptyDir m) → ∃ t, (rmdir E path).run s = (.ok (-1),t) ∧ Untouched E bs C T s t)

structure RootShown (T : Table) (s : State) : Prop where
  shows : (s.vnode (.root 0)).Shows (T.record 0)
  next : (T.record 0).next = 0

/-- The path leads to something, and an empty directory is the first child of its parent. Its
siblings have the number of the parent in their records, and the vnode of the root, if that
is the parent, has the fields of its record. -/
def RmdirSafe (T : Table) (s : State) (path : List UInt8) : Prop :=
  ∃ m, T.find path = some m ∧ (T.EmptyDir m → ∃ d ks, T.used d ∧ T.kids d = m :: ks ∧
    (∀ k ∈ ks, (T.record k).parent = d.toUInt32) ∧ (d = 0 → RootShown T s))

/-! ## The state afterwards -/

theorem Resaves.self_iff (hR : Resaves T.record s d ks R) :
    R d = { T.record d with child := (R d).child } ↔ (d = 0 → RootShown T s) := by
  constructor
  · rintro hself rfl
    rw [hR.root rfl] at hself
    exact ⟨⟨congrArg Inode.str hself,congrArg Inode.ino hself,congrArg Inode.mode hself,congrArg Inode.nlink hself,
      congrArg Inode.uid hself,congrArg Inode.gid hself,congrArg Inode.rdev hself,congrArg Inode.size hself,
      congrArg Inode.atime hself,congrArg Inode.mtime hself,congrArg Inode.ctime hself,congrArg Inode.blkentry hself,
      congrArg Inode.blocks hself⟩,(congrArg Inode.next hself).symm⟩
  · intro hroot
    by_cases hd : d = 0
    · obtain ⟨hshows,hnext⟩ := hroot hd
      subst hd
      have hself := hR.root rfl
      rw [← hnext,Inode.save_shows hshows] at hself
      rw [hself]
    · exact hR.dir hd

section Gone
variable {name : List UInt8} (h : Extensible E bs C T s) (hf : T.First d m name ks)
  (hg : Gone E bs s.ofile T d m R C C' s t)
include h hf hg

theorem Gone.serves : Serves E bs C' { T.remove d m with record := R } t := (hg.extensible h hf).toServes

theorem Gone.stored_eq (hn : n < T.count) : T.stored E bs t n = R n := (hg.serves h hf).stored_eq hn

omit h hg in
theorem Table.First.erase : (T.kids d).erase m = ks := by
  rw [hf.kids,List.erase_cons_head]

omit h hf in
theorem Gone.parent : ∃ p, InTree t p ∧ t.ino p = d ∧ Complete { T.remove d m with record := R } t p := by
  obtain ⟨u,p,j,c,-,hu,hp,hpd,hj,rfl,hin,l,hl,hmap⟩ := hg.memory
  refine ⟨p,(hin p).mpr ⟨hp,?_⟩,(setChild_ino p).trans hpd,l,⟨hl.sibs,hl.initial⟩,hmap⟩
  rcases hu.links p hp with hun | ⟨l,hl,-⟩
  · have hnode := hun.not_node
    rw [hj] at hnode
    cases hnode
  · have hsibs := hl.sibs
    cases l with
    | nil => exact absurd (hj.symm.trans hsibs) nofun
    | cons k l =>
      obtain rfl : j = k := VPtr.vc.inj (hj.symm.trans hsibs.1)
      exact hp.not_child hsibs j List.mem_cons_self

theorem Gone.find_of_ne (hfind : T.find path = some n) (hne : n ≠ m) :
    Table.find { T.remove d m with record := R } path = some n := by
  have hT' := h.shaped.remove hf.used hf.kids
  have hgraft : Names.Grafted (T.remove d m).kids (fun n => (R n).str) (T.remove d m).used T.kids
      (fun n => (T.record n).str) d m (T.record m).str := by
    refine ⟨?_,hf.leaf,rfl,fun n _ hn => (remove_kids_old hn).symm,fun n hn k hk => ?_⟩
    · rw [remove_kids_self hf.kids]
      exact hf.kids
    · obtain ⟨hu,h0⟩ := hT'.kid n hn k hk
      rw [hg.like.str k hu h0,remove_record]
  unfold Table.find at hfind ⊢
  split at hfind
  · rename_i hhead
    rw [if_pos hhead]
    exact hgraft.resolve_of_ne hT'.treelike hfind hne
  · cases hfind

theorem Gone.find_ne (path : List UInt8) : Table.find { T.remove d m with record := R } path ≠ some m := by
  intro hfind
  have hT' := (hg.serves h hf).shaped
  unfold Table.find at hfind
  split at hfind
  · exact (hT'.resolve_used hT'.root hfind).2 rfl
  · cases hfind

theorem Gone.record_iff : (∀ n < T.count, n ≠ d → R n = T.record n) ∧ R d = { T.record d with child := (R d).child } ↔
    (∀ k ∈ ks, (T.record k).parent = d.toUInt32) ∧ (d = 0 → RootShown T s) := by
  have hsaved := hg.saved
  have hother := hg.other
  rw [hf.erase] at hsaved hother
  have hkid : ∀ k ∈ ks, k < T.count ∧ k ≠ d := by
    intro k hk
    obtain ⟨p,hp,hpd,hc⟩ := hg.parent
    have hself := hg.tree.not_own_kid (hg.serves h hf).shaped hp hc
    rw [hpd,show Table.kids { T.remove d m with record := R } d = ks from remove_kids_self hf.kids] at hself
    have hused := h.shaped.kid d hf.used k (hf.kids ▸ List.mem_cons_of_mem _ hk)
    refine ⟨h.shaped.lt k hused.1,?_⟩
    rintro rfl
    exact hself hk
  rw [hsaved.self_iff]
  refine and_congr_left' ⟨fun hrest k hk => ?_,fun hpar n _ hn => ?_⟩
  · have hsame := hrest k (hkid k hk).1 (hkid k hk).2
    rw [hsaved.kid k hk] at hsame
    exact (congrArg Inode.parent hsame).symm
  · by_cases hk : n ∈ ks
    · rw [hsaved.kid n hk,← hpar n hk]
    · exact hother n hn hk

theorem Gone.removed_iff (hm : m < T.sb.cnt .IBLK * (8 * T.len bs)) : Removed E bs T s t d m ↔
    (∀ k ∈ ks, (T.record k).parent = d.toUInt32) ∧ (d = 0 → RootShown T s) := by
  have hserves := hg.serves h hf
  have hd := h.shaped.lt d hf.used
  rw [← hg.record_iff h hf]
  constructor
  · intro hr
    refine ⟨fun n hn hne => ?_,?_⟩
    · rw [← hg.stored_eq h hf hn,hr.others n hn hne,h.stored_eq hn]
    · have hparent := hr.parent
      rwa [hg.stored_eq h hf hd,h.stored_eq hd] at hparent
  rintro ⟨hrest,hself⟩
  obtain ⟨p,hp,hpd,l,hl,hmap⟩ := hg.parent
  have hleft : Table.kids { T.remove d m with record := R } d = (T.kids d).erase m := by
    rw [hf.erase]
    exact remove_kids_self hf.kids
  refine ⟨⟨p,l,hp,hpd,hl.sibs,?_⟩,?_,fun n hn => ?_,?_,?_,fun n hn hne => ?_,fun path => ?_,fun path n hfind hne => ?_⟩
  · rw [hmap,hpd,hleft]
  · rw [← hleft]
    exact hserves.storedKids (hpd ▸ hg.tree.used p hp)
  · rw [h.mapped.bmpBit_eq h.table hg.tree.cached hn,h.mapped.bmpBit_eq h.table h.tree.cached hn]
    exact hg.bits n hn
  · have hbit := hg.bits m hm
    rw [if_pos rfl,h.table.bit_get] at hbit
    rw [h.table.bit_get,← hbit]
    have hpos : 0 < 8 * T.len bs := Nat.mul_pos (by decide) h.table.len_pos
    refine get_congr (fun k (hk : k < T.len bs) => ?_) (Nat.mod_lt m hpos)
    exact hg.stored k (Nat.lt_of_lt_of_eq hk (volume_size (h.mapped.blk_ne _)).symm)
  · rw [hg.stored_eq h hf hd,h.stored_eq hd]
    exact hself
  · rw [hg.stored_eq h hf hn,h.stored_eq hn,hrest n hn hne]
  · refine (hserves.resolves path).mono (fun p u hp hnode => ?_)
    have hne := hg.find_ne h hf path
    cases hfind : Table.find { T.remove d m with record := R } path with
    | none =>
      rw [hfind] at hp
      rcases hp with rfl | rfl <;> cases hnode
    | some n =>
      rw [hfind] at hp hne
      rw [hp.2]
      rintro rfl
      exact hne rfl
  · have hres := hserves.resolves path
    rwa [hg.find_of_ne h hf hfind hne] at hres

end Gone

/-! ## Calls that fail -/

theorem unseen_disk : Unseen (fun s => s.scache.disk) := ⟨fun _ _ => rfl,fun _ _ _ => rfl,fun _ _ h => h.2⟩

theorem vget_untouched {X : State → Prop} (h : Serves E bs C T s) (hX : Limit s.ofile X) (path : List UInt8) :
    Ends X (vget E path false) (fun p t => Untouched E bs C T s t ∧
      match T.find path with
      | none => p = .null ∨ p = .err
      | some n => n ≠ 0 ∧ InTree t p ∧ t.ino p = n ∧ Complete T t p) s := by
  refine ((((h.vget hX path).fixes (unseen_disk.vget path false)).fixes (unseen_mode.vget path false)).fixes
    (unseen_mountab.vget path false)).mono ?_
  rintro p t - ⟨⟨⟨⟨ht,ho,hg,hp⟩,hdisk⟩,hmode⟩,hmnt⟩
  exact ⟨⟨ht,hg,hdisk,hmode,ho,hmnt⟩,hp⟩

theorem rmdir_refuses {X : State → Prop} (h : Serves E bs C T s) (hX : Limit s.ofile X) (hfind : T.find path = some m)
    (hm : ¬ T.EmptyDir m) : Ends X (rmdir E path) (fun a t => a = -1 ∧ Untouched E bs C T s t) s := by
  refine Ends.bind hX.mono (vget_untouched h hX path) ?_
  rintro p t - ⟨ht,hp⟩
  rw [hfind] at hp
  obtain ⟨hne,hp,hpm,l,hl,hmap⟩ := hp
  have hmode : (t.vnode p).mode = (T.record m).mode := by
    cases hp with
    | root => exact absurd (hpm.symm.trans ht.serves.tree.root) hne
    | child hq hl' hj =>
      have hshows := ht.serves.tree.shows _ (hq.child hl' hj)
      rw [hpm] at hshows
      exact hshows.mode
  unfold Ends
  rw [wp_bind,wp_vnode hp.isNode,hmode]
  by_cases hdir : (T.record m).mode &&& S_IFMT = S_IFDIR
  · have hchild : (t.vnode p).child ≠ .null := by
      intro hnull
      have hsibs := hl.sibs
      rw [hnull] at hsibs
      cases l with
      | nil => exact hm ⟨hdir,by rw [← hpm,← hmap]; rfl⟩
      | cons j l => cases hsibs.1
    rw [if_neg (not_not.mpr hdir),if_pos hchild]
    exact Or.inr ⟨rfl,ht⟩
  · rw [if_pos hdir]
    exact Or.inr ⟨rfl,ht⟩

theorem of_run_vnode {v : Vnode} (hrun : (vnode p).run s = (.ok v,t)) : p.isNode ∧ v = s.vnode p ∧ t = s := by
  unfold vnode at hrun
  split at hrun
  · rename_i hp
    cases hrun
    exact ⟨hp,rfl,rfl⟩
  · cases hrun

theorem unlinkLoop_null {fuel : ℕ} {vp vnp a : VPtr} (hrun : (unlinkLoop vp fuel vnp).run s = (.ok a,t)) : a = .null := by
  induction fuel generalizing vnp s with
  | zero =>
    cases vnp
    case null => exact (Except.ok.inj (Prod.mk.inj hrun).1).symm
    all_goals exact absurd (Prod.mk.inj hrun).1 nofun
  | succ fuel ih =>
    cases vnp
    case null => exact (Except.ok.inj (Prod.mk.inj hrun).1).symm
    all_goals
      obtain ⟨v,u,-,hrun⟩ := of_run_bind hrun
      split at hrun
      · obtain ⟨_,_,-,hrun⟩ := of_run_bind hrun
        obtain ⟨_,_,-,hrun⟩ := of_run_bind hrun
        obtain ⟨_,_,-,hrun⟩ := of_run_bind hrun
        exact ih hrun
      · obtain ⟨_,_,-,hrun⟩ := of_run_bind hrun
        exact ih hrun

/-- The call returns for a node only, and 0 for a first child only. -/
theorem rmdir_returns {a : ℤ} (hrun : (rmdir E path).run s = (.ok a,t)) : ∃ p u, (vget E path false).run s = (.ok p,u) ∧
    p.isNode ∧ (a = 0 → (u.vnode (u.vnode p).parent).child = p) := by
  obtain ⟨p,u,hget,hrun⟩ := of_run_bind hrun
  obtain ⟨v,u₁,hv,hrun⟩ := of_run_bind hrun
  obtain ⟨hp,rfl,rfl⟩ := of_run_vnode hv
  refine ⟨p,u₁,hget,hp,?_⟩
  rintro rfl
  split at hrun
  · cases hrun
  split at hrun
  · cases hrun
  obtain ⟨w,u₂,hw,hrun⟩ := of_run_bind hrun
  obtain ⟨-,rfl,rfl⟩ := of_run_vnode hw
  by_contra hne
  dsimp only at hrun
  rw [if_neg hne] at hrun
  obtain ⟨_,_,-,hrun⟩ := of_run_bind hrun
  obtain ⟨vnp,u₃,hloop,hrun⟩ := of_run_bind hrun
  obtain rfl := unlinkLoop_null hloop
  obtain ⟨_,_,-,hrun⟩ := of_run_bind hrun
  obtain ⟨i,_,-,hrun⟩ := of_run_bind hrun
  cases i with
  | none => cases hrun
  | some i =>
    obtain ⟨_,_,-,hrun⟩ := of_run_bind hrun
    obtain ⟨_,_,-,hrun⟩ := of_run_bind hrun
    obtain ⟨_,_,hsave,-⟩ := of_run_bind hrun
    unfold fsCall at hsave
    split at hsave
    · obtain ⟨_,_,hnode,-⟩ := of_run_bind hsave
      obtain ⟨_,_,hv,-⟩ := of_run_bind hnode
      exact absurd (of_run_vnode hv).1 nofun
    · cases hsave

/-! ## The call -/

theorem Table.mem_of_child {name : List UInt8} (hc : T.child d name = some m) : m ∈ T.kids d ∧ (T.record m).str = name :=
  ⟨List.mem_of_find?_eq_some hc,by simpa using List.find?_some hc⟩

/-- A path that leads somewhere ends with a name in a directory. -/
theorem Table.Shaped.find_parent {fuel : ℕ} (hT : T.Shaped fuel) (hfind : T.find path = some m) :
    ∃ dirs name d, path = absPath (dirs ++ [name]) ∧ (∀ c ∈ dirs ++ [name], slash ∉ c) ∧
      T.resolve 0 dirs = some d ∧ T.used d ∧ T.child d name = some m := by
  unfold Table.find at hfind
  split at hfind
  · rename_i hhead
    rw [components,T.resolve_concat] at hfind
    obtain ⟨d,hd,hc⟩ := Option.bind_eq_some_iff.mp hfind
    exact ⟨_,_,d,(absPath_components hhead).symm,splitPath_slash _,hd,hT.resolve_used hT.root hd,hc⟩
  · cases hfind

section Call
variable (h : Extensible E bs C T s) (hcov : T.count ≤ T.sb.cnt .IBLK * (8 * T.len bs))
  (hroom : ¬ Full ((rmdir E path).run s).2)
include h hcov hroom

/-- An empty directory that is the first child of its parent. -/
theorem rmdir_gone (hfind : T.find path = some m) (hm : T.EmptyDir m) (hd : T.used d) (hk : T.kids d = m :: ks) :
    ∃ name R C' t, T.First d m name ks ∧ (rmdir E path).run s = (.ok 0,t) ∧ Gone E bs s.ofile T d m R C C' s t := by
  have hT := h.shaped
  obtain ⟨dirs,name,d',rfl,hpath,hres,hd',hc⟩ := hT.find_parent hfind
  obtain ⟨hmem,hstr⟩ := Table.mem_of_child hc
  obtain rfl := hT.parent _ _ m hd' hd hmem (hk ▸ List.mem_cons_self)
  have hf : T.First d' m name ks := ⟨hd,hk,hm.2,hstr,hm.1⟩
  have hlt := Nat.lt_of_lt_of_le (hT.lt m (hT.kid _ hd m hmem).1) hcov
  obtain ⟨_,t,hrun,rfl,R,C',hg⟩ := (rmdir_spec (full_limit s.ofile) h hpath hres hf hlt).run hroom
  exact ⟨name,R,C',t,hf,hrun,hg⟩

omit hcov in
theorem rmdir_lookup {a : ℤ} (hrun : (rmdir E path).run s = (.ok a,t)) :
    ∃ p u, Serves E bs C T u ∧ InTree u p ∧ T.find path = some (u.ino p) ∧
      (a = 0 → (u.vnode (u.vnode p).parent).child = p) := by
  have hX := full_limit s.ofile
  obtain ⟨p,u,hget,hnode,hfirst⟩ := rmdir_returns hrun
  have hle : ((vget E path false).run s).2 ≤ ((rmdir E path).run s).2 := le_run_bind
  obtain ⟨p',u',hget',hu,-,-,hp⟩ := (h.toServes.vget hX path).run (fun hfull => hroom (hX.mono _ _ hle hfull))
  obtain ⟨hpp,rfl⟩ := Prod.mk.inj (hget.symm.trans hget')
  obtain rfl := Except.ok.inj hpp
  cases hfind : T.find path with
  | none =>
    rw [hfind] at hp
    rcases hp with rfl | rfl <;> cases hnode
  | some m =>
    rw [hfind] at hp
    exact ⟨p,u,hu,hp.2.1,congrArg some hp.2.2.1.symm,hfirst⟩

omit hcov in
/-- The directory that has been removed was the first child. -/
theorem rmdir_kids (hfind : T.find path = some m) (hd : T.used d) (hmem : m ∈ T.kids d)
    (hrun : (rmdir E path).run s = (.ok 0,t)) : ∃ ks, T.kids d = m :: ks := by
  obtain ⟨p,u,hu,hp,hpm,hfirst⟩ := rmdir_lookup h hroom hrun
  obtain rfl := Option.some.inj (hfind.symm.trans hpm)
  have hT := h.shaped
  cases hp with
  | root => exact absurd hu.tree.root (hT.kid d hd _ hmem).2
  | @child q l k hq hl hk =>
    have hkids := hu.tree.kids_eq hq hl (List.ne_nil_of_mem hk)
    obtain rfl := hT.parent _ _ _ (hu.tree.used q hq) hd (hu.tree.mem_kids hq hl hk) hmem
    have hchild := hfirst rfl
    rw [(hl.mem hk).2.1] at hchild
    rw [hchild] at hl
    cases l with
    | nil => cases hk
    | cons j l =>
      obtain rfl := VPtr.vc.inj hl.1
      exact ⟨_,hkids.symm⟩

end Call

theorem rmdir_exact_iff (E : Env) (bs : BlkSizes) (C : Content) (T : Table) (s : State) (path : List UInt8)
    (h : Extensible E bs C T s) (hcov : T.count ≤ T.sb.cnt .IBLK * (8 * T.len bs))
    (hroom : ¬ Full ((rmdir E path).run s).2) : RmdirExact E bs C T s path ↔ RmdirSafe T s path := by
  have hT := h.shaped
  have hlt : ∀ m, T.find path = some m → m < T.sb.cnt .IBLK * (8 * T.len bs) := by
    intro m hfind
    obtain ⟨dirs,name,d,-,-,-,hd,hc⟩ := hT.find_parent hfind
    exact Nat.lt_of_lt_of_le (hT.lt m (hT.kid d hd m (Table.mem_of_child hc).1).1) hcov
  constructor
  · rintro ⟨hempty,hother⟩
    cases hfind : T.find path with
    | none =>
      obtain ⟨t,hrun,-⟩ := hother (fun m hm => by rw [hfind] at hm; cases hm)
      obtain ⟨p,u,-,-,hp,-⟩ := rmdir_lookup h hroom hrun
      exact absurd (hfind.symm.trans hp) nofun
    | some m =>
      refine ⟨m,hfind,fun hm => ?_⟩
      obtain ⟨d,t,hd,hmem,hrun,hr⟩ := hempty m hfind hm
      obtain ⟨ks,hk⟩ := rmdir_kids h hroom hfind hd hmem hrun
      obtain ⟨name,R,C',t',hf,hrun',hg⟩ := rmdir_gone h hcov hroom hfind hm hd hk
      obtain rfl : t = t' := (Prod.mk.inj (hrun.symm.trans hrun')).2
      exact ⟨d,ks,hd,hk,(hg.removed_iff h hf (hlt m hfind)).mp hr⟩
  · rintro ⟨m,hfind,hsafe⟩
    refine ⟨fun m' hfind' hm => ?_,fun hnot => ?_⟩
    · obtain rfl : m = m' := Option.some.inj (hfind.symm.trans hfind')
      obtain ⟨d,ks,hd,hk,hcond⟩ := hsafe hm
      obtain ⟨name,R,C',t,hf,hrun,hg⟩ := rmdir_gone h hcov hroom hfind hm hd hk
      exact ⟨d,t,hd,hk ▸ List.mem_cons_self,hrun,(hg.removed_iff h hf (hlt m hfind)).mpr hcond⟩
    · obtain ⟨_,t,hrun,rfl,ht⟩ := (rmdir_refuses h.toServes (full_limit s.ofile) hfind (hnot m hfind)).run hroom
      exact ⟨t,hrun,ht⟩

def pairSteps : List Mkmfs.Step :=
  [.lboot (some [1]),.call (.mkdir [slash] [97]),.call (.mkdir [slash,97,slash] [98]),
    .call (.mkdir [slash,97,slash] [99])]

def pairImage : Mkmfs.Image := (Mkmfs.build (fun _ => 0) pairSteps).toOption.getD Mkmfs.mfsNew

def pairDisk : ℕ → ℕ → UInt8 := fun _ a => Mkmfs.mfsEnd pairImage (512 + a)

def pairTable : Table := imageTable 1 pairImage 3

def pairState : State := ((started sampleEnv 1 []).run (State.boot pairDisk)).2

theorem pair_extensible : Extensible sampleEnv mfsSizes (contentOf mfsSizes sampleEnv.devs pairDisk) pairTable
    pairState := by
  have hok : (Mkmfs.build (fun _ => 0) pairSteps).toOption.isSome := by decide +kernel
  obtain ⟨im,him⟩ := Option.isSome_iff_exists.mp hok
  have hbuild : Mkmfs.build (fun _ => 0) pairSteps = .ok pairImage := by
    rw [pairImage,him]
    exact Mkmfs.toOption_some.mp him
  have hshort : ∀ c ∈ pairSteps.flatMap Mkmfs.Step.calls, Mkmfs.Short c.name := by
    intro c hc
    simp [pairSteps,Mkmfs.Step.calls] at hc
    rcases hc with rfl | rfl | rfl <;> exact ⟨by decide,by decide⟩
  have hcarries : Carries sampleEnv 1 pairImage pairDisk := ⟨by decide,rfl,fun _ _ => rfl,fun _ _ => rfl⟩
  exact hcarries.extensible (Mkmfs.build_built hbuild hshort) (by decide) (by decide) [] (by decide +kernel)

/-- `/a/c` is removed, and with `/a` the call fails. -/
theorem rmdir_exact_pair :
    RmdirExact sampleEnv mfsSizes (contentOf mfsSizes sampleEnv.devs pairDisk) pairTable pairState
      (absPath [[97],[99]]) ∧
    RmdirExact sampleEnv mfsSizes (contentOf mfsSizes sampleEnv.devs pairDisk) pairTable pairState
      (absPath [[97]]) := by
  have hkids : pairTable.kids 1 = [3,2] := by decide +kernel
  constructor
  · refine (rmdir_exact_iff _ _ _ _ _ _ pair_extensible (by decide +kernel) (by decide +kernel)).mpr ?_
    refine ⟨3,by decide +kernel,fun _ => ⟨1,[2],show 1 ≤ 3 by decide,hkids,?_,nofun⟩⟩
    decide +kernel
  · refine (rmdir_exact_iff _ _ _ _ _ _ pair_extensible (by decide +kernel) (by decide +kernel)).mpr ?_
    refine ⟨1,by decide +kernel,fun hm => ?_⟩
    rw [Table.EmptyDir,hkids] at hm
    cases hm.2

/-- The empty directory `/a/b` comes after `/a/c`, and `/x` does not exist. -/
theorem rmdir_faults :
    ¬ RmdirExact sampleEnv mfsSizes (contentOf mfsSizes sampleEnv.devs pairDisk) pairTable pairState
      (absPath [[97],[98]]) ∧
    ¬ RmdirExact sampleEnv mfsSizes (contentOf mfsSizes sampleEnv.devs pairDisk) pairTable pairState
      (absPath [[120]]) := by
  have hrun : ∀ path ∈ [absPath [[97],[98]],absPath [[120]]],
      ((rmdir sampleEnv path).run pairState).1.toOption = none := by decide +kernel
  constructor
  · intro h
    obtain ⟨d,t,-,-,ht,-⟩ := h.1 2 (by decide +kernel) (by decide +kernel)
    have hnone := hrun (absPath [[97],[98]]) (by decide)
    rw [ht] at hnone
    cases hnone
  · intro h
    have hfind : pairTable.find (absPath [[120]]) = none := by decide +kernel
    obtain ⟨t,ht,-⟩ := h.2 (fun m hm => by rw [hfind] at hm; cases hm)
    have hnone := hrun (absPath [[120]]) (by decide)
    rw [ht] at hnone
    cases hnone

end Micron.Filesys

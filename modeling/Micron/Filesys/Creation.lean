import Micron.Filesys.Removal

/-! # What `mkdir` reports

`mkdir` tests whether the path starts with a slash, and nothing else: it returns 0 without
its parent, makes a second entry of the same name, copies a name of any length and follows
the null pointer when the bitmap is full. The search of the bitmap forgets in which block it
has found a clear bit, so that only the first block counts.
-/
namespace Micron.Filesys
open Function Bytes Kernel Scache Prog
variable {E : Env} {bs : BlkSizes} {C C' : Content} {T : Table} {o : ℕ → Ofile} {s t u : State} {X : State → Prop}
  {p : VPtr} {k n d : ℕ} {path : List UInt8} {mode : UInt32}

/-! ## What should happen -/

def Table.findParent (T : Table) (path : List UInt8) : Option ℕ :=
  if path.head? = some slash then T.resolve 0 (splitPath path.tail).1 else none

def lastName (path : List UInt8) : List UInt8 := (splitPath path.tail).2

/-- The path leads to an inode that was free, in memory and on the disk, and its record is
that of a directory. -/
def Created (E : Env) (bs : BlkSizes) (T : Table) (s t : State) (path : List UInt8) (mode : UInt32) : Prop :=
  ∃ n < T.sb.cnt .IBLK * (8 * T.len bs), bmpBit T.sb T.dev s .IBLK n = false ∧ bmpBit T.sb T.dev t .IBLK n = true ∧
    (T.stored E bs t n).mode = (mode &&& 0xFFF) ||| S_IFDIR ∧
    Resolves E t path (some n) ∧ Resolves E t.reload path (some n)

def Refused (bs : BlkSizes) (T : Table) (s : State) (path : List UInt8) : Prop :=
  ∀ d, T.findParent path = some d → (T.child d (lastName path)).isSome ∨ NVNAMLEN ≤ (lastName path).length ∨
    ∀ n < T.sb.cnt .IBLK * (8 * T.len bs), bmpBit T.sb T.dev s .IBLK n = true

/-- The call returns 0 only with a new directory, and -1 without a change if there cannot be
one. -/
def MkdirTruthful (E : Env) (bs : BlkSizes) (C : Content) (T : Table) (s : State) (path : List UInt8) (mode : UInt32) :
    Prop :=
  ∃ a t, (mkdir E path mode).run s = (.ok a,t) ∧ (a = 0 → Created E bs T s t path mode) ∧
    (Refused bs T s path → a = -1 ∧ Untouched E bs C T s t)

/-- The path does not start with a slash, or its parent exists and lacks the name, the name
fits and an inode of the first block of the bitmap is free. -/
def MkdirSafe (bs : BlkSizes) (T : Table) (s : State) (path : List UInt8) : Prop :=
  path.head? = some slash → ∃ d, T.findParent path = some d ∧ T.child d (lastName path) = none ∧
    (lastName path).length < NVNAMLEN ∧ ∃ n < 8 * T.len bs, bmpBit T.sb T.dev s .IBLK n = false

/-! ## An inode that is in use -/

section Taken
variable (hX : Limit o X) (hon : T.On E bs C) (hT : T.Shaped E.fuel) (hm : T.Mapped E bs C) {C₁ : Content} {c₁ : Scache}
  {w : Vnode} (hf : Filled E bs C T o d k u p C₁ c₁ w) (hroot : Rooted u) (a : List Alloc) (i : ℕ)
include hX hon hT hm hf hroot

theorem Filled.save : Ends X (mfsSnode E T.sb p) (fun _ t => ∃ C', Cached E bs C' t.scache ∧
      ∀ n < T.sb.cnt .IBLK * (8 * T.len bs), T.bit C' n = if n = k then true else T.bit C n)
    ((u.prepare c₁ a i w).setChild p (.vc u.vlist.cnt)) := by
  have hfirst := hm.first_lt hf.lt
  have hb : Beside { u with scache := c₁ } (u.prepare c₁ a i w) := prepare_beside hf.tree a i
  have h₁ := hf.marks.tree hm hfirst hf.tree hf.cached hon
  have h₂ := h₁.beside hb hf.unused hf.cached
  have hon₁ := hf.marks.on hm hfirst hon
  have hp₂ := hb.mono (hf.node.cache c₁)
  obtain ⟨l,hl,hmap⟩ := (hf.complete.cache c₁).beside hb (hf.node.cache c₁)
  have hready := prepare_ready hon hm hf.tree hf.node hf.lt hf.cached hf.marks hf.prepared a i
  have hroot₂ : Rooted (u.prepare c₁ a i w) := hroot.congr ⟨_,prepare_vnode a i .root⟩
  have hsave : ∀ q, Savable T (u.prepare c₁ a i w) q →
      Savable T ((u.prepare c₁ a i w).setChild p (.vc u.vlist.cnt)) q := by
    intro q hq
    refine ⟨hq.isNode,?_,?_,?_⟩
    · rw [setChild_ino]
      exact hq.lt
    all_goals rw [setChild_vnode]
    · exact hq.str
    · exact hq.next
  have hnew : Savable T (u.prepare c₁ a i w) (.vc u.vlist.cnt) := by
    have hw : (u.prepare c₁ a i w).vnode (.vc u.vlist.cnt) = w := update_self _ _ _
    obtain ⟨l',hl',-⟩ := hf.complete
    refine ⟨rfl,?_,?_,?_⟩
    · have hino : w.ino.toNat = k := newRecord_ino (d := d) hon hm hf.lt hf.prepared
      rw [State.ino,hw,hino]
      exact Nat.lt_of_lt_of_le hf.lt hm.bits_le
    all_goals rw [hw]
    · exact hf.prepared.str
    · rw [hf.prepared.next_eq]
      exact hl'.sibs.null_or_node
  have hlen : (u.vlist.cnt :: l).length ≤ E.fuel := by
    have hlt := hT.kids_lt _ (h₂.used p hp₂)
    rw [← hmap,List.length_map] at hlt
    exact hlt
  refine (mfsSnode_spec hX (s := (u.prepare c₁ a i w).setChild p (.vc u.vlist.cnt)) ⟨hf.cached,hon₁,h₁.stored⟩ ?_
    (link_list hl hready) (hsave p (h₂.savable hT hroot₂ hp₂)) (fun j hj => hsave _ ?_) hlen).mono ?_
  · rw [setChild_vnode]
    exact h₂.dev p hp₂
  · rcases List.mem_cons.mp hj with rfl | hj
    · exact hnew
    · exact h₂.savable hT hroot₂ (hp₂.child hl.sibs hj)
  rintro _ t - ⟨C',c,rfl,hback,hout⟩
  refine ⟨C',hback.cached,fun n hn => ?_⟩
  rw [hm.bit_outside hon hout hn]
  exact hf.marks.bits n

end Taken

/-! ## The call -/

/-- A path that starts with a slash is never refused. -/
theorem mkdir_zero (h : Serves E bs C T s) (hhead : path.head? = some slash)
    (hroom : ¬ Full ((mkdir E path mode).run s).2) {a : ℤ} (hrun : (mkdir E path mode).run s = (.ok a,t)) : a = 0 := by
  have hX := full_limit s.ofile
  have hle : ((vget E path true).run s).2 ≤ ((mkdir E path mode).run s).2 := le_run_bind
  obtain ⟨p,u,hget,hu,-,hp,-⟩ := (vget_spec h.table h.shaped hX h.dev_ne h.tree hhead).run
    (fun hfull => hroom (hX.mono _ _ hle hfull))
  refine wp.of_run (Q := fun a _ => a = 0) (X := fun _ => True) ?_ hrun
  rw [mkdir,wp_bind]
  refine wp_of_run hget ?_
  cases hres : T.resolve 0 ((splitPath path.tail).1 ++ if true then [] else [(splitPath path.tail).2]) with
  | none =>
    rw [hres] at hp
    rw [if_pos (show p = .null from hp)]
    exact rfl
  | some d =>
    rw [hres] at hp
    obtain ⟨hp,-⟩ := hp
    have herr : p ≠ .err := by
      rintro rfl
      exact absurd hp.isNode (by decide)
    rw [if_neg hp.ne_null,if_neg herr,wp_bind,wp_vnode hp.isNode,hu.dev p hp,wp_bind]
    refine wp_of_run (mountabGet_tree hu) ?_
    dsimp only
    refine wp_bind_any fun _ _ => wp_bind_any fun _ _ => wp_bind_any fun _ _ => wp_bind_any fun v _ => ?_
    cases v.strcpy (splitPath path.tail).2 with
    | none => trivial
    | some v =>
      dsimp only
      repeat refine wp_bind_any fun _ _ => ?_
      exact rfl

theorem mkdir_relative (hhead : path.head? ≠ some slash) : (mkdir E path mode).run s = (.ok (-1),s) := by
  have hget : (vget E path true).run s = (.ok .err,s) := by
    rw [vget,if_pos hhead]
    rfl
  rw [mkdir,run_bind hget]
  rfl

theorem findParent_path {d : ℕ} (hd : T.findParent path = some d) : ∃ dirs, path = absPath (dirs ++ [lastName path]) ∧
    (∀ c ∈ dirs ++ [lastName path], slash ∉ c) ∧ T.resolve 0 dirs = some d := by
  unfold Table.findParent at hd
  split at hd
  · rename_i hhead
    exact ⟨_,(absPath_components hhead).symm,splitPath_slash _,hd⟩
  · cases hd

theorem find_eq_child (T : Table) (path : List UInt8) :
    T.find path = (T.findParent path).bind (fun d => T.child d (lastName path)) := by
  unfold Table.find Table.findParent
  split
  · exact T.resolve_concat _ _ _
  · rfl

theorem lastName_nul {dirs : List (List UInt8)} (hp : path = absPath (dirs ++ [lastName path])) (hnul : 0 ∉ path) :
    0 ∉ lastName path := by
  intro hmem
  rw [hp] at hnul
  refine hnul ?_
  clear hp hnul
  induction dirs with
  | nil => simp [absPath,hmem]
  | cons c cs ih =>
    rw [List.cons_append,absPath]
    exact List.mem_cons_of_mem _ (List.mem_append_right _ ih)

theorem Made.created {r : Inode} {R : ℕ → Inode} (h : Extensible E bs C T s)
    (hmade : Made E bs s.ofile T d r R C C' s t) (hstr : r.str = lastName path)
    (hmode : r.mode = (mode &&& 0xFFF) ||| S_IFDIR) (hd : T.findParent path = some d)
    (hname : T.child d (lastName path) = none) : Created E bs T s t path mode := by
  obtain ⟨dirs,hp,hpath,hres⟩ := findParent_path hd
  rw [← hstr] at hname hpath hp
  have hfind := find_insert h.shaped h.count_le hmade.takes hmade.like hres hname hpath
  rw [← hp] at hfind
  have hserves := (hmade.extensible h).toServes
  have hlt := h.mapped.first_lt hmade.first
  refine ⟨r.ino.toNat,hlt,?_,?_,?_,?_,?_⟩
  · rw [h.mapped.bmpBit_eq h.table h.tree.cached hlt,hmade.clear]
  · rw [h.mapped.bmpBit_eq h.table hmade.tree.cached hlt,hmade.bits _ hlt,if_pos rfl]
  · have hstored : T.stored E bs t r.ino.toNat = R r.ino.toNat := hserves.stored_eq hmade.takes.lt
    rw [hstored,hmade.mode,hmode]
  · have hres := hserves.resolves path
    rwa [hfind,update_self] at hres
  · have hres := hserves.reload.resolves path
    rwa [hfind,update_self] at hres

/-- With the first block of the bitmap full, the call returns 0 without a new bit. -/
theorem mkdir_reuses {dirs : List (List UInt8)} {name : List UInt8} (hX : Limit s.ofile X) (h : Extensible E bs C T s)
    (hpath : ∀ c ∈ dirs ++ [name], slash ∉ c) (hd : T.resolve 0 dirs = some d) (hlen : name.length < NVNAMLEN)
    (hnul : 0 ∉ name) (hn : n < T.sb.cnt .IBLK * (8 * T.len bs)) (hclear : T.bit C n = false)
    (hfull : ∀ k < 8 * T.len bs, T.bit C k = true) (mode : UInt32) :
    Ends X (mkdir E (absPath (dirs ++ [name])) mode) (fun a t => a = 0 ∧ ∃ C', Cached E bs C' t.scache ∧
      ∀ n < T.sb.cnt .IBLK * (8 * T.len bs), T.bit C' n = T.bit C n) s := by
  refine mkdir_fills hX h.table h.shaped h.dev_ne h.mapped h.tree hpath hd hlen hnul hn hclear mode ?_
  intro k u p C₁ c₁ w a i hg hf _ _ _
  refine (hf.save hX h.table h.shaped h.mapped (hg.rooted h.rooted) a i).mono ?_
  rintro _ t - ⟨C',hc,hbits⟩
  refine ⟨C',hc,fun n hn => ?_⟩
  rw [hbits n hn]
  split
  · rename_i hk
    rw [hk,hfull k hf.lt]
  · rfl

section Parent
variable (h : Extensible E bs C T s) (hnul : 0 ∉ path) (hroom : ¬ Full ((mkdir E path mode).run s).2)
  (hd : T.findParent path = some d) (hlen : (lastName path).length < NVNAMLEN)
include h hnul hroom hd hlen

theorem mkdir_made (hn : n < 8 * T.len bs) (hclear : bmpBit T.sb T.dev s .IBLK n = false) : ∃ t r R C',
    (mkdir E path mode).run s = (.ok 0,t) ∧ r.str = lastName path ∧ r.mode = (mode &&& 0xFFF) ||| S_IFDIR ∧
      Made E bs s.ofile T d r R C C' s t := by
  obtain ⟨dirs,hp,hpath,hres⟩ := findParent_path hd
  rw [h.mapped.bmpBit_eq h.table h.tree.cached (h.mapped.first_lt hn)] at hclear
  have hends := mkdir_spec (full_limit s.ofile) h.table h.shaped h.count_le h.dev_ne h.mapped h.tree h.rooted hpath hres
    hlen (lastName_nul hp hnul) hn hclear mode
  rw [← hp] at hends
  obtain ⟨_,t,hrun,rfl,r,R,C',hstr,hmode,hmade⟩ := hends.run hroom
  exact ⟨t,r,R,C',hrun,hstr,hmode,hmade⟩

/-- A new inode is one of the first block. -/
theorem Created.first (hrun : (mkdir E path mode).run s = (.ok 0,t)) (hnew : Created E bs T s t path mode) :
    ∃ n < 8 * T.len bs, bmpBit T.sb T.dev s .IBLK n = false := by
  have hbit : ∀ n < T.sb.cnt .IBLK * (8 * T.len bs), bmpBit T.sb T.dev s .IBLK n = T.bit C n :=
    fun n hn => h.mapped.bmpBit_eq h.table h.tree.cached hn
  by_contra hfull
  obtain ⟨m,hm,hwas,his,-⟩ := hnew
  obtain ⟨dirs,hp,hpath,hres⟩ := findParent_path hd
  have hset : ∀ k < 8 * T.len bs, T.bit C k = true := by
    intro k hk
    rw [← hbit k (h.mapped.first_lt hk)]
    by_contra hne
    exact hfull ⟨k,hk,eq_false_of_ne_true hne⟩
  have hends := mkdir_reuses (full_limit s.ofile) h hpath hres hlen (lastName_nul hp hnul) hm (hbit m hm ▸ hwas) hset mode
  rw [← hp] at hends
  obtain ⟨_,t',hrun',-,C',hc,hsame⟩ := hends.run hroom
  obtain rfl : t = t' := (Prod.mk.inj (hrun.symm.trans hrun')).2
  rw [h.mapped.bmpBit_eq h.table hc hm,hsame m hm,← hbit m hm,hwas] at his
  cases his

end Parent

theorem mkdir_truthful_iff (E : Env) (bs : BlkSizes) (C : Content) (T : Table) (s : State) (path : List UInt8)
    (mode : UInt32) (h : Extensible E bs C T s) (hnul : 0 ∉ path) (hroom : ¬ Full ((mkdir E path mode).run s).2) :
    MkdirTruthful E bs C T s path mode ↔ MkdirSafe bs T s path := by
  by_cases hhead : path.head? = some slash
  · constructor
    · rintro ⟨a,t,hrun,hnew,hfail⟩ -
      obtain rfl := mkdir_zero h.toServes hhead hroom hrun
      have hok : ¬ Refused bs T s path := fun hr => absurd (hfail hr).1 (by decide)
      simp only [Refused,not_forall,not_or,Nat.not_le,Bool.not_eq_true,Option.isSome_eq_false_iff,
        Option.isNone_iff_eq_none] at hok
      obtain ⟨d,hd,hname,hlen,-⟩ := hok
      exact ⟨d,hd,hname,hlen,(hnew rfl).first h hnul hroom hd hlen hrun⟩
    · intro hsafe
      obtain ⟨d,hd,hname,hlen,n,hn,hclear⟩ := hsafe hhead
      obtain ⟨t,r,R,C',hrun,hstr,hmode,hmade⟩ := mkdir_made h hnul hroom hd hlen hn hclear
      refine ⟨0,t,hrun,fun _ => hmade.created h hstr hmode hd hname,fun hr => ?_⟩
      rcases hr d hd with hsome | hlong | hfull
      · rw [hname] at hsome
        cases hsome
      · exact absurd hlen (Nat.not_lt.mpr hlong)
      · rw [hfull n (h.mapped.first_lt hn)] at hclear
        cases hclear
  · refine iff_of_true ⟨-1,s,mkdir_relative hhead,nofun,fun _ => ⟨rfl,h.toServes,.refl s,rfl,rfl,rfl,rfl⟩⟩ ?_
    exact fun hslash => absurd hslash hhead

/-- `/a/c` is made, and `a` is refused. -/
theorem mkdir_truthful_sample :
    MkdirTruthful sampleEnv mfsSizes (contentOf mfsSizes sampleEnv.devs sampleDisk) (imageTable 1 sampleImage 2)
      sampleState (absPath [[97],[99]]) 0 ∧
    MkdirTruthful sampleEnv mfsSizes (contentOf mfsSizes sampleEnv.devs sampleDisk) (imageTable 1 sampleImage 2)
      sampleState [97] 0 := by
  constructor
  · refine (mkdir_truthful_iff _ _ _ _ _ _ _ sample_extensible (by decide) (by decide +kernel)).mpr (fun _ => ?_)
    refine ⟨1,by decide +kernel,by decide +kernel,by decide,3,show 3 < 8 * Mkmfs.MFS_BLKSIZE by decide,?_⟩
    decide +kernel
  · refine (mkdir_truthful_iff _ _ _ _ _ _ _ sample_extensible (by decide) (by decide +kernel)).mpr ?_
    exact fun hhead => absurd hhead (by decide)

/-- `/x/y` has no parent, and `/a` is there already. -/
theorem mkdir_untruthful :
    ¬ MkdirTruthful sampleEnv mfsSizes (contentOf mfsSizes sampleEnv.devs sampleDisk) (imageTable 1 sampleImage 2)
      sampleState (absPath [[120],[121]]) 0 ∧
    ¬ MkdirTruthful sampleEnv mfsSizes (contentOf mfsSizes sampleEnv.devs sampleDisk) (imageTable 1 sampleImage 2)
      sampleState (absPath [[97]]) 0 := by
  have hzero : ∀ path ∈ [absPath [[120],[121]],absPath [[97]]],
      ((mkdir sampleEnv path 0).run sampleState).1.toOption = some 0 := by decide +kernel
  have hnot : ∀ path ∈ [absPath [[120],[121]],absPath [[97]]], Refused mfsSizes (imageTable 1 sampleImage 2) sampleState
      path → ¬ MkdirTruthful sampleEnv mfsSizes (contentOf mfsSizes sampleEnv.devs sampleDisk)
        (imageTable 1 sampleImage 2) sampleState path 0 := by
    rintro path hp hr ⟨a,t,hrun,-,hfail⟩
    have ha := hzero path hp
    rw [hrun] at ha
    obtain rfl : a = 0 := Option.some.inj ha
    exact absurd (hfail hr).1 (by decide)
  have hparent : (imageTable 1 sampleImage 2).findParent (absPath [[120],[121]]) = none := by decide +kernel
  have hroot : (imageTable 1 sampleImage 2).findParent (absPath [[97]]) = some 0 := by decide +kernel
  have hchild : ((imageTable 1 sampleImage 2).child 0 (lastName (absPath [[97]]))).isSome := by decide +kernel
  refine ⟨hnot _ (by decide) (fun d hd => ?_),hnot _ (by decide) (fun d hd => Or.inl ?_)⟩
  · rw [hparent] at hd
    cases hd
  · rw [hroot] at hd
    exact Option.some.inj hd ▸ hchild

/-! ## The record of the parent -/

inductive DirCall
  | mkdir (path : List UInt8) (mode : UInt32)
  | rmdir (path : List UInt8)

def DirCall.target : DirCall → List UInt8
  | .mkdir path _ => path
  | .rmdir path => path

/-- The call has succeeded. A name that does not fit into a record is nobody's child. -/
def DirCall.Done (E : Env) (bs : BlkSizes) (T : Table) (s t : State) : DirCall → Prop
  | .mkdir path mode => (Filesys.mkdir E path mode).run s = (.ok 0,t) ∧ (lastName path).length < NVNAMLEN ∧
      Created E bs T s t path mode
  | .rmdir path => (Filesys.rmdir E path).run s = (.ok 0,t)

section Done
variable (h : Extensible E bs C T s) (hfull : ¬ Full t) (hd : T.findParent path = some d)
include h hfull hd

theorem mkdir_record (hnul : 0 ∉ path) (hdone : (DirCall.mkdir path mode).Done E bs T s t) :
    T.stored E bs t d = { T.stored E bs s d with child := (T.stored E bs t d).child } ↔ (d = 0 → RootShown T s) := by
  obtain ⟨hrun,hlen,hnew⟩ := hdone
  have hroom : ¬ Full ((mkdir E path mode).run s).2 := by
    rw [hrun]
    exact hfull
  obtain ⟨n,hn,hclear⟩ := hnew.first h hnul hroom hd hlen hrun
  obtain ⟨t',r,R,C',hrun',-,-,hmade⟩ := mkdir_made h hnul hroom hd hlen hn hclear
  obtain rfl : t = t' := (Prod.mk.inj (hrun.symm.trans hrun')).2
  have hlt := h.shaped.lt d hmade.takes.used
  have hstored : T.stored E bs t d = R d := (hmade.extensible h).stored_eq hlt
  rw [hstored,h.stored_eq hlt]
  exact hmade.saved.self_iff

theorem rmdir_record (hcov : T.count ≤ T.sb.cnt .IBLK * (8 * T.len bs))
    (hdone : (DirCall.rmdir path).Done E bs T s t) :
    T.stored E bs t d = { T.stored E bs s d with child := (T.stored E bs t d).child } ↔ (d = 0 → RootShown T s) := by
  have hrun : (rmdir E path).run s = (.ok 0,t) := hdone
  have hroom : ¬ Full ((rmdir E path).run s).2 := by
    rw [hrun]
    exact hfull
  obtain ⟨p,u,-,-,hfind,-⟩ := rmdir_lookup h hroom hrun
  have hempty : T.EmptyDir (u.ino p) := by
    by_contra hnot
    obtain ⟨_,t',hrun',rfl,-⟩ := (rmdir_refuses h.toServes (full_limit s.ofile) hfind hnot).run hroom
    exact absurd (hrun.symm.trans hrun') (by simp)
  obtain ⟨dirs,-,-,hres⟩ := findParent_path hd
  have hused := h.shaped.resolve_used h.shaped.root hres
  have hchild := hfind
  rw [find_eq_child,hd,Option.bind_some] at hchild
  obtain ⟨ks,hk⟩ := rmdir_kids h hroom hfind hused (Table.mem_of_child hchild).1 hrun
  obtain ⟨name,R,C',t',hf,hrun',hg⟩ := rmdir_gone h hcov hroom hfind hempty hused hk
  obtain rfl : t = t' := (Prod.mk.inj (hrun.symm.trans hrun')).2
  have hlt := h.shaped.lt d hused
  rw [hg.stored_eq h hf hlt,h.stored_eq hlt]
  exact hg.saved.self_iff

end Done

theorem parent_record_iff (E : Env) (bs : BlkSizes) (C : Content) (T : Table) (s t : State) (c : DirCall) (d : ℕ)
    (h : Extensible E bs C T s) (hcov : T.count ≤ T.sb.cnt .IBLK * (8 * T.len bs)) (hnul : 0 ∉ c.target)
    (hfull : ¬ Full t) (hd : T.findParent c.target = some d) (hdone : c.Done E bs T s t) :
    T.stored E bs t d = { T.stored E bs s d with child := (T.stored E bs t d).child } ↔ (d = 0 → RootShown T s) := by
  cases c with
  | mkdir path mode => exact mkdir_record h hfull hd hnul hdone
  | rmdir path => exact rmdir_record h hfull hd hcov hdone

/-- `/a/c` is removed from `/a`. -/
theorem parent_record_pair : ∃ t, (DirCall.rmdir (absPath [[97],[99]])).Done sampleEnv mfsSizes pairTable pairState t ∧
    pairTable.stored sampleEnv mfsSizes t 1 = { pairTable.stored sampleEnv mfsSizes pairState 1 with
      child := (pairTable.stored sampleEnv mfsSizes t 1).child } := by
  have hends : ((rmdir sampleEnv (absPath [[97],[99]])).run pairState).1.toOption = some 0 ∧
      ¬ Full ((rmdir sampleEnv (absPath [[97],[99]])).run pairState).2 := by decide +kernel
  obtain ⟨hzero,hroom⟩ := hends
  have hok := Mkmfs.toOption_some.mp hzero
  rcases hrun : (rmdir sampleEnv (absPath [[97],[99]])).run pairState with ⟨o,t⟩
  rw [hrun] at hok hroom
  have hdone : (DirCall.rmdir (absPath [[97],[99]])).Done sampleEnv mfsSizes pairTable pairState t :=
    hrun.trans (congrArg (·,t) hok)
  exact ⟨t,hdone,(parent_record_iff _ _ _ _ _ _ (.rmdir (absPath [[97],[99]])) 1 pair_extensible (by decide +kernel)
    (by decide) hroom (by decide +kernel) hdone).mpr nofun⟩

/-- The root loses its mode with `mkdir` of `/c`. -/
theorem root_record_lost : ∃ t,
    (DirCall.mkdir (absPath [[99]]) 0).Done sampleEnv mfsSizes (imageTable 1 sampleImage 2) sampleState t ∧
    (imageTable 1 sampleImage 2).findParent (absPath [[99]]) = some 0 ∧
    ((imageTable 1 sampleImage 2).stored sampleEnv mfsSizes sampleState 0).mode &&& S_IFMT = S_IFDIR ∧
    ((imageTable 1 sampleImage 2).stored sampleEnv mfsSizes t 0).mode = 0 ∧
    (imageTable 1 sampleImage 2).stored sampleEnv mfsSizes t 0 ≠
      { (imageTable 1 sampleImage 2).stored sampleEnv mfsSizes sampleState 0 with
        child := ((imageTable 1 sampleImage 2).stored sampleEnv mfsSizes t 0).child } := by
  have hnul : 0 ∉ absPath [[99]] := by decide
  have hroom : ¬ Full ((mkdir sampleEnv (absPath [[99]]) 0).run sampleState).2 := by decide +kernel
  have hd : (imageTable 1 sampleImage 2).findParent (absPath [[99]]) = some 0 := by decide +kernel
  obtain ⟨t,r,R,C',hrun,hstr,hmode,hmade⟩ := mkdir_made sample_extensible hnul hroom hd (by decide)
    (show 3 < 8 * Mkmfs.MFS_BLKSIZE by decide) (by decide +kernel)
  have hdir : ((imageTable 1 sampleImage 2).stored sampleEnv mfsSizes sampleState 0).mode &&& S_IFMT = S_IFDIR := by
    decide +kernel
  have hlost : ((imageTable 1 sampleImage 2).stored sampleEnv mfsSizes
      ((mkdir sampleEnv (absPath [[99]]) 0).run sampleState).2 0).mode = 0 := by decide +kernel
  rw [hrun] at hlost
  have hnew := hmade.created sample_extensible hstr hmode hd (by decide +kernel)
  refine ⟨t,⟨hrun,by decide,hnew⟩,hd,hdir,hlost,fun hkept => ?_⟩
  have hsame := hlost.symm.trans (congrArg Inode.mode hkept)
  rw [← show (0 : UInt32) = _ from hsame] at hdir
  exact absurd hdir (by decide)

end Micron.Filesys

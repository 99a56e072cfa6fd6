import Micron.Filesys.Readback
import Micron.Filesys.Recycle

/-! # The vnodes of open files

Nothing ever counts up the `sem` of a vnode. When all vnodes have been handed out,
`vcache_alloc` takes the first one again, and it does not matter whether a file that is open
uses it. The vnode of an open file is safe as long as that does not happen.
-/
namespace Micron.Filesys
open Function Bytes Kernel Prog
variable {E : Env} {s t u : State} {p q : VPtr} {α β : Type}

/-! ## The table of open files -/

/-- Entries of the table of open files that were in use keep their nodes, unless they are
`closed`, and the vnodes are the same. -/
structure Settles (closed : ℕ → Prop) (s t : State) : Prop where
  sane : Sane t
  vnode : t.vnode = s.vnode
  allocs : t.allocs = s.allocs
  node : ∀ fd, ¬ closed fd → (s.ofile fd).node ≠ .null → (t.ofile fd).node = (s.ofile fd).node

variable {closed : ℕ → Prop}

theorem Settles.refl (hs : Sane s) : Settles closed s s := ⟨hs,rfl,rfl,fun _ _ _ => rfl⟩

theorem Settles.trans (h : Settles closed s t) (h' : Settles closed t u) : Settles closed s u where
  sane := h'.sane
  vnode := h'.vnode.trans h.vnode
  allocs := h'.allocs.trans h.allocs
  node fd hc hfd := by
    have hnode := h.node fd hc hfd
    rw [h'.node fd hc (hnode ▸ hfd),hnode]

theorem Settles.of_core (hs : Sane s) (h : t.core = s.core) : Settles closed s t := by
  have hm : Moves (fun _ => False) s t := .of_core hs h
  have hv : t.vnode = s.vnode := congrArg Prod.fst h
  have ha : t.allocs = s.allocs := congrArg (fun c => c.2.2.1) h
  exact ⟨hm.sane,hv,ha,fun fd _ _ => hm.node fd⟩

theorem settles_of_fixes {x : K α} (hs : Sane s) (h : Fixes State.core x) :
    Relates (Settles closed) x (fun _ t => t.core = s.core) s :=
  .of_fixes h (fun _ => Settles.of_core hs)

theorem setOfile_core {fd : ℕ} {k : Ofile → Ofile} (hk : ∀ x, (k x).node = x.node) : Fixes State.core (setOfile fd k) := by
  refine .ite (fixes_modify fun s => ?_) (fixes_stop _)
  have hnode : (fun i => (update s.ofile fd (k (s.ofile fd)) i).node) = fun i => (s.ofile i).node := by
    funext i
    rw [update_apply]
    split
    · rename_i hi
      rw [hk,hi]
    · rfl
  exact congrArg (fun n => (s.vnode,s.vlist,s.allocs,n)) hnode

theorem settles_setOfile {fd : ℕ} {k : Ofile → Ofile} (hs : Sane s) (hfree : closed fd ∨ (s.ofile fd).node = .null)
    (hk : ∀ x, Points s (k x).node) : Relates (Settles closed) (setOfile fd k) (fun _ _ => True) s := by
  refine .ite (fun _ => ⟨⟨⟨hs.vlist,hs.links,fun i => ?_⟩,rfl,rfl,fun i hc hi => ?_⟩,trivial⟩) (fun _ => .refl hs)
  · change Points s (update s.ofile fd (k (s.ofile fd)) i).node
    rw [update_apply]
    split
    · exact hk _
    · exact hs.node i
  · change (update s.ofile fd (k (s.ofile fd)) i).node = _
    rw [update_of_ne]
    rintro rfl
    exact hfree.elim hc hi

theorem settles_ofileAlloc (hs : Sane s) : Relates (Settles closed) ofileAlloc (fun r t => t = s ∧
    ∀ fd, r = some fd → (s.ofile fd).node = .null) s := by
  refine ⟨.refl hs,rfl,fun fd hfd => ?_⟩
  simpa using List.find?_some hfd

/-- What a call does: entries that are not `closed` keep their nodes, and the extent of a
vnode changes only if it is allocated. -/
structure Steps (closed : ℕ → Prop) (s t : State) : Prop where
  sane : Sane t
  node : ∀ fd, ¬ closed fd → (s.ofile fd).node ≠ .null → (t.ofile fd).node = (s.ofile fd).node
  new : ∃ new, t.allocs = s.allocs ++ new ∧
    (∀ a ∈ new, a.Regular ∧ ∀ fd, (a.ofile fd).node = (s.ofile fd).node) ∧
    ∀ q, (∃ a ∈ new, VPtr.ofPtr a.got = q) ∨ (t.vnode q).extent = (s.vnode q).extent

theorem Moves.settle (h : Moves (fun _ => False) s t) (h' : Settles closed t u) : Steps closed s u := by
  obtain ⟨new,hnew,hreg,hext⟩ := h.new
  refine ⟨h'.sane,fun fd hc hfd => ?_,new,h'.allocs.trans hnew,hreg,fun q => ?_⟩
  · rw [h'.node fd hc (by rw [h.node fd]; exact hfd),h.node fd]
  · rw [h'.vnode]
    exact hext q id

theorem Moves.steps (h : Moves (fun _ => False) s t) : Steps closed s t := h.settle (.refl h.sane)

def openFound (E : Env) (vp : VPtr) (oflag : UInt32) : K Opened := do
  let v ← vnode vp
  if oflag &&& O_RDONLY = O_RDONLY ∧ v.mode &&& S_IRUSR ≠ S_IRUSR then return .err
  if oflag &&& O_WRONLY = O_WRONLY ∧ v.mode &&& S_IWUSR ≠ S_IWUSR then return .err
  let some i ← mountabGet v.dev | return .err
  let m ← mount (some i)
  let scp ← scacheGet E v.dev v.blkentry m.blksize
  if scp = none then return .err
  let some fd ← ofileAlloc | return .err
  setOfile fd (fun f => { f with node := vp, mount := some i, oflag := oflag })
  if logand oflag O_APPEND = O_APPEND then
    setOfile fd (fun f => { f with pos := v.size.toInt32 })
  else if logand oflag O_TRUNC = O_TRUNC then
    setOfile fd (fun f => { f with pos := 0 })
    setVnode vp (fun v => { v with size := 0 })
    fsCall m.fs (truncLoop E m.super v.dev (v.blkentry + v.blocks) E.fuel v.blkentry)
    setVnode vp (fun v => { v with blkentry := 0, blocks := 0 })
  else setOfile fd (fun f => { f with pos := 0 })
  let f ← ofile fd
  let _ ← lseek E fd f.pos SEEK_SET
  return .file fd

theorem settles_openFound (oflag : UInt32) (ht : Sane t) (hp : Points t p) :
    Relates (Settles closed) (openFound E p oflag) (fun _ _ => True) t := by
  refine .bind Settles.trans (settles_of_fixes ht (fixes_vnode p)) fun v t₁ h₁ hm _ => ?_
  refine .ite (fun _ => relates_pure (.refl hm.sane) trivial) fun _ => ?_
  refine .ite (fun _ => relates_pure (.refl hm.sane) trivial) fun _ => ?_
  refine .bind Settles.trans (settles_of_fixes hm.sane (fixes_mountabGet _)) fun i t₂ h₂ hm _ => ?_
  cases i with
  | none => exact relates_pure (.refl hm.sane) trivial
  | some i =>
    refine .bind Settles.trans (settles_of_fixes hm.sane (fixes_mount _)) fun m t₃ h₃ hm _ => ?_
    refine .bind Settles.trans (settles_of_fixes hm.sane (core_blind.scacheGet _ _ _)) fun scp t₄ h₄ hm _ => ?_
    refine .ite (fun _ => relates_pure (.refl hm.sane) trivial) fun _ => ?_
    refine .bind Settles.trans (settles_ofileAlloc hm.sane) ?_
    rintro fd _ - hm ⟨rfl,hfree⟩
    cases fd with
    | none => exact relates_pure (.refl hm.sane) trivial
    | some fd =>
      have hp := hp.mono (h₁.trans (h₂.trans (h₃.trans h₄)))
      refine .bind Settles.trans (settles_setOfile hm.sane (Or.inr (hfree fd rfl)) fun _ => hp) fun _ t₅ _ hm _ => ?_
      have hpos : ∀ k : Ofile → Int32, Fixes State.core (setOfile fd (fun x => { x with pos := k x })) :=
        fun k => setOfile_core fun _ => rfl
      have hseek : ∀ u, Sane u → Relates (Settles closed) (do
          let f ← ofile fd
          let _ ← lseek E fd f.pos SEEK_SET
          return Opened.file fd) (fun _ _ => True) u := by
        intro u hu
        refine .bind Settles.trans (settles_of_fixes hu (fixes_ofile fd)) fun f u₁ _ hm _ => ?_
        refine .bind Settles.trans (settles_of_fixes hm.sane (fixes_lseek core_blind hpos _ _)) fun _ u₂ _ hm _ => ?_
        exact relates_pure (.refl hm.sane) trivial
      refine .ite (fun _ => ?_) fun _ => .ite (fun h => absurd h (logand_ne_trunc _ _)) fun _ => ?_
      · exact .bind Settles.trans (settles_of_fixes hm.sane (hpos _)) fun _ u _ hm _ => hseek u hm.sane
      · exact .bind Settles.trans (settles_of_fixes hm.sane (hpos _)) fun _ u _ hm _ => hseek u hm.sane

theorem steps_open (path : List UInt8) (oflag : UInt32) (hs : Sane s) :
    wp (open_ E path oflag) (fun _ t => Steps closed s t) (Steps closed s) s := by
  unfold open_
  rw [wp_bind]
  refine wp.mono (goes_vget path false hs) (fun p t _ hp => ?_) (fun t _ hm => hm.steps)
  obtain ⟨hm,hp⟩ := hp
  suffices hrest : Relates (Settles closed) _ (fun _ _ => True) t from
    wp.mono hrest (fun _ u _ hu => hm.settle hu.1) (fun u _ hu => hm.settle hu)
  have ht := hm.sane
  refine .ite (fun _ => ?_) (fun _ => ?_)
  · exact .ite (fun _ => relates_pure (.refl ht) trivial) (fun _ => settles_openFound oflag ht hp)
  · exact .ite (fun _ => relates_pure (.refl ht) trivial) (fun _ => settles_openFound oflag ht hp)

theorem settles_close (fd : ℕ) (hs : Sane s) : Relates (Settles (fun i => i = fd)) (close E fd) (fun _ _ => True) s := by
  refine .ite (fun _ => relates_pure (.refl hs) trivial) fun _ => ?_
  refine .bind Settles.trans (settles_of_fixes hs (fixes_ofile fd)) fun f t₁ _ hm _ => ?_
  refine .bind Settles.trans (settles_of_fixes hm.sane (fixes_vnode _)) fun v t₂ _ hm _ => ?_
  refine .bind Settles.trans (settles_of_fixes hm.sane (fixes_mount _)) fun m t₃ _ hm _ => ?_
  refine .bind Settles.trans (settles_of_fixes hm.sane (core_blind.scacheCommit _ _)) fun _ t₄ _ hm _ => ?_
  refine .bind Settles.trans (settles_setOfile hm.sane (Or.inl rfl) fun _ => points_null) fun _ t₅ _ hm _ => ?_
  exact relates_pure (.refl hm.sane) trivial

/-! ## Runs -/

/-- A call of a program. The values of `oldblk` in `read` and `write` are those it happens to
have before the first iteration. -/
inductive FsCall where
  | vget (path : List UInt8) (parent : Bool)
  | mkdir (path : List UInt8) (mode : UInt32)
  | rmdir (path : List UInt8)
  | open_ (path : List UInt8) (oflag : UInt32)
  | read (oldblk : Int32) (fd : ℕ) (buf : ℕ → UInt8) (nbyte : UInt32)
  | write (oldblk : Int32) (fd : ℕ) (buf : ℕ → UInt8) (nbyte : UInt32)
  | lseek (fd : ℕ) (offset whence : Int32)
  | close (fd : ℕ)

def FsCall.exec (E : Env) : FsCall → K Unit
  | .vget path parent => do let _ ← Filesys.vget E path parent
  | .mkdir path mode => do let _ ← Filesys.mkdir E path mode
  | .rmdir path => do let _ ← Filesys.rmdir E path
  | .open_ path oflag => do let _ ← Filesys.open_ E path oflag
  | .read oldblk fd buf nbyte => do let _ ← Filesys.read E oldblk fd buf nbyte
  | .write oldblk fd buf nbyte => do let _ ← Filesys.write E oldblk fd buf nbyte
  | .lseek fd offset whence => do let _ ← Filesys.lseek E fd offset whence
  | .close fd => do let _ ← Filesys.close E fd

def FsCall.closes : FsCall → ℕ → Prop
  | .close fd, i => i = fd
  | _, _ => False

theorem Steps.of_goes {x : K α} {Q : α → State → Prop} (h : Goes (fun _ => False) x Q s) :
    wp (do let _ ← x) (fun _ t => Steps closed s t) (Steps closed s) s := by
  rw [wp_bind]
  exact wp.mono h (fun _ t _ ht => ht.1.steps) (fun t _ ht => ht.steps)

theorem FsCall.steps (c : FsCall) (hs : Sane s) : Steps c.closes s ((c.exec E).run s).2 := by
  have hpos : ∀ fd (k : Ofile → Int32), Fixes State.core (setOfile fd (fun x => { x with pos := k x })) :=
    fun fd k => setOfile_core fun _ => rfl
  refine wp.left ?_
  cases c with
  | vget path parent => exact Steps.of_goes (goes_vget path parent hs)
  | mkdir path mode => exact Steps.of_goes (goes_mkdir path mode hs)
  | rmdir path => exact Steps.of_goes (goes_rmdir path hs)
  | open_ path oflag =>
    rw [exec,wp_bind]
    exact steps_open path oflag hs
  | read oldblk fd buf nbyte => exact Steps.of_goes (goes_of_fixes hs (fixes_read core_blind (hpos fd) oldblk buf nbyte))
  | write oldblk fd buf nbyte =>
    exact Steps.of_goes (goes_of_fixes hs (fixes_write core_blind (hpos fd) oldblk buf nbyte))
  | lseek fd offset whence => exact Steps.of_goes (goes_of_fixes hs (fixes_lseek core_blind (hpos fd) offset whence))
  | close fd =>
    rw [exec,wp_bind]
    refine wp.mono (settles_close fd hs) (fun _ t _ ht => ?_) (fun t _ ht => ?_)
    · exact (Moves.refl hs).settle ht.1
    · exact (Moves.refl hs).settle ht

def session (E : Env) : List FsCall → K Unit
  | [] => return
  | c :: cs => do
    c.exec E
    session E cs

theorem session_append {pre post : List FsCall} (h : (session E pre).run s = (.ok (),u)) :
    (session E (pre ++ post)).run s = (session E post).run u := by
  induction pre generalizing s with
  | nil =>
    obtain rfl : s = u := (Prod.mk.inj h).2
    rfl
  | cons c pre ih =>
    obtain ⟨_,t,hc,hpre⟩ := of_run_bind h
    exact (run_bind hc).trans (ih hpre)

theorem session_inv {P : State → Prop} (cs : List FsCall) (hs : Sane s) (hP : P s)
    (hstep : ∀ c ∈ cs, ∀ s t, Sane s → P s → Steps c.closes s t → P t) : P ((session E cs).run s).2 := by
  induction cs generalizing s with
  | nil => exact hP
  | cons c cs ih =>
    have hc : Steps c.closes s ((c.exec E).run s).2 := c.steps hs
    have ht := hstep c List.mem_cons_self s _ hs hP hc
    rw [session]
    simp only [bind]
    split <;> rename_i hr <;> rw [hr] at hc ht
    · exact ih hc.sane ht (fun c' hc' => hstep c' (List.mem_cons_of_mem _ hc'))
    · exact ht

theorem session_regular (cs : List FsCall) (hs : Sane s) (ha : ∀ a ∈ s.allocs, a.Regular) :
    ∀ a ∈ ((session E cs).run s).2.allocs, a.Regular := by
  refine session_inv (P := fun t => ∀ a ∈ t.allocs, a.Regular) cs hs ha (fun c _ s t _ hP hc => ?_)
  obtain ⟨new,hnew,hreg,-⟩ := hc.new
  intro a ha
  rw [hnew] at ha
  rcases List.mem_append.mp ha with ha | ha
  · exact hP a ha
  · exact (hreg a ha).1

/-- A file that stays open keeps its extent, unless its vnode is given away. -/
theorem session_extent {fd : ℕ} {cs : List FsCall} (hs : Sane s) (hopen : (s.ofile fd).node ≠ .null)
    (hcs : ∀ c ∈ cs, ¬ c.closes fd) (hspare : ∀ a ∈ ((session E cs).run s).2.allocs, a.Spares) :
    (((session E cs).run s).2.vnode (s.ofile fd).node).extent = (s.vnode (s.ofile fd).node).extent := by
  have hinv := session_inv (E := E) (P := fun t => (t.ofile fd).node = (s.ofile fd).node ∧
    ((∃ a ∈ t.allocs, ¬ a.Spares) ∨ (t.vnode (s.ofile fd).node).extent = (s.vnode (s.ofile fd).node).extent)) cs hs
    ⟨rfl,Or.inr rfl⟩ ?_
  · refine hinv.2.resolve_left ?_
    rintro ⟨a,ha,hnot⟩
    exact hnot (hspare a ha)
  · rintro c hc u v hu ⟨hnode,hext⟩ hstep
    obtain ⟨new,hnew,hreg,hmoved⟩ := hstep.new
    refine ⟨(hstep.node fd (hcs c hc) (hnode ▸ hopen)).trans hnode,?_⟩
    rcases hext with ⟨a,ha,hnot⟩ | hext
    · exact Or.inl ⟨a,hnew ▸ List.mem_append_left _ ha,hnot⟩
    · rcases hmoved (s.ofile fd).node with ⟨a,ha,hgot⟩ | hsame
      · refine Or.inl ⟨a,hnew ▸ List.mem_append_right _ ha,fun hsp => ?_⟩
        have ha' := (hreg a ha).2 fd
        rw [hnode] at ha'
        exact (hsp fd).elim (fun h0 => hopen (ha'.symm.trans h0)) (fun hne => hne (ha'.trans hgot.symm))
      · exact Or.inr (hsame.trans hext)

theorem Alloc.Regular.spares_iff {a : Alloc} (h : a.Regular) :
    a.Spares ↔ a.vlist.cnt < NVCHCNTS ∨ ∀ fd, (a.ofile fd).node ≠ .vc 0 := by
  rcases h.got with ⟨hlt,hgot⟩ | ⟨hfull,hgot⟩
  · refine iff_of_true (fun fd => Or.inr fun he => ?_) (Or.inl hlt)
    rw [hgot] at he
    exact Nat.lt_irrefl _ (h.node fd _ he)
  · have hnot : ¬ a.vlist.cnt < NVCHCNTS := Nat.not_lt.mpr (Nat.le_of_eq hfull.symm)
    rw [Alloc.Spares,hgot,or_iff_right hnot]
    refine forall_congr' fun fd => ⟨fun hsp he => ?_,Or.inr⟩
    rcases hsp with h0 | hne
    · rw [he] at h0
      cases h0
    · exact hne he

/-! ## After boot -/

def mounts (E : Env) : List (UInt32 × UInt32 × UInt32) → K Unit
  | [] => return
  | (hdev,hino,dev) :: l => do
    let _ ← mountabMount E hdev hino dev
    mounts E l

def State.booted (E : Env) (disk : ℕ → ℕ → UInt8) (l : List (UInt32 × UInt32 × UInt32)) : State :=
  ((mounts E l).run (State.boot disk)).2

def State.wiring (s : State) : (VPtr → VPtr × VPtr × VPtr × VPtr) × AllocList × List Alloc × (ℕ → VPtr) :=
  (fun p => ((s.vnode p).next,(s.vnode p).parent,(s.vnode p).child,(s.vnode p).expand),s.vlist,s.allocs,
    fun fd => (s.ofile fd).node)

theorem mounts_wiring (l : List (UInt32 × UInt32 × UInt32)) : Fixes State.wiring (mounts E l) := by
  have hblind : Blind State.wiring := fun _ _ => rfl
  have hroot : ∀ dev i, Fixes State.wiring (setVnode (.root i) (fun v => { v with ino := 0, dev := dev })) := by
    refine fun dev i => .ite (fixes_modify fun s => ?_) (fixes_stop _)
    refine Prod.ext (funext fun p => ?_) rfl
    simp only [State.wiring,update_apply]
    split
    · rename_i hp
      rw [hp]
    · rfl
  induction l with
  | nil => exact fixes_pure _
  | cons m l ih =>
    exact (fixes_mountabMount hblind.scacheGet (fun _ _ => fixes_modify fun _ => rfl) _ _ _ (hroot _)).bind fun _ => ih

theorem booted_sane (disk : ℕ → ℕ → UInt8) (l : List (UInt32 × UInt32 × UInt32)) :
    Sane (State.booted E disk l) ∧ (State.booted E disk l).allocs = [] := by
  have h := mounts_wiring (E := E) l (State.boot disk)
  simp only [State.wiring,Prod.mk.injEq] at h
  obtain ⟨hlinks,hvlist,hallocs,hnode⟩ := h
  refine ⟨⟨hvlist ▸ AllocList.boot_unused,fun p => ?_,fun fd => ?_⟩,hallocs⟩
  · have hp := congrFun hlinks p
    simp only [Prod.mk.injEq] at hp
    obtain ⟨hnext,hparent,hchild,hexpand⟩ := hp
    refine ⟨?_,?_,?_,?_⟩
    · exact hnext ▸ points_null
    · exact hparent ▸ points_null
    · exact hchild ▸ points_null
    · exact hexpand ▸ points_null
  · have hfd := congrFun hnode fd
    exact hfd ▸ points_null

/-- In a run from boot, no vnode of an open file is given away, and files that stay open keep
their extents. -/
def FilesKept (E : Env) (s : State) (cs : List FsCall) : Prop :=
  (∀ a ∈ ((session E cs).run s).2.allocs, a.Spares) ∧
  ∀ pre post u fd, cs = pre ++ post → (session E pre).run s = (.ok (),u) → (∀ c ∈ post, ¬ c.closes fd) →
    (u.ofile fd).node ≠ .null →
    (((session E cs).run s).2.vnode (u.ofile fd).node).extent = (u.vnode (u.ofile fd).node).extent

theorem files_kept_iff (E : Env) (disk : ℕ → ℕ → UInt8) (l : List (UInt32 × UInt32 × UInt32)) (cs : List FsCall) :
    FilesKept E (State.booted E disk l) cs ↔ ∀ a ∈ ((session E cs).run (State.booted E disk l)).2.allocs,
      a.vlist.cnt < NVCHCNTS ∨ ∀ fd, (a.ofile fd).node ≠ .vc 0 := by
  obtain ⟨hs,hallocs⟩ := booted_sane (E := E) disk l
  have hreg := session_regular (E := E) cs hs (by rw [hallocs]; exact nofun)
  have hspare : (∀ a ∈ ((session E cs).run (State.booted E disk l)).2.allocs, a.Spares) ↔
      ∀ a ∈ ((session E cs).run (State.booted E disk l)).2.allocs,
        a.vlist.cnt < NVCHCNTS ∨ ∀ fd, (a.ofile fd).node ≠ .vc 0 :=
    forall₂_congr fun a ha => (hreg a ha).spares_iff
  rw [← hspare]
  refine ⟨fun h => h.1,fun h => ⟨h,?_⟩⟩
  rintro pre post u fd rfl hpre hpost hopen
  rw [session_append hpre] at h ⊢
  have hu : Sane u := by
    have hinv := session_inv (E := E) (P := Sane) pre hs hs (fun _ _ _ _ _ _ hc => hc.sane)
    rwa [hpre] at hinv
  exact session_extent hu hopen hpost h

/-! ## A list of children without an end -/

/-- Some call of `vcache_alloc` gave away the vnode of an open file. -/
def Lost (s : State) : Prop := ∃ a ∈ s.allocs, ¬ a.Spares

theorem Lost.mono (h : Lost s) (hle : s ≤ t) : Lost t := by
  obtain ⟨a,ha,hnot⟩ := h
  exact ⟨a,hle.2.2.subset ha,hnot⟩

/-- A record that is its own `next` is loaded until the first vnode is given away. -/
theorem lnodeLoop_lost {sb : Sblk} {ip : IPtr} {r : Inode} {c : Scache} {dev : UInt32} {k fd fuel : ℕ} {lvp lvep : VPtr}
    (hip : ip.Reads c r) (hfit : r.Fits) (hnext : r.next ≠ 0) (hexp : r.expand = 0)
    (hget : ∀ t : State, t.scache = c → (mfsGet E sb dev r.next).run t = (.ok ip,t))
    (hc : s.scache = c) (hv : s.vlist.Unused NVCHCNTS) (hk : k < s.vlist.cnt) (hdev : (s.vnode (.vc k)).dev = dev)
    (hopen : (s.ofile fd).node = .vc 0) (hl : lvp = .null ∨ lvp.isNode) (hfuel : NVCHCNTS - s.vlist.cnt < fuel) :
    wp (lnodeLoop E sb (.vc k) fuel ip lvp lvep) (fun _ => Lost) Lost s := by
  induction fuel generalizing s lvp lvep with
  | zero => omega
  | succ fuel ih =>
    unfold lnodeLoop
    rw [wp_bind]
    refine wp_vcacheAlloc hv (fun i l hl' hi hcase => ?_)
    rcases hcase with ⟨hlt,rfl,rfl⟩ | ⟨-,rfl,-⟩
    · have hnode : (VPtr.vc k).isNode := rfl
      have hnew : (VPtr.vc s.vlist.cnt).isNode := rfl
      have hkne : VPtr.vc k ≠ .vc s.vlist.cnt := fun he => absurd (VPtr.vc.inj he) (Nat.ne_of_lt hk)
      rw [if_neg (by simp),wp_bind,wp_vnode hnode,wp_bind]
      refine Iff.mpr (wp_translate hip hc hfit hnew) ?_
      rw [wp_bind]
      refine Iff.mpr (wp_inode hip hc) ?_
      rw [wp_bind,wp_setVnode hnew]
      dsimp only
      have hrest : ∀ t : State, t.scache = c → t.vlist = s.vlist.append → t.ofile = s.ofile →
          (t.vnode (.vc k)).dev = dev → wp (do
            let lvep ← if r.expand ≠ 0 then do
                let iep ← mfsGet E sb (← vnode (.vc k)).dev r.expand
                lnodeExpand E sb (.vc k) (.vc s.vlist.cnt) E.fuel iep lvep
              else pure lvep
            let n ← inode ip
            if n.next = 0 then return
            let ip ← mfsGet E sb (← vnode (.vc k)).dev n.next
            lnodeLoop E sb (.vc k) fuel ip (.vc s.vlist.cnt) lvep) (fun _ => Lost) Lost t := by
        intro t htc htl hto htd
        rw [if_neg (not_not.mpr hexp),wp_bind,wp_pure,wp_bind,wp_inode hip htc,if_neg hnext,wp_bind,wp_vnode hnode,htd,
          wp_bind]
        refine wp_of_run (hget t htc) (ih htc (htl ▸ hl') ?_ htd (hto ▸ hopen) (Or.inr hnew) ?_)
        · rw [htl]
          exact Nat.lt_trans hk hi
        · rw [htl,AllocList.append_cnt]
          omega
      rcases eq_or_ne lvp .null with h0 | h0
      · rw [if_pos h0,wp_bind,wp_setVnode hnode]
        refine hrest _ hc rfl rfl ?_
        simp only [update_self,update_of_ne hkne]
        exact hdev
      · rw [if_neg h0,wp_bind,wp_setVnode (hl.resolve_left h0)]
        refine hrest _ hc rfl rfl ?_
        by_cases hkl : VPtr.vc k = lvp
        · simp only [← hkl,update_self,update_of_ne hkne]
          exact hdev
        · simp only [update_of_ne hkl,update_of_ne hkne]
          exact hdev
    · -- the state after the allocation is lost, and so is any later one
      rw [if_neg (by simp)]
      have hlost : Lost { s with vlist := l, allocs := s.allocs ++ [⟨s.vlist,s.ofile,some 0⟩] } :=
        ⟨_,List.mem_append_right _ List.mem_cons_self,fun hsp => (hsp fd).elim (by simp [hopen])
          (fun hne => hne hopen)⟩
      exact wp.mono wp_true (fun _ t hst _ => hlost.mono hst) (fun t hst _ => hlost.mono hst)

theorem mfsGet_hit {sb : Sblk} {dev n : UInt32} {i : ℕ} (hsize : sb.blksize.toUInt32 / INODESZ.toUInt32 ≠ 0)
    (hfit : ¬ (sb.blksize < 0 ∨ NMXBLKSZ < sb.blksize.toNatClampNeg / 512 * 512))
    (hseek : s.scache.scacheSeek (s.scache.clist (slot dev.toNat))
      (sb.iblk + (INODESZ.toUInt32 * n / sb.blksize.toUInt32).toInt32).toInt = some (some i)) :
    (mfsGet E sb dev n).run s = (.ok ⟨some i,(n % (sb.blksize.toUInt32 / INODESZ.toUInt32)).toNat * INODESZ⟩,
      { s with scache := s.scache.scachePromo (some i) }) := by
  have hc : Scache.scacheGet E.devs dev.toNat
      (sb.iblk + (INODESZ.toUInt32 * n / sb.blksize.toUInt32).toInt32).toInt sb.blksize.toNatClampNeg s.scache =
      some (some i,s.scache.scachePromo (some i)) := by
    unfold Scache.scacheGet
    rw [hseek]
    rfl
  have hget : (scacheGet E dev (sb.iblk + (INODESZ.toUInt32 * n / sb.blksize.toUInt32).toInt32) sb.blksize).run s =
      (.ok (some i),{ s with scache := s.scache.scachePromo (some i) }) := by
    unfold scacheGet
    rw [if_neg hfit]
    simp only [cached,step,hc]
  unfold mfsGet
  rw [if_neg hsize,run_bind hget]
  rfl

/-- Loading the children of a node whose list runs into such a record. -/
theorem mfsLnode_lost {sb : Sblk} {ip ip₀ : IPtr} {n r : Inode} {c : Scache} {k fd : ℕ}
    (h₀ : (mfsGet E sb (s.vnode (.vc k)).dev (s.vnode (.vc k)).ino).run s = (.ok ip₀,{ s with scache := c }))
    (hn : ip₀.Reads c n) (hchild : n.child ≠ 0) (hnext : r.next = n.child)
    (hget : ∀ t : State, t.scache = c → (mfsGet E sb (s.vnode (.vc k)).dev n.child).run t = (.ok ip,t))
    (hip : ip.Reads c r) (hfit : r.Fits) (hexp : r.expand = 0) (hs : Sane s) (hk : k < s.vlist.cnt)
    (hopen : (s.ofile fd).node = .vc 0) (hfuel : NVCHCNTS < E.fuel) :
    wp (mfsLnode E sb (.vc k)) (fun _ => Lost) Lost s := by
  unfold mfsLnode
  rw [wp_bind,wp_vnode rfl,wp_bind]
  refine wp_of_run h₀ ?_
  rw [wp_bind,wp_inode hn rfl,if_neg hchild,wp_bind]
  refine wp_of_run (hget _ rfl) ?_
  exact lnodeLoop_lost hip hfit (hnext ▸ hchild) hexp (hnext ▸ hget) rfl hs.vlist hk rfl hopen (Or.inl rfl) (by omega)

/-- What is lost stays lost. -/
theorem wp_bind_lost {α β : Type} {x : K α} {f : α → K β} (h : wp x (fun _ => Lost) Lost s) :
    wp (x >>= f) (fun _ => Lost) Lost s := by
  rw [wp_bind]
  refine wp.mono h (fun a t _ ht => ?_) (fun _ _ ht => ht)
  exact wp.mono wp_true (fun _ _ hle _ => ht.mono hle) (fun _ hle _ => ht.mono hle)

theorem loadChildren_lost {i k : ℕ}
    (hdev : (List.range NVFSMNTS).find? (fun i => (s.vnode (.root i)).dev = (s.vnode (.vc k)).dev) = some i)
    (hfs : (s.mountab i).fs = some .MFS) (hchild : (s.vnode (.vc k)).child.isNode = false)
    (h : wp (mfsLnode E (s.mountab i).super (.vc k)) (fun _ => Lost) Lost s) :
    wp (loadChildren E (.vc k)) (fun _ => Lost) Lost s := by
  have hm : (mountabGet (s.vnode (.vc k)).dev).run s = (.ok (some i),s) :=
    congrArg (fun o => ((.ok o : Except Stop (Option ℕ)),s)) hdev
  unfold loadChildren
  rw [wp_bind,wp_vnode rfl,wp_bind]
  refine wp_of_run hm ?_
  rw [wp_bind,wp_mount,wp_bind,wp_loaded rfl,hchild,hfs]
  exact wp_bind_lost h

theorem vget_lost {path : List UInt8} {k : ℕ} (hstat : (s.mountab 0).stat)
    (hloop : (vgetLoop E (splitPath path).1 (.root 0)).run s = (.ok (.vc k),t))
    (h : wp (loadChildren E (.vc k)) (fun _ => Lost) Lost t) :
    wp (vget E (slash :: path) false) (fun _ => Lost) Lost s := by
  have hroot : mountabGetroot.run s = (.ok (some 0),s) :=
    congrArg (fun o => ((.ok o : Except Stop (Option ℕ)),s)) (if_pos hstat)
  unfold vget
  rw [if_neg (by simp),wp_bind]
  refine wp_of_run hroot ?_
  dsimp only [List.tail_cons]
  rw [wp_bind]
  refine wp_of_run hloop ?_
  rw [if_neg (by simp)]
  exact wp_bind_lost h

theorem vgetLoop_sane {dirs : List (List UInt8)} {i : ℕ} {p : VPtr} (hs : Sane s)
    (h : (vgetLoop E dirs (.root i)).run s = (.ok p,t)) : Sane t := by
  have hgoes : Goes (fun _ => True) (vgetLoop E dirs (.root i)) (fun q u => Points u q) s :=
    goes_vgetLoop dirs hs (points_root i)
  exact (wp.of_run hgoes h).1.sane

theorem not_filesKept {pre : List FsCall} {c : FsCall} (hpre : (session E pre).run s = (.ok (),t))
    (h : wp (c.exec E) (fun _ => Lost) Lost t) : ¬ FilesKept E s (pre ++ [c]) := by
  intro hkept
  obtain ⟨a,ha,hnot⟩ := (wp_bind_lost (f := fun _ => session E []) h).left
  refine hnot (hkept.1 a ?_)
  rw [session_append hpre]
  exact ha

/-- A block of 512 bytes with the inode table: the root with the file `f` and the directory
`d`, whose only child comes after itself. -/
def loopBytes : List (ℕ × UInt8) :=
  [(0,77),(1,70),(2,83),(24,1),(41,2),(632,1),
   (640,102),(708,1),(712,1),(752,2),
   (768,100),(836,2),(842,4),(888,3),
   (896,121),(964,3),(1008,3)]

def loopDisk : ℕ → ℕ → UInt8 := fun _ a => (loopBytes.lookup a).getD 0

@[irreducible] def loopState : State :=
  ((session sampleEnv [.open_ [slash,102] O_RDONLY]).run (State.booted sampleEnv loopDisk [(0,0,1)])).2

@[irreducible] def loopFound : State := ((vgetLoop sampleEnv [[100]] (.root 0)).run loopState).2

theorem loopState_run :
    (session sampleEnv [.open_ [slash,102] O_RDONLY]).run (State.booted sampleEnv loopDisk [(0,0,1)]) =
      (.ok (),loopState) := by
  unfold loopState
  exact Prod.ext (Mkmfs.toOption_some.mp (by decide +kernel)) rfl

theorem loopFound_run : (vgetLoop sampleEnv [[100]] (.root 0)).run loopState = (.ok (.vc 1),loopFound) := by
  unfold loopFound
  exact Prod.ext (Mkmfs.toOption_some.mp (by decide +kernel)) rfl

theorem loopState_sane : Sane loopState := by
  have hinv := session_inv (E := sampleEnv) (P := Sane) [.open_ [slash,102] O_RDONLY]
    (booted_sane (E := sampleEnv) loopDisk [(0,0,1)]).1 (booted_sane (E := sampleEnv) loopDisk [(0,0,1)]).1
    (fun _ _ _ _ _ _ hc => hc.sane)
  rwa [loopState_run] at hinv

def loopCache : Scache := loopFound.scache.scachePromo (some 1)

theorem loopFound_lost : wp (mfsLnode sampleEnv (loopFound.mountab 0).super (.vc 1)) (fun _ => Lost) Lost loopFound := by
  have hreads : ∀ n, n ≤ 3 → (⟨some 1,n * INODESZ⟩ : IPtr).Reads loopCache
      (Inode.read (loopCache.buf (some 1)) (n * INODESZ)) :=
    fun n hn => ⟨by simp only [INODESZ,NMXBLKSZ]; omega,1,rfl,rfl⟩
  have hino : (loopFound.vnode (.vc 1)).ino = 2 := by decide +kernel
  have hchild : (Inode.read (loopCache.buf (some 1)) (2 * INODESZ)).child = 3 := by decide +kernel
  have hnext : (Inode.read (loopCache.buf (some 1)) (3 * INODESZ)).next = 3 := by decide +kernel
  have hexp : (Inode.read (loopCache.buf (some 1)) (3 * INODESZ)).expand = 0 := by decide +kernel
  have hfits : (Inode.read (loopCache.buf (some 1)) (3 * INODESZ)).Fits := ⟨by decide +kernel,by decide +kernel⟩
  have hsize : (loopFound.mountab 0).super.blksize = 512 := by decide +kernel
  have hiblk : (loopFound.mountab 0).super.iblk = 1 := by decide +kernel
  have hopen : (loopFound.ofile 0).node = .vc 0 := by decide +kernel
  have hfound : (mfsGet sampleEnv (loopFound.mountab 0).super (loopFound.vnode (.vc 1)).dev
      (loopFound.vnode (.vc 1)).ino).run loopFound = (.ok ⟨some 1,2 * INODESZ⟩,{ loopFound with scache := loopCache }) := by
    have hseek : loopFound.scache.scacheSeek (loopFound.scache.clist (slot (loopFound.vnode (.vc 1)).dev.toNat))
        ((loopFound.mountab 0).super.iblk +
          (INODESZ.toUInt32 * 2 / (loopFound.mountab 0).super.blksize.toUInt32).toInt32).toInt = some (some 1) := by
      rw [hsize,hiblk]
      decide +kernel
    rw [hino,mfsGet_hit (by rw [hsize]; decide) (by rw [hsize]; decide) hseek,hsize]
    rfl
  refine mfsLnode_lost hfound (hreads 2 (by decide)) (by rw [hchild]; decide) (hnext.trans hchild.symm) ?_
    (hreads 3 le_rfl) hfits hexp (vgetLoop_sane loopState_sane loopFound_run) (by decide +kernel) hopen (by decide)
  intro t ht
  rw [hchild]
  have hseek : t.scache.scacheSeek (t.scache.clist (slot (loopFound.vnode (.vc 1)).dev.toNat))
      ((loopFound.mountab 0).super.iblk +
        (INODESZ.toUInt32 * 3 / (loopFound.mountab 0).super.blksize.toUInt32).toInt32).toInt = some (some 1) := by
    rw [ht,hsize,hiblk]
    decide +kernel
  have hlast : t.scache.scachePromo (some 1) = t.scache := by
    unfold Scache.scachePromo AllocList.promo
    rw [if_pos]
    rw [ht]
    decide +kernel
  rw [mfsGet_hit (by rw [hsize]; decide) (by rw [hsize]; decide) hseek,hlast,hsize]
  rfl

theorem open_file_lost : ¬ FilesKept sampleEnv (State.booted sampleEnv loopDisk [(0,0,1)])
    [.open_ [slash,102] O_RDONLY,.vget [slash,100,slash,120] false] := by
  have hvget : wp (vget sampleEnv [slash,100,slash,120] false) (fun _ => Lost) Lost loopState := by
    refine vget_lost (by decide +kernel) loopFound_run ?_
    exact loadChildren_lost (by decide +kernel) (by decide +kernel) (by decide +kernel) loopFound_lost
  have hexec : wp ((FsCall.vget [slash,100,slash,120] false).exec sampleEnv) (fun _ => Lost) Lost loopState :=
    wp_bind_lost hvget
  have hnot := not_filesKept loopState_run hexec
  rwa [List.singleton_append] at hnot

end Micron.Filesys

import Micron.Filesys.Frame
import Micron.Filesys.Mkdir
import Micron.Kernel.ScacheMarks

/-! # The table of open files

`open` takes a free slot for the node it finds and `close` frees it. Neither notices a path
that leads nowhere or a slot that is free: both follow the null pointer.
-/
namespace Micron.Filesys
open Function Bytes Kernel Scache Prog Runs
variable {E : Env} {bs : BlkSizes} {C : Content} {T : Table} {s t : State} {X : State → Prop} {n k fd : ℕ} {q : VPtr}

def OFILESZ : ℕ := 16

/-- `close` of a descriptor, an address; `a` is its distance from `&ofile[0]`. -/
def closeAt (E : Env) (a : ℤ) : K ℤ :=
  if a < 0 ∨ (NMXOFILE * OFILESZ : ℕ) ≤ a then return -1
  -- not the start of a slot
  else if a % OFILESZ ≠ 0 then stop .fault
  else close E (a / OFILESZ).toNat

def Permits (r : Inode) (oflag : UInt32) : Prop :=
  ¬ (oflag &&& O_CREAT = O_CREAT ∧ oflag &&& O_EXCL = O_EXCL) ∧
    ¬ (oflag &&& O_RDONLY = O_RDONLY ∧ r.mode &&& S_IRUSR ≠ S_IRUSR) ∧
    ¬ (oflag &&& O_WRONLY = O_WRONLY ∧ r.mode &&& S_IWUSR ≠ S_IWUSR)

instance (r : Inode) (oflag : UInt32) : Decidable (Permits r oflag) := inferInstanceAs (Decidable (_ ∧ _))

/-! ## Runs -/

inductive FileOp where
  | open_ (path : List UInt8) (oflag : UInt32)
  | close (a : ℤ)

abbrev Files := State × (ℕ → Option ℕ)

def fileStep (E : Env) (T : Table) (x : Files) : FileOp → Option Files
  | .open_ path oflag => match (open_ E path oflag).run x.1 with
    | (.ok (.file fd),t) => some (t,update x.2 fd (T.find path))
    | (.ok _,t) => some (t,x.2)
    | (.error _,_) => none
  | .close a => match (closeAt E a).run x.1 with
    | (.ok r,t) => some (t,if r = 0 then update x.2 (a / OFILESZ).toNat none else x.2)
    | (.error _,_) => none

def IsOpen (x : Files) (a : ℤ) (k : ℕ) : Prop := k < NMXOFILE ∧ a = (k * OFILESZ : ℕ) ∧ x.2 k ≠ none

def Refers (x : Files) : Prop := ∀ k < NMXOFILE, Finds x.1 (x.1.ofile k).node (x.2 k)

/-- The call returns, and its answer and its effect on the table are those of the operation. -/
def Lawful (E : Env) (T : Table) (x : Files) : FileOp → Prop
  | .open_ path oflag => ∃ r t, (open_ E path oflag).run x.1 = (.ok r,t) ∧
      (∀ fd, r = .file fd → fd < NMXOFILE ∧ x.2 fd = none ∧ (∀ k, k ≠ fd → t.ofile k = x.1.ofile k) ∧
        Refers (t,update x.2 fd (T.find path))) ∧
      ((∀ fd, r ≠ .file fd) → t.ofile = x.1.ofile ∧ Refers (t,x.2)) ∧
      (T.find path = none → oflag &&& O_CREAT = 0 → r = .err) ∧
      ((∀ k < NMXOFILE, x.2 k ≠ none) → r = .err) ∧
      (∀ n, T.find path = some n → Permits (T.record n) oflag → (∃ k < NMXOFILE, x.2 k = none) → ∃ fd, r = .file fd)
  | .close a => ∃ r t, (closeAt E a).run x.1 = (.ok r,t) ∧
      (∀ k, IsOpen x a k → r = 0 ∧ t = { x.1 with ofile := update x.1.ofile k { x.1.ofile k with node := .null } } ∧
        Refers (t,update x.2 k none)) ∧
      ((∀ k, ¬ IsOpen x a k) → r = -1 ∧ t = x.1)

/-- The path leads to a file, or it is to be created alone and a slot is free. The descriptor
belongs to a slot in use or lies outside of the table. -/
def Sensible (T : Table) (x : Files) : FileOp → Prop
  | .open_ path oflag => T.find path ≠ none ∨
      oflag &&& O_CREAT ≠ 0 ∧ oflag &&& O_EXCL = O_EXCL ∧ ∃ k < NMXOFILE, x.2 k = none
  | .close a => a < 0 ∨ (NMXOFILE * OFILESZ : ℕ) ≤ a ∨ ∃ k, IsOpen x a k

def Roomy (E : Env) (x : Files) : FileOp → Prop
  | .open_ path oflag => ¬ Full ((open_ E path oflag).run x.1).2
  | .close a => ¬ Full ((closeAt E a).run x.1).2

/-! ## Blocks of the device -/

/-- The first block of every file is one of the device, counted from its start and from the
data blocks on. -/
def Table.Placed (E : Env) (bs : BlkSizes) (T : Table) : Prop := ∀ n, T.used n → n ≠ 0 →
  (bs.request T.dev.toNat (T.record n).blkentry.toInt).Valid E.devs ∧
    (bs.request T.dev.toNat ((T.record n).blkentry + mfsDaddr T.sb).toInt).Valid E.devs

structure Fetched (E : Env) (bs : BlkSizes) (C : Content) (c c' : Scache) : Prop where
  cached : Cached E bs C c'
  keeps : Keeps c c'
  mode : c'.mode = c.mode

theorem Serves.get {blk : Int32} (h : Serves E bs C T s) (hX : Limit s.ofile X)
    (hv : (bs.request T.dev.toNat blk.toInt).Valid E.devs) :
    Ends X (scacheGet E T.dev blk T.sb.blksize) (fun p t => ∃ i c, p = some i ∧ t = { s with scache := c } ∧
      Fetched E bs C s.scache c) s := by
  refine ((hX.scacheGet h.tree.cached h.table.usable.size_eq (bs.supported _) hv (fits_volume hv h.table.len_pos)
    h.table.usable.open_ok).fixes (unseen_mode.scacheGet _ _ _)).mono ?_
  rintro p t - ⟨⟨i,c,rfl,rfl,hc,hk,-⟩,hmode⟩
  exact ⟨i,c,rfl,rfl,hc,hk,hmode⟩

theorem Serves.cache {c : Scache} (h : Serves E bs C T s) (hc : Fetched E bs C s.scache c) :
    Serves E bs C T { s with scache := c } :=
  ⟨h.dev_ne,h.table,h.shaped,h.tree.beside (.cache h.tree hc.keeps) h.tree.vlist hc.cached⟩

/-! ## Slots -/

theorem sibs_ofile {o : ℕ → Ofile} {p : VPtr} {l : List ℕ} : Sibs { s with ofile := o } p q l ↔ Sibs s p q l := by
  induction l generalizing q with
  | nil => exact Iff.rfl
  | cons j l ih => exact and_congr_right (fun _ => and_congr_right (fun _ => and_congr_right (fun _ =>
      and_congr_right (fun _ => ih))))

theorem inTree_ofile {o : ℕ → Ofile} : InTree { s with ofile := o } q ↔ InTree s q := by
  constructor
  · intro h
    induction h with
    | root => exact .root
    | child hp hl hj ih => exact ih.child (sibs_ofile.mp hl) hj
  · intro h
    induction h with
    | root => exact .root
    | child hp hl hj ih => exact ih.child (sibs_ofile.mpr hl) hj

theorem Serves.setOfile (h : Serves E bs C T s) (o : ℕ → Ofile) : Serves E bs C T { s with ofile := o } where
  dev_ne := h.dev_ne
  table := h.table
  shaped := h.shaped
  tree :=
    { h.tree with
      ofile := rfl
      dev := fun p hp => h.tree.dev p (inTree_ofile.mp hp)
      used := fun p hp => h.tree.used p (inTree_ofile.mp hp)
      shows := fun j hj => h.tree.shows j (inTree_ofile.mp hj)
      links := fun p hp => (h.tree.links p (inTree_ofile.mp hp)).imp_right
        (fun ⟨l,hl,hkids⟩ => ⟨l,⟨sibs_ofile.mpr hl.sibs,hl.initial⟩,hkids⟩) }

theorem Grows.setOfile {s t : State} (h : Grows s t) (o : ℕ → Ofile) : Grows s { t with ofile := o } :=
  ⟨fun q hq => inTree_ofile.mpr (h.inTree q hq),h.vnode,h.child⟩

/-- The table is mounted, no block is marked, and the slots in use refer to nodes of it. -/
structure Tracks (E : Env) (bs : BlkSizes) (C : Content) (T : Table) (x : Files) : Prop where
  serves : Serves E bs C T x.1
  blksize : (x.1.mountab 0).blksize = T.sb.blksize
  clean : x.1.scache.mode = fun _ => 0
  refers : Refers x
  mount : ∀ k < NMXOFILE, x.2 k ≠ none → (x.1.ofile k).mount = some 0

variable {x : Files}

theorem Tracks.free_iff (h : Tracks E bs C T x) (hk : k < NMXOFILE) : (x.1.ofile k).node = .null ↔ x.2 k = none := by
  have href := h.refers k hk
  cases hx : x.2 k with
  | none =>
    rw [hx] at href
    exact ⟨fun _ => rfl,fun _ => href⟩
  | some n =>
    rw [hx] at href
    exact ⟨fun hn => absurd hn href.1.ne_null,nofun⟩

theorem Tracks.grow (h : Tracks E bs C T x) (ht : Serves E bs C T t) (hof : t.ofile = x.1.ofile) (hg : Grows x.1 t)
    (hm : t.mountab = x.1.mountab) (hmode : t.scache.mode = x.1.scache.mode) : Tracks E bs C T (t,x.2) where
  serves := ht
  blksize := by rw [hm]; exact h.blksize
  clean := hmode.trans h.clean
  refers k hk := by
    have href := h.refers k hk
    rw [hof]
    cases hx : x.2 k with
    | none =>
      rw [hx] at href
      exact href
    | some n =>
      rw [hx] at href
      exact ⟨hg.inTree _ href.1,(hg.ino href.1).trans href.2⟩
  mount k hk hx := by
    rw [hof]
    exact h.mount k hk hx

theorem Finds.setOfile {o : ℕ → Ofile} {r : Option ℕ} (h : Finds s q r) : Finds { s with ofile := o } q r := by
  cases r with
  | none => exact h
  | some n => exact ⟨inTree_ofile.mpr h.1,h.2⟩

theorem Tracks.put {f : Ofile} {r : Option ℕ} (h : Tracks E bs C T x) (fd : ℕ) (hf : Finds x.1 f.node r)
    (hm : r ≠ none → f.mount = some 0) :
    Tracks E bs C T ({ x.1 with ofile := update x.1.ofile fd f },update x.2 fd r) where
  serves := h.serves.setOfile _
  blksize := h.blksize
  clean := h.clean
  refers k hk := by
    refine Finds.setOfile ?_
    by_cases hkf : k = fd
    · simpa [hkf] using hf
    · simpa [hkf] using h.refers k hk
  mount k hk hr := by
    by_cases hkf : k = fd
    · subst hkf
      simp only [update_self] at hr ⊢
      exact hm hr
    · simp only [update_of_ne hkf] at hr ⊢
      exact h.mount k hk hr

/-! ## `open` -/

section Serves
variable (h : Serves E bs C T s) (hblk : (s.mountab 0).blksize = T.sb.blksize) (hpl : T.Placed E bs)
include h hblk hpl

theorem Serves.lseek {oflag : UInt32} (hX : Limit s.ofile X) (hfd : fd < NMXOFILE) (hin : InTree s q)
    (hino : s.ino q = n) (h0 : n ≠ 0) (hslot : s.ofile fd = ⟨oflag,q,some 0,0⟩) :
    Ends X (lseek E fd 0 SEEK_SET) (fun _ t => ∃ c, t = { s with scache := c } ∧ Fetched E bs C s.scache c) s := by
  have hshow := h.shows hin hino h0
  have hsame : update s.ofile fd { s.ofile fd with pos := 0 } = s.ofile := by
    rw [hslot]
    exact update_eq_self_iff.mpr hslot.symm
  have hne : T.sb.blksize ≠ 0 := by
    intro hz
    have hsz := h.table.usable.size_eq
    rw [hz] at hsz
    exact Nat.ne_of_gt h.table.len_pos (Int.natCast_inj.mp hsz).symm
  have hused := h.tree.used _ hin
  rw [hino] at hused
  have hget := h.get hX (hpl n hused h0).2
  have hstart : ¬ ((s.vnode q).size < (0 : Int32).toUInt32 ∨ (0 : Int32) < 0) := by
    rw [show (0 : Int32).toUInt32 = 0 by decide]
    exact not_or.mpr ⟨by simp,by decide⟩
  have hfirst : (0 : Int32) / T.sb.blksize + (T.record n).blkentry + mfsDaddr T.sb =
      (T.record n).blkentry + mfsDaddr T.sb := by
    rw [Int32.zero_div,Int32.zero_add]
  unfold Ends Filesys.lseek
  rw [if_pos rfl,wp_bind,wp_setOfile hfd,hsame]
  rw [if_neg (by decide),if_neg (by decide),wp_bind,wp_ofile hfd,hslot,wp_bind,wp_vnode hin.isNode,
    if_neg hstart,fileBlk]
  simp only [wp_bind,wp_mount,hblk,h.tree.sole.fs,h.tree.sole.sblk,if_neg hne,
    wp_vnode hin.isNode,h.tree.dev _ hin,hshow.blkentry,fsCall,wp_pure,hfirst]
  refine hget.mono ?_
  rintro p t - ⟨i,c,-,rfl,hc⟩
  exact ⟨c,rfl,hc⟩

/-- What `open` leaves behind if the path leads to record `n`: vnodes and blocks have been
loaded, and the descriptor is that of a slot that was free. -/
structure Visits (E : Env) (bs : BlkSizes) (C : Content) (T : Table) (oflag : UInt32) (n : ℕ) (r : Opened) (s t : State) :
    Prop where
  serves : Serves E bs C T t
  grows : Grows s t
  mountab : t.mountab = s.mountab
  mode : t.scache.mode = s.scache.mode
  slot : match r with
    | .file fd => fd < NMXOFILE ∧ (s.ofile fd).node = .null ∧
        ∃ q, InTree t q ∧ t.ino q = n ∧ t.ofile = update s.ofile fd ⟨oflag,q,some 0,0⟩
    | .err => (¬ Permits (T.record n) oflag ∨ ∀ k < NMXOFILE, (s.ofile k).node ≠ .null) ∧ t.ofile = s.ofile
    | .zero => False

theorem Serves.open_found {path : List UInt8} (hfind : T.find path = some n) (oflag : UInt32) :
    Ends Full (open_ E path oflag) (fun r t => Visits E bs C T oflag n r s t) s := by
  refine Ends.bind (full_limit s.ofile).mono (((h.vget (full_limit _) path).fixes
    (unseen_mountab.vget _ _)).fixes (unseen_mode.vget _ _)) ?_
  rintro q t - ⟨⟨⟨ht,hof,hg,hq⟩,hm⟩,hmode⟩
  rw [hfind] at hq
  obtain ⟨h0,hin,hino,-⟩ := hq
  have hshow := ht.shows hin hino h0
  have hblk' : (t.mountab 0).blksize = T.sb.blksize := by rw [hm,hblk]
  have hrefused : ¬ Permits (T.record n) oflag → Visits E bs C T oflag n .err s t :=
    fun hp => ⟨ht,hg,hm,hmode,Or.inl hp,hof⟩
  have herr : ¬ (q = .err ∨ q = .null) := by
    rintro (rfl | rfl)
    · exact absurd hin.isNode (by decide)
    · exact hin.ne_null rfl
  rw [if_neg herr]
  by_cases hexcl : oflag &&& O_CREAT = O_CREAT ∧ oflag &&& O_EXCL = O_EXCL
  · rw [if_pos hexcl]
    exact Or.inr (hrefused fun hp => hp.1 hexcl)
  rw [if_neg hexcl]
  unfold Ends
  rw [wp_bind,wp_vnode hin.isNode,hshow.mode]
  by_cases hr : oflag &&& O_RDONLY = O_RDONLY ∧ (T.record n).mode &&& S_IRUSR ≠ S_IRUSR
  · rw [if_pos hr]
    exact Or.inr (hrefused fun hp => hp.2.1 hr)
  rw [if_neg hr]
  by_cases hw : oflag &&& O_WRONLY = O_WRONLY ∧ (T.record n).mode &&& S_IWUSR ≠ S_IWUSR
  · rw [if_pos hw]
    exact Or.inr (hrefused fun hp => hp.2.2 hw)
  rw [if_neg hw,wp_bind,ht.tree.dev q hin]
  refine wp_of_run (mountabGet_tree ht.tree) ?_
  dsimp only
  rw [wp_bind,wp_mount,hblk',hshow.blkentry]
  have hused := ht.tree.used q hin
  rw [hino] at hused
  refine Ends.bind (full_limit t.ofile).mono (ht.get (full_limit _) (hpl n hused h0).1) ?_
  rintro _ _ - ⟨i,c,rfl,rfl,hc⟩
  have htc := ht.cache hc
  have hgc := hg.trans (Beside.cache ht.tree hc.keeps).grows
  rw [if_neg (by simp)]
  unfold Ends
  rw [wp_bind,ofileAlloc,wp_bind,Prog.wp_get,wp_pure]
  cases hfree : (List.range NMXOFILE).find? (fun k => decide ((t.ofile k).node = .null)) with
  | none =>
    refine Or.inr ⟨htc,hgc,hm,hc.mode.trans hmode,Or.inr (fun k hk hn => ?_),hof⟩
    rw [← hof] at hn
    exact List.find?_eq_none.mp hfree k (List.mem_range.mpr hk) (decide_eq_true hn)
  | some fd =>
    have hfd : fd < NMXOFILE := List.mem_range.mp (List.mem_of_find?_eq_some hfree)
    have hnode : (s.ofile fd).node = .null := by
      rw [← hof]
      simpa using List.find?_some hfree
    have hnew := htc.setOfile (update t.ofile fd ⟨oflag,q,some 0,0⟩)
    have hin' := inTree_ofile (o := update t.ofile fd ⟨oflag,q,some 0,0⟩).mpr
      ((Beside.cache ht.tree hc.keeps).mono hin)
    dsimp only
    rw [wp_bind,wp_setOfile hfd,if_neg (logand_ne_append _ _),if_neg (logand_ne_trunc _ _),wp_bind,wp_setOfile hfd,
      wp_bind,wp_ofile hfd]
    simp only [update_self,update_idem]
    refine Ends.bind (full_limit t.ofile).mono (hnew.lseek hblk' hpl (full_limit _) hfd hin' hino h0 (update_self ..)) ?_
    rintro _ _ - ⟨c',rfl,hc'⟩
    have hgn := hgc.setOfile (update t.ofile fd ⟨oflag,q,some 0,0⟩)
    refine Or.inr ⟨hnew.cache hc',hgn.trans (Beside.cache hnew.tree hc'.keeps).grows,hm,?_,hfd,hnode,q,?_,hino,?_⟩
    · exact hc'.mode.trans (hc.mode.trans hmode)
    · exact (Beside.cache hnew.tree hc'.keeps).mono hin'
    · dsimp only
      rw [hof]

end Serves

def Opens (E : Env) (bs : BlkSizes) (C : Content) (T : Table) (x : Files) (oflag : UInt32) (n : ℕ) (t : State) :
    Opened → Prop
  | .file fd => fd < NMXOFILE ∧ x.2 fd = none ∧ (∀ k, k ≠ fd → t.ofile k = x.1.ofile k) ∧
      Tracks E bs C T (t,update x.2 fd (some n))
  | .err => (¬ Permits (T.record n) oflag ∨ ∀ k < NMXOFILE, x.2 k ≠ none) ∧ t.ofile = x.1.ofile ∧
      Tracks E bs C T (t,x.2)
  | .zero => False

theorem Tracks.open_found {path : List UInt8} (h : Tracks E bs C T x) (hpl : T.Placed E bs)
    (hfind : T.find path = some n) (oflag : UInt32) :
    Ends Full (open_ E path oflag) (fun r t => Opens E bs C T x oflag n t r) x.1 := by
  refine (h.serves.open_found h.blksize hpl hfind oflag).mono ?_
  rintro r t - hv
  have hslot := hv.slot
  cases r with
  | zero => exact hslot
  | err =>
    obtain ⟨hwhy,hof⟩ := hslot
    refine ⟨hwhy.imp_right fun hall k hk hx => hall k hk ((h.free_iff hk).mpr hx),hof,?_⟩
    exact h.grow hv.serves hof hv.grows hv.mountab hv.mode
  | file fd =>
    obtain ⟨hfd,hnode,q,hin,hino,hof⟩ := hslot
    -- first with the slots as before, then with the new one
    have hold := h.grow (hv.serves.setOfile x.1.ofile) rfl (hv.grows.setOfile _) hv.mountab hv.mode
    have hfinds : Finds { t with ofile := x.1.ofile } q (some n) := Finds.setOfile ⟨hin,hino⟩
    have hnew := hold.put fd (f := ⟨oflag,q,some 0,0⟩) hfinds (fun _ => rfl)
    dsimp only at hnew
    rw [← hof] at hnew
    refine ⟨hfd,(h.free_iff hfd).mp hnode,fun k hk => ?_,hnew⟩
    rw [hof,update_of_ne hk]

theorem Tracks.open_missing {path : List UInt8} {oflag : UInt32} (h : Tracks E bs C T x) (hfind : T.find path = none)
    (hroom : ¬ Full ((open_ E path oflag).run x.1).2) :
    ∃ t, t.ofile = x.1.ofile ∧ Tracks E bs C T (t,x.2) ∧ (open_ E path oflag).run x.1 =
      (if oflag &&& O_CREAT ≠ 0 ∧ oflag &&& O_EXCL = O_EXCL then .ok .zero else .error .fault,t) := by
  have hlook := ((h.serves.vget (full_limit _) path).fixes (unseen_mountab.vget _ _)).fixes (unseen_mode.vget _ _)
  obtain ⟨q,t,hrun,⟨⟨ht,hof,hg,hq⟩,hm⟩,hmode⟩ := hlook.run (fun hf => hroom ((full_limit x.1.ofile).mono _ _ le_run_bind hf))
  rw [hfind] at hq
  refine ⟨t,hof,h.grow ht hof hg hm hmode,?_⟩
  rw [open_,run_bind hrun,if_pos hq.symm]
  split
  · rfl
  · rcases hq with rfl | rfl <;> rfl

/-! ## `close` -/

theorem wp_scacheCommit {Q : ℤ → State → Prop} {dev : UInt32} {blksize : Int32} (h : Usable E bs dev blksize) :
    wp (scacheCommit E dev blksize) Q X s ↔
      match Scache.scacheCommit E.devs dev.toNat (bs.size dev.toNat) s.scache with
      | none => X s
      | some (r,c) => Q r { s with scache := c } := by
  rw [scacheCommit,if_neg h.bounds,cached,wp_step,Machine.toNatClampNeg_eq h.size_eq]
  cases Scache.scacheCommit E.devs dev.toNat (bs.size dev.toNat) s.scache <;> rfl

/-- The slot is freed, and there is nothing to write. -/
theorem Tracks.close_used (h : Tracks E bs C T x) (hk : k < NMXOFILE) (hx : x.2 k ≠ none) :
    (close E k).run x.1 = (.ok 0,{ x.1 with ofile := update x.1.ofile k { x.1.ofile k with node := .null } }) := by
  obtain ⟨n,hn⟩ := Option.ne_none_iff_exists'.mp hx
  have href := h.refers k hk
  rw [hn] at href
  obtain ⟨L,hL⟩ := h.serves.tree.cached
  have hclean : ∀ i, ¬ x.1.scache.HasMark i := fun i hm => hm (by rw [h.clean]; exact UInt8.zero_and)
  have hcommit := hL.inv.commit_clean (D := E.devs) T.dev.toNat (bs.size T.dev.toNat) hclean
  have hwp : wp (close E k) (fun r t => r = 0 ∧ t = { x.1 with
      ofile := update x.1.ofile k { x.1.ofile k with node := .null } }) (fun _ => False) x.1 := by
    rw [close,if_neg (Nat.not_le.mpr hk),wp_bind,wp_ofile hk,wp_bind,wp_vnode href.1.isNode,h.mount k hk hx,wp_bind,
      wp_mount,h.serves.tree.dev _ href.1,h.blksize,wp_bind,wp_scacheCommit h.serves.table.usable,hcommit]
    dsimp only
    rw [wp_bind,wp_setOfile hk]
    exact ⟨rfl,rfl⟩
  obtain ⟨r,t,hrun,rfl,rfl⟩ := hwp.run
  exact hrun

theorem Tracks.close_free (h : Tracks E bs C T x) (hk : k < NMXOFILE) (hx : x.2 k = none) :
    (close E k).run x.1 = (.error .fault,x.1) := by
  have hnode := (h.free_iff hk).mpr hx
  have hfile : (ofile k).run x.1 = (.ok (x.1.ofile k),x.1) := by
    rw [ofile,if_pos hk]
    rfl
  rw [close,if_neg (Nat.not_le.mpr hk),run_bind hfile,hnode]
  rfl

/-! ## Steps -/

/-- A descriptor lies outside of the table, between the slots or at one of them. -/
theorem closeAt_cases (E : Env) (s : State) (a : ℤ) :
    (a < 0 ∨ (NMXOFILE * OFILESZ : ℕ) ≤ a) ∧ (closeAt E a).run s = (.ok (-1),s) ∨
    ¬ (a < 0 ∨ (NMXOFILE * OFILESZ : ℕ) ≤ a) ∧ (∀ k, a ≠ (k * OFILESZ : ℕ)) ∧
      (closeAt E a).run s = (.error .fault,s) ∨
    ∃ k < NMXOFILE, a = (k * OFILESZ : ℕ) ∧ (a / OFILESZ).toNat = k ∧ (closeAt E a).run s = (close E k).run s := by
  unfold closeAt
  by_cases hout : a < 0 ∨ (NMXOFILE * OFILESZ : ℕ) ≤ a
  · rw [if_pos hout]
    exact Or.inl ⟨hout,rfl⟩
  rw [if_neg hout]
  obtain ⟨h0,hlt⟩ := not_or.mp hout
  rw [OFILESZ] at hout hlt ⊢
  by_cases hmod : a % (16 : ℕ) ≠ 0
  · rw [if_pos hmod]
    exact Or.inr (Or.inl ⟨hout,fun k hk => hmod (by omega),rfl⟩)
  · rw [if_neg hmod]
    refine Or.inr (Or.inr ⟨(a / (16 : ℕ)).toNat,?_,by omega,rfl,rfl⟩)
    rw [NMXOFILE] at hlt ⊢
    omega

theorem Tracks.step_open {path : List UInt8} {oflag : UInt32} (h : Tracks E bs C T x) (hpl : T.Placed E bs)
    (hroom : Roomy E x (.open_ path oflag)) :
    (Lawful E T x (.open_ path oflag) ↔ Sensible T x (.open_ path oflag)) ∧
      ∀ y, fileStep E T x (.open_ path oflag) = some y → Tracks E bs C T y := by
  cases hfind : T.find path with
  | none =>
    obtain ⟨t,hof,ht,hrun⟩ := h.open_missing hfind hroom
    by_cases hc : oflag &&& O_CREAT ≠ 0 ∧ oflag &&& O_EXCL = O_EXCL
    · rw [if_pos hc] at hrun
      refine ⟨⟨?_,?_⟩,?_⟩
      · rintro ⟨r,u,hrun',-,-,-,hfull,-⟩
        obtain ⟨hr,-⟩ := Prod.mk.inj (hrun.symm.trans hrun')
        obtain rfl := Except.ok.inj hr
        refine Or.inr ⟨hc.1,hc.2,?_⟩
        by_contra hno
        exact Opened.noConfusion (hfull (fun k hk hn => hno ⟨k,hk,hn⟩))
      · rintro (hne | ⟨-,-,k,hk,hn⟩)
        · exact absurd hfind hne
        · refine ⟨.zero,t,hrun,nofun,fun _ => ⟨hof,ht.refers⟩,fun _ h0 => absurd h0 hc.1,fun hall => ?_,fun n hn => ?_⟩
          · exact absurd hn (hall k hk)
          · rw [hfind] at hn
            cases hn
      · intro y hy
        rw [fileStep,hrun] at hy
        exact Option.some.inj hy ▸ ht
    · rw [if_neg hc] at hrun
      refine ⟨⟨?_,?_⟩,?_⟩
      · rintro ⟨r,u,hrun',-⟩
        exact absurd (hrun.symm.trans hrun') nofun
      · rintro (hne | ⟨hcreat,hexcl,-⟩)
        · exact absurd hfind hne
        · exact absurd ⟨hcreat,hexcl⟩ hc
      · intro y hy
        rw [fileStep,hrun] at hy
        cases hy
  | some n =>
    obtain ⟨r,t,hrun,hr⟩ := (h.open_found hpl hfind oflag).run hroom
    refine ⟨⟨fun _ => Or.inl (by rw [hfind]; exact nofun),fun _ => ⟨r,t,hrun,?_⟩⟩,?_⟩
    · cases r with
      | zero => exact hr.elim
      | err =>
        obtain ⟨hwhy,hof,ht⟩ := hr
        refine ⟨nofun,fun _ => ⟨hof,ht.refers⟩,fun _ _ => rfl,fun _ => rfl,fun m hm hp hfree => ?_⟩
        rw [hfind] at hm
        obtain rfl := Option.some.inj hm
        obtain ⟨k,hk,hn⟩ := hfree
        rcases hwhy with hwhy | hwhy
        · exact absurd hp hwhy
        · exact absurd hn (hwhy k hk)
      | file fd =>
        obtain ⟨hfd,hn,hothers,ht⟩ := hr
        refine ⟨?_,fun hne => absurd rfl (hne fd),fun hnone => ?_,fun hall => absurd hn (hall fd hfd),fun _ _ _ _ => ⟨fd,rfl⟩⟩
        · rintro fd' ⟨⟩
          rw [hfind]
          exact ⟨hfd,hn,hothers,ht.refers⟩
        · rw [hfind] at hnone
          cases hnone
    · intro y hy
      rw [fileStep,hrun] at hy
      cases r with
      | zero => exact hr.elim
      | err => exact Option.some.inj hy ▸ hr.2.2
      | file fd =>
        rw [← Option.some.inj hy,hfind]
        exact hr.2.2.2

theorem Tracks.step_close {a : ℤ} (h : Tracks E bs C T x) :
    (Lawful E T x (.close a) ↔ Sensible T x (.close a)) ∧
      ∀ y, fileStep E T x (.close a) = some y → Tracks E bs C T y := by
  rcases closeAt_cases E x.1 a with ⟨hout,hrun⟩ | ⟨hin,hno,hrun⟩ | ⟨k,hk,ha,hdiv,hrun⟩
  · have hnot : ∀ k, ¬ IsOpen x a k := by
      rintro k ⟨hk,rfl,-⟩
      simp only [OFILESZ,NMXOFILE] at hout hk
      omega
    refine ⟨⟨fun _ => hout.imp_right Or.inl,fun _ => ⟨-1,x.1,hrun,fun k hk => absurd hk (hnot k),fun _ => ⟨rfl,rfl⟩⟩⟩,?_⟩
    intro y hy
    rw [fileStep,hrun] at hy
    exact Option.some.inj hy ▸ h
  · refine ⟨⟨?_,?_⟩,?_⟩
    · rintro ⟨r,t,hrun',-⟩
      exact absurd (hrun.symm.trans hrun') nofun
    · rintro (hout | hout | ⟨k,-,ha,-⟩)
      · exact absurd (Or.inl hout) hin
      · exact absurd (Or.inr hout) hin
      · exact absurd ha (hno k)
    · intro y hy
      rw [fileStep,hrun] at hy
      cases hy
  · have honly : ∀ j, IsOpen x a j → j = k := by
      rintro j ⟨-,hj,-⟩
      simp only [OFILESZ] at ha hj
      omega
    by_cases hx : x.2 k = none
    · rw [h.close_free hk hx] at hrun
      refine ⟨⟨?_,?_⟩,?_⟩
      · rintro ⟨r,t,hrun',-⟩
        exact absurd (hrun.symm.trans hrun') nofun
      · rintro (hout | hout | ⟨j,hj⟩)
        · omega
        · simp only [OFILESZ,NMXOFILE] at hk ha hout
          omega
        · exact absurd (honly j hj ▸ hx) hj.2.2
      · intro y hy
        rw [fileStep,hrun] at hy
        cases hy
    · rw [h.close_used hk hx] at hrun
      have ht := h.put k (f := { x.1.ofile k with node := .null }) (r := none) rfl (fun hne => absurd rfl hne)
      refine ⟨⟨fun _ => Or.inr (Or.inr ⟨k,hk,ha,hx⟩),fun _ => ⟨0,_,hrun,fun j hj => ?_,fun hnot => ?_⟩⟩,?_⟩
      · rw [honly j hj]
        exact ⟨rfl,rfl,ht.refers⟩
      · exact absurd ⟨hk,ha,hx⟩ (hnot k)
      · intro y hy
        rw [fileStep,hrun,hdiv] at hy
        exact Option.some.inj hy ▸ ht

/-! ## Runs from boot -/

theorem Unseen.lookups {τ : Type} {f : State → τ} (h : Unseen f) (calls : List (List UInt8 × Bool)) :
    Fixes f (lookups E calls) := by
  induction calls with
  | nil => exact fixes_pure _
  | cons call calls ih => exact (h.vget _ _).bind fun _ => ih

theorem started_tracks {disk : ℕ → ℕ → UInt8} (calls : List (List UInt8 × Bool)) (hT : T.Shaped E.fuel)
    (hon : T.On E bs (contentOf bs E.devs disk)) (hdev : T.dev ≠ 0)
    (hb : Bootable E (contentOf bs E.devs disk) T.dev T.sb)
    (hroom : ¬ Full ((started E T.dev calls).run (State.boot disk)).2) :
    Tracks E bs (contentOf bs E.devs disk) T (((started E T.dev calls).run (State.boot disk)).2,fun _ => none) := by
  have hX := full_limit (State.boot disk).ofile
  have hends : Ends Full (started E T.dev calls) (fun _ t =>
      Tree E bs (contentOf bs E.devs disk) T (State.boot disk).ofile (fun _ => True) t ∧
      (t.mountab 0).blksize = T.sb.blksize) (State.boot disk) := by
    refine Ends.bind hX.mono (mountabMount_boot hT hX hdev hb) ?_
    rintro r t - ⟨-,ht,-,hblk⟩
    refine ((lookups_spec calls hon hT hX hdev ht).fixes (unseen_mountab.lookups calls)).mono ?_
    rintro _ u - ⟨⟨hu,-⟩,hm⟩
    exact ⟨hu,by rw [hm]; exact hblk⟩
  have hmode : Fixes (fun s => s.scache.mode) (started E T.dev calls) :=
    (mountabMount_mode _ _ _).bind fun _ => unseen_mode.lookups calls
  obtain ⟨_,t,hrun,⟨ht,hblk⟩,hclean⟩ := (hends.fixes hmode).run hroom
  rw [hrun]
  refine ⟨⟨hdev,hon,hT,ht.ofile.symm ▸ ht⟩,hblk,hclean,fun k _ => ?_,fun k _ hne => absurd rfl hne⟩
  rw [ht.ofile]
  rfl

/-- Runs of `open` and `close` after boot, the mount of the root and some lookups, as long as
neither cache fills up: every call behaves as it should exactly if every path leads to a file,
or is to be created alone while a slot is free, and every descriptor inside of the table is
that of a slot in use. -/
theorem descriptors_consistent_iff {disk : ℕ → ℕ → UInt8} (calls : List (List UInt8 × Bool)) (ops : List FileOp)
    (hT : T.Shaped E.fuel) (hon : T.On E bs (contentOf bs E.devs disk)) (hdev : T.dev ≠ 0)
    (hb : Bootable E (contentOf bs E.devs disk) T.dev T.sb) (hpl : T.Placed E bs)
    (hs : ((started E T.dev calls).run (State.boot disk)).2 = s) (hstart : ¬ Full s)
    (hroom : AllSteps (fileStep E T) (Roomy E) (s,fun _ => none) ops) :
    AllSteps (fileStep E T) (Lawful E T) (s,fun _ => none) ops ↔
      AllSteps (fileStep E T) (Sensible T) (s,fun _ => none) ops := by
  subst hs
  have hstep : ∀ x op, Tracks E bs (contentOf bs E.devs disk) T x → Roomy E x op →
      (Lawful E T x op ↔ Sensible T x op) ∧
        ∀ y, fileStep E T x op = some y → Tracks E bs (contentOf bs E.devs disk) T y := by
    intro x op hx hr
    cases op with
    | open_ path oflag => exact hx.step_open hpl hr
    | close a => exact hx.step_close
  exact hroom.congr (started_tracks calls hT hon hdev hb hstart) (fun x op y hx hr hy => (hstep x op hx hr).2 y hy)
    (fun x op hx hr => (hstep x op hx hr).1)

theorem sample_placed : (imageTable 1 sampleImage 2).Placed sampleEnv mfsSizes := by
  have hvalid : ∀ b : ℤ, b = (0 : ℕ) ∨ b = (1539 : ℕ) → (mfsSizes.request (1 : UInt32).toNat b).Valid sampleEnv.devs := by
    rintro b (rfl | rfl)
    · exact request_valid (by decide) (by decide) rfl
    · exact request_valid (by decide) (by decide) rfl
  intro n hn h0
  have hn' : n ≤ 2 := hn
  obtain rfl | rfl : n = 1 ∨ n = 2 := by omega
  · exact ⟨hvalid _ (Or.inl (by decide +kernel)),hvalid _ (Or.inr (by decide +kernel))⟩
  · exact ⟨hvalid _ (Or.inl (by decide +kernel)),hvalid _ (Or.inr (by decide +kernel))⟩

/-- Opens of `/a` and `/a/b`, an open that is to create, closes of slots in use and of values
outside of the table. -/
def fileOps : List FileOp :=
  [.open_ (absPath [[97]]) O_RDONLY,.open_ (absPath [[97],[98]]) O_RDONLY,.close 0,.close 4096,
    .open_ (absPath [[97],[98]]) O_WRONLY,.open_ (absPath [[120]]) (O_CREAT ||| O_EXCL),.close 16,.close (-1),
    .open_ (absPath [[97]]) O_RDONLY]

/-- A test of `Roomy` and `Sensible` for the sample. -/
def settled (x : Files) : FileOp → Bool
  | .open_ path oflag => decide (¬ Full ((open_ sampleEnv path oflag).run x.1).2) &&
      (((imageTable 1 sampleImage 2).find path).isSome ||
        decide (oflag &&& O_CREAT ≠ 0 ∧ oflag &&& O_EXCL = O_EXCL ∧ x.2 127 = none))
  | .close a => decide (¬ Full ((closeAt sampleEnv a).run x.1).2) &&
      decide (a < 0 ∨ (NMXOFILE * OFILESZ : ℕ) ≤ a ∨ a = ((a / OFILESZ).toNat * OFILESZ : ℕ) ∧
        (a / OFILESZ).toNat < NMXOFILE ∧ x.2 (a / OFILESZ).toNat ≠ none)

theorem settled_roomy (x : Files) (op : FileOp) (h : settled x op = true) : Roomy sampleEnv x op := by
  cases op with
  | open_ path oflag => exact (of_decide_eq_true (Bool.and_eq_true_iff.mp h).1 : ¬ Full _)
  | close a => exact (of_decide_eq_true (Bool.and_eq_true_iff.mp h).1 : ¬ Full _)

theorem settled_sensible (x : Files) (op : FileOp) (h : settled x op = true) :
    Sensible (imageTable 1 sampleImage 2) x op := by
  cases op with
  | open_ path oflag =>
    rcases Bool.or_eq_true_iff.mp (Bool.and_eq_true_iff.mp h).2 with hfind | hcreate
    · exact Or.inl (Option.isSome_iff_ne_none.mp hfind)
    · obtain ⟨hc,he,hfree⟩ := of_decide_eq_true hcreate
      exact Or.inr ⟨hc,he,127,by decide,hfree⟩
  | close a =>
    rcases of_decide_eq_true (Bool.and_eq_true_iff.mp h).2 with hneg | hbig | ⟨ha,hk,hopen⟩
    · exact Or.inl hneg
    · exact Or.inr (Or.inl hbig)
    · exact Or.inr (Or.inr ⟨_,hk,ha,hopen⟩)

/-- All of the calls behave as they should, and in the end `/a/b` is open in slot 0 and `/a` in
slot 1. -/
theorem descriptors_consistent_sample :
    AllSteps (fileStep sampleEnv (imageTable 1 sampleImage 2)) (Lawful sampleEnv (imageTable 1 sampleImage 2))
      (sampleState,fun _ => none) fileOps ∧
    (fileOps.foldlM (fileStep sampleEnv (imageTable 1 sampleImage 2)) (sampleState,fun _ => none)).map
      (fun x => (x.2 0,x.2 1,x.2 2)) = some (some 2,some 1,none) := by
  have hb := Mkmfs.build_built sample_build sample_short
  have htest : testSteps (fileStep sampleEnv (imageTable 1 sampleImage 2)) settled (sampleState,fun _ => none) fileOps =
      true := by
    decide +kernel
  refine ⟨(descriptors_consistent_iff [] fileOps (imageTable_shaped 1 hb (by decide)) (sample_carries.on hb) (by decide)
    (sample_carries.bootable hb) sample_placed rfl (by decide +kernel) (allSteps_of_test settled_roomy htest)).mpr
    (allSteps_of_test settled_sensible htest),by decide +kernel⟩

/-- A path that leads nowhere and a descriptor that is not open make the kernel follow the null
pointer. -/
theorem descriptors_fault : (imageTable 1 sampleImage 2).find (absPath [[120]]) = none ∧
    ((open_ sampleEnv (absPath [[120]]) O_RDONLY).run sampleState).1 = .error .fault ∧
    ¬ Lawful sampleEnv (imageTable 1 sampleImage 2) (sampleState,fun _ => none) (.open_ (absPath [[120]]) O_RDONLY) ∧
    ((closeAt sampleEnv 0).run sampleState).1 = .error .fault ∧
    ¬ Lawful sampleEnv (imageTable 1 sampleImage 2) (sampleState,fun _ => none) (.close 0) := by
  have hopen : ((open_ sampleEnv (absPath [[120]]) O_RDONLY).run sampleState).1 = .error .fault := by decide +kernel
  have hclose : ((closeAt sampleEnv 0).run sampleState).1 = .error .fault := by decide +kernel
  refine ⟨by decide +kernel,hopen,?_,hclose,?_⟩
  · rintro ⟨r,t,hrun,-⟩
    rw [hrun] at hopen
    cases hopen
  · rintro ⟨r,t,hrun,-⟩
    rw [hrun] at hclose
    cases hclose

end Micron.Filesys

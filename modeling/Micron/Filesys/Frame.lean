import Micron.Filesys.Vfs

/-! # What a lookup leaves alone

`vget` fills vnodes and loads blocks, and that is all it does, however it ends.
-/
namespace Micron.Filesys
open Function Bytes Kernel Prog
variable {τ : Type} {f : State → τ} {E : Env} {sb : Sblk}

/-- `f` does not look at vnodes, at their allocation or at what `scache_get` changes. -/
structure Unseen (f : State → τ) : Prop where
  vnode : ∀ s g, f { s with vnode := g } = f s
  vlist : ∀ s l a, f { s with vlist := l, allocs := a } = f s
  scache : ∀ s c, s.scache.Same c → f { s with scache := c } = f s

theorem unseen_mountab : Unseen State.mountab := ⟨fun _ _ => rfl,fun _ _ _ => rfl,fun _ _ _ => rfl⟩

theorem unseen_ofile : Unseen State.ofile := ⟨fun _ _ => rfl,fun _ _ _ => rfl,fun _ _ _ => rfl⟩

theorem unseen_mode : Unseen (fun s => s.scache.mode) := ⟨fun _ _ => rfl,fun _ _ _ => rfl,fun _ _ h => h.1⟩

theorem fixes_vnode (p : VPtr) : Fixes f (vnode p) := .ite (fixes_get.bind fun _ => fixes_pure _) (fixes_stop _)

theorem fixes_mount (i : Option ℕ) : Fixes f (mount i) := by
  cases i with
  | none => exact fixes_stop _
  | some i => exact fixes_get.bind fun _ => fixes_pure _

theorem fixes_buffer (sp : Ptr) : Fixes f (buffer sp) := by
  cases sp with
  | none => exact fixes_stop _
  | some i => exact fixes_get.bind fun _ => fixes_pure _

theorem fixes_inode (ip : IPtr) : Fixes f (inode ip) :=
  .ite (fixes_stop _) ((fixes_buffer _).bind fun _ => fixes_pure _)

theorem fixes_loaded (p : VPtr) : Fixes f (loaded p) :=
  (fixes_vnode p).bind fun _ => fixes_get.bind fun _ => fixes_pure _

theorem fixes_mountabGet (dev : UInt32) : Fixes f (mountabGet dev) := fixes_get.bind fun _ => fixes_pure _

namespace Unseen
variable (h : Unseen f)
include h

theorem setVnode (p : VPtr) (k : Vnode → Vnode) : Fixes f (setVnode p k) :=
  .ite (fixes_modify fun s => h.vnode s _) (fixes_stop _)

theorem vcacheAlloc : Fixes f vcacheAlloc := by
  refine fixes_step (fun s a t ht => ?_)
  split at ht <;> cases ht
  exact h.vlist s _ _

theorem scacheGet (dev : UInt32) (blk blksize : Int32) : Fixes f (scacheGet E dev blk blksize) := by
  refine .ite (fixes_stop _) (fixes_step (fun s a t ht => ?_))
  split at ht
  · cases ht
  · rename_i hget
    cases ht
    exact h.scache s _ (Scache.scacheGet_same hget)

theorem mfsGet (dev node : UInt32) : Fixes f (mfsGet E sb dev node) :=
  .ite (fixes_stop _) ((h.scacheGet _ _ _).bind fun _ => fixes_pure _)

theorem translate (ip : IPtr) (dev : UInt32) (vp : VPtr) : Fixes f (translate ip dev vp) := by
  refine (fixes_inode ip).bind fun n => (h.setVnode vp _).bind fun _ => (fixes_vnode vp).bind fun v => ?_
  cases v.strcpy n.str with
  | none => exact fixes_stop _
  | some v => exact h.setVnode vp _

theorem lnodeExpand (node vp : VPtr) (fuel : ℕ) (iep : IPtr) (lvep : VPtr) :
    Fixes f (lnodeExpand E sb node vp fuel iep lvep) := by
  induction fuel generalizing iep lvep with
  | zero => exact fixes_stop _
  | succ fuel ih =>
    refine h.vcacheAlloc.bind fun vep => .ite (fixes_stop _) ?_
    refine (fixes_vnode _).bind fun _ => (h.translate _ _ _).bind fun _ => (fixes_vnode _).bind fun _ => ?_
    refine (h.setVnode _ _).bind fun _ => .ite ?_ ?_
    all_goals
      refine (h.setVnode _ _).bind fun _ => (fixes_inode _).bind fun _ => .ite (fixes_pure _) ?_
      exact (fixes_vnode _).bind fun _ => (fixes_inode _).bind fun _ => (h.mfsGet _ _).bind fun _ => ih _ _

theorem lnodeLoop (node : VPtr) (fuel : ℕ) (ip : IPtr) (lvp lvep : VPtr) :
    Fixes f (lnodeLoop E sb node fuel ip lvp lvep) := by
  induction fuel generalizing ip lvp lvep with
  | zero => exact fixes_stop _
  | succ fuel ih =>
    refine h.vcacheAlloc.bind fun vp => .ite (fixes_stop _) ?_
    refine (fixes_vnode _).bind fun _ => (h.translate _ _ _).bind fun _ => (fixes_inode _).bind fun n => ?_
    refine (h.setVnode _ _).bind fun _ => .ite ?_ ?_
    all_goals
      refine (h.setVnode _ _).bind fun _ => .ite ?_ ?_
      · refine (fixes_vnode _).bind fun _ => (h.mfsGet _ _).bind fun _ => (h.lnodeExpand _ _ _ _ _).bind fun _ => ?_
        refine (fixes_inode _).bind fun _ => .ite (fixes_pure _) ?_
        exact (fixes_vnode _).bind fun _ => (h.mfsGet _ _).bind fun _ => ih _ _ _
      · refine (fixes_pure _).bind fun _ => (fixes_inode _).bind fun _ => .ite (fixes_pure _) ?_
        exact (fixes_vnode _).bind fun _ => (h.mfsGet _ _).bind fun _ => ih _ _ _

theorem mfsLnode (node : VPtr) : Fixes f (mfsLnode E sb node) := by
  refine (fixes_vnode _).bind fun _ => (h.mfsGet _ _).bind fun _ => (fixes_inode _).bind fun _ => .ite ?_ ?_
  · exact h.setVnode _ _
  · exact (h.mfsGet _ _).bind fun _ => h.lnodeLoop _ _ _ _ _

theorem loadChildren (vp : VPtr) : Fixes f (loadChildren E vp) := by
  refine (fixes_vnode _).bind fun v => (fixes_mountabGet _).bind fun i => ?_
  cases i with
  | none => exact fixes_pure _
  | some i =>
    refine (fixes_mount _).bind fun m => (fixes_loaded _).bind fun _ => .ite ?_ ?_
    · refine Fixes.bind ?_ fun _ => fixes_pure _
      cases m.fs with
      | none => exact fixes_stop _
      | some fs => exact h.mfsLnode _
    · exact fixes_pure _

omit h in
theorem seekName (cross : Bool) (name : List UInt8) (fuel : ℕ) (vp : VPtr) : Fixes f (seekName cross name fuel vp) := by
  induction fuel generalizing vp with
  | zero =>
    cases vp
    case null => exact fixes_pure _
    all_goals exact fixes_stop _
  | succ fuel ih =>
    cases vp
    case null => exact fixes_pure _
    all_goals
      refine (fixes_vnode _).bind fun v => .ite ?_ ?_
      · refine Fixes.bind (fixes_get.bind fun _ => fixes_pure _) fun mnt => ?_
        cases mnt with
        | some i => exact fixes_pure _
        | none => exact .ite (fixes_pure _) (ih _)
      · refine (fixes_pure _).bind fun mnt => ?_
        cases mnt with
        | some i => exact fixes_pure _
        | none => exact .ite (fixes_pure _) (ih _)

theorem vgetLoop (dirs : List (List UInt8)) (vp : VPtr) : Fixes f (vgetLoop E dirs vp) := by
  induction dirs generalizing vp with
  | nil => exact fixes_pure _
  | cons dir dirs ih =>
    refine (h.loadChildren _).bind fun _ => .ite (fixes_pure _) ?_
    exact (fixes_vnode _).bind fun _ => (seekName _ _ _ _).bind fun _ => .ite (fixes_pure _) (ih _)

theorem vget (path : List UInt8) (parent : Bool) : Fixes f (vget E path parent) := by
  refine .ite (fixes_pure _) (Fixes.bind (fixes_get.bind fun _ => fixes_pure _) fun i => ?_)
  cases i with
  | none => exact fixes_pure _
  | some i =>
    refine (h.vgetLoop _ _).bind fun _ => .ite (fixes_pure _) ((h.loadChildren _).bind fun _ => ?_)
    refine .ite (fixes_pure _) (.ite (fixes_pure _) ((fixes_vnode _).bind fun _ => ?_))
    refine (seekName _ _ _ _).bind fun _ => .ite (fixes_pure _) ((h.loadChildren _).bind fun _ => ?_)
    exact .ite (fixes_pure _) (fixes_pure _)

end Unseen

/-! ## Mounts -/

section Mount
variable (hget : ∀ dev blk blksize, Fixes f (scacheGet E dev blk blksize))
include hget

theorem fixes_mfsProbe (dev : UInt32) : Fixes f (mfsProbe E dev) :=
  (hget _ _ _).bind fun _ => (fixes_buffer _).bind fun _ => fixes_pure _

theorem fixes_mfsBlksz (dev : UInt32) : Fixes f (mfsBlksz E dev) :=
  (hget _ _ _).bind fun _ => (fixes_buffer _).bind fun _ => fixes_pure _

theorem fixes_mfsLsblk (dev : UInt32) : Fixes f (mfsLsblk E dev) :=
  (hget _ _ _).bind fun _ => (fixes_buffer _).bind fun _ => fixes_pure _

/-- A mount changes the mount table and the root, and loads blocks. -/
theorem fixes_mountabMount (hset : ∀ i k, Fixes f (setMount i k)) (hdev hino dev : UInt32)
    (hroot : ∀ i, Fixes f (setVnode (.root i) (fun v => { v with ino := 0, dev := dev }))) :
    Fixes f (mountabMount E hdev hino dev) := by
  refine (fixes_mountabGet _).bind fun _ => .ite (fixes_pure _) (fixes_get.bind fun s => ?_)
  split
  · refine (hroot _).bind fun _ => (hset _ _).bind fun _ => Fixes.bind ?_ fun fs => ?_
    · exact (fixes_mfsProbe hget _).bind fun _ => .ite (fixes_pure _) (fixes_pure _)
    · refine (hset _ _).bind fun _ => .ite (fixes_pure _) ?_
      cases fs with
      | none => exact Fixes.bind (fixes_stop _) fun _ => (hset _ _).bind fun _ => (Fixes.bind (fixes_stop _) fun _ =>
          (hset _ _).bind fun _ => (hset _ _).bind fun _ => fixes_pure _)
      | some fs => exact (fixes_mfsBlksz hget _).bind fun _ => (hset _ _).bind fun _ =>
          (fixes_mfsLsblk hget _).bind fun _ => (hset _ _).bind fun _ => (hset _ _).bind fun _ => fixes_pure _
  · exact fixes_pure _

end Mount

theorem mountabMount_mode (hdev hino dev : UInt32) :
    Fixes (fun s => s.scache.mode) (mountabMount E hdev hino dev) :=
  fixes_mountabMount unseen_mode.scacheGet (fun _ _ => fixes_modify fun _ => rfl) hdev hino dev
    (fun _ => unseen_mode.setVnode _ _)

/-! ## Saving -/

def Blind (f : State → τ) : Prop := ∀ s c, f { s with scache := c } = f s

namespace Blind
variable (h : Blind f)
include h

theorem cached {α : Type} {k : Scache → Option (α × Scache)} {hk : ∀ s a t, k s = some (a,t) → s.alist.cnt ≤ t.alist.cnt} :
    Fixes f (Filesys.cached k hk) := by
  refine fixes_step (fun s a t ht => ?_)
  split at ht <;> cases ht
  exact h s _

theorem scacheGet (dev : UInt32) (blk blksize : Int32) : Fixes f (scacheGet E dev blk blksize) :=
  .ite (fixes_stop _) h.cached

theorem scacheSync (dev : UInt32) (blk blksize : Int32) : Fixes f (scacheSync E dev blk blksize) :=
  .ite (fixes_stop _) h.cached

theorem scacheCommit (dev : UInt32) (blksize : Int32) : Fixes f (scacheCommit E dev blksize) :=
  .ite (fixes_stop _) h.cached

theorem setBuffer (sp : Ptr) (k : (ℕ → UInt8) → ℕ → UInt8) : Fixes f (setBuffer sp k) := by
  cases sp with
  | none => exact fixes_stop _
  | some i => exact fixes_modify fun s => h s _

theorem setInode (ip : IPtr) (off : ℕ) (l : List UInt8) : Fixes f (setInode ip off l) :=
  .ite (fixes_stop _) (h.setBuffer _ _)

theorem mfsGet (dev node : UInt32) : Fixes f (mfsGet E sb dev node) :=
  .ite (fixes_stop _) ((h.scacheGet _ _ _).bind fun _ => fixes_pure _)

theorem mfsPut (dev node : UInt32) : Fixes f (mfsPut E sb dev node) :=
  .ite (fixes_stop _) ((h.scacheSync _ _ _).bind fun _ => fixes_pure _)

theorem mfsMarkbmp (dev : UInt32) (type : Bmptype) (index : Int32) (stat : Bool) :
    Fixes f (mfsMarkbmp E sb dev type index stat) :=
  .ite (fixes_stop _) ((h.scacheGet _ _ _).bind fun _ => .ite (fixes_stop _)
    ((h.setBuffer _ _).bind fun _ => (h.scacheSync _ _ _).bind fun _ => fixes_pure _))

theorem seekBlock (dev : UInt32) (type : Bmptype) (fuel : ℕ) (blk : Int32) :
    Fixes f (seekBlock E sb dev type fuel blk) := by
  induction fuel generalizing blk with
  | zero => exact fixes_stop _
  | succ fuel ih =>
    refine (h.scacheGet _ _ _).bind fun sp => (fixes_buffer _).bind fun buf => ?_
    dsimp only
    split
    · split
      · exact fixes_pure _
      · exact fixes_stop _
    · exact .ite (fixes_stop _) (.ite (ih _) (fixes_pure _))

theorem mfsSeekbmp (dev : UInt32) (type : Bmptype) : Fixes f (mfsSeekbmp E sb dev type) := h.seekBlock _ _ _ _

theorem mfsIfree (p : VPtr) : Fixes f (mfsIfree E sb p) := (fixes_vnode p).bind fun _ => h.mfsMarkbmp _ _ _ _

theorem saveFields (ip : IPtr) (v : Vnode) : Fixes f (saveFields ip v) :=
  (h.setInode _ _ _).bind fun _ => h.setInode _ _ _

theorem saveNode (node p : VPtr) (child : Bool) : Fixes f (saveNode E sb node p child) := by
  have hnext : Fixes f (nextIno p) :=
    (fixes_vnode _).bind fun _ => .ite ((fixes_vnode _).bind fun _ => fixes_pure _) (fixes_pure _)
  have hchild : Fixes f (childIno E p) := (fixes_vnode _).bind fun _ => (fixes_loaded _).bind fun _ =>
    .ite ((fixes_vnode _).bind fun _ => fixes_pure _) (fixes_pure _)
  refine (fixes_vnode _).bind fun _ => (fixes_vnode _).bind fun _ => (h.mfsGet _ _).bind fun _ =>
    (h.saveFields _ _).bind fun _ => hnext.bind fun _ => (h.setInode _ _ _).bind fun _ => .ite ?_ ?_
  · exact (fixes_vnode _).bind fun _ => (h.setInode _ _ _).bind fun _ => hchild.bind fun _ =>
      (h.setInode _ _ _).bind fun _ => fixes_pure _
  · exact hchild.bind fun _ => (h.setInode _ _ _).bind fun _ => fixes_pure _

theorem snodeExpand (node : VPtr) (ip : IPtr) (fuel : ℕ) (p : VPtr) : Fixes f (snodeExpand E sb node ip fuel p) := by
  induction fuel generalizing p with
  | zero => exact fixes_stop _
  | succ fuel ih =>
    refine (fixes_vnode _).bind fun _ => (fixes_vnode _).bind fun _ => (h.mfsGet _ _).bind fun _ =>
      (h.saveFields _ _).bind fun _ => (fixes_inode _).bind fun _ => (h.setInode _ _ _).bind fun _ =>
      (fixes_inode _).bind fun _ => (h.setInode _ _ _).bind fun _ => (fixes_inode _).bind fun _ =>
      (h.setInode _ _ _).bind fun _ => (fixes_vnode _).bind fun _ => (h.setInode _ _ _).bind fun _ =>
      (fixes_vnode _).bind fun _ => (h.mfsPut _ _).bind fun _ => ?_
    exact .ite (fixes_pure _) (ih _)

theorem snodeLoop (node : VPtr) (fuel : ℕ) (p : VPtr) : Fixes f (snodeLoop E sb node fuel p) := by
  induction fuel generalizing p with
  | zero => exact fixes_stop _
  | succ fuel ih =>
    have hrest : ∀ v : Vnode, Fixes f (do
        Filesys.mfsPut E sb (← vnode node).dev v.ino
        if v.next = .null then return
        Filesys.snodeLoop E sb node fuel v.next) := fun v =>
      (fixes_vnode _).bind fun _ => (h.mfsPut _ _).bind fun _ => .ite (fixes_pure _) (ih _)
    refine (h.saveNode _ _ _).bind fun _ => (fixes_vnode _).bind fun v => .ite ?_ (hrest v)
    exact (h.snodeExpand _ _ _ _).bind fun _ => hrest v

theorem mfsSnode (node : VPtr) : Fixes f (mfsSnode E sb node) :=
  (h.saveNode _ _ _).bind fun _ => (fixes_vnode _).bind fun _ => (h.mfsPut _ _).bind fun _ =>
    .ite (fixes_pure _) (h.snodeLoop _ _ _)

end Blind

/-! ## Directories -/

def rmdirSave (E : Env) (vp vnp : VPtr) : K ℤ := do
  let some i ← mountabGet (← vnode vp).dev | return -1
  let m ← mount (some i)
  fsCall m.fs (mfsIfree E m.super vp)
  fsCall m.fs (mfsSnode E m.super vnp)
  return 0

section Directories
variable (h : Unseen f) (hb : Blind f)
include h hb

theorem fixes_mfsIalloc (dev : UInt32) : Fixes f (mfsIalloc E sb dev) := by
  refine (hb.mfsSeekbmp dev .IBLK).bind fun ino => ?_
  cases ino with
  | none => exact fixes_pure _
  | some ino =>
    exact (hb.mfsMarkbmp _ _ _ _).bind fun _ => h.vcacheAlloc.bind fun _ => (h.setVnode _ _).bind fun _ => fixes_pure _

theorem fixes_mkdir (htime : Fixes f (time E)) (path : List UInt8) (mode : UInt32) : Fixes f (mkdir E path mode) := by
  refine (h.vget path true).bind fun p => .ite (fixes_pure _) (.ite (fixes_pure _) ?_)
  refine (fixes_vnode p).bind fun _ => (fixes_mountabGet _).bind fun i => ?_
  cases i with
  | none => exact fixes_pure _
  | some i =>
    refine (fixes_mount _).bind fun m => (fixes_vnode p).bind fun _ => ?_
    cases m.fs with
    | none => exact fixes_stop _
    | some fs =>
      refine (fixes_mfsIalloc h hb _).bind fun np => (fixes_vnode np).bind fun v => ?_
      cases v.strcpy (splitPath path.tail).2 with
      | none => exact fixes_stop _
      | some w =>
        refine (h.setVnode np _).bind fun _ => (fixes_vnode p).bind fun _ => ?_
        refine htime.bind fun _ => htime.bind fun _ => htime.bind fun _ => (h.setVnode np _).bind fun _ => ?_
        refine (h.setVnode np _).bind fun _ => (fixes_vnode p).bind fun _ => (h.setVnode np _).bind fun _ => ?_
        exact (h.setVnode p _).bind fun _ => (hb.mfsSnode p).bind fun _ => fixes_pure _

omit hb in
theorem fixes_unlinkLoop (p : VPtr) (fuel : ℕ) (q : VPtr) : Fixes f (unlinkLoop p fuel q) := by
  induction fuel generalizing q with
  | zero =>
    cases q
    case null => exact fixes_pure _
    all_goals exact fixes_stop _
  | succ fuel ih =>
    cases q
    case null => exact fixes_pure _
    all_goals
      refine (fixes_vnode _).bind fun _ => .ite ?_ ?_
      · exact (fixes_vnode p).bind fun _ => (h.setVnode _ _).bind fun _ => (fixes_vnode _).bind fun _ => ih _
      · exact (fixes_vnode _).bind fun _ => ih _

omit h in
theorem fixes_rmdirSave (p vnp : VPtr) : Fixes f (rmdirSave E p vnp) := by
  refine (fixes_vnode p).bind fun _ => (fixes_mountabGet _).bind fun i => ?_
  cases i with
  | none => exact fixes_pure _
  | some i =>
    refine (fixes_mount _).bind fun m => ?_
    cases m.fs with
    | none => exact fixes_stop _
    | some fs => exact (hb.mfsIfree p).bind fun _ => (hb.mfsSnode vnp).bind fun _ => fixes_pure _

theorem fixes_rmdir (path : List UInt8) : Fixes f (rmdir E path) := by
  refine (h.vget path false).bind fun p => (fixes_vnode p).bind fun v => .ite (fixes_pure _) (.ite (fixes_pure _) ?_)
  refine (fixes_vnode _).bind fun w => .ite ?_ ?_
  · exact (h.setVnode _ _).bind fun _ => fixes_rmdirSave hb p _
  · exact (fixes_vnode _).bind fun _ => (fixes_unlinkLoop h p _ _).bind fun vnp => fixes_rmdirSave hb p vnp

end Directories

/-! ## Transfers -/

theorem fixes_ofile (fd : ℕ) : Fixes f (ofile fd) := .ite (fixes_get.bind fun _ => fixes_pure _) (fixes_stop _)

theorem fixes_fileBlk (x : Ofile) : Fixes f (fileBlk x) := by
  refine (fixes_mount _).bind fun m => .ite (fixes_stop _) ((fixes_vnode _).bind fun _ => Fixes.bind ?_ fun _ => fixes_pure _)
  cases m.fs with
  | none => exact fixes_stop _
  | some fs => exact fixes_pure _

section Transfer
variable {fd : ℕ} (h : Blind f) (hpos : ∀ k : Ofile → Int32, Fixes f (setOfile fd (fun x => { x with pos := k x })))
include h hpos

theorem fixes_lseek (offset whence : Int32) : Fixes f (lseek E fd offset whence) := by
  have hend : Fixes f (do
      let f ← ofile fd
      let v ← vnode f.node
      if v.size < f.pos.toUInt32 ∨ f.pos < 0 then return -1
      let blk ← fileBlk f
      let _ ← scacheGet E v.dev blk (← mount f.mount).blksize
      return f.pos) := by
    refine (fixes_ofile _).bind fun _ => (fixes_vnode _).bind fun _ => .ite (fixes_pure _) ?_
    exact (fixes_fileBlk _).bind fun _ => (fixes_mount _).bind fun _ => (h.scacheGet _ _ _).bind fun _ => fixes_pure _
  have hseek : Fixes f (do
      if whence = SEEK_END then
        let size := (← vnode (← ofile fd).node).size
        setOfile fd (fun f => { f with pos := size.toInt32 + offset })
      let f ← ofile fd
      let v ← vnode f.node
      if v.size < f.pos.toUInt32 ∨ f.pos < 0 then return -1
      let blk ← fileBlk f
      let _ ← scacheGet E v.dev blk (← mount f.mount).blksize
      return f.pos) := by
    refine .ite ?_ hend
    exact (fixes_ofile _).bind fun _ => (fixes_vnode _).bind fun _ => (hpos _).bind fun _ => hend
  refine .ite ((hpos _).bind fun _ => ?_) ?_
  all_goals exact .ite ((hpos _).bind fun _ => hseek) hseek

variable {β : Type} {copy : Ptr → ℕ → ℕ → ℕ → β → K β} (hcopy : ∀ sp disp n i b, Fixes f (copy sp disp n i b))
include hcopy

omit h in
theorem fixes_xferMove (size : UInt32) (sp : Ptr) (disp : Int32) (n i : UInt32) (b : β) :
    Fixes f (xferMove copy fd size sp disp n i b) := by
  refine .ite (fixes_stop _) ((hcopy _ _ _ _ _).bind fun _ => (hpos _).bind fun _ => ?_)
  refine (fixes_ofile _).bind fun _ => .ite ?_ (fixes_pure _)
  exact (hpos _).bind fun _ => fixes_pure _

theorem fixes_xferLoop (fuel : ℕ) (oldblk : Int32) (scp : Option Ptr) (xfer i : UInt32) (b : β) :
    Fixes f (xferLoop E copy fd fuel oldblk scp xfer i b) := by
  induction fuel generalizing oldblk scp xfer i b with
  | zero => exact fixes_stop _
  | succ fuel ih =>
    refine .ite (fixes_pure _) ((fixes_ofile _).bind fun _ => (fixes_vnode _).bind fun _ => (fixes_mount _).bind fun _ => ?_)
    refine (fixes_fileBlk _).bind fun _ => Fixes.bind (.ite (h.scacheGet _ _ _) ?_) fun _ => .ite ?_ ?_
    · cases scp with
      | none => exact fixes_stop _
      | some sp => exact fixes_pure _
    · exact (fixes_xferMove hpos hcopy _ _ _ _ _ _).bind fun _ => .ite (fixes_pure _) (ih _ _ _ _ _)
    · exact (fixes_xferMove hpos hcopy _ _ _ _ _ _).bind fun _ => fixes_pure _

omit hcopy in
theorem fixes_read (oldblk : Int32) (buf : ℕ → UInt8) (nbyte : UInt32) : Fixes f (read E oldblk fd buf nbyte) :=
  (fixes_xferLoop h hpos (fun _ _ _ _ _ => (fixes_buffer _).bind fun _ => fixes_pure _) _ _ _ _ _ _).bind
    fun _ => fixes_pure _

omit hcopy in
theorem fixes_write (oldblk : Int32) (buf : ℕ → UInt8) (nbyte : UInt32) : Fixes f (write E oldblk fd buf nbyte) :=
  (fixes_xferLoop h hpos (fun _ _ _ _ _ => (h.setBuffer _ _).bind fun _ => fixes_modify fun s => h s _) _ _ _ _ _ _).bind
    fun _ => fixes_pure _

end Transfer

end Micron.Filesys

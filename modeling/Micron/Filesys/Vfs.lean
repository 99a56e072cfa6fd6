import Micron.Filesys.Mfs

/-! # Mounts, path lookup and file access

The functions of `filesys/fs.c`, `filesys/mount.c`, `filesys/ofile.c` and
`filesys/vfs.c`. MFS is the only file system that registers its functions.
-/
namespace Micron.Filesys
open Function Bytes Kernel Prog
variable (E : Env)

/-! ## `fs.c` -/

/-- Dispatch on the type of a file system; -1 selects no entry of the table. -/
def fsCall {α : Type} (fs : Option Fstype) (p : K α) : K α :=
  match fs with
  | some .MFS => p
  | none => stop .fault

def fsProbe (dev : UInt32) : K (Option Fstype) := do
  if ← mfsProbe E dev then return some .MFS else return none

/-! ## `mount.c` -/

def mountabGetroot : K (Option ℕ) := do
  return if ((← get).mountab 0).stat then some 0 else none

def mountabGet (dev : UInt32) : K (Option ℕ) := do
  let s ← get
  return (List.range NVFSMNTS).find? (fun i => (s.vnode (.root i)).dev = dev)

def mountabSeek (hdev hino : UInt32) : K (Option ℕ) := do
  let s ← get
  return (List.range NVFSMNTS).find? (fun i => (s.mountab i).hdev = hdev ∧ (s.mountab i).hino = hino)

def mountabMount (hdev hino dev : UInt32) : K ℤ := do
  if (← mountabGet dev).isSome then return -1
  let s ← get
  let some i := (List.range NVFSMNTS).find? (fun i => (s.mountab i).stat = false) | return -1
  setVnode (.root i) (fun v => { v with ino := 0, dev := dev })
  setMount i (fun m => { m with hdev := hdev, hino := hino })
  let fs ← fsProbe E dev
  setMount i (fun m => { m with fs := fs })
  if fs = none then return -1
  let blksize ← fsCall fs (mfsBlksz E dev)
  setMount i (fun m => { m with blksize := blksize })
  let sblk ← fsCall fs (mfsLsblk E dev)
  setMount i (fun m => { m with sblk := sblk })
  setMount i (fun m => { m with stat := true })
  return 0

def mountabUmount (dev : UInt32) : K ℤ := do
  let s ← get
  match (List.range NVFSMNTS).find? (fun i => (s.mountab i).stat ∧ (s.vnode (.root i)).dev = dev) with
  | some i => do
    setMount i (fun m => { m with stat := false })
    return 0
  | none => return -1

/-! ## Lookup of a path -/

def slash : UInt8 := 47

/-- The components of a path that are followed by a slash, and the text after the last
slash. -/
def splitPath : List UInt8 → List (List UInt8) × List UInt8
  | [] => ([],[])
  | c :: cs =>
    let (dirs,name) := splitPath cs
    if c = slash then ([] :: dirs,name)
    else match dirs with
      | [] => ([],c :: name)
      | d :: dirs => ((c :: d) :: dirs,name)

/-- Find the mount of `vp` and load the children of `vp` unless they are there. The result
tells whether the device is mounted. -/
def loadChildren (vp : VPtr) : K Bool := do
  let some i ← mountabGet (← vnode vp).dev | return false
  let m ← mount (some i)
  if !(← loaded vp) then fsCall m.fs (mfsLnode E m.super vp)
  return true

/-- The walk along a child list to the node with the name. On the way to the last
component, `cross`, a node that something is mounted on ends it whatever its name is. -/
def seekName (cross : Bool) (name : List UInt8) : ℕ → VPtr → K VPtr
  | _, .null => return .null
  | 0, _ => stop .hang
  | fuel + 1, vp => do
    let v ← vnode vp
    let mnt ← if cross then mountabSeek v.dev v.ino else pure none
    match mnt with
    | some i => return .root i
    | none => if v.str = name then return vp else seekName cross name fuel v.next

def vgetLoop : List (List UInt8) → VPtr → K VPtr
  | [], vp => return vp
  | dir :: dirs, vp => do
    if !(← loadChildren E vp) then return .err
    let vp ← seekName true dir E.fuel (← vnode vp).child
    if vp = .null then return .null
    vgetLoop dirs vp

def vget (path : List UInt8) (parent : Bool) : K VPtr := do
  if path.head? ≠ some slash then return .err
  let some i ← mountabGetroot | return .err
  let (dirs,name) := splitPath path.tail
  let vp ← vgetLoop E dirs (.root i)
  if vp = .null ∨ vp = .err then return vp
  if !(← loadChildren E vp) then return .err
  if parent then return vp
  let vp ← seekName false name E.fuel (← vnode vp).child
  if vp = .null then return .null
  if !(← loadChildren E vp) then return .err
  return vp

/-! ## Directories -/

def S_IFMT : UInt32 := 0x000F0000
def S_IFDIR : UInt32 := 0x00040000

def mkdir (path : List UInt8) (mode : UInt32) : K ℤ := do
  let vp ← vget E path true
  if vp = .null then return 0
  if vp = .err then return -1
  let some i ← mountabGet (← vnode vp).dev | return -1
  let m ← mount (some i)
  let np ← fsCall m.fs (mfsIalloc E m.super (← vnode vp).dev)
  let some n := (← vnode np).strcpy (splitPath path.tail).2 | stop .fault
  setVnode np (fun _ => n)
  let dev := (← vnode vp).dev
  let atime ← time E
  let mtime ← time E
  let ctime ← time E
  setVnode np (fun n => { n with
    dev := dev
    mode := (mode &&& 0xFFF) ||| S_IFDIR
    nlink := 0
    uid := 0
    gid := 0
    rdev := 0
    size := 0
    atime := atime
    mtime := mtime
    ctime := ctime
    blkentry := 0
    blocks := 0 })
  setVnode np (fun n => { n with parent := vp, child := .null })
  let v ← vnode vp
  setVnode np (fun n => { n with next := v.child, expand := .null })
  setVnode vp (fun v => { v with child := np })
  fsCall m.fs (mfsSnode E m.super vp)
  return 0

/-- The loop of `rmdir` that takes `vp` out of the list from `vnp` on; it ends at the null
pointer. -/
def unlinkLoop (vp : VPtr) : ℕ → VPtr → K VPtr
  | _, .null => return .null
  | 0, _ => stop .hang
  | fuel + 1, vnp => do
    if (← vnode vnp).next = vp then
      let next := (← vnode vp).next
      setVnode vnp (fun v => { v with next := next })
    unlinkLoop vp fuel (← vnode vnp).next

def rmdir (path : List UInt8) : K ℤ := do
  let vp ← vget E path false
  let v ← vnode vp
  if v.mode &&& S_IFMT ≠ S_IFDIR then return -1
  if v.child ≠ .null then return -1
  let vnp ← if (← vnode v.parent).child = vp then do
      setVnode v.parent (fun p => { p with child := v.next })
      pure v.parent
    else unlinkLoop vp E.fuel (← vnode v.parent).child
  let some i ← mountabGet (← vnode vp).dev | return -1
  let m ← mount (some i)
  fsCall m.fs (mfsIfree E m.super vp)
  fsCall m.fs (mfsSnode E m.super vnp)
  return 0

/-! ## Open files -/

def O_RDONLY : UInt32 := 0x00000001
def O_WRONLY : UInt32 := 0x00000002
def O_APPEND : UInt32 := 0x00000010
def O_CREAT : UInt32 := 0x00000020
def O_EXCL : UInt32 := 0x00000040
def O_TRUNC : UInt32 := 0x00000080
def S_IRUSR : UInt32 := 0x00000001
def S_IWUSR : UInt32 := 0x00000002
def SEEK_SET : Int32 := 0
def SEEK_CUR : Int32 := 1
def SEEK_END : Int32 := 2

def ofileAlloc : K (Option ℕ) := do
  let s ← get
  return (List.range NMXOFILE).find? (fun i => (s.ofile i).node = .null)

def fileBlk (f : Ofile) : K Int32 := do
  let m ← mount f.mount
  if m.blksize = 0 then stop .fault
  let v ← vnode f.node
  let daddr ← fsCall m.fs (pure (mfsDaddr m.super))
  return f.pos / m.blksize + v.blkentry + daddr

def lseek (fd : ℕ) (offset whence : Int32) : K Int32 := do
  if whence = SEEK_SET then setOfile fd (fun f => { f with pos := offset })
  if whence = SEEK_CUR then setOfile fd (fun f => { f with pos := f.pos + offset })
  if whence = SEEK_END then
    let size := (← vnode (← ofile fd).node).size
    setOfile fd (fun f => { f with pos := size.toInt32 + offset })
  let f ← ofile fd
  let v ← vnode f.node
  if v.size < f.pos.toUInt32 ∨ f.pos < 0 then return -1
  let blk ← fileBlk f
  let _ ← scacheGet E v.dev blk (← mount f.mount).blksize
  return f.pos

/-- The C value of `a && b`. -/
def logand (a b : UInt32) : UInt32 := if a ≠ 0 ∧ b ≠ 0 then 1 else 0

/-- The result of `&&` is no flag. -/
theorem logand_ne_append (a b : UInt32) : logand a b ≠ O_APPEND := by
  unfold logand
  split <;> decide

theorem logand_ne_trunc (a b : UInt32) : logand a b ≠ O_TRUNC := by
  unfold logand
  split <;> decide

def truncLoop (sb : Sblk) (dev : UInt32) (last : Int32) : ℕ → Int32 → K Unit
  | 0, _ => stop .hang
  | fuel + 1, bc =>
    if last < bc then return
    else do
      mfsDfree E sb dev bc
      truncLoop sb dev last fuel (bc + 1)

inductive Opened where
  | err
  | zero
  | file (fd : ℕ)
deriving DecidableEq

def open_ (path : List UInt8) (oflag : UInt32) : K Opened := do
  let vp ← vget E path false
  if vp = .err ∨ vp = .null then
    if oflag &&& O_CREAT ≠ 0 ∧ oflag &&& O_EXCL = O_EXCL then return .zero
  else if oflag &&& O_CREAT = O_CREAT ∧ oflag &&& O_EXCL = O_EXCL then return .err
  let v ← vnode vp
  if oflag &&& O_RDONLY = O_RDONLY ∧ v.mode &&& S_IRUSR ≠ S_IRUSR then return .err
  if oflag &&& O_WRONLY = O_WRONLY ∧ v.mode &&& S_IWUSR ≠ S_IWUSR then return .err
  let some i ← mountabGet v.dev | return .err
  let m ← mount (some i)
  let scp ← scacheGet E v.dev v.blkentry m.blksize
  if scp = none then return .err
  let some fd ← ofileAlloc | return .err
  setOfile fd (fun f => { f with node := vp, mount := some i, oflag := oflag })
  if logand oflag O_APPEND = O_APPEND then
    setOfile fd (fun f => { f with pos := v.size.toInt32 })
  else if logand oflag O_TRUNC = O_TRUNC then
    setOfile fd (fun f => { f with pos := 0 })
    setVnode vp (fun v => { v with size := 0 })
    fsCall m.fs (truncLoop E m.super v.dev (v.blkentry + v.blocks) E.fuel v.blkentry)
    setVnode vp (fun v => { v with blkentry := 0, blocks := 0 })
  else setOfile fd (fun f => { f with pos := 0 })
  let f ← ofile fd
  let _ ← lseek E fd f.pos SEEK_SET
  return .file fd

def close (fd : ℕ) : K ℤ := do
  if NMXOFILE ≤ fd then return -1
  let f ← ofile fd
  let v ← vnode f.node
  let m ← mount f.mount
  let _ ← scacheCommit E v.dev m.blksize
  setOfile fd (fun f => { f with node := .null })
  return 0

/-! ## Reading and writing -/

/-- The cache entry for block `blk`: the one of the last iteration if it had the same block. -/
def xferBlock (oldblk : Int32) (scp : Option Ptr) (dev : UInt32) (blk blksize : Int32) : K Ptr :=
  if oldblk ≠ blk then scacheGet E dev blk blksize
  else match scp with
    | some sp => return sp
    | none => stop .fault

/-- Copy `n` bytes at `disp` of a cache entry and move the position. The second result tells
whether it went beyond the end of the file. -/
def xferMove {β : Type} (copy : Ptr → ℕ → ℕ → ℕ → β → K β) (fd : ℕ) (size : UInt32) (sp : Ptr) (disp : Int32)
    (n i : UInt32) (b : β) : K (β × Bool) := do
  if disp < 0 ∨ NMXBLKSZ < disp.toNatClampNeg + n.toNat then stop .fault
  let b ← copy sp disp.toNatClampNeg n.toNat i.toNat b
  setOfile fd (fun f => { f with pos := f.pos + n.toInt32 })
  let f ← ofile fd
  if size < f.pos.toUInt32 then
    setOfile fd (fun f => { f with pos := size.toInt32 })
    return (b,true)
  return (b,false)

/-- The loop of `read` and `write`; `copy` moves the bytes between a cache entry and the
buffer of the caller. `oldblk` and `scp` have no value before the first iteration, and
`disp` is cleared before the counters are adjusted by it. -/
def xferLoop {β : Type} (copy : Ptr → ℕ → ℕ → ℕ → β → K β) (fd : ℕ) :
    ℕ → Int32 → Option Ptr → UInt32 → UInt32 → β → K β
  | 0, _, _, _, _, _ => stop .hang
  | fuel + 1, oldblk, scp, xfer, i, b =>
    if xfer = 0 then return b
    else do
      let f ← ofile fd
      let v ← vnode f.node
      let m ← mount f.mount
      let blk ← fileBlk f
      let disp := f.pos % m.blksize
      let sp ← xferBlock E oldblk scp v.dev blk m.blksize
      if m.blksize.toUInt32 < xfer + disp.toUInt32 then
        let (b,ended) ← xferMove copy fd v.size sp disp (m.blksize - disp).toUInt32 i b
        if ended then return b
        xferLoop copy fd fuel blk (some sp) (xfer - m.blksize.toUInt32) (i + m.blksize.toUInt32) b
      else
        -- nothing is left to transfer
        let (b,_) ← xferMove copy fd v.size sp disp xfer i b
        return b

def readCopy (sp : Ptr) (disp n i : ℕ) (buf : ℕ → UInt8) : K (ℕ → UInt8) := do
  let m ← buffer sp
  return put buf i ((List.range n).map (fun k => m (disp + k)))

def read (oldblk : Int32) (fd : ℕ) (buf : ℕ → UInt8) (nbyte : UInt32) : K (UInt32 × (ℕ → UInt8)) := do
  let buf ← xferLoop E readCopy fd E.fuel oldblk none nbyte 0 buf
  return (nbyte,buf)

def setChanged (sp : Ptr) : K Unit :=
  assign (fun s => { s with
    scache := { s.scache with mode := update s.scache.mode sp (s.scache.mode sp ||| S_CHANGED) } })
    (fun _ => ⟨rfl,rfl,rfl⟩)

def writeCopy (buf : ℕ → UInt8) (sp : Ptr) (disp n i : ℕ) (_ : Unit) : K Unit := do
  setBuffer sp (fun m => put m disp ((List.range n).map (fun k => buf (i + k))))
  setChanged sp

def write (oldblk : Int32) (fd : ℕ) (buf : ℕ → UInt8) (nbyte : UInt32) : K UInt32 := do
  xferLoop E (writeCopy buf) fd E.fuel oldblk none nbyte 0 ()
  return nbyte

end Micron.Filesys

import Micron.Filesys.State

/-! # The functions of `filesys/fs/mfs.c`

The functions that always return 0 are given no result. Pointers into the buffer of a
cache entry are followed when a field is read, so an entry that has been recycled in
the meantime shows its new content.
-/
namespace Micron.Filesys
open Function Bytes Kernel Prog
variable (E : Env) (sb : Sblk)

/-! ## Inode records -/

def mfsGet (dev node : UInt32) : K IPtr := do
  let blksize := sb.blksize.toUInt32
  if blksize / INODESZ.toUInt32 = 0 then stop .fault
  let blk := (INODESZ.toUInt32 * node / blksize).toInt32
  let ety := node % (blksize / INODESZ.toUInt32)
  let sp ← scacheGet E dev (sb.iblk + blk) sb.blksize
  return ⟨sp,ety.toNat * INODESZ⟩

def mfsPut (dev node : UInt32) : K Unit := do
  let blksize := sb.blksize.toUInt32
  if blksize = 0 then stop .fault
  let blk := (INODESZ.toUInt32 * node / blksize).toInt32
  let _ ← scacheSync E dev (sb.iblk + blk) sb.blksize

/-! ## Bitmaps -/

inductive Bmptype where
  | IBLK
  | DBLK
deriving DecidableEq

def Sblk.bmp : Bmptype → Int32
  | .IBLK => sb.ibmp
  | .DBLK => sb.dbmp

def Sblk.bmpcnt : Bmptype → Int32
  | .IBLK => sb.ibmpcnt
  | .DBLK => sb.dbmpcnt

def mfsMarkbmp (dev : UInt32) (type : Bmptype) (index : Int32) (stat : Bool) : K Unit := do
  if 8 * sb.blksize = 0 then stop .fault
  let blk := index / (8 * sb.blksize)
  let ety := index % (8 * sb.blksize)
  let sp ← scacheGet E dev (sb.bmp type + blk) sb.blksize
  if ety < 0 ∨ NMXBLKSZ ≤ ety.toNatClampNeg / 8 then stop .fault
  setBuffer sp (fun m => Bits.set m ety.toNatClampNeg stat)
  let _ ← scacheSync E dev (sb.bmp type + blk) sb.blksize

def seekBit : ℕ → UInt8 → ℕ → Option ℕ
  | 0, _, _ => none
  | fuel + 1, temp, j => if temp &&& 0x80 = 0x80 then some j else seekBit fuel (temp <<< 1) (j + 1)

def seekBlock (dev : UInt32) (type : Bmptype) : ℕ → Int32 → K (Option ℕ)
  | 0, _ => stop .hang
  | fuel + 1, blk => do
    let sp ← scacheGet E dev (sb.bmp type + blk) sb.blksize
    let buf ← buffer sp
    let len := sb.blksize.toNatClampNeg
    match (List.range (min len NMXBLKSZ)).find? (fun i => buf i ≠ 0xff) with
    | some i =>
      let some j := seekBit 8 (~~~ buf i) 0 | stop .hang
      return some (j + i * 8)
    | none =>
      if NMXBLKSZ < len then stop .fault
      else if blk < sb.bmpcnt type then seekBlock dev type fuel (blk + 1)
      else return none

/-- The loop ends after the block with number `s_ibmpcnt` or `s_dbmpcnt`. -/
def mfsSeekbmp (dev : UInt32) (type : Bmptype) : K (Option ℕ) :=
  seekBlock E sb dev type ((sb.bmpcnt type).toNatClampNeg + 1) 0

/-! ## The super block -/

def mfsProbe (dev : UInt32) : K Bool := do
  let buf ← buffer (← scacheGet E dev 0 512)
  return decide (buf 0 = 77 ∧ buf 1 = 70 ∧ buf 2 = 83)

def mfsBlksz (dev : UInt32) : K Int32 := do
  let buf ← buffer (← scacheGet E dev 0 512)
  return (Sblk.read buf).blksize

def mfsLsblk (dev : UInt32) : K (ℕ → UInt8) := do
  let buf ← buffer (← scacheGet E dev 0 NMXBLKSZ.toInt32)
  return fun k => if k < NMXBLKSZ then buf k else 0

/-! ## Loading the children of a node -/

def translate (ip : IPtr) (dev : UInt32) (vp : VPtr) : K Unit := do
  let n ← inode ip
  setVnode vp (fun v => { v with dev := dev })
  let some v := (← vnode vp).strcpy n.str | stop .fault
  setVnode vp (fun _ => { v with
    ino := n.ino
    mode := n.mode
    nlink := n.nlink
    uid := n.uid
    gid := n.gid
    rdev := n.rdev
    size := n.size
    atime := n.atime
    mtime := n.mtime
    ctime := n.ctime
    blkentry := n.blkentry
    blocks := n.blocks })

/-- The loop over the expansions of the child `vp`, from the record at `iep`. The first
expansion of all is not linked to its node. -/
def lnodeExpand (node vp : VPtr) : ℕ → IPtr → VPtr → K VPtr
  | 0, _, _ => stop .hang
  | fuel + 1, iep, lvep => do
    let vep ← vcacheAlloc
    if vep = .null then stop .panic
    translate iep (← vnode node).dev vep
    let v ← vnode vp
    setVnode vep (fun e => { e with parent := v.parent, child := v.child, next := v.next, expand := .null })
    if lvep = .null then setVnode vp (fun v => { v with expand := lvep })
    else setVnode lvep (fun v => { v with expand := vep })
    if (← inode iep).expand = 0 then return vep
    let iep ← mfsGet E sb (← vnode node).dev (← inode iep).expand
    lnodeExpand node vp fuel iep vep

/-- The loop over the children, from the record at `ip`; `lvp` is the child before it and
`lvep` the last expansion so far. -/
def lnodeLoop (node : VPtr) : ℕ → IPtr → VPtr → VPtr → K Unit
  | 0, _, _, _ => stop .hang
  | fuel + 1, ip, lvp, lvep => do
    let vp ← vcacheAlloc
    if vp = .null then stop .panic
    translate ip (← vnode node).dev vp
    let n ← inode ip
    setVnode vp (fun v => { v with parent := node, child := .ofIno n.child, next := .null })
    if lvp = .null then setVnode node (fun v => { v with child := vp })
    else setVnode lvp (fun v => { v with next := vp })
    let lvep ← if n.expand ≠ 0 then do
        let iep ← mfsGet E sb (← vnode node).dev n.expand
        lnodeExpand E sb node vp E.fuel iep lvep
      else pure lvep
    let n ← inode ip
    if n.next = 0 then return
    let ip ← mfsGet E sb (← vnode node).dev n.next
    lnodeLoop node fuel ip vp lvep

def mfsLnode (node : VPtr) : K Unit := do
  let v ← vnode node
  let ip ← mfsGet E sb v.dev v.ino
  let n ← inode ip
  if n.child = 0 then
    setVnode node (fun v => { v with child := .null })
  else
    let ip ← mfsGet E sb v.dev n.child
    lnodeLoop E sb node E.fuel ip .null .null

/-! ## Saving a node and its children -/

def saveFields (ip : IPtr) (v : Vnode) : K Unit := do
  setInode ip 0 (v.str ++ [0])
  setInode ip 68 (le32 v.ino ++ le32 v.mode ++ le32 v.nlink ++ le16 v.uid ++ le16 v.gid ++ le32 v.rdev ++
    le32 v.size ++ le32 v.atime ++ le32 v.mtime ++ le32 v.ctime ++ le32 v.blkentry.toUInt32 ++
    le32 v.blocks.toUInt32)

def nextIno (vp : VPtr) : K UInt32 := do
  let v ← vnode vp
  if v.next ≠ .null then return (← vnode v.next).ino else return 0

def childIno (vp : VPtr) : K UInt32 := do
  let v ← vnode vp
  if ← loaded vp then return (← vnode v.child).ino else return v.child.toIno E

/-- The record of `vp` with its links; only children get a `parent`. -/
def saveNode (node vp : VPtr) (child : Bool) : K IPtr := do
  let v ← vnode vp
  let ip ← mfsGet E sb (← vnode node).dev v.ino
  saveFields ip v
  setInode ip 112 (le32 (← nextIno vp))
  if child then setInode ip 116 (le32 (← vnode node).ino)
  setInode ip 120 (le32 (← childIno E vp))
  return ip

/-- The loop over the expansions of a child with record `ip`. It looks at the node after
the last one. -/
def snodeExpand (node : VPtr) (ip : IPtr) : ℕ → VPtr → K Unit
  | 0, _ => stop .hang
  | fuel + 1, evp => do
    let e ← vnode evp
    let eip ← mfsGet E sb (← vnode node).dev e.ino
    saveFields eip e
    let n ← inode ip
    setInode eip 116 (le32 n.parent)
    let n ← inode ip
    setInode eip 120 (le32 n.child)
    let n ← inode ip
    setInode eip 112 (le32 n.next)
    setInode eip 124 (le32 (← vnode e.expand).ino)
    mfsPut E sb (← vnode node).dev e.ino
    if e.expand = .null then return
    snodeExpand node ip fuel e.expand

def snodeLoop (node : VPtr) : ℕ → VPtr → K Unit
  | 0, _ => stop .hang
  | fuel + 1, vp => do
    let ip ← saveNode E sb node vp true
    let v ← vnode vp
    if v.expand ≠ .null then snodeExpand E sb node ip E.fuel v.expand
    mfsPut E sb (← vnode node).dev v.ino
    if v.next = .null then return
    snodeLoop node fuel v.next

def mfsSnode (node : VPtr) : K Unit := do
  let _ ← saveNode E sb node node false
  let v ← vnode node
  mfsPut E sb v.dev v.ino
  if v.child = .null then return
  snodeLoop E sb node E.fuel v.child

/-! ## Allocation and release -/

def mfsIalloc (dev : UInt32) : K VPtr := do
  let some ino ← mfsSeekbmp E sb dev .IBLK | return .null
  mfsMarkbmp E sb dev .IBLK ino.toInt32 true
  let vp ← vcacheAlloc
  setVnode vp (fun v => { v with ino := ino.toUInt32, dev := dev })
  return vp

def mfsIfree (node : VPtr) : K Unit := do
  let v ← vnode node
  mfsMarkbmp E sb v.dev .IBLK v.ino.toInt32 false

def mfsDaddr : Int32 := sb.dblk

def mfsDalloc (dev : UInt32) : K Int32 := do
  let some id ← mfsSeekbmp E sb dev .DBLK | return 0
  mfsMarkbmp E sb dev .DBLK id.toInt32 true
  return id.toInt32

/-- The bit is cleared in the bitmap of the inodes. -/
def mfsDfree (dev : UInt32) (blk : Int32) : K Unit := mfsMarkbmp E sb dev .IBLK blk false

end Micron.Filesys

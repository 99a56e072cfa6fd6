import Mathlib.Data.Fin.VecNotation
import Micron.Lib.Bits
import Micron.Lib.Bytes

/-! # The image builder

`mkmfs/mfs.c` and the directory walk of `mkmfs/main.c`. The blocks of an image under
construction are kept apart as in `mfs_data.m_blocks`; the inode block is a table of
records. A run stops early when the program exits, when it leaves one of its buffers or
when a walk along the inode links never ends.
-/
namespace Micron.Mkmfs
open Function Bytes

def MFS_NAMELEN : ℕ := 68
def MFS_BLKSIZE : ℕ := 1024
def NKBLK : ℕ := 512
def NIBMP : ℕ := 1
def NDBMP : ℕ := 1
def INODESZ : ℕ := 128
def NIBLK : ℕ := NIBMP * 8 * INODESZ
def NDBLK : ℕ := NIBLK
def NINODE : ℕ := MFS_BLKSIZE * NIBLK / INODESZ

def S_IRWXU : UInt32 := 0x00000007
def S_IRWXG : UInt32 := 0x00000070
def S_IROTH : UInt32 := 0x00000100
def S_IFDIR : UInt32 := 0x00040000
def S_IFREG : UInt32 := 0x00060000

inductive Stop where
  /-- `exit(-1)` -/
  | exit
  /-- an access outside of a buffer -/
  | fault
  /-- a loop that never ends -/
  | hang
deriving DecidableEq

structure Superblk where
  magic : Fin 4 → UInt8
  kblk : UInt16
  kblkcnt : UInt16
  ibmp : UInt32
  ibmpcnt : UInt32
  dbmp : UInt32
  dbmpcnt : UInt32
  iblk : UInt32
  iblkcnt : UInt32
  dblk : UInt32
  dblkcnt : UInt32
  blksize : UInt32

structure Inode where
  name : Fin MFS_NAMELEN → UInt8
  ino : UInt32
  mode : UInt32
  nlink : UInt32
  uid : UInt16
  gid : UInt16
  rdev : UInt32
  size : UInt32
  atime : UInt32
  mtime : UInt32
  ctime : UInt32
  blkentry : UInt32
  blocks : UInt32
  next : UInt32
  parent : UInt32
  child : UInt32
  expand : UInt32

def Inode.bytes (ip : Inode) : List UInt8 :=
  List.ofFn ip.name ++ (le32 ip.ino ++ le32 ip.mode ++ le32 ip.nlink ++ le16 ip.uid ++ le16 ip.gid ++
    le32 ip.rdev ++ le32 ip.size ++ le32 ip.atime ++ le32 ip.mtime ++ le32 ip.ctime ++ le32 ip.blkentry ++
    le32 ip.blocks ++ le32 ip.next ++ le32 ip.parent ++ le32 ip.child ++ le32 ip.expand)

/-- `i_name` as `strcmp` reads it: a name without a terminator runs on into the next fields. -/
def Inode.str (ip : Inode) : List UInt8 := cstr ip.bytes

def Inode.zero : Inode := ⟨fun _ => 0,0,0,0,0,0,0,0,0,0,0,0,0,0,0,0,0⟩

/-- `mfs_data`; `now` counts the calls of `time`. -/
structure Image where
  boot : ℕ → UInt8
  sblk : Superblk
  kern : ℕ → UInt8
  ibmp : ℕ → UInt8
  dbmp : ℕ → UInt8
  iblk : ℕ → Inode
  dblk : ℕ → UInt8
  now : ℕ

/-! ## Bitmaps -/

def mfsMarkbmp (bmp : ℕ → UInt8) (index : ℕ) (stat : Bool) : ℕ → UInt8 := Bits.set bmp index stat

def seekByte (bmp : ℕ → UInt8) (len : ℕ) : ℕ → ℕ → Except Stop (Option ℕ)
  | 0, _ => .ok none
  | cnt + 1, bbegin =>
    if len ≤ bbegin then .error .fault
    else if bmp bbegin ≠ 0xff then .ok (some bbegin)
    else seekByte bmp len cnt (bbegin + 1)

def seekBit : ℕ → ℕ → ℕ → Except Stop ℕ
  | 0, _, _ => .error .hang
  | fuel + 1, temp, index =>
    if temp &&& 0x80 = 0x80 then .ok index else seekBit fuel (temp <<< 1) (index + 1)

def mfsSeekbmp (bmp : ℕ → UInt8) (len lo hi : ℕ) : Except Stop (Option ℕ) := do
  match ← seekByte bmp len (hi / 8 - lo / 8) (lo / 8) with
  | none => return none
  | some bbegin =>
    let index ← seekBit 8 (~~~ bmp bbegin).toNat 0
    return some (index + bbegin * 8)

/-! ## Paths -/

def slash : UInt8 := 47

/-- The entries `mfs_iget` cuts a path into; what precedes the first slash is dropped. -/
def pathents : List UInt8 → List (List UInt8)
  | [] => []
  | c :: cs =>
    if c = slash ∧ cs ≠ [] then cs.takeWhile (· ≠ slash) :: pathents cs else pathents cs

/-- The walk along a child list to the record with the name; 0 ends the list. -/
def walk (im : Image) (ent : List UInt8) : ℕ → ℕ → Except Stop ℕ
  | 0, _ => .error .hang
  | fuel + 1, ibi =>
    if ibi = 0 then .ok 0
    else if NINODE ≤ ibi then .error .fault
    else if (im.iblk ibi).str = ent then .ok ibi
    else walk im ent fuel (im.iblk ibi).next.toNat

/-- One path entry; `none` is the index -1. -/
def igetStep (im : Image) (ibi : Option ℕ) (ent : List UInt8) : Except Stop (Option ℕ) :=
  match ibi with
  | none => .error .fault
  | some ibi => do
    let ibi ← walk im ent (NINODE + 1) (im.iblk ibi).child.toNat
    return if (im.iblk ibi).str = ent then some ibi else none

def mfsIget (im : Image) (path : List UInt8) : Except Stop (Option ℕ) :=
  if 128 < (pathents path).length then .error .fault
  else (pathents path).foldlM (igetStep im) (some 0)

/-! ## New inodes -/

def mfsNew : Image where
  boot _ := 0
  sblk :=
    { magic := ![77,70,83,0]
      kblk := 1
      kblkcnt := NKBLK.toUInt16
      ibmp := (1 + NKBLK).toUInt32
      ibmpcnt := NIBMP.toUInt32
      dbmp := (1 + NKBLK + NIBMP).toUInt32
      dbmpcnt := NDBMP.toUInt32
      iblk := (1 + NKBLK + NIBMP + NDBMP).toUInt32
      iblkcnt := NIBLK.toUInt32
      dblk := (1 + NKBLK + NIBMP + NDBMP + NIBLK).toUInt32
      dblkcnt := NDBLK.toUInt32
      blksize := MFS_BLKSIZE.toUInt32 }
  kern _ := 0
  ibmp := mfsMarkbmp (fun _ => 0) 0 true
  dbmp _ := 0
  iblk := update (fun _ => Inode.zero) 0 { Inode.zero with
    name := strcpy (fun _ => 0) [114,111,111,116]
    mode := S_IFDIR ||| S_IRWXU ||| S_IRWXG ||| S_IROTH }
  dblk _ := 0
  now := 0

/-! ## Boot loader and kernel -/

/-- `read` of a whole file into a region of `size` bytes. The size check before it only
prints a message. Without the file, `lseek` and `read` fail and nothing is stored. -/
def readRegion (size : ℕ) (file : Option (List UInt8)) (region : ℕ → UInt8) : Except Stop (ℕ → UInt8) :=
  match file with
  | none => .ok region
  | some buff =>
    if size < buff.length then .error .fault
    else .ok (fun a => if h : a < buff.length then buff[a] else region a)

def mfsLboot (file : Option (List UInt8)) (im : Image) : Except Stop Image := do
  return { im with boot := ← readRegion 512 file im.boot }

def mfsLkern (file : Option (List UInt8)) (im : Image) : Except Stop Image := do
  return { im with kern := ← readRegion (NKBLK * MFS_BLKSIZE) file im.kern }

/-! ## Files and directories -/

/-- The fields that `mfs_mkdir` and `mfs_write` set in the same way; `clock` answers the
calls of `time`. -/
def Inode.setup (ip : Inode) (clock : ℕ → UInt32) (now : ℕ) (name : List UInt8)
    (ino mode size next parent : UInt32) : Inode :=
  { ip with
    name := strcpy ip.name name
    ino := ino
    mode := mode
    nlink := 0
    uid := 0
    gid := 0
    rdev := 0
    size := size
    atime := clock now
    mtime := clock (now + 1)
    ctime := clock (now + 2)
    next := next
    parent := parent
    child := 0
    expand := 0 }

/-- Mark record `indexi` as used, fill it and put it in front of the children of `pathi`. -/
def Image.link (im : Image) (indexi pathi : ℕ) (ip : Inode) : Image :=
  let iblk := update im.iblk indexi ip
  { im with
    ibmp := mfsMarkbmp im.ibmp indexi true
    iblk := update iblk pathi { iblk pathi with child := indexi.toUInt32 }
    now := im.now + 3 }

def mfsMkdir (clock : ℕ → UInt32) (path name : List UInt8) (im : Image) : Except Stop Image := do
  if name.length > MFS_NAMELEN then throw .exit
  let some pathi ← mfsIget im path | throw .exit
  let some indexi ← mfsSeekbmp im.ibmp (MFS_BLKSIZE * NIBMP) 0 (MFS_BLKSIZE * 8) | throw .exit
  let ip := (im.iblk indexi).setup clock im.now name indexi.toUInt32
    (S_IFDIR ||| S_IRWXU ||| S_IRWXG ||| S_IROTH) 0 (im.iblk pathi).child pathi.toUInt32
  return im.link indexi pathi { ip with blkentry := 0, blocks := 0 }

/-- Take the first free data block `dblkr` times; the result is the last one taken. -/
def allocBlocks : ℕ → ℕ → (ℕ → UInt8) → Except Stop (ℕ × (ℕ → UInt8))
  | 0, dblki, dbmp => .ok (dblki,dbmp)
  | dblkr + 1, _, dbmp => do
    let some dblki ← mfsSeekbmp dbmp (MFS_BLKSIZE * NDBMP) 0 (MFS_BLKSIZE * NDBLK * 8) | throw .exit
    allocBlocks dblkr dblki (mfsMarkbmp dbmp dblki true)

def dblkr (size : ℕ) : ℕ := if size % MFS_BLKSIZE ≠ 0 then size / MFS_BLKSIZE + 1 else size / MFS_BLKSIZE

def copyData (dblk : ℕ → UInt8) (addr : ℕ) (buff : List UInt8) : Except Stop (ℕ → UInt8) :=
  if buff ≠ [] ∧ MFS_BLKSIZE * NDBLK < addr + buff.length then .error .fault
  else .ok (fun a => if h : addr ≤ a ∧ a < addr + buff.length then buff[a - addr] else dblk a)

def mfsWrite (clock : ℕ → UInt32) (path name buff : List UInt8) (im : Image) : Except Stop Image := do
  if name.length > MFS_NAMELEN then throw .exit
  let some pathi ← mfsIget im path | throw .exit
  if (im.iblk pathi).mode &&& S_IFDIR ≠ S_IFDIR then throw .exit
  let some indexi ← mfsSeekbmp im.ibmp (MFS_BLKSIZE * NIBMP) 0 (MFS_BLKSIZE * NIBMP * 8) | throw .exit
  let ip := (im.iblk indexi).setup clock im.now name indexi.toUInt32
    (S_IFREG ||| S_IRWXU ||| S_IRWXG ||| S_IROTH) buff.length.toUInt32 (im.iblk pathi).child pathi.toUInt32
  let (dblki,dbmp) ← allocBlocks (dblkr buff.length) 0 im.dbmp
  let blocks := (dblkr buff.length).toUInt32
  let blkentry := dblki.toUInt32 - blocks + 1
  let dblk ← copyData im.dblk (blkentry * MFS_BLKSIZE.toUInt32).toNat buff
  return { im.link indexi pathi { ip with blocks := blocks, blkentry := blkentry } with
    dbmp := dbmp
    dblk := dblk }

/-! ## Packing a directory -/

/-- What `readdir` enumerates in a host directory, in its order. An entry that is neither
packed as a file nor as a directory, such as the dot entries, is skipped. -/
inductive Dir where
  | done
  | skip (name : List UInt8) (rest : Dir)
  | reg (name data : List UInt8) (rest : Dir)
  | dir (name : List UInt8) (sub rest : Dir)

/-- A string built in a `char[512]`. -/
def pathBuf (s : List UInt8) : Except Stop (List UInt8) := if s.length < 512 then .ok s else .error .fault

def isDots (name : List UInt8) : Bool := name = [46] ∨ name = [46,46]

def packEntries (clock : ℕ → UInt32) (cutsize : ℕ) : List UInt8 → Dir → Image → Except Stop Image
  | _, .done, im => .ok im
  | path, .skip name rest, im => do
    let _ ← pathBuf (path ++ name)
    packEntries clock cutsize path rest im
  | path, .reg name data rest, im => do
    let _ ← pathBuf (path ++ name)
    let im ← if isDots name then pure im else mfsWrite clock (path.drop cutsize) name data im
    packEntries clock cutsize path rest im
  | path, .dir name sub rest, im => do
    let pathtemp ← pathBuf (path ++ name)
    let im ← if isDots name then pure im else do
      let im ← mfsMkdir clock (path.drop cutsize) name im
      let path ← pathBuf (pathtemp ++ [slash])
      packEntries clock cutsize path sub im
    packEntries clock cutsize path rest im

/-- The outermost call, which sets `cutsize`; an empty name cannot be opened. -/
def packdir (clock : ℕ → UInt32) (dirname : List UInt8) (d : Dir) (im : Image) : Except Stop Image := do
  let path ← pathBuf (dirname ++ [slash])
  if dirname = [] then throw .exit
  packEntries clock dirname.length path d im

end Micron.Mkmfs

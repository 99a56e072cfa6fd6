import Mathlib.Data.List.Infix
import Micron.Kernel.Scache
import Micron.Kernel.Vcache
import Micron.Lib.Bits
import Micron.Lib.Bytes
import Micron.Lib.Prog

/-! # The memory of the file system layer

The structures of `include/vnode.h`, `include/mount.h`, `include/ofile.h` and
`filesys/fs/mfs.h`, and the state that the functions of `filesys/` work on. A program
stops when the kernel panics, when a loop never ends, or when it reads or writes through
a pointer that leads to no object of its type.
-/
namespace Micron.Filesys
open Function Bytes Kernel

inductive Stop where
  /-- `PANIC` -/
  | panic
  /-- an access outside of the objects below, or a division by zero -/
  | fault
  /-- a loop that never ends -/
  | hang
deriving DecidableEq

/-- The values that a `struct vnode *` takes. Links of a directory that has not been
loaded hold the inode number of the first child instead of an address. -/
inductive VPtr where
  | null
  /-- `(struct vnode*)-1` -/
  | err
  /-- an inode number other than 0 -/
  | ino (n : UInt32)
  /-- `&vcache[i]` -/
  | vc (i : ℕ)
  /-- `&mountab[i].root` -/
  | root (i : ℕ)
deriving DecidableEq

def VPtr.isNode : VPtr → Bool
  | .vc _ | .root _ => true
  | _ => false

def VPtr.ofIno (n : UInt32) : VPtr := if n = 0 then .null else .ino n

def VPtr.ofPtr : Ptr → VPtr
  | none => .null
  | some i => .vc i

/-- `struct vnode` without the fields of the allocation list. -/
structure Vnode where
  name : Fin NVNAMLEN → UInt8
  dev : UInt32
  ino : UInt32
  mode : UInt32
  nlink : UInt32
  uid : UInt16
  gid : UInt16
  rdev : UInt32
  size : UInt32
  atime : UInt32
  mtime : UInt32
  ctime : UInt32
  blkentry : Int32
  blocks : Int32
  next : VPtr
  parent : VPtr
  child : VPtr
  expand : VPtr

/-- The fields up to `blocks` in memory. They are followed by `sem`, which is always 0. -/
def Vnode.bytes (v : Vnode) : List UInt8 :=
  List.ofFn v.name ++ (le32 v.dev ++ (le32 v.ino ++ (le32 v.mode ++ (le32 v.nlink ++ (le16 v.uid ++
    (le16 v.gid ++ (le32 v.rdev ++ (le32 v.size ++ (le32 v.atime ++ (le32 v.mtime ++ (le32 v.ctime ++
      (le32 v.blkentry.toUInt32 ++ le32 v.blocks.toUInt32))))))))))))

/-- The string at `name`; without a terminator it runs on into the next fields. -/
def Vnode.str (v : Vnode) : List UInt8 := cstr v.bytes

def Vnode.load (v : Vnode) (m : ℕ → UInt8) : Vnode :=
  { v with
    name := fun i => m i
    dev := get32 m 68
    ino := get32 m 72
    mode := get32 m 76
    nlink := get32 m 80
    uid := get16 m 84
    gid := get16 m 86
    rdev := get32 m 88
    size := get32 m 92
    atime := get32 m 96
    mtime := get32 m 100
    ctime := get32 m 104
    blkentry := (get32 m 108).toInt32
    blocks := (get32 m 112).toInt32 }

/-- `strcpy` to `name`. A longer string overwrites the next fields, and one that goes
beyond the first byte of `sem` damages the links. -/
def Vnode.strcpy (v : Vnode) (s : List UInt8) : Option Vnode :=
  if 116 < s.length then none else some (v.load (put (fun k => v.bytes.getD k 0) 0 (s ++ [0])))

def Vnode.zero : Vnode := ⟨fun _ => 0,0,0,0,0,0,0,0,0,0,0,0,0,0,.null,.null,.null,.null⟩

structure Inode where
  str : List UInt8
  ino : UInt32
  mode : UInt32
  nlink : UInt32
  uid : UInt16
  gid : UInt16
  rdev : UInt32
  size : UInt32
  atime : UInt32
  mtime : UInt32
  ctime : UInt32
  blkentry : Int32
  blocks : Int32
  next : UInt32
  parent : UInt32
  child : UInt32
  expand : UInt32

def INODESZ : ℕ := 128

def Inode.read (m : ℕ → UInt8) (a : ℕ) : Inode where
  str := cstr ((List.range INODESZ).map (fun k => m (a + k)))
  ino := get32 m (a + 68)
  mode := get32 m (a + 72)
  nlink := get32 m (a + 76)
  uid := get16 m (a + 80)
  gid := get16 m (a + 82)
  rdev := get32 m (a + 84)
  size := get32 m (a + 88)
  atime := get32 m (a + 92)
  mtime := get32 m (a + 96)
  ctime := get32 m (a + 100)
  blkentry := (get32 m (a + 104)).toInt32
  blocks := (get32 m (a + 108)).toInt32
  next := get32 m (a + 112)
  parent := get32 m (a + 116)
  child := get32 m (a + 120)
  expand := get32 m (a + 124)

/-- `struct mfs_sblk`. No function reads `dblkcnt`, the number of data blocks. -/
structure Sblk where
  ibmp : Int32
  ibmpcnt : Int32
  dbmp : Int32
  dbmpcnt : Int32
  iblk : Int32
  dblk : Int32
  dblkcnt : Int32
  blksize : Int32

def Sblk.read (m : ℕ → UInt8) : Sblk where
  ibmp := (get32 m 8).toInt32
  ibmpcnt := (get32 m 12).toInt32
  dbmp := (get32 m 16).toInt32
  dbmpcnt := (get32 m 20).toInt32
  iblk := (get32 m 24).toInt32
  dblk := (get32 m 32).toInt32
  dblkcnt := (get32 m 36).toInt32
  blksize := (get32 m 40).toInt32

inductive Fstype where
  | MFS
deriving DecidableEq

/-- `struct mountab` without `root`; the type -1 is `none`. -/
structure Mountab where
  stat : Bool
  sblk : ℕ → UInt8
  blksize : Int32
  fs : Option Fstype
  hdev : UInt32
  hino : UInt32

def Mountab.super (m : Mountab) : Sblk := .read m.sblk

structure Ofile where
  oflag : UInt32
  node : VPtr
  mount : Option ℕ
  pos : Int32

/-- A call of `vcache_alloc`: the list and the open files it found and what it returned. -/
structure Alloc where
  vlist : AllocList
  ofile : ℕ → Ofile
  got : Ptr

structure State where
  scache : Scache
  /-- `vcache_data` with `cnext`, `clast` and `sem` -/
  vlist : AllocList
  vnode : VPtr → Vnode
  mountab : ℕ → Mountab
  ofile : ℕ → Ofile
  /-- number of calls of `time` -/
  times : ℕ
  /-- the calls of `vcache_alloc` so far; no function looks at it -/
  allocs : List Alloc

def State.boot (disk : ℕ → ℕ → UInt8) : State where
  scache := .boot disk
  vlist := .boot
  vnode _ := .zero
  mountab _ := ⟨false,fun _ => 0,0,some .MFS,0,0⟩
  ofile _ := ⟨0,.null,none,0⟩
  times := 0
  allocs := []

/-- Nothing is taken out of a cache or of the record of calls. -/
instance : Preorder State where
  le s t := s.vlist.cnt ≤ t.vlist.cnt ∧ s.scache.alist.cnt ≤ t.scache.alist.cnt ∧ s.allocs <+: t.allocs
  le_refl s := ⟨le_rfl,le_rfl,List.prefix_rfl⟩
  le_trans _ _ _ h h' := ⟨h.1.trans h'.1,h.2.1.trans h'.2.1,h.2.2.trans h'.2.2⟩

abbrev K := Prog Stop State

structure Env where
  devs : BlkDevs
  /-- the answers of `time` -/
  clock : ℕ → UInt32
  /-- the addresses of the vnodes -/
  addr : VPtr → UInt32
  /-- bound on the iterations of a loop that need not end -/
  fuel : ℕ

def VPtr.toIno (E : Env) : VPtr → UInt32
  | .null => 0
  | .err => 0xffffffff
  | .ino n => n
  | p => E.addr p

open Prog

/-! ## Access to the objects -/

def vnode (p : VPtr) : K Vnode := if p.isNode then do return (← get).vnode p else stop .fault

def assign (f : State → State) (h : ∀ s, (f s).vlist = s.vlist ∧ (f s).scache.alist = s.scache.alist ∧
    (f s).allocs = s.allocs) : K Unit :=
  modify f (fun s => ⟨by rw [(h s).1],by rw [(h s).2.1],by rw [(h s).2.2]⟩)

def setVnode (p : VPtr) (f : Vnode → Vnode) : K Unit :=
  if p.isNode then
    assign (fun s => { s with vnode := update s.vnode p (f (s.vnode p)) }) (fun _ => ⟨rfl,rfl,rfl⟩)
  else stop .fault

/-- The test `vp->child->parent == vp`; a link that holds no address is never taken for
the address of a child. -/
def loaded (vp : VPtr) : K Bool := do
  let v ← vnode vp
  return v.child.isNode && decide (((← get).vnode v.child).parent = vp)

def ofile (fd : ℕ) : K Ofile := if fd < NMXOFILE then do return (← get).ofile fd else stop .fault

def setOfile (fd : ℕ) (f : Ofile → Ofile) : K Unit :=
  if fd < NMXOFILE then
    assign (fun s => { s with ofile := update s.ofile fd (f (s.ofile fd)) }) (fun _ => ⟨rfl,rfl,rfl⟩)
  else stop .fault

def mount : Option ℕ → K Mountab
  | none => stop .fault
  | some i => do return (← get).mountab i

def setMount (i : ℕ) (f : Mountab → Mountab) : K Unit :=
  assign (fun s => { s with mountab := update s.mountab i (f (s.mountab i)) }) (fun _ => ⟨rfl,rfl,rfl⟩)

def time (E : Env) : K UInt32 := do
  let s ← get
  assign (fun s => { s with times := s.times + 1 }) (fun _ => ⟨rfl,rfl,rfl⟩)
  return E.clock s.times

def vcacheAlloc : K VPtr :=
  step (fun s => match Kernel.vcacheAlloc s.vlist with
    | none => .error .hang
    | some (p,l) => .ok (.ofPtr p,{ s with vlist := l, allocs := s.allocs ++ [⟨s.vlist,s.ofile,p⟩] }))
    (by
      intro s a t h
      split at h
      · cases h
      · rename_i hl
        cases h
        exact ⟨AllocList.cnt_le_alloc hl,le_rfl,List.prefix_append _ _⟩)

/-! ## Access to the sector cache -/

def cached {α : Type} (f : Scache → Option (α × Scache))
    (h : ∀ s a t, f s = some (a,t) → s.alist.cnt ≤ t.alist.cnt) : K α :=
  step (fun s => match f s.scache with
    | none => .error .hang
    | some (a,c) => .ok (a,{ s with scache := c }))
    (by
      intro s a t ht
      split at ht
      · cases ht
      · rename_i hc
        cases ht
        exact ⟨le_rfl,h _ _ _ hc,List.prefix_rfl⟩)

/-- A block that does not fit into `buf` overruns it. -/
def scacheGet (E : Env) (dev : UInt32) (blk blksize : Int32) : K Ptr :=
  if blksize < 0 ∨ NMXBLKSZ < blksize.toNatClampNeg / 512 * 512 then stop .fault
  else cached (Scache.scacheGet E.devs dev.toNat blk.toInt blksize.toNatClampNeg)
    (fun _ _ _ => Scache.cnt_le_scacheGet)

def scacheSync (E : Env) (dev : UInt32) (blk blksize : Int32) : K ℤ :=
  if blksize < 0 ∨ NMXBLKSZ < blksize.toNatClampNeg / 512 * 512 then stop .fault
  else cached (Scache.scacheSync E.devs dev.toNat blk.toInt blksize.toNatClampNeg)
    (fun _ _ _ h => le_of_eq (congrArg AllocList.cnt (Scache.scacheSync_alist h).symm))

def scacheCommit (E : Env) (dev : UInt32) (blksize : Int32) : K ℤ :=
  if blksize < 0 ∨ NMXBLKSZ < blksize.toNatClampNeg / 512 * 512 then stop .fault
  else cached (Scache.scacheCommit E.devs dev.toNat blksize.toNatClampNeg)
    (fun _ _ _ h => le_of_eq (congrArg AllocList.cnt (Scache.scacheCommit_alist h).symm))

def buffer : Ptr → K (ℕ → UInt8)
  | none => stop .fault
  | some i => do return (← get).scache.buf (some i)

def setBuffer (sp : Ptr) (f : (ℕ → UInt8) → ℕ → UInt8) : K Unit :=
  match sp with
  | none => stop .fault
  | some i => assign (fun s => { s with
      scache := { s.scache with buf := update s.scache.buf (some i) (f (s.scache.buf (some i))) } })
      (fun _ => ⟨rfl,rfl,rfl⟩)

structure IPtr where
  sp : Ptr
  off : ℕ

def inode (ip : IPtr) : K Inode :=
  if NMXBLKSZ < ip.off + INODESZ then stop .fault else do return .read (← buffer ip.sp) ip.off

def setInode (ip : IPtr) (off : ℕ) (l : List UInt8) : K Unit :=
  if NMXBLKSZ < ip.off + INODESZ then stop .fault else setBuffer ip.sp (fun m => put m (ip.off + off) l)

/-! ## Weakest preconditions of the accesses -/

section
variable {s : State} {X : State → Prop} {p : VPtr} {fd i : ℕ} {ip : IPtr}

@[simp] theorem wp_vnode {Q : Vnode → State → Prop} (hp : p.isNode) : wp (vnode p) Q X s ↔ Q (s.vnode p) s := by
  rw [vnode,if_pos hp]
  rfl

@[simp] theorem wp_setVnode {Q : Unit → State → Prop} {f : Vnode → Vnode} (hp : p.isNode) :
    wp (setVnode p f) Q X s ↔ Q () { s with vnode := update s.vnode p (f (s.vnode p)) } := by
  rw [setVnode,if_pos hp]
  rfl

@[simp] theorem wp_loaded {Q : Bool → State → Prop} (hp : p.isNode) : wp (loaded p) Q X s ↔
    Q ((s.vnode p).child.isNode && decide ((s.vnode (s.vnode p).child).parent = p)) s := by
  simp only [loaded,wp_bind,wp_vnode hp,wp_get,wp_pure]

@[simp] theorem wp_ofile {Q : Ofile → State → Prop} (hf : fd < NMXOFILE) :
    wp (ofile fd) Q X s ↔ Q (s.ofile fd) s := by
  rw [ofile,if_pos hf]
  rfl

@[simp] theorem wp_setOfile {Q : Unit → State → Prop} {f : Ofile → Ofile} (hf : fd < NMXOFILE) :
    wp (setOfile fd f) Q X s ↔ Q () { s with ofile := update s.ofile fd (f (s.ofile fd)) } := by
  rw [setOfile,if_pos hf]
  rfl

@[simp] theorem wp_mount {Q : Mountab → State → Prop} : wp (mount (some i)) Q X s ↔ Q (s.mountab i) s := Iff.rfl

@[simp] theorem wp_setMount {Q : Unit → State → Prop} {f : Mountab → Mountab} :
    wp (setMount i f) Q X s ↔ Q () { s with mountab := update s.mountab i (f (s.mountab i)) } := Iff.rfl

@[simp] theorem wp_buffer {Q : (ℕ → UInt8) → State → Prop} :
    wp (buffer (some i)) Q X s ↔ Q (s.scache.buf (some i)) s := Iff.rfl

@[simp] theorem wp_setBuffer {Q : Unit → State → Prop} {f : (ℕ → UInt8) → ℕ → UInt8} :
    wp (setBuffer (some i) f) Q X s ↔ Q () { s with
      scache := { s.scache with buf := update s.scache.buf (some i) (f (s.scache.buf (some i))) } } := Iff.rfl

end

end Micron.Filesys

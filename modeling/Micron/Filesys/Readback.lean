import Micron.Filesys.Attach
import Micron.Kernel.HdaInit
import Micron.Mkmfs.Layout

/-! # The kernel reads what the image builder wrote

The two programs describe super block and records by structures of their own. What `mkmfs`
writes is an inode table for the kernel, so a lookup finds exactly the records of the tree
that was packed.
-/
namespace Micron.Filesys
open Function Bytes Kernel Scache Prog

/-! ## The two formats -/

def Inode.ofRecord (ip : Mkmfs.Inode) : Inode where
  str := ip.str
  ino := ip.ino
  mode := ip.mode
  nlink := ip.nlink
  uid := ip.uid
  gid := ip.gid
  rdev := ip.rdev
  size := ip.size
  atime := ip.atime
  mtime := ip.mtime
  ctime := ip.ctime
  blkentry := ip.blkentry.toInt32
  blocks := ip.blocks.toInt32
  next := ip.next
  parent := ip.parent
  child := ip.child
  expand := ip.expand

theorem Inode.read_record {m : ℕ → UInt8} {a : ℕ} {ip : Mkmfs.Inode} (h : At m a ip.bytes) :
    Inode.read m a = Inode.ofRecord ip := by
  have hstr : (List.range INODESZ).map (fun k => m (a + k)) = ip.bytes := by
    refine List.ext_getElem (by simp [ip.bytes_length,INODESZ,Mkmfs.INODESZ]) (fun k _ hk => ?_)
    rw [List.getElem_map,List.getElem_range]
    exact h k hk
  have hname : (List.ofFn ip.name).length = 68 := List.length_ofFn
  have hat := h
  simp only [Mkmfs.Inode.bytes,at_append,List.length_append,hname,le32_length,le16_length,Nat.add_assoc,
    Nat.reduceAdd,and_assoc] at hat
  obtain ⟨-,h0,h1,h2,h3,h4,h5,h6,h7,h8,h9,h10,h11,h12,h13,h14,h15⟩ := hat
  simp only [Inode.read,Inode.ofRecord,hstr,Mkmfs.Inode.str,get32_of_at h0,get32_of_at h1,get32_of_at h2,
    get16_of_at h3,get16_of_at h4,get32_of_at h5,get32_of_at h6,get32_of_at h7,get32_of_at h8,get32_of_at h9,
    get32_of_at h10,get32_of_at h11,get32_of_at h12,get32_of_at h13,get32_of_at h14,get32_of_at h15]

def Sblk.ofSuperblk (sb : Mkmfs.Superblk) : Sblk where
  ibmp := sb.ibmp.toInt32
  ibmpcnt := sb.ibmpcnt.toInt32
  dbmp := sb.dbmp.toInt32
  dbmpcnt := sb.dbmpcnt.toInt32
  iblk := sb.iblk.toInt32
  dblk := sb.dblk.toInt32
  dblkcnt := sb.dblkcnt.toInt32
  blksize := sb.blksize.toInt32

theorem Sblk.read_superblk {m : ℕ → UInt8} {sb : Mkmfs.Superblk} (h : At m 0 sb.bytes) :
    Sblk.read m = Sblk.ofSuperblk sb ∧ ∀ i : Fin 4, m i = sb.magic i := by
  have hmagic : (List.ofFn sb.magic).length = 4 := List.length_ofFn
  simp only [Mkmfs.Superblk.bytes,at_append,hmagic,le32_length,le16_length,Nat.reduceAdd,Nat.zero_add] at h
  obtain ⟨h0,-,-,h1,h2,h3,h4,h5,-,h6,h7,h8⟩ := h
  refine ⟨?_,fun i => ?_⟩
  · simp only [Sblk.read,Sblk.ofSuperblk,get32_of_at h1,get32_of_at h2,get32_of_at h3,get32_of_at h4,
      get32_of_at h5,get32_of_at h6,get32_of_at h7,get32_of_at h8]
  · have hi := h0 i (by rw [hmagic]; exact i.isLt)
    rwa [List.getElem_ofFn,Nat.zero_add] at hi

/-! ## The image as a table -/

def mfsSizes : BlkSizes := ⟨fun _ => Mkmfs.MFS_BLKSIZE,fun _ => ⟨2,rfl⟩,fun _ => by decide⟩

/-- Number of blocks of an image up to the end of the inode table. -/
def tableBlocks : ℕ := 1 + Mkmfs.NKBLK + Mkmfs.NIBMP + Mkmfs.NDBMP + Mkmfs.NIBLK

/-- The device works and carries the image without the boot sector, as a partition that
starts behind it does. Nothing is asked of the data blocks. -/
structure Carries (E : Env) (dev : UInt32) (im : Mkmfs.Image) (disk : ℕ → ℕ → UInt8) : Prop where
  dev_ok : DevOk dev.toNat
  open_ok : E.devs.openOk dev.toNat
  seek_ok : ∀ n : ℕ, n < tableBlocks * (Mkmfs.MFS_BLKSIZE / 512) → E.devs.seekOk dev.toNat n
  content : ∀ a < tableBlocks * Mkmfs.MFS_BLKSIZE, disk dev.toNat a = Mkmfs.mfsEnd im (512 + a)

def imageTable (dev : UInt32) (im : Mkmfs.Image) (k : ℕ) : Table where
  dev := dev
  sb := Sblk.ofSuperblk im.sblk
  base := 1 + Mkmfs.NKBLK + Mkmfs.NIBMP + Mkmfs.NDBMP
  count := Mkmfs.NINODE
  record n := Inode.ofRecord (im.iblk n)
  used n := n ≤ k
  kids := Mkmfs.kids im k
  exps _ := []

variable {E : Env} {dev : UInt32} {im : Mkmfs.Image} {disk : ℕ → ℕ → UInt8} {k n : ℕ} {calls : List Mkmfs.Call}

theorem Carries.at_disk {a : ℕ} {l : List UInt8} (h : Carries E dev im disk)
    (ha : At (fun a => Mkmfs.mfsEnd im (512 + a)) a l) (hle : a + l.length ≤ tableBlocks * Mkmfs.MFS_BLKSIZE) :
    At (disk dev.toNat) a l := by
  intro i hi
  rw [h.content (a + i) (by omega)]
  exact ha i hi

theorem request_valid {b : ℕ} (hd : DevOk dev.toNat) (hb : b < 2 ^ 20)
    (hs : E.devs.seekOk dev.toNat (b * (Mkmfs.MFS_BLKSIZE / 512) : ℕ)) :
    (mfsSizes.request dev.toNat b).Valid E.devs := by
  have hsector : sector b Mkmfs.MFS_BLKSIZE = (b * (Mkmfs.MFS_BLKSIZE / 512) : ℕ) := by
    rw [sector,← Int.natCast_mul]
    refine Int.bmod_eq_of_le ?_ ?_
    · exact Int.le_trans (by decide) (Int.natCast_nonneg _)
    · simp only [Mkmfs.MFS_BLKSIZE]
      omega
  refine ⟨hd,Int.natCast_nonneg b,?_,fun _ => ?_⟩
  · simp only [BlkSizes.request,mfsSizes,Mkmfs.MFS_BLKSIZE]
    omega
  · change E.devs.seekOk dev.toNat (sector b Mkmfs.MFS_BLKSIZE) = true
    rw [hsector]
    exact hs

theorem Carries.valid (h : Carries E dev im disk) {b : ℕ} (hb : b < tableBlocks) :
    (mfsSizes.request dev.toNat b).Valid E.devs :=
  request_valid h.dev_ok (Nat.lt_trans hb (by decide)) (h.seek_ok _ (Nat.mul_lt_mul_of_pos_right hb (by decide)))

theorem imageTable_addr (dev : UInt32) (im : Mkmfs.Image) (k n : ℕ) :
    (imageTable dev im k).blk mfsSizes n * Mkmfs.MFS_BLKSIZE + (imageTable dev im k).off mfsSizes n =
      Mkmfs.iblkAddr + Mkmfs.INODESZ * n := by
  simp only [Table.blk,Table.off,Table.len,imageTable,mfsSizes,Mkmfs.iblkAddr,Mkmfs.MFS_BLKSIZE,Mkmfs.INODESZ,INODESZ,
    Mkmfs.NKBLK,Mkmfs.NIBMP,Mkmfs.NDBMP]
  omega

theorem Carries.on (h : Carries E dev im disk) (hb : Mkmfs.Built calls im) :
    (imageTable dev im k).On E mfsSizes (contentOf mfsSizes E.devs disk) where
  usable := by
    refine ⟨h.dev_ok,h.open_ok,?_⟩
    rw [imageTable,hb.sblk]
    rfl
  len_pos := show 0 < Mkmfs.MFS_BLKSIZE by decide
  base_eq := by
    rw [imageTable,hb.sblk]
    rfl
  base_pos := show 0 < 1 + Mkmfs.NKBLK + Mkmfs.NIBMP + Mkmfs.NDBMP by decide
  count_le := show Mkmfs.NINODE ≤ 2 ^ 25 by decide
  valid n hn := by
    refine h.valid ?_
    simp only [Table.blk,Table.len,imageTable,mfsSizes,tableBlocks,Mkmfs.NINODE,Mkmfs.MFS_BLKSIZE,Mkmfs.INODESZ,
      INODESZ,Mkmfs.NKBLK,Mkmfs.NIBMP,Mkmfs.NDBMP,Mkmfs.NIBLK] at hn ⊢
    omega
  read n hn := by
    have hlt : n < 8192 := hn
    have hat := h.at_disk (Mkmfs.mfsEnd_iblk im hn) (by
      rw [Mkmfs.Inode.bytes_length]
      simp only [Mkmfs.iblkAddr,tableBlocks,Mkmfs.MFS_BLKSIZE,Mkmfs.INODESZ,Mkmfs.NKBLK,Mkmfs.NIBMP,Mkmfs.NDBMP,
        Mkmfs.NIBLK]
      omega)
    refine Inode.read_record (fun i hi => ?_)
    rw [← hat i hi,← imageTable_addr dev im k n,contentOf,Nat.add_assoc]
    simp only [volume,BlkSizes.request,Get.addr,Int.toNat_natCast,Nat.mul_assoc,
      Nat.div_mul_cancel (mfsSizes.aligned _)]
    rfl

theorem Follows.of_chain {l : List ℕ} {v : UInt32} (h : Linked.Chain im.inext (Mkmfs.ptr v) l) :
    Follows (imageTable dev im k).record Inode.next v l := by
  induction l generalizing v with
  | nil => exact Mkmfs.ptr_none.mp h
  | cons m l ih =>
    obtain ⟨hm,hl⟩ := h
    obtain ⟨hne,hv⟩ := Mkmfs.ptr_some.mp hm
    refine ⟨?_,hv,ih hl⟩
    rintro rfl
    exact hne hv.symm

theorem imageTable_shaped {fuel : ℕ} (dev : UInt32) (h : Mkmfs.Built calls im) (hfuel : Mkmfs.NINODE ≤ fuel) :
    (imageTable dev im calls.length).Shaped fuel where
  root := Nat.zero_le _
  lt n hn := Nat.lt_of_le_of_lt hn h.used.forest.lt
  follows n hn := .of_chain (h.used.forest.children n hn)
  kid n _ m hm := by
    obtain ⟨hpos,hle,-⟩ := Mkmfs.mem_kids.mp hm
    exact ⟨hle,Nat.ne_of_gt hpos⟩
  nodup n _ := Mkmfs.kids_nodup
  parent n n' m _ _ hm hm' := (Mkmfs.mem_kids.mp hm).2.2.symm.trans (Mkmfs.mem_kids.mp hm').2.2
  ino n _ m hm := by
    obtain ⟨hpos,hle,-⟩ := Mkmfs.mem_kids.mp hm
    change (im.iblk m).ino.toNat = m
    rw [h.used.forest.ino m hpos hle]
    exact Nat.mod_eq_of_lt (Nat.lt_of_le_of_lt hle (Nat.lt_trans h.used.forest.lt (by decide)))
  fits n _ m hm := by
    obtain ⟨hpos,hle,-⟩ := Mkmfs.mem_kids.mp hm
    obtain ⟨name,hname⟩ := h.named m hpos hle
    refine ⟨?_,?_⟩
    · exact fun hz => absurd (List.mem_takeWhile_imp hz) (by simp)
    · change (im.iblk m).str.length < NVNAMLEN
      rw [hname.str]
      exact hname.2
  kids_lt n _ := Nat.lt_of_le_of_lt Mkmfs.kids_length_le (Nat.lt_of_lt_of_le h.used.forest.lt hfuel)
  expands n _ := h.expand n
  exp n _ e he := by cases he
  exps_lt n _ := Nat.lt_of_lt_of_le (show 0 < Mkmfs.NINODE by decide) hfuel

theorem Carries.bootable (h : Carries E dev im disk) (hb : Mkmfs.Built calls im) :
    Bootable E (contentOf mfsSizes E.devs disk) dev (imageTable dev im k).sb := by
  have hat := h.at_disk (Mkmfs.mfsEnd_sblk im) (by simp [Mkmfs.Superblk.bytes]; decide)
  obtain ⟨hread,hmagic⟩ := Sblk.read_superblk hat
  have hzero : contentOf mfsSizes E.devs disk dev.toNat 0 = disk dev.toNat := by
    funext k
    simp [contentOf,volume,BlkSizes.request,Get.addr]
  rw [hb.sblk] at hmagic
  refine ⟨h.dev_ok,h.open_ok,h.seek_ok 0 (by decide),?_,by rw [hzero]; exact hread⟩
  rw [hzero]
  exact ⟨hmagic 0,hmagic 1,hmagic 2⟩

/-! ## Lookups in an image -/

/-- The record that a path of names leads to in the tree of the image: at each level the
first child with the name. -/
def imageResolve (im : Mkmfs.Image) (k : ℕ) (comps : List (List UInt8)) : Option ℕ :=
  Names.resolve (Mkmfs.kids im k) (fun n => (im.iblk n).str) 0 comps

theorem vget_reads_image {calls : List (List UInt8 × Bool)} {made : List Mkmfs.Call} {comps : List (List UInt8)}
    (hb : Mkmfs.Built made im) (hdisk : Carries E dev im disk) (hdev : dev ≠ 0) (hfuel : Mkmfs.NINODE ≤ E.fuel)
    (hne : comps ≠ []) (hcomps : ∀ c ∈ comps, slash ∉ c)
    (hroom : ¬ Full ((lookup E dev calls comps).run (State.boot disk)).2) :
    ∃ p t, (lookup E dev calls comps).run (State.boot disk) = (.ok p,t) ∧
      match imageResolve im made.length comps with
      | none => p = .null
      | some n => p.isNode ∧ (t.vnode p).Shows (Inode.ofRecord (im.iblk n)) := by
  have hT := imageTable_shaped dev hb hfuel
  have hon := hdisk.on (k := made.length) hb
  have hX := full_limit (State.boot disk).ofile
  obtain ⟨dirs,name,rfl⟩ := (List.eq_nil_or_concat' comps).resolve_left hne
  have hends := lookup_spec calls hT hon hX hdev (hdisk.bootable hb) hcomps
  obtain ⟨p,t,hrun,ht,hp⟩ := hends.run hroom
  change Finds t p (imageResolve im made.length (dirs ++ [name])) at hp
  refine ⟨p,t,hrun,?_⟩
  cases hres : imageResolve im made.length (dirs ++ [name]) with
  | none =>
    rw [hres] at hp
    exact hp
  | some n =>
    have hn := hT.resolve_ne_zero hres
    rw [hres] at hp
    obtain ⟨hin,rfl⟩ := hp
    refine ⟨hin.isNode,?_⟩
    cases hin with
    | root => exact absurd ht.root hn
    | child hq hl hj => exact ht.shows _ (hq.child hl hj)

/-- In every image of the builder with a packed directory, once it is mounted, a path of names
is found exactly if it leads to a record of the tree, and the vnode has the name and the
attributes of that record. -/
theorem vget_reads_packed (E : Env) (clock : ℕ → UInt32) (steps : List Mkmfs.Step) (root : List UInt8) (d : Mkmfs.Dir)
    (im₀ im : Mkmfs.Image) (dev : UInt32) (disk : ℕ → ℕ → UInt8) (calls : List (List UInt8 × Bool))
    (comps : List (List UInt8)) (hbuild : Mkmfs.build clock steps = .ok im₀)
    (hpack : Mkmfs.packdir clock root d im₀ = .ok im)
    (hnames : ∀ c ∈ steps.flatMap Mkmfs.Step.calls, Mkmfs.Short c.name) (hd : ∀ name ∈ d.names, Mkmfs.Short name)
    (hdisk : Carries E dev im disk) (hdev : dev ≠ 0) (hfuel : Mkmfs.NINODE ≤ E.fuel) (hne : comps ≠ [])
    (hcomps : ∀ c ∈ comps, slash ∉ c) (hroom : ¬ Full ((lookup E dev calls comps).run (State.boot disk)).2) :
    ∃ p t, (lookup E dev calls comps).run (State.boot disk) = (.ok p,t) ∧
      match imageResolve im ((steps.flatMap Mkmfs.Step.calls).length + d.names.length) comps with
      | none => p = .null
      | some n => p.isNode ∧ (t.vnode p).Shows (Inode.ofRecord (im.iblk n)) := by
  obtain ⟨made,hb,hlen⟩ := Mkmfs.packdir_built hbuild hpack hnames hd
  rw [← hlen]
  exact vget_reads_image hb hdisk hdev hfuel hne hcomps hroom

def sampleSteps : List Mkmfs.Step :=
  [.lboot (some [1]),.call (.mkdir [slash] [97]),.call (.write [slash,97,slash] [98] [1,2,3])]

def sampleImage : Mkmfs.Image := (Mkmfs.build (fun _ => 0) sampleSteps).toOption.getD Mkmfs.mfsNew

def sampleEnv : Env := ⟨anyDevs,fun _ => 0,fun _ => 0,8192⟩

def sampleDisk : ℕ → ℕ → UInt8 := fun _ a => Mkmfs.mfsEnd sampleImage (512 + a)

theorem sample_build : Mkmfs.build (fun _ => 0) sampleSteps = .ok sampleImage := by
  have hok : (Mkmfs.build (fun _ => 0) sampleSteps).toOption.isSome := by decide +kernel
  obtain ⟨im,him⟩ := Option.isSome_iff_exists.mp hok
  rw [sampleImage,him]
  exact Mkmfs.toOption_some.mp him

theorem sample_short : ∀ c ∈ sampleSteps.flatMap Mkmfs.Step.calls, Mkmfs.Short c.name := by
  intro c hc
  simp [sampleSteps,Mkmfs.Step.calls] at hc
  rcases hc with rfl | rfl
  · exact ⟨by decide,by decide⟩
  · exact ⟨by decide,by decide⟩

theorem sample_carries : Carries sampleEnv 1 sampleImage sampleDisk := ⟨by decide,rfl,fun _ _ => rfl,fun _ _ => rfl⟩

def homeDir : Mkmfs.Dir := .skip [46] (.dir [97] (.skip [46] (.reg [98] [1,2,3] .done)) .done)

theorem homeDir_short : ∀ name ∈ homeDir.names, Mkmfs.Short name := by
  intro name hname
  obtain rfl | rfl : name = [97] ∨ name = [98] := by simpa [homeDir,Mkmfs.Dir.names,Mkmfs.isDots] using hname
  · exact ⟨by decide,by decide⟩
  · exact ⟨by decide,by decide⟩

theorem sample_packed : ∃ im₀, Mkmfs.build (fun _ => 0) [.lboot (some [1])] = .ok im₀ ∧
    Mkmfs.packdir (fun _ => 0) [114] homeDir im₀ = .ok sampleImage := by
  have hbuild := sample_build
  rw [Mkmfs.build,sampleSteps,List.foldlM_cons] at hbuild
  obtain ⟨im₀,hboot,hrest⟩ := Runs.bind_eq_ok.mp hbuild
  obtain ⟨im₁,hdir,hrest⟩ := Runs.bind_eq_ok.mp hrest
  obtain ⟨im₂,hfile,hrest⟩ := Runs.bind_eq_ok.mp hrest
  obtain rfl : im₂ = sampleImage := Except.ok.inj hrest
  change Mkmfs.mfsMkdir (fun _ => 0) [Mkmfs.slash] [97] im₀ = .ok im₁ at hdir
  change Mkmfs.mfsWrite (fun _ => 0) [Mkmfs.slash,97,Mkmfs.slash] [98] [1,2,3] im₁ = .ok sampleImage at hfile
  refine ⟨im₀,?_,?_⟩
  · rw [Mkmfs.build,List.foldlM_cons,hboot]
    rfl
  · simp [Mkmfs.packdir,homeDir,Mkmfs.packEntries,Mkmfs.pathBuf,Mkmfs.isDots,bind,Except.bind,hdir,hfile]

def bootStat : Hda.HdaStat := ⟨20,16,63,0,0,0⟩

/-- The disk as `hda_init` sees it: the image and nothing else that it looks at. -/
def bootMedia : Hda.Media := fun r k => if r = ⟨2,0,0,0⟩ then Mkmfs.mfsEnd sampleImage (512 + k) else 0

def bootDrive : Hda.Drive := ⟨bootStat.at_ 5127,update (update (fun _ => ⟨0,0⟩) 0 ⟨2,5126⟩) 1 ⟨5127,0⟩⟩

theorem boot_detects : Hda.hdaInit bootMedia ⟨bootStat,fun _ => ⟨0,0⟩⟩ = some (bootDrive,1,[0,0,1]) := by
  have hfirst : Hda.isMfs (Hda.hdaRead (bootStat.at_ 2) bootMedia) = true := by decide +kernel
  have hend : (Hda.MfsSblk.read (Hda.hdaRead (bootStat.at_ 2) bootMedia)).end_ = 5126 := by decide +kernel
  have hnext : Hda.isMfs (Hda.hdaRead bootDrive.stat bootMedia) = false := by decide +kernel
  have hdrive : ((⟨bootStat.at_ 2,update (fun _ => ⟨0,0⟩) 0 ⟨2,0⟩⟩ : Hda.Drive).setEnd 0 5126).setBegin 1 5127 =
      ⟨bootStat.at_ 2,bootDrive.partition⟩ := by
    simp [Hda.Drive.setEnd,Hda.Drive.setBegin,bootDrive,update_idem]
  have hloop : Hda.detectLoop bootMedia 7 1 ⟨bootStat.at_ 2,bootDrive.partition⟩ [0,0,1] = some (bootDrive,1,[0,0,1]) := by
    have hseek : Hda.hdaLseek ⟨bootStat.at_ 2,bootDrive.partition⟩ 0 (bootDrive.partition 1).begin.toInt32 =
        some (0,bootDrive) := rfl
    rw [Hda.detectLoop,hseek]
    simp [hnext]
  have hseek : Hda.hdaLseek (Hda.Drive.setBegin ⟨bootStat,fun _ => ⟨0,0⟩⟩ 0 2) 0 (2 : UInt32).toInt32 =
      some (0,⟨bootStat.at_ 2,update (fun _ => ⟨0,0⟩) 0 ⟨2,0⟩⟩) := rfl
  rw [Hda.hdaInit,NVFSMNTS,Hda.detectLoop]
  change (Hda.hdaLseek _ 0 (2 : UInt32).toInt32 >>= _) = _
  rw [hseek,← hloop,← hdrive]
  simp [hfirst,hend,Hda.Drive.setEnd]

def bootEnv : Env := ⟨Hda.devs bootDrive,fun _ => 0,fun _ => 0,8192⟩

/-- The partition ends one sector before the image does. -/
theorem boot_carries : Carries bootEnv 1 sampleImage sampleDisk ∧ bootEnv.devs.seekOk 1 5125 = false := by
  refine ⟨⟨by decide,by decide,fun n hn => ?_,fun _ _ => rfl⟩,by decide⟩
  have hlt : n < 3078 := hn
  have hmod : ((Int32.ofInt n).toUInt32 + 2).toNat = n + 2 := by
    have hint : (Int32.ofInt n).toInt = n := by
      rw [Int32.toInt_ofInt]
      exact Int.bmod_eq_of_le (Int.le_trans (by decide) (Int.natCast_nonneg n)) (by rw [Int32.size]; omega)
    rw [UInt32.toNat_add,Machine.toNat_toUInt32 hint]
    exact Nat.mod_eq_of_lt (show n + 2 < 2 ^ 32 by omega)
  have hseek : ∃ d, Hda.hdaLseek bootDrive 1 (Int32.ofInt n) = some (0,d) := by
    simp only [Hda.hdaLseek_partition (show 1 ≤ MINOR 1 by decide) (by decide),Hda.hdaPosition_some]
    refine ⟨_,UInt32.le_iff_toNat_le.mpr ?_,UInt32.le_iff_toNat_le.mpr ?_,by decide,rfl⟩
    · change ((Int32.ofInt n).toUInt32 + 2).toNat ≤ 5126
      omega
    · rw [UInt32.toUInt32_toInt32]
      change ((Int32.ofInt n).toUInt32 + 2).toNat ≤ 20160
      omega
  obtain ⟨d,hd⟩ := hseek
  change decide (MAJOR 1 = 0 ∧ (Hda.hdaLseek bootDrive 1 (Int32.ofInt n)).map Prod.fst = some 0) = true
  rw [hd]
  rfl

/-- On the partition that `hda_init` sets up, `/a/b` is found after a lookup of `/a`, and `/b` is
not. -/
theorem vget_reads_packed_sample : Hda.hdaInit bootMedia ⟨bootStat,fun _ => ⟨0,0⟩⟩ = some (bootDrive,1,[0,0,1]) ∧
    (∃ p t, (lookup bootEnv 1 [(absPath [[97]],false)] [[97],[98]]).run
      (State.boot sampleDisk) = (.ok p,t) ∧ p.isNode ∧ (t.vnode p).Shows (Inode.ofRecord (sampleImage.iblk 2))) ∧
    ∃ t, (lookup bootEnv 1 [] [[98]]).run (State.boot sampleDisk) = (.ok .null,t) := by
  obtain ⟨im₀,hbuild,hpack⟩ := sample_packed
  refine ⟨boot_detects,?_,?_⟩
  · exact vget_reads_packed bootEnv (fun _ => 0) [.lboot (some [1])] [114] homeDir im₀ sampleImage 1 sampleDisk _
      [[97],[98]] hbuild hpack (by simp [Mkmfs.Step.calls]) homeDir_short boot_carries.1
      (by decide) (by decide) (by decide) (by decide)
      (by decide +kernel)
  · obtain ⟨p,t,hrun,rfl⟩ := vget_reads_packed bootEnv (fun _ => 0) [.lboot (some [1])] [114] homeDir im₀ sampleImage 1
      sampleDisk [] [[98]] hbuild hpack (by simp [Mkmfs.Step.calls]) homeDir_short boot_carries.1
      (by decide) (by decide) (by decide)
      (by decide) (by decide +kernel)
    exact ⟨t,hrun⟩

/-! ## The place of an inode -/

/-- For every block size that is a multiple of the record size and every inode number below
`2 ^ 25`, `mfs_get` fetches the block, and points to the record in it, at which the table of
`mkmfs` has that inode; `mfs_put` writes the same block. No two inodes share a place. -/
theorem inode_address (E : Env) (sb : Sblk) (dev : UInt32) (len : ℕ) (hlen : sb.blksize.toInt = len) (hpos : 0 < len)
    (hdvd : 128 ∣ len) (node : UInt32) (hn : node.toNat < 2 ^ 25) :
    mfsGet E sb dev node = (do
      let sp ← scacheGet E dev (sb.iblk + Int32.ofNat (blockOf len node.toNat)) sb.blksize
      return ⟨sp,recordOf len node.toNat * 128⟩) ∧
    mfsPut E sb dev node = (do
      let _ ← scacheSync E dev (sb.iblk + Int32.ofNat (blockOf len node.toNat)) sb.blksize) ∧
    (Int32.ofNat (blockOf len node.toNat)).toInt = blockOf len node.toNat ∧
    blockOf len node.toNat * len + recordOf len node.toNat * 128 = node.toNat * 128 ∧
    recordOf len node.toNat * 128 + 128 ≤ len ∧
    (∀ im, node.toNat < Mkmfs.NINODE → At (fun a => Mkmfs.mfsEnd im (512 + a))
      (Mkmfs.iblkAddr + (blockOf len node.toNat * len + recordOf len node.toNat * 128)) (im.iblk node.toNat).bytes) ∧
    ∀ node' : UInt32, node' ≠ node →
      (blockOf len node'.toNat,recordOf len node'.toNat) ≠ (blockOf len node.toNat,recordOf len node.toNat) := by
  have hle : INODESZ ≤ len := Nat.le_of_dvd hpos hdvd
  have haddr : ∀ n, blockOf len n * len + recordOf len n * 128 = n * 128 := blockOf_add_recordOf hdvd
  have hblk := blockOf_le hle node.toNat
  rw [mfsGet_at hlen hle,mfsPut_at hlen hpos,toInt32_blockOf hlen hn]
  refine ⟨rfl,rfl,Int32.toInt_ofNat_of_lt (by omega),haddr _,recordOf_le hle _,fun im hlt => ?_,fun node' hne heq => ?_⟩
  · rw [haddr,Nat.mul_comm]
    exact Mkmfs.mfsEnd_iblk im hlt
  · obtain ⟨hb,he⟩ := Prod.mk.inj heq
    have heq' := haddr node'.toNat
    rw [hb,he,haddr] at heq'
    exact hne (UInt32.toNat_inj.mp (Nat.eq_of_mul_eq_mul_right (by decide) heq'.symm))

/-- With three records to a block, inode 100 is the second record of block 33. -/
theorem inode_address_three : mfsGet sampleEnv ⟨0,0,0,0,7,0,0,384⟩ 3 100 = (do
    let sp ← scacheGet sampleEnv 3 40 384
    return ⟨sp,128⟩) :=
  (inode_address sampleEnv ⟨0,0,0,0,7,0,0,384⟩ 3 384 rfl (by decide) (by decide) 100 (by decide)).1

end Micron.Filesys

import Micron.Kernel.Hda
import Micron.Kernel.ScacheGet

/-! # Device numbers as indices

The functions of `driver/device.c` pass a request to the driver that is registered under the
major number, and the sector cache keeps one list for each pair of a major and a minor
number. The tests of `device.c` let pass the number that is one behind the table; the cache
does not test at all.
-/
namespace Micron.Kernel.Device
open Function Linked Scache

/-! ## The tables of drivers -/

def ENODEV : Int32 := -1

inductive DevType where
  | CHRDEV
  | BLKDEV
deriving DecidableEq

structure DevChr where
  open_ : UInt32
  close : UInt32
  read : UInt32
  write : UInt32
  ioctl : UInt32

structure DevBlk where
  open_ : UInt32
  close : UInt32
  read : UInt32
  write : UInt32
  lseek : UInt32
  ioctl : UInt32

structure Tables where
  chr : Vector DevChr NCHRDEVS
  blk : Vector DevBlk NBLKDEVS

inductive Outcome where
  /-- a value is returned -/
  | ret (v : Int32)
  /-- a function of the driver is called -/
  | call (f : UInt32) (args : List UInt32)
  /-- an entry outside of the table is read -/
  | fault
deriving DecidableEq

/-- A branch of one of the functions: after the test of the major number, the fields in
`tested` must not be null for `f` to be called. -/
def dispatch {α : Type} {limit : ℕ} (table : Vector α limit) (tested : List (α → UInt32)) (f : α → UInt32)
    (dID : UInt32) (args : List UInt32) : Outcome :=
  if MAJOR dID.toNat > limit then .ret (-1)
  else
    match table[MAJOR dID.toNat]? with
    | none => .fault
    | some d => if tested.any (fun g => g d = 0) then .ret ENODEV else .call (f d) (dID :: args)

section Functions
variable (T : Tables)

def devOpen (type : DevType) (dID oflag mode : UInt32) : Outcome :=
  match type with
  | .CHRDEV => dispatch T.chr [DevChr.open_] DevChr.open_ dID [oflag,mode]
  | .BLKDEV => dispatch T.blk [DevBlk.open_] DevBlk.open_ dID [oflag,mode]

def devClose (type : DevType) (dID : UInt32) : Outcome :=
  match type with
  | .CHRDEV => dispatch T.chr [DevChr.open_,DevChr.close] DevChr.close dID []
  | .BLKDEV => dispatch T.blk [DevBlk.open_,DevBlk.close] DevBlk.close dID []

def devRead (type : DevType) (dID buf cnt : UInt32) : Outcome :=
  match type with
  | .CHRDEV => dispatch T.chr [DevChr.open_,DevChr.read] DevChr.read dID [buf,cnt]
  | .BLKDEV => dispatch T.blk [DevBlk.open_,DevBlk.read] DevBlk.read dID [buf,cnt]

def devWrite (type : DevType) (dID buf cnt : UInt32) : Outcome :=
  match type with
  | .CHRDEV => dispatch T.chr [DevChr.open_,DevChr.write] DevChr.write dID [buf,cnt]
  | .BLKDEV => dispatch T.blk [DevBlk.open_,DevBlk.write] DevBlk.write dID [buf,cnt]

def devIoctl (type : DevType) (dID cmd arg : UInt32) : Outcome :=
  match type with
  | .CHRDEV => dispatch T.chr [DevChr.open_,DevChr.ioctl] DevChr.ioctl dID [cmd,arg]
  | .BLKDEV => dispatch T.blk [DevBlk.open_,DevBlk.ioctl] DevBlk.ioctl dID [cmd,arg]

/-- Character devices are not positioned: the branch leaves the switch after the test. -/
def devLseek (type : DevType) (dID off whence : UInt32) : Outcome :=
  match type with
  | .CHRDEV => if MAJOR dID.toNat > NCHRDEVS then .ret (-1) else .ret ENODEV
  | .BLKDEV => dispatch T.blk [DevBlk.open_,DevBlk.lseek] DevBlk.lseek dID [off,whence]

end Functions

inductive Request where
  | open_ (oflag mode : UInt32)
  | close
  | read (buf cnt : UInt32)
  | write (buf cnt : UInt32)
  | ioctl (cmd arg : UInt32)
  | lseek (off whence : UInt32)

def Request.run (T : Tables) (type : DevType) (dID : UInt32) : Request → Outcome
  | .open_ oflag mode => devOpen T type dID oflag mode
  | .close => devClose T type dID
  | .read buf cnt => devRead T type dID buf cnt
  | .write buf cnt => devWrite T type dID buf cnt
  | .ioctl cmd arg => devIoctl T type dID cmd arg
  | .lseek off whence => devLseek T type dID off whence

def DevType.limit : DevType → ℕ
  | .CHRDEV => NCHRDEVS
  | .BLKDEV => NBLKDEVS

/-- Whatever is registered, only entries of the table are read, and -1 is returned for a
major number that has none. -/
def Request.Confined (r : Request) (type : DevType) (dID : UInt32) : Prop :=
  ∀ T, r.run T type dID ≠ .fault ∧ (type.limit ≤ MAJOR dID.toNat → r.run T type dID = .ret (-1))

theorem dispatch_confined_iff {α : Type} {limit : ℕ} (table : Vector α limit) (tested : List (α → UInt32))
    (f : α → UInt32) (dID : UInt32) (args : List UInt32) :
    (dispatch table tested f dID args ≠ .fault ∧
      (limit ≤ MAJOR dID.toNat → dispatch table tested f dID args = .ret (-1))) ↔ MAJOR dID.toNat ≠ limit := by
  rw [dispatch]
  rcases Nat.lt_trichotomy (MAJOR dID.toNat) limit with hlt | heq | hgt
  · rw [if_neg (by omega),Vector.getElem?_eq_getElem hlt]
    refine iff_of_true ⟨?_,fun hle => absurd hle (by omega)⟩ (Nat.ne_of_lt hlt)
    dsimp only
    split <;> simp
  · rw [if_neg (by omega),Vector.getElem?_eq_none (by omega)]
    simp [heq]
  · rw [if_pos hgt]
    simp [Nat.ne_of_gt hgt]

theorem Request.run_confined_iff {r : Request} {type : DevType} (T : Tables) (dID : UInt32)
    (h : ¬ (type = .CHRDEV ∧ ∃ off whence, r = .lseek off whence)) :
    (r.run T type dID ≠ .fault ∧ (type.limit ≤ MAJOR dID.toNat → r.run T type dID = .ret (-1))) ↔
      MAJOR dID.toNat ≠ type.limit := by
  cases type with
  | CHRDEV =>
    cases r with
    | lseek off whence => exact absurd ⟨rfl,off,whence,rfl⟩ h
    | _ => exact dispatch_confined_iff _ _ _ _ _
  | BLKDEV => cases r <;> exact dispatch_confined_iff _ _ _ _ _

def Tables.boot : Tables := ⟨.replicate NCHRDEVS ⟨0,0,0,0,0⟩,.replicate NBLKDEVS ⟨0,0,0,0,0,0⟩⟩

/-- The tests are right for every major number but one; positioning a character device does
not use the table. -/
theorem Request.confined_iff (r : Request) (type : DevType) (dID : UInt32) :
    r.Confined type dID ↔ MAJOR dID.toNat ≠ type.limit ∨ type = .CHRDEV ∧ ∃ off whence, r = .lseek off whence := by
  by_cases h : type = .CHRDEV ∧ ∃ off whence, r = .lseek off whence
  · refine iff_of_true (fun T => ?_) (.inr h)
    obtain ⟨rfl,off,whence,rfl⟩ := h
    have hret : (Request.lseek off whence).run T .CHRDEV dID = .ret (-1) := by
      rw [run,devLseek]
      split <;> rfl
    rw [hret]
    exact ⟨nofun,fun _ => rfl⟩
  · rw [or_iff_left h]
    exact ⟨fun hc => (run_confined_iff .boot dID h).mp (hc .boot),fun hm T => (run_confined_iff T dID h).mpr hm⟩

/-! ## The lists of the sector cache -/

/-- The operation looks at place `k` of `scache_clist`, or changes it: it does not commute
with a change of that place. -/
def Touches {ρ : Type} (f : Scache → Option (ρ × Scache)) (k : ℕ) : Prop :=
  ∃ s v, f (s.setClist k v) ≠ (f s).map (fun r => (r.1,r.2.setClist k v))

variable {D : BlkDevs} {s : Scache} {dev k j blksize fuel : ℕ} {blk : ℤ} {v item p : Ptr}

theorem setClist_of_ne (h : k ≠ j) : (s.setClist k v).clist j = s.clist j := update_of_ne h.symm _ _

theorem setClist_ite {c : Prop} [Decidable c] (s t : Scache) :
    (if c then s.setClist k v else t.setClist k v) = (if c then s else t).setClist k v := by
  split <;> rfl

theorem detach_setClist (p : Ptr) : (s.setClist k v).detach p = (s.detach p).setClist k v := by
  have hfirst : ∀ c a b : Ptr, (if c ≠ none then (s.setClist k v).setCnext a b else s.setClist k v) =
      (if c ≠ none then s.setCnext a b else s).setClist k v := fun c a b => setClist_ite (s.setCnext a b) s
  unfold detach
  dsimp only
  rw [hfirst]
  exact setClist_ite (Scache.setClast _ _ _) _

theorem scacheAlloc_setClist :
    (s.setClist k v).scacheAlloc = s.scacheAlloc.map (fun r => (r.1,r.2.setClist k v)) := by
  unfold scacheAlloc
  rw [show (s.setClist k v).alist = s.alist from rfl]
  split
  · rw [Option.map_map]
    rfl
  · rw [Option.map_map]
    congr 1
    funext r
    obtain ⟨p,l⟩ := r
    cases p with
    | none => rfl
    | some i => exact congrArg (Prod.mk (some i)) (detach_setClist (s := { s with alist := l }) (some i))

theorem place_setClist (fuel : ℕ) (c : Ptr) : (s.setClist k v).place blk fuel c = s.place blk fuel c := by
  induction fuel generalizing c with
  | zero => rfl
  | succ fuel ih =>
    rw [place,place,ih]
    rfl

theorem setClist_comm (h : k ≠ j) (w : Ptr) : (s.setClist k v).setClist j w = (s.setClist j w).setClist k v := by
  rw [setClist,setClist,setClist,setClist]
  dsimp only
  rw [update_comm h]

theorem setHead_setClist (h : k ≠ j) (t : Scache) (item : Ptr) :
    (if t.clast item = none then (t.setClist k v).setClist j item else t.setClist k v) =
      (if t.clast item = none then t.setClist j item else t).setClist k v := by
  rw [setClist_comm h,setClist_ite]

theorem insertBefore_setClist (h : k ≠ j) (item c : Ptr) :
    (s.setClist k v).insertBefore j item c = (s.insertBefore j item c).setClist k v := by
  unfold insertBefore
  dsimp only
  refine Eq.trans ?_ (setHead_setClist h _ item)
  rfl

theorem insertAfter_setClist (h : k ≠ j) (item c : Ptr) :
    (s.setClist k v).insertAfter j item c = (s.insertAfter j item c).setClist k v := by
  unfold insertAfter
  dsimp only
  refine Eq.trans ?_ (setHead_setClist h _ item)
  rfl

theorem scacheInsert_setClist (h : k ≠ j) (item : Ptr) :
    (s.setClist k v).scacheInsert j item = (s.scacheInsert j item).map (fun r => (r.1,r.2.setClist k v)) := by
  rw [scacheInsert,scacheInsert,setClist_of_ne h,place_setClist]
  split
  · rw [setClist_comm h]
    rfl
  · dsimp only [setClist]
    split
    · rfl
    · rfl
    · exact congrArg (fun t => some (0,t)) (insertBefore_setClist h item _)
    · exact congrArg (fun t => some (0,t)) (insertAfter_setClist h item _)

theorem scacheLoad_setClist (h : k ≠ slot dev) : scacheLoad D dev blk blksize (s.setClist k v) =
    (scacheLoad D dev blk blksize s).map (fun r => (r.1,r.2.setClist k v)) := by
  rw [scacheLoad,scacheLoad,scacheAlloc_setClist]
  cases s.scacheAlloc with
  | none => rfl
  | some r =>
    obtain ⟨sp,t⟩ := r
    -- the entry as it is filled before it is inserted
    let u : Scache := (Scache.devLseek D { t with blk := update t.blk sp blk, src := update t.src sp (dev,blk) } dev
      (sector blk blksize)).devRead dev sp (blksize / 512)
    change ((u.setClist k v).scacheInsert (slot dev) sp).bind _ = Option.map _ ((u.scacheInsert (slot dev) sp).bind _)
    rw [scacheInsert_setClist h]
    cases u.scacheInsert (slot dev) sp <;> rfl

theorem scacheGet_setClist (h : k ≠ slot dev) : scacheGet D dev blk blksize (s.setClist k v) =
    (scacheGet D dev blk blksize s).map (fun r => (r.1,r.2.setClist k v)) := by
  rw [scacheGet,scacheGet,setClist_of_ne h]
  rw [show (s.setClist k v).scacheSeek (s.clist (slot dev)) blk = s.scacheSeek (s.clist (slot dev)) blk from rfl]
  cases s.scacheSeek (s.clist (slot dev)) blk with
  | none => rfl
  | some sp =>
    dsimp only [bind,Option.bind]
    split
    · rfl
    · split
      · rfl
      · exact scacheLoad_setClist h

theorem scacheSync_setClist (h : k ≠ slot dev) : scacheSync D dev blk blksize (s.setClist k v) =
    (scacheSync D dev blk blksize s).map (fun r => (r.1,r.2.setClist k v)) := by
  rw [scacheSync,scacheSync,setClist_of_ne h]
  rw [show (s.setClist k v).scacheSeek (s.clist (slot dev)) blk = s.scacheSeek (s.clist (slot dev)) blk from rfl]
  cases s.scacheSeek (s.clist (slot dev)) blk with
  | none => rfl
  | some sp =>
    dsimp only [bind,Option.bind]
    split
    · rfl
    · split <;> rfl

theorem commitLoop_setClist (h : k ≠ slot dev) (fuel : ℕ) (s : Scache) (p : Ptr) :
    commitLoop D dev blksize fuel p (s.setClist k v) =
      (commitLoop D dev blksize fuel p s).map (fun t => t.setClist k v) := by
  induction fuel generalizing s p with
  | zero => cases p <;> rfl
  | succ fuel ih =>
    cases p with
    | none => rfl
    | some i =>
      rw [commitLoop,commitLoop,scacheSync_setClist h,show (s.setClist k v).blk = s.blk from rfl]
      by_cases hm : s.mode (some i) &&& S_CHANGED ≠ 0
      · rw [if_pos hm,if_pos (show (s.setClist k v).mode (some i) &&& S_CHANGED ≠ 0 from hm)]
        cases scacheSync D dev (s.blk (some i)) blksize s with
        | none => rfl
        | some r => exact ih r.2 _
      · rw [if_neg hm,if_neg (show ¬ (s.setClist k v).mode (some i) &&& S_CHANGED ≠ 0 from hm)]
        exact ih s _

theorem scacheCommit_setClist (h : k ≠ slot dev) : scacheCommit D dev blksize (s.setClist k v) =
    (scacheCommit D dev blksize s).map (fun r => (r.1,r.2.setClist k v)) := by
  rw [scacheCommit,scacheCommit,setClist_of_ne h,commitLoop_setClist h,Option.map_map,Option.map_map]
  rfl

def knot (blk : ℤ) : Scache := { boot (fun _ _ => 0) with cnext := fun _ => some 0, blk := fun _ => blk + 1 }

theorem knot_seek (fuel : ℕ) : find (knot blk).cnext (fun i => (knot blk).blk (some i) = blk) fuel (some 0) = none := by
  induction fuel with
  | zero => rfl
  | succ fuel ih =>
    rw [find,if_neg (by simp [knot])]
    exact ih

theorem setClist_self (k : ℕ) (v : Ptr) : (s.setClist k v).clist k = v := update_self _ _ _

theorem knot_hangs (k : ℕ) :
    ((knot blk).setClist k (some 0)).scacheSeek (((knot blk).setClist k (some 0)).clist k) blk = none := by
  rw [setClist_self]
  exact knot_seek NSECACHS

theorem knot_commit (k fuel : ℕ) : commitLoop D dev blksize fuel (some 0) ((knot blk).setClist k v) = none := by
  induction fuel with
  | zero => rfl
  | succ fuel ih =>
    rw [commitLoop,if_neg (by simp [knot,boot,setClist])]
    exact ih

/-- An operation that commutes with changes of the other places, and ends or not depending on
place `j`, uses this place and no other. -/
theorem touches_iff {ρ : Type} {f : Scache → Option (ρ × Scache)}
    (hframe : ∀ {k s v}, k ≠ j → f (s.setClist k v) = (f s).map (fun r => (r.1,r.2.setClist k v)))
    (hhang : f (s.setClist j v) = none) (hend : f s ≠ none) : Touches f k ↔ k = j := by
  constructor
  · rintro ⟨t,w,h⟩
    by_contra hk
    exact h (hframe hk)
  · rintro rfl
    refine ⟨s,v,fun h => hend ?_⟩
    rw [hhang] at h
    exact Option.map_eq_none_iff.mp h.symm

theorem touches_get_iff : Touches (scacheGet D dev blk blksize) k ↔ k = slot dev := by
  refine touches_iff (s := knot blk) (v := some 0) scacheGet_setClist ?_ ?_
  · rw [scacheGet,knot_hangs]
    rfl
  · rw [scacheGet,show (knot blk).scacheSeek ((knot blk).clist (slot dev)) blk = some none from rfl]
    cases hopen : D.openOk dev with
    | false => simp
    | true =>
      simp only [scacheLoad,bind,Option.bind]
      exact Option.some_ne_none _

theorem touches_sync_iff : Touches (scacheSync D dev blk blksize) k ↔ k = slot dev := by
  refine touches_iff (s := knot blk) (v := some 0) scacheSync_setClist ?_ ?_
  · rw [scacheSync,knot_hangs]
    rfl
  · rw [scacheSync,show (knot blk).scacheSeek ((knot blk).clist (slot dev)) blk = some none from rfl]
    exact Option.some_ne_none _

theorem touches_commit_iff : Touches (scacheCommit D dev blksize) k ↔ k = slot dev := by
  refine touches_iff (s := knot 0) (v := some 0) scacheCommit_setClist ?_ ?_
  · rw [scacheCommit,setClist_self,knot_commit]
    rfl
  · rw [scacheCommit,show commitLoop D dev blksize NSECACHS ((knot 0).clist (slot dev)) (knot 0) = some (knot 0) from rfl]
    exact Option.some_ne_none _

/-! ## All device numbers -/

/-- The cache uses the list of the device, which is an entry of `scache_clist`. -/
def CacheConfined (dev : ℕ) : Prop :=
  ∀ D blk blksize k, Touches (scacheGet D dev blk blksize) k ∨ Touches (scacheSync D dev blk blksize) k ∨
    Touches (scacheCommit D dev blksize) k →
      MAJOR dev < NBLKDEVS ∧ MINOR dev < NBLKENTS ∧ k = MAJOR dev * NBLKENTS + MINOR dev

theorem cacheConfined_iff : CacheConfined dev ↔ MAJOR dev < NBLKDEVS ∧ MINOR dev < NBLKENTS := by
  constructor
  · intro h
    obtain ⟨hmajor,hminor,-⟩ := h ⟨fun _ => true,fun _ _ => true⟩ 0 512 (slot dev) (.inl (touches_get_iff.mpr rfl))
    exact ⟨hmajor,hminor⟩
  · rintro ⟨hmajor,hminor⟩ D blk blksize k h
    rw [touches_get_iff,touches_sync_iff,touches_commit_iff,or_self,or_self] at h
    exact ⟨hmajor,hminor,h⟩

def Partition (dev : ℕ) : Prop := 0 < MINOR dev ∧ ∃ d offset d', Hda.hdaLseek d dev offset = some (0,d')

theorem Partition.le (h : Partition dev) : MINOR dev ≤ NVFSMNTS := by
  obtain ⟨hpos,d,offset,d',hseek⟩ := h
  by_contra hgt
  rw [Hda.hdaLseek,if_pos hpos,if_pos (by omega)] at hseek
  exact absurd (Option.some.inj hseek) (by simp)

def OwnList (dev : UInt32) : Prop :=
  slot dev.toNat < NBLKDEVS * NBLKENTS ∧
    ∀ dev' : UInt32, MAJOR dev'.toNat < NBLKDEVS → MINOR dev'.toNat < NBLKENTS → slot dev'.toNat = slot dev.toNat → dev' = dev

theorem devOk_iff (dev : UInt32) : DevOk dev.toNat ↔ MAJOR dev.toNat < NBLKDEVS ∧ MINOR dev.toNat < NBLKENTS := by
  have hlt := dev.toNat_lt
  rw [DevOk,MAJOR,MINOR,Nat.mod_eq_of_lt (by omega : dev.toNat / 65536 < 65536)]

/-- A partition has a list of its own unless it is the last that `hda_lseek` admits. -/
theorem ownList_iff {dev : UInt32} (hmajor : MAJOR dev.toNat < NBLKDEVS) (h : Partition dev.toNat) :
    OwnList dev ↔ MINOR dev.toNat < NBLKENTS := by
  constructor
  · rintro ⟨hlt,hown⟩
    by_contra hge
    have hminor : MINOR dev.toNat = NBLKENTS := Nat.le_antisymm h.le (Nat.le_of_not_lt hge)
    -- the next major number with minor number zero
    have hnat : (UInt32.ofNat ((MAJOR dev.toNat + 1) * 65536)).toNat = (MAJOR dev.toNat + 1) * 65536 := by
      rw [UInt32.toNat_ofNat']
      simp only [NBLKDEVS] at hmajor
      omega
    have hmajor' : MAJOR ((MAJOR dev.toNat + 1) * 65536) = MAJOR dev.toNat + 1 := by
      simp only [NBLKDEVS] at hmajor
      rw [MAJOR]
      omega
    have hminor' : MINOR ((MAJOR dev.toNat + 1) * 65536) = 0 := Nat.mul_mod_left _ _
    have hsame := hown (UInt32.ofNat ((MAJOR dev.toNat + 1) * 65536))
    rw [hnat,slot,hmajor',hminor',slot,hminor,Nat.succ_mul] at hsame
    rw [slot,hminor,← Nat.succ_mul] at hlt
    have heq := hsame (Nat.lt_of_mul_lt_mul_right hlt) (by decide) rfl
    rw [← heq,hnat,hminor'] at hminor
    cases hminor
  · intro hminor
    have hok := (devOk_iff dev).mpr ⟨hmajor,hminor⟩
    refine ⟨?_,fun dev' hmajor' hminor' hslot => ?_⟩
    · rw [slot]
      simp only [NBLKDEVS,NBLKENTS] at *
      omega
    · exact UInt32.toNat_inj.mp (slot_inj ((devOk_iff dev').mpr ⟨hmajor',hminor'⟩) hok hslot)

/-- For every device number. The functions of `device.c` stay in their tables unless the major
number is the size of the table. The cache stays in its array exactly for the numbers that
have a list there, and a partition has its own list unless its minor number is 8. -/
theorem device_indices_iff (dev : UInt32) :
    (∀ type, (∀ r : Request, r.Confined type dev) ↔ MAJOR dev.toNat ≠ type.limit) ∧
    (CacheConfined dev.toNat ↔ MAJOR dev.toNat < NBLKDEVS ∧ MINOR dev.toNat < NBLKENTS) ∧
    (MAJOR dev.toNat < NBLKDEVS → Partition dev.toNat → (OwnList dev ↔ MINOR dev.toNat < NBLKENTS)) := by
  refine ⟨fun type => ⟨fun h => ?_,fun h r => (r.confined_iff type dev).mpr (.inl h)⟩,cacheConfined_iff,ownList_iff⟩
  exact ((Request.close.confined_iff type dev).mp (h .close)).resolve_right (by simp)

/-- Major number 16 is read behind either table. The last partition of the first disk is
admitted, and its blocks are kept on the list of the second block device. -/
theorem device_sixteen : (∀ T oflag mode, devOpen T .CHRDEV 0x100000 oflag mode = .fault ∧
      devOpen T .BLKDEV 0x100000 oflag mode = .fault) ∧
    Partition 8 ∧ ∀ D blk blksize, Touches (scacheGet D 8 blk blksize) (slot 0x10000) := by
  refine ⟨fun T oflag mode => ⟨?_,?_⟩,⟨by decide,?_⟩,fun D blk blksize => touches_get_iff.mpr rfl⟩
  · rw [devOpen,dispatch,if_neg (by decide),Vector.getElem?_eq_none (by decide)]
  · rw [devOpen,dispatch,if_neg (by decide),Vector.getElem?_eq_none (by decide)]
  · exact ⟨⟨⟨1,1,1,0,0,0⟩,fun _ => ⟨0,0⟩⟩,0,_,rfl⟩

end Micron.Kernel.Device

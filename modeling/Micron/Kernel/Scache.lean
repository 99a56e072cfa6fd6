import Mathlib.Algebra.Group.Nat.Defs
import Mathlib.Data.Int.Notation
import Micron.Kernel.AllocRuns
import Micron.Kernel.Config
import Micron.Lib.Runs

/-! # The sector cache

`filesys/scache.c` over block devices that keep what is written to them. The array
of `struct scache` is stored field by field, and an entry is named by its index.
The store at the null pointer in `scache_insert` hits low memory that belongs to no
kernel object; the cell at `none` plays its part.
-/
namespace Micron.Kernel
open Function Linked

structure BlkDevs where
  openOk : ℕ → Bool
  seekOk : ℕ → ℤ → Bool

def S_CHANGED : UInt8 := 1

structure Scache where
  blk : Ptr → ℤ
  buf : Ptr → ℕ → UInt8
  mode : Ptr → UInt8
  cnext : Ptr → Ptr
  clast : Ptr → Ptr
  /-- `scache_clist`, row after row -/
  clist : ℕ → Ptr
  /-- `scache_data` with `anext`, `alast` and `sem` -/
  alist : AllocList
  /-- content of each device by byte address -/
  disk : ℕ → ℕ → UInt8
  /-- sector each device was last positioned to -/
  pos : ℕ → ℕ
  /-- the device and block a buffer was last read from; no function looks at it -/
  src : Ptr → ℕ × ℤ

def MAJOR (dev : ℕ) : ℕ := dev / 65536 % 65536
def MINOR (dev : ℕ) : ℕ := dev % 65536

/-- Place of `scache_clist[MAJOR(dev)][MINOR(dev)]` in the array. -/
def slot (dev : ℕ) : ℕ := MAJOR dev * NBLKENTS + MINOR dev

def sector (blk : ℤ) (blksize : ℕ) : ℤ := (blk * (blksize / 512 : ℕ)).bmod (2 ^ 32)

namespace Scache

def boot (disk : ℕ → ℕ → UInt8) : Scache where
  blk _ := 0
  buf _ _ := 0
  mode _ := 0
  cnext _ := none
  clast _ := none
  clist _ := none
  alist := AllocList.boot
  disk := disk
  pos _ := 0
  src _ := (0,0)

def setCnext (s : Scache) (p v : Ptr) : Scache := { s with cnext := update s.cnext p v }
def setClast (s : Scache) (p v : Ptr) : Scache := { s with clast := update s.clast p v }
def setClist (s : Scache) (k : ℕ) (v : Ptr) : Scache := { s with clist := update s.clist k v }

/-! ## Device access -/

def seekPos (D : BlkDevs) (pos : ℕ → ℕ) (dev : ℕ) (off : ℤ) : ℕ → ℕ :=
  if D.seekOk dev off then update pos dev off.toNat else pos

def devLseek (D : BlkDevs) (s : Scache) (dev : ℕ) (off : ℤ) : Scache :=
  { s with pos := seekPos D s.pos dev off }

def devRead (s : Scache) (dev : ℕ) (p : Ptr) (cnt : ℕ) : Scache :=
  { s with
    buf := update s.buf p
      (fun k => if k < cnt * 512 then s.disk dev (s.pos dev * 512 + k) else s.buf p k) }

def devWrite (s : Scache) (dev : ℕ) (p : Ptr) (cnt : ℕ) : Scache :=
  { s with
    disk := update s.disk dev (fun a =>
      if s.pos dev * 512 ≤ a ∧ a < s.pos dev * 512 + cnt * 512
      then s.buf p (a - s.pos dev * 512) else s.disk dev a) }

/-! ## The functions of `scache.c` -/

/-- Remove `p` from the list it is on; the head pointer of that list is not touched. -/
def detach (s : Scache) (p : Ptr) : Scache :=
  let s := if s.clast p ≠ none then s.setCnext (s.clast p) (s.cnext p) else s
  if s.cnext p ≠ none then s.setClast (s.cnext p) (s.clast p) else s

def scacheAlloc (s : Scache) : Option (Ptr × Scache) :=
  if s.alist.cnt < NSECACHS then
    (s.alist.alloc NSECACHS).map (fun r => (r.1,{ s with alist := r.2 }))
  else
    (s.alist.alloc NSECACHS).map (fun r =>
      match r.1 with
      | none => (none,{ s with alist := r.2 })
      | some i => (some i,{ s with alist := r.2 }.detach (some i)))

def scachePromo (s : Scache) (sp : Ptr) : Scache := { s with alist := s.alist.promo sp }

inductive Place where
  | same
  | before (c : Ptr)
  | after (c : Ptr)

/-- The walk of `scache_insert` from a non-null node. The tests after the loop repeat
those of its body on the last node. -/
def place (s : Scache) (blk : ℤ) : ℕ → Ptr → Option Place
  | 0, _ => none
  | fuel + 1, c =>
    if s.blk c = blk then some .same
    else if s.blk c > blk then some (.before c)
    else if s.cnext c = none then some (.after c)
    else s.place blk fuel (s.cnext c)

def insertBefore (s : Scache) (k : ℕ) (item c : Ptr) : Scache :=
  let s := s.setClast item (s.clast c)
  let s := s.setCnext item c
  let s := s.setCnext (s.clast c) item
  let s := s.setClast c item
  if s.clast item = none then s.setClist k item else s

def insertAfter (s : Scache) (k : ℕ) (item c : Ptr) : Scache :=
  let s := s.setClast item c
  let s := s.setCnext item none
  let s := s.setCnext c item
  if s.clast item = none then s.setClist k item else s

def scacheInsert (s : Scache) (k : ℕ) (item : Ptr) : Option (ℤ × Scache) :=
  if s.clist k = none then
    some (0,((s.setClist k item).setCnext item none).setClast item none)
  else
    match s.place (s.blk item) NSECACHS (s.clist k) with
    | none => none
    | some .same => some (-1,s)
    | some (.before c) => some (0,s.insertBefore k item c)
    | some (.after c) => some (0,s.insertAfter k item c)

def scacheSeek (s : Scache) (clist : Ptr) (blk : ℤ) : Option Ptr :=
  find s.cnext (fun i => s.blk (some i) = blk) NSECACHS clist

/-- The part of `scache_get` after a miss on a device that opens. -/
def scacheLoad (D : BlkDevs) (dev : ℕ) (blk : ℤ) (blksize : ℕ) (s : Scache) : Option (Ptr × Scache) := do
  let (sp,s) ← s.scacheAlloc
  let s := { s with blk := update s.blk sp blk, src := update s.src sp (dev,blk) }
  let s := s.devLseek D dev (sector blk blksize)
  let s := s.devRead dev sp (blksize / 512)
  let (_,s) ← s.scacheInsert (slot dev) sp
  return (sp,s)

def scacheGet (D : BlkDevs) (dev : ℕ) (blk : ℤ) (blksize : ℕ) (s : Scache) : Option (Ptr × Scache) := do
  let sp ← s.scacheSeek (s.clist (slot dev)) blk
  if sp ≠ none then return (sp,s.scachePromo sp)
  else if D.openOk dev = false then return (none,s)
  else scacheLoad D dev blk blksize s

def scacheSync (D : BlkDevs) (dev : ℕ) (blk : ℤ) (blksize : ℕ) (s : Scache) : Option (ℤ × Scache) := do
  let sp ← s.scacheSeek (s.clist (slot dev)) blk
  if sp = none then return (-1,s)
  else if D.openOk dev = false then return (-1,s)
  else
    let s := s.devLseek D dev (sector blk blksize)
    return (0,s.devWrite dev sp (blksize / 512))

def commitLoop (D : BlkDevs) (dev blksize : ℕ) : ℕ → Ptr → Scache → Option Scache
  | _, none, s => some s
  | 0, some _, _ => none
  | fuel + 1, some i, s =>
    if s.mode (some i) &&& S_CHANGED ≠ 0 then do
      let (_,s) ← scacheSync D dev (s.blk (some i)) blksize s
      commitLoop D dev blksize fuel (s.cnext (some i)) s
    else commitLoop D dev blksize fuel (s.cnext (some i)) s

def scacheCommit (D : BlkDevs) (dev blksize : ℕ) (s : Scache) : Option (ℤ × Scache) :=
  (commitLoop D dev blksize NSECACHS (s.clist (slot dev)) s).map (fun s => (0,s))

/-! ## Growth -/

section
variable {s t : Scache} {D : BlkDevs} {p : Ptr} {dev blksize : ℕ} {blk : ℤ}

@[simp] theorem detach_alist (p : Ptr) : (s.detach p).alist = s.alist := by
  unfold detach
  dsimp only
  split <;> split <;> rfl

theorem scacheAlloc_cnt (h : s.scacheAlloc = some (p,t)) :
    t.alist.cnt = s.alist.cnt ∨ t.alist.cnt = s.alist.cnt + 1 := by
  unfold scacheAlloc at h
  split at h
  · obtain ⟨r,hr,he⟩ := Option.map_eq_some_iff.mp h
    cases he
    exact AllocList.alloc_cnt hr
  · obtain ⟨⟨p',l⟩,hr,he⟩ := Option.map_eq_some_iff.mp h
    have hcnt := AllocList.alloc_cnt hr
    cases p' <;> cases he
    · exact hcnt
    · simpa using hcnt

theorem insertBefore_alist (k : ℕ) (item c : Ptr) : (s.insertBefore k item c).alist = s.alist := by
  unfold insertBefore
  dsimp only
  split <;> rfl

theorem insertAfter_alist (k : ℕ) (item c : Ptr) : (s.insertAfter k item c).alist = s.alist := by
  unfold insertAfter
  dsimp only
  split <;> rfl

theorem scacheInsert_alist {k : ℕ} {r : ℤ} (h : s.scacheInsert k p = some (r,t)) : t.alist = s.alist := by
  unfold scacheInsert at h
  split at h
  · cases h
    rfl
  · split at h <;> cases h
    · rfl
    · exact insertBefore_alist _ _ _
    · exact insertAfter_alist _ _ _

/-- A request takes at most one more entry. -/
theorem scacheGet_cnt (h : scacheGet D dev blk blksize s = some (p,t)) :
    t.alist.cnt = s.alist.cnt ∨ t.alist.cnt = s.alist.cnt + 1 := by
  obtain ⟨sp,-,h⟩ := Option.bind_eq_some_iff.mp h
  split at h
  · cases h
    simp [scachePromo]
  · split at h
    · cases h
      exact Or.inl rfl
    · obtain ⟨⟨q,u⟩,ha,h⟩ := Option.bind_eq_some_iff.mp h
      obtain ⟨⟨r,v⟩,hi,h⟩ := Option.bind_eq_some_iff.mp h
      cases h
      rw [scacheInsert_alist hi]
      exact (scacheAlloc_cnt ha : u.alist.cnt = s.alist.cnt ∨ u.alist.cnt = s.alist.cnt + 1)

theorem cnt_le_scacheGet (h : scacheGet D dev blk blksize s = some (p,t)) : s.alist.cnt ≤ t.alist.cnt := by
  rcases scacheGet_cnt h with he | he <;> omega

def Same (s t : Scache) : Prop := t.mode = s.mode ∧ t.disk = s.disk

theorem detach_same (p : Ptr) : s.Same (s.detach p) := by
  unfold detach
  dsimp only
  split <;> split <;> exact ⟨rfl,rfl⟩

theorem scacheAlloc_same (h : s.scacheAlloc = some (p,t)) : s.Same t := by
  unfold scacheAlloc at h
  split at h
  · obtain ⟨r,-,he⟩ := Option.map_eq_some_iff.mp h
    cases he
    exact ⟨rfl,rfl⟩
  · obtain ⟨⟨p',l⟩,-,he⟩ := Option.map_eq_some_iff.mp h
    cases p' <;> cases he
    · exact ⟨rfl,rfl⟩
    · exact detach_same (s := { s with alist := l }) _

theorem scacheInsert_same {k : ℕ} {r : ℤ} (h : s.scacheInsert k p = some (r,t)) : s.Same t := by
  unfold scacheInsert at h
  split at h
  · cases h
    exact ⟨rfl,rfl⟩
  · split at h <;> cases h
    · exact ⟨rfl,rfl⟩
    · unfold insertBefore
      dsimp only
      split <;> exact ⟨rfl,rfl⟩
    · unfold insertAfter
      dsimp only
      split <;> exact ⟨rfl,rfl⟩

theorem scacheGet_same (h : scacheGet D dev blk blksize s = some (p,t)) : s.Same t := by
  obtain ⟨sp,-,h⟩ := Option.bind_eq_some_iff.mp h
  split at h
  · cases h
    exact ⟨rfl,rfl⟩
  · split at h
    · cases h
      exact ⟨rfl,rfl⟩
    · obtain ⟨⟨q,u⟩,ha,h⟩ := Option.bind_eq_some_iff.mp h
      obtain ⟨⟨r,v⟩,hi,h⟩ := Option.bind_eq_some_iff.mp h
      cases h
      obtain ⟨hm,hd⟩ := scacheAlloc_same ha
      obtain ⟨hm',hd'⟩ := scacheInsert_same hi
      exact ⟨hm'.trans hm,hd'.trans hd⟩

theorem scacheSync_alist {r : ℤ} (h : scacheSync D dev blk blksize s = some (r,t)) : t.alist = s.alist := by
  obtain ⟨sp,-,h⟩ := Option.bind_eq_some_iff.mp h
  split at h
  · cases h
    rfl
  · split at h <;> cases h <;> rfl

theorem commitLoop_alist {fuel : ℕ} (h : commitLoop D dev blksize fuel p s = some t) : t.alist = s.alist := by
  induction fuel generalizing p s with
  | zero =>
    cases p <;> cases h
    rfl
  | succ fuel ih =>
    cases p with
    | none =>
      cases h
      rfl
    | some i =>
      unfold commitLoop at h
      split at h
      · obtain ⟨⟨r,u⟩,hs,h⟩ := Option.bind_eq_some_iff.mp h
        rw [ih h,scacheSync_alist hs]
      · exact ih h

theorem scacheCommit_alist {r : ℤ} (h : scacheCommit D dev blksize s = some (r,t)) : t.alist = s.alist := by
  obtain ⟨u,hu,he⟩ := Option.map_eq_some_iff.mp h
  cases he
  exact commitLoop_alist hu

end

/-! ## The allocation list of the cache -/

open AllocList in
def alistStep (s : Scache) : Op → Option Scache
  | .alloc => s.scacheAlloc.map Prod.snd
  | .promo i => if i < s.alist.cnt then some (s.scachePromo (some i)) else none
  | .sem f => some { s with alist := { s.alist with sem := f } }

open AllocList in
def alistRun (disk : ℕ → ℕ → UInt8) (ops : List Op) : Option Scache := ops.foldlM alistStep (boot disk)

variable {s t : Scache} {disk : ℕ → ℕ → UInt8}

theorem scacheAlloc_alist :
    s.scacheAlloc.map (fun r => (r.1,r.2.alist)) = s.alist.alloc NSECACHS := by
  unfold scacheAlloc
  by_cases hc : s.alist.cnt < NSECACHS <;> simp only [hc,↓reduceIte]
  · cases s.alist.alloc NSECACHS <;> rfl
  · rcases s.alist.alloc NSECACHS with _ | ⟨_ | i,a⟩ <;> simp

theorem alistStep_alist (op : AllocList.Op) :
    (s.alistStep op).map Scache.alist = s.alist.step NSECACHS op := by
  cases op with
  | alloc =>
    rw [AllocList.step,← scacheAlloc_alist]
    cases h : s.scacheAlloc <;> simp [alistStep,h]
  | promo i =>
    by_cases hi : i < s.alist.cnt <;> simp [alistStep,AllocList.step,hi,scachePromo]
  | sem f => rfl

/-- Whatever else the cache holds, its allocation list evolves on its own. -/
theorem alistRun_alist (disk : ℕ → ℕ → UInt8) (ops : List AllocList.Op) :
    (alistRun disk ops).map Scache.alist = AllocList.run NSECACHS ops :=
  Runs.map_foldlM (fun s op => alistStep_alist (s := s) op) ops (boot disk)

/-- Each recycling `scache_alloc` of the run finds the entry at `begin` in use and a free
entry other than the one at `end`, or no free entry at all. -/
def AlistRoomy (disk : ℕ → ℕ → UInt8) (ops : List AllocList.Op) : Prop :=
  ∀ pre s, pre ++ [.alloc] <+: ops → alistRun disk pre = some s → s.alist.Roomy NSECACHS

/-- The allocation list of the sector cache stays intact throughout a run exactly when
no call of the run recycles the first or the last entry of the list. -/
theorem scache_alist_intact_iff (disk : ℕ → ℕ → UInt8) (ops : List AllocList.Op) :
    (∀ pre s, pre <+: ops → alistRun disk pre = some s → s.alist.Intact) ↔ AlistRoomy disk ops := by
  have hlift : ∀ (P : AllocList → Prop) pre, (∀ s, alistRun disk pre = some s → P s.alist) ↔
      ∀ a, AllocList.run NSECACHS pre = some a → P a := by
    intro P pre
    rw [← alistRun_alist disk]
    cases alistRun disk pre <;> simp
  have hmain := AllocList.run_intact_iff (n := NSECACHS) (by decide) ops
  constructor
  · intro h pre s hp hs
    refine (hlift (AllocList.Roomy NSECACHS) pre).mpr (fun a ha => ?_) s hs
    refine hmain.mp (fun q b hq hb => ?_) pre a hp ha
    exact (hlift AllocList.Intact q).mp (fun s hs => h q s hq hs) b hb
  · intro h pre s hp hs
    refine (hlift AllocList.Intact pre).mpr (fun a ha => ?_) s hs
    refine hmain.mpr (fun q b hq hb => ?_) pre a hp ha
    exact (hlift (AllocList.Roomy NSECACHS) q).mp (fun s hs => h q s hq hs) b hb

/-- One call more than the table has entries breaks the list. -/
theorem scache_alist_broken :
    ∃ s, alistRun (fun _ _ => 0) (List.replicate (NSECACHS + 1) .alloc) = some s ∧ ¬ s.alist.Intact := by
  obtain ⟨a,ha,hl,hz⟩ := AllocList.run_fill (n := NSECACHS) (k := NSECACHS) (Nat.le_refl _)
  have hc : a.cnt = NSECACHS := hl.length.symm.trans List.length_range
  obtain ⟨p,b,hb,hiff⟩ := hl.alloc (n := NSECACHS) (by decide) (Nat.le_of_eq hc)
  have hrun : AllocList.run NSECACHS (List.replicate (NSECACHS + 1) .alloc) = some b := by
    rw [List.replicate_succ',AllocList.run_concat,ha]
    simp [AllocList.step,hb]
  rw [← alistRun_alist (fun _ _ => 0)] at hrun
  obtain ⟨s,hs,rfl⟩ := Option.map_eq_some_iff.mp hrun
  refine ⟨s,hs,fun hi => ?_⟩
  rcases hiff.mp (AllocList.intact_iff.mp hi) with hlt | ⟨hbeg,_⟩
  · omega
  · exact hbeg (by rw [hz])

end Scache
end Micron.Kernel

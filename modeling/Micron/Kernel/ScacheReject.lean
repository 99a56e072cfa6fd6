import Micron.Kernel.Hda
import Micron.Kernel.ScacheRuns

/-! # Rejected seeks

`scache_get` and `scache_sync` do not look at the result of `dev_lseek`. A device that
rejects a sector stays where it is, and the transfer goes there.
-/
namespace Micron.Kernel.Scache
open Function
variable {s t : Scache} {D : BlkDevs} {dev n i : ℕ} {blk : ℤ} {p : Ptr}

def GetRejected (D : BlkDevs) (dev : ℕ) (blk : ℤ) (n : ℕ) (s : Scache) : Prop :=
  s.scacheSeek (s.clist (slot dev)) blk = some none ∧ D.openOk dev ∧ D.seekOk dev (sector blk n) = false

def SyncRejected (D : BlkDevs) (dev : ℕ) (blk : ℤ) (n : ℕ) (s : Scache) : Prop :=
  (∃ i, s.scacheSeek (s.clist (slot dev)) blk = some (some i)) ∧ D.openOk dev ∧ D.seekOk dev (sector blk n) = false

/-- A rejected seek makes the call fail, and no data is moved. -/
def SeekRespected (D : BlkDevs) (dev : ℕ) (blk : ℤ) (n : ℕ) (s : Scache) : Prop :=
  (GetRejected D dev blk n s → ∃ t, scacheGet D dev blk n s = some (none,t) ∧
    t.scacheSeek (t.clist (slot dev)) blk = some none ∧ t.buf = s.buf ∧ t.disk = s.disk) ∧
  (SyncRejected D dev blk n s → ∃ t, scacheSync D dev blk n s = some (-1,t) ∧ t.buf = s.buf ∧ t.disk = s.disk)

/-- A table of entries that are not in use always has one to give. -/
theorem scacheAlloc_ne_none (hc : s.alist.Closed) (hz : s.alist.sem = fun _ => 0) (hle : s.alist.cnt ≤ NSECACHS)
    (h : s.scacheAlloc = some (p,t)) : p ≠ none := by
  rintro rfl
  have halist : s.alist.alloc NSECACHS = some (none,t.alist) := by rw [← scacheAlloc_alist,h]; rfl
  rcases Nat.lt_or_eq_of_le hle with hlt | hfull
  · rw [AllocList.alloc,if_pos hlt] at halist
    cases halist
  · obtain ⟨j,-,-,hj⟩ := hc.alloc_full hz hfull (by decide)
    rw [hj] at halist
    cases halist

/-- The call returns the entry that it took for the block. -/
theorem scacheLoad_ne_none (hc : s.alist.Closed) (hz : s.alist.sem = fun _ => 0) (hle : s.alist.cnt ≤ NSECACHS)
    (h : scacheLoad D dev blk n s = some (p,t)) : p ≠ none := by
  obtain ⟨⟨q,u⟩,ha,h⟩ := Option.bind_eq_some_iff.mp h
  obtain ⟨⟨r,v⟩,-,h⟩ := Option.bind_eq_some_iff.mp h
  cases h
  exact scacheAlloc_ne_none hc hz hle ha

/-- A seek that is rejected is never respected: the property holds exactly for requests whose
sector the device accepts, and for those that do not get as far as the device. -/
theorem seek_respected_iff (D : BlkDevs) (dev : ℕ) (blk : ℤ) (n : ℕ) (s : Scache) (hc : s.alist.Closed)
    (hz : s.alist.sem = fun _ => 0) (hle : s.alist.cnt ≤ NSECACHS) : SeekRespected D dev blk n s ↔
      (s.scacheSeek (s.clist (slot dev)) blk ≠ none → D.openOk dev → D.seekOk dev (sector blk n)) := by
  constructor
  · rintro ⟨hget,hsync⟩ hends ho
    by_contra hno
    rw [Bool.not_eq_true] at hno
    obtain ⟨p,hp⟩ := Option.ne_none_iff_exists'.mp hends
    cases p with
    | none =>
      obtain ⟨t,ht,-⟩ := hget ⟨hp,ho,hno⟩
      rw [scacheGet,hp,Option.bind_eq_bind,Option.bind_some,if_neg (by simp),if_neg (by simp [ho])] at ht
      exact scacheLoad_ne_none hc hz hle ht rfl
    | some i =>
      obtain ⟨t,ht,-⟩ := hsync ⟨⟨i,hp⟩,ho,hno⟩
      rw [scacheSync,hp,Option.bind_eq_bind,Option.bind_some,if_neg (by simp),if_neg (by simp [ho])] at ht
      cases ht
  · intro h
    refine ⟨?_,?_⟩
    · rintro ⟨hp,ho,hno⟩
      exact absurd (h (by simp [hp]) ho) (by simp [hno])
    · rintro ⟨⟨i,hp⟩,ho,hno⟩
      exact absurd (h (by simp [hp]) ho) (by simp [hno])

def numbered : ℕ → ℕ → UInt8 := fun _ a => (a / 512).toUInt8

theorem seek_respected_boot : SeekRespected (Hda.devs Hda.smallDrive) 1 3 512 (boot numbered) := by
  refine (seek_respected_iff (Hda.devs Hda.smallDrive) 1 3 512 (boot numbered) AllocList.boot_closed rfl
    (Nat.zero_le _)).mpr ?_
  intro _ _
  decide

/-- After a request for sector 3 of the partition, one for sector 20, which is outside of it,
returns the data of sector 3. -/
theorem seek_rejected_reads : ∃ s, getRun (Hda.devs Hda.smallDrive) numbered [⟨1,3,512⟩] = some s ∧
    (Hda.devs Hda.smallDrive).seekOk 1 (sector 20 512) = false ∧
    (scacheGet (Hda.devs Hda.smallDrive) 1 20 512 s).map (fun r => (r.1,r.2.buf r.1 0)) = some (some 1,3) ∧
    ¬ SeekRespected (Hda.devs Hda.smallDrive) 1 20 512 s := by
  have hrun : (getRun (Hda.devs Hda.smallDrive) numbered [⟨1,3,512⟩]).isSome := by decide +kernel
  have hread : (getRun (Hda.devs Hda.smallDrive) numbered [⟨1,3,512⟩]).bind (fun s =>
      (scacheGet (Hda.devs Hda.smallDrive) 1 20 512 s).map (fun r => (r.1,r.2.buf r.1 0))) = some (some 1,3) := by
    decide +kernel
  have hmiss : (getRun (Hda.devs Hda.smallDrive) numbered [⟨1,3,512⟩]).bind (fun s =>
      s.scacheSeek (s.clist (slot 1)) 20) = some none := by decide +kernel
  have hno : (Hda.devs Hda.smallDrive).seekOk 1 (sector 20 512) = false := by decide +kernel
  obtain ⟨s,hs⟩ := Option.isSome_iff_exists.mp hrun
  rw [hs,Option.bind_some] at hread hmiss
  refine ⟨s,hs,hno,hread,fun h => ?_⟩
  obtain ⟨t,ht,-⟩ := h.1 ⟨hmiss,rfl,hno⟩
  rw [ht] at hread
  cases hread

end Micron.Kernel.Scache

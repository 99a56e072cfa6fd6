import Micron.Mkmfs.Extents

/-! # The regions of an image under construction

The loaders read a whole file although they have seen that it is too big, the search for
a data block covers more bytes than the bitmap has, and the bitmap has more bits than there
are data blocks. The builder stays inside its buffers exactly as long as everything fits.
-/
namespace Micron.Mkmfs
open Function
variable {im im' : Image} {clock : ℕ → UInt32} {path name buff ent : List UInt8} {ents : List (List UInt8)}
  {k u p r d : ℕ} {bmp : ℕ → UInt8} {c : Call}

inductive Step where
  | lboot (file : Option (List UInt8))
  | lkern (file : Option (List UInt8))
  | call (c : Call)

def Call.exec (clock : ℕ → UInt32) (im : Image) : Call → Except Stop Image
  | .mkdir path name => mfsMkdir clock path name im
  | .write path name buff => mfsWrite clock path name buff im

def Step.exec (clock : ℕ → UInt32) (im : Image) : Step → Except Stop Image
  | .lboot file => mfsLboot file im
  | .lkern file => mfsLkern file im
  | .call c => c.exec clock im

def build (clock : ℕ → UInt32) (steps : List Step) : Except Stop Image := steps.foldlM (Step.exec clock) mfsNew

/-- The run was not stopped by an access outside of a buffer or by an endless walk. -/
def Ends (x : Except Stop Image) : Prop := x ≠ .error .fault ∧ x ≠ .error .hang

/-! ## Paths -/

/-- Where a path entry leads: to the first child of that name, or from anywhere to the
root by its name. -/
def Image.enter (im : Image) (k n : ℕ) (ent : List UInt8) : Option ℕ :=
  match (kids im k n).find? (fun i => (im.iblk i).str = ent) with
  | some i => some i
  | none => if (im.iblk 0).str = ent then some 0 else none

def Image.target (im : Image) (k : ℕ) : ℕ → List (List UInt8) → Option ℕ
  | n, [] => some n
  | n, ent :: ents => (im.enter k n ent).bind (fun m => im.target k m ents)

def Image.Known (im : Image) (k : ℕ) : ℕ → List (List UInt8) → Prop
  | _, [] => True
  | n, ent :: ents => ents = [] ∨ ∃ m, im.enter k n ent = some m ∧ im.Known k m ents

structure PathFits (im : Image) (k : ℕ) (path : List UInt8) : Prop where
  length : (pathents path).length ≤ 128
  known : im.Known k 0 (pathents path)

theorem Forest.igetStep_enter (h : Forest im k) (hp : p ≤ k) :
    Mkmfs.igetStep im (some p) ent = .ok (im.enter k p ent) :=
  igetStep_eq (h.children p hp) (fun _ hi => kids_lt h.lt hi) (kids_length h.lt)

theorem Forest.enter_le (h : Forest im k) (hp : p ≤ k) {q : ℕ} (hq : im.enter k p ent = some q) : q ≤ k := by
  obtain ⟨o,ho,hle⟩ := h.igetStep hp ent
  rw [h.igetStep_enter hp] at ho
  exact hle q ((Except.ok.inj ho).symm.trans hq)

theorem Forest.fold_known (h : Forest im k) (hp : p ≤ k) (hk : im.Known k p ents) :
    ents.foldlM (Mkmfs.igetStep im) (some p) = .ok (im.target k p ents) := by
  induction ents generalizing p with
  | nil => rfl
  | cons ent ents ih =>
    rw [List.foldlM_cons,h.igetStep_enter hp,Image.target]
    cases he : im.enter k p ent with
    | none =>
      rcases hk with rfl | ⟨m,hm,-⟩
      · rfl
      · exact absurd (he.symm.trans hm) (by simp)
    | some q =>
      refine ih (h.enter_le hp he) ?_
      rcases hk with rfl | ⟨m,hm,hk⟩
      · trivial
      · obtain rfl : q = m := Option.some.inj (he.symm.trans hm)
        exact hk

/-- The record in front of the table is read for the entry after a missing one. -/
theorem Forest.fold_unknown (h : Forest im k) (hp : p ≤ k) (hk : ¬ im.Known k p ents) :
    ents.foldlM (Mkmfs.igetStep im) (some p) = .error .fault := by
  induction ents generalizing p with
  | nil => exact absurd trivial hk
  | cons ent ents ih =>
    simp only [Image.Known,not_or,not_exists,not_and] at hk
    rw [List.foldlM_cons,h.igetStep_enter hp]
    cases he : im.enter k p ent with
    | none =>
      obtain ⟨e,es,rfl⟩ := List.exists_cons_of_ne_nil hk.1
      rfl
    | some q => exact ih (h.enter_le hp he) (hk.2 q he)

theorem Forest.iget_fits (h : Forest im k) (hp : PathFits im k path) :
    mfsIget im path = .ok (im.target k 0 (pathents path)) := by
  rw [mfsIget,if_neg (Nat.not_lt.mpr hp.length)]
  exact h.fold_known (Nat.zero_le k) hp.known

theorem Forest.iget_unfit (h : Forest im k) (hp : ¬ PathFits im k path) : mfsIget im path = .error .fault := by
  rw [mfsIget]
  split
  · rfl
  · rename_i hl
    exact h.fold_unknown (Nat.zero_le k) (fun hk => hp ⟨Nat.not_lt.mp hl,hk⟩)

/-! ## Data blocks -/

theorem seekByte_fault {len cnt s : ℕ} (hfull : ∀ i < len, bmp i = 0xff) (hs : s ≤ len) (hcnt : len - s < cnt) :
    seekByte bmp len cnt s = .error .fault := by
  induction cnt generalizing s with
  | zero => omega
  | succ cnt ih =>
    rw [seekByte]
    split
    · rfl
    · rename_i hlt
      rw [if_neg (by simpa using hfull s (by omega))]
      exact ih (by omega) (by omega)

/-- The search leaves a full bitmap at its end. -/
theorem Front.seek_fault (h : Front bmp (MFS_BLKSIZE * NDBMP) (8 * (MFS_BLKSIZE * NDBMP))) :
    mfsSeekbmp bmp (MFS_BLKSIZE * NDBMP) 0 (MFS_BLKSIZE * NDBLK * 8) = .error .fault := by
  have hbyte : seekByte bmp (MFS_BLKSIZE * NDBMP) (MFS_BLKSIZE * NDBLK * 8 / 8 - 0 / 8) (0 / 8) = .error .fault :=
    seekByte_fault (fun i hi => h.byte_full (by omega) (Nat.le_refl _)) (Nat.zero_le _) (by decide)
  rw [mfsSeekbmp,hbyte]
  rfl

theorem Front.alloc_fault (h : Front bmp (MFS_BLKSIZE * NDBMP) u) (hu : u ≤ 8 * (MFS_BLKSIZE * NDBMP))
    (hr : 8 * (MFS_BLKSIZE * NDBMP) < u + r) : Mkmfs.allocBlocks r d bmp = .error .fault := by
  induction r generalizing d u bmp with
  | zero => omega
  | succ r ih =>
    rcases Nat.eq_or_lt_of_le hu with rfl | hlt
    · rw [Mkmfs.allocBlocks,h.seek_fault]
      rfl
    · have hseek : mfsSeekbmp bmp (MFS_BLKSIZE * NDBMP) 0 (MFS_BLKSIZE * NDBLK * 8) = .ok (some u) := by
        refine h.seek hlt ?_
        simp only [MFS_BLKSIZE,NDBMP,NDBLK,NIBLK,NIBMP,INODESZ] at *
        omega
      rw [Mkmfs.allocBlocks,hseek]
      exact ih h.mark hlt (by omega)

/-- The last block of the data is not empty. -/
theorem dblkr_lt (h : buff ≠ []) : (dblkr buff.length - 1) * MFS_BLKSIZE < buff.length := by
  have hpos := List.length_pos_iff.mpr h
  unfold dblkr MFS_BLKSIZE
  split <;> omega

/-- The bitmap has bits for more blocks than there are; the copy then leaves the region. -/
theorem copyData_fault {dblk : ℕ → UInt8} (h : buff ≠ []) (hu : NDBLK < u + dblkr buff.length) :
    copyData dblk (u * MFS_BLKSIZE) buff = .error .fault := by
  have hlt := dblkr_lt h
  have hle : NDBLK * MFS_BLKSIZE ≤ u * MFS_BLKSIZE + (dblkr buff.length - 1) * MFS_BLKSIZE := by
    rw [← Nat.add_mul]
    exact Nat.mul_le_mul_right _ (by omega)
  rw [copyData,if_pos ⟨h,by rw [Nat.mul_comm MFS_BLKSIZE]; omega⟩]

/-! ## One step -/

/-- A file that is written to an existing directory gets its blocks. -/
def DataFits (im : Image) (k u : ℕ) (path buff : List UInt8) : Prop :=
  ∀ p, im.target k 0 (pathents path) = some p → (im.iblk p).mode &&& S_IFDIR = S_IFDIR → k + 1 < NINODE →
    u + dblkr buff.length ≤ NDBLK

/-- The step finds room when `k` inodes and `u` data blocks are used. -/
def Step.Fits (im : Image) (k u : ℕ) : Step → Prop
  | .lboot file => ∀ buff ∈ file, buff.length ≤ 512
  | .lkern file => ∀ buff ∈ file, buff.length ≤ NKBLK * MFS_BLKSIZE
  | .call (.mkdir path name) => name.length ≤ MFS_NAMELEN → PathFits im k path
  | .call (.write path name buff) => name.length ≤ MFS_NAMELEN → PathFits im k path ∧ DataFits im k u path buff

theorem ends_ok (im : Image) : Ends (.ok im) := ⟨nofun,nofun⟩

theorem ends_exit : Ends (.error .exit) := ⟨nofun,nofun⟩

theorem readRegion_ok {size : ℕ} {file : Option (List UInt8)} (region : ℕ → UInt8)
    (h : ∀ buff ∈ file, buff.length ≤ size) : ∃ region', readRegion size file region = .ok region' := by
  cases file with
  | none => exact ⟨_,rfl⟩
  | some buff => exact ⟨_,if_neg (Nat.not_lt.mpr (h buff rfl))⟩

theorem readRegion_fault {size : ℕ} {file : Option (List UInt8)} (region : ℕ → UInt8)
    (h : ¬ ∀ buff ∈ file, buff.length ≤ size) : readRegion size file region = .error .fault := by
  cases file with
  | none => exact absurd nofun h
  | some buff => exact if_pos (Nat.lt_of_not_le (fun hle => h (by rintro _ ⟨⟩; exact hle)))

theorem mkdir_ends (h : Forest im k) (hp : name.length ≤ MFS_NAMELEN → PathFits im k path) :
    Ends (mfsMkdir clock path name im) := by
  unfold mfsMkdir
  by_cases hn : name.length > MFS_NAMELEN
  · rw [if_pos hn]
    exact ends_exit
  · rw [if_neg hn,h.iget_fits (hp (Nat.not_lt.mp hn)),h.seek]
    cases im.target k 0 (pathents path) with
    | none => exact ends_exit
    | some p =>
      split
      · exact ends_ok _
      · exact ends_exit

theorem mkdir_fault (h : Forest im k) (hn : name.length ≤ MFS_NAMELEN) (hp : ¬ PathFits im k path) :
    mfsMkdir clock path name im = .error .fault := by
  rw [mfsMkdir,if_neg (Nat.not_lt.mpr hn),h.iget_unfit hp]
  rfl

section Write
variable (h : Forest im k) (hf : Front im.dbmp (MFS_BLKSIZE * NDBMP) u)

def storeFile (clock : ℕ → UInt32) (im : Image) (k p : ℕ) (name buff : List UInt8) : Except Stop Image := do
  let (dblki,dbmp) ← allocBlocks (dblkr buff.length) 0 im.dbmp
  let dblk ← copyData im.dblk ((regInode clock im name buff k p dblki).blkentry * MFS_BLKSIZE.toUInt32).toNat buff
  return { im.link k p (regInode clock im name buff k p dblki) with dbmp := dbmp, dblk := dblk }

include h in
theorem write_eq (hn : name.length ≤ MFS_NAMELEN) (hp : PathFits im k path) :
    mfsWrite clock path name buff im = match im.target k 0 (pathents path) with
      | none => .error .exit
      | some p => if (im.iblk p).mode &&& S_IFDIR = S_IFDIR ∧ k + 1 < NINODE
          then storeFile clock im (k + 1) p name buff else .error .exit := by
  rw [mfsWrite,if_neg (Nat.not_lt.mpr hn),h.iget_fits hp]
  cases im.target k 0 (pathents path) with
  | none => rfl
  | some p =>
    by_cases hm : (im.iblk p).mode &&& S_IFDIR = S_IFDIR
    · have hseek := h.seek
      rw [show MFS_BLKSIZE * 8 = MFS_BLKSIZE * NIBMP * 8 from rfl] at hseek
      by_cases hk : k + 1 < NINODE
      · simp only [hm,hk,hseek,ne_eq,not_true_eq_false,↓reduceIte,true_and,bind,Except.bind,pure,Except.pure]
        rfl
      · simp only [hm,hk,hseek,ne_eq,not_true_eq_false,↓reduceIte,true_and,bind,Except.bind]
        rfl
    · simp only [hm,ne_eq,not_false_eq_true,↓reduceIte,false_and,bind,Except.bind,pure,Except.pure]
      rfl

include hf in
theorem storeFile_ok (clock : ℕ → UInt32) (k p : ℕ) (name : List UInt8) (hu : u + dblkr buff.length ≤ NDBLK) :
    ∃ im', storeFile clock im k p name buff = .ok im' := by
  have hbits := Nat.le_trans hu (show NDBLK ≤ 8 * (MFS_BLKSIZE * NDBMP) by decide)
  obtain ⟨bmp,halloc,-⟩ := hf.allocBlocks (d := 0) hbits
  obtain ⟨dblk,hcopy,-,-⟩ := copyData_ok im.dblk (regInode_addr hbits clock im name k p) (data_fits hu)
  rw [lastBlock] at hcopy
  simp only [storeFile,halloc,hcopy,bind,Except.bind]
  exact ⟨_,rfl⟩

include hf in
theorem storeFile_fault (clock : ℕ → UInt32) (k p : ℕ) (name : List UInt8) (hle : u ≤ NDBLK)
    (hu : NDBLK < u + dblkr buff.length) : storeFile clock im k p name buff = .error .fault := by
  have hne : buff ≠ [] := by
    rintro rfl
    exact absurd hu (Nat.not_lt.mpr hle)
  rcases Nat.lt_or_ge (8 * (MFS_BLKSIZE * NDBMP)) (u + dblkr buff.length) with hover | hbits
  · rw [storeFile,hf.alloc_fault (Nat.le_trans hle (by decide)) hover]
    rfl
  · obtain ⟨bmp,halloc,-⟩ := hf.allocBlocks (d := 0) hbits
    have haddr := regInode_addr hbits clock im name k p hne
    rw [lastBlock] at haddr
    simp only [storeFile,halloc,haddr,copyData_fault hne hu,bind,Except.bind]

include h hf

theorem write_ends (hfit : name.length ≤ MFS_NAMELEN → PathFits im k path ∧ DataFits im k u path buff) :
    Ends (mfsWrite clock path name buff im) := by
  by_cases hn : name.length > MFS_NAMELEN
  · rw [mfsWrite,if_pos hn]
    exact ends_exit
  · obtain ⟨hp,hd⟩ := hfit (Nat.not_lt.mp hn)
    rw [write_eq h (Nat.not_lt.mp hn) hp]
    cases ht : im.target k 0 (pathents path) with
    | none => exact ends_exit
    | some p =>
      dsimp only
      split
      · rename_i hc
        obtain ⟨im',hok⟩ := storeFile_ok hf clock (k + 1) p name (hd p ht hc.1 hc.2)
        rw [hok]
        exact ends_ok im'
      · exact ends_exit

theorem write_fault (hle : u ≤ NDBLK)
    (hfit : ¬ (name.length ≤ MFS_NAMELEN → PathFits im k path ∧ DataFits im k u path buff)) :
    mfsWrite clock path name buff im = .error .fault := by
  obtain ⟨hn,hfit⟩ := Classical.not_imp.mp hfit
  by_cases hp : PathFits im k path
  · obtain ⟨p,ht,hm,hk,hu⟩ : ∃ p, im.target k 0 (pathents path) = some p ∧
        (im.iblk p).mode &&& S_IFDIR = S_IFDIR ∧ k + 1 < NINODE ∧ NDBLK < u + dblkr buff.length := by
      have hd : ¬ DataFits im k u path buff := fun hd => hfit ⟨hp,hd⟩
      simpa [DataFits] using hd
    rw [write_eq h hn hp,ht]
    dsimp only
    rw [if_pos ⟨hm,hk⟩]
    exact storeFile_fault hf clock (k + 1) p name hle hu
  · rw [mfsWrite,if_neg (Nat.not_lt.mpr hn),h.iget_unfit hp]
    rfl

/-- A file that was stored has got its blocks. -/
theorem write_need (hle : u ≤ NDBLK) (hc : mfsWrite clock path name buff im = .ok im') :
    u + dblkr buff.length ≤ NDBLK := by
  obtain ⟨hn,p,i,-,-,-,hget,hm,hseek,-⟩ := mfsWrite_ok_iff.mp hc
  have hfit : name.length ≤ MFS_NAMELEN → PathFits im k path ∧ DataFits im k u path buff := by
    by_contra hno
    rw [write_fault h hf hle hno] at hc
    exact absurd hc nofun
  obtain ⟨hp,hd⟩ := hfit hn
  rw [h.iget_fits hp] at hget
  exact hd p (Except.ok.inj hget) hm (h.seek_some hseek).2

end Write

/-! ## Every sequence of steps -/

def Step.calls : Step → List Call
  | .lboot _ => []
  | .lkern _ => []
  | .call c => [c]

structure Used (calls : List Call) (im : Image) : Prop where
  forest : Forest im calls.length
  front : Front im.dbmp (MFS_BLKSIZE * NDBMP) (needs calls)
  le : needs calls ≤ NDBLK

def Step.FitsAfter (calls : List Call) (im : Image) (step : Step) : Prop := step.Fits im calls.length (needs calls)

variable {calls : List Call} {step : Step}

theorem new_used : Used [] mfsNew := ⟨new_forest,new_filled.front,Nat.zero_le _⟩

theorem Used.ends (h : Used calls im) (hfit : step.FitsAfter calls im) : Ends (step.exec clock im) := by
  match step, hfit with
  | .lboot file, hfit =>
    obtain ⟨boot,hboot⟩ := readRegion_ok im.boot hfit
    rw [Step.exec,mfsLboot,hboot]
    exact ends_ok _
  | .lkern file, hfit =>
    obtain ⟨kern,hkern⟩ := readRegion_ok im.kern hfit
    rw [Step.exec,mfsLkern,hkern]
    exact ends_ok _
  | .call (.mkdir path name), hfit => exact mkdir_ends h.forest hfit
  | .call (.write path name buff), hfit => exact write_ends h.forest h.front hfit

theorem Used.fault (h : Used calls im) (hfit : ¬ step.FitsAfter calls im) : step.exec clock im = .error .fault := by
  match step, hfit with
  | .lboot file, hfit =>
    rw [Step.exec,mfsLboot,readRegion_fault im.boot hfit]
    rfl
  | .lkern file, hfit =>
    rw [Step.exec,mfsLkern,readRegion_fault im.kern hfit]
    rfl
  | .call (.mkdir path name), hfit =>
    obtain ⟨hn,hp⟩ := Classical.not_imp.mp hfit
    exact mkdir_fault h.forest hn hp
  | .call (.write path name buff), hfit => exact write_fault h.forest h.front h.le hfit

/-- Whether a step fits or not, its walks end. -/
theorem Used.ne_hang (h : Used calls im) : step.exec clock im ≠ .error .hang := by
  by_cases hfit : step.FitsAfter calls im
  · exact (h.ends hfit).2
  · rw [h.fault hfit]
    nofun

/-- The loaders leave the inodes and the bitmaps alone. -/
theorem Used.load (h : Used calls im) (hi : im'.iblk = im.iblk) (hb : im'.ibmp = im.ibmp) (hd : im'.dbmp = im.dbmp) :
    Used calls im' := by
  obtain ⟨hf,hfront,hle⟩ := h
  obtain ⟨boot,sblk,kern,ibmp,dbmp,iblk,dblk,now⟩ := im'
  subst hi hb hd
  exact ⟨⟨hf.lt,hf.front,hf.root_next,hf.ino,hf.par_lt,hf.children⟩,hfront,hle⟩

theorem Used.call (h : Used calls im) (hc : c.exec clock im = .ok im') : Used (calls ++ [c]) im' := by
  have hstep : callStep clock im c = some im' := by
    cases c <;> exact toOption_some.mpr hc
  obtain ⟨hfront,hle⟩ : Front im'.dbmp (MFS_BLKSIZE * NDBMP) (needs calls + c.need) ∧
      needs calls + c.need ≤ NDBLK := by
    cases c with
    | mkdir path name =>
      obtain ⟨-,p,i,-,-,rfl⟩ := mfsMkdir_ok_iff.mp hc
      exact ⟨h.front,h.le⟩
    | write path name buff =>
      have hneed := write_need h.forest h.front h.le hc
      obtain ⟨-,-,-,-,hfront,-⟩ := write_data h.forest h.front hneed hc
      exact ⟨hfront,hneed⟩
  refine ⟨?_,?_,?_⟩
  · rw [List.length_append]
    exact (h.forest.call hstep).1
  · rw [needs_concat]
    exact hfront
  · rw [needs_concat]
    exact hle

theorem Used.exec (h : Used calls im) (hc : step.exec clock im = .ok im') : Used (calls ++ step.calls) im' := by
  match step, hc with
  | .lboot file, hc =>
    obtain ⟨boot,-,hc⟩ := Runs.bind_eq_ok.mp hc
    obtain rfl := Except.ok.inj hc
    rw [Step.calls,List.append_nil]
    exact h.load rfl rfl rfl
  | .lkern file, hc =>
    obtain ⟨kern,-,hc⟩ := Runs.bind_eq_ok.mp hc
    obtain rfl := Except.ok.inj hc
    rw [Step.calls,List.append_nil]
    exact h.load rfl rfl rfl
  | .call c, hc => exact h.call hc

/-- Every run ends, and it stays inside of its buffers exactly if every step finds room:
a boot loader of at most 512 bytes, a kernel of at most `NKBLK` blocks, a path of at most
128 entries whose inner entries all exist, and at most `NDBLK` data blocks in total. -/
theorem regions_kept_iff (clock : ℕ → UInt32) (steps : List Step) : build clock steps ≠ .error .hang ∧
    (build clock steps ≠ .error .fault ↔ ∀ pre step im, pre ++ [step] <+: steps → build clock pre = .ok im →
      step.FitsAfter (pre.flatMap Step.calls) im) := by
  have hstep : ∀ pre im step im', Used (pre.flatMap Step.calls) im → Step.exec clock im step = .ok im' →
      Used ((pre ++ [step]).flatMap Step.calls) im' := by
    intro pre im step im' h hc
    rw [List.flatMap_append,List.flatMap_singleton]
    exact h.exec hc
  constructor
  · exact Runs.ne_error (P := fun pre => Used (pre.flatMap Step.calls)) new_used hstep (fun _ _ _ h => h.ne_hang)
  · exact Runs.ne_error_iff (P := fun pre => Used (pre.flatMap Step.calls)) new_used hstep
      (fun _ _ _ h hfit => (h.ends hfit).1) (fun _ _ _ h hfit => h.fault hfit)

theorem build_first_fault (h : ¬ step.FitsAfter [] mfsNew) : build clock [step] = .error .fault := by
  rw [build,List.foldlM_cons,new_used.fault h]
  rfl

theorem first_write_unfit (h : NDBLK < dblkr buff.length) : ¬ (Step.call (.write [slash] [97] buff)).FitsAfter [] mfsNew := by
  intro hfit
  have hle := (hfit (by decide)).2 0 rfl (by decide) (by decide)
  rw [show needs [] = 0 from rfl,Nat.zero_add] at hle
  exact absurd h (Nat.not_lt.mpr hle)

/-- A boot loader of 513 bytes and a file of 1025 blocks. -/
theorem regions_overrun : build (fun _ => 0) [.lboot (some (List.replicate 513 0))] = .error .fault ∧
    build (fun _ => 0) [.call (.write [slash] [97] (List.replicate 1048577 0))] = .error .fault := by
  refine ⟨build_first_fault (fun hfit => ?_),build_first_fault (first_write_unfit ?_)⟩
  · have hle := hfit _ rfl
    rw [List.length_replicate] at hle
    omega
  · rw [List.length_replicate]
    decide

end Micron.Mkmfs

import Micron.Mkmfs.Pack
import Micron.Mkmfs.Regions

/-! # The image file

`mfs_end` writes the buffers one after the other. A run of `main` is a sequence of steps of
the builder, and after any such sequence the super block is the one of `mfs_new`, no record
has an expansion and every record in use has the name that it was created with.
-/
namespace Micron.Mkmfs
open Function Bytes

/-! ## `mfs_end` -/

def Superblk.bytes (sb : Superblk) : List UInt8 :=
  List.ofFn sb.magic ++ (le16 sb.kblk ++ (le16 sb.kblkcnt ++ (le32 sb.ibmp ++ (le32 sb.ibmpcnt ++ (le32 sb.dbmp ++
    (le32 sb.dbmpcnt ++ (le32 sb.iblk ++ (le32 sb.iblkcnt ++ (le32 sb.dblk ++ (le32 sb.dblkcnt ++
      le32 sb.blksize))))))))))

/-- The buffer of the super block; it is cleared before the fields are set. -/
def Image.sblkBytes (im : Image) (k : ℕ) : UInt8 := im.sblk.bytes.getD k 0

def Image.iblkBytes (im : Image) (k : ℕ) : UInt8 := (im.iblk (k / INODESZ)).bytes.getD (k % INODESZ) 0

def mfsEnd (im : Image) : ℕ → UInt8 :=
  regions [(512,im.boot),(MFS_BLKSIZE,im.sblkBytes),(MFS_BLKSIZE * NKBLK,im.kern),(MFS_BLKSIZE * NIBMP,im.ibmp),
    (MFS_BLKSIZE * NDBMP,im.dbmp),(MFS_BLKSIZE * NIBLK,im.iblkBytes),(MFS_BLKSIZE * NDBLK,im.dblk)]

variable {im im' : Image} {clock : ℕ → UInt32} {n k p : ℕ} {calls : List Call} {c : Call} {step : Step}

theorem Inode.bytes_length (ip : Inode) : ip.bytes.length = INODESZ := by
  have hname : (List.ofFn ip.name).length = 68 := List.length_ofFn
  simp only [Inode.bytes,List.length_append,hname,le32_length,le16_length,INODESZ]

/-- The super block follows the boot sector. -/
theorem mfsEnd_sblk (im : Image) : At (fun a => mfsEnd im (512 + a)) 0 im.sblk.bytes := by
  intro k hk
  have hlen : im.sblk.bytes.length = 44 := by simp [Superblk.bytes]
  have hlt : k < MFS_BLKSIZE := by
    rw [hlen] at hk
    exact Nat.lt_trans hk (by decide)
  have hreg := regions_append [(512,im.boot)] [(MFS_BLKSIZE * NKBLK,im.kern),(MFS_BLKSIZE * NIBMP,im.ibmp),
    (MFS_BLKSIZE * NDBMP,im.dbmp),(MFS_BLKSIZE * NIBLK,im.iblkBytes),(MFS_BLKSIZE * NDBLK,im.dblk)] im.sblkBytes hlt
  rw [Nat.zero_add]
  refine hreg.trans ?_
  rw [Image.sblkBytes,List.getD_eq_getElem?_getD,List.getElem?_eq_getElem hk]
  rfl

/-- The kernel follows the super block. -/
theorem mfsEnd_kern (im : Image) (hk : k < MFS_BLKSIZE * NKBLK) : mfsEnd im (512 + MFS_BLKSIZE + k) = im.kern k :=
  regions_append [(512,im.boot),(MFS_BLKSIZE,im.sblkBytes)] [(MFS_BLKSIZE * NIBMP,im.ibmp),
    (MFS_BLKSIZE * NDBMP,im.dbmp),(MFS_BLKSIZE * NIBLK,im.iblkBytes),(MFS_BLKSIZE * NDBLK,im.dblk)] im.kern hk

def ibmpAddr : ℕ := MFS_BLKSIZE * (1 + NKBLK)

theorem mfsEnd_ibmp (im : Image) (hk : k < MFS_BLKSIZE * NIBMP) : mfsEnd im (512 + (ibmpAddr + k)) = im.ibmp k := by
  have hreg := regions_append [(512,im.boot),(MFS_BLKSIZE,im.sblkBytes),(MFS_BLKSIZE * NKBLK,im.kern)]
    [(MFS_BLKSIZE * NDBMP,im.dbmp),(MFS_BLKSIZE * NIBLK,im.iblkBytes),(MFS_BLKSIZE * NDBLK,im.dblk)] im.ibmp hk
  have haddr : 512 + (ibmpAddr + k) = ([(512,im.boot),(MFS_BLKSIZE,im.sblkBytes),
      (MFS_BLKSIZE * NKBLK,im.kern)].map Prod.fst).sum + k := by
    simp [ibmpAddr,MFS_BLKSIZE,NKBLK]
    omega
  rw [haddr]
  exact hreg

def iblkAddr : ℕ := MFS_BLKSIZE * (1 + NKBLK + NIBMP + NDBMP)

theorem mfsEnd_iblk (im : Image) (hn : n < NINODE) :
    At (fun a => mfsEnd im (512 + a)) (iblkAddr + INODESZ * n) (im.iblk n).bytes := by
  intro k hk
  rw [Inode.bytes_length] at hk
  have hlt : INODESZ * n + k < MFS_BLKSIZE * NIBLK := by
    simp only [NINODE,INODESZ,MFS_BLKSIZE,NIBLK,NIBMP] at *
    omega
  have hreg := regions_append [(512,im.boot),(MFS_BLKSIZE,im.sblkBytes),(MFS_BLKSIZE * NKBLK,im.kern),
    (MFS_BLKSIZE * NIBMP,im.ibmp),(MFS_BLKSIZE * NDBMP,im.dbmp)] [(MFS_BLKSIZE * NDBLK,im.dblk)] im.iblkBytes hlt
  have haddr : 512 + (iblkAddr + INODESZ * n + k) = ([(512,im.boot),(MFS_BLKSIZE,im.sblkBytes),
      (MFS_BLKSIZE * NKBLK,im.kern),(MFS_BLKSIZE * NIBMP,im.ibmp),(MFS_BLKSIZE * NDBMP,im.dbmp)].map
        Prod.fst).sum + (INODESZ * n + k) := by
    simp [iblkAddr,MFS_BLKSIZE,NKBLK,NIBMP,NDBMP]
    omega
  have hdiv : (INODESZ * n + k) / INODESZ = n := by
    rw [Nat.mul_add_div (by decide),Nat.div_eq_of_lt hk,Nat.add_zero]
  have hmod : (INODESZ * n + k) % INODESZ = k := by
    rw [Nat.mul_add_mod,Nat.mod_eq_of_lt hk]
  change mfsEnd im (512 + (iblkAddr + INODESZ * n + k)) = _
  rw [haddr]
  refine hreg.trans ?_
  rw [Image.iblkBytes,hdiv,hmod,List.getD_eq_getElem?_getD,List.getElem?_eq_getElem (by rwa [Inode.bytes_length])]
  rfl

/-! ## Every sequence of steps -/

def Call.name : Call → List UInt8
  | .mkdir _ name => name
  | .write _ name _ => name

structure Short (name : List UInt8) : Prop where
  no_nul : 0 ∉ name
  length_lt : name.length < MFS_NAMELEN

structure Built (calls : List Call) (im : Image) : Prop where
  used : Used calls im
  sblk : im.sblk = mfsNew.sblk
  expand : ∀ i, (im.iblk i).expand = 0
  named : ∀ i, 0 < i → i ≤ calls.length → ∃ s, (im.iblk i).Named s

theorem new_built : Built [] mfsNew where
  used := new_used
  sblk := rfl
  expand i := by
    by_cases hi : i = 0
    · rw [hi]
      rfl
    · simp [mfsNew,hi,Inode.zero]
  named i hi hle := absurd hi (Nat.not_lt.mpr hle)

theorem Built.adds {ip : Inode} (h : Built calls im) (hu : Used (calls ++ [c]) im') (hs : im'.sblk = im.sblk)
    (ha : Adds im im' (calls.length + 1) p ip) (hexp : ip.expand = 0) (hname : ∃ s, ip.Named s) :
    Built (calls ++ [c]) im' := by
  refine ⟨hu,hs.trans h.sblk,fun i => ?_,fun i hi hle => ?_⟩
  · by_cases hik : i = calls.length + 1
    · rw [hik,ha.new,hexp]
    · by_cases hip : i = p
      · rw [hip,ha.parent]
        exact h.expand p
      · rw [ha.other i hik hip]
        exact h.expand i
  · rw [List.length_append,List.length_singleton] at hle
    by_cases hik : i = calls.length + 1
    · rw [hik,ha.new]
      exact hname
    · have hold := h.named i hi (by omega)
      by_cases hip : i = p
      · rw [hip] at hold ⊢
        rw [ha.parent]
        exact hold
      · rw [ha.other i hik hip]
        exact hold

theorem Built.call (h : Built calls im) (hn : Short c.name) (hc : c.exec clock im = .ok im') :
    Built (calls ++ [c]) im' := by
  have hu := h.used.call hc
  cases c with
  | mkdir path name =>
    obtain ⟨p,-,-,-,ha⟩ := h.used.forest.mkdir hc
    obtain ⟨-,_,_,-,-,hlink⟩ := mfsMkdir_ok_iff.mp hc
    refine h.adds hu ?_ ha rfl ⟨name,?_⟩
    · rw [hlink]
      rfl
    · exact ⟨cstr_strcpy _ hn.no_nul hn.length_lt,hn.length_lt⟩
  | write path name buff =>
    obtain ⟨p,-,d,-,-,-,-,ha⟩ := h.used.forest.write hc
    obtain ⟨-,_,_,_,_,_,-,-,-,-,-,hlink⟩ := mfsWrite_ok_iff.mp hc
    refine h.adds hu ?_ ha rfl ⟨name,?_⟩
    · rw [hlink]
      rfl
    · exact ⟨cstr_strcpy _ hn.no_nul hn.length_lt,hn.length_lt⟩

theorem Built.exec (h : Built calls im) (hn : ∀ c ∈ step.calls, Short c.name) (hc : step.exec clock im = .ok im') :
    Built (calls ++ step.calls) im' := by
  have hu := h.used.exec hc
  match step, hc with
  | .lboot file, hc =>
    obtain ⟨boot,-,hc⟩ := Runs.bind_eq_ok.mp hc
    obtain rfl := Except.ok.inj hc
    rw [Step.calls,List.append_nil] at hu ⊢
    exact ⟨hu,h.sblk,h.expand,h.named⟩
  | .lkern file, hc =>
    obtain ⟨kern,-,hc⟩ := Runs.bind_eq_ok.mp hc
    obtain rfl := Except.ok.inj hc
    rw [Step.calls,List.append_nil] at hu ⊢
    exact ⟨hu,h.sblk,h.expand,h.named⟩
  | .call c, hc => exact h.call (hn c (by simp [Step.calls])) hc

theorem build_built {steps : List Step} (h : build clock steps = .ok im)
    (hn : ∀ c ∈ steps.flatMap Step.calls, Short c.name) : Built (steps.flatMap Step.calls) im := by
  refine Runs.except_inv (P := fun pre im => (∀ c ∈ pre.flatMap Step.calls, Short c.name) →
    Built (pre.flatMap Step.calls) im) (fun _ => new_built) ?_ h hn
  intro pre im step im' hb hc hnames
  rw [List.flatMap_append,List.flatMap_singleton] at hnames ⊢
  exact (hb (fun c hc => hnames c (List.mem_append_left _ hc))).exec
    (fun c hc => hnames c (List.mem_append_right _ hc)) hc

/-! ## Packing a directory is such a sequence -/

def Dir.names : Dir → List (List UInt8)
  | .done => []
  | .skip _ rest => rest.names
  | .reg name _ rest => if isDots name then rest.names else name :: rest.names
  | .dir name sub rest => if isDots name then rest.names else name :: (sub.names ++ rest.names)

/-- Calls that create entries with the given names lead from one image to the other. -/
def Calls (clock : ℕ → UInt32) (names : List (List UInt8)) (im im' : Image) : Prop :=
  ∃ calls : List Call, calls.foldlM (Call.exec clock) im = .ok im' ∧ calls.map Call.name = names

theorem Calls.trans {im'' : Image} {names names' : List (List UInt8)} (h : Calls clock names im im')
    (h' : Calls clock names' im' im'') : Calls clock (names ++ names') im im'' := by
  obtain ⟨calls,hrun,rfl⟩ := h
  obtain ⟨calls',hrun',rfl⟩ := h'
  refine ⟨calls ++ calls',?_,List.map_append⟩
  rw [List.foldlM_append,hrun]
  exact hrun'

theorem Calls.one (h : c.exec clock im = .ok im') : Calls clock [c.name] im im' := by
  refine ⟨[c],?_,rfl⟩
  rw [List.foldlM_cons,h]
  rfl

theorem packEntries_calls {cutsize : ℕ} {path : List UInt8} {d : Dir}
    (h : packEntries clock cutsize path d im = .ok im') : Calls clock d.names im im' := by
  induction d generalizing path im im' with
  | done =>
    obtain rfl := Except.ok.inj h
    exact ⟨[],rfl,rfl⟩
  | skip name rest ih =>
    rw [packEntries] at h
    obtain ⟨_,-,h⟩ := Runs.bind_eq_ok.mp h
    exact ih h
  | reg name data rest ih =>
    rw [packEntries] at h
    obtain ⟨_,-,h⟩ := Runs.bind_eq_ok.mp h
    rw [Dir.names]
    dsimp only at h
    split at h
    · rw [if_pos (by assumption)]
      exact ih h
    · rw [if_neg (by assumption)]
      obtain ⟨im₁,h₁,h⟩ := Runs.bind_eq_ok.mp h
      exact (Calls.one (c := .write (path.drop cutsize) name data) h₁).trans (ih h)
  | dir name sub rest ihs ih =>
    rw [packEntries] at h
    obtain ⟨_,-,h⟩ := Runs.bind_eq_ok.mp h
    rw [Dir.names]
    dsimp only at h
    split at h
    · rw [if_pos (by assumption)]
      exact ih h
    · rw [if_neg (by assumption)]
      obtain ⟨im₁,h₁,h⟩ := Runs.bind_eq_ok.mp h
      obtain ⟨_,-,h⟩ := Runs.bind_eq_ok.mp h
      obtain ⟨im₂,h₂,h⟩ := Runs.bind_eq_ok.mp h
      exact (Calls.one (c := .mkdir (path.drop cutsize) name) h₁).trans ((ihs h₂).trans (ih h))

/-- What `main` does after it has loaded boot loader and kernel. -/
theorem packdir_build {steps : List Step} {root : List UInt8} {d : Dir} (hs : build clock steps = .ok im)
    (h : packdir clock root d im = .ok im') :
    ∃ calls : List Call, build clock (steps ++ calls.map .call) = .ok im' ∧ calls.map Call.name = d.names := by
  rw [packdir] at h
  obtain ⟨path,-,h⟩ := Runs.bind_eq_ok.mp h
  split at h
  · obtain ⟨_,habs,-⟩ := Runs.bind_eq_ok.mp h
    cases habs
  · obtain ⟨calls,hrun,hn⟩ := packEntries_calls h
    refine ⟨calls,?_,hn⟩
    rw [build] at hs ⊢
    rw [List.foldlM_append,hs]
    change (calls.map Step.call).foldlM (Step.exec clock) im = .ok im'
    rwa [List.foldlM_map]

/-- An image with a packed directory has a record for each of its entries. -/
theorem packdir_built {steps : List Step} {root : List UInt8} {d : Dir} (hs : build clock steps = .ok im)
    (h : packdir clock root d im = .ok im') (hn : ∀ c ∈ steps.flatMap Step.calls, Short c.name)
    (hd : ∀ name ∈ d.names, Short name) :
    ∃ calls, Built calls im' ∧ calls.length = (steps.flatMap Step.calls).length + d.names.length := by
  obtain ⟨calls,hrun,hnames⟩ := packdir_build hs h
  have hcalls : (steps ++ calls.map Step.call).flatMap Step.calls = steps.flatMap Step.calls ++ calls := by
    rw [List.flatMap_append,List.flatMap_map]
    exact congrArg _ (List.flatMap_singleton' calls)
  refine ⟨steps.flatMap Step.calls ++ calls,?_,?_⟩
  · rw [← hcalls]
    apply build_built hrun
    rw [hcalls]
    intro c hc
    rcases List.mem_append.mp hc with hc | hc
    · exact hn c hc
    · exact hd _ (hnames ▸ List.mem_map_of_mem hc)
  · rw [List.length_append,← hnames,List.length_map]

end Micron.Mkmfs

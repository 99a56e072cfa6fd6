import Micron.Filesys.Files
import Micron.Filesys.OpenVnodes

/-! # Positions of open files

`lseek` stores the position before it compares it with the size of the file, so a call that
fails has moved the file already. `read` and `write` come back to the end of the file.
-/
namespace Micron.Filesys
open Function Bytes Kernel Scache Prog Runs
variable {E : Env} {bs : BlkSizes} {s t u : State} {fd k : ℕ} {pos offset whence : Int32} {size : UInt32}
  {X : State → Prop}

def Within (pos : Int32) (size : UInt32) : Prop := 0 ≤ pos.toInt ∧ pos.toInt ≤ size.toNat

instance (pos : Int32) (size : UInt32) : Decidable (Within pos size) := inferInstanceAs (Decidable (_ ∧ _))

/-- The test of `lseek`, which compares unsigned first. -/
theorem within_iff : Within pos size ↔ ¬ (size < pos.toUInt32 ∨ pos < 0) := by
  unfold Within
  rw [UInt32.lt_iff_toNat_lt,Int32.lt_iff_toInt_lt,Int32.toInt_zero]
  by_cases h0 : 0 ≤ pos.toInt
  · obtain ⟨m,hm⟩ := Int.eq_ofNat_of_zero_le h0
    rw [Machine.toNat_toUInt32 hm,hm]
    omega
  · omega

/-- The test of `read` and `write`. -/
theorem within_of_le (hsize : size.toNat < 2 ^ 31) (h : pos.toUInt32 ≤ size) : Within pos size := by
  rw [UInt32.le_iff_toNat_le] at h
  have hint := Machine.toInt_of_lt (a := pos) (by omega)
  exact ⟨by omega,by omega⟩

theorem Within.le (h : Within pos size) : pos.toUInt32 ≤ size := by
  rw [within_iff,not_or] at h
  exact UInt32.not_lt.mp h.1

/-! ## One call of `lseek` -/

def requested (pos : Int32) (size : UInt32) (offset whence : Int32) : Option ℤ :=
  if whence = SEEK_SET then some offset.toInt
  else if whence = SEEK_CUR then some (pos.toInt + offset.toInt)
  else if whence = SEEK_END then some (size.toNat + offset.toInt)
  else none

def sought (pos : Int32) (size : UInt32) (offset whence : Int32) : Int32 :=
  if whence = SEEK_SET then offset
  else if whence = SEEK_CUR then pos + offset
  else if whence = SEEK_END then size.toInt32 + offset
  else pos

def State.seekTo (s : State) (fd : ℕ) (pos : Int32) : State :=
  { s with ofile := update s.ofile fd { s.ofile fd with pos := pos } }

def State.fileSize (s : State) (fd : ℕ) : UInt32 := (s.vnode (s.ofile fd).node).size

theorem wp_seekTo {Q : Int32 → State → Prop} (hfd : fd < NMXOFILE) (hn : (s.ofile fd).node.isNode) :
    wp (do
      let f ← ofile fd
      let v ← vnode f.node
      if v.size < f.pos.toUInt32 ∨ f.pos < 0 then return -1
      let blk ← fileBlk f
      let _ ← scacheGet E v.dev blk (← mount f.mount).blksize
      return f.pos) Q X (s.seekTo fd pos) ↔
    if Within pos (s.fileSize fd) then wp (do
        let blk ← fileBlk { s.ofile fd with pos := pos }
        let _ ← scacheGet E (s.vnode (s.ofile fd).node).dev blk (← mount (s.ofile fd).mount).blksize
        return pos) Q X (s.seekTo fd pos)
      else Q (-1) (s.seekTo fd pos) := by
  have hslot : (s.seekTo fd pos).ofile fd = { s.ofile fd with pos := pos } := update_self ..
  rw [wp_bind,wp_ofile hfd,hslot,wp_bind,wp_vnode hn]
  change wp (if s.fileSize fd < pos.toUInt32 ∨ pos < 0 then _ else _) Q X _ ↔ _
  by_cases hw : Within pos (s.fileSize fd)
  · rw [if_pos hw,if_neg (within_iff.mp hw)]
    rfl
  · rw [if_neg hw,if_pos (not_not.mp (mt within_iff.mpr hw))]
    rfl

/-- The position is stored in any case; the block is loaded if it is a valid one. -/
theorem wp_lseek_stores {Q : Int32 → State → Prop} (hfd : fd < NMXOFILE) (hn : (s.ofile fd).node.isNode) (w : Int32)
    (hw : sought (s.ofile fd).pos (s.fileSize fd) offset whence = w) :
    wp (lseek E fd offset whence) Q X s ↔ if Within w (s.fileSize fd) then wp (do
        let blk ← fileBlk { s.ofile fd with pos := w }
        let _ ← scacheGet E (s.vnode (s.ofile fd).node).dev blk (← mount (s.ofile fd).mount).blksize
        return w) Q X (s.seekTo fd w)
      else Q (-1) (s.seekTo fd w) := by
  subst hw
  rw [← wp_seekTo hfd hn,lseek]
  by_cases h₀ : whence = SEEK_SET
  · subst h₀
    rw [if_pos rfl,wp_bind,wp_setOfile hfd,if_neg (by decide),if_neg (by decide)]
    rfl
  rw [if_neg h₀]
  by_cases h₁ : whence = SEEK_CUR
  · subst h₁
    rw [if_pos rfl,wp_bind,wp_setOfile hfd,if_neg (by decide)]
    rfl
  rw [if_neg h₁]
  by_cases h₂ : whence = SEEK_END
  · subst h₂
    rw [if_pos rfl,wp_bind,wp_ofile hfd,wp_bind,wp_vnode hn,wp_bind,wp_setOfile hfd]
    rfl
  have hsame : s.seekTo fd (s.ofile fd).pos = s := by
    rw [State.seekTo,show ({ s.ofile fd with pos := (s.ofile fd).pos } : Ofile) = s.ofile fd from rfl,update_eq_self]
  rw [if_neg h₂,sought,if_neg h₀,if_neg h₁,if_neg h₂,hsame]

theorem wp_lseek_leaves (hfd : fd < NMXOFILE) (hn : (s.ofile fd).node.isNode) (w : Int32)
    (hw : sought (s.ofile fd).pos (s.fileSize fd) offset whence = w) :
    wp (lseek E fd offset whence) (fun _ t => t.ofile = (s.seekTo fd w).ofile ∧ t.vnode = s.vnode) (fun _ => True) s := by
  rw [wp_lseek_stores hfd hn w hw]
  split
  · refine Fixes.wp_bind (g := fun s => (s.ofile,s.vnode)) (fixes_fileBlk _) fun blk t₁ h₁ => ?_
    refine Fixes.wp_bind (g := fun s => (s.ofile,s.vnode)) (fixes_mount _) fun m t₂ h₂ => ?_
    refine Fixes.wp_bind (g := fun s => (s.ofile,s.vnode)) (Blind.scacheGet (fun _ _ => rfl) _ _ _) fun _ t₃ h₃ => ?_
    have hall := h₃.trans (h₂.trans h₁)
    exact ⟨congrArg Prod.fst hall,congrArg Prod.snd hall⟩
  · exact ⟨rfl,rfl⟩

/-- A file is open in the slot, on a device that can be used. The sector cache is in order and
has an entry to give. -/
structure Seekable (E : Env) (bs : BlkSizes) (s : State) (fd : ℕ) : Prop where
  fd_lt : fd < NMXOFILE
  node : (s.ofile fd).node.isNode
  mount : ∃ i, (s.ofile fd).mount = some i ∧ (s.mountab i).fs = some .MFS ∧ (s.mountab i).blksize ≠ 0 ∧
    Usable E bs (s.vnode (s.ofile fd).node).dev (s.mountab i).blksize
  cache : ∃ L, s.scache.Inv L
  room : s.scache.alist.cnt < NSECACHS ∨ ∀ k, s.scache.clist k ≠ s.scache.alist.begin

/-- While the cache has an entry to give, a block can be asked for whether or not the device
has it. -/
theorem wp_get_room {Q : Ptr → State → Prop} {dev : UInt32} {blk blksize : Int32} (hu : Usable E bs dev blksize)
    (hc : ∃ L, s.scache.Inv L)
    (hroom : s.scache.alist.cnt < NSECACHS ∨ ∀ k, s.scache.clist k ≠ s.scache.alist.begin)
    (hQ : ∀ p c, Q p { s with scache := c }) :
    wp (scacheGet E dev blk blksize) Q X s := by
  obtain ⟨L,hL⟩ := hc
  have hspare : s.scache.SparesHeads dev.toNat blk.toInt :=
    fun _ hfull => hroom.resolve_left (fun hlt => hlt.ne hfull)
  obtain ⟨i,-,c,hget,-⟩ := hL.get (D := E.devs) (bs.size dev.toNat) hu.dev_ok hu.open_ok hspare
  rw [wp_scacheGet hu,hget]
  exact hQ _ _

theorem Seekable.lseek (h : Seekable E bs s fd) (offset whence : Int32) (w : Int32)
    (hw : sought (s.ofile fd).pos (s.fileSize fd) offset whence = w) :
    ∃ t, (lseek E fd offset whence).run s = (.ok (if Within w (s.fileSize fd) then w else -1),t) ∧
      t.ofile = (s.seekTo fd w).ofile := by
  have hwp : wp (Filesys.lseek E fd offset whence) (fun r t => r = (if Within w (s.fileSize fd) then w else -1) ∧
      t.ofile = (s.seekTo fd w).ofile) (fun _ => False) s := by
    rw [wp_lseek_stores h.fd_lt h.node w hw]
    split
    · obtain ⟨i,hi,hfs,hne,hu⟩ := h.mount
      rw [wp_bind,fileBlk]
      simp only [hi,wp_bind,wp_mount]
      change wp (if (s.mountab i).blksize = 0 then _ else _) _ _ _
      rw [if_neg hne,wp_bind,wp_vnode h.node]
      change wp (fsCall (s.mountab i).fs _ >>= _) _ _ _
      rw [hfs,wp_bind,fsCall,wp_pure,wp_pure]
      exact wp_get_room hu h.cache h.room fun _ _ => ⟨rfl,rfl⟩
    · exact ⟨rfl,rfl⟩
  obtain ⟨r,t,hrun,rfl,ht⟩ := hwp.run
  exact ⟨t,hrun,ht⟩

/-- The call moves the file to the position that is asked for, which is valid, or fails and
does not move it. -/
def SeekKeeps (E : Env) (s : State) (fd : ℕ) (offset whence : Int32) : Prop :=
  ∃ r t, (lseek E fd offset whence).run s = (.ok r,t) ∧
    ((∃ p, requested (s.ofile fd).pos (s.fileSize fd) offset whence = some p ∧ 0 ≤ p ∧ p ≤ (s.fileSize fd).toNat ∧
      (t.ofile fd).pos.toInt = p ∧ r.toInt = p) ∨
    r = -1 ∧ (t.ofile fd).pos = (s.ofile fd).pos)

/-- The stored position is valid and the one that is asked for, or it is not valid and the
old one. -/
def SeekFits (pos : Int32) (size : UInt32) (offset whence : Int32) : Prop :=
  if Within (sought pos size offset whence) size then
    requested pos size offset whence = some (sought pos size offset whence).toInt
  else sought pos size offset whence = pos

theorem Seekable.keeps_iff (h : Seekable E bs s fd) (offset whence : Int32) :
    SeekKeeps E s fd offset whence ↔ SeekFits (s.ofile fd).pos (s.fileSize fd) offset whence := by
  generalize hw : sought (s.ofile fd).pos (s.fileSize fd) offset whence = w
  obtain ⟨t,hrun,ht⟩ := h.lseek offset whence w hw
  have hpos : (t.ofile fd).pos = w := by
    rw [ht]
    simp [State.seekTo]
  unfold SeekKeeps SeekFits
  rw [hrun,hw]
  by_cases hin : Within w (s.fileSize fd)
  · rw [if_pos hin,if_pos hin]
    constructor
    · rintro ⟨r,u,hr,hcase⟩
      cases hr
      rw [hpos] at hcase
      rcases hcase with ⟨p,hp,-,-,rfl,-⟩ | ⟨rfl,-⟩
      · exact hp
      · exact absurd hin.1 (by decide)
    · intro hp
      exact ⟨w,t,rfl,Or.inl ⟨w.toInt,hp,hin.1,hin.2,by rw [hpos],rfl⟩⟩
  · rw [if_neg hin,if_neg hin]
    constructor
    · rintro ⟨r,u,hr,hcase⟩
      cases hr
      rw [hpos] at hcase
      rcases hcase with ⟨p,-,h0,hle,rfl,-⟩ | ⟨-,he⟩
      · exact absurd ⟨h0,hle⟩ hin
      · exact he
    · intro he
      exact ⟨-1,t,rfl,Or.inr ⟨rfl,hpos.trans he⟩⟩

/-! ## The slots -/

def State.besides (fd : ℕ) (s : State) : ℕ → Ofile := fun k => if k = fd then { s.ofile k with pos := 0 } else s.ofile k

theorem besides_blind : Blind (State.besides fd) := fun _ _ => rfl

theorem besides_pos (g : Ofile → Int32) : Fixes (State.besides fd) (setOfile fd (fun x => { x with pos := g x })) := by
  refine .ite (fixes_modify fun s => ?_) (fixes_stop _)
  funext k
  by_cases hk : k = fd
  · simp [State.besides,hk]
  · simp [State.besides,hk]

theorem slot_of_besides (h : t.besides fd = s.besides fd) :
    (t.ofile k = s.ofile k) ∨ k = fd ∧ (t.ofile k).node = (s.ofile k).node := by
  have hk := congrFun h k
  by_cases hkf : k = fd
  · simp only [State.besides,if_pos hkf] at hk
    have hnode := congrArg Ofile.node hk
    exact Or.inr ⟨hkf,hnode⟩
  · simp only [State.besides,if_neg hkf] at hk
    exact Or.inl hk

def Occupies (s t : State) : Opened → Prop
  | .file fd => (s.ofile fd).node = .null ∧ (t.ofile fd).node.isNode ∧ (t.ofile fd).pos = 0 ∧
      ∀ k, k ≠ fd → t.ofile k = s.ofile k
  | _ => t.ofile = s.ofile

theorem wp_openFound_occupies {p : VPtr} {t₁ : State} (oflag : UInt32) (h₁ : t₁.ofile = s.ofile) :
    wp (openFound E p oflag) (fun r t => Occupies s t r) (fun _ => True) t₁ := by
  rw [openFound]
  by_cases hp : p.isNode
  · rw [wp_bind,wp_vnode hp]
    by_cases hr : oflag &&& O_RDONLY = O_RDONLY ∧ (t₁.vnode p).mode &&& S_IRUSR ≠ S_IRUSR
    · rw [if_pos hr]
      exact h₁
    rw [if_neg hr]
    by_cases hw : oflag &&& O_WRONLY = O_WRONLY ∧ (t₁.vnode p).mode &&& S_IWUSR ≠ S_IWUSR
    · rw [if_pos hw]
      exact h₁
    rw [if_neg hw]
    refine Fixes.wp_bind (g := State.ofile) (fixes_mountabGet _) fun i t₂ h₂ => ?_
    cases i with
    | none => exact h₂.trans h₁
    | some i =>
      refine Fixes.wp_bind (g := State.ofile) (fixes_mount _) fun m t₃ h₃ => ?_
      refine (unseen_ofile.scacheGet _ _ _).wp_bind fun scp t₄ h₄ => ?_
      have hsame : t₄.ofile = s.ofile := h₄.trans (h₃.trans (h₂.trans h₁))
      by_cases hscp : scp = none
      · rw [if_pos hscp]
        exact hsame
      rw [if_neg hscp,wp_bind,ofileAlloc,wp_bind,Prog.wp_get,wp_pure]
      cases hfree : (List.range NMXOFILE).find? (fun k => decide ((t₄.ofile k).node = .null)) with
      | none => exact hsame
      | some fd =>
        have hfd : fd < NMXOFILE := List.mem_range.mp (List.mem_of_find?_eq_some hfree)
        have hnull : (s.ofile fd).node = .null := by
          rw [← hsame]
          simpa using List.find?_some hfree
        dsimp only
        rw [wp_bind,wp_setOfile hfd,if_neg (logand_ne_append _ _),if_neg (logand_ne_trunc _ _),wp_bind,wp_setOfile hfd,
          wp_bind,wp_ofile hfd]
        simp only [update_self,update_idem,hsame]
        rw [wp_bind]
        refine (wp_lseek_leaves hfd (by simpa using hp) 0 rfl).mono ?_ (fun _ _ _ => trivial)
        rintro _ u - ⟨hu,-⟩
        simp only [State.seekTo,update_idem,update_self] at hu
        refine ⟨hnull,?_,?_,fun k hk => ?_⟩
        · simpa [hu] using hp
        · simp [hu]
        · simp [hu,hk]
  · rw [wp_bind,vnode,if_neg hp]
    trivial

theorem wp_open_occupies (path : List UInt8) (oflag : UInt32) :
    wp (open_ E path oflag) (fun r t => Occupies s t r) (fun _ => True) s := by
  unfold open_
  refine (unseen_ofile.vget path false).wp_bind fun p t₁ h₁ => ?_
  by_cases herr : p = .err ∨ p = .null
  · rw [if_pos herr]
    by_cases hc : oflag &&& O_CREAT ≠ 0 ∧ oflag &&& O_EXCL = O_EXCL
    · rw [if_pos hc]
      exact h₁
    · rw [if_neg hc]
      exact wp_openFound_occupies oflag h₁
  · rw [if_neg herr]
    by_cases hc : oflag &&& O_CREAT = O_CREAT ∧ oflag &&& O_EXCL = O_EXCL
    · rw [if_pos hc]
      exact h₁
    · rw [if_neg hc]
      exact wp_openFound_occupies oflag h₁

theorem wp_close_frees : wp (close E fd) (fun _ t => ∀ k, t.ofile k = s.ofile k ∨ (t.ofile k).node = .null)
    (fun _ => True) s := by
  unfold close
  split
  · exact fun _ => Or.inl rfl
  rename_i hfd
  refine Fixes.wp_bind (g := State.ofile) (fixes_ofile fd) fun f t₁ h₁ => ?_
  refine Fixes.wp_bind (g := State.ofile) (fixes_vnode _) fun v t₂ h₂ => ?_
  refine Fixes.wp_bind (g := State.ofile) (fixes_mount _) fun m t₃ h₃ => ?_
  refine Fixes.wp_bind (g := State.ofile) (Blind.scacheCommit (fun _ _ => rfl) _ _) fun _ t₄ h₄ => ?_
  rw [wp_bind,wp_setOfile (Nat.not_le.mp hfd),wp_pure]
  intro k
  by_cases hk : k = fd
  · right
    simp [hk]
  · left
    simp [hk,h₄.trans (h₃.trans (h₂.trans h₁))]

/-! ## Transfers -/

section Transfer
variable {β : Type} {copy : Ptr → ℕ → ℕ → ℕ → β → K β}
  (hcopy : ∀ sp disp n i b, Fixes (fun s => (s.vnode,s.ofile)) (copy sp disp n i b))
include hcopy

/-- The position is brought back to the end of the file. -/
theorem wp_xferMove_clamps (hfd : fd < NMXOFILE) (sp : Ptr) (disp : Int32) (n i : UInt32) (b : β) :
    wp (xferMove copy fd size sp disp n i b) (fun _ t => (t.ofile fd).pos.toUInt32 ≤ size ∧
      (t.ofile fd).node = (s.ofile fd).node ∧ t.vnode = s.vnode) (fun _ => True) s := by
  unfold xferMove
  split
  · trivial
  refine (hcopy sp disp.toNatClampNeg n.toNat i.toNat b).wp_bind fun b t ht => ?_
  obtain ⟨hv,ho⟩ := Prod.mk.inj ht
  rw [wp_bind,wp_setOfile hfd,wp_bind,wp_ofile hfd]
  split
  · rw [wp_bind,wp_setOfile hfd,wp_pure]
    simp [ho,hv]
  · rename_i hlt
    rw [wp_pure]
    simp only [update_self,ho,hv,and_true] at hlt ⊢
    exact UInt32.not_lt.mp hlt

theorem wp_xferLoop_clamps (fuel : ℕ) (oldblk : Int32) (scp : Option Ptr) (xfer i : UInt32) (b : β)
    (h : (s.ofile fd).pos.toUInt32 ≤ s.fileSize fd) :
    wp (xferLoop E copy fd fuel oldblk scp xfer i b) (fun _ t => (t.ofile fd).pos.toUInt32 ≤ t.fileSize fd)
      (fun _ => True) s := by
  induction fuel generalizing oldblk scp xfer i b s with
  | zero => trivial
  | succ fuel ih =>
    unfold xferLoop
    split
    · exact h
    by_cases hfd : fd < NMXOFILE
    swap
    · rw [wp_bind,ofile,if_neg hfd]
      trivial
    rw [wp_bind,wp_ofile hfd]
    by_cases hn : (s.ofile fd).node.isNode
    swap
    · rw [wp_bind,vnode,if_neg hn]
      trivial
    rw [wp_bind,wp_vnode hn]
    refine Fixes.wp_bind (g := fun s => (s.vnode,s.ofile)) (fixes_mount _) fun m t₁ h₁ => ?_
    refine Fixes.wp_bind (g := fun s => (s.vnode,s.ofile)) (fixes_fileBlk _) fun blk t₂ h₂ => ?_
    dsimp only
    refine Fixes.wp_bind (g := fun s => (s.vnode,s.ofile)) (.ite (Blind.scacheGet (fun _ _ => rfl) _ _ _) ?_) fun sp t₃ h₃ => ?_
    · cases scp with
      | none => exact fixes_stop _
      | some sp => exact fixes_pure _
    obtain ⟨hv,ho⟩ := Prod.mk.inj (h₃.trans (h₂.trans h₁))
    -- whatever is moved, the position is then compared with the size
    have hmove : ∀ n, wp (xferMove copy fd (s.vnode (s.ofile fd).node).size sp ((s.ofile fd).pos % m.blksize) n i b)
        (fun _ t => (t.ofile fd).pos.toUInt32 ≤ t.fileSize fd) (fun _ => True) t₃ := by
      intro n
      refine (wp_xferMove_clamps hcopy hfd sp _ n i b).mono ?_ (fun _ _ _ => trivial)
      rintro _ u - ⟨hle,hnode,hvu⟩
      rw [State.fileSize,hnode,hvu,ho,hv]
      exact hle
    split
    · rw [wp_bind]
      refine (hmove _).mono ?_ (fun _ _ _ => trivial)
      rintro ⟨b,ended⟩ u - hu
      dsimp only
      split
      · exact hu
      · exact ih _ _ _ _ _ hu
    · rw [wp_bind]
      exact (hmove _).mono (fun _ _ _ hu => hu) (fun _ _ _ => trivial)

end Transfer

theorem wp_read_clamps (oldblk : Int32) (buf : ℕ → UInt8) (nbyte : UInt32)
    (h : (s.ofile fd).pos.toUInt32 ≤ s.fileSize fd) :
    wp (read E oldblk fd buf nbyte) (fun _ t => (t.ofile fd).pos.toUInt32 ≤ t.fileSize fd) (fun _ => True) s := by
  unfold read
  rw [wp_bind]
  exact wp_xferLoop_clamps (fun _ _ _ _ _ => (fixes_buffer _).bind fun _ => fixes_pure _) _ _ _ _ _ _ h

theorem wp_write_clamps (oldblk : Int32) (buf : ℕ → UInt8) (nbyte : UInt32)
    (h : (s.ofile fd).pos.toUInt32 ≤ s.fileSize fd) :
    wp (write E oldblk fd buf nbyte) (fun _ t => (t.ofile fd).pos.toUInt32 ≤ t.fileSize fd) (fun _ => True) s := by
  have hblind : Blind (fun s : State => (s.vnode,s.ofile)) := fun _ _ => rfl
  have hcopy : ∀ sp disp n i b, Fixes (fun s : State => (s.vnode,s.ofile)) (writeCopy buf sp disp n i b) :=
    fun sp _ _ _ _ => (hblind.setBuffer sp _).bind fun _ => fixes_modify fun _ => rfl
  unfold write
  rw [wp_bind]
  exact wp_xferLoop_clamps hcopy _ _ _ _ _ _ h

/-! ## Runs -/

def fsStep (E : Env) (s : State) (c : FsCall) : Option State :=
  match (c.exec E).run s with
  | (.ok _,t) => some t
  | (.error _,_) => none

theorem fsStep_some {c : FsCall} : fsStep E s c = some t ↔ (c.exec E).run s = (.ok (),t) := by
  unfold fsStep
  split <;> rename_i hr <;> simp [hr]

def FsCall.moves : FsCall → ℕ → Prop
  | .read _ fd _ _, k => k = fd
  | .write _ fd _ _, k => k = fd
  | .lseek fd _ _, k => k = fd
  | _, _ => False

/-- What a call may do to a slot: nothing, free it, fill it, or move its position. -/
theorem FsCall.slots {c : FsCall} (h : (c.exec E).run s = (.ok (),t)) (k : ℕ) :
    t.ofile k = s.ofile k ∨ (t.ofile k).node = .null ∨
      ((s.ofile k).node = .null ∧ (t.ofile k).node.isNode ∧ (t.ofile k).pos = 0) ∨
      c.moves k ∧ (t.ofile k).node = (s.ofile k).node := by
  have hsame : ∀ {α : Type} {x : K α}, (do let _ ← x : K Unit).run s = (.ok (),t) → Fixes State.ofile x →
      t.ofile k = s.ofile k := by
    intro α x hrun hx
    have ht := (hx.bind fun _ => fixes_pure ()) s
    rw [hrun] at ht
    exact congrFun ht k
  have hmoved : ∀ {α : Type} {x : K α} {fd : ℕ}, (do let _ ← x : K Unit).run s = (.ok (),t) →
      Fixes (State.besides fd) x → t.ofile k = s.ofile k ∨ k = fd ∧ (t.ofile k).node = (s.ofile k).node := by
    intro α x fd hrun hx
    have ht := (hx.bind fun _ => fixes_pure ()) s
    rw [hrun] at ht
    exact slot_of_besides ht
  cases c with
  | vget path parent => exact Or.inl (hsame h (unseen_ofile.vget path parent))
  | mkdir path mode =>
    have htime : Fixes State.ofile (time E) :=
      fixes_get.bind fun _ => Fixes.bind (fixes_modify fun _ => rfl) fun _ => fixes_pure _
    exact Or.inl (hsame h (fixes_mkdir unseen_ofile (fun _ _ => rfl) htime path mode))
  | rmdir path => exact Or.inl (hsame h (fixes_rmdir unseen_ofile (fun _ _ => rfl) path))
  | open_ path oflag =>
    obtain ⟨r,u,hopen,hu⟩ := of_run_bind h
    obtain rfl : u = t := congrArg Prod.snd hu
    have hocc : Occupies s u r := (wp_open_occupies path oflag).of_run hopen
    cases r with
    | file fd =>
      obtain ⟨hnull,hnode,hpos,hother⟩ := hocc
      by_cases hk : k = fd
      · exact Or.inr (Or.inr (Or.inl (hk ▸ ⟨hnull,hnode,hpos⟩)))
      · exact Or.inl (hother k hk)
    | _ => exact Or.inl (congrFun hocc k)
  | read oldblk fd buf nbyte =>
    exact (hmoved h (fixes_read besides_blind besides_pos oldblk buf nbyte)).imp_right fun hk => Or.inr (Or.inr hk)
  | write oldblk fd buf nbyte =>
    exact (hmoved h (fixes_write besides_blind besides_pos oldblk buf nbyte)).imp_right fun hk => Or.inr (Or.inr hk)
  | lseek fd offset whence =>
    exact (hmoved h (fixes_lseek besides_blind besides_pos offset whence)).imp_right fun hk => Or.inr (Or.inr hk)
  | close fd =>
    obtain ⟨r,u,hclose,hu⟩ := of_run_bind h
    obtain rfl : u = t := congrArg Prod.snd hu
    have hfree : ∀ k, u.ofile k = s.ofile k ∨ (u.ofile k).node = .null := wp_close_frees.of_run hclose
    exact (hfree k).imp_right Or.inl

/-- The position of every open file is inside of it or at its end. -/
def Positioned (s : State) : Prop :=
  ∀ k < NMXOFILE, (s.ofile k).node ≠ .null → Within (s.ofile k).pos (s.fileSize k)

/-- No vnode of an open file is given away by the call. A file that is read or written is
smaller than 2^31 bytes, and `lseek` is called for an open file. -/
structure Orderly (E : Env) (bs : BlkSizes) (s : State) (c : FsCall) : Prop where
  allocs : ∀ a ∈ ((c.exec E).run s).2.allocs, a.vlist.cnt < NVCHCNTS ∨ ∀ fd, (a.ofile fd).node ≠ .vc 0
  small : match c with
    | .read _ fd _ _ => (s.fileSize fd).toNat < 2 ^ 31
    | .write _ fd _ _ => (s.fileSize fd).toNat < 2 ^ 31
    | _ => True
  seekable : match c with
    | .lseek fd _ _ => Seekable E bs s fd
    | _ => True

def SeekTrue (E : Env) (s : State) : FsCall → Prop
  | .lseek fd offset whence => SeekKeeps E s fd offset whence
  | _ => True

def SeekSafely (s : State) : FsCall → Prop
  | .lseek fd offset whence => SeekFits (s.ofile fd).pos (s.fileSize fd) offset whence
  | _ => True

section Step
variable {c : FsCall} (hs : Sane s) (ho : Orderly E bs s c) (h : (c.exec E).run s = (.ok (),t))
include hs ho h

/-- An open file keeps its size. -/
theorem Orderly.size_eq (hk : (s.ofile k).node ≠ .null) :
    (t.vnode (s.ofile k).node).size = (s.vnode (s.ofile k).node).size := by
  have hsteps : Steps c.closes s t := by
    have := c.steps (E := E) hs
    rwa [h] at this
  have hallocs := ho.allocs
  rw [h] at hallocs
  obtain ⟨new,hnew,hreg,hext⟩ := hsteps.new
  rcases hext (s.ofile k).node with ⟨a,ha,hgot⟩ | hsame
  · obtain ⟨hra,hnode⟩ := hreg a ha
    have hspares := hra.spares_iff.mpr (hallocs a (hnew ▸ List.mem_append_right _ ha))
    rcases hspares k with h0 | hne
    · exact absurd ((hnode k).symm.trans h0) hk
    · exact absurd ((hnode k).trans hgot.symm) hne
  · exact congrArg (fun e => e.2.1) hsame

theorem Orderly.positioned (hp : Positioned s) (hseek : SeekSafely s c) : Positioned t := by
  intro k hk hopen
  rcases FsCall.slots h k with hsame | hnull | ⟨-,-,hpos⟩ | ⟨hmoves,hnode⟩
  · rw [hsame] at hopen
    rw [State.fileSize,hsame,ho.size_eq hs h hopen]
    exact hp k hk hopen
  · exact absurd hnull hopen
  · rw [hpos]
    exact ⟨le_rfl,Int.natCast_nonneg _⟩
  · rw [hnode] at hopen
    have hold := hp k hk hopen
    have hsize : t.fileSize k = s.fileSize k := by
      rw [State.fileSize,hnode,ho.size_eq hs h hopen,State.fileSize]
    have hsmall := ho.small
    have hfile := ho.seekable
    cases c with
    | read oldblk fd buf nbyte =>
      obtain rfl : k = fd := hmoves
      obtain ⟨r,u,hread,hu⟩ := of_run_bind h
      obtain rfl : u = t := congrArg Prod.snd hu
      have hle := (wp_read_clamps oldblk buf nbyte hold.le).of_run hread
      exact within_of_le (hsize ▸ hsmall) hle
    | write oldblk fd buf nbyte =>
      obtain rfl : k = fd := hmoves
      obtain ⟨r,u,hwrite,hu⟩ := of_run_bind h
      obtain rfl : u = t := congrArg Prod.snd hu
      have hle := (wp_write_clamps oldblk buf nbyte hold.le).of_run hwrite
      exact within_of_le (hsize ▸ hsmall) hle
    | lseek fd offset whence =>
      obtain rfl : k = fd := hmoves
      obtain ⟨r,u,hrun,hu⟩ := of_run_bind h
      obtain rfl : u = t := congrArg Prod.snd hu
      have hleaves := (wp_lseek_leaves hk hfile.node _ rfl).of_run hrun
      rw [hsize,hleaves.1]
      simp only [State.seekTo,update_self]
      by_contra hout
      have hfits : SeekFits (s.ofile k).pos (s.fileSize k) offset whence := hseek
      rw [SeekFits,if_neg hout] at hfits
      rw [hfits] at hout
      exact hout hold
    | _ => exact hmoves.elim

end Step

/-- In a run of calls, every `lseek` does what it should and all positions stay valid, exactly
if every `lseek` is asked for a position that fits. -/
theorem positions_kept_iff (E : Env) (bs : BlkSizes) (s : State) (cs : List FsCall) (hs : Sane s) (hp : Positioned s)
    (ho : AllSteps (fsStep E) (Orderly E bs) s cs) :
    (AllSteps (fsStep E) (SeekTrue E) s cs ∧ ∀ pre t, pre <+: cs → pre.foldlM (fsStep E) s = some t → Positioned t) ↔
      AllSteps (fsStep E) SeekSafely s cs := by
  have hiff : AllSteps (fsStep E) (SeekTrue E) s cs ↔ AllSteps (fsStep E) SeekSafely s cs := by
    refine ho.congr (Q := fun _ => True) trivial (fun _ _ _ _ _ _ => trivial) fun u c _ hu => ?_
    cases c with
    | lseek fd offset whence =>
      have hfile : Seekable E bs u fd := hu.seekable
      exact hfile.keeps_iff offset whence
    | _ => exact Iff.rfl
  refine ⟨fun h => hiff.mp h.1,fun h => ⟨hiff.mpr h,fun pre t hpre hrun => ?_⟩⟩
  have hboth : AllSteps (fsStep E) (fun u c => Orderly E bs u c ∧ SeekSafely u c) s pre :=
    fun q c u hq hu => ⟨ho q c u (hq.trans hpre) hu,h q c u (hq.trans hpre) hu⟩
  refine (hboth.run_inv (Q := fun u => Sane u ∧ Positioned u) ⟨hs,hp⟩ ?_ hrun).2
  rintro u c v ⟨hu,hpu⟩ ⟨hok,hsafe⟩ hstep
  have hexec := fsStep_some.mp hstep
  have hsteps := c.steps (E := E) hu
  rw [hexec] at hsteps
  exact ⟨hsteps.sane,hok.positioned hu hexec hpu hsafe⟩

def rootOpen : State := { State.boot (fun _ _ => 0) with
  vnode := fun _ => { Vnode.zero with size := 3 }
  mountab := fun _ => ⟨true,fun _ => 0,512,some .MFS,0,0⟩
  ofile := fun k => if k = 0 then ⟨O_RDONLY,.root 0,some 0,0⟩ else ⟨0,.null,none,0⟩ }

theorem rootOpen_free (hk : k ≠ 0) : (rootOpen.ofile k).node = .null := congrArg Ofile.node (if_neg hk)

theorem rootOpen_sane : Sane rootOpen := by
  refine ⟨AllocList.boot_unused,fun p => ⟨points_null,points_null,points_null,points_null⟩,fun fd => ?_⟩
  by_cases hfd : fd = 0
  · subst hfd
    exact points_root 0
  · rw [rootOpen_free hfd]
    exact points_null

theorem rootOpen_seekable : Seekable anyEnv ⟨fun _ => 512,fun _ => ⟨1,rfl⟩,fun _ => by decide⟩ rootOpen 0 where
  fd_lt := by decide
  node := rfl
  mount := ⟨0,rfl,rfl,by decide,by decide,rfl,rfl⟩
  cache := ⟨_,boot_inv _⟩
  room := Or.inl (by decide)

theorem rootOpen_positioned : Positioned rootOpen := by
  intro k _ hk
  by_cases h0 : k = 0
  · subst h0
    exact (by decide : Within 0 3)
  · exact absurd (rootOpen_free h0) hk

/-- The end of the file is valid. -/
theorem positions_kept_end : ∃ t, [FsCall.lseek 0 3 SEEK_SET].foldlM (fsStep anyEnv) rootOpen = some t ∧
    Positioned t ∧ (t.ofile 0).pos = 3 := by
  obtain ⟨t,hrun,ht⟩ := rootOpen_seekable.lseek 3 SEEK_SET 3 rfl
  have hexec : ((FsCall.lseek 0 3 SEEK_SET).exec anyEnv).run rootOpen = (.ok (),t) := run_bind hrun
  have hallocs : t.allocs = [] := by
    have hfix : Fixes State.allocs (lseek anyEnv 0 3 SEEK_SET) := fixes_lseek (fun _ _ => rfl)
      (fun _ => .ite (fixes_modify fun _ => rfl) (fixes_stop _)) 3 SEEK_SET
    have hsame := hfix rootOpen
    rwa [hrun] at hsame
  have hfold : [FsCall.lseek 0 3 SEEK_SET].foldlM (fsStep anyEnv) rootOpen = some t := by
    simp [fsStep_some.mpr hexec]
  refine ⟨t,hfold,((positions_kept_iff anyEnv _ rootOpen [.lseek 0 3 SEEK_SET] rootOpen_sane rootOpen_positioned
    (allSteps_cons ⟨fun a ha => ?_,trivial,rootOpen_seekable⟩ fun _ _ => allSteps_nil)).mpr
    (allSteps_cons ?_ fun _ _ => allSteps_nil)).2 _ t (List.prefix_refl _) hfold,?_⟩
  · rw [hexec,hallocs] at ha
    cases ha
  · change SeekFits 0 3 3 SEEK_SET
    rw [SeekFits,if_pos (by decide)]
    rfl
  · rw [ht]
    rfl

def fileBytes : List (ℕ × UInt8) :=
  [(0,77),(1,70),(2,83),(24,1),(41,2),(632,1),(640,102),(708,1),(712,1),(728,3)]

def fileDisk : ℕ → ℕ → UInt8 := fun _ a => (fileBytes.lookup a).getD 0

def fileState : State :=
  ((session sampleEnv [.open_ [slash,102] O_RDONLY]).run (State.booted sampleEnv fileDisk [(0,0,1)])).2

/-- A call that fails leaves the position behind the end of the file. -/
theorem failed_seek_moves :
    ((session sampleEnv [.open_ [slash,102] O_RDONLY]).run (State.booted sampleEnv fileDisk [(0,0,1)])).1.toOption = some () ∧
    fileState.fileSize 0 = 3 ∧ (fileState.ofile 0).pos = 0 ∧
    ((lseek sampleEnv 0 100 SEEK_SET).run fileState).1.toOption = some (-1) ∧
    (((lseek sampleEnv 0 100 SEEK_SET).run fileState).2.ofile 0).pos = 100 ∧
    ¬ SeekKeeps sampleEnv fileState 0 100 SEEK_SET := by
  have hopen : ((session sampleEnv [.open_ [slash,102] O_RDONLY]).run
      (State.booted sampleEnv fileDisk [(0,0,1)])).1.toOption = some () := by decide +kernel
  have hsize : fileState.fileSize 0 = 3 := by decide +kernel
  have hpos : (fileState.ofile 0).pos = 0 := by decide +kernel
  have hret : ((lseek sampleEnv 0 100 SEEK_SET).run fileState).1.toOption = some (-1) := by decide +kernel
  have hmoved : (((lseek sampleEnv 0 100 SEEK_SET).run fileState).2.ofile 0).pos = 100 := by decide +kernel
  refine ⟨hopen,hsize,hpos,hret,hmoved,?_⟩
  rintro ⟨r,t,hrun,hcase⟩
  rw [hrun] at hmoved
  rw [hpos,hsize] at hcase
  rcases hcase with ⟨p,hp,-,hle,-⟩ | ⟨-,hsame⟩
  · obtain rfl : (100 : ℤ) = p := Option.some.inj hp
    exact absurd hle (by decide)
  · exact absurd (hmoved.symm.trans hsame) (by decide)

end Micron.Filesys

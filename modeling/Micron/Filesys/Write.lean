import Micron.Filesys.Transfer
import Micron.Kernel.ScacheMarks

/-! # What a write leaves alone

A call of `write` changes blocks of its own file only, except when the file fills its last
block and the transfer reaches the end of the file: the end is noticed after a piece of the
block behind the file has been overwritten.
-/
namespace Micron.Filesys
open Function Bytes Kernel Scache Prog
variable {E : Env} {bs : BlkSizes} {F : File} {s : State} {fd pos : ℕ} {X : State → Prop} {B : Finset (ℕ × ℤ)}
  {C : Content} {c : Scache} {buf : ℕ → UInt8} {l : List Chunk}

def File.splice (F : File) (buf : ℕ → UInt8) (C : Content) (ch : Chunk) : Content :=
  C.set F.dev.toNat (F.first + ch.blk : ℕ) (put (C F.dev.toNat (F.first + ch.blk : ℕ)) ch.disp
    ((List.range ch.len).map (fun k => buf (ch.src + k))))

def File.written (F : File) (buf : ℕ → UInt8) (C : Content) (l : List Chunk) : Content := l.foldl (F.splice buf) C

def MarkedIn (c : Scache) (dev : UInt32) (b : ℤ) : Prop := ∃ i, Entry c i dev b ∧ c.HasMark i

theorem wp_writePiece {ch : Chunk} {blk : Int32} (buf : ℕ → UInt8) (h : F.At E bs s fd) (hd : Disk E bs B C c)
    (hb : InUse E bs B F.dev (F.first + ch.blk : ℕ)) (hblk : blk.toInt = (F.first + ch.blk : ℕ)) :
    wp (scacheGet E F.dev blk (s.mountab F.mnt).blksize) (fun sp t => wp (writeCopy buf sp ch.disp ch.len ch.src ())
      (fun _ t => ∃ c', t = s.moved fd c' pos ∧ Disk E bs B (F.splice buf C ch) c' ∧ c'.disk = c.disk ∧
        MarkedIn c' F.dev (F.first + ch.blk : ℕ) ∧ ∀ dev b, MarkedIn c dev b → MarkedIn c' dev b) X t) X
      (s.moved fd c pos) := by
  refine wp_get_keeps h.usable hd (hblk ▸ hb) ?_
  intro i c' hd' hent hkeep hmode
  rw [writeCopy,wp_bind,wp_setBuffer]
  rw [hblk] at hent
  refine ⟨_,rfl,?_,hkeep.disk,⟨i,⟨hent.lt,hent.src⟩,(hasMark_changeBuf c' i _ i).mpr (Or.inl rfl)⟩,?_⟩
  · refine (hd'.set hent _).congr (fun d b k hk => ?_)
    by_cases hdb : (d,b) = (F.dev.toNat,((F.first + ch.blk : ℕ) : ℤ))
    · obtain ⟨rfl,rfl⟩ := Prod.mk.inj hdb
      rw [volume_size hb.ne_zero] at hk
      rw [File.splice,Content.set_self,Content.set_self]
      simp only [put]
      split
      · rfl
      · exact (hd'.buf hent hb.ne_zero hk).symm
    · rw [File.splice,Content.set_of_ne _ hdb,Content.set_of_ne _ hdb]
  · rintro dev b ⟨j,he,hm⟩
    obtain ⟨hj,hsrc⟩ := hkeep.entry j dev b he
    refine ⟨j,⟨hj,hsrc⟩,(hasMark_changeBuf c' i _ j).mpr (Or.inr ?_)⟩
    rw [HasMark,hmode]
    exact hm

theorem wp_write {nbyte : UInt32} {oldblk : Int32} {p : ℕ} (buf : ℕ → UInt8) (h : F.At E bs s fd) (hd : Disk E bs B C s.scache)
    (hpos : (s.ofile fd).pos.toInt = pos) (hp : pos ≤ F.size)
    (hl : chunks (F.blksize bs) F.size E.fuel pos nbyte.toNat 0 = .ok (l,p))
    (hb : ∀ ch ∈ l, InUse E bs B F.dev (F.first + ch.blk : ℕ))
    (hold : nbyte ≠ 0 → oldblk.toInt ≠ (F.first + pos / F.blksize bs : ℕ)) :
    wp (write E oldblk fd buf nbyte) (fun r t => r = nbyte ∧ ∃ c, t = s.moved fd c p ∧
      Disk E bs B (F.written buf C l) c ∧ c.disk = s.scache.disk ∧
      ∀ ch ∈ l, MarkedIn c F.dev (F.first + ch.blk : ℕ)) X s := by
  have hloop : wp (xferLoop E (writeCopy buf) fd E.fuel oldblk none nbyte 0 ()) (fun _ t => ∃ c, t = s.moved fd c p ∧
      Disk E bs B (F.written buf C ([] ++ l)) c ∧ c.disk = s.scache.disk ∧
      ∀ ch ∈ [] ++ l, MarkedIn c F.dev (F.first + ch.blk : ℕ)) X (s.moved fd s.scache pos) := by
    refine wp_xferLoop (I := fun l _ c => Disk E bs B (F.written buf C l) c ∧ c.disk = s.scache.disk ∧
      ∀ ch ∈ l, MarkedIn c F.dev (F.first + ch.blk : ℕ)) h ?_
      (fun ch hch => (hb ch hch).valid) hl hp hold ⟨hd,rfl,by simp⟩
    rintro ch hch done _ c pos blk ⟨hd,hdisk,hmark⟩ hblk
    refine (wp_writePiece buf h hd (hb ch hch) hblk).mono ?_ (fun _ _ => id)
    intro sp t _ ht
    refine ht.mono ?_ (fun _ _ => id)
    rintro _ t - ⟨c',rfl,hd',hdisk',hnew,hmark'⟩
    refine ⟨c',rfl,?_,hdisk'.trans hdisk,fun ch' hch' => ?_⟩
    · rw [File.written,List.foldl_append]
      exact hd'
    · rcases List.mem_append.mp hch' with hin | hin
      · exact hmark' _ _ (hmark ch' hin)
      · obtain rfl := List.mem_singleton.mp hin
        exact hnew
  rw [moved_self hpos] at hloop
  rw [write,wp_bind]
  exact hloop.mono (fun _ _ _ ht => ⟨rfl,ht⟩) (fun _ _ => id)

def File.reach (F : File) (bs : BlkSizes) (s : Scache) (pos n : ℕ) : Finset (ℕ × ℤ) :=
  cachedBlocks s ∪
    (Finset.range (touched (F.blksize bs) F.size pos n)).image
      (fun j => (F.dev.toNat,((F.first + (pos / F.blksize bs + j) : ℕ) : ℤ)))

theorem File.reach_disk {n : ℕ} {L : ℕ → List ℕ} (hc : c.Coherent (volume bs E.devs) C L)
    (hroom : c.alist.cnt + touched (F.blksize bs) F.size pos n ≤ NSECACHS) :
    Disk E bs (F.reach bs c pos n) C c :=
  disk_of_room hc ((Nat.add_le_add_left (Finset.card_image_le.trans (Finset.card_range _).le) _).trans hroom)

theorem File.mem_reach {n q : ℕ} (h : pos / F.blksize bs ≤ q)
    (h' : q < pos / F.blksize bs + touched (F.blksize bs) F.size pos n) :
    (F.dev.toNat,((F.first + q : ℕ) : ℤ)) ∈ F.reach bs c pos n := by
  refine Finset.mem_union_right _ (Finset.mem_image.mpr ⟨q - pos / F.blksize bs,?_,?_⟩)
  · rw [Finset.mem_range]
    omega
  · rw [Nat.add_sub_cancel' h]

/-! ## Bytes outside of the file -/

def File.Owns (F : File) (d : ℕ) (b : ℤ) : Prop := d = F.dev.toNat ∧ F.first ≤ b ∧ b < (F.first + F.nblk : ℕ)

theorem File.written_of_not_owns {d : ℕ} {b : ℤ} (h : ¬ F.Owns d b) (hl : ∀ ch ∈ l, ch.blk < F.nblk) :
    F.written buf C l d b = C d b := by
  induction l generalizing C with
  | nil => rfl
  | cons ch l ih =>
    have hne : (d,b) ≠ (F.dev.toNat,((F.first + ch.blk : ℕ) : ℤ)) := by
      intro he
      obtain ⟨rfl,rfl⟩ := Prod.mk.inj he
      have := hl ch List.mem_cons_self
      exact h ⟨rfl,by omega,by omega⟩
    rw [File.written,List.foldl_cons]
    rw [← Content.set_of_ne (C := C) _ hne]
    exact ih (fun ch hch => hl ch (List.mem_cons_of_mem _ hch))

/-- A byte of some piece has the value that is written everywhere. -/
theorem File.written_const {v : UInt8} {ch : Chunk} (hch : ch ∈ l) (hlen : 0 < ch.len) :
    F.written (fun _ => v) C l F.dev.toNat (F.first + ch.blk : ℕ) ch.disp = v := by
  induction l using List.reverseRecOn with
  | nil => cases hch
  | append_singleton l ch' ih =>
    rw [File.written,List.foldl_append,List.foldl_cons,List.foldl_nil,File.splice]
    rcases List.mem_append.mp hch with hin | hin
    · by_cases he : ch.blk = ch'.blk
      · rw [he,Content.set_self,put]
        split
        · simp
        · rw [← he]
          exact ih hin
      · rw [Content.set_of_ne]
        · exact ih hin
        · intro h
          have := (Prod.mk.inj h).2
          omega
    · obtain rfl := List.mem_singleton.mp hin
      rw [Content.set_self,put,dif_pos]
      · simp
      · simpa using hlen

/-- The call returns whatever is in the buffer and changes, in the cache and on the disk, no
byte outside of the blocks of the file. -/
def KeepsOthers (E : Env) (bs : BlkSizes) (F : File) (s : State) (oldblk : Int32) (fd : ℕ) (nbyte : UInt32) :
    Prop :=
  ∀ buf, ∃ r t, (write E oldblk fd buf nbyte).run s = (.ok r,t) ∧ t.scache.disk = s.scache.disk ∧
    ∀ d b, (bs.request d b).Valid E.devs → ¬ F.Owns d b → ∀ k < (volume bs E.devs).size d b,
      t.scache.view (bs.size d) d b k = s.scache.view (bs.size d) d b k

/-- Nothing to write, or no value in `oldblk` that is taken for the first block and a transfer
that stays inside of the blocks of the file. -/
def WriteStays (F : File) (bs : BlkSizes) (pos : ℕ) (oldblk : Int32) (nbyte : UInt32) : Prop :=
  nbyte = 0 ∨ oldblk.toInt ≠ (F.first + pos / F.blksize bs : ℕ) ∧
    Stays (F.blksize bs) F.size F.nblk pos nbyte.toNat

structure Writable (E : Env) (bs : BlkSizes) (F : File) (s : State) (fd pos n : ℕ) : Prop where
  file : F.At E bs s fd
  coherent : ∃ C L, s.scache.Coherent (volume bs E.devs) C L
  pos_eq : (s.ofile fd).pos.toInt = pos
  pos_le : pos ≤ F.size
  room : s.scache.alist.cnt + touched (F.blksize bs) F.size pos n ≤ NSECACHS
  fuel : F.size / F.blksize bs + 2 < E.fuel

section
variable {nbyte : UInt32} {oldblk : Int32} (h : Writable E bs F s fd pos nbyte.toNat)
include h

theorem Writable.run {p : ℕ} (buf : ℕ → UInt8) {L : ℕ → List ℕ} (hc : s.scache.Coherent (volume bs E.devs) C L)
    (hl : chunks (F.blksize bs) F.size E.fuel pos nbyte.toNat 0 = .ok (l,p))
    (hok : ∀ ch ∈ l, ch.Ok (F.blksize bs) F.size (pos / F.blksize bs) ∧
      ch.blk < pos / F.blksize bs + touched (F.blksize bs) F.size pos nbyte.toNat)
    (hb : ∀ ch ∈ l, F.Has E bs ch.blk)
    (hold : nbyte ≠ 0 → oldblk.toInt ≠ (F.first + pos / F.blksize bs : ℕ)) :
    ∃ r t, (write E oldblk fd buf nbyte).run s = (.ok r,t) ∧ t.scache.disk = s.scache.disk ∧
      ∀ d b, (bs.request d b).Valid E.devs → ∀ k < (volume bs E.devs).size d b,
        t.scache.view (bs.size d) d b k = F.written buf C l d b k := by
  have hd := File.reach_disk hc h.room
  have hin : ∀ ch ∈ l, InUse E bs (F.reach bs s.scache pos nbyte.toNat) F.dev (F.first + ch.blk : ℕ) := by
    intro ch hch
    have hpos := h.file.first_pos
    exact ⟨hb ch hch,by omega,File.mem_reach (hok ch hch).1.le_blk (hok ch hch).2⟩
  obtain ⟨r,t,hrun,-,c,rfl,hd',hdisk,-⟩ := (wp_write buf h.file hd h.pos_eq h.pos_le hl hin hold).run
  exact ⟨r,_,hrun,hdisk,fun d b hv k hk => hd'.view_eq hv hk⟩

theorem Writable.pieces (hw : pos % F.blksize bs + nbyte.toNat < 2 ^ 32) :
    ∃ l p, chunks (F.blksize bs) F.size E.fuel pos nbyte.toNat 0 = .ok (l,p) ∧
      ((∀ c ∈ l, c.blk < F.nblk) ↔ nbyte.toNat = 0 ∨ Stays (F.blksize bs) F.size F.nblk pos nbyte.toNat) ∧
      (∀ c ∈ l, c.Ok (F.blksize bs) F.size (pos / F.blksize bs) ∧
        c.blk < pos / F.blksize bs + touched (F.blksize bs) F.size pos nbyte.toNat) := by
  have hsup : F.blksize bs ≤ NMXBLKSZ := bs.supported _
  have hmax : NMXBLKSZ < 2 ^ 31 := by decide
  exact chunks_spec h.file.bs_pos (by omega) h.pos_le h.file.size_le h.file.size_lt hw
    (Nat.lt_of_le_of_lt (Nat.sub_le _ _) h.fuel)

theorem Writable.keeps (hs : WriteStays F bs pos oldblk nbyte) : KeepsOthers E bs F s oldblk fd nbyte := by
  obtain ⟨C,L,hc⟩ := h.coherent
  have hs' : nbyte.toNat = 0 ∨ Stays (F.blksize bs) F.size F.nblk pos nbyte.toNat :=
    hs.imp (fun h0 => by rw [h0]; rfl) And.right
  have hw : pos % F.blksize bs + nbyte.toNat < 2 ^ 32 := by
    rcases hs' with h0 | hs'
    · have := Nat.mod_le pos (F.blksize bs)
      have := h.pos_le
      have := h.file.size_lt
      omega
    · exact hs'.1
  obtain ⟨l,p,hl,hiff,hok⟩ := h.pieces hw
  have hin := hiff.mpr hs'
  intro buf
  obtain ⟨r,t,hrun,hdisk,hview⟩ := h.run buf hc hl hok (fun ch hch => h.file.valid _ (hin ch hch))
    (fun hx => (hs.resolve_left hx).1)
  refine ⟨r,t,hrun,hdisk,fun d b hv ho k hk => ?_⟩
  rw [hview d b hv k hk,File.written_of_not_owns ho hin]
  exact ((File.reach_disk hc h.room).view_eq hv hk).symm

/-- A call that stops keeps nothing. -/
theorem not_keepsOthers (hstop : wp (xferLoop E (writeCopy (fun _ => 0)) fd E.fuel oldblk none nbyte 0 ())
    (fun _ _ => False) (fun _ => True) (s.moved fd s.scache pos)) : ¬ KeepsOthers E bs F s oldblk fd nbyte := by
  intro hk
  obtain ⟨r,t,hrun,-⟩ := hk (fun _ => 0)
  rw [moved_self h.pos_eq] at hstop
  have hwp : wp (write E oldblk fd (fun _ => 0) nbyte) (fun _ _ => False) (fun _ => True) s := by
    rw [write,wp_bind]
    exact hstop
  exact hwp.of_run hrun

theorem Writable.stays (hnext : F.Has E bs F.nblk) (hk : KeepsOthers E bs F s oldblk fd nbyte) :
    WriteStays F bs pos oldblk nbyte := by
  by_cases hx : nbyte = 0
  · exact Or.inl hx
  obtain ⟨C,L,hc⟩ := h.coherent
  obtain ⟨fuel,hfuel⟩ := Nat.exists_eq_add_one.mpr (Nat.zero_lt_of_lt h.fuel)
  have hhas : ∀ q ≤ F.nblk, F.Has E bs q := by
    intro q hq
    rcases Nat.lt_or_eq_of_le hq with hq | rfl
    · exact h.file.valid q hq
    · exact hnext
  have hle : ∀ q, q * F.blksize bs ≤ F.size → q ≤ F.nblk := fun q hq =>
    Nat.le_of_mul_le_mul_right (hq.trans h.file.size_le) h.file.bs_pos
  have hfirst := hhas _ (hle _ ((Nat.div_mul_le_self pos _).trans h.pos_le))
  have hold : oldblk.toInt ≠ (F.first + pos / F.blksize bs : ℕ) := by
    intro he
    refine not_keepsOthers h ?_ hk
    rw [hfuel]
    exact xferLoop_stale h.file h.pos_le hfirst hx he
  have hw : pos % F.blksize bs + nbyte.toNat < 2 ^ 32 := by
    by_contra hw
    refine not_keepsOthers h ?_ hk
    rw [hfuel]
    exact xferLoop_wrap h.file h.pos_le (Nat.le_of_not_lt hw)
  obtain ⟨l,p,hl,hiff,hok⟩ := h.pieces hw
  refine Or.inr ⟨hold,(hiff.mp ?_).resolve_left (fun h0 => hx (UInt32.toNat_inj.mp h0))⟩
  intro ch hch
  by_contra hge
  -- the piece is in the block behind the file; write a byte that differs from the old one
  have hblk : ch.blk = F.nblk := Nat.le_antisymm (hle _ (hok ch hch).1.start_le) (Nat.le_of_not_lt hge)
  have hpos := h.file.first_pos
  have hlen := (hok ch hch).1.len_pos
  have hle' := (hok ch hch).1.len_le
  have hsize : ch.disp < (volume bs E.devs).size F.dev.toNat (F.first + ch.blk : ℕ) := by
    rw [volume_size (by omega)]
    exact Nat.lt_of_lt_of_le (by omega) hle'
  have hne : s.scache.view (bs.size F.dev.toNat) F.dev.toNat (F.first + ch.blk : ℕ) ch.disp + 1 ≠
      s.scache.view (bs.size F.dev.toNat) F.dev.toNat (F.first + ch.blk : ℕ) ch.disp := by
    simp
  generalize hv : s.scache.view (bs.size F.dev.toNat) F.dev.toNat (F.first + ch.blk : ℕ) ch.disp = v at hne
  obtain ⟨r,t,hrun,-,hkeep⟩ := hk (fun _ => v + 1)
  obtain ⟨r',t',hrun',-,hview⟩ := h.run (fun _ => v + 1) hc hl hok
    (fun c hc => hhas _ (hle _ (hok c hc).1.start_le)) (fun _ => hold)
  obtain ⟨-,rfl⟩ := Prod.mk.inj (hrun.symm.trans hrun')
  have hnew := hview _ _ (hhas ch.blk (by omega)) ch.disp hsize
  rw [File.written_const hch hlen,hkeep _ _ (hhas ch.blk (by omega)) (fun ho => ?_) ch.disp hsize,hv] at hnew
  · exact hne hnew.symm
  · have := ho.2.2
    omega

end

/-- A write changes nothing outside of its file if it stays inside of its blocks. If there is a
block behind the file, these are the only writes that do. -/
theorem write_keeps_others_iff {nbyte : UInt32} {oldblk : Int32} (h : Writable E bs F s fd pos nbyte.toNat) :
    (WriteStays F bs pos oldblk nbyte → KeepsOthers E bs F s oldblk fd nbyte) ∧
      (F.Has E bs F.nblk → KeepsOthers E bs F s oldblk fd nbyte → WriteStays F bs pos oldblk nbyte) :=
  ⟨h.keeps,h.stays⟩

/-! ## Two files side by side -/

def twoFilesEnv : Env := ⟨anyDevs,fun _ => 0,fun _ => 0,4⟩

/-- Two files of one sector each in data blocks 0 and 1 of a mounted device, both open, the
first one at position `pos`. -/
def twoFiles (pos : Int32) : State :=
  { State.boot (fun _ _ => 0) with
    vnode := fun p => match p with
      | .vc 0 => { Vnode.zero with dev := 1, ino := 1, size := 512, blkentry := 0, blocks := 1 }
      | .vc 1 => { Vnode.zero with dev := 1, ino := 2, size := 512, blkentry := 1, blocks := 1 }
      | _ => .zero
    mountab := fun _ => ⟨true,fun a => if a = 32 then 8 else 0,512,some .MFS,0,0⟩
    ofile := fun fd => match fd with
      | 0 => ⟨O_WRONLY,.vc 0,some 0,pos⟩
      | 1 => ⟨O_WRONLY,.vc 1,some 0,0⟩
      | _ => ⟨0,.null,none,0⟩ }

def twoFile (j : ℕ) : File := ⟨1,0,j + 8,1,512⟩

theorem sector_valid {q : ℕ} (hq : q < 2 ^ 31) : (sectorSizes.request 1 q).Valid anyDevs where
  dev_ok := show DevOk 1 by decide
  nonneg := Int.natCast_nonneg q
  fits := by
    simp only [BlkSizes.request,sectorSizes,Nat.div_self (show 0 < 512 by decide)]
    omega
  seek_ok _ := rfl

theorem twoFile_at (pos : Int32) {j : ℕ} (hj : j = 0 ∨ j = 1) :
    (twoFile j).At twoFilesEnv sectorSizes (twoFiles pos) j where
  fd_lt := by rcases hj with rfl | rfl <;> decide
  isNode := by rcases hj with rfl | rfl <;> rfl
  mount := by rcases hj with rfl | rfl <;> rfl
  fs := rfl
  usable := ⟨show DevOk 1 by decide,rfl,rfl⟩
  bs_pos := show 0 < 512 by decide
  dev := by rcases hj with rfl | rfl <;> rfl
  size := by rcases hj with rfl | rfl <;> rfl
  blocks := by rcases hj with rfl | rfl <;> rfl
  first := ⟨j,8,by rcases hj with rfl | rfl <;> rfl,rfl,rfl⟩
  first_pos := Nat.zero_lt_succ _
  size_le := show 512 ≤ 1 * 512 by decide
  size_lt := show 512 < 2 ^ 31 by decide
  valid q hq := by
    have hq' : q < 1 := hq
    exact sector_valid (by change j + 8 + q < 2 ^ 31; omega)

theorem twoFiles_writable {pos : Int32} {m n : ℕ} (hpos : pos.toInt = m) (hm : m ≤ 512)
    (hroom : touched 512 512 m n ≤ NSECACHS) :
    Writable twoFilesEnv sectorSizes (twoFile 0) (twoFiles pos) 0 m n where
  file := twoFile_at pos (Or.inl rfl)
  coherent := ⟨_,_,boot_coherent⟩
  pos_eq := hpos
  pos_le := hm
  room := (Nat.zero_add _).symm ▸ hroom
  fuel := by decide

/-- The whole first file is overwritten and nothing else. -/
theorem write_keeps_others_whole : WriteStays (twoFile 0) sectorSizes 0 0 512 ∧
    KeepsOthers twoFilesEnv sectorSizes (twoFile 0) (twoFiles 0) 0 0 512 := by
  have hstays : WriteStays (twoFile 0) sectorSizes 0 0 512 :=
    Or.inr ⟨by decide,by decide,Or.inr ⟨by decide,Or.inl (by decide)⟩⟩
  exact ⟨hstays,(write_keeps_others_iff (twoFiles_writable rfl (by decide) (by decide))).1 hstays⟩

/-- One byte written at the end of the first file goes into the second one. -/
theorem write_hits_next_file : Writable twoFilesEnv sectorSizes (twoFile 0) (twoFiles 512) 0 512 1 ∧
    (twoFile 1).At twoFilesEnv sectorSizes (twoFiles 512) 1 ∧ (twoFile 1).Owns 1 9 ∧ ¬ (twoFile 0).Owns 1 9 ∧
    (twoFiles 512).scache.view 512 1 9 0 = 0 ∧
    ∃ r t, (write twoFilesEnv 0 0 (fun _ => 1) 1).run (twoFiles 512) = (.ok r,t) ∧ t.scache.view 512 1 9 0 = 1 := by
  have hw : Writable twoFilesEnv sectorSizes (twoFile 0) (twoFiles 512) 0 512 (UInt32.toNat 1) :=
    twoFiles_writable rfl (by decide) (by decide)
  have hpiece : ∀ ch ∈ [(⟨1,0,1,0⟩ : Chunk)], (ch.Ok 512 512 1 ∧ ch.blk < 1 + touched 512 512 512 1) ∧
      (twoFile 0).Has twoFilesEnv sectorSizes ch.blk := by
    intro ch hch
    obtain rfl := List.mem_singleton.mp hch
    exact ⟨⟨⟨by decide,by decide,by decide,by decide⟩,by decide⟩,sector_valid (by decide)⟩
  obtain ⟨r,t,hrun,-,hview⟩ := hw.run (fun _ => 1) boot_coherent (show chunks 512 512 4 512 1 0 = .ok (_,512) from rfl)
    (fun ch hch => (hpiece ch hch).1) (fun ch hch => (hpiece ch hch).2)
    (fun _ => show (0 : Int32).toInt ≠ (9 : ℕ) by decide)
  refine ⟨hw,twoFile_at 512 (Or.inr rfl),⟨rfl,by decide,by decide⟩,fun h => absurd h.2.2 (by decide),rfl,r,t,hrun,?_⟩
  exact hview 1 (9 : ℕ) (sector_valid (by decide)) 0 (by decide)

end Micron.Filesys

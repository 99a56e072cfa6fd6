import Micron.Filesys.Read

/-! # What a write stores

A write inside the file that starts at a block boundary or stays inside one block replaces
exactly its bytes, marks their blocks, and a read from the same position gives them back.
Every other write that moves bytes puts some of them in the wrong place.
-/
namespace Micron.Filesys
open Function Bytes Kernel Scache Prog
variable {E : Env} {bs : BlkSizes} {F : File} {s : State} {fd pos : ℕ} {X : State → Prop} {B : Finset (ℕ × ℤ)}
  {C : Content} {c : Scache} {buf : ℕ → UInt8} {l : List Chunk} {nbyte : UInt32} {oldblk : Int32}

/-! ## The bytes of the file -/

theorem File.at_splice {ch : Chunk} (hlen : ch.disp + ch.len ≤ F.blksize bs) (p : ℕ) :
    F.at bs (F.splice buf C ch) p =
      if ch.blk * F.blksize bs + ch.disp ≤ p ∧ p < ch.blk * F.blksize bs + ch.disp + ch.len then
        buf (ch.src + (p - (ch.blk * F.blksize bs + ch.disp)))
      else F.at bs C p := by
  have hp := Nat.div_add_mod' p (F.blksize bs)
  rw [File.at,File.splice]
  by_cases hblk : p / F.blksize bs = ch.blk
  · rw [hblk] at hp ⊢
    rw [Content.set_self,put]
    by_cases hin : ch.disp ≤ p % F.blksize bs ∧ p % F.blksize bs - ch.disp < ch.len
    · rw [dif_pos (by simpa using hin),if_pos (by omega)]
      simp only [List.getElem_map,List.getElem_range]
      congr 2
      omega
    · rw [dif_neg (by simpa using hin),if_neg (by omega),File.at,hblk]
  · have hne : (F.dev.toNat,((F.first + p / F.blksize bs : ℕ) : ℤ)) ≠ (F.dev.toNat,((F.first + ch.blk : ℕ) : ℤ)) := by
      intro he
      have := Int.natCast_inj.mp (Prod.mk.inj he).2
      omega
    rw [Content.set_of_ne _ hne,if_neg,File.at]
    rintro ⟨hle,hlt⟩
    refine hblk (Nat.div_eq_of_lt_le (by omega) ?_)
    rw [Nat.succ_mul]
    omega

/-- Pieces without a gap replace consecutive bytes. -/
theorem File.written_tiles {i n : ℕ} (ht : Tiles (F.blksize bs) pos i n l) (p : ℕ) :
    F.at bs (F.written buf C l) p = if pos ≤ p ∧ p < pos + n then buf (i + (p - pos)) else F.at bs C p := by
  induction l generalizing pos i n C with
  | nil =>
    obtain rfl : n = 0 := ht
    rw [if_neg (by omega)]
    rfl
  | cons ch l ih =>
    obtain ⟨hblk,hdisp,rfl,hpos,hlen,hle,ht⟩ := ht
    have hstart : ch.blk * F.blksize bs + ch.disp = pos := by
      rw [hblk,hdisp]
      exact Nat.div_add_mod' pos _
    rw [File.written,List.foldl_cons]
    refine (ih ht).trans ?_
    rw [File.at_splice hlen,hstart]
    by_cases hlate : pos + ch.len ≤ p
    · by_cases hin : p < pos + n
      · rw [if_pos (by omega),if_pos (by omega),show ch.src + ch.len + (p - (pos + ch.len)) = ch.src + (p - pos) by omega]
      · rw [if_neg (by omega),if_neg (by omega),if_neg (by omega)]
    · by_cases hin : pos ≤ p
      · rw [if_neg (by omega),if_pos (by omega),if_pos (by omega)]
      · rw [if_neg (by omega),if_neg (by omega),if_neg (by omega)]

/-! ## Seeking back -/

theorem File.At.moved (h : F.At E bs s fd) (c : Scache) (p : ℕ) : F.At E bs (s.moved fd c p) fd := by
  have hof : (s.moved fd c p).ofile fd = { s.ofile fd with pos := .ofNat p } := update_self ..
  exact ⟨h.fd_lt,hof ▸ h.isNode,hof ▸ h.mount,h.fs,h.usable,h.bs_pos,hof ▸ h.dev,hof ▸ h.size,hof ▸ h.blocks,
    hof ▸ h.first,h.first_pos,h.size_le,h.size_lt,h.valid⟩

theorem wp_lseek {Q : Int32 → State → Prop} {p : ℕ} (h : F.At E bs s fd) (hp : pos ≤ F.size) :
    wp (lseek E fd (.ofNat pos) SEEK_SET) Q X (s.moved fd c p) ↔
      wp (scacheGet E F.dev (s.blkAt fd (s.mountab F.mnt) pos) (s.mountab F.mnt).blksize)
        (fun _ t => Q (.ofNat pos) t) X (s.moved fd c pos) := by
  have hmv : (s.moved fd c pos).ofile fd = { s.ofile fd with pos := .ofNat pos } := update_self ..
  have hmnt : mount (some F.mnt) = mount { s.ofile fd with pos := Int32.ofNat pos }.mount := by rw [h.mount]
  have hin : ¬ ((s.vnode (s.ofile fd).node).size < (Int32.ofNat pos).toUInt32 ∨ Int32.ofNat pos < 0) := by
    have hnat := Machine.toNat_toUInt32 (h.toInt_pos hp)
    rw [UInt32.lt_iff_toNat_lt,hnat,h.size]
    exact not_or.mpr ⟨Nat.not_lt.mpr hp,Machine.not_neg (h.toInt_pos hp)⟩
  rw [lseek,if_pos rfl,wp_bind,wp_setPos pos h.fd_lt rfl,if_neg (by decide),if_neg (by decide)]
  simp only [wp_bind,wp_ofile h.fd_lt,hmv,wp_vnode h.isNode]
  rw [show (s.moved fd c pos).vnode = s.vnode from rfl,if_neg hin]
  simp only [wp_bind,wp_fileBlk h,← hmnt,wp_mount,h.dev,wp_pure]
  rfl

def readBack (E : Env) (oldblk : Int32) (fd pos : ℕ) (nbyte : UInt32) (buf : ℕ → UInt8) : K (UInt32 × (ℕ → UInt8)) := do
  let _ ← lseek E fd (.ofNat pos) SEEK_SET
  read E oldblk fd buf nbyte

/-- The call returns, the bytes from `pos` on are those of the buffer and no other byte of the
file changes, their blocks are marked, the position is behind them, and they can be read
back. The reading call finds `oldblk'` in its variable. -/
def SpliceExact (E : Env) (bs : BlkSizes) (F : File) (s : State) (oldblk oldblk' : Int32) (fd pos : ℕ)
    (nbyte : UInt32) : Prop :=
  ∀ buf, ∃ c, (write E oldblk fd buf nbyte).run s = (.ok nbyte,s.moved fd c (pos + nbyte.toNat)) ∧
    (∀ p < F.size, F.byte bs (s.moved fd c (pos + nbyte.toNat)) p =
      if pos ≤ p ∧ p < pos + nbyte.toNat then buf (p - pos) else F.byte bs s p) ∧
    (∀ p, pos ≤ p → p < pos + nbyte.toNat → MarkedIn c F.dev (F.first + p / F.blksize bs : ℕ)) ∧
    ∀ old, ∃ r b t, (readBack E oldblk' fd pos nbyte old).run (s.moved fd c (pos + nbyte.toNat)) = (.ok (r,b),t) ∧
      ∀ k < nbyte.toNat, b k = buf k

section
variable {oldblk' : Int32} (h : Writable E bs F s fd pos nbyte.toNat)
include h

theorem Writable.wp_readBack {p : ℕ} (old : ℕ → UInt8)
    (hd : Disk E bs B C c) (hl : chunks (F.blksize bs) F.size E.fuel pos nbyte.toNat 0 = .ok (l,p))
    (hin : ∀ ch ∈ l, InUse E bs B F.dev (F.first + ch.blk : ℕ)) (hlen : ∀ ch ∈ l, ch.disp + ch.len ≤ F.blksize bs)
    (hfirst : InUse E bs B F.dev (F.first + pos / F.blksize bs : ℕ))
    (hold : oldblk.toInt ≠ (F.first + pos / F.blksize bs : ℕ)) (m : ℕ) :
    wp (readBack E oldblk fd pos nbyte old) (fun r _ => r = (nbyte,F.readInto C old l)) X (s.moved fd c m) := by
  have hblk := h.file.blk_eq h.pos_le hfirst.valid
  rw [readBack,wp_bind,wp_lseek h.file h.pos_le]
  refine Filesys.wp_get h.file.usable hd (hblk ▸ hfirst) ?_
  intro i c' hd' _ _
  refine (wp_read old (h.file.moved c' pos) hd' ?_ h.pos_le hl hin hlen (fun _ => hold)).mono ?_ (fun _ _ => id)
  · rw [moved_pos,h.file.toInt_pos h.pos_le]
  · rintro _ _ - ⟨rfl,-⟩
    rfl

theorem Writable.splice_bytes (hend : pos + nbyte.toNat ≤ F.size) (hx : nbyte ≠ 0) (hg : Gapless F bs pos oldblk nbyte)
    (hg' : Gapless F bs pos oldblk' nbyte) : SpliceExact E bs F s oldblk oldblk' fd pos nbyte := by
  obtain ⟨C,L,hc⟩ := h.coherent
  have hd := File.reach_disk hc h.room
  obtain ⟨l,hl,ht,hlen,hin⟩ := h.tiles hend hg
  intro buf
  obtain ⟨r,_,hrun,hr,c,rfl,hd',-,hmark⟩ := (wp_write buf h.file hd h.pos_eq h.pos_le hl hin
    (fun _ => (hg.resolve_left hx).1)).run
  rw [hr] at hrun
  refine ⟨c,hrun,fun p hp => ?_,fun p hp hlt => ?_,fun old => ?_⟩
  · rw [← File.at_view (h.file.moved c _) hd' hp,File.written_tiles ht p,Nat.zero_add,File.at_view h.file hd hp]
  · obtain ⟨ch,hch,hblk⟩ := ht.covers hp hlt
    exact hblk ▸ hmark ch hch
  · have hpos : 0 < nbyte.toNat := Nat.pos_of_ne_zero (fun h0 => hx (UInt32.toNat_inj.mp h0))
    obtain ⟨ch,hch,hblk⟩ := ht.covers le_rfl (Nat.lt_add_of_pos_right hpos)
    obtain ⟨_,t,hback,rfl⟩ := (h.wp_readBack old hd' hl hin hlen (hblk ▸ hin ch hch) (hg'.resolve_left hx).1
      (pos + nbyte.toNat)).run
    refine ⟨_,_,t,hback,fun k hk => ?_⟩
    rw [File.readInto_tiles ht k,if_pos (by omega),File.written_tiles ht,if_pos (by omega)]
    congr 1
    omega

theorem Writable.splice_none (hroom : s.scache.alist.cnt < NSECACHS) : SpliceExact E bs F s oldblk oldblk' fd pos 0 := by
  obtain ⟨C,L,hc⟩ := h.coherent
  obtain ⟨fuel,hfuel⟩ := Nat.exists_eq_add_one.mpr (Nat.zero_lt_of_lt h.fuel)
  have hself := moved_self h.pos_eq
  have hzero : pos + (0 : UInt32).toNat = pos := Nat.add_zero pos
  intro buf
  refine ⟨s.scache,?_,fun p _ => ?_,fun p hp hlt => ?_,fun old => ?_⟩
  · rw [hzero,hself,write,hfuel]
    rfl
  · rw [hzero,hself,if_neg (by omega)]
  · omega
  · have hspare : s.scache.SparesHeads F.dev.toNat (s.blkAt fd (s.mountab F.mnt) pos).toInt :=
      fun _ hfull => absurd hfull (Nat.ne_of_lt hroom)
    obtain ⟨i,L',c,hget,-⟩ := hc.inv.get (bs.size F.dev.toNat) h.file.usable.dev_ok h.file.usable.open_ok hspare
    have hwp : wp (readBack E oldblk' fd pos 0 old) (fun _ _ => True) (fun _ => False)
        (s.moved fd s.scache (pos + (0 : UInt32).toNat)) := by
      rw [readBack,wp_bind,wp_lseek h.file h.pos_le,wp_scacheGet h.file.usable]
      rw [show Scache.scacheGet E.devs F.dev.toNat (s.blkAt fd (s.mountab F.mnt) pos).toInt (bs.size F.dev.toNat)
        (s.moved fd s.scache pos).scache = some (some i,c) from hget]
      dsimp only
      rw [read,hfuel]
      trivial
    obtain ⟨r,t,hback,-⟩ := hwp.run
    exact ⟨r.1,r.2,t,hback,fun k hk => absurd hk (Nat.not_lt_zero k)⟩

/-! ## Other writes -/

theorem Writable.splice_not_stale (hend : pos + nbyte.toNat ≤ F.size) (hx : nbyte ≠ 0)
    (hs : SpliceExact E bs F s oldblk oldblk' fd pos nbyte) :
    oldblk.toInt ≠ (F.first + pos / F.blksize bs : ℕ) ∧ oldblk'.toInt ≠ (F.first + pos / F.blksize bs : ℕ) := by
  obtain ⟨c,hrun,-,-,hback⟩ := hs (fun _ => 0)
  constructor
  · intro he
    have hwp : wp (write E oldblk fd (fun _ => 0) nbyte) (fun _ _ => False) (fun _ => True) s := by
      rw [write,wp_bind]
      exact h.stale hend hx he
    exact hwp.of_run hrun
  · intro he
    obtain ⟨r,b,t,hback,-⟩ := hback (fun _ => 0)
    obtain ⟨fuel,hfuel⟩ := Nat.exists_eq_add_one.mpr (Nat.zero_lt_of_lt h.fuel)
    have hwp : wp (readBack E oldblk' fd pos nbyte (fun _ => 0)) (fun _ _ => False) (fun _ => True)
        (s.moved fd c (pos + nbyte.toNat)) := by
      rw [readBack,wp_bind,wp_lseek h.file h.pos_le]
      refine (scacheGet_moved E _ _ _).mono ?_ (fun _ _ => id)
      rintro _ _ - ⟨c',rfl⟩
      rw [read,wp_bind,hfuel]
      exact xferLoop_stale h.file h.pos_le (h.first_has hend hx) hx he
    exact hwp.of_run hback

theorem Writable.splice_pos {p : ℕ} (hend : pos + nbyte.toNat ≤ F.size)
    (hl : chunks (F.blksize bs) F.size E.fuel pos nbyte.toNat 0 = .ok (l,p)) (hin : 0 < pos % F.blksize bs)
    (hlong : F.blksize bs < pos % F.blksize bs + nbyte.toNat)
    (hs : SpliceExact E bs F s oldblk oldblk' fd pos nbyte) : p = pos + nbyte.toNat := by
  obtain ⟨c,hrun,-⟩ := hs (fun _ => 0)
  have hcopy : ∀ sp d n i b c pos, wp (writeCopy (fun _ => 0) sp d n i b) (fun _ t => ∃ c, t = s.moved fd c pos)
      (fun _ => True) (s.moved fd c pos) := by
    intro sp d n i b c pos
    cases sp with
    | none => trivial
    | some j => exact ⟨_,rfl⟩
  have hwp : wp (write E oldblk fd (fun _ => 0) nbyte)
      (fun _ t => ∀ c, t = s.moved fd c (pos + nbyte.toNat) → p = pos + nbyte.toNat) (fun _ => True) s := by
    rw [write,wp_bind]
    exact h.ends_at hcopy hend hl hin hlong
  exact hwp.of_run hrun c rfl

theorem Writable.splice_gapless (hend : pos + nbyte.toNat ≤ F.size) (hx : nbyte ≠ 0)
    (hs : SpliceExact E bs F s oldblk oldblk' fd pos nbyte) :
    pos % F.blksize bs = 0 ∨ pos % F.blksize bs + nbyte.toNat ≤ F.blksize bs := by
  by_contra hgap
  have hin : 0 < pos % F.blksize bs := by omega
  have hlong : F.blksize bs < pos % F.blksize bs + nbyte.toNat := by omega
  obtain ⟨l,p,hl,hok⟩ := h.inside hend
  obtain rfl := h.splice_pos hend hl hin hlong hs
  obtain ⟨hshort,rfl,huse⟩ := h.gap hend hin hlong hl
  obtain ⟨C,L,hc⟩ := h.coherent
  have hmod := Nat.mod_lt pos h.file.bs_pos
  have hpos := Nat.div_add_mod' pos (F.blksize bs)
  have hnext : (pos / F.blksize bs + 1) * F.blksize bs = pos / F.blksize bs * F.blksize bs + F.blksize bs :=
    Nat.succ_mul _ _
  -- the second block gets its first byte from the wrong place of the buffer
  obtain ⟨r,_,hrun,-,c,rfl,hd',-⟩ := (wp_write (X := fun _ => False) (fun k => if k = F.blksize bs then 1 else 0) h.file
    (File.reach_disk hc h.room) h.pos_eq h.pos_le hl huse (fun _ => (h.splice_not_stale hend hx hs).1)).run
  obtain ⟨c',hrun',hbyte,-⟩ := hs (fun k => if k = F.blksize bs then 1 else 0)
  have hnew := hbyte ((pos / F.blksize bs + 1) * F.blksize bs) (by omega)
  rw [← (Prod.mk.inj (hrun.symm.trans hrun')).2,← File.at_view (h.file.moved c _) hd' (by omega),if_pos (by omega),
    if_neg (by omega),File.written,List.foldl_cons,List.foldl_cons,List.foldl_nil,File.at_splice (by simp),
    if_pos (by dsimp only; omega),if_pos (by dsimp only; omega)] at hnew
  exact absurd hnew (by decide)

end

/-- Exactly the writes that move nothing, or that start at a block boundary or stay inside one
block, with no value in `oldblk` of the two calls that is taken for the first block, replace
the bytes of the file by those of the buffer. -/
theorem write_splice_iff {oldblk' : Int32} (h : Writable E bs F s fd pos nbyte.toNat)
    (hroom : s.scache.alist.cnt < NSECACHS) (hend : pos + nbyte.toNat ≤ F.size) :
    SpliceExact E bs F s oldblk oldblk' fd pos nbyte ↔
      Gapless F bs pos oldblk nbyte ∧ Gapless F bs pos oldblk' nbyte := by
  by_cases hx : nbyte = 0
  · subst hx
    exact ⟨fun _ => ⟨Or.inl rfl,Or.inl rfl⟩,fun _ => h.splice_none hroom⟩
  constructor
  · intro hs
    obtain ⟨hold,hold'⟩ := h.splice_not_stale hend hx hs
    have hgap := h.splice_gapless hend hx hs
    exact ⟨Or.inr ⟨hold,hgap⟩,Or.inr ⟨hold',hgap⟩⟩
  · rintro ⟨hg,hg'⟩
    exact h.splice_bytes hend hx hg hg'

/-- A whole file is written and read back. -/
theorem write_splice_whole : Gapless (twoFile 0) sectorSizes 0 0 512 ∧
    SpliceExact twoFilesEnv sectorSizes (twoFile 0) (twoFiles 0) 0 0 0 0 512 := by
  have hg : Gapless (twoFile 0) sectorSizes 0 0 512 := Or.inr ⟨by decide,Or.inl rfl⟩
  exact ⟨hg,(write_splice_iff (twoFiles_writable rfl (by decide) (by decide)) (by decide) (by decide)).mpr ⟨hg,hg⟩⟩

/-! ## A file of two blocks -/

def longEnv : Env := { twoFilesEnv with fuel := 8 }

def longFiles (pos : Int32) : State :=
  { twoFiles pos with
    vnode := fun p => match p with
      | .vc 0 => { Vnode.zero with dev := 1, ino := 1, size := 1024, blkentry := 0, blocks := 2 }
      | _ => .zero }

def longFile : File := ⟨1,0,8,2,1024⟩

theorem longFile_at (pos : Int32) : longFile.At longEnv sectorSizes (longFiles pos) 0 where
  fd_lt := by decide
  isNode := rfl
  mount := rfl
  fs := rfl
  usable := ⟨show DevOk 1 by decide,rfl,rfl⟩
  bs_pos := show 0 < 512 by decide
  dev := rfl
  size := rfl
  blocks := rfl
  first := ⟨0,8,rfl,rfl,rfl⟩
  first_pos := show 0 < 8 by decide
  size_le := show 1024 ≤ 2 * 512 by decide
  size_lt := show 1024 < 2 ^ 31 by decide
  valid q hq := by
    have hq' : q < 2 := hq
    exact sector_valid (by change 8 + q < 2 ^ 31; omega)

/-- 512 bytes written from position 256 on: the position moves by 256 bytes only, and byte 512
of the file is left out. -/
theorem write_leaves_gap : Writable longEnv sectorSizes longFile (longFiles 256) 0 256 512 ∧ longFile.size = 1024 ∧
    longFile.byte sectorSizes ((write longEnv 0 0 (fun _ => 1) 512).run (longFiles 256)).2 511 = 1 ∧
    longFile.byte sectorSizes ((write longEnv 0 0 (fun _ => 1) 512).run (longFiles 256)).2 512 = 0 ∧
    (((write longEnv 0 0 (fun _ => 1) 512).run (longFiles 256)).2.ofile 0).pos = 512 := by
  refine ⟨⟨longFile_at 256,⟨_,_,boot_coherent⟩,rfl,by decide,by decide,by decide⟩,rfl,?_,?_,?_⟩
  · decide +kernel
  · decide +kernel
  · decide +kernel

end Micron.Filesys

import Micron.Filesys.Tiles
import Micron.Filesys.Write

/-! # What a read stores

A read inside the file that starts at a block boundary or stays inside one block stores the
bytes of the file in the buffer. Every other read goes wrong: it returns the requested count
at the end of the file, or leaves a gap in the buffer behind the first piece.
-/
namespace Micron.Filesys
open Function Bytes Kernel Scache Prog
variable {E : Env} {bs : BlkSizes} {F : File} {s : State} {fd pos : ℕ} {X : State → Prop} {B : Finset (ℕ × ℤ)}
  {C : Content} {c : Scache} {buf : ℕ → UInt8} {l : List Chunk} {nbyte : UInt32} {oldblk : Int32}

def File.readInto (F : File) (C : Content) (buf : ℕ → UInt8) (l : List Chunk) : ℕ → UInt8 :=
  l.foldl (fun b ch => put b ch.src ((List.range ch.len).map
    (fun k => C F.dev.toNat (F.first + ch.blk : ℕ) (ch.disp + k)))) buf

theorem wp_readPiece {ch : Chunk} {blk : Int32} (buf : ℕ → UInt8) (h : F.At E bs s fd) (hd : Disk E bs B C c)
    (hb : InUse E bs B F.dev (F.first + ch.blk : ℕ)) (hblk : blk.toInt = (F.first + ch.blk : ℕ))
    (hlen : ch.disp + ch.len ≤ F.blksize bs) :
    wp (scacheGet E F.dev blk (s.mountab F.mnt).blksize) (fun sp t => wp (readCopy sp ch.disp ch.len ch.src buf)
      (fun b t => ∃ c', t = s.moved fd c' pos ∧ Disk E bs B C c' ∧ b = put buf ch.src ((List.range ch.len).map
        (fun k => C F.dev.toNat (F.first + ch.blk : ℕ) (ch.disp + k)))) X t) X (s.moved fd c pos) := by
  refine Filesys.wp_get h.usable hd (hblk ▸ hb) ?_
  intro i c' hd' hent _
  rw [hblk] at hent
  rw [readCopy,wp_bind,wp_buffer]
  refine ⟨c',rfl,hd',?_⟩
  congr 1
  refine List.map_congr_left (fun k hk => hd'.buf hent hb.ne_zero ?_)
  have := List.mem_range.mp hk
  exact Nat.lt_of_lt_of_le (by omega) hlen

theorem wp_read {p : ℕ} (buf : ℕ → UInt8) (h : F.At E bs s fd) (hd : Disk E bs B C s.scache)
    (hpos : (s.ofile fd).pos.toInt = pos) (hp : pos ≤ F.size)
    (hl : chunks (F.blksize bs) F.size E.fuel pos nbyte.toNat 0 = .ok (l,p))
    (hb : ∀ ch ∈ l, InUse E bs B F.dev (F.first + ch.blk : ℕ)) (hlen : ∀ ch ∈ l, ch.disp + ch.len ≤ F.blksize bs)
    (hold : nbyte ≠ 0 → oldblk.toInt ≠ (F.first + pos / F.blksize bs : ℕ)) :
    wp (read E oldblk fd buf nbyte) (fun r t => r = (nbyte,F.readInto C buf l) ∧ ∃ c, t = s.moved fd c p ∧
      Disk E bs B C c) X s := by
  have hloop : wp (xferLoop E readCopy fd E.fuel oldblk none nbyte 0 buf) (fun b t => ∃ c, t = s.moved fd c p ∧
      Disk E bs B C c ∧ b = F.readInto C buf ([] ++ l)) X (s.moved fd s.scache pos) := by
    refine wp_xferLoop (I := fun done b c => Disk E bs B C c ∧ b = F.readInto C buf done) h ?_
      (fun ch hch => (hb ch hch).valid) hl hp hold ⟨hd,rfl⟩
    rintro ch hch done b c pos blk ⟨hd,rfl⟩ hblk
    refine (wp_readPiece (F.readInto C buf done) h hd (hb ch hch) hblk (hlen ch hch)).mono ?_ (fun _ _ => id)
    intro sp t _ ht
    refine ht.mono ?_ (fun _ _ => id)
    rintro b t - ⟨c',rfl,hd',rfl⟩
    refine ⟨c',rfl,hd',?_⟩
    rw [File.readInto,File.readInto,List.foldl_append]
    rfl
  rw [moved_self hpos] at hloop
  rw [read,wp_bind]
  refine hloop.mono ?_ (fun _ _ => id)
  rintro b t - ⟨c,rfl,hd',rfl⟩
  exact ⟨rfl,c,rfl,hd'⟩

/-! ## The bytes of the file -/

def File.at (F : File) (bs : BlkSizes) (C : Content) (p : ℕ) : UInt8 :=
  C F.dev.toNat (F.first + p / F.blksize bs : ℕ) (p % F.blksize bs)

theorem div_mod_add {n j : ℕ} (h : pos % n + j < n) : (pos + j) / n = pos / n ∧ (pos + j) % n = pos % n + j := by
  have hpos := Nat.div_add_mod' pos n
  have hsum : pos + j = (pos % n + j) + pos / n * n := by omega
  have hn : 0 < n := by omega
  rw [hsum,Nat.add_mul_div_right _ _ hn,Nat.add_mul_mod_self_right,Nat.div_eq_of_lt h,Nat.mod_eq_of_lt h]
  omega

/-- Pieces without a gap store consecutive bytes. -/
theorem File.readInto_tiles {i n : ℕ} (ht : Tiles (F.blksize bs) pos i n l) (k : ℕ) :
    F.readInto C buf l k = if i ≤ k ∧ k < i + n then F.at bs C (pos + (k - i)) else buf k := by
  induction l generalizing pos i n buf with
  | nil =>
    obtain rfl : n = 0 := ht
    rw [if_neg (by omega)]
    rfl
  | cons ch l ih =>
    obtain ⟨hblk,hdisp,rfl,hpos,hlen,hle,ht⟩ := ht
    rw [File.readInto,List.foldl_cons]
    refine (ih ht).trans ?_
    by_cases hlate : ch.src + ch.len ≤ k
    · by_cases hin : k < ch.src + n
      · rw [if_pos (by omega),if_pos (by omega),show pos + ch.len + (k - (ch.src + ch.len)) = pos + (k - ch.src) by omega]
      · rw [if_neg (by omega),if_neg (by omega),put_frame (Or.inr (by simpa using hlate))]
    · rw [if_neg (by omega)]
      by_cases hin : ch.src ≤ k
      · obtain ⟨hq,hr⟩ := div_mod_add (show pos % F.blksize bs + (k - ch.src) < F.blksize bs by omega)
        rw [if_pos (by omega),put,dif_pos (by simp; omega),File.at,hq,hr,← hblk,← hdisp]
        simp
      · rw [if_neg (by omega),put_frame (Or.inl (by omega))]

/-- Byte `p` of the file in state `s`, in the cache or on the disk. -/
def File.byte (F : File) (bs : BlkSizes) (s : State) (p : ℕ) : UInt8 :=
  F.at bs (fun d => s.scache.view (F.blksize bs) d) p

theorem File.at_view (h : F.At E bs s fd) (hd : Disk E bs B C s.scache) {p : ℕ} (hp : p < F.size) :
    F.at bs C p = F.byte bs s p := by
  have hq : p / F.blksize bs < F.nblk :=
    Nat.div_lt_of_lt_mul (Nat.mul_comm _ _ ▸ Nat.lt_of_lt_of_le hp h.size_le)
  refine (hd.view_eq (h.valid _ hq) ?_).symm
  rw [volume_size (Int.natCast_ne_zero.mpr (Nat.ne_of_gt (Nat.add_pos_left h.first_pos _)))]
  exact Nat.mod_lt _ h.bs_pos

/-- The call returns the number of bytes up to the end of the file, stores those bytes and
nothing else, and moves the position behind them. -/
def ReadExact (E : Env) (bs : BlkSizes) (F : File) (s : State) (oldblk : Int32) (fd pos : ℕ) (nbyte : UInt32) : Prop :=
  ∀ buf, ∃ r b c, (read E oldblk fd buf nbyte).run s = (.ok (r,b),s.moved fd c (pos + min nbyte.toNat (F.size - pos))) ∧
    r.toNat = min nbyte.toNat (F.size - pos) ∧
    ∀ k, b k = if k < min nbyte.toNat (F.size - pos) then F.byte bs s (pos + k) else buf k

/-- Nothing to move, or no value in `oldblk` that is taken for the first block and a transfer
that starts at a block boundary or stays inside one block. -/
def Gapless (F : File) (bs : BlkSizes) (pos : ℕ) (oldblk : Int32) (nbyte : UInt32) : Prop :=
  nbyte = 0 ∨ oldblk.toInt ≠ (F.first + pos / F.blksize bs : ℕ) ∧
    (pos % F.blksize bs = 0 ∨ pos % F.blksize bs + nbyte.toNat ≤ F.blksize bs)

theorem moved_inj {c' : Scache} {p p' : ℕ} (h : s.moved fd c p = s.moved fd c' p') (hp : p < 2 ^ 31) (hp' : p' < 2 ^ 31) :
    p = p' := by
  have hpos : Int32.ofNat p = Int32.ofNat p' := by
    have hself : ((s.moved fd c p).ofile fd).pos = .ofNat p := moved_pos
    rw [← hself,h,moved_pos]
  have hint := congrArg Int32.toInt hpos
  rw [Int32.toInt_ofNat_of_lt hp,Int32.toInt_ofNat_of_lt hp'] at hint
  exact Int.natCast_inj.mp hint

section
variable (h : Writable E bs F s fd pos nbyte.toNat)
include h

theorem Writable.inUse {ch : Chunk} (hok : ch.Ok (F.blksize bs) F.size (pos / F.blksize bs))
    (hlt : ch.blk < pos / F.blksize bs + touched (F.blksize bs) F.size pos nbyte.toNat) (hb : F.Has E bs ch.blk) :
    InUse E bs (F.reach bs s.scache pos nbyte.toNat) F.dev (F.first + ch.blk : ℕ) := by
  have hpos := h.file.first_pos
  exact ⟨hb,by omega,File.mem_reach hok.le_blk hlt⟩

theorem Writable.inside (hend : pos + nbyte.toNat ≤ F.size) :
    ∃ l p, chunks (F.blksize bs) F.size E.fuel pos nbyte.toNat 0 = .ok (l,p) ∧ ∀ ch ∈ l,
      ch.Ok (F.blksize bs) F.size (pos / F.blksize bs) ∧
      ch.blk < pos / F.blksize bs + touched (F.blksize bs) F.size pos nbyte.toNat := by
  have hmod := Nat.mod_lt pos h.file.bs_pos
  have hsup : F.blksize bs ≤ NMXBLKSZ := bs.supported _
  have hmax : NMXBLKSZ < 2 ^ 31 := by decide
  have hs := h.file.size_lt
  obtain ⟨l,p,hl,-,hok⟩ := h.pieces (by omega)
  exact ⟨l,p,hl,hok⟩

theorem Writable.has {q : ℕ} (hq : q * F.blksize bs < F.size) : F.Has E bs q :=
  h.file.valid q (Nat.lt_of_mul_lt_mul_right (Nat.lt_of_lt_of_le hq h.file.size_le))

theorem Writable.tiles (hend : pos + nbyte.toNat ≤ F.size) (hg : Gapless F bs pos oldblk nbyte) :
    ∃ l, chunks (F.blksize bs) F.size E.fuel pos nbyte.toNat 0 = .ok (l,pos + nbyte.toNat) ∧
      Tiles (F.blksize bs) pos 0 nbyte.toNat l ∧ (∀ ch ∈ l, ch.disp + ch.len ≤ F.blksize bs) ∧
      ∀ ch ∈ l, InUse E bs (F.reach bs s.scache pos nbyte.toNat) F.dev (F.first + ch.blk : ℕ) := by
  have hone : pos % F.blksize bs = 0 ∨ pos % F.blksize bs + nbyte.toNat ≤ F.blksize bs := by
    rcases hg with rfl | hg
    · exact Or.inr (Nat.mod_lt _ h.file.bs_pos).le
    · exact hg.2
  obtain ⟨l,hl,ht⟩ := chunks_tiles h.file.bs_pos hend h.file.size_lt hone
    (Nat.lt_of_le_of_lt ((Nat.sub_le _ _).trans (Nat.le_succ _)) h.fuel)
  obtain ⟨l',p,hl',hok⟩ := h.inside hend
  obtain ⟨rfl,-⟩ := Prod.mk.inj (Except.ok.inj (hl'.symm.trans hl))
  refine ⟨l',hl,ht,fun ch hch => (hok ch hch).1.len_le,fun ch hch => ?_⟩
  exact h.inUse (hok ch hch).1 (hok ch hch).2 (h.has (Nat.lt_of_lt_of_le (ht.start_lt hch) hend))

theorem Writable.read_exact (hend : pos + nbyte.toNat ≤ F.size) (hg : Gapless F bs pos oldblk nbyte) :
    ReadExact E bs F s oldblk fd pos nbyte := by
  obtain ⟨C,L,hc⟩ := h.coherent
  have hd := File.reach_disk hc h.room
  obtain ⟨l,hl,ht,hlen,hin⟩ := h.tiles hend hg
  intro buf
  obtain ⟨_,t,hrun,rfl,c,rfl,-⟩ := (wp_read buf h.file hd h.pos_eq h.pos_le hl hin hlen
    (fun hx => (hg.resolve_left hx).1)).run
  have hmin : min nbyte.toNat (F.size - pos) = nbyte.toNat := by omega
  refine ⟨_,_,c,hmin.symm ▸ hrun,hmin.symm,fun k => ?_⟩
  rw [File.readInto_tiles ht k,hmin]
  by_cases hk : k < nbyte.toNat
  · rw [if_pos (by omega),if_pos hk,Nat.sub_zero]
    exact File.at_view h.file hd (by omega)
  · rw [if_neg (by omega),if_neg hk]

theorem Writable.first_has (hend : pos + nbyte.toNat ≤ F.size) (hx : nbyte ≠ 0) : F.Has E bs (pos / F.blksize bs) := by
  have hx' : nbyte.toNat ≠ 0 := fun h0 => hx (UInt32.toNat_inj.mp h0)
  have := Nat.div_mul_le_self pos (F.blksize bs)
  exact h.has (by omega)

theorem Writable.stale {β : Type} {copy : Ptr → ℕ → ℕ → ℕ → β → K β} {b : β} (hend : pos + nbyte.toNat ≤ F.size)
    (hx : nbyte ≠ 0) (he : oldblk.toInt = (F.first + pos / F.blksize bs : ℕ)) :
    wp (xferLoop E copy fd E.fuel oldblk none nbyte 0 b) (fun _ _ => False) (fun _ => True) s := by
  obtain ⟨fuel,hfuel⟩ := Nat.exists_eq_add_one.mpr (Nat.zero_lt_of_lt h.fuel)
  rw [hfuel,← moved_self h.pos_eq]
  exact xferLoop_stale h.file h.pos_le (h.first_has hend hx) hx he

/-- A transfer that returns at the right position has no gap, or ends with the file. -/
theorem Writable.ends_at {β : Type} {copy : Ptr → ℕ → ℕ → ℕ → β → K β} {b : β} {p : ℕ}
    (hcopy : ∀ sp d n i b c pos, wp (copy sp d n i b) (fun _ t => ∃ c, t = s.moved fd c pos) (fun _ => True)
      (s.moved fd c pos)) (hend : pos + nbyte.toNat ≤ F.size)
    (hl : chunks (F.blksize bs) F.size E.fuel pos nbyte.toNat 0 = .ok (l,p)) (hin : 0 < pos % F.blksize bs)
    (hlong : F.blksize bs < pos % F.blksize bs + nbyte.toNat) :
    wp (xferLoop E copy fd E.fuel oldblk none nbyte 0 b)
      (fun _ t => ∀ c, t = s.moved fd c (pos + nbyte.toNat) → p = pos + nbyte.toNat) (fun _ => True) s := by
  have hp := chunks_gap_pos h.file.bs_pos (Nat.lt_of_le_of_lt (bs.supported _) (by decide)) hend h.file.size_lt hin
    hlong hl
  have hs := h.file.size_lt
  have hloop : wp (xferLoop E copy fd E.fuel oldblk none nbyte 0 b) (fun _ t => ∃ c, t = s.moved fd c p)
      (fun _ => True) (s.moved fd s.scache pos) := xferLoop_pos h.file hcopy hl h.pos_le
  rw [moved_self h.pos_eq] at hloop
  refine hloop.mono ?_ (fun _ _ => id)
  rintro _ _ - ⟨c,rfl⟩ c' he
  exact moved_inj he (by split at hp <;> omega) (by omega)

theorem Writable.read_count (hr : ReadExact E bs F s oldblk fd pos nbyte) : pos + nbyte.toNat ≤ F.size := by
  obtain ⟨r,b,c,hrun,hcnt,-⟩ := hr (fun _ => 0)
  have hwp : wp (read E oldblk fd (fun _ => 0) nbyte) (fun r _ => r.1 = nbyte) (fun _ => True) s := by
    rw [read,wp_bind]
    exact wp_true.mono (fun _ _ _ _ => rfl) (fun _ _ => id)
  rw [show r = nbyte from hwp.of_run hrun] at hcnt
  have := h.pos_le
  omega

theorem Writable.read_not_stale (hend : pos + nbyte.toNat ≤ F.size) (hx : nbyte ≠ 0)
    (hr : ReadExact E bs F s oldblk fd pos nbyte) : oldblk.toInt ≠ (F.first + pos / F.blksize bs : ℕ) := by
  intro he
  obtain ⟨r,b,c,hrun,-⟩ := hr (fun _ => 0)
  have hwp : wp (read E oldblk fd (fun _ => 0) nbyte) (fun _ _ => False) (fun _ => True) s := by
    rw [read,wp_bind]
    exact h.stale hend hx he
  exact hwp.of_run hrun

theorem Writable.read_pos {p : ℕ} (hend : pos + nbyte.toNat ≤ F.size)
    (hl : chunks (F.blksize bs) F.size E.fuel pos nbyte.toNat 0 = .ok (l,p)) (hin : 0 < pos % F.blksize bs)
    (hlong : F.blksize bs < pos % F.blksize bs + nbyte.toNat)
    (hr : ReadExact E bs F s oldblk fd pos nbyte) : p = pos + nbyte.toNat := by
  obtain ⟨r,b,c,hrun,-⟩ := hr (fun _ => 0)
  have hcopy : ∀ sp d n i b c pos, wp (readCopy sp d n i b) (fun _ t => ∃ c, t = s.moved fd c pos) (fun _ => True)
      (s.moved fd c pos) := by
    intro sp d n i b c pos
    cases sp with
    | none => trivial
    | some j => exact ⟨c,rfl⟩
  have hwp : wp (read E oldblk fd (fun _ => 0) nbyte)
      (fun _ t => ∀ c, t = s.moved fd c (pos + nbyte.toNat) → p = pos + nbyte.toNat) (fun _ => True) s := by
    rw [read,wp_bind]
    exact h.ends_at hcopy hend hl hin hlong
  rw [Nat.min_eq_left (by omega)] at hrun
  exact hwp.of_run hrun c rfl

/-- A transfer with a gap that ends at the right position: the last two blocks of the file. -/
theorem Writable.gap (hend : pos + nbyte.toNat ≤ F.size) (hin : 0 < pos % F.blksize bs)
    (hlong : F.blksize bs < pos % F.blksize bs + nbyte.toNat)
    (hl : chunks (F.blksize bs) F.size E.fuel pos nbyte.toNat 0 = .ok (l,pos + nbyte.toNat)) :
    nbyte.toNat < F.blksize bs ∧
      l = [⟨pos / F.blksize bs,pos % F.blksize bs,F.blksize bs - pos % F.blksize bs,0⟩,
        ⟨pos / F.blksize bs + 1,0,F.blksize bs,F.blksize bs⟩] ∧
      ∀ ch ∈ l, InUse E bs (F.reach bs s.scache pos nbyte.toNat) F.dev (F.first + ch.blk : ℕ) := by
  have hlt : F.blksize bs < 2 ^ 31 := Nat.lt_of_le_of_lt (bs.supported _) (by decide)
  obtain ⟨hshort,hsize⟩ := chunks_gap_end h.file.bs_pos hlt hend h.file.size_lt hin hlong hl
  have htwo := chunks_gap_two h.file.bs_pos hlt hsize h.file.size_lt hlong hshort
    (Nat.le_of_lt (Nat.lt_of_le_of_lt (Nat.le_add_left _ _) h.fuel))
  obtain ⟨l',p,hl',hok⟩ := h.inside hend
  obtain ⟨rfl,-⟩ := Prod.mk.inj (Except.ok.inj (hl'.symm.trans hl))
  obtain ⟨rfl,-⟩ := Prod.mk.inj (Except.ok.inj (hl.symm.trans htwo))
  refine ⟨hshort,rfl,fun ch hch => h.inUse (hok ch hch).1 (hok ch hch).2 (h.has ?_)⟩
  have hpos := Nat.div_add_mod' pos (F.blksize bs)
  have hnext : (pos / F.blksize bs + 1) * F.blksize bs = _ := Nat.succ_mul (pos / F.blksize bs) (F.blksize bs)
  rcases List.mem_pair.mp hch with rfl | rfl
  · dsimp only
    omega
  · dsimp only
    omega

theorem Writable.read_gapless (hr : ReadExact E bs F s oldblk fd pos nbyte) : Gapless F bs pos oldblk nbyte := by
  by_cases hx : nbyte = 0
  · exact Or.inl hx
  have hend := h.read_count hr
  have hold := h.read_not_stale hend hx hr
  refine Or.inr ⟨hold,?_⟩
  by_contra hgap
  have hin : 0 < pos % F.blksize bs := by omega
  have hlong : F.blksize bs < pos % F.blksize bs + nbyte.toNat := by omega
  obtain ⟨l,p,hl,hok⟩ := h.inside hend
  obtain rfl := h.read_pos hend hl hin hlong hr
  obtain ⟨hshort,rfl,huse⟩ := h.gap hend hin hlong hl
  obtain ⟨C,L,hc⟩ := h.coherent
  -- the byte behind the first piece keeps its value, which is not that of the file
  have hne : F.byte bs s (pos + (F.blksize bs - pos % F.blksize bs)) + 1 ≠
      F.byte bs s (pos + (F.blksize bs - pos % F.blksize bs)) := by
    simp
  generalize F.byte bs s (pos + (F.blksize bs - pos % F.blksize bs)) + 1 = v at hne
  obtain ⟨_,t,hrun,rfl,-⟩ := (wp_read (fun _ => v) h.file (File.reach_disk hc h.room) h.pos_eq h.pos_le hl huse
    (fun ch hch => (hok ch hch).1.len_le) (fun _ => hold)).run
  obtain ⟨r,b,c,hrun',-,hb⟩ := hr (fun _ => v)
  obtain ⟨-,rfl⟩ := Prod.mk.inj (Except.ok.inj (Prod.mk.inj (hrun'.symm.trans hrun)).1)
  have hmod := Nat.mod_lt pos h.file.bs_pos
  have hk := hb (F.blksize bs - pos % F.blksize bs)
  rw [if_pos (by omega),File.readInto,List.foldl_cons,List.foldl_cons,List.foldl_nil,
    put_frame (Or.inl (Nat.sub_lt h.file.bs_pos hin)),put_frame (Or.inr (by simp))] at hk
  exact hne hk

end

/-- Exactly the reads inside the file that start at a block boundary or stay inside one block,
with no value in `oldblk` that is taken for the first block, store the bytes of the file. -/
theorem read_exact_iff (h : Writable E bs F s fd pos nbyte.toNat) :
    ReadExact E bs F s oldblk fd pos nbyte ↔ pos + nbyte.toNat ≤ F.size ∧ Gapless F bs pos oldblk nbyte :=
  ⟨fun hr => ⟨h.read_count hr,h.read_gapless hr⟩,fun hg => h.read_exact hg.1 hg.2⟩

/-- A whole file is read. -/
theorem read_exact_whole : Gapless (twoFile 0) sectorSizes 0 0 512 ∧
    ReadExact twoFilesEnv sectorSizes (twoFile 0) (twoFiles 0) 0 0 0 512 := by
  have hg : Gapless (twoFile 0) sectorSizes 0 0 512 := Or.inr ⟨by decide,Or.inl rfl⟩
  exact ⟨hg,(read_exact_iff (twoFiles_writable rfl (by decide) (by decide))).mpr ⟨by decide,hg⟩⟩

/-- A read at the end of the first file returns 1 and stores a byte of the second one. -/
theorem read_past_end : Writable twoFilesEnv sectorSizes (twoFile 0) (twoFiles 512) 0 512 1 ∧ (twoFile 0).size = 512 ∧
    ((read twoFilesEnv 0 0 (fun _ => 1) 1).run (twoFiles 512)).1.toOption.map (fun r => (r.1,r.2 0)) = some (1,0) :=
  ⟨twoFiles_writable rfl (by decide) (by decide),rfl,by decide +kernel⟩

end Micron.Filesys

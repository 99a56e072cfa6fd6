import Micron.Filesys.Access
import Micron.Filesys.Vfs

/-! # The pieces of a transfer

`read` and `write` move the bytes between the caller and the cache block by block. Which
bytes of which blocks they move depends on the block size, the file size, the position
and the count only. The remaining count is reduced by a whole block even where the first
piece is shorter, so it can wrap around, and the end of the file is tested after a piece
has been moved.
-/
namespace Micron.Filesys
open Function Kernel Scache Prog

/-- `len` bytes at `disp` of block `blk` of the file, to or from place `src` of the
caller's buffer. -/
structure Chunk where
  blk : ℕ
  disp : ℕ
  len : ℕ
  src : ℕ

/-- The pieces moved from position `pos` on with count `xfer`, and the final position. -/
def chunks (bs size : ℕ) : ℕ → ℕ → ℕ → ℕ → Except Stop (List Chunk × ℕ)
  | 0, _, _, _ => .error .hang
  | fuel + 1, pos, xfer, i =>
    let disp := pos % bs
    if xfer = 0 then .ok ([],pos)
    else if bs < (xfer + disp) % 2 ^ 32 then
      if size < pos + (bs - disp) then .ok ([⟨pos / bs,disp,bs - disp,i⟩],size)
      else (chunks bs size fuel (pos + (bs - disp)) ((xfer + 2 ^ 32 - bs) % 2 ^ 32) ((i + bs) % 2 ^ 32)).map
        (fun r => (⟨pos / bs,disp,bs - disp,i⟩ :: r.1,r.2))
    -- a count that wraps around the sum does not fit into the buffer of the block
    else if bs < disp + xfer then .error .fault
    else .ok ([⟨pos / bs,disp,xfer,i⟩],if size < pos + xfer then size else pos + xfer)

section Pieces
variable {bs size nblk q xfer i fuel pos : ℕ}

structure Chunk.Ok (bs size q : ℕ) (c : Chunk) : Prop where
  le_blk : q ≤ c.blk
  start_le : c.blk * bs ≤ size
  len_pos : 0 < c.len
  len_le : c.disp + c.len ≤ bs

theorem block_cases (bs q n : ℕ) : q < n ∧ q * bs + bs ≤ n * bs ∨ n ≤ q ∧ n * bs ≤ q * bs := by
  rcases Nat.lt_or_ge q n with h | h
  · exact Or.inl ⟨h,by rw [← Nat.succ_mul]; exact Nat.mul_le_mul_right bs h⟩
  · exact Or.inr ⟨h,Nat.mul_le_mul_right bs h⟩

theorem sub_wrap {a b : ℕ} (ha : a < 2 ^ 32) (hb : b ≤ a) : (a + 2 ^ 32 - b) % 2 ^ 32 = a - b := by
  rw [show a + 2 ^ 32 - b = (a - b) + 2 ^ 32 by omega,Nat.add_mod_right]
  exact Nat.mod_eq_of_lt (by omega)

/-- A transfer that starts at a block boundary ends, and stays inside the first `nblk` blocks
unless the file fills them and the count goes beyond. -/
theorem chunks_aligned (hbs : 0 < bs) (hbs' : bs < 2 ^ 32) (hq : q * bs ≤ size) (hs : size ≤ nblk * bs)
    (hx : xfer < 2 ^ 32) (hfuel : size / bs + 1 - q < fuel) :
    ∃ l p, chunks bs size fuel (q * bs) xfer i = .ok (l,p) ∧
      ((∀ c ∈ l, c.blk < nblk) ↔ xfer = 0 ∨ size < nblk * bs ∨ q * bs + xfer ≤ nblk * bs) ∧
      (∀ c ∈ l, c.Ok bs size q ∧ (c.blk - q) * bs < xfer) := by
  induction fuel generalizing q xfer i with
  | zero => omega
  | succ fuel ih =>
    have hmod : q * bs % bs = 0 := Nat.mul_mod_left q bs
    have hdiv : q * bs / bs = q := Nat.mul_div_cancel q hbs
    have hcase := block_cases bs q nblk
    unfold chunks
    dsimp only
    rw [hmod,hdiv,Nat.add_zero,Nat.mod_eq_of_lt hx,Nat.sub_zero,Nat.zero_add]
    by_cases h0 : xfer = 0
    · rw [if_pos h0]
      exact ⟨[],_,rfl,by simp [h0],by simp⟩
    · rw [if_neg h0]
      have hself : (⟨q,0,min xfer bs,i⟩ : Chunk).Ok bs size q := ⟨le_rfl,hq,by simp; omega,by simp⟩
      by_cases hlong : bs < xfer
      · rw [if_pos hlong]
        rw [Nat.min_eq_right (by omega)] at hself
        by_cases hend : size < q * bs + bs
        · -- the end of the file is inside this block
          rw [if_pos hend]
          refine ⟨_,_,rfl,?_,?_⟩
          · simp only [List.mem_singleton,forall_eq]
            omega
          · simp only [List.mem_singleton,forall_eq]
            exact ⟨hself,by simp; omega⟩
        · rw [if_neg hend,← Nat.succ_mul,sub_wrap hx (by omega)]
          have hnext : (q + 1) * bs = q * bs + bs := Nat.succ_mul q bs
          have hq' : (q + 1) * bs ≤ size := by omega
          have hlt : q < size / bs := (Nat.le_div_iff_mul_le hbs).mpr hq'
          obtain ⟨l,p,hl,hiff,hok⟩ := ih (i := (i + bs) % 2 ^ 32) hq' (by omega : xfer - bs < 2 ^ 32) (by omega)
          refine ⟨_,p,by rw [hl]; rfl,?_,?_⟩
          · rw [List.forall_mem_cons,hiff]
            dsimp only
            omega
          · intro c hc
            rcases List.mem_cons.mp hc with rfl | hc
            · exact ⟨hself,by simp; omega⟩
            · obtain ⟨hok',hlt'⟩ := hok c hc
              have hle := hok'.le_blk
              refine ⟨⟨by omega,hok'.start_le,hok'.len_pos,hok'.len_le⟩,?_⟩
              have : (c.blk - q) * bs = (c.blk - (q + 1)) * bs + bs := by
                rw [← Nat.succ_mul]
                congr 1
                omega
              omega
      · rw [if_neg hlong,if_neg hlong]
        rw [Nat.min_eq_left (by omega)] at hself
        refine ⟨_,_,rfl,?_,?_⟩
        · simp only [List.mem_singleton,forall_eq]
          omega
        · simp only [List.mem_singleton,forall_eq]
          exact ⟨hself,by simp; omega⟩

/-- The transfers that stay inside the `nblk` blocks of the file: a count that does not wrap
around and either a file that leaves room in its last block, or a piece of one block before
the end, or whole blocks up to the end. -/
def Stays (bs size nblk pos xfer : ℕ) : Prop :=
  pos % bs + xfer < 2 ^ 32 ∧ (size < nblk * bs ∨ pos < size ∧
    (pos % bs + xfer ≤ bs ∨ bs ≤ xfer ∧ xfer ≤ size - pos / bs * bs))

def touched (bs size pos xfer : ℕ) : ℕ :=
  if xfer = 0 then 0
  else if pos % bs + xfer ≤ bs then 1
  else if xfer < bs then size / bs + 1 - pos / bs
  else min ((xfer + bs - 1) / bs) (size / bs + 1 - pos / bs)

theorem lt_touched {b : ℕ} (hbs : 0 < bs) (hx : xfer ≠ 0) (hb : pos / bs ≤ b) (hend : b * bs ≤ size)
    (hone : pos % bs + xfer ≤ bs → b = pos / bs) (hlen : bs ≤ xfer → (b - pos / bs) * bs < xfer) :
    b < pos / bs + touched bs size pos xfer := by
  have hle : b ≤ size / bs := (Nat.le_div_iff_mul_le hbs).mpr hend
  unfold touched
  rw [if_neg hx]
  split
  · omega
  · split
    · omega
    · have hlt := hlen (by omega)
      have : b - pos / bs + 1 ≤ (xfer + bs - 1) / bs := by
        rw [Nat.le_div_iff_mul_le hbs,Nat.succ_mul]
        omega
      omega

theorem chunks_spec (hbs : 0 < bs) (hbs' : bs < 2 ^ 31) (hp : pos ≤ size) (hs : size ≤ nblk * bs)
    (hs' : size < 2 ^ 31) (hw : pos % bs + xfer < 2 ^ 32) (hfuel : size / bs + 2 - pos / bs < fuel) :
    ∃ l p, chunks bs size fuel pos xfer i = .ok (l,p) ∧
      ((∀ c ∈ l, c.blk < nblk) ↔ xfer = 0 ∨ Stays bs size nblk pos xfer) ∧
      (∀ c ∈ l, c.Ok bs size (pos / bs) ∧ c.blk < pos / bs + touched bs size pos xfer) := by
  obtain ⟨fuel,rfl⟩ : ∃ f, fuel = f + 1 := ⟨fuel - 1,by omega⟩
  have hd := Nat.mod_lt pos hbs
  have hpos : pos / bs * bs + pos % bs = pos := Nat.div_add_mod' pos bs
  have hcase := block_cases bs (pos / bs) nblk
  have hq : pos / bs ≤ size / bs := Nat.div_le_div_right hp
  unfold chunks Stays
  dsimp only
  by_cases h0 : xfer = 0
  · rw [if_pos h0]
    exact ⟨[],_,rfl,by simp [h0],by simp⟩
  rw [if_neg h0,Nat.mod_eq_of_lt (by omega : xfer + pos % bs < 2 ^ 32)]
  have hfirst : pos / bs < pos / bs + touched bs size pos xfer :=
    lt_touched hbs h0 le_rfl (by omega) (fun _ => rfl) (fun _ => by rw [Nat.sub_self,Nat.zero_mul]; omega)
  by_cases hlong : bs < xfer + pos % bs
  · rw [if_pos hlong]
    have hself : (⟨pos / bs,pos % bs,bs - pos % bs,i⟩ : Chunk).Ok bs size (pos / bs) :=
      ⟨le_rfl,by dsimp only; omega,by dsimp only; omega,by dsimp only; omega⟩
    by_cases hend : size < pos + (bs - pos % bs)
    · rw [if_pos hend]
      refine ⟨_,_,rfl,?_,?_⟩
      · simp only [List.mem_singleton,forall_eq]
        omega
      · simp only [List.mem_singleton,forall_eq]
        exact ⟨hself,hfirst⟩
    · rw [if_neg hend]
      have hnext : (pos / bs + 1) * bs = pos / bs * bs + bs := Nat.succ_mul _ bs
      have hstep : pos + (bs - pos % bs) = (pos / bs + 1) * bs := by omega
      have hq' : (pos / bs + 1) * bs ≤ size := by omega
      have hlt : pos / bs < size / bs := (Nat.le_div_iff_mul_le hbs).mpr hq'
      -- a count below the block size wraps around to one that no file reaches
      have hrest : (xfer + 2 ^ 32 - bs) % 2 ^ 32 = if bs ≤ xfer then xfer - bs else xfer + 2 ^ 32 - bs := by
        split
        · exact sub_wrap (by omega) ‹_›
        · exact Nat.mod_eq_of_lt (by omega)
      obtain ⟨l,p,hl,hiff,hok⟩ := chunks_aligned (i := (i + bs) % 2 ^ 32) hbs (by omega) hq' hs
        (show (xfer + 2 ^ 32 - bs) % 2 ^ 32 < 2 ^ 32 from Nat.mod_lt _ (by decide))
        (show size / bs + 1 - (pos / bs + 1) < fuel by omega)
      rw [hstep]
      refine ⟨_,p,by rw [hl]; rfl,?_,?_⟩
      · rw [List.forall_mem_cons,hiff,hrest]
        dsimp only
        split <;> omega
      · intro c hc
        rcases List.mem_cons.mp hc with rfl | hc
        · exact ⟨hself,hfirst⟩
        · obtain ⟨hok',hlt'⟩ := hok c hc
          have hle := hok'.le_blk
          refine ⟨⟨by omega,hok'.start_le,hok'.len_pos,hok'.len_le⟩,?_⟩
          refine lt_touched hbs h0 (by omega) hok'.start_le (by omega) (fun hge => ?_)
          rw [hrest,if_pos hge] at hlt'
          have : (c.blk - pos / bs) * bs = (c.blk - (pos / bs + 1)) * bs + bs := by
            rw [← Nat.succ_mul]
            congr 1
            omega
          omega
  · rw [if_neg hlong,if_neg (by omega)]
    refine ⟨_,_,rfl,?_,?_⟩
    · simp only [List.mem_singleton,forall_eq]
      omega
    · simp only [List.mem_singleton,forall_eq]
      exact ⟨⟨le_rfl,by dsimp only; omega,by dsimp only; omega,by dsimp only; omega⟩,hfirst⟩

end Pieces

/-! ## The loop over the pieces -/

structure File where
  dev : UInt32
  mnt : ℕ
  first : ℕ
  nblk : ℕ
  size : ℕ

variable {E : Env} {bs : BlkSizes} {F : File} {s : State} {fd pos : ℕ} {X : State → Prop}

def File.blksize (F : File) (bs : BlkSizes) : ℕ := bs.size F.dev.toNat

def File.Has (F : File) (E : Env) (bs : BlkSizes) (q : ℕ) : Prop :=
  (bs.request F.dev.toNat (F.first + q : ℕ)).Valid E.devs

/-- Descriptor `fd` is open on file `F` of a mounted device. -/
structure File.At (E : Env) (bs : BlkSizes) (F : File) (s : State) (fd : ℕ) : Prop where
  fd_lt : fd < NMXOFILE
  isNode : (s.ofile fd).node.isNode
  mount : (s.ofile fd).mount = some F.mnt
  fs : (s.mountab F.mnt).fs = some .MFS
  usable : Usable E bs F.dev (s.mountab F.mnt).blksize
  bs_pos : 0 < F.blksize bs
  dev : (s.vnode (s.ofile fd).node).dev = F.dev
  size : (s.vnode (s.ofile fd).node).size.toNat = F.size
  blocks : (s.vnode (s.ofile fd).node).blocks.toInt = F.nblk
  first : ∃ m n : ℕ, (s.vnode (s.ofile fd).node).blkentry.toInt = m ∧
    (s.mountab F.mnt).super.dblk.toInt = n ∧ F.first = m + n
  first_pos : 0 < F.first
  size_le : F.size ≤ F.nblk * F.blksize bs
  size_lt : F.size < 2 ^ 31
  valid : ∀ q < F.nblk, F.Has E bs q

def State.moved (s : State) (fd : ℕ) (c : Scache) (p : ℕ) : State :=
  { s with scache := c, ofile := update s.ofile fd { s.ofile fd with pos := .ofNat p } }

theorem moved_self (h : (s.ofile fd).pos.toInt = pos) : s.moved fd s.scache pos = s := by
  have hpos : Int32.ofNat pos = (s.ofile fd).pos := by
    apply Int32.toInt_inj.mp
    rw [h,Int32.toInt_ofNat_of_lt]
    have := (s.ofile fd).pos.toInt_lt
    omega
  rw [State.moved,hpos]
  simp

def State.blkAt (s : State) (fd : ℕ) (m : Mountab) (pos : ℕ) : Int32 :=
  Int32.ofNat pos / m.blksize + (s.vnode (s.ofile fd).node).blkentry + mfsDaddr m.super

theorem wp_fileBlk {Q : Int32 → State → Prop} {c : Scache} (h : F.At E bs s fd) :
    wp (fileBlk { s.ofile fd with pos := .ofNat pos }) Q X (s.moved fd c pos) ↔
      Q (s.blkAt fd (s.mountab F.mnt) pos) (s.moved fd c pos) := by
  have hne : (s.mountab F.mnt).blksize ≠ 0 := by
    intro h0
    have hsz := h.usable.size_eq
    rw [h0,Int32.toInt_zero] at hsz
    exact Nat.ne_of_gt h.bs_pos (Int.natCast_inj.mp hsz).symm
  simp only [State.moved,fileBlk,wp_bind,h.mount,wp_mount,if_neg hne,wp_vnode h.isNode,h.fs,fsCall,
    wp_pure,State.blkAt]

namespace File.At
variable (h : F.At E bs s fd)
include h

theorem toInt_pos (hp : pos ≤ F.size) : (Int32.ofNat pos).toInt = pos :=
  Int32.toInt_ofNat_of_lt (Nat.lt_of_le_of_lt hp h.size_lt)

theorem blk_eq (hp : pos ≤ F.size) (hv : F.Has E bs (pos / F.blksize bs)) :
    (s.blkAt fd (s.mountab F.mnt) pos).toInt = (F.first + pos / F.blksize bs : ℕ) := by
  obtain ⟨m,n,hm,hn,hfirst⟩ := h.first
  have hlt := valid_lt hv h.bs_pos
  have hdiv := Machine.toInt_div (h.toInt_pos hp) h.usable.size_eq
  have hsum := Machine.toInt_add hdiv hm (by change pos / F.blksize bs + m < _; omega)
  rw [State.blkAt,mfsDaddr,Machine.toInt_add hsum hn (by change pos / F.blksize bs + m + n < _; omega)]
  change ((pos / F.blksize bs + m + n : ℕ) : ℤ) = _
  omega

theorem disp_eq (hp : pos ≤ F.size) :
    (Int32.ofNat pos % (s.mountab F.mnt).blksize).toInt = (pos % F.blksize bs : ℕ) :=
  Machine.toInt_mod (h.toInt_pos hp) h.usable.size_eq

theorem blksize_eq : (s.mountab F.mnt).blksize.toUInt32.toNat = F.blksize bs :=
  Machine.toNat_toUInt32 h.usable.size_eq

theorem long_iff (hp : pos ≤ F.size) (xfer : UInt32) :
    (s.mountab F.mnt).blksize.toUInt32 < xfer + (Int32.ofNat pos % (s.mountab F.mnt).blksize).toUInt32 ↔
      F.blksize bs < (xfer.toNat + pos % F.blksize bs) % 2 ^ 32 := by
  rw [UInt32.lt_iff_toNat_lt,h.blksize_eq,UInt32.toNat_add,Machine.toNat_toUInt32 (h.disp_eq hp)]

theorem rest_eq (hp : pos ≤ F.size) :
    ((s.mountab F.mnt).blksize - Int32.ofNat pos % (s.mountab F.mnt).blksize).toUInt32.toNat =
      F.blksize bs - pos % F.blksize bs :=
  Machine.toNat_toUInt32 (Machine.toInt_sub h.usable.size_eq (h.disp_eq hp)
    (Nat.le_of_lt (Nat.mod_lt _ h.bs_pos)))

end File.At

@[simp] theorem moved_pos {c : Scache} : ((s.moved fd c pos).ofile fd).pos = .ofNat pos := by simp [State.moved]

theorem wp_setPos {Q : Unit → State → Prop} {c : Scache} {g : Ofile → Int32} (p : ℕ) (hfd : fd < NMXOFILE)
    (hg : g { s.ofile fd with pos := .ofNat pos } = .ofNat p) :
    wp (setOfile fd (fun f => { f with pos := g f })) Q X (s.moved fd c pos) ↔ Q () (s.moved fd c p) := by
  rw [wp_setOfile hfd]
  simp [State.moved,hg]

variable {β : Type} {copy : Ptr → ℕ → ℕ → ℕ → β → K β} {b : β} {c : Scache}

theorem wp_xferMove {Q : β × Bool → State → Prop} {R : β → Scache → Prop} {size n i : UInt32} {disp : Int32} {d : ℕ}
    {sp : Ptr} {t : State} (hfd : fd < NMXOFILE) (hd : disp.toInt = d) (hn : d + n.toNat ≤ NMXBLKSZ) 
    (hpos : pos + n.toNat < 2 ^ 32)
    (hcopy : wp (copy sp d n.toNat i.toNat b) (fun b t => ∃ c, t = s.moved fd c pos ∧ R b c) X t)
    (hQ : ∀ b c, R b c → if size.toNat < pos + n.toNat then Q (b,true) (s.moved fd c size.toNat)
      else Q (b,false) (s.moved fd c (pos + n.toNat))) :
    wp (xferMove copy fd size sp disp n i b) Q X t := by
  have hbound : ¬ (disp < 0 ∨ NMXBLKSZ < disp.toNatClampNeg + n.toNat) := by
    rw [Machine.toNatClampNeg_eq hd]
    rintro (h0 | h1)
    · exact Machine.not_neg hd h0
    · omega
  have hsum : Int32.ofNat pos + n.toInt32 = .ofNat (pos + n.toNat) := by rw [Machine.toInt32_eq,Int32.ofNat_add]
  have hend : size < (Int32.ofNat (pos + n.toNat)).toUInt32 ↔ size.toNat < pos + n.toNat := by
    rw [← hsum,UInt32.lt_iff_toNat_lt,Machine.toNat_add_toInt32 hpos]
  rw [xferMove,if_neg hbound,Machine.toNatClampNeg_eq hd,wp_bind]
  refine hcopy.mono ?_ (fun _ _ => id)
  rintro b t - ⟨c,rfl,hR⟩
  have hq := hQ b c hR
  rw [wp_bind,wp_setPos (pos + n.toNat) hfd hsum,wp_bind,wp_ofile hfd,moved_pos]
  simp only [hend]
  split at hq
  · rename_i hlt
    rw [if_pos hlt,wp_bind,wp_setPos size.toNat hfd (Machine.toInt32_eq size)]
    exact hq
  · rename_i hge
    rw [if_neg hge]
    exact hq

theorem wp_xferBlock {Q : Ptr → State → Prop} {oldblk blk blksize : Int32} {scp : Option Ptr} {dev : UInt32}
    (h : oldblk ≠ blk) :
    wp (xferBlock E oldblk scp dev blk blksize) Q X s ↔ wp (scacheGet E dev blk blksize) Q X s := by
  simp only [xferBlock,ne_eq,h,not_false_eq_true,if_true]

theorem wp_xferHead {Q : β → State → Prop} {fuel : ℕ} {oldblk : Int32} {scp : Option Ptr} {xfer i : UInt32}
    (h : F.At E bs s fd) (hp : pos ≤ F.size) (hx : xfer ≠ 0) :
    wp (xferLoop E copy fd (fuel + 1) oldblk scp xfer i b) Q X (s.moved fd c pos) ↔
      wp (xferBlock E oldblk scp F.dev (s.blkAt fd (s.mountab F.mnt) pos) (s.mountab F.mnt).blksize)
        (fun sp t => if F.blksize bs < (xfer.toNat + pos % F.blksize bs) % 2 ^ 32 then
            wp (xferMove copy fd (s.vnode (s.ofile fd).node).size sp (.ofNat pos % (s.mountab F.mnt).blksize)
              ((s.mountab F.mnt).blksize - .ofNat pos % (s.mountab F.mnt).blksize).toUInt32 i b)
              (fun r t => wp (if r.2 then pure r.1 else xferLoop E copy fd fuel (s.blkAt fd (s.mountab F.mnt) pos)
                (some sp) (xfer - (s.mountab F.mnt).blksize.toUInt32) (i + (s.mountab F.mnt).blksize.toUInt32) r.1)
                Q X t) X t
          else wp (xferMove copy fd (s.vnode (s.ofile fd).node).size sp (.ofNat pos % (s.mountab F.mnt).blksize)
            xfer i b) (fun r t => Q r.1 t) X t) X (s.moved fd c pos) := by
  have hmv : (s.moved fd c pos).ofile fd = { s.ofile fd with pos := .ofNat pos } := update_self ..
  have hmnt : mount (some F.mnt) = mount { s.ofile fd with pos := Int32.ofNat pos }.mount := by rw [h.mount]
  rw [xferLoop,if_neg hx,wp_bind,wp_ofile h.fd_lt,hmv,wp_bind,wp_vnode h.isNode,wp_bind,← hmnt,wp_mount,wp_bind,
    wp_fileBlk h,wp_bind]
  simp only [show (s.moved fd c pos).vnode = s.vnode from rfl,
    show (s.moved fd c pos).mountab = s.mountab from rfl,h.dev,h.long_iff hp]
  by_cases hlong : F.blksize bs < (xfer.toNat + pos % F.blksize bs) % 2 ^ 32
  · simp only [if_pos hlong,wp_bind]
  · simp only [if_neg hlong,wp_bind,wp_pure]

/-- One piece of a transfer: get its block, copy and move the position. -/
theorem wp_piece {Q : Ptr → β × Bool → State → Prop} {R : β → Scache → Prop} {n i : UInt32} {oldblk : Int32}
    {scp : Option Ptr} (h : F.At E bs s fd) (hp : pos ≤ F.size) (hn : pos % F.blksize bs + n.toNat ≤ F.blksize bs)
    (hcopy : wp (xferBlock E oldblk scp F.dev (s.blkAt fd (s.mountab F.mnt) pos) (s.mountab F.mnt).blksize)
      (fun sp t => wp (copy sp (pos % F.blksize bs) n.toNat i.toNat b)
        (fun b t => ∃ c, t = s.moved fd c pos ∧ R b c) X t) X (s.moved fd c pos))
    (hQ : ∀ sp b c, R b c → if F.size < pos + n.toNat then Q sp (b,true) (s.moved fd c F.size)
      else Q sp (b,false) (s.moved fd c (pos + n.toNat))) :
    wp (xferBlock E oldblk scp F.dev (s.blkAt fd (s.mountab F.mnt) pos) (s.mountab F.mnt).blksize)
      (fun sp t => wp (xferMove copy fd (s.vnode (s.ofile fd).node).size sp
        (Int32.ofNat pos % (s.mountab F.mnt).blksize) n i b) (Q sp) X t) X (s.moved fd c pos) := by
  have hsup : F.blksize bs ≤ NMXBLKSZ := bs.supported _
  have hsize := h.size_lt
  have hlt : pos + n.toNat < 2 ^ 32 := by
    have : NMXBLKSZ < 2 ^ 31 := by decide
    omega
  refine hcopy.mono ?_ (fun _ _ => id)
  intro sp t _ ht
  refine wp_xferMove h.fd_lt (h.disp_eq hp) (Nat.le_trans hn hsup) hlt ht ?_
  rw [h.size]
  exact hQ sp

/-- `I done b c` holds of the caller's data and the cache when the pieces `done` have been
moved, and `O oldblk q` of the number kept from the iteration before that of block `q`. -/
theorem wp_xferPieces {I : List Chunk → β → Scache → Prop} {O : Int32 → ℕ → Prop} {l : List Chunk} (done : List Chunk)
    {p fuel : ℕ} {oldblk : Int32} {scp : Option Ptr} {xfer i : UInt32} (h : F.At E bs s fd)
    (hpiece : ∀ ch ∈ l, ∀ done b c pos oldblk scp, I done b c → pos ≤ F.size → pos / F.blksize bs = ch.blk →
      O oldblk ch.blk →
      wp (xferBlock E oldblk scp F.dev (s.blkAt fd (s.mountab F.mnt) pos) (s.mountab F.mnt).blksize)
        (fun sp t => wp (copy sp ch.disp ch.len ch.src b)
          (fun b t => ∃ c, t = s.moved fd c pos ∧ I (done ++ [ch]) b c) X t) X (s.moved fd c pos))
    (hnext : ∀ ch ∈ l, ∀ pos ≤ F.size, pos / F.blksize bs = ch.blk →
      O (s.blkAt fd (s.mountab F.mnt) pos) (ch.blk + 1))
    (hc : chunks (F.blksize bs) F.size fuel pos xfer.toNat i.toNat = .ok (l,p)) (hp : pos ≤ F.size)
    (hold : xfer ≠ 0 → O oldblk (pos / F.blksize bs)) (hI : I done b c) :
    wp (xferLoop E copy fd fuel oldblk scp xfer i b)
      (fun b t => ∃ c, t = s.moved fd c p ∧ I (done ++ l) b c) X (s.moved fd c pos) := by
  induction fuel generalizing l done oldblk scp xfer i b c pos with
  | zero => cases hc
  | succ fuel ih =>
    unfold chunks at hc
    dsimp only at hc
    by_cases hx : xfer = 0
    · rw [xferLoop,if_pos hx]
      rw [if_pos (show xfer.toNat = 0 by rw [hx]; rfl)] at hc
      obtain ⟨rfl,rfl⟩ := Prod.mk.inj (Except.ok.inj hc)
      exact ⟨c,rfl,by rwa [List.append_nil]⟩
    · rw [if_neg (show ¬ xfer.toNat = 0 from fun h0 => hx (UInt32.toNat_inj.mp h0))] at hc
      rw [wp_xferHead h hp hx]
      have hmod := Nat.mod_lt pos h.bs_pos
      by_cases hlong : F.blksize bs < (xfer.toNat + pos % F.blksize bs) % 2 ^ 32
      · have hrest := h.rest_eq hp
        generalize ((s.mountab F.mnt).blksize - Int32.ofNat pos % (s.mountab F.mnt).blksize).toUInt32 = n at hrest ⊢
        have hstep : pos + n.toNat = (pos / F.blksize bs + 1) * F.blksize bs := by
          have := Nat.div_add_mod' pos (F.blksize bs)
          rw [Nat.succ_mul]
          omega
        rw [if_pos hlong,← hrest] at hc
        simp only [if_pos hlong]
        by_cases hend : F.size < pos + n.toNat
        · rw [if_pos hend] at hc
          obtain ⟨rfl,rfl⟩ := Prod.mk.inj (Except.ok.inj hc)
          refine wp_piece h hp (by omega)
            (hpiece _ List.mem_cons_self done b c pos oldblk scp hI hp rfl (hold hx)) ?_
          intro sp b c hI
          rw [if_pos hend]
          exact ⟨c,rfl,hI⟩
        · rw [if_neg hend] at hc
          cases hrec : chunks (F.blksize bs) F.size fuel (pos + n.toNat) ((xfer.toNat + 2 ^ 32 - F.blksize bs) % 2 ^ 32)
              ((i.toNat + F.blksize bs) % 2 ^ 32) with
          | error e =>
            rw [hrec] at hc
            cases hc
          | ok r =>
            rw [hrec] at hc
            obtain ⟨rfl,rfl⟩ := Prod.mk.inj (Except.ok.inj hc)
            refine wp_piece h hp (by omega)
              (hpiece _ List.mem_cons_self done b c pos oldblk scp hI hp rfl (hold hx)) ?_
            intro sp b c hI
            rw [if_neg hend,List.append_cons]
            refine ih _ (fun ch hch => hpiece ch (List.mem_cons_of_mem _ hch))
              (fun ch hch => hnext ch (List.mem_cons_of_mem _ hch)) ?_ (by omega) (fun _ => ?_) hI
            · rw [Machine.toNat_sub,UInt32.toNat_add,h.blksize_eq]
              exact hrec
            · rw [hstep,Nat.mul_div_cancel _ h.bs_pos]
              exact hnext _ List.mem_cons_self pos hp rfl
      · rw [if_neg hlong] at hc
        simp only [if_neg hlong]
        by_cases hwrap : F.blksize bs < pos % F.blksize bs + xfer.toNat
        · rw [if_pos hwrap] at hc
          cases hc
        · rw [if_neg hwrap] at hc
          obtain ⟨rfl,rfl⟩ := Prod.mk.inj (Except.ok.inj hc)
          refine wp_piece h hp (by omega)
            (hpiece _ List.mem_cons_self done b c pos oldblk scp hI hp rfl (hold hx)) ?_
          intro sp b c hI
          split
          · exact ⟨c,rfl,hI⟩
          · exact ⟨c,rfl,hI⟩

theorem wp_xferLoop {I : List Chunk → β → Scache → Prop} {l done : List Chunk} {p fuel : ℕ} {oldblk : Int32}
    {scp : Option Ptr} {xfer i : UInt32} (h : F.At E bs s fd)
    (hcopy : ∀ ch ∈ l, ∀ done b c pos (blk : Int32), I done b c → blk.toInt = (F.first + ch.blk : ℕ) →
      wp (scacheGet E F.dev blk (s.mountab F.mnt).blksize) (fun sp t => wp (copy sp ch.disp ch.len ch.src b)
        (fun b t => ∃ c, t = s.moved fd c pos ∧ I (done ++ [ch]) b c) X t) X (s.moved fd c pos))
    (hl : ∀ ch ∈ l, F.Has E bs ch.blk)
    (hc : chunks (F.blksize bs) F.size fuel pos xfer.toNat i.toNat = .ok (l,p)) (hp : pos ≤ F.size)
    (hold : xfer ≠ 0 → oldblk.toInt ≠ (F.first + pos / F.blksize bs : ℕ)) (hI : I done b c) :
    wp (xferLoop E copy fd fuel oldblk scp xfer i b)
      (fun b t => ∃ c, t = s.moved fd c p ∧ I (done ++ l) b c) X (s.moved fd c pos) := by
  refine wp_xferPieces (O := fun o q => o.toInt ≠ (F.first + q : ℕ)) done h ?_ ?_ hc hp hold hI
  · intro ch hch done b c pos oldblk scp hI hp hq hold
    have hblk := h.blk_eq hp (hq.symm ▸ hl ch hch)
    rw [hq] at hblk
    rw [wp_xferBlock (fun he => hold (by rw [he,hblk]))]
    exact hcopy ch hch done b c pos _ hI hblk
  · intro ch hch pos hp hq
    rw [h.blk_eq hp (hq.symm ▸ hl ch hch),hq]
    omega

/-- With the number of the first block in `oldblk`, a pointer that has no value is used. -/
theorem xferLoop_stale {fuel : ℕ} {oldblk : Int32} {xfer i : UInt32} (h : F.At E bs s fd) (hp : pos ≤ F.size)
    (hb : F.Has E bs (pos / F.blksize bs)) (hx : xfer ≠ 0)
    (hold : oldblk.toInt = (F.first + pos / F.blksize bs : ℕ)) :
    wp (xferLoop E copy fd (fuel + 1) oldblk none xfer i b) (fun _ _ => False) (fun _ => True)
      (s.moved fd c pos) := by
  have he : oldblk = s.blkAt fd (s.mountab F.mnt) pos := Int32.toInt_inj.mp (by rw [hold,h.blk_eq hp hb])
  rw [wp_xferHead h hp hx]
  simp only [xferBlock,he,ne_eq,not_true_eq_false,if_false,wp_stop]

/-- A count that wraps around overruns the buffer. -/
theorem xferLoop_wrap {fuel : ℕ} {oldblk : Int32} {scp : Option Ptr} {xfer i : UInt32} (h : F.At E bs s fd)
    (hp : pos ≤ F.size) (hw : 2 ^ 32 ≤ pos % F.blksize bs + xfer.toNat) :
    wp (xferLoop E copy fd (fuel + 1) oldblk scp xfer i b) (fun _ _ => False) (fun _ => True)
      (s.moved fd c pos) := by
  have hmod := Nat.mod_lt pos h.bs_pos
  have hsup : F.blksize bs ≤ NMXBLKSZ := bs.supported _
  have hmax : NMXBLKSZ < 2 ^ 31 := by decide
  have hlt := xfer.toNat_lt
  have hx : xfer ≠ 0 := by
    rintro rfl
    have : (0 : UInt32).toNat = 0 := rfl
    omega
  have hshort : ¬ F.blksize bs < (xfer.toNat + pos % F.blksize bs) % 2 ^ 32 := by
    rw [Nat.mod_eq_sub_mod (by omega),Nat.mod_eq_of_lt (by omega)]
    omega
  rw [wp_xferHead h hp hx]
  refine wp_true.mono ?_ (fun _ _ => id)
  intro sp t _ _
  rw [if_neg hshort,xferMove,if_pos]
  · trivial
  · rw [Machine.toNatClampNeg_eq (h.disp_eq hp)]
    omega

end Micron.Filesys

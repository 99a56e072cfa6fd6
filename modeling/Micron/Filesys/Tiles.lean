import Micron.Filesys.Transfer

/-! # Transfers without gaps

A transfer inside a file that starts at a block boundary, or that stays inside one block,
moves its bytes in consecutive pieces. Any other one skips a part of the caller's buffer,
and ends at another position or goes on to the end of the file.
-/
namespace Micron.Filesys
open Function Kernel Scache Prog

/-- The pieces `l` move `n` bytes at position `pos` to or from place `i` without a gap. -/
def Tiles (bs : ℕ) : ℕ → ℕ → ℕ → List Chunk → Prop
  | _, _, n, [] => n = 0
  | pos, i, n, ch :: l => ch.blk = pos / bs ∧ ch.disp = pos % bs ∧ ch.src = i ∧ 0 < ch.len ∧ ch.disp + ch.len ≤ bs ∧
      ch.len ≤ n ∧ Tiles bs (pos + ch.len) (i + ch.len) (n - ch.len) l

section
variable {bs size q xfer i fuel pos n p : ℕ} {l : List Chunk}

theorem Tiles.start_lt (ht : Tiles bs pos i n l) {ch : Chunk} (hch : ch ∈ l) : ch.blk * bs < pos + n := by
  induction l generalizing pos i n with
  | nil => cases hch
  | cons ch' l ih =>
    obtain ⟨hblk,-,-,hlen,-,hle,ht⟩ := ht
    rcases List.mem_cons.mp hch with rfl | hch
    · rw [hblk]
      have := Nat.div_mul_le_self pos bs
      omega
    · have := ih ht hch
      omega

/-- Every byte moved is in the block of some piece. -/
theorem Tiles.covers (ht : Tiles bs pos i n l) (hp : pos ≤ p) (hlt : p < pos + n) : ∃ ch ∈ l, ch.blk = p / bs := by
  induction l generalizing pos i n with
  | nil =>
    obtain rfl : n = 0 := ht
    omega
  | cons ch l ih =>
    obtain ⟨hblk,hdisp,-,hlen,hle,-,ht⟩ := ht
    by_cases hlate : pos + ch.len ≤ p
    · obtain ⟨ch',hch,he⟩ := ih ht hlate (by omega)
      exact ⟨ch',List.mem_cons_of_mem _ hch,he⟩
    · have hpos := Nat.div_add_mod' pos bs
      refine ⟨ch,List.mem_cons_self,hblk.trans (Nat.div_eq_of_lt_le (by omega) ?_).symm⟩
      rw [Nat.succ_mul]
      omega

theorem chunks_tiles_aligned (hbs : 0 < bs) (hx : i + xfer < 2 ^ 32) (hend : q * bs + xfer ≤ size)
    (hfuel : size / bs + 1 - q < fuel) :
    ∃ l, chunks bs size fuel (q * bs) xfer i = .ok (l,q * bs + xfer) ∧ Tiles bs (q * bs) i xfer l := by
  induction fuel generalizing q xfer i with
  | zero => omega
  | succ fuel ih =>
    have hmod : q * bs % bs = 0 := Nat.mul_mod_left q bs
    have hdiv : q * bs / bs = q := Nat.mul_div_cancel q hbs
    unfold chunks
    dsimp only
    rw [hmod,hdiv,Nat.add_zero,Nat.mod_eq_of_lt (by omega : xfer < 2 ^ 32),Nat.sub_zero,Nat.zero_add]
    by_cases h0 : xfer = 0
    · rw [if_pos h0,h0]
      exact ⟨[],rfl,rfl⟩
    rw [if_neg h0]
    by_cases hlong : bs < xfer
    · have hnext : (q + 1) * bs = q * bs + bs := Nat.succ_mul q bs
      have hle : (q + 1) * bs ≤ size := by omega
      have hlt : q < size / bs := (Nat.le_div_iff_mul_le hbs).mpr hle
      rw [if_pos hlong,if_neg (by omega),sub_wrap (by omega) (by omega),Nat.mod_eq_of_lt (by omega : i + bs < 2 ^ 32),← hnext]
      obtain ⟨l,hl,ht⟩ := ih (q := q + 1) (i := i + bs) (by omega : i + bs + (xfer - bs) < 2 ^ 32) (by omega) (by omega)
      refine ⟨⟨q,0,bs,i⟩ :: l,?_,hdiv.symm,hmod.symm,rfl,hbs,by simp,by dsimp only; omega,?_⟩
      · rw [hl]
        change Except.ok (_,(q + 1) * bs + (xfer - bs)) = _
        rw [show (q + 1) * bs + (xfer - bs) = q * bs + xfer by omega]
      · dsimp only
        rw [← hnext]
        exact ht
    · rw [if_neg hlong,if_neg hlong,if_neg (by omega)]
      exact ⟨_,rfl,hdiv.symm,hmod.symm,rfl,by dsimp only; omega,by dsimp only; omega,le_rfl,Nat.sub_self _⟩

theorem chunks_tiles (hbs : 0 < bs) (hend : pos + n ≤ size) (hs : size < 2 ^ 31)
    (hsafe : pos % bs = 0 ∨ pos % bs + n ≤ bs) (hfuel : size / bs + 1 - pos / bs < fuel) :
    ∃ l, chunks bs size fuel pos n 0 = .ok (l,pos + n) ∧ Tiles bs pos 0 n l := by
  have hpos : pos / bs * bs + pos % bs = pos := Nat.div_add_mod' pos bs
  rcases hsafe with h0 | hone
  · have heq : pos / bs * bs = pos := by omega
    have htiles := chunks_tiles_aligned (i := 0) hbs (by omega)
      (by omega : pos / bs * bs + n ≤ size) hfuel
    rwa [heq] at htiles
  · obtain ⟨fuel,rfl⟩ : ∃ f, fuel = f + 1 := ⟨fuel - 1,by omega⟩
    unfold chunks
    dsimp only
    by_cases h0 : n = 0
    · rw [if_pos h0,h0]
      exact ⟨[],rfl,rfl⟩
    rw [if_neg h0,Nat.mod_eq_of_lt (by omega : n + pos % bs < 2 ^ 32),if_neg (by omega),if_neg (by omega),if_neg (by omega)]
    exact ⟨_,rfl,rfl,rfl,rfl,by dsimp only; omega,hone,le_rfl,Nat.sub_self _⟩

theorem chunks_aligned_pos (hbs : 0 < bs) (hq : q * bs ≤ size) (hx : xfer < 2 ^ 32)
    (hc : chunks bs size fuel (q * bs) xfer i = .ok (l,p)) : p = min (q * bs + xfer) size := by
  induction fuel generalizing q xfer i l with
  | zero => cases hc
  | succ fuel ih =>
    have hmod : q * bs % bs = 0 := Nat.mul_mod_left q bs
    have hnext : (q + 1) * bs = q * bs + bs := Nat.succ_mul q bs
    unfold chunks at hc
    dsimp only at hc
    rw [hmod,Nat.add_zero,Nat.mod_eq_of_lt hx,Nat.sub_zero,Nat.zero_add] at hc
    by_cases h0 : xfer = 0
    · rw [if_pos h0] at hc
      obtain ⟨-,rfl⟩ := Prod.mk.inj (Except.ok.inj hc)
      omega
    rw [if_neg h0] at hc
    by_cases hlong : bs < xfer
    · rw [if_pos hlong] at hc
      by_cases hend : size < q * bs + bs
      · rw [if_pos hend] at hc
        obtain ⟨-,rfl⟩ := Prod.mk.inj (Except.ok.inj hc)
        omega
      · rw [if_neg hend,sub_wrap hx (by omega),← hnext] at hc
        cases hrec : chunks bs size fuel ((q + 1) * bs) (xfer - bs) ((i + bs) % 2 ^ 32) with
        | error e =>
          rw [hrec] at hc
          cases hc
        | ok r =>
          rw [hrec] at hc
          obtain ⟨-,rfl⟩ := Prod.mk.inj (Except.ok.inj hc)
          rw [ih (by omega) (by omega) hrec]
          omega
    · rw [if_neg hlong,if_neg hlong] at hc
      obtain ⟨-,rfl⟩ := Prod.mk.inj (Except.ok.inj hc)
      split <;> omega

/-- A transfer that starts inside a block and goes beyond its end: it ends too early, or a
count that has wrapped around carries it to the end of the file. -/
theorem chunks_gap_pos (hbs : 0 < bs) (hbs' : bs < 2 ^ 31) (hend : pos + n ≤ size) (hs : size < 2 ^ 31)
    (hin : 0 < pos % bs) (hlong : bs < pos % bs + n) (hc : chunks bs size fuel pos n i = .ok (l,p)) :
    p = if bs ≤ n then pos + n - pos % bs else size := by
  have hpos : pos / bs * bs + pos % bs = pos := Nat.div_add_mod' pos bs
  have hd := Nat.mod_lt pos hbs
  have hnext : (pos / bs + 1) * bs = pos / bs * bs + bs := Nat.succ_mul _ bs
  cases fuel with
  | zero => cases hc
  | succ fuel =>
    unfold chunks at hc
    dsimp only at hc
    rw [if_neg (by omega),Nat.mod_eq_of_lt (by omega : n + pos % bs < 2 ^ 32),if_pos (by omega),if_neg (by omega),
      show pos + (bs - pos % bs) = (pos / bs + 1) * bs by omega] at hc
    cases hrec : chunks bs size fuel ((pos / bs + 1) * bs) ((n + 2 ^ 32 - bs) % 2 ^ 32) ((i + bs) % 2 ^ 32) with
    | error e =>
      rw [hrec] at hc
      cases hc
    | ok r =>
      rw [hrec] at hc
      obtain ⟨-,rfl⟩ := Prod.mk.inj (Except.ok.inj hc)
      rw [chunks_aligned_pos hbs (by omega) (Nat.mod_lt _ (by decide)) hrec]
      by_cases hge : bs ≤ n
      · rw [if_pos hge,sub_wrap (by omega) hge]
        omega
      · rw [if_neg hge,Nat.mod_eq_of_lt (by omega)]
        omega

/-- A transfer with a gap that ends where it should goes through the last two blocks. -/
theorem chunks_gap_end (hbs : 0 < bs) (hbs' : bs < 2 ^ 31) (hend : pos + n ≤ size) (hs : size < 2 ^ 31)
    (hin : 0 < pos % bs) (hlong : bs < pos % bs + n) (hc : chunks bs size fuel pos n i = .ok (l,pos + n)) :
    n < bs ∧ pos + n = size := by
  have hp := chunks_gap_pos hbs hbs' hend hs hin hlong hc
  have := Nat.mod_le pos bs
  split at hp <;> omega

/-- The second of two pieces is taken for a whole block, from the wrong place. -/
theorem chunks_gap_two (hbs : 0 < bs) (hbs' : bs < 2 ^ 31) (hend : pos + n = size) (hs : size < 2 ^ 31)
    (hlong : bs < pos % bs + n) (hshort : n < bs) (hfuel : 2 ≤ fuel) :
    chunks bs size fuel pos n 0 = .ok ([⟨pos / bs,pos % bs,bs - pos % bs,0⟩,⟨pos / bs + 1,0,bs,bs⟩],size) := by
  obtain ⟨fuel,rfl⟩ : ∃ f, fuel = f + 1 + 1 := ⟨fuel - 2,by omega⟩
  have hpos : pos / bs * bs + pos % bs = pos := Nat.div_add_mod' pos bs
  have hd := Nat.mod_lt pos hbs
  have hnext : (pos / bs + 1) * bs = pos / bs * bs + bs := Nat.succ_mul _ bs
  have hmod : (pos / bs + 1) * bs % bs = 0 := Nat.mul_mod_left _ bs
  have hdiv : (pos / bs + 1) * bs / bs = pos / bs + 1 := Nat.mul_div_cancel _ hbs
  unfold chunks
  dsimp only
  rw [if_neg (by omega),Nat.mod_eq_of_lt (by omega : n + pos % bs < 2 ^ 32),if_pos (by omega),if_neg (by omega),
    show pos + (bs - pos % bs) = (pos / bs + 1) * bs by omega]
  unfold chunks
  dsimp only
  rw [hmod,hdiv,Nat.mod_eq_of_lt (by omega : n + 2 ^ 32 - bs < 2 ^ 32),Nat.zero_add,Nat.mod_eq_of_lt (by omega : bs < 2 ^ 32),
    if_neg (by omega),Nat.add_zero,Nat.mod_eq_of_lt (by omega : n + 2 ^ 32 - bs < 2 ^ 32),if_pos (by omega),
    if_pos (by omega)]
  rfl

end

/-! ## Where a transfer ends -/

variable {E : Env} {bs : BlkSizes} {F : File} {s : State} {fd pos : ℕ} {β : Type}
  {copy : Ptr → ℕ → ℕ → ℕ → β → K β} {b : β} {c : Scache}

theorem scacheGet_moved (E : Env) (dev : UInt32) (blk blksize : Int32) :
    wp (scacheGet E dev blk blksize) (fun _ t => ∃ c, t = s.moved fd c pos) (fun _ => True) (s.moved fd c pos) := by
  rw [scacheGet]
  split
  · trivial
  · rw [cached,wp_step]
    cases Scache.scacheGet E.devs dev.toNat blk.toInt blksize.toNatClampNeg (s.moved fd c pos).scache with
    | none => trivial
    | some r => exact ⟨r.2,rfl⟩

/-- Whatever blocks it meets, a transfer that returns ends at the position of its last piece. -/
theorem xferLoop_pos {l : List Chunk} {p fuel : ℕ} {oldblk : Int32} {scp : Option Ptr} {xfer i : UInt32}
    (h : F.At E bs s fd)
    (hcopy : ∀ sp d n i b c pos, wp (copy sp d n i b) (fun _ t => ∃ c, t = s.moved fd c pos) (fun _ => True)
      (s.moved fd c pos))
    (hc : chunks (F.blksize bs) F.size fuel pos xfer.toNat i.toNat = .ok (l,p)) (hp : pos ≤ F.size) :
    wp (xferLoop E copy fd fuel oldblk scp xfer i b) (fun _ t => ∃ c, t = s.moved fd c p) (fun _ => True)
      (s.moved fd c pos) := by
  have hloop : wp (xferLoop E copy fd fuel oldblk scp xfer i b) (fun _ t => ∃ c, t = s.moved fd c p ∧ True)
      (fun _ => True) (s.moved fd c pos) := by
    refine wp_xferPieces (I := fun _ _ _ => True) (O := fun _ _ => True) [] h ?_ (fun _ _ _ _ _ => trivial) hc hp
      (fun _ => trivial) trivial
    intro ch _ done b c pos oldblk scp _ _ _ _
    have hget : wp (xferBlock E oldblk scp F.dev (s.blkAt fd (s.mountab F.mnt) pos) (s.mountab F.mnt).blksize)
        (fun _ t => ∃ c, t = s.moved fd c pos) (fun _ => True) (s.moved fd c pos) := by
      unfold xferBlock
      split
      · exact scacheGet_moved E _ _ _
      · cases scp with
        | none => trivial
        | some sp => exact ⟨c,rfl⟩
    refine hget.mono ?_ (fun _ _ => id)
    rintro sp t - ⟨c',rfl⟩
    refine (hcopy sp _ _ _ b c' pos).mono ?_ (fun _ _ => id)
    rintro b' t - ⟨c'',rfl⟩
    exact ⟨c'',rfl,trivial⟩
  refine hloop.mono ?_ (fun _ _ => id)
  rintro _ t - ⟨c',rfl,-⟩
  exact ⟨c',rfl⟩

end Micron.Filesys

import Micron.Kernel.ScacheInsert
import Micron.Kernel.ScacheMarks

/-! # What a commit leaves on the disk

`scache_commit` finds each marked block of the list again and writes it to its sectors. The
number of the first sector is a 32-bit product: the blocks stay apart on the disk as long as
it does not wrap.
-/
namespace Micron.Kernel.Scache
open Function Linked
variable {s t : Scache} {D : BlkDevs} {dev n i k : ℕ} {l m : List ℕ} {a : ℕ}

/-! ## Writing some entries -/

def Hits (b : ℤ) (n a : ℕ) : Prop := (sector b n).toNat * 512 ≤ a ∧ a < (sector b n).toNat * 512 + n / 512 * 512

instance (b : ℤ) (n a : ℕ) : Decidable (Hits b n a) := inferInstanceAs (Decidable (_ ∧ _))

theorem writeOut_eq (hseek : D.seekOk dev (sector (s.blk (some i)) n)) : writeOut D dev n s i = { s with
    pos := update s.pos dev (sector (s.blk (some i)) n).toNat
    disk := update s.disk dev (fun a => if Hits (s.blk (some i)) n a
      then s.buf (some i) (a - (sector (s.blk (some i)) n).toNat * 512) else s.disk dev a) } := by
  simp only [writeOut,devLseek,devWrite,seekPos,if_pos hseek,update_self]
  rfl

/-- What is on the disks after some entries have been written one after the other. -/
structure Written (dev n : ℕ) (m : List ℕ) (s t : Scache) : Prop where
  eq : t = { s with pos := t.pos, disk := t.disk }
  other : ∀ d, d ≠ dev → t.disk d = s.disk d
  outside : ∀ a, (∀ i ∈ m, ¬ Hits (s.blk (some i)) n a) → t.disk dev a = s.disk dev a
  inside : m.Pairwise (fun i j => ∀ a, ¬ (Hits (s.blk (some i)) n a ∧ Hits (s.blk (some j)) n a)) →
    ∀ i ∈ m, ∀ a, Hits (s.blk (some i)) n a → t.disk dev a = s.buf (some i) (a - (sector (s.blk (some i)) n).toNat * 512)

theorem written_foldl (hseek : ∀ i ∈ m, D.seekOk dev (sector (s.blk (some i)) n)) :
    Written dev n m s (m.foldl (writeOut D dev n) s) := by
  induction m generalizing s with
  | nil => exact ⟨rfl,fun _ _ => rfl,fun _ _ => rfl,fun _ => nofun⟩
  | cons i m ih =>
    have hi := hseek i List.mem_cons_self
    rw [List.foldl_cons,writeOut_eq hi]
    have h := ih (s := { s with
      pos := update s.pos dev (sector (s.blk (some i)) n).toNat
      disk := update s.disk dev (fun a => if Hits (s.blk (some i)) n a
        then s.buf (some i) (a - (sector (s.blk (some i)) n).toNat * 512) else s.disk dev a) })
      (fun j hj => hseek j (List.mem_cons_of_mem _ hj))
    refine ⟨h.eq,fun d hd => ?_,fun a ha => ?_,fun hdis => ?_⟩
    · rw [h.other d hd]
      exact update_of_ne hd _ _
    · obtain ⟨hia,hma⟩ := List.forall_mem_cons.mp ha
      rw [h.outside a hma]
      dsimp only
      rw [update_self,if_neg hia]
    · obtain ⟨him,hdis⟩ := List.pairwise_cons.mp hdis
      refine List.forall_mem_cons.mpr ⟨fun a ha => ?_,h.inside hdis⟩
      -- the later blocks leave the sectors of the first alone
      rw [h.outside a (fun j hj hja => him j hj a ⟨ha,hja⟩)]
      dsimp only
      rw [update_self,if_pos ha]

/-! ## The commit of a list -/

theorem ListAt.seek_self (h : s.ListAt k l) (hi : i ∈ l) : s.scacheSeek (s.clist k) (s.blk (some i)) = some (some i) := by
  rw [scacheSeek,find_eq h.chain h.length_le]
  congr 1
  obtain ⟨A,B,rfl⟩ := List.append_of_mem hi
  obtain ⟨-,-,hA⟩ := List.pairwise_append.mp h.sorted
  rw [List.find?_append,List.find?_eq_none.mpr]
  · simp
  · intro x hx
    have := hA x hx i List.mem_cons_self
    simp only [decide_eq_true_eq]
    omega

theorem ListAt.commit (h : s.ListAt (slot dev) l) (n : ℕ) (ho : D.openOk dev) :
    scacheCommit D dev n s = some (0,(l.filter (fun i => s.HasMark i)).foldl (writeOut D dev n) s) := by
  obtain ⟨disk',pos',hloop,hlog⟩ := commitLoop_marks (D := D) n h.chain (fun i hi => h.seek_self hi) h.length_le
  have hcommit : scacheCommit D dev n s = some (0,{ s with disk := disk', pos := pos' }) := by
    simp [scacheCommit,hloop]
  have hfold := scacheCommit_log hcommit
  rw [commitLog,hlog,if_pos ho] at hfold
  rw [hcommit,← hfold]

/-- After the commit, the sectors of each marked block hold the buffer of its entry, all
other sectors are as before, and so are the buffers. -/
def CommitStores (D : BlkDevs) (dev n : ℕ) (s : Scache) (l : List ℕ) : Prop :=
  ∃ t, scacheCommit D dev n s = some (0,t) ∧ t.buf = s.buf ∧
    (∀ i ∈ l, s.HasMark i → ∃ q : ℕ, (q : ℤ) = s.blk (some i) * (n / 512 : ℕ) ∧
      ∀ k < n, t.disk dev (q * 512 + k) = s.buf (some i) k) ∧
    ∀ d a, (d = dev → ∀ i ∈ l, s.HasMark i → ∀ q : ℕ, (q : ℤ) = s.blk (some i) * (n / 512 : ℕ) →
      ¬ (q * 512 ≤ a ∧ a < q * 512 + n)) → t.disk d a = s.disk d a

def SectorFits (b : ℤ) (n : ℕ) : Prop := 0 ≤ b * (n / 512 : ℕ) ∧ b * (n / 512 : ℕ) < 2 ^ 31

instance (b : ℤ) (n : ℕ) : Decidable (SectorFits b n) := inferInstanceAs (Decidable (_ ∧ _))

theorem SectorFits.sector_eq {b : ℤ} (h : SectorFits b n) : sector b n = b * (n / 512 : ℕ) := by
  obtain ⟨h0,hlt⟩ := h
  exact Int.bmod_eq_of_le (by omega) (by omega)

theorem SectorFits.hits_iff {b : ℤ} {q : ℕ} (h : SectorFits b n) (hn : 512 ∣ n) (hq : (q : ℤ) = b * (n / 512 : ℕ)) :
    Hits b n a ↔ q * 512 ≤ a ∧ a < q * 512 + n := by
  rw [Hits,h.sector_eq,← hq,Int.toNat_natCast,Nat.div_mul_cancel hn]

theorem SectorFits.apart {b c : ℤ} (hb : SectorFits b n) (hc : SectorFits c n) (hn : 512 ∣ n) (hlt : b < c) :
    ¬ (Hits b n a ∧ Hits c n a) := by
  obtain ⟨q,hq⟩ := Int.eq_ofNat_of_zero_le hb.1
  obtain ⟨r,hr⟩ := Int.eq_ofNat_of_zero_le hc.1
  have hstep : (b + 1) * (n / 512 : ℕ) ≤ c * (n / 512 : ℕ) := Int.mul_le_mul_of_nonneg_right hlt (Int.natCast_nonneg _)
  have hcancel := Nat.div_mul_cancel hn
  rw [Int.add_mul,Int.one_mul,hq,hr] at hstep
  rw [hb.hits_iff hn hq.symm,hc.hits_iff hn hr.symm]
  omega

theorem ListAt.stores (h : s.ListAt (slot dev) l) (hn : 512 ∣ n) (ho : D.openOk dev)
    (hseek : ∀ i ∈ l, D.seekOk dev (sector (s.blk (some i)) n))
    (hfits : ∀ i ∈ l, s.HasMark i → SectorFits (s.blk (some i)) n) : CommitStores D dev n s l := by
  have hmem : ∀ {i}, i ∈ l.filter (fun i => s.HasMark i) ↔ i ∈ l ∧ s.HasMark i := by simp [List.mem_filter]
  have hw := written_foldl (s := s) (m := l.filter (fun i => s.HasMark i)) (fun i hi => hseek i (hmem.mp hi).1)
  have hapart : (l.filter (fun i => s.HasMark i)).Pairwise
      (fun i j => ∀ a, ¬ (Hits (s.blk (some i)) n a ∧ Hits (s.blk (some j)) n a)) := by
    refine (h.sorted.sublist List.filter_sublist).imp_of_mem fun {i j} hi hj hlt a => ?_
    obtain ⟨hil,him⟩ := hmem.mp hi
    obtain ⟨hjl,hjm⟩ := hmem.mp hj
    exact (hfits i hil him).apart (hfits j hjl hjm) hn hlt
  refine ⟨_,h.commit n ho,by rw [hw.eq],fun i hi hm => ?_,fun d a ha => ?_⟩
  · have hf := hfits i hi hm
    obtain ⟨q,hq⟩ := Int.eq_ofNat_of_zero_le hf.1
    refine ⟨q,hq.symm,fun k hk => ?_⟩
    have hhit : Hits (s.blk (some i)) n (q * 512 + k) := (hf.hits_iff hn hq.symm).mpr (by omega)
    rw [hw.inside hapart i (hmem.mpr ⟨hi,hm⟩) _ hhit,hf.sector_eq,hq,Int.toNat_natCast,Nat.add_sub_cancel_left]
  · by_cases hd : d = dev
    · subst hd
      refine hw.outside a fun i hi hhit => ?_
      obtain ⟨hil,him⟩ := hmem.mp hi
      have hf := hfits i hil him
      obtain ⟨q,hq⟩ := Int.eq_ofNat_of_zero_le hf.1
      exact ha rfl i hil him q hq.symm ((hf.hits_iff hn hq.symm).mp hhit)
    · rw [hw.other d hd]

/-- Whatever the buffers and disks hold, a commit stores the marked blocks and nothing else
exactly when the sector numbers of the marked blocks fit. -/
theorem commit_stores_iff (D : BlkDevs) (dev n : ℕ) (s : Scache) (l : List ℕ) (h : s.ListAt (slot dev) l)
    (hn : 512 ∣ n ∧ n ≤ NMXBLKSZ) (ho : D.openOk dev) (hseek : ∀ i ∈ l, D.seekOk dev (sector (s.blk (some i)) n)) :
    (∀ buf disk, CommitStores D dev n { s with buf := buf, disk := disk } l) ↔
      ∀ i ∈ l, s.HasMark i → SectorFits (s.blk (some i)) n := by
  have hat : ∀ buf disk, { s with buf := buf, disk := disk }.ListAt (slot dev) l :=
    fun _ _ => ⟨h.head,h.seg,h.sorted,h.lt⟩
  constructor
  · intro hall i hi hm
    obtain ⟨t,ht,-,hin,-⟩ := hall (fun _ _ => 1) (fun _ _ => 0)
    obtain ⟨q,hq,hbytes⟩ := hin i hi hm
    dsimp only at hq hbytes
    refine ⟨by omega,lt_of_not_ge fun hge => ?_⟩
    have hpos : 0 < n := by
      refine Nat.pos_of_ne_zero fun h0 => ?_
      rw [h0] at hge
      norm_num at hge
    -- no write reaches the last byte of the block
    have hlast := hbytes (n - 1) (by omega)
    rw [(hat _ _).commit n ho,Option.some.injEq,Prod.mk.injEq] at ht
    rw [← ht.2] at hlast
    have hmarked : ∀ j ∈ l.filter (fun i => s.HasMark i), D.seekOk dev (sector (s.blk (some j)) n) :=
      fun j hj => hseek j (List.mem_filter.mp hj).1
    have hw := written_foldl (s := { s with buf := fun _ _ => 1, disk := fun _ _ => 0 }) hmarked
    have hout := hw.outside (q * 512 + (n - 1)) fun j _ hhit => ?_
    · have h01 : (1 : UInt8) = 0 := hlast.symm.trans hout
      exact absurd h01 (by decide)
    · have hlt := Int.bmod_lt (x := s.blk (some j) * (n / 512 : ℕ)) (m := 2 ^ 32) (by decide)
      have hcancel := Nat.div_mul_cancel hn.1
      obtain ⟨-,hend⟩ := hhit
      simp only [sector] at hend
      omega
  · intro hfits buf disk
    exact (hat buf disk).stores hn.1 ho hseek hfits

def oneMarked (b : ℤ) : Scache := { boot (fun _ _ => 0) with
  clist := fun k => if k = 0 then some 0 else none
  blk := fun _ => b
  buf := fun _ _ => 1
  mode := fun _ => S_CHANGED }

theorem oneMarked_listAt (b : ℤ) : (oneMarked b).ListAt 0 [0] :=
  ⟨rfl,⟨rfl,rfl,trivial⟩,List.pairwise_singleton _ _,by decide⟩

theorem commit_stores_one : (oneMarked 3).ListAt (slot 0) [0] ∧
    ∀ buf disk, CommitStores anyDevs 0 1024 { oneMarked 3 with buf := buf, disk := disk } [0] := by
  refine ⟨oneMarked_listAt 3,(commit_stores_iff anyDevs 0 1024 (oneMarked 3) [0] (oneMarked_listAt 3) (by decide) rfl
    (fun _ _ => rfl)).mpr ?_⟩
  intro i _ _
  exact (by decide : SectorFits 3 1024)

/-- The product for block 2^30 wraps to 0: the commit overwrites the first sectors. -/
theorem commit_wraps : (oneMarked (2 ^ 30)).ListAt (slot 0) [0] ∧
    (scacheCommit anyDevs 0 4096 (oneMarked (2 ^ 30))).map (fun r => r.2.disk 0 0) = some 1 ∧
    ¬ CommitStores anyDevs 0 4096 (oneMarked (2 ^ 30)) [0] := by
  have hzero : (scacheCommit anyDevs 0 4096 (oneMarked (2 ^ 30))).map (fun r => r.2.disk 0 0) = some 1 := by
    decide +kernel
  refine ⟨oneMarked_listAt _,hzero,?_⟩
  rintro ⟨t,ht,-,-,hout⟩
  rw [ht] at hzero
  have hdisk : t.disk 0 0 = 0 := by
    refine hout 0 0 fun _ i _ _ q hq => ?_
    have hq' : (q : ℤ) = 2 ^ 30 * (4096 / 512 : ℕ) := hq
    norm_num at hq'
    omega
  exact absurd (hdisk.symm.trans (Option.some.inj hzero)) (by decide)

end Micron.Kernel.Scache

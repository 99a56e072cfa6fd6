import Micron.Filesys.Position

/-! # Flags of `open`

`open` tests `oflag&&O_APPEND` and `oflag&&O_TRUNC` where it means `&`. The results are 0 or 1
and never one of the flags, so every file is opened at its start and none is truncated.
-/
namespace Micron.Filesys
open Function Bytes Kernel Scache Prog
variable {E : Env} {bs : BlkSizes} {C : Content} {T : Table} {s t : State} {n k : ℕ} {type : Bmptype}

structure Table.Bitmapped (E : Env) (bs : BlkSizes) (T : Table) : Prop where
  bmp_pos : ∀ type, 0 < (T.sb.bmp type).toInt
  valid : ∀ type, ∀ b < T.sb.cnt type, (bs.request T.dev.toNat (T.sb.base type + b : ℕ)).Valid E.devs

def Table.bitAt (T : Table) (s : State) (type : Bmptype) (k : ℕ) : Bool := bmpBit T.sb T.dev s type k

def Table.bits (T : Table) (type : Bmptype) : ℕ := T.sb.cnt type * (8 * T.sb.len)

theorem Serves.bitAt_eq (h : Serves E bs C T s) (hb : T.Bitmapped E bs) (hk : k < T.bits type) :
    T.bitAt s type k = bitOf T.sb (C T.dev.toNat) type k := by
  obtain ⟨L,hL⟩ := h.tree.cached
  have hlen : T.sb.len = bs.size T.dev.toNat := h.table.len_eq
  have hpos : 0 < 8 * T.sb.len := by
    rw [hlen]
    exact Nat.mul_pos (by decide) h.table.len_pos
  have hblk : k / (8 * T.sb.len) < T.sb.cnt type := (Nat.div_lt_iff_lt_mul hpos).mpr hk
  have hview : s.scache.view T.sb.len = s.scache.view (bs.size T.dev.toNat) := by rw [hlen]
  unfold Table.bitAt bmpBit bitOf
  rw [hview]
  generalize k / (8 * T.sb.len) = q at hblk
  have hv := hb.valid type q hblk
  have hne : ((T.sb.base type + q : ℕ) : ℤ) ≠ 0 := by
    have hbase := hb.bmp_pos type
    have heq : (T.sb.bmp type).toInt = T.sb.base type := Machine.toInt_eq (Int.le_of_lt hbase)
    omega
  refine get_congr (fun j hj => ?_) (Nat.mod_lt k hpos)
  refine hL.view_eq (g := bs.request T.dev.toNat (T.sb.base type + q : ℕ)) hv.dev_ok hv rfl ?_
  change j < (volume bs E.devs).size T.dev.toNat (T.sb.base type + q : ℕ)
  rw [volume_size hne,← hlen]
  exact hj

theorem Table.Shaped.find_ne_zero {path : List UInt8} {fuel : ℕ} (hT : T.Shaped fuel) (h : T.find path = some n) :
    n ≠ 0 := by
  unfold Table.find at h
  split at h
  · exact hT.resolve_ne_zero h
  · cases h

/-- `open` returns a descriptor. With `O_APPEND` its position is the size of the file. With
`O_TRUNC` alone the file is emptied and exactly the bits of its data blocks are cleared; with
neither of them nothing changes. The record of the file is `r`. -/
def OpenHonours (E : Env) (T : Table) (s : State) (path : List UInt8) (oflag : UInt32) (r : Inode) : Prop :=
  ∃ fd t, (open_ E path oflag).run s = (.ok (.file fd),t) ∧
    (oflag &&& O_APPEND ≠ 0 → (t.ofile fd).pos.toInt = r.size.toNat) ∧
    (oflag &&& O_TRUNC ≠ 0 → oflag &&& O_APPEND = 0 → (t.ofile fd).pos = 0 ∧
      (t.vnode (t.ofile fd).node).size = 0 ∧ (t.vnode (t.ofile fd).node).blkentry = 0 ∧
      (t.vnode (t.ofile fd).node).blocks = 0 ∧
      ∀ type, ∀ k < T.bits type, T.bitAt t type k =
        (T.bitAt s type k && !decide (type = .DBLK ∧ r.blkentry.toInt ≤ k ∧ k < r.blkentry.toInt + r.blocks.toInt))) ∧
    (oflag &&& O_TRUNC = 0 → oflag &&& O_APPEND = 0 → (t.ofile fd).pos = 0 ∧
      (t.vnode (t.ofile fd).node).Shows r ∧ ∀ type, ∀ k < T.bits type, T.bitAt t type k = T.bitAt s type k)

/-- A file to be appended to is empty, and so is one to be truncated, which has no blocks either. -/
def FlagsMoot (oflag : UInt32) (r : Inode) : Prop :=
  (oflag &&& O_APPEND ≠ 0 → r.size = 0) ∧
  (oflag &&& O_TRUNC ≠ 0 → oflag &&& O_APPEND = 0 → r.size = 0 ∧ r.blkentry = 0 ∧ r.blocks = 0)

/-- Whatever the flags, the file is opened at its start and nothing of it changes. -/
theorem Serves.open_start {path : List UInt8} {oflag : UInt32} (h : Serves E bs C T s)
    (hblk : (s.mountab 0).blksize = T.sb.blksize) (hpl : T.Placed E bs) (hb : T.Bitmapped E bs)
    (hfind : T.find path = some n) (hperm : Permits (T.record n) oflag)
    (hfree : ∃ k < NMXOFILE, (s.ofile k).node = .null) (hroom : ¬ Full ((open_ E path oflag).run s).2) :
    ∃ fd t, (open_ E path oflag).run s = (.ok (.file fd),t) ∧ (t.ofile fd).pos = 0 ∧
      (t.vnode (t.ofile fd).node).Shows (T.record n) ∧
      ∀ type, ∀ k < T.bits type, T.bitAt t type k = T.bitAt s type k := by
  obtain ⟨r,t,hrun,hv⟩ := (h.open_found hblk hpl hfind oflag).run hroom
  have hslot := hv.slot
  cases r with
  | zero => exact hslot.elim
  | err =>
    obtain ⟨k,hk,hnull⟩ := hfree
    rcases hslot.1 with hno | hall
    · exact absurd hperm hno
    · exact absurd hnull (hall k hk)
  | file fd =>
    obtain ⟨-,-,q,hin,hino,hof⟩ := hslot
    refine ⟨fd,t,hrun,?_,?_,fun type k hk => ?_⟩
    · rw [hof,update_self]
    · rw [hof,update_self]
      exact hv.serves.shows hin hino (h.shaped.find_ne_zero hfind)
    · rw [hv.serves.bitAt_eq hb hk,h.bitAt_eq hb hk]

/-- The flags are honoured exactly for files on which they make no difference. -/
theorem open_honours_iff (E : Env) (bs : BlkSizes) (C : Content) (T : Table) (s : State) (path : List UInt8)
    (oflag : UInt32) (n : ℕ) (h : Serves E bs C T s) (hblk : (s.mountab 0).blksize = T.sb.blksize)
    (hpl : T.Placed E bs) (hb : T.Bitmapped E bs) (hfind : T.find path = some n) (hperm : Permits (T.record n) oflag)
    (hfree : ∃ k < NMXOFILE, (s.ofile k).node = .null) (hroom : ¬ Full ((open_ E path oflag).run s).2) :
    OpenHonours E T s path oflag (T.record n) ↔ FlagsMoot oflag (T.record n) := by
  obtain ⟨fd,t,hrun,hpos,hshow,hbits⟩ := h.open_start hblk hpl hb hfind hperm hfree hroom
  constructor
  · rintro ⟨fd',t',hrun',happend,htrunc,-⟩
    rw [hrun] at hrun'
    cases hrun'
    refine ⟨fun ha => ?_,fun htr ha => ?_⟩
    · have hsize := happend ha
      rw [hpos,Int32.toInt_zero] at hsize
      exact UInt32.toNat_inj.mp (Int.natCast_inj.mp hsize.symm)
    · obtain ⟨-,hsize,hentry,hblocks,-⟩ := htrunc htr ha
      exact ⟨hshow.size.symm.trans hsize,hshow.blkentry.symm.trans hentry,hshow.blocks.symm.trans hblocks⟩
  · rintro ⟨happend,htrunc⟩
    refine ⟨fd,t,hrun,fun ha => ?_,fun htr ha => ?_,fun _ _ => ⟨hpos,hshow,hbits⟩⟩
    · rw [hpos,happend ha]
      rfl
    · obtain ⟨hsize,hentry,hblocks⟩ := htrunc htr ha
      refine ⟨hpos,hshow.size.trans hsize,hshow.blkentry.trans hentry,hshow.blocks.trans hblocks,fun type k hk => ?_⟩
      have hnone : ¬ (type = .DBLK ∧ (0 : Int32).toInt ≤ k ∧ (k : ℤ) < (0 : Int32).toInt + (0 : Int32).toInt) := by
        rw [Int32.toInt_zero]
        omega
      rw [hentry,hblocks,decide_eq_false hnone,hbits type k hk,Bool.not_false,Bool.and_true]

theorem sample_bitmapped : (imageTable 1 sampleImage 2).Bitmapped sampleEnv mfsSizes := by
  have hb := Mkmfs.build_built sample_build sample_short
  have hsb : (imageTable 1 sampleImage 2).sb = Sblk.ofSuperblk Mkmfs.mfsNew.sblk := by
    rw [imageTable,hb.sblk]
  have hregion : ∀ type, 0 < ((imageTable 1 sampleImage 2).sb.bmp type).toInt ∧
      (imageTable 1 sampleImage 2).sb.base type + (imageTable 1 sampleImage 2).sb.cnt type ≤ tableBlocks := by
    rw [hsb]
    intro type
    cases type with
    | IBLK => decide
    | DBLK => decide
  refine ⟨fun type => (hregion type).1,fun type b hlt => sample_carries.valid ?_⟩
  exact Nat.lt_of_lt_of_le (Nat.add_lt_add_left hlt _) (hregion type).2

/-- Each of the flags is honoured for `/a`, which is empty. For `/a/b`, of three bytes, an open
without them is right and one with `O_APPEND` is not. -/
theorem open_honours_sample :
    (∀ oflag ∈ [O_RDONLY,O_RDONLY ||| O_APPEND,O_RDONLY ||| O_TRUNC],
      OpenHonours sampleEnv (imageTable 1 sampleImage 2) sampleState (absPath [[97]]) oflag
        ((imageTable 1 sampleImage 2).record 1)) ∧
    OpenHonours sampleEnv (imageTable 1 sampleImage 2) sampleState (absPath [[97],[98]]) O_RDONLY
      ((imageTable 1 sampleImage 2).record 2) ∧
    ¬ OpenHonours sampleEnv (imageTable 1 sampleImage 2) sampleState (absPath [[97],[98]]) (O_RDONLY ||| O_APPEND)
      ((imageTable 1 sampleImage 2).record 2) := by
  have hb := Mkmfs.build_built sample_build sample_short
  have htracks : Tracks sampleEnv mfsSizes (contentOf mfsSizes sampleEnv.devs sampleDisk) (imageTable 1 sampleImage 2)
      (sampleState,fun _ => none) :=
    started_tracks [] (imageTable_shaped 1 hb (by decide)) (sample_carries.on hb) (by decide)
      (sample_carries.bootable hb) (by decide +kernel)
  have hiff : ∀ path oflag n, (imageTable 1 sampleImage 2).find path = some n →
      Permits ((imageTable 1 sampleImage 2).record n) oflag → ¬ Full ((open_ sampleEnv path oflag).run sampleState).2 →
      (OpenHonours sampleEnv (imageTable 1 sampleImage 2) sampleState path oflag ((imageTable 1 sampleImage 2).record n) ↔
        FlagsMoot oflag ((imageTable 1 sampleImage 2).record n)) :=
    fun path oflag n hfind hperm hroom => open_honours_iff sampleEnv mfsSizes _ _ sampleState path oflag n htracks.serves
      htracks.blksize sample_placed sample_bitmapped hfind hperm ⟨0,by decide,(htracks.free_iff (by decide)).mpr rfl⟩ hroom
  have ha : (imageTable 1 sampleImage 2).find (absPath [[97]]) = some 1 := by decide +kernel
  have hab : (imageTable 1 sampleImage 2).find (absPath [[97],[98]]) = some 2 := by decide +kernel
  refine ⟨fun oflag hflag => ?_,?_,?_⟩
  · have hroom : Permits ((imageTable 1 sampleImage 2).record 1) oflag ∧
        ¬ Full ((open_ sampleEnv (absPath [[97]]) oflag).run sampleState).2 := by
      simp only [List.mem_cons,List.not_mem_nil,or_false] at hflag
      rcases hflag with rfl | rfl | rfl
      · exact ⟨by decide +kernel,by decide +kernel⟩
      · exact ⟨by decide +kernel,by decide +kernel⟩
      · exact ⟨by decide +kernel,by decide +kernel⟩
    have hzero : ((imageTable 1 sampleImage 2).record 1).size = 0 ∧ ((imageTable 1 sampleImage 2).record 1).blkentry = 0 ∧
        ((imageTable 1 sampleImage 2).record 1).blocks = 0 := by decide +kernel
    exact (hiff _ oflag 1 ha hroom.1 hroom.2).mpr ⟨fun _ => hzero.1,fun _ _ => hzero⟩
  · exact (hiff _ _ 2 hab (by decide +kernel) (by decide +kernel)).mpr
      ⟨fun h => absurd h (by decide),fun h => absurd h (by decide)⟩
  · intro h
    have hsize : ((imageTable 1 sampleImage 2).record 2).size ≠ 0 := by decide +kernel
    exact hsize (((hiff _ _ 2 hab (by decide +kernel) (by decide +kernel)).mp h).1 (by decide))

def fileTable : Table where
  dev := 1
  sb := Sblk.read (fileDisk 1)
  base := 1
  count := 4
  record n := Inode.read (fileDisk 1) (512 + n * INODESZ)
  used n := n ≤ 1
  kids n := if n = 0 then [1] else []
  exps _ := []

/-- A file opened to append to it is at its start, and one opened to be truncated is not. -/
theorem open_ignores_flags : fileTable.find [slash,102] = some 1 ∧ (fileTable.record 1).size = 3 ∧
    (∀ oflag ∈ [O_RDONLY ||| O_APPEND,O_RDONLY ||| O_TRUNC], Permits (fileTable.record 1) oflag ∧
      ¬ OpenHonours sampleEnv fileTable (State.booted sampleEnv fileDisk [(0,0,1)]) [slash,102] oflag (fileTable.record 1)) := by
  have hfind : fileTable.find [slash,102] = some 1 := by decide +kernel
  have hsize : (fileTable.record 1).size = 3 := by decide +kernel
  have hopen : ∀ oflag ∈ [O_RDONLY ||| O_APPEND,O_RDONLY ||| O_TRUNC], Permits (fileTable.record 1) oflag ∧
      ((open_ sampleEnv [slash,102] oflag).run (State.booted sampleEnv fileDisk [(0,0,1)])).1.toOption = some (.file 0) ∧
      (((open_ sampleEnv [slash,102] oflag).run (State.booted sampleEnv fileDisk [(0,0,1)])).2.ofile 0).pos = 0 ∧
      ((open_ sampleEnv [slash,102] oflag).run (State.booted sampleEnv fileDisk [(0,0,1)])).2.fileSize 0 = 3 := by
    intro oflag hflag
    rcases List.mem_pair.mp hflag with rfl | rfl
    · decide +kernel
    · decide +kernel
  refine ⟨hfind,hsize,fun oflag hflag => ⟨(hopen oflag hflag).1,?_⟩⟩
  obtain ⟨-,hret,hpos,hkept⟩ := hopen oflag hflag
  rintro ⟨fd,t,hrun,happend,htrunc,-⟩
  rw [hrun] at hret hpos hkept
  obtain rfl : fd = 0 := Opened.file.inj (Option.some.inj hret)
  rcases List.mem_pair.mp hflag with rfl | rfl
  · have hend := happend (by decide)
    rw [hpos,hsize] at hend
    exact absurd hend (by decide)
  · obtain ⟨-,hempty,-⟩ := htrunc (by decide) (by decide)
    exact absurd (hkept.symm.trans hempty) (by decide)

end Micron.Filesys

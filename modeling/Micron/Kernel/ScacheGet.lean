import Mathlib.Tactic.Linarith
import Micron.Kernel.ScacheLists

/-! # Loading blocks: the invariant of the device lists

The invariant ties every listed entry to the device and block it was read from. A
block that is not cached is loaded into a fresh entry or, once the table is full, into
the entry at `begin`; no entry is ever in use, since nothing raises `sem`.
-/
namespace Micron.Kernel

def DevOk (dev : ℕ) : Prop := dev / 65536 < NBLKDEVS ∧ dev % 65536 < NBLKENTS

instance (dev : ℕ) : Decidable (DevOk dev) := inferInstanceAs (Decidable (_ ∧ _))

theorem slot_inj {d e : ℕ} (hd : DevOk d) (he : DevOk e) (h : slot d = slot e) : d = e := by
  unfold DevOk NBLKDEVS NBLKENTS at hd he
  unfold slot MAJOR MINOR NBLKENTS at h
  omega

namespace Scache
open Function Linked
variable {s t : Scache} {L : ℕ → List ℕ} {i k : ℕ} {D : BlkDevs} {dev blksize : ℕ} {blk : ℤ}

structure Inv (s : Scache) (L : ℕ → List ℕ) : Prop where
  lists : s.Lists L (· < s.alist.cnt)
  closed : s.alist.Closed
  unused : s.alist.sem = fun _ => 0
  cnt_le : s.alist.cnt ≤ NSECACHS
  owner : ∀ k, ∀ i ∈ L k, DevOk (s.src (some i)).1 ∧ slot (s.src (some i)).1 = k ∧
    (s.src (some i)).2 = s.blk (some i)

theorem boot_inv (disk : ℕ → ℕ → UInt8) : (boot disk).Inv (fun _ => []) where
  lists := by simpa [boot,AllocList.boot] using boot_lists disk
  closed := AllocList.boot_closed
  unused := rfl
  cnt_le := Nat.zero_le _
  owner _ _ h := by simp at h

theorem Inv.mem_lt (h : s.Inv L) (hi : i ∈ L k) : i < s.alist.cnt := (h.lists.mem_iff i).mp ⟨k,hi⟩

theorem Inv.seek (h : s.Inv L) (k : ℕ) (blk : ℤ) :
    s.scacheSeek (s.clist k) blk = some ((L k).find? (fun i => s.blk (some i) = blk)) :=
  h.lists.seek (fun _ hi => Nat.lt_of_lt_of_le hi h.cnt_le) k blk

/-- An allocated entry is on the list of the device it was read from and on no other. -/
theorem Inv.mem_iff (h : s.Inv L) (hi : i < s.alist.cnt) : i ∈ L k ↔ k = slot (s.src (some i)).1 := by
  obtain ⟨k',hk'⟩ := (h.lists.mem_iff i).mpr hi
  have hs := (h.owner k' i hk').2.1
  constructor
  · intro hk
    exact ((h.owner k i hk).2.1).symm
  · rintro rfl
    rwa [hs]

theorem Inv.src_inj {j : ℕ} (h : s.Inv L) (hi : i < s.alist.cnt) (hj : j < s.alist.cnt)
    (he : s.src (some i) = s.src (some j)) : i = j := by
  have hi' := (h.mem_iff hi).mpr rfl
  have hj' := (h.mem_iff hj).mpr rfl
  rw [he] at hi'
  refine h.lists.blk_inj hi' hj' ?_
  rw [← (h.owner _ i hi').2.2,← (h.owner _ j hj').2.2,he]

/-- The block of an entry on the list of the device is found again. -/
theorem Inv.seek_self (h : s.Inv L) (hi : i ∈ L (slot dev)) :
    s.scacheSeek (s.clist (slot dev)) (s.blk (some i)) = some (some i) := by
  rw [h.seek]
  cases hfind : (L (slot dev)).find? (fun j => s.blk (some j) = s.blk (some i)) with
  | none => exact absurd (List.find?_eq_none.mp hfind i hi) (by simp)
  | some j =>
    have hj := List.mem_of_find?_eq_some hfind
    have hb : s.blk (some j) = s.blk (some i) := by simpa using List.find?_some hfind
    rw [h.lists.blk_inj hj hi hb]

theorem Inv.seek_of_src (h : s.Inv L) (hi : i < s.alist.cnt) (hsrc : s.src (some i) = (dev,blk)) :
    s.scacheSeek (s.clist (slot dev)) blk = some (some i) := by
  have hmem : i ∈ L (slot dev) := (h.mem_iff hi).mpr (by rw [hsrc])
  have hblk : blk = s.blk (some i) := by rw [← (h.owner _ i hmem).2.2,hsrc]
  rw [hblk]
  exact h.seek_self hmem

/-- What a search on a device's list finds was read from that device and block. -/
theorem Inv.seek_src (h : s.Inv L) (hd : DevOk dev)
    (hs : s.scacheSeek (s.clist (slot dev)) blk = some (some i)) :
    i < s.alist.cnt ∧ s.src (some i) = (dev,blk) := by
  rw [h.seek,Option.some.injEq] at hs
  have hmem := List.mem_of_find?_eq_some hs
  have hblk := List.find?_some hs
  simp only [decide_eq_true_eq] at hblk
  obtain ⟨ho,hslot,hb⟩ := h.owner _ i hmem
  exact ⟨h.mem_lt hmem,Prod.ext (slot_inj ho hd hslot) (hb.trans hblk)⟩

theorem Inv.seek_none (h : s.Inv L) (hd : DevOk dev) :
    s.scacheSeek (s.clist (slot dev)) blk = some none ↔ ∀ i < s.alist.cnt, s.src (some i) ≠ (dev,blk) := by
  rw [h.seek,Option.some.injEq,List.find?_eq_none]
  constructor
  · intro hall i hi he
    have hmem : i ∈ L (slot dev) := (h.mem_iff hi).mpr (by rw [he])
    have hb := (h.owner _ i hmem).2.2
    rw [he] at hb
    exact hall i hmem (by simp [← hb])
  · intro hall i hi he
    simp only [decide_eq_true_eq] at he
    obtain ⟨ho,hslot,hb⟩ := h.owner _ i hi
    exact hall i (h.mem_lt hi) (Prod.ext (slot_inj ho hd hslot) (hb.trans he))

theorem Inv.promo (h : s.Inv L) (hi : i < s.alist.cnt) : (s.scachePromo (some i)).Inv L where
  lists := by
    have hc : (s.scachePromo (some i)).alist.cnt = s.alist.cnt := AllocList.promo_cnt _
    rw [hc]
    exact h.lists.congr rfl rfl rfl (fun _ _ => rfl)
  closed := h.closed.promo hi
  unused := by simpa [scachePromo] using h.unused
  cnt_le := by simpa [scachePromo] using h.cnt_le
  owner := h.owner

/-- The entry a miss takes: a fresh one, or the one at `begin` of a full table. -/
def Takes (s : Scache) (i : ℕ) (a : AllocList) : Prop :=
  s.alist.cnt < NSECACHS ∧ i = s.alist.cnt ∧ a = s.alist.append ∨
  s.alist.cnt = NSECACHS ∧ s.alist.begin = some i ∧ a = s.alist.recycle (some i)

theorem detach_links (s : Scache) (p : Ptr) :
    s.detach p = { s with cnext := (s.detach p).cnext, clast := (s.detach p).clast } := by
  unfold detach
  dsimp only
  split <;> split <;> rfl

theorem Inv.alloc (h : s.Inv L) (hroom : s.alist.cnt < NSECACHS ∨ ∀ k, s.clist k ≠ s.alist.begin) :
    ∃ i L' cn cl a, s.scacheAlloc = some (some i,{ s with alist := a, cnext := cn, clast := cl }) ∧
      { s with alist := a, cnext := cn, clast := cl }.Lists L' (fun j => j < a.cnt ∧ j ≠ i) ∧
      s.Takes i a ∧ i < a.cnt ∧ a.cnt ≤ NSECACHS ∧ a.Closed ∧ a.sem = (fun _ => 0) ∧
      ∀ k, ∀ x ∈ L' k, x ∈ L k := by
  by_cases hc : s.alist.cnt < NSECACHS
  · refine ⟨s.alist.cnt,L,s.cnext,s.clast,s.alist.append,?_,?_,Or.inl ⟨hc,rfl,rfl⟩,by simp,?_,
      h.closed.append,by simpa using h.unused,fun _ _ hx => hx⟩
    · simp [scacheAlloc,AllocList.alloc,hc]
    · have hl := h.lists.congr (t := { s with alist := s.alist.append }) rfl rfl rfl (fun _ _ => rfl)
      refine ⟨hl.head,hl.seg,hl.sorted,hl.inj,fun x => ?_⟩
      rw [hl.mem_iff,AllocList.append_cnt]
      omega
    · rw [AllocList.append_cnt]
      omega
  · have hfull : s.alist.cnt = NSECACHS := Nat.le_antisymm h.cnt_le (Nat.le_of_not_lt hc)
    obtain ⟨i,hi,hb,ha⟩ := h.closed.alloc_full h.unused hfull (by decide)
    obtain ⟨k,hk⟩ := (h.lists.mem_iff i).mpr hi
    obtain ⟨A,B,hAB⟩ := List.append_of_mem hk
    have hA : A ≠ [] := by
      rintro rfl
      refine hroom.resolve_left hc k ?_
      rw [h.lists.head,hAB,hb]
      rfl
    have hl := (h.lists.congr (t := { s with alist := s.alist.recycle (some i) }) rfl rfl rfl
      (fun _ _ => rfl)).detach hAB hA
    have hd := detach_links { s with alist := s.alist.recycle (some i) } (some i)
    refine ⟨i,update L k (A ++ B),({ s with alist := s.alist.recycle (some i) }.detach (some i)).cnext,
      ({ s with alist := s.alist.recycle (some i) }.detach (some i)).clast,s.alist.recycle (some i),?_,?_,
      Or.inr ⟨hfull,hb,rfl⟩,by simpa using hi,by simpa using h.cnt_le,h.closed.recycle hi,
      by simpa using h.unused,?_⟩
    · simp only [scacheAlloc,hc,↓reduceIte,ha,Option.map_some]
      rw [← hd]
    · rw [← hd]
      simpa using hl
    · intro k' x hx
      by_cases hkk : k' = k
      · subst hkk
        rw [update_self] at hx
        rw [hAB]
        rcases List.mem_append.mp hx with hx | hx <;> simp [hx]
      · rwa [update_of_ne hkk] at hx

structure Loads (D : BlkDevs) (dev : ℕ) (blk : ℤ) (blksize : ℕ) (s t : Scache) (i : ℕ) : Prop where
  takes : s.Takes i t.alist
  src : t.src = update s.src (some i) (dev,blk)
  mode : t.mode = s.mode
  disk : t.disk = s.disk
  pos : t.pos = seekPos D s.pos dev (sector blk blksize)
  buf : t.buf = update s.buf (some i) (fun k =>
    if k < blksize / 512 * 512 then s.disk dev (t.pos dev * 512 + k) else s.buf (some i) k)

def filled (D : BlkDevs) (dev : ℕ) (blk : ℤ) (blksize : ℕ) (s : Scache) (i : ℕ) : Scache :=
  (({ s with blk := update s.blk (some i) blk, src := update s.src (some i) (dev,blk) }.devLseek D dev
    (sector blk blksize)).devRead dev (some i) (blksize / 512))

theorem filled_eq (D : BlkDevs) (dev : ℕ) (blk : ℤ) (blksize : ℕ) (s : Scache) (i : ℕ) :
    s.filled D dev blk blksize i = { s with
    blk := update s.blk (some i) blk
    src := update s.src (some i) (dev,blk)
    pos := seekPos D s.pos dev (sector blk blksize)
    buf := update s.buf (some i) (fun k => if k < blksize / 512 * 512
      then s.disk dev (seekPos D s.pos dev (sector blk blksize) dev * 512 + k) else s.buf (some i) k) } := rfl

theorem Inv.load (blksize : ℕ) (h : s.Inv L) (hd : DevOk dev) (hnew : ∀ i < s.alist.cnt, s.src (some i) ≠ (dev,blk))
    (hroom : s.alist.cnt < NSECACHS ∨ ∀ k, s.clist k ≠ s.alist.begin) :
    ∃ i L' t, scacheLoad D dev blk blksize s = some (some i,t) ∧ t.Inv L' ∧ Loads D dev blk blksize s t i := by
  obtain ⟨i,L₁,cn,cl,a,ha,hl,htakes,hi,hle,hclosed,hsem,hsub⟩ := h.alloc hroom
  have hfill := filled_eq D dev blk blksize
    { s with alist := a, cnext := cn, clast := cl } i
  generalize hf : filled D dev blk blksize { s with alist := a, cnext := cn, clast := cl } i = f at hfill
  have hblk : ∀ j, j < a.cnt ∧ j ≠ i → f.blk (some j) = s.blk (some j) := by
    rintro j ⟨-,hj⟩
    simp [hfill,hj]
  have hlf : f.Lists L₁ (fun j => j < a.cnt ∧ j ≠ i) :=
    hl.congr (by rw [hfill]) (by rw [hfill]) (by rw [hfill]) hblk
  have hfi : f.blk (some i) = blk := by simp [hfill]
  have hmem : ∀ k, ∀ x ∈ L₁ k, x < a.cnt ∧ x ≠ i := fun k x hx => (hlf.mem_iff x).mp ⟨k,hx⟩
  have hother : ∀ x ∈ L₁ (slot dev), f.blk (some x) ≠ f.blk (some i) := by
    intro x hx he
    obtain ⟨ho,hslot,hb⟩ := h.owner _ x (hsub _ x hx)
    refine hnew x (h.mem_lt (hsub _ x hx)) (Prod.ext (slot_inj ho hd hslot) ?_)
    rw [hb,← hblk x (hmem _ x hx),he,hfi]
  obtain ⟨A,B,hAB,hA,hB⟩ := hlf.split (slot dev) hother
  have hni : ¬ (i < a.cnt ∧ i ≠ i) := fun hx => hx.2 rfl
  have hlen : (L₁ (slot dev)).length ≤ NSECACHS :=
    hlf.length_le (fun j hj => Nat.lt_of_lt_of_le hj.1 hle) _
  obtain ⟨cn',cl',ch',hins,hcn,hcl,hch⟩ := hlf.insert_eq hni hAB hlen hA hB
  have hl' := hlf.insert hni hAB hA hB hcn hcl hch
  refine ⟨i,update L₁ (slot dev) (A ++ i :: B),{ f with cnext := cn', clast := cl', clist := ch' },?_,?_,?_⟩
  · simp only [scacheLoad,ha,Option.bind_eq_bind,Option.bind_some]
    change (scacheInsert (filled D dev blk blksize { s with alist := a, cnext := cn, clast := cl } i) _ _).bind _ = _
    rw [hf,hins]
    rfl
  · have hfa : f.alist = a := by rw [hfill]
    constructor
    · refine ⟨hl'.head,hl'.seg,hl'.sorted,hl'.inj,fun x => ?_⟩
      rw [hl'.mem_iff]
      change _ ↔ x < f.alist.cnt
      rw [hfa]
      constructor
      · rintro (hx | rfl)
        · exact hx.1
        · exact hi
      · intro hx
        by_cases hxi : x = i
        · exact Or.inr hxi
        · exact Or.inl ⟨hx,hxi⟩
    · exact hfa ▸ hclosed
    · exact hfa ▸ hsem
    · exact hfa ▸ hle
    · intro k x hx
      have hcase : x ∈ L₁ k ∨ x = i ∧ k = slot dev := by
        by_cases hk : k = slot dev
        · subst hk
          rw [update_self] at hx
          rw [hAB]
          simp only [List.mem_append,List.mem_cons] at hx ⊢
          tauto
        · rw [update_of_ne hk] at hx
          exact Or.inl hx
      rcases hcase with hx | ⟨rfl,rfl⟩
      · have hxi : (some x : Ptr) ≠ some i := by simpa using (hmem k x hx).2
        have := h.owner k x (hsub k x hx)
        simpa [hfill,update_of_ne hxi] using this
      · simpa [hfill] using hd
  · constructor <;> simp [hfill,htakes]

/-- A miss on a full table must not find a list head at `begin`. -/
def SparesHeads (dev : ℕ) (blk : ℤ) (s : Scache) : Prop :=
  s.scacheSeek (s.clist (slot dev)) blk = some none → s.alist.cnt = NSECACHS → ∀ k, s.clist k ≠ s.alist.begin

/-- `scache_get` on a device that opens returns an entry of the block: the cached one,
promoted, or one just loaded. -/
theorem Inv.get (blksize : ℕ) (h : s.Inv L) (hd : DevOk dev) (ho : D.openOk dev) (hs : s.SparesHeads dev blk) :
    ∃ i L' t, scacheGet D dev blk blksize s = some (some i,t) ∧ t.Inv L' ∧
      i < t.alist.cnt ∧ t.src (some i) = (dev,blk) ∧
      (i < s.alist.cnt ∧ s.src (some i) = (dev,blk) ∧ t = s.scachePromo (some i) ∨
        (∀ j < s.alist.cnt, s.src (some j) ≠ (dev,blk)) ∧ Loads D dev blk blksize s t i) := by
  cases hf : (L (slot dev)).find? (fun i => s.blk (some i) = blk) with
  | some i =>
    have hseek := h.seek (slot dev) blk
    rw [hf] at hseek
    obtain ⟨hi,hsrc⟩ := h.seek_src hd hseek
    refine ⟨i,L,s.scachePromo (some i),by simp [scacheGet,hseek],h.promo hi,?_,hsrc,Or.inl ⟨hi,hsrc,rfl⟩⟩
    simpa [scachePromo] using hi
  | none =>
    have hseek := h.seek (slot dev) blk
    rw [hf] at hseek
    have hnew := (h.seek_none hd).mp hseek
    have hroom : s.alist.cnt < NSECACHS ∨ ∀ k, s.clist k ≠ s.alist.begin :=
      (Nat.lt_or_eq_of_le h.cnt_le).imp_right (hs hseek)
    obtain ⟨i,L',t,ht,hinv,hload⟩ := h.load (D := D) blksize hd hnew hroom
    refine ⟨i,L',t,by simpa [scacheGet,hseek,ho] using ht,hinv,?_,by simp [hload.src],Or.inr ⟨hnew,hload⟩⟩
    rcases hload.takes with ⟨_,rfl,ha⟩ | ⟨_,hb,ha⟩
    · simp [ha]
    · simpa [ha] using h.closed.begin_lt i hb

/-- A miss on the full table fills the entry at `begin`, which stays there. -/
theorem Inv.get_recycle (dev : ℕ) (blk : ℤ) (blksize : ℕ) (h : s.Inv L) (hd : DevOk dev) (ho : D.openOk dev)
    (hs : ∀ k, s.clist k ≠ some i)
    (hfull : s.alist.cnt = NSECACHS) (hb : s.alist.begin = some i)
    (hnew : ∀ j < s.alist.cnt, s.src (some j) ≠ (dev,blk)) :
    ∃ L' t, scacheGet D dev blk blksize s = some (some i,t) ∧ t.Inv L' ∧ Loads D dev blk blksize s t i ∧
      t.alist.cnt = NSECACHS ∧ t.alist.begin = some i := by
  obtain ⟨j,L',t,ht,hinv,-,-,hcase⟩ := h.get blksize hd ho (fun _ _ => hb ▸ hs)
  rcases hcase with ⟨hj,hsrc,-⟩ | ⟨-,hload⟩
  · exact absurd hsrc (hnew j hj)
  · rcases hload.takes with ⟨hlt,-,-⟩ | ⟨-,hj,ha⟩
    · omega
    · rw [hb] at hj
      obtain rfl : i = j := Option.some.inj hj
      exact ⟨L',t,ht,hinv,hload,by simpa [ha] using hfull,by simpa [ha] using hb⟩

end Scache
end Micron.Kernel

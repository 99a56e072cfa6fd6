import Micron.Kernel.ScacheRuns

/-! # A device list that closes to a circle

On a full table a miss recycles the entry at `begin`. If that is the head of a device list
it stays there under its new block number, and its successor, which was told that nothing
comes before it, is not taken out of the list when it is recycled in turn: it is put in
front of the head that still leads to it. From then on a search for any other block of the
device never ends.
-/
namespace Micron.Kernel

/-- A first entry of the list that is promoted leaves `begin` at the second. -/
theorem AllocList.promo_begin {s : AllocList} {i j : ℕ} (hl : s.last (some i) = none) (hn : s.next (some i) = some j)
    (hij : i ≠ j) : (s.promo (some i)).begin = some j := by
  have hu := promoUnlink_eq hn hij
  rw [if_pos hl] at hu
  have hun : (s.promoUnlink (some i)).next (some i) = some j := by rw [hu]; exact hn
  rw [promo,if_neg (by rw [hn]; simp),promoRelink_eq hun hij,hu]

/-- When the first entry of the list is recycled, nothing comes before the second any more. -/
theorem AllocList.recycle_first {s : AllocList} {i j k : ℕ} {m : List ℕ} (h : s.Holds (i :: j :: k :: m)) :
    (s.recycle (some i)).last (some j) = none ∧ (s.recycle (some i)).next (some j) = some k := by
  obtain ⟨hl,hn,-,hn',-⟩ := h.seg
  obtain ⟨hij,hnd⟩ := List.nodup_cons.mp h.nodup
  have hji : j ≠ i := fun he => hij (he ▸ List.mem_cons_self)
  have hend : s.end_ ≠ some j := by
    intro he
    rw [h.end_eq,List.getLast?_cons_cons,List.getLast?_cons_cons] at he
    exact (List.nodup_cons.mp hnd).1 (List.mem_of_getLast? he)
  simp only [List.head?_cons,Option.some_or] at hn hn'
  simp [recycle,setNext,setLast,hl,hn,hn',hji,hend.symm]

namespace Scache
open Function Linked
variable {s t : Scache} {D : BlkDevs} {dev n i j : ℕ} {b b' : ℤ} {B : List ℕ} {β : ℕ → ℤ}

/-- A full table with the list `i, j, B` of the device. The successor `j` of the head has lost
its link back; the entries other than the head cache the blocks `β`. -/
structure Loose (s : Scache) (dev i j : ℕ) (B : List ℕ) (β : ℕ → ℤ) (b : ℤ) : Prop where
  full : s.alist.cnt = NSECACHS
  unused : s.alist.sem = fun _ => 0
  head : s.clist (slot dev) = some i
  chain : Chain s.cnext (some i) (i :: j :: B)
  nodup : (i :: j :: B).Nodup
  first : s.clast (some i) = none
  second : s.clast (some j) = none
  blk_head : s.blk (some i) = b
  blk_eq : ∀ x ∈ j :: B, s.blk (some x) = β x
  length_le : (i :: j :: B).length ≤ NSECACHS

theorem Loose.touch (h : s.Loose dev i j B β b) (f : Ptr → ℕ → UInt8) (d : ℕ → ℕ → UInt8) (p : ℕ → ℕ) :
    { s with buf := f, disk := d, pos := p }.Loose dev i j B β b :=
  ⟨h.full,h.unused,h.head,h.chain,h.nodup,h.first,h.second,h.blk_head,h.blk_eq,h.length_le⟩

theorem Loose.seek (h : s.Loose dev i j B β b) (b' : ℤ) : s.scacheSeek (s.clist (slot dev)) b' =
    some ((i :: j :: B).find? (fun x => s.blk (some x) = b')) := by
  rw [h.head]
  exact find_eq h.chain h.length_le

/-- A miss recycles the head of the list of its own device. -/
theorem Inv.get_head {L : ℕ → List ℕ} (h : s.Inv L) (hfull : s.alist.cnt = NSECACHS) (hb : s.alist.begin = some i)
    (hL : L (slot dev) = i :: j :: B) (hd : DevOk dev) (ho : D.openOk dev)
    (hnew : ∀ x < s.alist.cnt, s.src (some x) ≠ (dev,b)) :
    ∃ t, scacheGet D dev b n s = some (some i,t) ∧ t.alist = s.alist.recycle (some i) ∧
      t.Loose dev i j B (fun x => s.blk (some x)) b := by
  obtain ⟨hl,-,hc⟩ := h.head_links hL
  have hnd := h.lists.nodup (slot dev)
  have hchain := h.lists.chain (slot dev)
  have hlen := h.lists.length_le (fun x hx => Nat.lt_of_lt_of_le hx h.cnt_le) (slot dev)
  rw [hL] at hnd hchain hlen
  rw [hc] at hchain
  have hnext : s.cnext (some i) = some j := hchain.2.1
  have hij : i ≠ j := fun he => (List.nodup_cons.mp hnd).1 (he ▸ List.mem_cons_self)
  have halloc : s.scacheAlloc = some (some i,{ s with
      alist := s.alist.recycle (some i), clast := update s.clast (some j) none }) := by
    rw [alloc_first h.unused hfull hb hl,hnext,if_neg (by simp)]
  have hblk : (filled D dev b n { s with
      alist := s.alist.recycle (some i), clast := update s.clast (some j) none } i).blk (some i) = b := by
    rw [filled_eq]
    exact update_self ..
  have hins : (filled D dev b n { s with
      alist := s.alist.recycle (some i), clast := update s.clast (some j) none } i).scacheInsert (slot dev) (some i) =
      some (-1,filled D dev b n { s with
        alist := s.alist.recycle (some i), clast := update s.clast (some j) none } i) := by
    rw [scacheInsert,if_neg (by rw [filled_eq]; dsimp only; rw [hc]; simp)]
    rw [show (filled D dev b n { s with
      alist := s.alist.recycle (some i), clast := update s.clast (some j) none } i).clist (slot dev) = some i from hc]
    rw [show NSECACHS = 511 + 1 from rfl,place,if_pos rfl]
  refine ⟨filled D dev b n { s with alist := s.alist.recycle (some i), clast := update s.clast (some j) none } i,?_,rfl,?_⟩
  · rw [scacheGet,(h.seek_none hd).mpr hnew]
    simp only [Option.bind_eq_bind,Option.bind_some,ne_eq,not_true_eq_false,↓reduceIte,ho,Bool.true_eq_false,
      scacheLoad,halloc]
    change (scacheInsert (filled D dev b n { s with
      alist := s.alist.recycle (some i), clast := update s.clast (some j) none } i) _ _).bind _ = _
    rw [hins]
    rfl
  · refine ⟨?_,?_,hc,hchain,hnd,?_,update_self ..,hblk,?_,hlen⟩
    · exact (AllocList.recycle_cnt _).trans hfull
    · exact (AllocList.recycle_sem _).trans h.unused
    · exact (update_of_ne (by simpa using hij) _ _).trans hl
    · intro x hx
      refine update_of_ne ?_ _ _
      intro he
      exact (List.nodup_cons.mp hnd).1 (Option.some.inj he ▸ hx)

theorem Loose.seek_eq {k : ℕ} (h : s.Loose dev i j B β b) (hk : k ∈ B) (hne : β k ≠ b)
    (huniq : ∀ x ∈ j :: B, β x = β k → x = k) : s.scacheSeek (s.clist (slot dev)) (β k) = some (some k) := by
  rw [h.seek,Option.some_inj]
  cases hf : (i :: j :: B).find? (fun x => s.blk (some x) = β k) with
  | none =>
    have := List.find?_eq_none.mp hf k (by simp [hk])
    exact absurd (h.blk_eq k (by simp [hk])) (by simpa using this)
  | some x =>
    have hx : s.blk (some x) = β k := by simpa using List.find?_some hf
    rcases List.mem_cons.mp (List.mem_of_find?_eq_some hf) with rfl | hm
    · exact absurd (hx.symm.trans h.blk_head) hne
    · rw [huniq x hm ((h.blk_eq x hm).symm.trans hx)]

theorem Loose.get_hit {k : ℕ} (h : s.Loose dev i j B β b) (hk : k ∈ B) (hne : β k ≠ b)
    (huniq : ∀ x ∈ j :: B, β x = β k → x = k) :
    scacheGet D dev (β k) n s = some (some k,s.scachePromo (some k)) ∧
      (s.scachePromo (some k)).Loose dev i j B β b := by
  refine ⟨?_,?_⟩
  · rw [scacheGet,h.seek_eq hk hne huniq]
    simp
  · refine ⟨?_,?_,h.head,h.chain,h.nodup,h.first,h.second,h.blk_head,h.blk_eq,h.length_le⟩
    · simpa [scachePromo] using h.full
    · simpa [scachePromo] using h.unused

structure Circular (s : Scache) (dev i j : ℕ) (b b' : ℤ) : Prop where
  head : s.clist (slot dev) = some j
  fwd : s.cnext (some j) = some i
  back : s.cnext (some i) = some j
  blk_head : s.blk (some j) = b'
  blk_next : s.blk (some i) = b

theorem Circular.touch (h : s.Circular dev i j b b') (f : Ptr → ℕ → UInt8) (d : ℕ → ℕ → UInt8) (p : ℕ → ℕ) :
    { s with buf := f, disk := d, pos := p }.Circular dev i j b b' :=
  ⟨h.head,h.fwd,h.back,h.blk_head,h.blk_next⟩

/-- A miss for a smaller block that recycles the second entry puts it in front of the head. -/
theorem Loose.get_second (h : s.Loose dev i j B β b) (hb : s.alist.begin = some j) (ho : D.openOk dev) (hlt : b' < b)
    (hnew : ∀ x ∈ j :: B, β x ≠ b') :
    ∃ t, scacheGet D dev b' n s = some (some j,t) ∧ t.Circular dev i j b b' := by
  have hij : i ≠ j := fun he => (List.nodup_cons.mp h.nodup).1 (he ▸ List.mem_cons_self)
  have hmiss : s.scacheSeek (s.clist (slot dev)) b' = some none := by
    rw [h.seek,Option.some_inj,List.find?_eq_none]
    intro x hx
    rcases List.mem_cons.mp hx with rfl | hx
    · simp only [decide_eq_true_eq,h.blk_head]
      omega
    · simpa only [decide_eq_true_eq,h.blk_eq x hx] using hnew x hx
  obtain ⟨cl,hcl,halloc⟩ : ∃ cl, cl (some i) = none ∧
      s.scacheAlloc = some (some j,{ s with alist := s.alist.recycle (some j), clast := cl }) := by
    refine ⟨_,?_,alloc_first h.unused h.full hb h.second⟩
    split
    · exact h.first
    · rw [update_of_ne,h.first]
      have hn := h.chain.2.2
      intro he
      rw [← he] at hn
      cases B with
      | nil => exact nomatch (show (some i : Ptr) = none from hn)
      | cons x B =>
        obtain ⟨hx,-⟩ := hn
        have := (List.nodup_cons.mp h.nodup).1
        rw [Option.some.inj hx] at this
        simp at this
  have hblk : ∀ x, (filled D dev b' n { s with alist := s.alist.recycle (some j), clast := cl } j).blk x =
      update s.blk (some j) b' x := fun x => rfl
  have hplace : (filled D dev b' n { s with alist := s.alist.recycle (some j), clast := cl } j).place b' NSECACHS
      (some i) = some (.before (some i)) := by
    have hi : update s.blk (some j) b' (some i) = b := by
      rw [update_of_ne (by simpa using hij),h.blk_head]
    rw [show NSECACHS = 511 + 1 from rfl,place,hblk,hi,if_neg (by omega),if_pos (by omega)]
  refine ⟨(filled D dev b' n { s with alist := s.alist.recycle (some j), clast := cl } j).insertBefore (slot dev)
    (some j) (some i),?_,?_⟩
  · rw [scacheGet,hmiss]
    simp only [Option.bind_eq_bind,Option.bind_some,ne_eq,not_true_eq_false,↓reduceIte,ho,Bool.true_eq_false,
      scacheLoad,halloc]
    change (scacheInsert (filled D dev b' n { s with alist := s.alist.recycle (some j), clast := cl } j) _ _).bind _ = _
    rw [scacheInsert,if_neg (by rw [filled_eq]; dsimp only; rw [h.head]; simp)]
    rw [show (filled D dev b' n { s with alist := s.alist.recycle (some j), clast := cl } j).clist (slot dev) = some i
      from h.head]
    rw [hblk,update_self,hplace]
    rfl
  · have hji : (some j : Ptr) ≠ some i := by simpa using hij.symm
    have hback : s.cnext (some i) = some j := h.chain.2.1
    constructor <;> simp [insertBefore,setClast,setCnext,setClist,filled_eq,hcl,hji,hji.symm,hback,h.blk_head]

/-- A search for another block goes round in circles. -/
theorem Circular.get (h : s.Circular dev i j b b') {x : ℤ} (hb : x ≠ b) (hb' : x ≠ b') : scacheGet D dev x n s = none := by
  have hloop : ∀ fuel, find s.cnext (fun y => s.blk (some y) = x) fuel (some j) = none ∧
      find s.cnext (fun y => s.blk (some y) = x) fuel (some i) = none := by
    intro fuel
    induction fuel with
    | zero => exact ⟨rfl,rfl⟩
    | succ fuel ih =>
      rw [find,find,h.fwd,h.back,h.blk_head,h.blk_next,if_neg (by simpa using hb'.symm),if_neg (by simpa using hb.symm)]
      exact ⟨ih.2,ih.1⟩
  rw [scacheGet,scacheSeek,h.head,(hloop _).1]
  rfl

/-! ## A table to start from -/

/-- The block that entry `i` caches: the entries at the front of the allocation list and at the
front of the device list come in different orders. -/
def crowdBlk (i : ℕ) : ℤ := if i = 0 then 1 else if i = 1 then 3 else if i = 2 then 2 else i + 1

theorem crowdBlk_inj {i j : ℕ} (h : crowdBlk i = crowdBlk j) : i = j := by
  unfold crowdBlk at h
  split_ifs at h <;> omega

def crowd : List Get := (List.range NSECACHS).map (fun i => ⟨0,crowdBlk i,512⟩)

theorem sorted_head {l : List ℕ} {f : ℕ → ℤ} {x : ℕ} (h : l.Pairwise (fun i j => f i < f j)) (hx : x ∈ l)
    (hmin : ∀ y ∈ l, y ≠ x → f x < f y) : ∃ m, l = x :: m := by
  cases l with
  | nil => exact absurd hx List.not_mem_nil
  | cons y l =>
    by_cases hyx : y = x
    · exact ⟨l,by rw [hyx]⟩
    · have hlt := hmin y List.mem_cons_self hyx
      have hgt := (List.pairwise_cons.mp h).1 x ((List.mem_cons.mp hx).resolve_left (Ne.symm hyx))
      omega

/-- The full table: entry 0 is next to be recycled and heads the list, with entry 2 behind it. -/
theorem crowd_run (disk : ℕ → ℕ → UInt8) : ∃ s L B, getRun anyDevs disk crowd = some s ∧ s.Filled L
    (crowd.map (fun g => (g.dev,g.blk))) ∧ s.disk = disk ∧ s.alist.cnt = NSECACHS ∧
    (∀ i < NSECACHS, s.src (some i) = (0,crowdBlk i) ∧ s.blk (some i) = crowdBlk i) ∧ L (slot 0) = 0 :: 2 :: B ∧
    ∀ i, i ∈ 0 :: 2 :: B ↔ i < NSECACHS := by
  have hmap : crowd.map (fun g => (g.dev,g.blk)) = (List.range NSECACHS).map (fun i => (0,crowdBlk i)) := by
    rw [crowd,List.map_map]
    rfl
  have hlen : (crowd.map (fun g => (g.dev,g.blk))).length = NSECACHS := by rw [hmap,List.length_map,List.length_range]
  have hnd : (crowd.map (fun g => (g.dev,g.blk))).Nodup := by
    rw [hmap]
    refine (List.nodup_map_iff_inj_on List.nodup_range).mpr (fun x _ y _ hxy => ?_)
    exact crowdBlk_inj (Prod.mk.inj hxy).2
  have hdev : ∀ g ∈ crowd, DevOk g.dev ∧ anyDevs.openOk g.dev := by
    intro g hg
    obtain ⟨i,-,rfl⟩ := List.mem_map.mp hg
    exact ⟨show DevOk 0 by decide,rfl⟩
  obtain ⟨s,L,hs,hfill,hdisk,-,-⟩ := (boot_filled disk).run crowd hdev hnd (by simp)
    (by simp [crowd])
  rw [List.nil_append] at hfill
  have hcnt : s.alist.cnt = NSECACHS := hfill.cnt.trans hlen
  have hsrc : ∀ i < NSECACHS, s.src (some i) = (0,crowdBlk i) := by
    intro i hi
    rw [hfill.src_eq i (by rw [hlen]; exact hi)]
    simp [crowd]
  have hmem : ∀ i, i ∈ L (slot 0) ↔ i < NSECACHS := by
    intro i
    constructor
    · intro hi
      exact hcnt ▸ hfill.inv.mem_lt hi
    · intro hi
      rw [hfill.inv.mem_iff (by rw [hcnt]; exact hi),hsrc i hi]
  have hblk : ∀ i < NSECACHS, s.blk (some i) = crowdBlk i := by
    intro i hi
    rw [← (hfill.inv.owner _ i ((hmem i).mpr hi)).2.2,hsrc i hi]
  -- the two smallest blocks come first
  have hsorted := hfill.inv.lists.sorted (slot 0)
  obtain ⟨m,hm⟩ := sorted_head hsorted ((hmem 0).mpr (by decide)) (fun y hy hne => by
    rw [hblk 0 (by decide),hblk y ((hmem y).mp hy)]
    unfold crowdBlk
    split_ifs <;> omega)
  rw [hm] at hsorted
  have hnot : 0 ∉ m := by
    have := hfill.inv.lists.nodup (slot 0)
    rw [hm] at this
    exact (List.nodup_cons.mp this).1
  obtain ⟨B,hB⟩ := sorted_head (x := 2) (List.pairwise_cons.mp hsorted).2 (by
    have := (hmem 2).mpr (by decide)
    rw [hm] at this
    exact (List.mem_cons.mp this).resolve_left (by decide)) (fun y hy hne => by
    have hy0 : y ≠ 0 := fun he => hnot (he ▸ hy)
    rw [hblk 2 (by decide),hblk y ((hmem y).mp (by rw [hm]; exact List.mem_cons_of_mem _ hy))]
    unfold crowdBlk
    split_ifs <;> omega)
  refine ⟨s,L,B,hs,hfill,hdisk,hcnt,fun i hi => ⟨hsrc i hi,hblk i hi⟩,by rw [hm,hB],fun i => ?_⟩
  rw [← hB,← hm]
  exact hmem i

end Scache
end Micron.Kernel

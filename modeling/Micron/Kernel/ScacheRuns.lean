import Micron.Kernel.ScacheGet
import Micron.Lib.Runs

/-! # Runs of block requests

A sequence of `scache_get` calls from boot keeps every entry on the list of the device
it was read from, as long as recycling spares the heads of the lists. Requests for
pairwise different blocks fill the table in order, which sets up the run that fails.
-/
namespace Micron.Kernel.Scache
open Function Runs

structure Get where
  dev : ℕ
  blk : ℤ
  blksize : ℕ

/-- A request on a device with a list of its own, with a sector number that fits in an
`off_t` and that the device accepts. -/
structure Get.Valid (D : BlkDevs) (g : Get) : Prop where
  dev_ok : DevOk g.dev
  nonneg : 0 ≤ g.blk
  fits : g.blk * (g.blksize / 512 : ℕ) < 2 ^ 31
  seek_ok : D.openOk g.dev → D.seekOk g.dev (sector g.blk g.blksize)

/-- The block fits into the `buf` of an entry. A longer read would run into the fields and the
entries behind it. -/
structure Get.InBuf (D : BlkDevs) (g : Get) : Prop extends Get.Valid D g where
  size_le : g.blksize ≤ NMXBLKSZ

def Get.addr (g : Get) : ℕ := g.blk.toNat * (g.blksize / 512) * 512

def getStep (D : BlkDevs) (s : Scache) (g : Get) : Option Scache :=
  (scacheGet D g.dev g.blk g.blksize s).map Prod.snd

def getRun (D : BlkDevs) (disk : ℕ → ℕ → UInt8) (gs : List Get) : Option Scache :=
  gs.foldlM (getStep D) (boot disk)

def HoldsData (gs : List Get) (s : Scache) (i dev : ℕ) (blk : ℤ) : Prop :=
  ∃ g ∈ gs, g.dev = dev ∧ g.blk = blk ∧
    ∀ k < g.blksize / 512 * 512, s.buf (some i) k = s.disk dev (g.addr + k)

/-- Each entry is on one list only, once, that of the device it was read from, and a search
on a device's list returns an entry with the data of that device and block. -/
def Unmixed (gs : List Get) (s : Scache) : Prop :=
  ∃ L : ℕ → List ℕ, (∀ k, Linked.Chain s.cnext (s.clist k) (L k) ∧ (L k).Nodup) ∧
    (∀ k, ∀ i ∈ L k, i < s.alist.cnt) ∧
    (∀ i < s.alist.cnt, ∀ k, i ∈ L k ↔ k = slot (s.src (some i)).1) ∧
    (∀ i < s.alist.cnt, HoldsData gs s i (s.src (some i)).1 (s.src (some i)).2) ∧
    ∀ dev, DevOk dev → ∀ blk i, s.scacheSeek (s.clist (slot dev)) blk = some (some i) →
      s.src (some i) = (dev,blk)

variable {s t : Scache} {L : ℕ → List ℕ} {D : BlkDevs} {g : Get} {gs : List Get} {i : ℕ}
  {disk : ℕ → ℕ → UInt8}

theorem Get.Valid.sector_eq (h : g.Valid D) :
    (sector g.blk g.blksize).toNat = g.blk.toNat * (g.blksize / 512) := by
  have h0 : 0 ≤ g.blk * (g.blksize / 512 : ℕ) := Int.mul_nonneg h.nonneg (Int.natCast_nonneg _)
  have hf := h.fits
  have hs : sector g.blk g.blksize = g.blk * (g.blksize / 512 : ℕ) := by
    unfold sector
    exact Int.bmod_eq_of_le (by omega) (by omega)
  rw [hs,Int.toNat_mul h.nonneg (Int.natCast_nonneg _),Int.toNat_natCast]

/-- A loaded entry holds the bytes at the address of the block. -/
theorem Loads.data (h : Loads D g.dev g.blk g.blksize s t i) (hv : g.Valid D) (ho : D.openOk g.dev)
    {k : ℕ} (hk : k < g.blksize / 512 * 512) : t.buf (some i) k = s.disk g.dev (g.addr + k) := by
  have hp : t.pos g.dev = g.blk.toNat * (g.blksize / 512) := by
    rw [h.pos,seekPos,if_pos (hv.seek_ok ho),update_self,hv.sector_eq]
  rw [h.buf,update_self,if_pos hk,hp,Get.addr]

/-! ## Requests keep the lists apart -/

structure Sound (gs : List Get) (s : Scache) (L : ℕ → List ℕ) : Prop where
  inv : s.Inv L
  data : ∀ i < s.alist.cnt, HoldsData gs s i (s.src (some i)).1 (s.src (some i)).2

theorem boot_sound : (boot disk).Sound gs (fun _ => []) := ⟨boot_inv disk,by simp [boot,AllocList.boot]⟩

theorem Sound.unmixed (h : s.Sound gs L) : s.Unmixed gs := by
  refine ⟨L,fun k => ⟨h.inv.lists.chain k,h.inv.lists.nodup k⟩,?_,?_,h.data,?_⟩
  · intro k i hi
    exact h.inv.mem_lt hi
  · intro i hi k
    exact h.inv.mem_iff hi
  · intro dev hd blk i hi
    exact (h.inv.seek_src hd hi).2

/-- Entries other than the loaded one keep what they hold. -/
theorem Loads.other {j : ℕ} {dev blksize : ℕ} {blk : ℤ} (h : Loads D dev blk blksize s t i) (hj : j ≠ i) :
    t.src (some j) = s.src (some j) ∧ t.buf (some j) = s.buf (some j) ∧
      (j < t.alist.cnt → j < s.alist.cnt) := by
  refine ⟨by simp [h.src,hj],by simp [h.buf,hj],fun hlt => ?_⟩
  rcases h.takes with ⟨_,rfl,ha⟩ | ⟨_,_,ha⟩
  · rw [ha,AllocList.append_cnt] at hlt
    omega
  · rwa [ha,AllocList.recycle_cnt] at hlt

theorem Sound.get (h : s.Sound gs L) (hg : g ∈ gs) (hv : g.Valid D)
    (hs : D.openOk g.dev → s.SparesHeads g.dev g.blk) :
    ∃ t, getStep D s g = some t ∧ ∃ L', t.Sound gs L' := by
  by_cases ho : D.openOk g.dev
  · obtain ⟨i,L',t,ht,hinv,-,-,hcase⟩ := h.inv.get g.blksize hv.dev_ok ho (hs ho)
    refine ⟨t,by simp [getStep,ht],L',hinv,fun j hj => ?_⟩
    rcases hcase with ⟨hi,hsrc,rfl⟩ | ⟨-,hload⟩
    · exact h.data j (by simpa [scachePromo] using hj)
    · by_cases hji : j = i
      · subst hji
        refine ⟨g,hg,by simp [hload.src],by simp [hload.src],fun k hk => ?_⟩
        rw [hload.data hv ho hk,hload.disk,hload.src,update_self]
      · obtain ⟨hsrc,hbuf,hlt⟩ := hload.other hji
        obtain ⟨g',hg',hd',hb',hk'⟩ := h.data j (hlt hj)
        rw [hsrc]
        refine ⟨g',hg',hd',hb',fun k hk => ?_⟩
        rw [hbuf,hload.disk,hk' k hk]
  · cases hf : (L (slot g.dev)).find? (fun i => s.blk (some i) = g.blk) with
    | none =>
      have hseek := h.inv.seek (slot g.dev) g.blk
      rw [hf] at hseek
      exact ⟨s,by simp [getStep,scacheGet,hseek,ho],L,h⟩
    | some i =>
      have hseek := h.inv.seek (slot g.dev) g.blk
      rw [hf] at hseek
      have hi := (h.inv.seek_src hv.dev_ok hseek).1
      refine ⟨s.scachePromo (some i),by simp [getStep,scacheGet,hseek],L,h.inv.promo hi,fun j hj => ?_⟩
      exact h.data j (by simpa [scachePromo] using hj)

/-! ## Filling the table -/

/-- The state after the first `src.length` misses: entry `i` was read for the `i`-th of them. -/
structure Filled (s : Scache) (L : ℕ → List ℕ) (src : List (ℕ × ℤ)) : Prop where
  inv : s.Inv L
  order : s.alist.Holds (List.range src.length)
  src_eq : ∀ i (h : i < src.length), s.src (some i) = src[i]

theorem boot_filled (disk : ℕ → ℕ → UInt8) : (boot disk).Filled (fun _ => []) [] := ⟨boot_inv disk,AllocList.boot_holds,by simp⟩

theorem Filled.cnt {src : List (ℕ × ℤ)} (h : s.Filled L src) : s.alist.cnt = src.length :=
  h.order.length.symm.trans List.length_range

theorem Filled.get {src : List (ℕ × ℤ)} (h : s.Filled L src) (hd : DevOk g.dev) (ho : D.openOk g.dev)
    (hlt : src.length < NSECACHS) (hnew : (g.dev,g.blk) ∉ src) :
    ∃ t L', getStep D s g = some t ∧ t.Filled L' (src ++ [(g.dev,g.blk)]) ∧
      Loads D g.dev g.blk g.blksize s t src.length := by
  have hspare : s.SparesHeads g.dev g.blk := by
    intro _ hc
    rw [h.cnt] at hc
    omega
  obtain ⟨i,L',t,ht,hinv,-,-,hcase⟩ := h.inv.get g.blksize hd ho hspare
  rcases hcase with ⟨hi,hsrc,-⟩ | ⟨-,hload⟩
  · rw [h.cnt] at hi
    rw [h.src_eq i hi] at hsrc
    exact absurd (hsrc ▸ List.getElem_mem hi) hnew
  · rcases hload.takes with ⟨_,hi,ha⟩ | ⟨hc,-,-⟩
    · rw [h.cnt] at hi
      subst hi
      refine ⟨t,L',by simp [getStep,ht],⟨hinv,?_,?_⟩,hload⟩
      · have happ := AllocList.append_holds h.order
        rw [h.cnt,← List.range_succ] at happ
        simpa [ha] using happ
      · intro j hj
        rw [List.getElem_append]
        split
        · rename_i hj'
          rw [(hload.other (Nat.ne_of_lt hj')).1,h.src_eq j hj']
        · have hje : j = src.length := by
            simp only [List.length_append,List.length_singleton] at hj
            omega
          subst hje
          simp [hload.src]
    · rw [h.cnt] at hc
      omega

/-- Requests for pairwise different new blocks take the table entries in order. -/
theorem Filled.run {src : List (ℕ × ℤ)} (gs : List Get) (h : s.Filled L src)
    (hd : ∀ g ∈ gs, DevOk g.dev ∧ D.openOk g.dev) (hnd : (gs.map (fun g => (g.dev,g.blk))).Nodup)
    (hnew : ∀ g ∈ gs, (g.dev,g.blk) ∉ src) (hlen : src.length + gs.length ≤ NSECACHS) :
    ∃ t L', gs.foldlM (getStep D) s = some t ∧
      t.Filled L' (src ++ gs.map (fun g => (g.dev,g.blk))) ∧
      t.disk = s.disk ∧ t.mode = s.mode ∧ ∀ i < src.length, t.buf (some i) = s.buf (some i) := by
  induction gs generalizing s L src with
  | nil => exact ⟨s,L,rfl,by simpa using h,rfl,rfl,fun _ _ => rfl⟩
  | cons g gs ih =>
    obtain ⟨hg,hnd⟩ := List.nodup_cons.mp hnd
    simp only [List.length_cons] at hlen
    obtain ⟨t,L',ht,hfill,hload⟩ := h.get (hd g (by simp)).1 (hd g (by simp)).2 (by omega) (hnew g (by simp))
    have hnew' : ∀ g' ∈ gs, (g'.dev,g'.blk) ∉ src ++ [(g.dev,g.blk)] := by
      intro g' hg' hmem
      rcases List.mem_append.mp hmem with hmem | hmem
      · exact hnew g' (by simp [hg']) hmem
      · rw [List.mem_singleton] at hmem
        exact hg (List.mem_map.mpr ⟨g',hg',hmem⟩)
    obtain ⟨u,L'',hu,hfill',hdisk,hmode,hbuf⟩ := ih hfill (fun g' hg' => hd g' (by simp [hg'])) hnd hnew'
      (by simp only [List.length_append,List.length_singleton]; omega)
    refine ⟨u,L'',by simp [ht,hu],by simpa using hfill',hdisk.trans hload.disk,hmode.trans hload.mode,?_⟩
    intro i hi
    rw [hbuf i (by simp only [List.length_append,List.length_singleton]; omega),
      (hload.other (Nat.ne_of_lt hi)).2.1]

/-! ## Recycling the head of a list -/

theorem detach_head (h : s.clast (some i) = none) : s.detach (some i) = { s with
    clast := if s.cnext (some i) = none then s.clast else update s.clast (s.cnext (some i)) none } := by
  by_cases hn : s.cnext (some i) = none <;> simp [detach,setClast,h,hn]

/-- An entry at `begin` of a full table that nothing comes before is recycled without being taken
out of its list. -/
theorem alloc_first (hz : s.alist.sem = fun _ => 0) (hfull : s.alist.cnt = NSECACHS) (hb : s.alist.begin = some i)
    (hl : s.clast (some i) = none) : s.scacheAlloc = some (some i,{ s with
      alist := s.alist.recycle (some i)
      clast := if s.cnext (some i) = none then s.clast else update s.clast (s.cnext (some i)) none }) := by
  have hd := detach_head (s := { s with alist := s.alist.recycle (some i) }) hl
  dsimp only at hd
  simp only [scacheAlloc,hfull,Nat.lt_irrefl,↓reduceIte,AllocList.alloc_begin hfull (by decide) hb (by rw [hz]),
    Option.map_some,hd]

/-- A recycled list head keeps its `cnext`, and the list keeps its head pointer. -/
theorem alloc_head (hz : s.alist.sem = fun _ => 0) (hfull : s.alist.cnt = NSECACHS)
    (hb : s.alist.begin = some i) (hl : s.clast (some i) = none) (hn : s.cnext (some i) ≠ some i) :
    ∃ cl, s.scacheAlloc = some (some i,{ s with alist := s.alist.recycle (some i), clast := cl }) ∧
      cl (some i) = none := by
  refine ⟨_,alloc_first hz hfull hb hl,?_⟩
  split
  · exact hl
  · rw [update_of_ne hn.symm,hl]

theorem place_some {b : ℤ} {p : Ptr} {l : List ℕ} {fuel : ℕ} (hc : Linked.Chain s.cnext p l) (hne : l ≠ [])
    (hf : l.length ≤ fuel) : ∃ q, s.place b fuel p = some q := by
  induction l generalizing p fuel with
  | nil => exact absurd rfl hne
  | cons x l ih =>
    obtain ⟨rfl,hc⟩ := hc
    cases fuel with
    | zero => simp at hf
    | succ fuel =>
      unfold place
      split
      · exact ⟨_,rfl⟩
      split
      · exact ⟨_,rfl⟩
      split
      · exact ⟨_,rfl⟩
      · rename_i hn
        refine ih hc ?_ (by simpa using hf)
        rintro rfl
        exact hn hc

theorem insert_other {k m : ℕ} {l : List ℕ} (hc : Linked.Chain s.cnext (s.clist k) l) (hl : l.length ≤ NSECACHS)
    (hk : m ≠ k) (item : Ptr) :
    ∃ r cn cl ch, s.scacheInsert k item = some (r,{ s with cnext := cn, clast := cl, clist := ch }) ∧
      ch m = s.clist m := by
  unfold scacheInsert
  split
  · exact ⟨_,_,_,_,rfl,update_of_ne hk _ _⟩
  · rename_i hn
    have hne : l ≠ [] := by
      rintro rfl
      exact hn hc
    obtain ⟨q,hq⟩ := place_some (b := s.blk item) hc hne hl
    rw [hq]
    cases q with
    | same => exact ⟨_,_,_,_,rfl,rfl⟩
    | before c =>
      dsimp only [insertBefore]
      split
      · exact ⟨_,_,_,_,rfl,update_of_ne hk _ _⟩
      · exact ⟨_,_,_,_,rfl,rfl⟩
    | after c =>
      dsimp only [insertAfter]
      split
      · exact ⟨_,_,_,_,rfl,update_of_ne hk _ _⟩
      · exact ⟨_,_,_,_,rfl,rfl⟩

theorem Inv.head_links {k : ℕ} {B : List ℕ} (h : s.Inv L) (hk : L k = i :: B) :
    s.clast (some i) = none ∧ s.cnext (some i) ≠ some i ∧ s.clist k = some i := by
  have hseg := h.lists.seg k
  have hnd := h.lists.nodup k
  rw [hk] at hseg hnd
  refine ⟨hseg.1,?_,by rw [h.lists.head,hk]; rfl⟩
  rw [hseg.2.1,Option.or_none]
  exact fun hB => (List.nodup_cons.mp hnd).1 (List.mem_of_head? hB)

/-- An entry that caches a later block than another one heads no list. -/
theorem Inv.not_head {j : ℕ} (h : s.Inv L) (hi : i < s.alist.cnt) (hj : j < s.alist.cnt)
    (hd : (s.src (some i)).1 = (s.src (some j)).1) (hlt : (s.src (some j)).2 < (s.src (some i)).2) (k : ℕ) :
    s.clist k ≠ some i := by
  intro hk
  rw [h.lists.head] at hk
  obtain ⟨B,hB⟩ := List.head?_eq_some_iff.mp hk
  have hik : i ∈ L k := by simp [hB]
  have hjk : j ∈ L k := by rw [h.mem_iff hj,← hd,← h.mem_iff hi]; exact hik
  have hbi := (h.owner k i hik).2.2
  have hbj := (h.owner k j hjk).2.2
  have hs := h.lists.sorted k
  rw [hB] at hs hjk
  rcases List.mem_cons.mp hjk with rfl | hjB
  · exact absurd hlt (lt_irrefl _)
  · have := (List.pairwise_cons.mp hs).1 j hjB
    omega

/-- A miss that recycles the head of another device's list leaves the entry there. -/
theorem Inv.load_head {k : ℕ} {B : List ℕ} (dev : ℕ) (blk : ℤ) (blksize : ℕ) (h : s.Inv L) (hfull : s.alist.cnt = NSECACHS)
    (hb : s.alist.begin = some i) (hk : L k = i :: B) (hne : k ≠ slot dev) :
    ∃ t, scacheLoad D dev blk blksize s = some (some i,t) ∧ t.clist k = some i ∧
      t.blk (some i) = blk ∧ t.src (some i) = (dev,blk) ∧
      t.buf (some i) = fun n => if n < blksize / 512 * 512
        then s.disk dev (seekPos D s.pos dev (sector blk blksize) dev * 512 + n) else s.buf (some i) n := by
  obtain ⟨hl,hn,hc⟩ := h.head_links hk
  obtain ⟨cl,ha,-⟩ := alloc_head h.unused hfull hb hl hn
  have hlen := h.lists.length_le (fun j hj => Nat.lt_of_lt_of_le hj h.cnt_le) (slot dev)
  obtain ⟨r,cn,cl',ch,hins,hch⟩ := insert_other (m := k) (l := L (slot dev))
    (s := filled D dev blk blksize { s with alist := s.alist.recycle (some i), clast := cl } i)
    (h.lists.chain _) hlen hne (some i)
  refine ⟨{ filled D dev blk blksize { s with alist := s.alist.recycle (some i), clast := cl } i with
    cnext := cn, clast := cl', clist := ch },?_,hch.trans hc,?_,?_,?_⟩
  · simp only [scacheLoad,ha,Option.bind_eq_bind,Option.bind_some]
    change (scacheInsert (filled D dev blk blksize { s with alist := s.alist.recycle (some i), clast := cl } i)
      _ _).bind _ = _
    rw [hins]
    rfl
  · simp [filled_eq]
  · simp [filled_eq]
  · simp [filled_eq]

theorem seek_head {b : ℤ} (h : s.blk (some i) = b) : s.scacheSeek (some i) b = some (some i) := by
  change Linked.find _ _ (511 + 1) _ = _
  rw [Linked.find]
  simp [h]

def anyDevs : BlkDevs := ⟨fun _ => true,fun _ _ => true⟩

def sectors (dev n : ℕ) : List Get := (List.range n).map (fun j : ℕ => ⟨dev,j,512⟩)

@[simp] theorem sectors_length (dev n : ℕ) : (sectors dev n).length = n := by simp [sectors]

theorem sectors_succ (dev n : ℕ) : sectors dev (n + 1) = sectors dev n ++ [⟨dev,n,512⟩] := by
  simp [sectors,List.range_succ]

theorem sectors_nodup (dev n : ℕ) : ((sectors dev n).map (fun g => (g.dev,g.blk))).Nodup := by
  rw [sectors,List.map_map]
  refine (List.nodup_map_iff_inj_on List.nodup_range).mpr ?_
  intro x _ y _ hxy
  simpa using hxy

theorem sectors_valid {d n : ℕ} (hd : DevOk d) (hn : n ≤ 2 ^ 31) : ∀ g ∈ sectors d n, g.Valid anyDevs := by
  intro g hg
  obtain ⟨j,hj,rfl⟩ := List.mem_map.mp hg
  have hj' := List.mem_range.mp hj
  refine ⟨hd,Int.natCast_nonneg j,?_,fun _ => rfl⟩
  norm_num
  omega

def oneThenSectors (d : ℕ) (b : ℤ) (e n : ℕ) : List Get := ⟨d,b,512⟩ :: sectors e n

theorem oneThenSectors_succ (d : ℕ) (b : ℤ) (e n : ℕ) :
    oneThenSectors d b e (n + 1) = oneThenSectors d b e n ++ [⟨e,n,512⟩] := by
  simp [oneThenSectors,sectors_succ]

theorem oneThenSectors_valid {d e n : ℕ} {b : ℤ} (hd : DevOk d) (he : DevOk e) (hb : 0 ≤ b)
    (hb' : b < 2 ^ 31) (hn : n ≤ 2 ^ 31) : ∀ g ∈ oneThenSectors d b e n, g.Valid anyDevs := by
  refine List.forall_mem_cons.mpr ⟨⟨hd,hb,?_,fun _ => rfl⟩,sectors_valid he hn⟩
  norm_num
  exact hb'

theorem oneThenSectors_inBuf {d e n : ℕ} {b : ℤ} (hd : DevOk d) (he : DevOk e) (hb : 0 ≤ b)
    (hb' : b < 2 ^ 31) (hn : n ≤ 2 ^ 31) : ∀ g ∈ oneThenSectors d b e n, g.InBuf anyDevs := by
  intro g hg
  refine ⟨oneThenSectors_valid hd he hb hb' hn g hg,?_⟩
  have hsize : g.blksize = 512 := by
    simp only [oneThenSectors,sectors,List.mem_cons,List.mem_map] at hg
    obtain rfl | ⟨_,-,rfl⟩ := hg
    · rfl
    · rfl
  rw [hsize]
  decide

theorem oneThenSectors_prefix {d e n : ℕ} {b : ℤ} (disk : ℕ → ℕ → UInt8) (hd : DevOk d) (he : DevOk e) (hn : n < NSECACHS)
    (hb : ∀ j < n, (d,b) ≠ (e,(j : ℤ))) {pre : List Get} (hp : pre <+: oneThenSectors d b e n) :
    ∃ s L, getRun anyDevs disk pre = some s ∧
      s.Filled L (pre.map (fun g => (g.dev,g.blk))) ∧ s.disk = disk := by
  have hnd : ((oneThenSectors d b e n).map (fun g => (g.dev,g.blk))).Nodup := by
    rw [oneThenSectors,List.map_cons,List.nodup_cons]
    refine ⟨?_,sectors_nodup e n⟩
    simp only [sectors,List.map_map,List.mem_map,List.mem_range]
    rintro ⟨j,hj,h⟩
    exact hb j hj h.symm
  have hdev : ∀ g ∈ oneThenSectors d b e n, DevOk g.dev ∧ anyDevs.openOk g.dev := by
    refine List.forall_mem_cons.mpr ⟨⟨hd,rfl⟩,?_⟩
    simp [sectors,he,anyDevs]
  have hlen := hp.length_le
  rw [oneThenSectors,List.length_cons,sectors_length] at hlen
  obtain ⟨s,L,hs,hfill,hdisk,-,-⟩ := (boot_filled disk).run (D := anyDevs) pre
    (fun g hg => hdev g (hp.subset hg)) (hnd.sublist (hp.sublist.map _)) (by simp)
    (by simp only [List.length_nil]; omega)
  exact ⟨s,L,hs,by simpa using hfill,hdisk⟩

/-- Once the table is full, entry 0 is next to be recycled. -/
theorem Filled.full {d e : ℕ} {b : ℤ}
    (h : s.Filled L ((oneThenSectors d b e 511).map (fun g => (g.dev,g.blk)))) :
    s.alist.cnt = NSECACHS ∧ s.alist.begin = some 0 := by
  have hcnt : s.alist.cnt = NSECACHS := by
    rw [h.cnt,List.length_map,oneThenSectors,List.length_cons,sectors_length]
    rfl
  refine ⟨hcnt,?_⟩
  rw [h.order.begin_eq,← h.cnt,hcnt,List.head?_range]
  rfl

theorem Filled.zero {d e n : ℕ} {b : ℤ}
    (h : s.Filled L ((oneThenSectors d b e n).map (fun g => (g.dev,g.blk)))) : s.src (some 0) = (d,b) :=
  h.src_eq 0 (by simp [oneThenSectors])

theorem Filled.succ {d e n j : ℕ} {b : ℤ}
    (h : s.Filled L ((oneThenSectors d b e n).map (fun g => (g.dev,g.blk)))) (hj : j < n) :
    s.src (some (j + 1)) = (e,(j : ℤ)) := by
  rw [h.src_eq (j + 1) (by simpa [oneThenSectors] using hj)]
  simp [oneThenSectors,sectors]

theorem Filled.not_cached {d e n : ℕ} {b : ℤ}
    (h : s.Filled L ((oneThenSectors d b e n).map (fun g => (g.dev,g.blk)))) {r : ℕ × ℤ} (h0 : (d,b) ≠ r)
    (hr : ∀ j < n, (e,((j : ℕ) : ℤ)) ≠ r) : ∀ i < s.alist.cnt, s.src (some i) ≠ r := by
  intro i hi
  rw [h.cnt,List.length_map,oneThenSectors,List.length_cons,sectors_length] at hi
  cases i with
  | zero => rwa [h.zero]
  | succ j =>
    rw [h.succ (by omega)]
    exact hr j (by omega)

/-- In a run of requests that fit into the buffers and whose misses on the full table never find
a list head at `begin`, the device lists stay apart. -/
theorem scache_lists_unmixed (D : BlkDevs) (disk : ℕ → ℕ → UInt8) (gs : List Get)
    (hv : ∀ g ∈ gs, g.InBuf D)
    (hs : AllSteps (getStep D) (fun s g => D.openOk g.dev → s.SparesHeads g.dev g.blk) (boot disk) gs) :
    ∃ s, getRun D disk gs = some s ∧ s.Unmixed gs := by
  obtain ⟨s,hr,L,hL⟩ := run_total (P := fun _ s => ∃ L, s.Sound gs L) gs ⟨_,boot_sound⟩ hs
    (fun _ s g hg ⟨L,hL⟩ hok => hL.get hg (hv g hg).toValid hok)
  exact ⟨s,hr,hL.unmixed⟩

/-- Entry 0 holds the last of the blocks, so the request that recycles it spares the head. -/
theorem scache_lists_unmixed_recycling : ∃ s,
    getRun anyDevs (fun _ _ => 0) (oneThenSectors 0 NSECACHS 0 NSECACHS) = some s ∧
      s.Unmixed (oneThenSectors 0 NSECACHS 0 NSECACHS) := by
  have hb : ∀ j < 511, ((0 : ℕ),(NSECACHS : ℤ)) ≠ (0,((j : ℕ) : ℤ)) := by
    intro j hj h
    simp only [Prod.mk.injEq,NSECACHS] at h
    omega
  refine scache_lists_unmixed anyDevs (fun _ _ => 0) _
    (oneThenSectors_inBuf (by decide) (by decide) (by decide) (by decide) (by decide)) ?_
  rw [show oneThenSectors 0 NSECACHS 0 NSECACHS = oneThenSectors 0 NSECACHS 0 (511 + 1) from rfl,
    oneThenSectors_succ]
  intro pre g t hp ht _ hseek hfull k hk
  rcases List.prefix_concat_iff.mp hp with he | hp
  · obtain ⟨rfl,rfl⟩ := List.append_singleton_inj.mp he
    obtain ⟨s,L,hs,hfill,-⟩ := oneThenSectors_prefix (d := 0) (e := 0) (fun _ _ => 0) (by decide)
      (by decide) (by decide) hb (List.prefix_refl _)
    obtain ⟨hcnt,hbegin⟩ := hfill.full
    obtain rfl : s = t := Option.some.inj (hs.symm.trans ht)
    rw [hbegin] at hk
    refine hfill.inv.not_head (i := 0) (j := 1) (by rw [hcnt]; decide) (by rw [hcnt]; decide) ?_ ?_ k hk
    · rw [hfill.zero,hfill.succ (j := 0) (by decide)]
    · rw [hfill.zero,hfill.succ (j := 0) (by decide)]
      decide
  · have hlen := hp.length_le
    have hpre := (List.prefix_append pre [g]).trans hp
    obtain ⟨s,L,hs,hfill,-⟩ := oneThenSectors_prefix (d := 0) (e := 0) (fun _ _ => 0) (by decide)
      (by decide) (by decide) hb hpre
    obtain rfl : s = t := Option.some.inj (hs.symm.trans ht)
    rw [hfill.cnt,List.length_map] at hfull
    simp only [oneThenSectors,List.length_append,List.length_cons,sectors_length,List.length_nil,hfull] at hlen
    exact absurd hlen (by decide)

/-- The last request recycles the only entry of device 0, which stays on that device's list
with the data of device 1. -/
theorem scache_lists_mixed : (∀ g ∈ oneThenSectors 0 0 1 NSECACHS, g.InBuf anyDevs) ∧
    ∃ s, getRun anyDevs (fun d _ => if d = 1 then 1 else 0) (oneThenSectors 0 0 1 NSECACHS) = some s ∧
      s.scacheSeek (s.clist (slot 0)) 511 = some (some 0) ∧ s.src (some 0) = (1,511) ∧
      s.buf (some 0) 0 = 1 ∧ ¬ s.Unmixed (oneThenSectors 0 0 1 NSECACHS) := by
  refine ⟨oneThenSectors_inBuf (by decide) (by decide) (by decide) (by decide) (by decide),?_⟩
  obtain ⟨s,L,hs,hfill,hdisk⟩ := oneThenSectors_prefix (d := 0) (b := 0) (e := 1) (n := 511)
    (fun d _ => if d = 1 then 1 else 0) (by decide) (by decide) (by decide) (by simp) (List.prefix_refl _)
  obtain ⟨hcnt,hbegin⟩ := hfill.full
  -- entry 0 is alone on the list of device 0
  have hmem : ∀ i, i ∈ L 0 ↔ i = 0 := by
    intro i
    constructor
    · intro hi
      have hlt := hfill.inv.mem_lt hi
      have hslot := (hfill.inv.mem_iff hlt).mp hi
      rw [hcnt] at hlt
      cases i with
      | zero => rfl
      | succ j =>
        rw [hfill.succ (Nat.lt_of_succ_lt_succ hlt)] at hslot
        exact absurd hslot (show ¬ 0 = slot 1 by decide)
    · rintro rfl
      rw [hfill.inv.mem_iff (by rw [hcnt]; decide),hfill.zero]
      rfl
  have h0 : L 0 = [0] := List.perm_singleton.mp
    ((List.perm_ext_iff_of_nodup (hfill.inv.lists.nodup 0) (by simp)).mpr (by simpa using hmem))
  have hnew : ∀ i < s.alist.cnt, s.src (some i) ≠ (1,511) := by
    refine hfill.not_cached (by simp) ?_
    intro j hj h
    simp only [Prod.mk.injEq] at h
    omega
  have hseek := (hfill.inv.seek_none (by decide)).mpr hnew
  obtain ⟨t,ht,hclist,hblk,hsrc,hbuf⟩ := hfill.inv.load_head (D := anyDevs) 1 511 512 hcnt hbegin h0 (by decide)
  have hfound : t.scacheSeek (t.clist (slot 0)) 511 = some (some 0) := by
    rw [show slot 0 = 0 from rfl,hclist]
    exact seek_head hblk
  refine ⟨t,?_,hfound,hsrc,?_,?_⟩
  · rw [show oneThenSectors 0 0 1 NSECACHS = oneThenSectors 0 0 1 (511 + 1) from rfl,oneThenSectors_succ,
      getRun,foldlM_concat]
    change (getRun _ _ _).bind _ = _
    rw [hs]
    simp [getStep,scacheGet,hseek,show anyDevs.openOk 1 = true from rfl,ht]
  · rw [hbuf,hdisk]
    rfl
  · rintro ⟨L',-,-,-,-,hL⟩
    have := hL 0 (by decide) 511 0 hfound
    rw [hsrc] at this
    simp at this

end Micron.Kernel.Scache

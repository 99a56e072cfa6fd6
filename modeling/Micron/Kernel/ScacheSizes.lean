import Micron.Kernel.ScacheRuns

/-! # Requests with different block sizes

An entry is found by the number of its block alone, whatever the block size it was read
with. Each byte of a buffer is traced to the place on a device that it was last read from,
which depends on the requests only, and a request is served right exactly if the bytes come
from the places it asks for.
-/
namespace Micron.Kernel.Scache
open Function Runs
variable {D : BlkDevs} {s t : Scache} {L : ℕ → List ℕ} {g : Get} {gs : List Get} {dev n i k : ℕ} {blk : ℤ}
  {disk : ℕ → ℕ → UInt8}

/-- A request on a device that opens, in blocks of one or more sectors that fit into a buffer. -/
structure Get.Sized (D : BlkDevs) (g : Get) : Prop where
  valid : g.Valid D
  opens : D.openOk g.dev
  dvd : 512 ∣ g.blksize
  pos : 0 < g.blksize
  supported : g.blksize ≤ NMXBLKSZ

/-- The later request `g'` for a block uses the same block size or asks for no more of block 0. -/
def Get.Agrees (g g' : Get) : Prop := g'.blksize = g.blksize ∨ g'.blk = 0 ∧ g'.blksize ≤ g.blksize

instance (g g' : Get) : Decidable (g.Agrees g') := inferInstanceAs (Decidable (_ ∨ _))

def firstFor (gs : List Get) (r : ℕ × ℤ) : Option Get := gs.find? (fun g => (g.dev,g.blk) = r)

def SizesAgree (gs : List Get) : Prop := ∀ g ∈ gs, ∀ g' ∈ firstFor gs (g.dev,g.blk), g'.Agrees g

instance (gs : List Get) : Decidable (SizesAgree gs) :=
  inferInstanceAs (Decidable (∀ g ∈ gs, ∀ g' ∈ firstFor gs (g.dev,g.blk), g'.Agrees g))

def AllAgree (gs : List Get) : Prop := gs.Pairwise (fun g' g => (g'.dev,g'.blk) = (g.dev,g.blk) → g'.Agrees g)

instance (gs : List Get) : Decidable (AllAgree gs) :=
  inferInstanceAs (Decidable (gs.Pairwise (fun g' g => (g'.dev,g'.blk) = (g.dev,g.blk) → g'.Agrees g)))

def Get.first (g : Get) : ℕ := g.blk.toNat * g.blksize

/-- What a request asks for lies where an earlier one that it agrees with has read it. -/
theorem Get.Agrees.within {g' : Get} (h : g'.Agrees g) (hsame : (g'.dev,g'.blk) = (g.dev,g.blk)) (hk : k < g.blksize) :
    k < g'.blksize ∧ (g'.dev,g'.first + k) = (g.dev,g.first + k) := by
  obtain ⟨hdev,hblk⟩ := Prod.mk.inj hsame
  rw [Get.first,Get.first,hdev,hblk]
  rcases h with hsize | ⟨h0,hle⟩
  · rw [hsize]
    exact ⟨hsize ▸ hk,rfl⟩
  · rw [h0,Int.toNat_zero,Nat.zero_mul,Nat.zero_mul]
    exact ⟨Nat.lt_of_lt_of_le hk hle,rfl⟩

/-- The request is served with the bytes of the disk. -/
def Delivers (D : BlkDevs) (s : Scache) (g : Get) : Prop :=
  ∃ i t, scacheGet D g.dev g.blk g.blksize s = some (some i,t) ∧
    ∀ k < g.blksize, t.buf (some i) k = s.disk g.dev (g.first + k)

/-- For each byte of each buffer, the device and the place it was last read from. -/
abbrev Origins := ℕ → ℕ → Option (ℕ × ℕ)

def Origins.record (o : Origins) (s : Scache) (g : Get) : Ptr → Origins
  | some i => if s.scacheSeek (s.clist (slot g.dev)) g.blk = some none
    then update o i (fun k => if k < g.blksize then some (g.dev,g.first + k) else o i k) else o
  | none => o

def readStep (D : BlkDevs) (x : Scache × Origins) (g : Get) : Option (Scache × Origins) :=
  (scacheGet D g.dev g.blk g.blksize x.1).map (fun r => (r.2,x.2.record x.1 g r.1))

def readStart (disk : ℕ → ℕ → UInt8) : Scache × Origins := (boot disk,fun _ _ => none)

/-- If the block is cached, then the bytes of its entry come from where the request would
read them. -/
def InPlace (x : Scache × Origins) (g : Get) : Prop :=
  ∀ i, x.1.scacheSeek (x.1.clist (slot g.dev)) g.blk = some (some i) → ∀ k < g.blksize, x.2 i k = some (g.dev,g.first + k)

/-! ## Links do not depend on contents -/

def blank (s : Scache) : Scache := { s with buf := fun _ _ => 0, disk := fun _ _ => 0 }

theorem blank_place (s : Scache) (blk : ℤ) (fuel : ℕ) (c : Ptr) : s.blank.place blk fuel c = s.place blk fuel c := by
  induction fuel generalizing c with
  | zero => rfl
  | succ fuel ih =>
    rw [place,place,ih]
    rfl

theorem blank_insertBefore (s : Scache) (k : ℕ) (item c : Ptr) :
    (s.insertBefore k item c).blank = s.blank.insertBefore k item c :=
  apply_ite blank _ _ _

theorem blank_insertAfter (s : Scache) (k : ℕ) (item c : Ptr) :
    (s.insertAfter k item c).blank = s.blank.insertAfter k item c :=
  apply_ite blank _ _ _

theorem blank_insert (s : Scache) (k : ℕ) (item : Ptr) :
    (s.scacheInsert k item).map (Prod.map id blank) = s.blank.scacheInsert k item := by
  have hplace : s.blank.place (s.blank.blk item) NSECACHS (s.blank.clist k) =
      s.place (s.blk item) NSECACHS (s.clist k) := blank_place s _ _ _
  unfold scacheInsert
  rw [hplace]
  by_cases hk : s.clist k = none
  · rw [if_pos hk,if_pos (show s.blank.clist k = none from hk)]
    rfl
  · rw [if_neg hk,if_neg (show s.blank.clist k ≠ none from hk)]
    rcases s.place (s.blk item) NSECACHS (s.clist k) with _ | (_ | c | c)
    · rfl
    · rfl
    · exact congrArg (fun t => some ((0 : ℤ),t)) (blank_insertBefore s k item c)
    · exact congrArg (fun t => some ((0 : ℤ),t)) (blank_insertAfter s k item c)

theorem blank_detach (s : Scache) (p : Ptr) : (s.detach p).blank = s.blank.detach p := by
  unfold detach
  dsimp only
  by_cases h : s.clast p ≠ none
  · rw [if_pos h,if_pos (show s.blank.clast p ≠ none from h)]
    exact apply_ite blank _ _ _
  · rw [if_neg h,if_neg (show ¬ s.blank.clast p ≠ none from h)]
    exact apply_ite blank _ _ _

theorem blank_alloc (s : Scache) : s.scacheAlloc.map (Prod.map id blank) = s.blank.scacheAlloc := by
  unfold scacheAlloc
  change _ = if s.alist.cnt < NSECACHS then _ else (s.alist.alloc NSECACHS).map _
  split
  · rw [Option.map_map]
    rfl
  · rw [Option.map_map]
    refine congrArg (Option.map · (s.alist.alloc NSECACHS)) (funext fun r => ?_)
    rcases r with ⟨_ | i,a⟩
    · rfl
    · exact congrArg (Prod.mk (some i)) (blank_detach { s with alist := a } (some i))

theorem blank_devRead (s : Scache) (dev : ℕ) (p : Ptr) (cnt : ℕ) : (s.devRead dev p cnt).blank = s.blank.devRead dev p cnt := by
  have hbuf : update (fun (_ : Ptr) (_ : ℕ) => (0 : UInt8)) p (fun k => if k < cnt * 512 then 0 else 0) = fun _ _ => 0 := by
    simp
  unfold devRead
  change _ = { s.blank with buf := update (fun (_ : Ptr) (_ : ℕ) => (0 : UInt8)) p (fun k => if k < cnt * 512 then 0 else 0) }
  rw [hbuf]
  rfl

def loadInto (D : BlkDevs) (dev : ℕ) (blk : ℤ) (n : ℕ) (s : Scache) (p : Ptr) : Scache :=
  ({ s with blk := update s.blk p blk, src := update s.src p (dev,blk) }.devLseek D dev (sector blk n)).devRead dev p (n / 512)

theorem scacheLoad_eq (D : BlkDevs) (dev : ℕ) (blk : ℤ) (n : ℕ) (s : Scache) : scacheLoad D dev blk n s =
    s.scacheAlloc.bind (fun r => ((r.2.loadInto D dev blk n r.1).scacheInsert (slot dev) r.1).map (fun q => (r.1,q.2))) := by
  unfold scacheLoad
  rcases s.scacheAlloc with _ | ⟨p,u⟩
  · rfl
  · simp only [Option.bind_eq_bind,Option.bind_some,Option.map_eq_bind]
    rfl

theorem blank_load (D : BlkDevs) (dev : ℕ) (blk : ℤ) (n : ℕ) (s : Scache) :
    (scacheLoad D dev blk n s).map (Prod.map id blank) = scacheLoad D dev blk n s.blank := by
  rw [scacheLoad_eq,scacheLoad_eq,← blank_alloc]
  rcases s.scacheAlloc with _ | ⟨p,u⟩
  · rfl
  · have hinto : (u.loadInto D dev blk n p).blank = u.blank.loadInto D dev blk n p := blank_devRead _ dev p (n / 512)
    simp only [Option.bind_some,Option.map_some,Prod.map_apply,id_eq]
    rw [← hinto,← blank_insert,Option.map_map,Option.map_map]
    rfl

theorem blank_get (D : BlkDevs) (dev : ℕ) (blk : ℤ) (n : ℕ) (s : Scache) :
    (scacheGet D dev blk n s).map (Prod.map id blank) = scacheGet D dev blk n s.blank := by
  unfold scacheGet
  change _ = Option.bind (s.scacheSeek (s.clist (slot dev)) blk) _
  rcases s.scacheSeek (s.clist (slot dev)) blk with _ | (_ | i)
  · rfl
  · simp only [Option.bind_eq_bind,Option.bind_some,ne_eq,not_true_eq_false,if_false]
    split
    · rfl
    · exact blank_load D dev blk n s
  · rfl

/-- The run of a sequence of requests, but for the bytes, is the same on every disk. -/
theorem blank_readStep (D : BlkDevs) (x : Scache × Origins) (g : Get) :
    (readStep D x g).map (Prod.map blank id) = readStep D (Prod.map blank id x) g := by
  have hget := blank_get D g.dev g.blk g.blksize x.1
  unfold readStep
  rw [Prod.map_fst,← hget,Option.map_map,Option.map_map]
  rfl

theorem readStep_get (D : BlkDevs) (x : Scache × Origins) (g : Get) : (readStep D x g).map Prod.fst = getStep D x.1 g := by
  unfold readStep getStep
  rw [Option.map_map]
  rfl

/-! ## Bytes and where they come from -/

theorem Get.Sized.addr_eq (h : g.Sized D) : g.addr = g.first := by
  rw [Get.addr,Nat.mul_assoc,Nat.div_mul_cancel h.dvd,Get.first]

theorem Get.Sized.le (h : g.Sized D) : 512 ≤ g.blksize := Nat.le_of_dvd h.pos h.dvd

def byteAt (disk : ℕ → ℕ → UInt8) (p : Option (ℕ × ℕ)) : UInt8 := p.elim 0 (fun p => disk p.1 p.2)

/-- The buffers hold the bytes of the disk from the places recorded, and those of an entry
begin with the block of one of the requests `gs`. -/
structure Traced (disk : ℕ → ℕ → UInt8) (gs : List Get) (x : Scache × Origins) (L : ℕ → List ℕ) : Prop where
  inv : x.1.Inv L
  disk_eq : x.1.disk = disk
  bytes : ∀ i k, x.1.buf (some i) k = byteAt disk (x.2 i k)
  loaded : ∀ i < x.1.alist.cnt, ∃ g ∈ gs, x.1.src (some i) = (g.dev,g.blk) ∧
    ∀ k < g.blksize, x.2 i k = some (g.dev,g.first + k)

variable {x y : Scache × Origins}

theorem readStart_traced : Traced disk [] (readStart disk) (fun _ => []) where
  inv := boot_inv disk
  disk_eq := rfl
  bytes _ _ := rfl
  loaded i hi := absurd hi (Nat.not_lt_zero i)

/-- A request returns the entry it finds, or one it has read the whole block into. -/
theorem Traced.read (h : Traced disk gs x L) (hg : g.Sized D) (hs : x.1.SparesHeads g.dev g.blk) :
    ∃ i y L', scacheGet D g.dev g.blk g.blksize x.1 = some (some i,y.1) ∧
      readStep D x g = some y ∧ Traced disk (gs ++ [g]) y L' ∧
      y.1.scacheSeek (y.1.clist (slot g.dev)) g.blk = some (some i) ∧
      (x.1.scacheSeek (x.1.clist (slot g.dev)) g.blk = some (some i) ∧ y = (x.1.scachePromo (some i),x.2) ∨
        x.1.scacheSeek (x.1.clist (slot g.dev)) g.blk = some none ∧ Loads D g.dev g.blk g.blksize x.1 y.1 i ∧
        y.2 = update x.2 i (fun k => if k < g.blksize then some (g.dev,g.first + k) else x.2 i k)) := by
  obtain ⟨i,L',t,hget,hinv,hi,hsrc,hcase⟩ := h.inv.get g.blksize hg.valid.dev_ok hg.opens hs
  have hfind := hinv.seek_of_src hi hsrc
  have hold : ∀ j < x.1.alist.cnt, ∃ g' ∈ gs ++ [g], x.1.src (some j) = (g'.dev,g'.blk) ∧
      ∀ k < g'.blksize, x.2 j k = some (g'.dev,g'.first + k) := by
    intro j hj
    obtain ⟨g',hg',hj'⟩ := h.loaded j hj
    exact ⟨g',List.mem_append_left _ hg',hj'⟩
  have hstep : readStep D x g = some (t,x.2.record x.1 g (some i)) := by rw [readStep,hget]; rfl
  refine ⟨i,(t,x.2.record x.1 g (some i)),L',hget,hstep,?_⟩
  rcases hcase with ⟨hlt,hsrc',rfl⟩ | ⟨hnew,hload⟩
  · -- the block is cached
    have hseek := h.inv.seek_of_src hlt hsrc'
    have hrec : x.2.record x.1 g (some i) = x.2 := by simp [Origins.record,hseek]
    rw [hrec]
    have hcnt : (x.1.scachePromo (some i)).alist.cnt = x.1.alist.cnt := AllocList.promo_cnt _
    exact ⟨⟨hinv,h.disk_eq,h.bytes,hcnt ▸ hold⟩,hfind,Or.inl ⟨hseek,rfl⟩⟩
  · have hseek := (h.inv.seek_none hg.valid.dev_ok).mpr hnew
    have hrec : x.2.record x.1 g (some i) =
        update x.2 i (fun k => if k < g.blksize then some (g.dev,g.first + k) else x.2 i k) := by
      simp [Origins.record,hseek]
    rw [hrec]
    refine ⟨⟨hinv,hload.disk.trans h.disk_eq,?_,?_⟩,hfind,Or.inr ⟨hseek,hload,rfl⟩⟩
    · intro j k
      by_cases hji : j = i
      · subst hji
        dsimp only
        rw [update_self]
        by_cases hk : k < g.blksize
        · rw [if_pos hk,hload.data hg.valid hg.opens (by rwa [Nat.div_mul_cancel hg.dvd]),hg.addr_eq,h.disk_eq]
          rfl
        · rw [if_neg hk,hload.buf,update_self,if_neg (by rwa [Nat.div_mul_cancel hg.dvd]),h.bytes]
      · dsimp only
        rw [(hload.other hji).2.1,update_of_ne hji,h.bytes]
    · intro j hj
      by_cases hji : j = i
      · subst hji
        refine ⟨g,by simp,hsrc,fun k hk => ?_⟩
        dsimp only
        rw [update_self,if_pos hk]
      · obtain ⟨hsj,-,hlt⟩ := hload.other hji
        dsimp only
        rw [hsj,update_of_ne hji]
        exact hold j (hlt hj)

/-- A request whose bytes are in place is served right. -/
theorem Traced.delivers (h : Traced disk gs x L) (hg : g.Sized D) (hs : x.1.SparesHeads g.dev g.blk) (hin : InPlace x g) :
    Delivers D x.1 g := by
  obtain ⟨i,y,L',hget,-,hy,-,hcase⟩ := h.read hg hs
  refine ⟨i,y.1,hget,fun k hk => ?_⟩
  have horig : y.2 i k = some (g.dev,g.first + k) := by
    rcases hcase with ⟨hseek,rfl⟩ | ⟨-,-,ho⟩
    · exact hin i hseek k hk
    · rw [ho,update_self,if_pos hk]
  rw [hy.bytes,horig,h.disk_eq]
  rfl

/-- A request that is served right where the byte it asks for differs from all others. -/
theorem Traced.inPlace (h : Traced disk gs x L) (hg : g.Sized D) (hs : x.1.SparesHeads g.dev g.blk)
    (hd : Delivers D x.1 g) (hseek : x.1.scacheSeek (x.1.clist (slot g.dev)) g.blk = some (some i)) (hk : k < g.blksize)
    (hdisk : ∀ p, byteAt disk p = disk g.dev (g.first + k) → p = some (g.dev,g.first + k)) :
    x.2 i k = some (g.dev,g.first + k) := by
  obtain ⟨j,y,L',hget,-,hy,-,hcase⟩ := h.read hg hs
  obtain ⟨j',t,hget',hdata⟩ := hd
  obtain ⟨rfl,rfl⟩ : j = j' ∧ y.1 = t := by simpa using hget.symm.trans hget'
  rcases hcase with ⟨hseek',rfl⟩ | ⟨hseek',-⟩
  · obtain rfl : i = j := by simpa using hseek.symm.trans hseek'
    refine hdisk _ ?_
    rw [← hy.bytes,hdata k hk,h.disk_eq]
  · rw [hseek] at hseek'
    cases hseek'

/-! ## Runs -/

/-- A run on the wiped disk is the wiped run on any other. -/
theorem run_any (disk : ℕ → ℕ → UInt8) (hx : gs.foldlM (readStep D) (readStart fun _ _ => 0) = some x) :
    ∃ y, gs.foldlM (readStep D) (readStart disk) = some y ∧ Prod.map blank id y = x := by
  have hmap := map_foldlM (blank_readStep D) gs (readStart disk)
  exact Option.map_eq_some_iff.mp (hmap.trans hx)

def Sparing (x : Scache × Origins) (g : Get) : Prop := x.1.SparesHeads g.dev g.blk

theorem sparing_any (disk : ℕ → ℕ → UInt8) (hs : AllSteps (readStep D) Sparing (readStart fun _ _ => 0) gs) :
    AllSteps (readStep D) Sparing (readStart disk) gs :=
  (AllSteps.map_iff (s := readStart disk) (A := Sparing) (B := Sparing) (blank_readStep D) (fun _ _ => Iff.rfl)).mpr hs

theorem run_ends (disk : ℕ → ℕ → UInt8) (hv : ∀ g ∈ gs, g.Sized D)
    (hs : AllSteps (readStep D) Sparing (readStart fun _ _ => 0) gs) :
    ∃ x, gs.foldlM (readStep D) (readStart disk) = some x ∧ ∃ L, Traced disk gs x L :=
  run_total (P := fun pre x => ∃ L, Traced disk pre x L) gs ⟨_,readStart_traced⟩ (sparing_any disk hs) (by
    rintro pre x g hg ⟨L,hL⟩ hok
    obtain ⟨-,y,L',-,hy,ht,-⟩ := hL.read (hv g hg) hok
    exact ⟨y,hy,L',ht⟩)

theorem run_traced (hv : ∀ g ∈ gs, g.Sized D) (hs : AllSteps (readStep D) Sparing (readStart fun _ _ => 0) gs)
    (hx : gs.foldlM (readStep D) (readStart disk) = some x) : ∃ L, Traced disk gs x L := by
  obtain ⟨y,hy,ht⟩ := run_ends disk hv hs
  obtain rfl : y = x := Option.some.inj (hy.symm.trans hx)
  exact ht

/-- The last request of a run returns an entry, where its block is found from then on. -/
theorem run_last (hv : ∀ g' ∈ gs ++ [g], g'.Sized D)
    (hs : AllSteps (readStep D) Sparing (readStart fun _ _ => 0) (gs ++ [g]))
    (hy : (gs ++ [g]).foldlM (readStep D) (readStart disk) = some y) :
    ∃ x i, gs.foldlM (readStep D) (readStart disk) = some x ∧
      scacheGet D g.dev g.blk g.blksize x.1 = some (some i,y.1) ∧
      y.1.scacheSeek (y.1.clist (slot g.dev)) g.blk = some (some i) := by
  rw [foldlM_concat] at hy
  obtain ⟨x,hx,hstep⟩ := Option.bind_eq_some_iff.mp hy
  obtain ⟨L,hL⟩ := run_traced (fun g' hg' => hv g' (List.mem_append_left _ hg')) (hs.mono (List.prefix_append _ _)) hx
  obtain ⟨i,z,-,hget,hz,-,hseek,-⟩ := hL.read (hv g (by simp)) (sparing_any disk hs gs g x (List.prefix_refl _) hx)
  obtain rfl : z = y := Option.some.inj (hz.symm.trans hstep)
  exact ⟨x,i,hx,hget,hseek⟩

/-- After a request for block 0 of a device, its first sector is in place. -/
theorem run_last_zero (hv : ∀ g' ∈ gs ++ [Get.mk dev 0 n], g'.Sized D)
    (hs : AllSteps (readStep D) Sparing (readStart fun _ _ => 0) (gs ++ [Get.mk dev 0 n]))
    (hy : (gs ++ [Get.mk dev 0 n]).foldlM (readStep D) (readStart disk) = some y)
    (hseek : y.1.scacheSeek (y.1.clist (slot dev)) 0 = some (some i)) (hk : k < 512) : y.2 i k = some (dev,k) := by
  obtain ⟨L,hL⟩ := run_traced hv hs hy
  have hdev : DevOk dev := (hv (Get.mk dev 0 n) (by simp)).valid.dev_ok
  obtain ⟨hi,hsrc⟩ := hL.inv.seek_src hdev hseek
  obtain ⟨g,hg,hsrc',hall⟩ := hL.loaded i hi
  rw [hsrc] at hsrc'
  obtain ⟨hd,hb⟩ := Prod.mk.inj hsrc'
  rw [hall k (Nat.lt_of_lt_of_le hk (hv g hg).le),← hd,Get.first,← hb]
  simp

def spot (base : ℕ → ℕ → UInt8) (dev a : ℕ) : ℕ → ℕ → UInt8 := fun d b => if (d,b) = (dev,a) then 1 else base d b

theorem byteAt_spot {base : ℕ → ℕ → UInt8} {a : ℕ} {p : Option (ℕ × ℕ)} (hbase : ∀ d b, base d b ≠ 1)
    (h : byteAt (spot base dev a) p = spot base dev a dev a) : p = some (dev,a) := by
  rw [spot,if_pos rfl] at h
  cases p with
  | none => exact absurd (show (0 : UInt8) = 1 from h) (by decide)
  | some q =>
    by_contra hne
    have hq : q ≠ (dev,a) := fun he => hne (by rw [he])
    have hb : byteAt (spot base dev a) (some q) = base q.1 q.2 := if_neg hq
    exact hbase q.1 q.2 (hb.symm.trans h)

/-- A byte of a cached block that arrives on a disk where it differs from all others is in
place. -/
theorem inPlace_of_delivers {base : ℕ → ℕ → UInt8} (hbase : ∀ d b, base d b ≠ 1) (hv : ∀ g ∈ gs, g.Sized D)
    (hs : AllSteps (readStep D) Sparing (readStart fun _ _ => 0) gs)
    (hx : gs.foldlM (readStep D) (readStart fun _ _ => 0) = some x) (hg : g.Sized D) (hspare : Sparing x g)
    (hseek : x.1.scacheSeek (x.1.clist (slot g.dev)) g.blk = some (some i)) (hk : k < g.blksize)
    (hd : ∀ y, gs.foldlM (readStep D) (readStart (spot base g.dev (g.first + k))) = some y → Delivers D y.1 g) :
    x.2 i k = some (g.dev,g.first + k) := by
  obtain ⟨y,hy,rfl⟩ := run_any (spot base g.dev (g.first + k)) hx
  obtain ⟨L,hL⟩ := run_traced hv hs hy
  exact hL.inPlace hg hspare (hd y hy) hseek hk (fun p hp => byteAt_spot hbase hp)

theorem sized_prefix {pre : List Get} (hv : ∀ g ∈ gs, g.Sized D) (hp : pre ++ [g] <+: gs) :
    (∀ g' ∈ pre, g'.Sized D) ∧ g.Sized D :=
  ⟨fun g' hg' => hv g' (hp.subset (List.mem_append_left _ hg')),hv g (hp.subset (by simp))⟩

/-- On every disk all requests of a sequence are served right exactly if the bytes of each
cached block come from the places where its request would read them. -/
theorem delivers_iff (hv : ∀ g ∈ gs, g.Sized D) (hs : AllSteps (readStep D) Sparing (readStart fun _ _ => 0) gs) :
    (∀ disk, AllSteps (getStep D) (Delivers D) (boot disk) gs) ↔
      AllSteps (readStep D) InPlace (readStart fun _ _ => 0) gs := by
  have hget : ∀ disk, AllSteps (getStep D) (Delivers D) (boot disk) gs ↔
      AllSteps (readStep D) (fun x g => Delivers D x.1 g) (readStart disk) gs :=
    fun disk => (AllSteps.map_iff (s := readStart disk) (B := Delivers D) (readStep_get D) (fun _ _ => Iff.rfl)).symm
  constructor
  · intro h pre g x hp hx i hseek k hk
    obtain ⟨hpre,hg⟩ := sized_prefix hv hp
    refine inPlace_of_delivers (show ∀ _ _ : ℕ, (0 : UInt8) ≠ 1 by simp) hpre (hs.mono ((List.prefix_append _ _).trans hp)) hx hg
      (hs pre g x hp hx) hseek hk (fun y hy => ?_)
    exact (hget _).mp (h _) pre g y hp hy
  · intro h disk
    rw [hget]
    have hin : AllSteps (readStep D) InPlace (readStart disk) gs :=
      (AllSteps.map_iff (s := readStart disk) (A := InPlace) (B := InPlace) (blank_readStep D) (fun _ _ => Iff.rfl)).mpr h
    intro pre g x hp hx
    obtain ⟨hpre,hg⟩ := sized_prefix hv hp
    obtain ⟨L,hL⟩ := run_traced hpre (hs.mono ((List.prefix_append _ _).trans hp)) hx
    exact hL.delivers hg (sparing_any disk hs pre g x hp hx) (hin pre g x hp hx)

/-- Whichever request has read a block, a later one that agrees with it finds its bytes. -/
theorem inPlace_of_allAgree (hv : ∀ g ∈ gs, g.Sized D)
    (hs : AllSteps (readStep D) Sparing (readStart fun _ _ => 0) gs) (h : AllAgree gs) :
    AllSteps (readStep D) InPlace (readStart fun _ _ => 0) gs := by
  intro pre g x hp hx i hseek k hk
  obtain ⟨hpre,hg⟩ := sized_prefix hv hp
  obtain ⟨L,hL⟩ := run_traced hpre (hs.mono ((List.prefix_append _ _).trans hp)) hx
  obtain ⟨hi,hsrc⟩ := hL.inv.seek_src hg.valid.dev_ok hseek
  obtain ⟨g',hg',hsrc',hbytes⟩ := hL.loaded i hi
  have hsame := hsrc'.symm.trans hsrc
  have hagree := (List.pairwise_append.mp (h.sublist hp.sublist)).2.2 g' hg' g (List.mem_singleton_self g) hsame
  obtain ⟨hk',hplace⟩ := hagree.within hsame hk
  rw [hbytes k hk',hplace]

/-! ## Runs that do not fill the table -/

theorem run_cnt_le (hx : gs.foldlM (readStep D) (readStart disk) = some x) : x.1.alist.cnt ≤ gs.length := by
  refine run_inv (P := fun pre x => x.1.alist.cnt ≤ pre.length) (Nat.le_refl 0) ?_ hx
  intro pre s g t _ hle hstep
  obtain ⟨r,hr,rfl⟩ := Option.map_eq_some_iff.mp hstep
  have hcnt := scacheGet_cnt hr
  rw [List.length_append,List.length_singleton]
  dsimp only
  omega

theorem run_room {pre : List Get} (hlen : gs.length ≤ NSECACHS) (hp : pre ++ [g] <+: gs)
    (hx : pre.foldlM (readStep D) (readStart disk) = some x) : x.1.alist.cnt < NSECACHS := by
  have hcnt := run_cnt_le hx
  have hle := hp.length_le
  rw [List.length_append,List.length_singleton] at hle
  omega

theorem sparing_of_short (hlen : gs.length ≤ NSECACHS) : AllSteps (readStep D) Sparing (readStart disk) gs :=
  fun _ _ _ hp hx _ hfull => absurd hfull (run_room hlen hp hx).ne

structure Fresh (gs : List Get) (x : Scache × Origins) : Prop where
  first : ∀ i < x.1.alist.cnt, ∃ g, firstFor gs (x.1.src (some i)) = some g ∧
    x.2 i = fun k => if k < g.blksize then some (g.dev,g.first + k) else none
  unread : ∀ i, x.1.alist.cnt ≤ i → x.2 i = fun _ => none
  cached : ∀ g ∈ gs, ∃ i < x.1.alist.cnt, x.1.src (some i) = (g.dev,g.blk)

theorem firstFor_append {gs' : List Get} {r : ℕ × ℤ} (h : firstFor gs r = some g) : firstFor (gs ++ gs') r = some g := by
  rw [firstFor] at h
  rw [firstFor,List.find?_append,h]
  rfl

theorem firstFor_eq {r : ℕ × ℤ} (h : firstFor gs r = some g) : g ∈ gs ∧ (g.dev,g.blk) = r :=
  ⟨List.mem_of_find?_eq_some h,by simpa using List.find?_some h⟩

theorem Fresh.read (h : Fresh gs x) (ht : Traced disk gs x L) (hg : g.Sized D) (hroom : x.1.alist.cnt < NSECACHS)
    (hstep : readStep D x g = some y) : Fresh (gs ++ [g]) y := by
  obtain ⟨i,z,L',-,hz,-,-,hcase⟩ := ht.read hg (fun _ hfull => absurd hfull hroom.ne)
  obtain rfl : z = y := Option.some.inj (hz.symm.trans hstep)
  rcases hcase with ⟨hseek,rfl⟩ | ⟨hseek,hload,ho⟩
  · have hcnt : (x.1.scachePromo (some i)).alist.cnt = x.1.alist.cnt := AllocList.promo_cnt _
    refine ⟨hcnt ▸ fun j hj => ?_,hcnt ▸ h.unread,hcnt ▸ fun g' hg' => ?_⟩
    · obtain ⟨g',hfirst,hbytes⟩ := h.first j hj
      exact ⟨g',firstFor_append hfirst,hbytes⟩
    · rcases List.mem_append.mp hg' with hg' | hg'
      · exact h.cached g' hg'
      · rw [List.mem_singleton.mp hg']
        exact ⟨i,ht.inv.seek_src hg.valid.dev_ok hseek⟩
  · have hnew := (ht.inv.seek_none hg.valid.dev_ok).mp hseek
    obtain ⟨rfl,hcnt⟩ : i = x.1.alist.cnt ∧ z.1.alist.cnt = x.1.alist.cnt + 1 := by
      rcases hload.takes with ⟨-,hi,ha⟩ | ⟨hfull,-⟩
      · exact ⟨hi,by rw [ha,AllocList.append_cnt]⟩
      · exact absurd hfull hroom.ne
    have hnone : firstFor gs (g.dev,g.blk) = none := by
      refine List.find?_eq_none.mpr (fun g' hg' he => ?_)
      obtain ⟨j,hj,hsrc⟩ := h.cached g' hg'
      exact hnew j hj (hsrc.trans (of_decide_eq_true he))
    refine ⟨fun j hj => ?_,fun j hj => ?_,fun g' hg' => ?_⟩
    · by_cases hji : j = x.1.alist.cnt
      · subst hji
        refine ⟨g,?_,?_⟩
        · rw [hload.src,update_self,firstFor,List.find?_append,← firstFor,hnone]
          simp
        · rw [ho,update_self,h.unread _ (Nat.le_refl _)]
      · obtain ⟨hsrc,-,hlt⟩ := hload.other hji
        obtain ⟨g',hfirst,hbytes⟩ := h.first j (hlt hj)
        rw [hsrc,ho,update_of_ne hji]
        exact ⟨g',firstFor_append hfirst,hbytes⟩
    · rw [ho,update_of_ne (by omega)]
      exact h.unread j (by omega)
    · rcases List.mem_append.mp hg' with hg' | hg'
      · obtain ⟨j,hj,hsrc⟩ := h.cached g' hg'
        exact ⟨j,by omega,by rw [(hload.other hj.ne).1,hsrc]⟩
      · rw [List.mem_singleton.mp hg']
        exact ⟨x.1.alist.cnt,by omega,by rw [hload.src,update_self]⟩

theorem run_fresh (hv : ∀ g ∈ gs, g.Sized D) (hlen : gs.length ≤ NSECACHS)
    (hx : gs.foldlM (readStep D) (readStart disk) = some x) : Fresh gs x := by
  refine (run_inv (P := fun pre x => pre.foldlM (readStep D) (readStart disk) = some x ∧ Fresh pre x)
    ⟨rfl,by simp [readStart,boot,AllocList.boot],fun _ _ => rfl,by simp⟩ ?_ hx).2
  rintro pre s g t hp ⟨hrun,hfresh⟩ hstep
  obtain ⟨hpre,hg⟩ := sized_prefix hv hp
  have hshort : pre.length ≤ NSECACHS := ((List.prefix_append pre [g]).trans hp).length_le.trans hlen
  obtain ⟨L,hL⟩ := run_traced hpre (sparing_of_short hshort) hrun
  refine ⟨?_,hfresh.read hL hg (run_room hlen hp hrun) hstep⟩
  rw [foldlM_concat,hrun]
  exact hstep

/-- The bytes of a cached block are in place for a request exactly if that agrees with the
first one for the block. -/
theorem Fresh.inPlace_iff (h : Fresh gs x) (ht : Traced disk gs x L) (hv : ∀ g ∈ gs, g.Sized D) (hg : g.Sized D) :
    InPlace x g ↔ ∀ g' ∈ firstFor gs (g.dev,g.blk), g'.Agrees g := by
  constructor
  · intro hin g' hfirst
    obtain ⟨hmem,hsame⟩ := firstFor_eq hfirst
    obtain ⟨i,hi,hsrc⟩ := h.cached g' hmem
    rw [hsame] at hsrc
    obtain ⟨g'',hfirst',hbytes⟩ := h.first i hi
    rw [hsrc,hfirst] at hfirst'
    obtain rfl := Option.some.inj hfirst'
    have hall := hin i (ht.inv.seek_of_src hi hsrc)
    simp only [hbytes] at hall
    have hle : g.blksize ≤ g'.blksize := by
      by_contra hlt
      have := hall g'.blksize (by omega)
      simp at this
    have hzero := hall 0 hg.pos
    rw [if_pos (hv g' hmem).pos] at hzero
    have hplace : g'.blk.toNat * g'.blksize = g.blk.toNat * g.blksize := (Prod.mk.inj (Option.some.inj hzero)).2
    rw [(Prod.mk.inj hsame).2] at hplace
    by_cases h0 : g.blk.toNat = 0
    · have := hg.valid.nonneg
      exact Or.inr ⟨by omega,hle⟩
    · exact Or.inl (Nat.eq_of_mul_eq_mul_left (Nat.pos_of_ne_zero h0) hplace).symm
  · intro hagree i hseek k hk
    obtain ⟨hi,hsrc⟩ := ht.inv.seek_src hg.valid.dev_ok hseek
    obtain ⟨g',hfirst,hbytes⟩ := h.first i hi
    rw [hsrc] at hfirst
    obtain ⟨hk',hplace⟩ := (hagree g' hfirst).within (firstFor_eq hfirst).2 hk
    rw [hbytes,← hplace]
    exact if_pos hk'

/-- In a run that does not fill the table, the bytes are in place exactly if all requests
agree with the first one for their block. -/
theorem short_inPlace_iff (hv : ∀ g ∈ gs, g.Sized D) (hlen : gs.length ≤ NSECACHS) :
    AllSteps (readStep D) InPlace (readStart fun _ _ => 0) gs ↔ SizesAgree gs := by
  have hstep : ∀ pre g, pre ++ [g] <+: gs → ∃ x, pre.foldlM (readStep D) (readStart fun _ _ => 0) = some x ∧
      (InPlace x g ↔ ∀ g' ∈ firstFor pre (g.dev,g.blk), g'.Agrees g) := by
    intro pre g hp
    obtain ⟨hpre,hg⟩ := sized_prefix hv hp
    have hshort : pre.length ≤ NSECACHS := ((List.prefix_append pre [g]).trans hp).length_le.trans hlen
    obtain ⟨x,hx,L,hL⟩ := run_ends (fun _ _ => 0) hpre (sparing_of_short hshort)
    exact ⟨x,hx,(run_fresh hpre hshort hx).inPlace_iff hL hpre hg⟩
  constructor
  · intro h g hmem g' hfirst
    obtain ⟨pre,post,rfl⟩ := List.append_of_mem hmem
    have hp : pre ++ [g] <+: pre ++ g :: post := ⟨post,by simp⟩
    obtain ⟨x,hx,hiff⟩ := hstep pre g hp
    cases hpre : firstFor pre (g.dev,g.blk) with
    | none =>
      -- the request is the first for its block
      rw [firstFor,List.find?_append,← firstFor,hpre] at hfirst
      obtain rfl : g = g' := by simpa using hfirst
      exact Or.inl rfl
    | some g'' =>
      rw [firstFor_append hpre] at hfirst
      obtain rfl := Option.some.inj hfirst
      exact hiff.mp (h pre g x hp hx) g'' hpre
  · intro h pre g x hp hx
    obtain ⟨y,hy,hiff⟩ := hstep pre g hp
    obtain rfl : y = x := Option.some.inj (hy.symm.trans hx)
    refine hiff.mpr (fun g' hfirst => ?_)
    obtain ⟨post,rfl⟩ := hp
    exact h g (by simp) g' (firstFor_append (firstFor_append hfirst))

end Micron.Kernel.Scache

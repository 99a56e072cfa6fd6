import Micron.Kernel.ScacheData

/-! # Marks on changed blocks

Which buffers `scache_sync` and `scache_commit` write to the device, and how the marks
`S_CHANGED` compare with the blocks that have been changed since they were last loaded or
written. No function clears a mark.
-/
namespace Micron.Kernel.Scache
open Function Linked Runs
variable {s t : Scache} {L : ℕ → List ℕ} {D : BlkDevs} {dev blksize fuel i : ℕ} {blk : ℤ} {p : Ptr} {l : List ℕ}

/-! ## What is written -/

def HasMark (s : Scache) (i : ℕ) : Prop := s.mode (some i) &&& S_CHANGED ≠ 0

instance (s : Scache) (i : ℕ) : Decidable (s.HasMark i) := inferInstanceAs (Decidable (_ ≠ _))

def syncLog (D : BlkDevs) (dev : ℕ) (blk : ℤ) (s : Scache) : List ℕ :=
  match s.scacheSeek (s.clist (slot dev)) blk with
  | some (some i) => if D.openOk dev then [i] else []
  | _ => []

def commitLoopLog (D : BlkDevs) (dev blksize : ℕ) : ℕ → Ptr → Scache → List ℕ
  | _, none, _ => []
  | 0, some _, _ => []
  | fuel + 1, some i, s =>
    if s.HasMark i then
      match scacheSync D dev (s.blk (some i)) blksize s with
      | none => []
      | some (_,t) => syncLog D dev (s.blk (some i)) s ++ commitLoopLog D dev blksize fuel (t.cnext (some i)) t
    else commitLoopLog D dev blksize fuel (s.cnext (some i)) s

def commitLog (D : BlkDevs) (dev blksize : ℕ) (s : Scache) : List ℕ :=
  commitLoopLog D dev blksize NSECACHS (s.clist (slot dev)) s

def writeOut (D : BlkDevs) (dev blksize : ℕ) (s : Scache) (i : ℕ) : Scache :=
  (s.devLseek D dev (sector (s.blk (some i)) blksize)).devWrite dev (some i) (blksize / 512)

theorem find_test {next : Ptr → Ptr} {test : ℕ → Bool} (h : find next test fuel p = some (some i)) : test i := by
  induction fuel generalizing p with
  | zero => cases p <;> cases h
  | succ fuel ih =>
    cases p with
    | none => cases h
    | some j =>
      rw [find] at h
      split at h
      · cases h
        assumption
      · exact ih h

theorem scacheSync_log {r : ℤ} (h : scacheSync D dev blk blksize s = some (r,t)) :
    t = (syncLog D dev blk s).foldl (writeOut D dev blksize) s := by
  obtain ⟨sp,hseek,h⟩ := Option.bind_eq_some_iff.mp h
  rw [syncLog,hseek]
  cases sp with
  | none =>
    rw [if_pos rfl] at h
    cases h
    rfl
  | some i =>
    have hblk : s.blk (some i) = blk := of_decide_eq_true (find_test hseek)
    rw [if_neg (by simp)] at h
    by_cases ho : D.openOk dev
    · rw [if_neg (by simp [ho])] at h
      cases h
      simp only [if_pos ho,List.foldl_cons,List.foldl_nil,writeOut,hblk]
    · rw [if_pos (by simpa using ho)] at h
      cases h
      simp only [if_neg ho,List.foldl_nil]

theorem commitLoop_log (h : commitLoop D dev blksize fuel p s = some t) :
    t = (commitLoopLog D dev blksize fuel p s).foldl (writeOut D dev blksize) s := by
  induction fuel generalizing p s with
  | zero =>
    cases p <;> cases h
    rfl
  | succ fuel ih =>
    cases p with
    | none =>
      cases h
      rfl
    | some i =>
      rw [commitLoop] at h
      rw [commitLoopLog]
      by_cases hm : s.HasMark i
      · rw [if_pos hm]
        rw [if_pos (show s.mode (some i) &&& S_CHANGED ≠ 0 from hm)] at h
        obtain ⟨⟨r,u⟩,hs,h⟩ := Option.bind_eq_some_iff.mp h
        rw [hs]
        dsimp only
        rw [List.foldl_append,← scacheSync_log hs]
        exact ih h
      · rw [if_neg hm]
        rw [if_neg (show ¬ s.mode (some i) &&& S_CHANGED ≠ 0 from hm)] at h
        exact ih h

theorem scacheCommit_log {r : ℤ} (h : scacheCommit D dev blksize s = some (r,t)) :
    t = (commitLog D dev blksize s).foldl (writeOut D dev blksize) s := by
  obtain ⟨u,hu,he⟩ := Option.map_eq_some_iff.mp h
  cases he
  exact commitLoop_log hu

/-! ## Intact lists -/

theorem sync_found (blksize : ℕ) (h : s.scacheSeek (s.clist (slot dev)) blk = some (some i)) :
    ∃ r disk' pos', scacheSync D dev blk blksize s = some (r,{ s with disk := disk', pos := pos' }) := by
  by_cases ho : D.openOk dev
  · exact ⟨0,_,_,by simp [scacheSync,h,ho]; rfl⟩
  · exact ⟨-1,s.disk,s.pos,by simp [scacheSync,h,ho]⟩

theorem Inv.sync (blk : ℤ) (blksize : ℕ) (h : s.Inv L) (dev : ℕ) :
    ∃ r disk' pos', scacheSync D dev blk blksize s = some (r,{ s with disk := disk', pos := pos' }) := by
  have hseek := h.seek (slot dev) blk
  cases hfind : (L (slot dev)).find? (fun i => s.blk (some i) = blk) with
  | none =>
    rw [hfind] at hseek
    exact ⟨-1,s.disk,s.pos,by simp [scacheSync,hseek]⟩
  | some i =>
    rw [hfind] at hseek
    exact sync_found blksize hseek

theorem Inv.stored (h : s.Inv L) (disk' : ℕ → ℕ → UInt8) (pos' : ℕ → ℕ) : { s with disk := disk', pos := pos' }.Inv L :=
  h.congr rfl rfl rfl rfl rfl rfl

/-- `scache_commit` writes the entries with a mark, if the blocks of all entries are found
again. -/
theorem commitLoop_marks (blksize : ℕ) (hl : Chain s.cnext p l)
    (hself : ∀ i ∈ l, s.scacheSeek (s.clist (slot dev)) (s.blk (some i)) = some (some i)) (hfuel : l.length ≤ fuel) :
    ∃ disk' pos', commitLoop D dev blksize fuel p s = some { s with disk := disk', pos := pos' } ∧
      commitLoopLog D dev blksize fuel p s = if D.openOk dev then l.filter (fun i => s.HasMark i) else [] := by
  induction l generalizing s p fuel with
  | nil =>
    obtain rfl : p = none := hl
    refine ⟨s.disk,s.pos,by simp [Scache.commitLoop],?_⟩
    simp [commitLoopLog]
  | cons i l ih =>
    obtain ⟨rfl,hl⟩ := hl
    cases fuel with
    | zero => simp at hfuel
    | succ fuel =>
      have hfuel' : l.length ≤ fuel := by simpa using hfuel
      have hi := hself i List.mem_cons_self
      have hself' : ∀ j ∈ l, s.scacheSeek (s.clist (slot dev)) (s.blk (some j)) = some (some j) :=
        fun j hj => hself j (List.mem_cons_of_mem i hj)
      rw [Scache.commitLoop,commitLoopLog]
      by_cases hm : s.HasMark i
      · rw [if_pos hm,if_pos (show s.mode (some i) &&& S_CHANGED ≠ 0 from hm),List.filter_cons_of_pos (by simpa using hm)]
        obtain ⟨r,disk₁,pos₁,hsync⟩ := sync_found (D := D) blksize hi
        -- the search does not look at the disk
        obtain ⟨disk₂,pos₂,hrest,hlog⟩ := ih (s := { s with disk := disk₁, pos := pos₁ }) (p := s.cnext (some i)) hl
          hself' hfuel'
        refine ⟨disk₂,pos₂,?_,?_⟩
        · rw [hsync]
          exact hrest
        · rw [hsync]
          dsimp only
          rw [hlog,syncLog,hi]
          dsimp only
          split <;> rfl
      · rw [if_neg hm,if_neg (show ¬ s.mode (some i) &&& S_CHANGED ≠ 0 from hm),List.filter_cons_of_neg (by simpa using hm)]
        exact ih hl hself' hfuel'

theorem Inv.commit (dev blksize : ℕ) (h : s.Inv L) :
    ∃ disk' pos', scacheCommit D dev blksize s = some (0,{ s with disk := disk', pos := pos' }) ∧
      commitLog D dev blksize s = if D.openOk dev then (L (slot dev)).filter (fun i => s.HasMark i) else [] := by
  have hlen := h.lists.length_le (fun j hj => Nat.lt_of_lt_of_le hj h.cnt_le) (slot dev)
  obtain ⟨disk',pos',hloop,hlog⟩ := commitLoop_marks (D := D) blksize (h.lists.chain (slot dev))
    (fun i hi => h.seek_self hi) hlen
  exact ⟨disk',pos',by simp [scacheCommit,hloop],hlog⟩

/-- Without marks nothing is written. -/
theorem Inv.commit_clean (dev blksize : ℕ) (h : s.Inv L) (hm : ∀ i, ¬ s.HasMark i) :
    scacheCommit D dev blksize s = some (0,s) := by
  obtain ⟨disk',pos',hcommit,hlog⟩ := h.commit (D := D) dev blksize
  have hnone : commitLog D dev blksize s = [] := by
    rw [hlog,List.filter_eq_nil_iff.mpr (fun i _ => by simpa using hm i)]
    split <;> rfl
  have hs := scacheCommit_log hcommit
  rw [hnone] at hs
  rw [hcommit,hs]
  rfl

/-! ## Runs -/

inductive MarkOp where
  | get (g : Get)
  /-- the buffer of an entry is changed and marked -/
  | change (i : ℕ) (f : ℕ → UInt8)
  | sync (g : Get)
  | commit (dev blksize : ℕ)

abbrev Tracked := Scache × (ℕ → Bool)

def changeBuf (s : Scache) (i : ℕ) (f : ℕ → UInt8) : Scache :=
  { s with
    buf := update s.buf (some i) f
    mode := update s.mode (some i) (s.mode (some i) ||| S_CHANGED) }

def settle (l : List ℕ) (m : ℕ → Bool) : ℕ → Bool := fun i => m i && !l.contains i

def getLog (s : Scache) (g : Get) (sp : Ptr) : List ℕ :=
  if s.scacheSeek (s.clist (slot g.dev)) g.blk = some none then sp.toList else []

def markStep (D : BlkDevs) (x : Tracked) : MarkOp → Option Tracked
  | .get g => (scacheGet D g.dev g.blk g.blksize x.1).map (fun r => (r.2,settle (x.1.getLog g r.1) x.2))
  | .change i f => if i < x.1.alist.cnt then some (x.1.changeBuf i f,update x.2 i true) else none
  | .sync g => (scacheSync D g.dev g.blk g.blksize x.1).map (fun r => (r.2,settle (syncLog D g.dev g.blk x.1) x.2))
  | .commit dev blksize =>
    (scacheCommit D dev blksize x.1).map (fun r => (r.2,settle (commitLog D dev blksize x.1) x.2))

/-- The devices have lists of their own, blocks fit into the `buf` of an entry, and recycling
spares the heads of the lists. -/
def Orderly (D : BlkDevs) (x : Tracked) : MarkOp → Prop
  | .get g => DevOk g.dev ∧ g.blksize ≤ NMXBLKSZ ∧ (D.openOk g.dev → x.1.SparesHeads g.dev g.blk)
  | .change _ _ => True
  | .sync g => DevOk g.dev ∧ g.blksize ≤ NMXBLKSZ
  | .commit dev blksize => DevOk dev ∧ blksize ≤ NMXBLKSZ

/-- No entry with a mark is written to its device or taken for another block. -/
def FindsClean (D : BlkDevs) (x : Tracked) : MarkOp → Prop
  | .get g => D.openOk g.dev → (∀ i < x.1.alist.cnt, x.1.src (some i) ≠ (g.dev,g.blk)) → x.1.alist.cnt = NSECACHS →
      ∀ i, x.1.alist.begin = some i → ¬ x.1.HasMark i
  | .change _ _ => True
  | .sync g => D.openOk g.dev → ∀ i < x.1.alist.cnt, x.1.src (some i) = (g.dev,g.blk) → ¬ x.1.HasMark i
  | .commit dev _ => D.openOk dev → ∀ i < x.1.alist.cnt, (x.1.src (some i)).1 = dev → ¬ x.1.HasMark i

structure Tidy (D : BlkDevs) (s : Scache) (L : ℕ → List ℕ) : Prop where
  inv : s.Inv L
  fresh : ∀ i, s.alist.cnt ≤ i → ¬ s.HasMark i
  opens : ∀ i < s.alist.cnt, D.openOk (s.src (some i)).1

def Exact (x : Tracked) : Prop := ∀ i < x.1.alist.cnt, x.1.HasMark i ↔ x.2 i

variable {m : ℕ → Bool} {g : Get}

theorem Tidy.stored (h : Tidy D s L) (disk' : ℕ → ℕ → UInt8) (pos' : ℕ → ℕ) :
    Tidy D { s with disk := disk', pos := pos' } L := ⟨h.inv.stored disk' pos',h.fresh,h.opens⟩

theorem Inv.mem_slot (h : s.Inv L) (hd : DevOk dev) : i ∈ L (slot dev) ↔ i < s.alist.cnt ∧ (s.src (some i)).1 = dev := by
  constructor
  · intro hi
    obtain ⟨hok,hslot,-⟩ := h.owner _ i hi
    exact ⟨h.mem_lt hi,slot_inj hok hd hslot⟩
  · rintro ⟨hi,rfl⟩
    exact (h.mem_iff hi).mpr rfl

theorem Tidy.mem_commitLog (h : Tidy D s L) (hd : DevOk dev) (ho : D.openOk dev) (blksize : ℕ) :
    i ∈ commitLog D dev blksize s ↔ (i < s.alist.cnt ∧ (s.src (some i)).1 = dev) ∧ s.HasMark i := by
  obtain ⟨-,-,-,hlog⟩ := h.inv.commit (D := D) dev blksize
  rw [hlog,if_pos ho,List.mem_filter,h.inv.mem_slot hd,decide_eq_true_eq]

structure Settles (D : BlkDevs) (x : Tracked) (op : MarkOp) (t : Scache) (l : List ℕ) : Prop where
  step : markStep D x op = some (t,settle l x.2)
  mode : t.mode = x.1.mode
  lt : ∀ i ∈ l, i < t.alist.cnt
  old : ∀ i < t.alist.cnt, i ∉ l → i < x.1.alist.cnt
  clean_iff : FindsClean D x op ↔ ∀ i ∈ l, ¬ x.1.HasMark i

theorem settle_eq (l : List ℕ) (m : ℕ → Bool) (i : ℕ) : settle l m i = true ↔ m i = true ∧ i ∉ l := by
  simp [settle]

theorem Settles.exact_iff {x : Tracked} {op : MarkOp} (h : Settles D x op t l) (hx : Exact x) :
    Exact (t,settle l x.2) ↔ FindsClean D x op := by
  have hmark : ∀ i, t.HasMark i ↔ x.1.HasMark i := fun i => by rw [HasMark,h.mode,HasMark]
  rw [h.clean_iff]
  constructor
  · intro he i hi hm
    exact ((settle_eq l x.2 i).mp ((he i (h.lt i hi)).mp ((hmark i).mpr hm))).2 hi
  · intro hclean i hi
    change t.HasMark i ↔ settle l x.2 i = true
    rw [hmark i,settle_eq]
    by_cases hil : i ∈ l
    · exact ⟨fun hm => absurd hm (hclean i hil),fun hm => absurd hil hm.2⟩
    · exact (hx i (h.old i hi hil)).trans ⟨fun hm => ⟨hm,hil⟩,fun hm => hm.1⟩

theorem Tidy.mem_syncLog (h : Tidy D s L) (hd : DevOk dev) :
    i ∈ syncLog D dev blk s ↔ D.openOk dev ∧ i < s.alist.cnt ∧ s.src (some i) = (dev,blk) := by
  have hseek := h.inv.seek (slot dev) blk
  cases hfind : (L (slot dev)).find? (fun i => s.blk (some i) = blk) with
  | none =>
    rw [hfind] at hseek
    rw [syncLog,hseek]
    refine ⟨fun hi => absurd hi List.not_mem_nil,fun hi => ?_⟩
    exact absurd hi.2.2 ((h.inv.seek_none hd).mp hseek i hi.2.1)
  | some j =>
    rw [hfind] at hseek
    obtain ⟨hj,hsrc⟩ := h.inv.seek_src hd hseek
    rw [syncLog,hseek]
    dsimp only
    by_cases ho : D.openOk dev
    · rw [if_pos ho,List.mem_singleton]
      refine ⟨?_,fun hi => h.inv.src_inj hi.2.1 hj (hi.2.2.trans hsrc.symm)⟩
      rintro rfl
      exact ⟨ho,hj,hsrc⟩
    · rw [if_neg ho]
      exact ⟨fun hi => absurd hi List.not_mem_nil,fun hi => absurd hi.1 ho⟩

theorem Tidy.sync (h : Tidy D s L) (hd : DevOk g.dev) (m : ℕ → Bool) :
    ∃ t l, Settles D (s,m) (.sync g) t l ∧ ∃ L', Tidy D t L' := by
  obtain ⟨r,disk',pos',hsync⟩ := h.inv.sync (D := D) g.blk g.blksize g.dev
  refine ⟨{s with disk := disk', pos := pos'},syncLog D g.dev g.blk s,
    ⟨by rw [markStep,hsync]; rfl,rfl,fun i hi => ((h.mem_syncLog hd).mp hi).2.1,fun i hi _ => hi,?_⟩,L,
    h.stored disk' pos'⟩
  constructor
  · intro hclean i hi
    obtain ⟨ho,hlt,hsrc⟩ := (h.mem_syncLog hd).mp hi
    exact hclean ho i hlt hsrc
  · intro hall ho i hi hsrc
    exact hall i ((h.mem_syncLog hd).mpr ⟨ho,hi,hsrc⟩)

theorem Tidy.commit (h : Tidy D s L) (hd : DevOk dev) (blksize : ℕ) (m : ℕ → Bool) :
    ∃ t l, Settles D (s,m) (.commit dev blksize) t l ∧ ∃ L', Tidy D t L' := by
  obtain ⟨disk',pos',hcommit,hlog⟩ := h.inv.commit (D := D) dev blksize
  have hmem : ∀ i, i ∈ commitLog D dev blksize s → D.openOk dev ∧ i < s.alist.cnt ∧ (s.src (some i)).1 = dev := by
    intro i hi
    by_cases ho : D.openOk dev
    · exact ⟨ho,((h.mem_commitLog hd ho blksize).mp hi).1⟩
    · rw [hlog,if_neg ho] at hi
      exact absurd hi List.not_mem_nil
  refine ⟨{s with disk := disk', pos := pos'},commitLog D dev blksize s,
    ⟨by rw [markStep,hcommit]; rfl,rfl,fun i hi => (hmem i hi).2.1,fun i hi _ => hi,?_⟩,L,h.stored disk' pos'⟩
  constructor
  · intro hclean i hi
    obtain ⟨ho,hlt,hsrc⟩ := hmem i hi
    exact hclean ho i hlt hsrc
  · intro hall ho i hi hsrc hm
    exact hall i ((h.mem_commitLog hd ho blksize).mpr ⟨⟨hi,hsrc⟩,hm⟩) hm

/-- The entry a miss takes is in use afterwards, and it is the only new one. -/
theorem Takes.cnt {a : AllocList} (h : s.Inv L) (ht : s.Takes i a) :
    i < a.cnt ∧ s.alist.cnt ≤ a.cnt ∧ ∀ j < a.cnt, j ≠ i → j < s.alist.cnt := by
  rcases ht with ⟨-,rfl,rfl⟩ | ⟨-,hb,rfl⟩
  · rw [AllocList.append_cnt]
    exact ⟨Nat.lt_succ_self _,Nat.le_succ _,fun j hj hne => by omega⟩
  · rw [AllocList.recycle_cnt]
    exact ⟨h.closed.begin_lt i hb,le_rfl,fun j hj _ => hj⟩

theorem Takes.clean_iff {a : AllocList} (h : Tidy D s L) (ht : s.Takes i a) (ho : D.openOk g.dev)
    (hnew : ∀ j < s.alist.cnt, s.src (some j) ≠ (g.dev,g.blk)) :
    FindsClean D (s,m) (.get g) ↔ ¬ s.HasMark i := by
  rcases ht with ⟨hroom,rfl,-⟩ | ⟨hfull,hb,-⟩
  · exact ⟨fun _ => h.fresh _ le_rfl,fun _ _ _ hfull => absurd hfull hroom.ne⟩
  · constructor
    · exact fun hclean => hclean ho hnew hfull i hb
    · intro hm _ _ _ j hj
      rwa [← Option.some.inj (hb.symm.trans hj)]

theorem Tidy.load (h : Tidy D s L) (ho : D.openOk dev) (hinv : t.Inv L') (hload : Loads D dev blk blksize s t i) :
    Tidy D t L' where
  inv := hinv
  fresh j hj := by
    rw [HasMark,hload.mode]
    exact h.fresh j (le_trans (Takes.cnt h.inv hload.takes).2.1 hj)
  opens j hj := by
    rw [hload.src]
    by_cases hji : j = i
    · rw [hji,update_self]
      exact ho
    · rw [update_of_ne (by simpa using hji)]
      exact h.opens j ((Takes.cnt h.inv hload.takes).2.2 j hj hji)

theorem Tidy.promo (h : Tidy D s L) (hi : i < s.alist.cnt) : Tidy D (s.scachePromo (some i)) L where
  inv := h.inv.promo hi
  fresh j hj := h.fresh j (le_of_eq_of_le (AllocList.promo_cnt _).symm hj)
  opens j hj := h.opens j (Nat.lt_of_lt_of_eq hj (AllocList.promo_cnt _))

theorem Tidy.get (h : Tidy D s L) (hd : DevOk g.dev) (hs : D.openOk g.dev → s.SparesHeads g.dev g.blk) (m : ℕ → Bool) :
    ∃ t l, Settles D (s,m) (.get g) t l ∧ ∃ L', Tidy D t L' := by
  cases hfind : (L (slot g.dev)).find? (fun i => s.blk (some i) = g.blk) with
  | some i =>
    have hseek := h.inv.seek (slot g.dev) g.blk
    rw [hfind] at hseek
    obtain ⟨hi,hsrc⟩ := h.inv.seek_src hd hseek
    refine ⟨s.scachePromo (some i),[],⟨?_,rfl,?_,?_,?_⟩,L,h.promo hi⟩
    · simp [markStep,scacheGet,hseek,getLog]
    · exact fun j hj => absurd hj List.not_mem_nil
    · exact fun j hj _ => Nat.lt_of_lt_of_eq hj (AllocList.promo_cnt _)
    · exact ⟨fun _ j hj => absurd hj List.not_mem_nil,fun _ _ hnew => absurd hsrc (hnew i hi)⟩
  | none =>
    have hseek := h.inv.seek (slot g.dev) g.blk
    rw [hfind] at hseek
    have hnew := (h.inv.seek_none hd).mp hseek
    by_cases ho : D.openOk g.dev
    · obtain ⟨i,L',t,hget,hinv,-,-,hcase⟩ := h.inv.get g.blksize hd ho (hs ho)
      rcases hcase with ⟨hi,hsrc,-⟩ | ⟨-,hload⟩
      · exact absurd hsrc (hnew i hi)
      · obtain ⟨hit,-,hold⟩ := Takes.cnt h.inv hload.takes
        refine ⟨t,[i],⟨?_,hload.mode,?_,?_,?_⟩,L',h.load ho hinv hload⟩
        · simp [markStep,hget,getLog,hseek]
        · simpa using hit
        · simpa using hold
        · simpa using hload.takes.clean_iff h ho hnew
    · refine ⟨s,[],⟨?_,rfl,?_,fun j hj _ => hj,?_⟩,L,h⟩
      · simp [markStep,scacheGet,hseek,getLog,ho]
      · exact fun j hj => absurd hj List.not_mem_nil
      · exact ⟨fun _ j hj => absurd hj List.not_mem_nil,fun _ hopen => absurd hopen ho⟩

/-! ## A change sets the mark -/

theorem marked_ne_zero (b : UInt8) : (b ||| S_CHANGED) &&& S_CHANGED ≠ 0 := by
  intro h
  have h' := congrArg UInt8.toNat h
  rw [UInt8.toNat_and,UInt8.toNat_or,Nat.and_or_distrib_right] at h'
  exact absurd (Nat.or_eq_zero_iff.mp h').2 (by decide)

theorem hasMark_changeBuf (s : Scache) (i : ℕ) (f : ℕ → UInt8) (j : ℕ) :
    (s.changeBuf i f).HasMark j ↔ j = i ∨ s.HasMark j := by
  by_cases hji : j = i
  · subst hji
    refine ⟨fun _ => Or.inl rfl,fun _ => ?_⟩
    change update s.mode (some j) _ (some j) &&& S_CHANGED ≠ 0
    rw [update_self]
    exact marked_ne_zero _
  · simp [HasMark,changeBuf,hji]

theorem Tidy.change (h : Tidy D s L) (hi : i < s.alist.cnt) (f : ℕ → UInt8) : Tidy D (s.changeBuf i f) L where
  inv := h.inv.congr rfl rfl rfl rfl rfl rfl
  fresh j hj := by
    rw [hasMark_changeBuf]
    rintro (rfl | hm)
    · exact absurd hi (Nat.not_lt_of_le hj)
    · exact h.fresh j hj hm
  opens := h.opens

theorem Exact.change {x : Tracked} (hx : Exact x) (i : ℕ) (f : ℕ → UInt8) :
    Exact (x.1.changeBuf i f,update x.2 i true) := by
  intro j hj
  change (x.1.changeBuf i f).HasMark j ↔ update x.2 i true j = true
  rw [hasMark_changeBuf]
  by_cases hji : j = i
  · simp [hji]
  · simpa [hji] using hx j hj

/-! ## Runs keep the marks exact -/

theorem Tidy.step {x y : Tracked} {op : MarkOp} (h : Tidy D x.1 L) (ho : Orderly D x op) (hy : markStep D x op = some y) :
    (∃ L', Tidy D y.1 L') ∧ (Exact x → (Exact y ↔ FindsClean D x op)) := by
  have hsettles : (∃ t l, Settles D x op t l ∧ ∃ L', Tidy D t L') →
      (∃ L', Tidy D y.1 L') ∧ (Exact x → (Exact y ↔ FindsClean D x op)) := by
    rintro ⟨t,l,hset,L',ht⟩
    obtain rfl : (t,settle l x.2) = y := Option.some.inj (hset.step.symm.trans hy)
    exact ⟨⟨L',ht⟩,hset.exact_iff⟩
  cases op with
  | get g => exact hsettles (h.get ho.1 ho.2.2 x.2)
  | sync g => exact hsettles (h.sync ho.1 x.2)
  | commit dev blksize => exact hsettles (h.commit ho.1 blksize x.2)
  | change i f =>
    rw [markStep] at hy
    split at hy
    case isFalse => cases hy
    case isTrue hi =>
      obtain rfl := Option.some.inj hy
      exact ⟨⟨L,h.change hi f⟩,fun hx => ⟨fun _ => trivial,fun _ => hx.change i f⟩⟩

end Micron.Kernel.Scache

import Mathlib.Data.Finset.Card
import Micron.Kernel.ScacheRuns

/-! # What the cached blocks contain

A block has a content: the buffer of its entry while it is cached, the disk otherwise.
Loading, modifying and writing back blocks are correct with respect to that content
except when a modified entry is recycled, since `scache_alloc` does not write it back.
-/
namespace Micron.Kernel.Scache
open Function Runs

structure Geometry where
  ok : ℕ → ℤ → Prop
  addr : ℕ → ℤ → ℕ
  size : ℕ → ℤ → ℕ
  disjoint : ∀ d b b', ok d b → ok d b' → b ≠ b' →
    addr d b + size d b ≤ addr d b' ∨ addr d b' + size d b' ≤ addr d b

abbrev Content := ℕ → ℤ → ℕ → UInt8

structure Get.Fits (G : Geometry) (g : Get) : Prop where
  ok : G.ok g.dev g.blk
  addr_eq : g.addr = G.addr g.dev g.blk
  size_le : G.size g.dev g.blk ≤ g.blksize / 512 * 512

def Clean (G : Geometry) (s : Scache) (p : Ptr) : Prop :=
  ∀ k < G.size (s.src p).1 (s.src p).2,
    s.buf p k = s.disk (s.src p).1 (G.addr (s.src p).1 (s.src p).2 + k)

def OnDisk (G : Geometry) (C : Content) (s : Scache) (d : ℕ) (b : ℤ) : Prop :=
  ∀ k < G.size d b, s.disk d (G.addr d b + k) = C d b k

structure Coherent (G : Geometry) (C : Content) (s : Scache) (L : ℕ → List ℕ) : Prop where
  inv : s.Inv L
  ok : ∀ i < s.alist.cnt, G.ok (s.src (some i)).1 (s.src (some i)).2
  cached : ∀ i < s.alist.cnt, ∀ k < G.size (s.src (some i)).1 (s.src (some i)).2,
    s.buf (some i) k = C (s.src (some i)).1 (s.src (some i)).2 k
  stored : ∀ d b, G.ok d b → (∀ i < s.alist.cnt, s.src (some i) ≠ (d,b)) →
    ∀ k < G.size d b, s.disk d (G.addr d b + k) = C d b k

variable {G : Geometry} {C : Content} {s t : Scache} {L : ℕ → List ℕ} {D : BlkDevs} {g : Get} {i : ℕ}
  {disk : ℕ → ℕ → UInt8}

theorem boot_coherent : (boot disk).Coherent G (fun d b k => disk d (G.addr d b + k)) (fun _ => []) where
  inv := boot_inv disk
  ok i hi := absurd hi (Nat.not_lt_zero i)
  cached i hi := absurd hi (Nat.not_lt_zero i)
  stored _ _ _ _ _ _ := rfl

/-- The invariant of the lists says nothing about buffers, modes and disks. -/
theorem Inv.congr (h : s.Inv L) (hb : t.blk = s.blk) (hn : t.cnext = s.cnext) (hl : t.clast = s.clast)
    (hh : t.clist = s.clist) (ha : t.alist = s.alist) (hs : t.src = s.src) : t.Inv L where
  lists := ha ▸ h.lists.congr hh hn hl (fun i _ => by rw [hb])
  closed := ha ▸ h.closed
  unused := ha ▸ h.unused
  cnt_le := ha ▸ h.cnt_le
  owner := hs ▸ hb ▸ h.owner

/-- What the kernel takes for the block: the cached copy, or the disk if there is none. -/
def view (s : Scache) (blksize dev : ℕ) (blk : ℤ) : ℕ → UInt8 :=
  match s.scacheSeek (s.clist (slot dev)) blk with
  | some (some i) => s.buf (some i)
  | _ => fun k => s.disk dev ((Get.mk dev blk blksize).addr + k)

theorem Coherent.view_eq (h : s.Coherent G C L) (hd : DevOk g.dev) (hok : G.ok g.dev g.blk)
    (ha : g.addr = G.addr g.dev g.blk) {k : ℕ} (hk : k < G.size g.dev g.blk) :
    s.view g.blksize g.dev g.blk k = C g.dev g.blk k := by
  have hseek := h.inv.seek (slot g.dev) g.blk
  unfold view
  cases hfind : (L (slot g.dev)).find? (fun i => s.blk (some i) = g.blk) with
  | none =>
    rw [hfind] at hseek
    rw [hseek,← h.stored g.dev g.blk hok ((h.inv.seek_none hd).mp hseek) k hk,← ha]
  | some i =>
    rw [hfind] at hseek
    obtain ⟨hi,hsrc⟩ := h.inv.seek_src hd hseek
    have hc := h.cached i hi
    rw [hsrc] at hc
    rw [hseek]
    exact hc k hk

/-! ## One call -/

structure Got (g : Get) (s t : Scache) (i : ℕ) : Prop where
  lt : i < t.alist.cnt
  src : t.src (some i) = (g.dev,g.blk)
  disk : t.disk = s.disk
  old : ∀ j < t.alist.cnt, j ≠ i → j < s.alist.cnt ∧ t.src (some j) = s.src (some j)
  keep : s.alist.cnt < NSECACHS → ∀ j < s.alist.cnt, j < t.alist.cnt ∧ t.src (some j) = s.src (some j)

theorem Loads.got (h : Loads D g.dev g.blk g.blksize s t i) (hi : i < t.alist.cnt) : Got g s t i where
  lt := hi
  src := by simp [h.src]
  disk := h.disk
  old j hj hji := ⟨(h.other hji).2.2 hj,(h.other hji).1⟩
  keep hc j hj := by
    rcases h.takes with ⟨-,rfl,ha⟩ | ⟨hfull,-⟩
    · rw [ha,AllocList.append_cnt]
      exact ⟨by omega,(h.other (Nat.ne_of_lt hj)).1⟩
    · omega

theorem Coherent.get (h : s.Coherent G C L) (hv : g.Valid D) (hf : g.Fits G) (ho : D.openOk g.dev)
    (hs : s.SparesHeads g.dev g.blk)
    (hc : s.scacheSeek (s.clist (slot g.dev)) g.blk = some none → s.alist.cnt = NSECACHS →
      s.Clean G s.alist.begin) :
    ∃ i L' t, scacheGet D g.dev g.blk g.blksize s = some (some i,t) ∧ t.Coherent G C L' ∧ Got g s t i := by
  obtain ⟨i,L',t,ht,hinv,hi,hsrc,hcase⟩ := h.inv.get g.blksize hv.dev_ok ho hs
  refine ⟨i,L',t,ht,?_,?_⟩
  · rcases hcase with ⟨-,-,rfl⟩ | ⟨hnew,hload⟩
    · have hcnt : (s.scachePromo (some i)).alist.cnt = s.alist.cnt := AllocList.promo_cnt _
      exact ⟨hinv,hcnt ▸ h.ok,hcnt ▸ h.cached,hcnt ▸ h.stored⟩
    · refine ⟨hinv,?_,?_,?_⟩
      · intro j hj
        by_cases hji : j = i
        · subst hji
          rw [hsrc]
          exact hf.ok
        · obtain ⟨hsj,-,hlt⟩ := hload.other hji
          rw [hsj]
          exact h.ok j (hlt hj)
      · intro j hj k hk
        by_cases hji : j = i
        · subst hji
          rw [hsrc] at hk ⊢
          rw [hload.data hv ho (Nat.lt_of_lt_of_le hk hf.size_le),hf.addr_eq]
          exact h.stored g.dev g.blk hf.ok hnew k hk
        · obtain ⟨hsj,hbj,hlt⟩ := hload.other hji
          rw [hsj] at hk ⊢
          rw [hbj]
          exact h.cached j (hlt hj) k hk
      · intro d b hok hun k hk
        rw [hload.disk]
        by_cases hcached : ∀ j < s.alist.cnt, s.src (some j) ≠ (d,b)
        · exact h.stored d b hok hcached k hk
        · -- the block was evicted by this call, so it was clean
          push Not at hcached
          obtain ⟨j,hj,hsj⟩ := hcached
          have hseek := (h.inv.seek_none hv.dev_ok).mpr hnew
          rcases hload.takes with ⟨-,rfl,ha⟩ | ⟨hfull,hbegin,ha⟩
          · refine absurd ?_ (hun j (by rw [ha,AllocList.append_cnt]; omega))
            rw [(hload.other (Nat.ne_of_lt hj)).1,hsj]
          · have hji : j = i := by
              by_contra hne
              refine hun j (by rw [ha,AllocList.recycle_cnt]; exact hj) ?_
              rw [(hload.other hne).1,hsj]
            subst hji
            have hclean := hc hseek hfull
            rw [hbegin] at hclean
            have hcj := h.cached j hj
            unfold Clean at hclean
            rw [hsj] at hclean hcj
            rw [← hclean k hk,hcj k hk]
  · rcases hcase with ⟨-,-,rfl⟩ | ⟨-,hload⟩
    · have hcnt : (s.scachePromo (some i)).alist.cnt = s.alist.cnt := AllocList.promo_cnt _
      exact ⟨hi,hsrc,rfl,fun j hj _ => ⟨hcnt ▸ hj,rfl⟩,fun _ j hj => ⟨hcnt ▸ hj,rfl⟩⟩
    · exact hload.got hi

/-- Entries for blocks of a set that fits into the table leave room for those missing. -/
theorem Inv.room {B : Finset (ℕ × ℤ)} (h : s.Inv L) (hB : B.card ≤ NSECACHS)
    (hw : ∀ i < s.alist.cnt, s.src (some i) ∈ B) {x : ℕ × ℤ} (hx : x ∈ B)
    (hnew : ∀ i < s.alist.cnt, s.src (some i) ≠ x) : s.alist.cnt < NSECACHS := by
  have hmaps : ∀ i ∈ Finset.range s.alist.cnt, s.src (some i) ∈ B.erase x := by
    intro i hi
    have hi' := Finset.mem_range.mp hi
    exact Finset.mem_erase.mpr ⟨hnew i hi',hw i hi'⟩
  have hinj : Set.InjOn (fun i => s.src (some i)) (Finset.range s.alist.cnt) := by
    intro i hi j hj he
    exact h.src_inj (Finset.mem_range.mp hi) (Finset.mem_range.mp hj) he
  have hcard := Finset.card_le_card_of_injOn _ hmaps hinj
  rw [Finset.card_range,Finset.card_erase_of_mem hx] at hcard
  have hpos := Finset.card_pos.mpr ⟨x,hx⟩
  omega

theorem Coherent.get_mem {B : Finset (ℕ × ℤ)} (h : s.Coherent G C L) (hv : g.Valid D) (hf : g.Fits G)
    (ho : D.openOk g.dev) (hB : B.card ≤ NSECACHS) (hw : ∀ i < s.alist.cnt, s.src (some i) ∈ B)
    (hg : (g.dev,g.blk) ∈ B) :
    ∃ i L' t, scacheGet D g.dev g.blk g.blksize s = some (some i,t) ∧ t.Coherent G C L' ∧ Got g s t i ∧
      ∀ i < t.alist.cnt, t.src (some i) ∈ B := by
  have hroom : s.scacheSeek (s.clist (slot g.dev)) g.blk = some none → s.alist.cnt ≠ NSECACHS :=
    fun hm => Nat.ne_of_lt (h.inv.room hB hw hg ((h.inv.seek_none hv.dev_ok).mp hm))
  obtain ⟨i,L',t,ht,h',hgot⟩ := h.get hv hf ho (fun hm hfull => absurd hfull (hroom hm))
    (fun hm hfull => absurd hfull (hroom hm))
  refine ⟨i,L',t,ht,h',hgot,fun j hj => ?_⟩
  by_cases hji : j = i
  · rw [hji,hgot.src]
    exact hg
  · obtain ⟨hj',hsrc⟩ := hgot.old j hj hji
    rw [hsrc]
    exact hw j hj'

/-- No entry is dropped for a block of such a set. -/
theorem Inv.get_kept {B : Finset (ℕ × ℤ)} (h : s.Inv L) (hd : DevOk g.dev) (ho : D.openOk g.dev) (hB : B.card ≤ NSECACHS)
    (hw : ∀ i < s.alist.cnt, s.src (some i) ∈ B) (hg : (g.dev,g.blk) ∈ B)
    (hget : scacheGet D g.dev g.blk g.blksize s = some (some i,t)) :
    ∀ j < s.alist.cnt, j < t.alist.cnt ∧ t.src (some j) = s.src (some j) := by
  have hroom : s.scacheSeek (s.clist (slot g.dev)) g.blk = some none → s.alist.cnt ≠ NSECACHS :=
    fun hm => Nat.ne_of_lt (h.room hB hw hg ((h.seek_none hd).mp hm))
  obtain ⟨i',L',t',ht,-,hi,-,hcase⟩ := h.get g.blksize hd ho (fun hm hfull => absurd hfull (hroom hm))
  obtain ⟨he,rfl⟩ := Prod.mk.inj (Option.some.inj (hget.symm.trans ht))
  rcases hcase with ⟨-,-,rfl⟩ | ⟨hnew,hload⟩
  · have hcnt : (s.scachePromo (some i')).alist.cnt = s.alist.cnt := AllocList.promo_cnt _
    exact fun j hj => ⟨hcnt ▸ hj,rfl⟩
  · exact (hload.got hi).keep (h.room hB hw hg hnew)

def Content.set (C : Content) (d : ℕ) (b : ℤ) (f : ℕ → UInt8) : Content := update C d (update (C d) b f)

@[simp] theorem Content.set_self (d : ℕ) (b : ℤ) (f : ℕ → UInt8) : C.set d b f d b = f := by simp [Content.set]

theorem Content.set_of_ne {d e : ℕ} {b c : ℤ} (f : ℕ → UInt8) (h : (e,c) ≠ (d,b)) : C.set d b f e c = C e c := by
  by_cases he : e = d
  · subst he
    have hc : c ≠ b := fun hc => h (by rw [hc])
    simp [Content.set,hc]
  · simp [Content.set,he]

theorem Coherent.set {f : ℕ → UInt8} (h : s.Coherent G C L) (hi : i < s.alist.cnt) (m : Ptr → UInt8) :
    { s with buf := update s.buf (some i) f, mode := m }.Coherent G
      (C.set (s.src (some i)).1 (s.src (some i)).2 f) L where
  inv := h.inv.congr rfl rfl rfl rfl rfl rfl
  ok := h.ok
  cached := by
    intro j hj k hk
    by_cases hji : j = i
    · subst hji
      simp only [update_self,Content.set_self]
    · have hne : s.src (some j) ≠ s.src (some i) := fun he => hji (h.inv.src_inj hj hi he)
      simp only [update_of_ne (show (some j : Ptr) ≠ some i by simpa using hji)]
      rw [Content.set_of_ne f hne]
      exact h.cached j hj k hk
  stored := by
    intro d b hok hun k hk
    rw [Content.set_of_ne f (fun he => hun i hi he.symm)]
    exact h.stored d b hok hun k hk

def modify (s : Scache) (p : Ptr) (patch : ℕ → Option UInt8) : Scache :=
  { s with
    buf := update s.buf p (fun k => (patch k).getD (s.buf p k))
    mode := update s.mode p (s.mode p ||| S_CHANGED) }

def Content.patch (C : Content) (d : ℕ) (b : ℤ) (patch : ℕ → Option UInt8) : Content :=
  C.set d b (fun k => (patch k).getD (C d b k))

theorem Coherent.congr {C' : Content} (h : s.Coherent G C L)
    (hC : ∀ d b, G.ok d b → ∀ k < G.size d b, C' d b k = C d b k) : s.Coherent G C' L where
  inv := h.inv
  ok := h.ok
  cached i hi k hk := (h.cached i hi k hk).trans (hC _ _ (h.ok i hi) k hk).symm
  stored d b hok hun k hk := (h.stored d b hok hun k hk).trans (hC d b hok k hk).symm

theorem Coherent.modify (h : s.Coherent G C L) (hi : i < s.alist.cnt) (patch : ℕ → Option UInt8) :
    (s.modify (some i) patch).Coherent G (C.patch (s.src (some i)).1 (s.src (some i)).2 patch) L := by
  refine (h.set hi _).congr (fun d b hok k hk => ?_)
  by_cases hd : (d,b) = s.src (some i)
  · obtain ⟨rfl,rfl⟩ := Prod.mk.inj hd
    rw [Content.patch,Content.set_self,Content.set_self,h.cached i hi k hk]
  · rw [Content.patch,Content.set_of_ne _ hd,Content.set_of_ne _ hd]

theorem Coherent.gets {gs : List Get} (h : s.Coherent G C L) (hg : ∀ g ∈ gs, g.Valid D ∧ g.Fits G ∧ D.openOk g.dev)
    (hroom : s.alist.cnt + gs.length ≤ NSECACHS) :
    ∃ t L', gs.foldlM (getStep D) s = some t ∧ t.Coherent G C L' ∧ t.disk = s.disk := by
  induction gs generalizing s L with
  | nil => exact ⟨s,L,rfl,h,rfl⟩
  | cons g gs ih =>
    rw [List.length_cons] at hroom
    obtain ⟨hv,hf,ho⟩ := hg g List.mem_cons_self
    obtain ⟨i,L',t,ht,hcoh,hgot⟩ := h.get hv hf ho (fun _ hc => absurd hc (by omega)) (fun _ hc => absurd hc (by omega))
    have hcnt := scacheGet_cnt ht
    obtain ⟨u,L'',hu,hcoh',hdisk⟩ := ih hcoh (fun g' hg' => hg g' (List.mem_cons_of_mem _ hg')) (by omega)
    refine ⟨u,L'',?_,hcoh',hdisk.trans hgot.disk⟩
    rw [List.foldlM_cons,show getStep D s g = some t by rw [getStep,ht]; rfl]
    exact hu

/-- Writing back a block leaves the others on the disk alone. -/
theorem Coherent.sync (h : s.Coherent G C L) (hv : g.Valid D) (hf : g.Fits G) (ho : D.openOk g.dev)
    (hsize : g.blksize / 512 * 512 = G.size g.dev g.blk) :
    ∃ r disk' pos', scacheSync D g.dev g.blk g.blksize s = some (r,{ s with disk := disk', pos := pos' }) ∧
      { s with disk := disk', pos := pos' }.Coherent G C L ∧
      (∀ d b, G.ok d b → s.OnDisk G C d b → { s with disk := disk', pos := pos' }.OnDisk G C d b) ∧
      ((∃ i < s.alist.cnt, s.src (some i) = (g.dev,g.blk)) →
        { s with disk := disk', pos := pos' }.OnDisk G C g.dev g.blk) := by
  have hseek := h.inv.seek (slot g.dev) g.blk
  cases hfind : (L (slot g.dev)).find? (fun i => s.blk (some i) = g.blk) with
  | none =>
    rw [hfind] at hseek
    refine ⟨-1,s.disk,s.pos,by simp [scacheSync,hseek],h,fun _ _ _ hd => hd,?_⟩
    rintro ⟨i,hi,hsrc⟩
    exact absurd hsrc ((h.inv.seek_none hv.dev_ok).mp hseek i hi)
  | some i =>
    rw [hfind] at hseek
    obtain ⟨hi,hsrc⟩ := h.inv.seek_src hv.dev_ok hseek
    have hpos : seekPos D s.pos g.dev (sector g.blk g.blksize) g.dev * 512 = G.addr g.dev g.blk := by
      rw [seekPos,if_pos (hv.seek_ok ho),update_self,hv.sector_eq,← hf.addr_eq]
      rfl
    have hnew : { s with
        disk := ((s.devLseek D g.dev (sector g.blk g.blksize)).devWrite g.dev (some i) (g.blksize / 512)).disk
        pos := seekPos D s.pos g.dev (sector g.blk g.blksize) }.OnDisk G C g.dev g.blk := by
      intro k hk
      have hc := h.cached i hi
      rw [hsrc] at hc
      dsimp only [devWrite,devLseek]
      rw [update_self,hpos,hsize,if_pos ⟨Nat.le_add_right _ _,Nat.add_lt_add_left hk _⟩,Nat.add_sub_cancel_left]
      exact hc k hk
    have hold : ∀ d b, G.ok d b → (d,b) ≠ (g.dev,g.blk) → ∀ k < G.size d b,
        ((s.devLseek D g.dev (sector g.blk g.blksize)).devWrite g.dev (some i) (g.blksize / 512)).disk d
          (G.addr d b + k) = s.disk d (G.addr d b + k) := by
      intro d b hok hne k hk
      dsimp only [devWrite,devLseek]
      by_cases hd : d = g.dev
      · subst hd
        have hdis := G.disjoint g.dev b g.blk hok hf.ok (fun he => hne (by rw [he]))
        rw [update_self,hpos,hsize,if_neg (by omega)]
      · rw [update_of_ne hd]
    refine ⟨0,((s.devLseek D g.dev (sector g.blk g.blksize)).devWrite g.dev (some i) (g.blksize / 512)).disk,
      seekPos D s.pos g.dev (sector g.blk g.blksize),?_,?_,?_,fun _ => hnew⟩
    · simp only [scacheSync,hseek,Option.bind_eq_bind,Option.bind_some]
      rw [if_neg (by simp),if_neg (by simp [ho])]
      rfl
    · refine ⟨h.inv.congr rfl rfl rfl rfl rfl rfl,h.ok,h.cached,?_⟩
      intro d b hok hun k hk
      rw [← h.stored d b hok hun k hk]
      exact hold d b hok (fun he => hun i hi (hsrc.trans he.symm)) k hk
    · intro d b hok hd
      by_cases he : (d,b) = (g.dev,g.blk)
      · obtain ⟨rfl,rfl⟩ := Prod.mk.inj he
        exact hnew
      · exact fun k hk => (hold d b hok he k hk).trans (hd k hk)

/-- Writing back a block that is found changes nothing but the disk. -/
theorem scacheSync_hit {dev n : ℕ} {blk : ℤ} (hseek : s.scacheSeek (s.clist (slot dev)) blk = some (some i))
    (ho : D.openOk dev) : ∃ disk' pos', scacheSync D dev blk n s = some (0,{ s with disk := disk', pos := pos' }) := by
  simp only [scacheSync,hseek,Option.bind_eq_bind,Option.bind_some]
  rw [if_neg (by simp),if_neg (by simp [ho])]
  exact ⟨_,_,rfl⟩

/-- Writing back a block changes nothing outside of it. -/
theorem scacheSync_frame {r : ℤ} {d a : ℕ} (hv : g.Valid D) (ho : D.openOk g.dev)
    (h : scacheSync D g.dev g.blk g.blksize s = some (r,t))
    (hout : d = g.dev → a < g.addr ∨ g.addr + g.blksize / 512 * 512 ≤ a) : t.disk d a = s.disk d a := by
  obtain ⟨sp,-,h⟩ := Option.bind_eq_some_iff.mp h
  by_cases hsp : sp = none
  · rw [if_pos hsp] at h
    cases h
    rfl
  · rw [if_neg hsp,if_neg (by simp [ho])] at h
    cases h
    dsimp only [devWrite,devLseek]
    by_cases hd : d = g.dev
    · have hpos : seekPos D s.pos g.dev (sector g.blk g.blksize) g.dev * 512 = g.addr := by
        rw [seekPos,if_pos (hv.seek_ok ho),update_self,hv.sector_eq]
        rfl
      have hout' := hout hd
      rw [hd,update_self,hpos,if_neg (by omega)]
    · rw [update_of_ne hd]

theorem Coherent.commitLoop {dev fuel : ℕ} {p : Ptr} {l : List ℕ} (blksize : ℕ) (h : s.Coherent G C L)
    (hl : Linked.Chain s.cnext p l) (hmem : ∀ i ∈ l, i ∈ L (slot dev)) (hfuel : l.length ≤ fuel)
    (hd : DevOk dev) (ho : D.openOk dev)
    (hv : ∀ b, G.ok dev b → (Get.mk dev b blksize).Valid D ∧ (Get.mk dev b blksize).Fits G ∧
      blksize / 512 * 512 = G.size dev b) :
    ∃ disk' pos', commitLoop D dev blksize fuel p s = some { s with disk := disk', pos := pos' } ∧
      { s with disk := disk', pos := pos' }.Coherent G C L := by
  induction l generalizing s p fuel with
  | nil =>
    obtain rfl : p = none := hl
    exact ⟨s.disk,s.pos,by simp [Scache.commitLoop],h⟩
  | cons i l ih =>
    obtain ⟨rfl,hl⟩ := hl
    cases fuel with
    | zero => simp at hfuel
    | succ fuel =>
      have hfuel' : l.length ≤ fuel := by simpa using hfuel
      have hmem' : ∀ j ∈ l, j ∈ L (slot dev) := fun j hj => hmem j (List.mem_cons_of_mem i hj)
      unfold Scache.commitLoop
      split
      · have hi := hmem i List.mem_cons_self
        obtain ⟨hok,hslot,hb⟩ := h.inv.owner _ i hi
        have hblk : G.ok dev (s.blk (some i)) := by
          rw [← hb,← slot_inj hok hd hslot]
          exact h.ok i (h.inv.mem_lt hi)
        obtain ⟨hvalid,hfits,hsize⟩ := hv _ hblk
        obtain ⟨r,disk₁,pos₁,hsync,h₁,-⟩ := h.sync hvalid hfits ho hsize
        obtain ⟨disk₂,pos₂,hrest,h₂⟩ := ih (p := s.cnext (some i)) h₁ hl hmem' hfuel'
        refine ⟨disk₂,pos₂,?_,h₂⟩
        rw [hsync]
        exact hrest
      · exact ih h hl hmem' hfuel'

theorem Coherent.commit (dev blksize : ℕ) (h : s.Coherent G C L) (hd : DevOk dev) (ho : D.openOk dev)
    (hv : ∀ b, G.ok dev b → (Get.mk dev b blksize).Valid D ∧ (Get.mk dev b blksize).Fits G ∧
      blksize / 512 * 512 = G.size dev b) :
    ∃ disk' pos', scacheCommit D dev blksize s = some (0,{ s with disk := disk', pos := pos' }) ∧
      { s with disk := disk', pos := pos' }.Coherent G C L := by
  have hlen := h.inv.lists.length_le (fun j hj => Nat.lt_of_lt_of_le hj h.inv.cnt_le) (slot dev)
  obtain ⟨disk',pos',hloop,h'⟩ := h.commitLoop (D := D) blksize (h.inv.lists.chain (slot dev))
    (fun i hi => hi) hlen hd ho hv
  exact ⟨disk',pos',by simp [scacheCommit,hloop],h'⟩

/-! ## Runs with one block size per device -/

structure BlkSizes where
  size : ℕ → ℕ
  aligned : ∀ d, 512 ∣ size d
  supported : ∀ d, size d ≤ NMXBLKSZ

inductive DataOp where
  | get (dev : ℕ) (blk : ℤ)
  | write (dev : ℕ) (blk : ℤ) (patch : ℕ → Option UInt8)
  | sync (dev : ℕ) (blk : ℤ)
  | commit (dev : ℕ)

def BlkSizes.request (bs : BlkSizes) (dev : ℕ) (blk : ℤ) : Get := ⟨dev,blk,bs.size dev⟩

def BlkSizes.geometry (bs : BlkSizes) (D : BlkDevs) : Geometry where
  ok d b := (bs.request d b).Valid D
  addr d b := (bs.request d b).addr
  size d _ := bs.size d
  disjoint := by
    intro d b b' hb hb' hne
    have hs := Nat.div_mul_cancel (bs.aligned d)
    simp only [Get.addr,BlkSizes.request,Nat.mul_assoc,hs]
    have h0 := hb.nonneg
    have h0' := hb'.nonneg
    simp only [BlkSizes.request] at h0 h0'
    have hlt : b.toNat < b'.toNat ∨ b'.toNat < b.toNat := by omega
    refine hlt.imp (fun h => ?_) (fun h => ?_)
    · calc b.toNat * bs.size d + bs.size d = (b.toNat + 1) * bs.size d := (Nat.succ_mul _ _).symm
        _ ≤ b'.toNat * bs.size d := Nat.mul_le_mul_right _ h
    · calc b'.toNat * bs.size d + bs.size d = (b'.toNat + 1) * bs.size d := (Nat.succ_mul _ _).symm
        _ ≤ b.toNat * bs.size d := Nat.mul_le_mul_right _ h

def DataOp.Valid (D : BlkDevs) (bs : BlkSizes) : DataOp → Prop
  | .get dev blk | .write dev blk _ | .sync dev blk => (bs.request dev blk).Valid D ∧ D.openOk dev
  | .commit dev => DevOk dev ∧ D.openOk dev

def dataStep (D : BlkDevs) (bs : BlkSizes) (s : Scache) : DataOp → Option Scache
  | .get dev blk => (scacheGet D dev blk (bs.size dev) s).map Prod.snd
  | .write dev blk patch => (scacheGet D dev blk (bs.size dev) s).map (fun r => r.2.modify r.1 patch)
  | .sync dev blk => (scacheSync D dev blk (bs.size dev) s).map Prod.snd
  | .commit dev => (scacheCommit D dev (bs.size dev) s).map Prod.snd

def dataRun (D : BlkDevs) (bs : BlkSizes) (disk : ℕ → ℕ → UInt8) (ops : List DataOp) : Option Scache :=
  ops.foldlM (dataStep D bs) (boot disk)

def lastWritten (bs : BlkSizes) (disk : ℕ → ℕ → UInt8) (ops : List DataOp) : Content :=
  ops.foldl (fun C op => match op with
    | .write dev blk patch => C.patch dev blk patch
    | _ => C) (fun d b k => disk d ((bs.request d b).addr + k))

/-- A miss of the call on the full table finds at `begin` an entry that heads no list and
has not been modified since it was read or written back. -/
def Spares (D : BlkDevs) (bs : BlkSizes) (s : Scache) : DataOp → Prop
  | .get dev blk | .write dev blk _ => s.scacheSeek (s.clist (slot dev)) blk = some none →
      s.alist.cnt = NSECACHS → (∀ k, s.clist k ≠ s.alist.begin) ∧ s.Clean (bs.geometry D) s.alist.begin
  | _ => True

theorem BlkSizes.fits {bs : BlkSizes} {dev : ℕ} {blk : ℤ} (hv : (bs.request dev blk).Valid D) :
    (bs.request dev blk).Fits (bs.geometry D) :=
  ⟨hv,rfl,Nat.le_of_eq (Nat.div_mul_cancel (bs.aligned dev)).symm⟩

theorem Coherent.step {bs : BlkSizes} {op : DataOp} (h : s.Coherent (bs.geometry D) C L)
    (hv : op.Valid D bs) (hs : s.Spares D bs op) :
    ∃ t, dataStep D bs s op = some t ∧ ∃ L', t.Coherent (bs.geometry D) (match op with
      | .write dev blk patch => C.patch dev blk patch
      | _ => C) L' := by
  cases op with
  | get dev blk =>
    obtain ⟨i,L',t,ht,h',-⟩ := h.get (g := bs.request dev blk) hv.1 (BlkSizes.fits hv.1) hv.2
      (fun hm hf => (hs hm hf).1) (fun hm hf => (hs hm hf).2)
    exact ⟨t,by simpa [dataStep] using ⟨_,ht⟩,L',h'⟩
  | write dev blk patch =>
    obtain ⟨i,L',t,ht,h',hi,hsrc,-⟩ := h.get (g := bs.request dev blk) hv.1 (BlkSizes.fits hv.1) hv.2
      (fun hm hf => (hs hm hf).1) (fun hm hf => (hs hm hf).2)
    have hmod := h'.modify hi patch
    rw [hsrc] at hmod
    exact ⟨t.modify (some i) patch,by simpa [dataStep] using ⟨_,_,ht,rfl⟩,L',hmod⟩
  | sync dev blk =>
    obtain ⟨r,disk',pos',hsync,h',-⟩ := h.sync (g := bs.request dev blk) hv.1 (BlkSizes.fits hv.1) hv.2
      (Nat.div_mul_cancel (bs.aligned dev))
    exact ⟨_,by simpa [dataStep] using ⟨r,hsync⟩,L,h'⟩
  | commit dev =>
    obtain ⟨disk',pos',hcommit,h'⟩ := h.commit dev (bs.size dev) hv.1 hv.2
      (fun b hb => ⟨hb,BlkSizes.fits hb,Nat.div_mul_cancel (bs.aligned dev)⟩)
    exact ⟨_,by simpa [dataStep] using ⟨0,hcommit⟩,L,h'⟩

/-- In a run whose misses on the full table recycle only unmodified entries that head no
list, a block is always found with the content last written to it. -/
theorem scache_no_lost_update (D : BlkDevs) (bs : BlkSizes) (disk : ℕ → ℕ → UInt8) (ops : List DataOp)
    (dev : ℕ) (blk : ℤ) (hv : ∀ op ∈ ops ++ [.get dev blk], op.Valid D bs)
    (hs : AllSteps (dataStep D bs) (Spares D bs) (boot disk) (ops ++ [.get dev blk])) :
    ∃ s i t, dataRun D bs disk ops = some s ∧ scacheGet D dev blk (bs.size dev) s = some (some i,t) ∧
      ∀ k < bs.size dev, t.buf (some i) k = lastWritten bs disk ops dev blk k := by
  obtain ⟨s,hr,L,h⟩ := run_total
    (P := fun pre s => ∃ L, s.Coherent (bs.geometry D) (lastWritten bs disk pre) L) ops
    ⟨_,boot_coherent⟩ (hs.mono (List.prefix_append ops _)) (by
      rintro pre s op hop ⟨L,h⟩ hok
      obtain ⟨t,ht,L',h'⟩ := h.step (hv op (List.mem_append_left _ hop)) hok
      refine ⟨t,ht,L',?_⟩
      simpa [lastWritten,List.foldl_append] using h')
  have hg : (DataOp.get dev blk).Valid D bs := hv _ (by simp)
  have hspare := hs ops _ s (List.prefix_refl _) hr
  obtain ⟨i,L',t,ht,h',hi,hsrc,-⟩ := h.get (g := bs.request dev blk) hg.1 (BlkSizes.fits hg.1) hg.2
    (fun hm hf => (hspare hm hf).1) (fun hm hf => (hspare hm hf).2)
  refine ⟨s,i,t,hr,ht,fun k hk => ?_⟩
  have hc := h'.cached i hi
  rw [hsrc] at hc
  exact hc k hk

/-! ## A modified block is recycled -/

def sectorSizes : BlkSizes := ⟨fun _ => 512,fun _ => ⟨1,rfl⟩,fun _ => by decide⟩

def setFirst : ℕ → Option UInt8 := fun k => if k = 0 then some 1 else none

theorem Filled.congr {src : List (ℕ × ℤ)} (h : s.Filled L src) (hb : t.blk = s.blk) (hn : t.cnext = s.cnext)
    (hl : t.clast = s.clast) (hc : t.clist = s.clist) (ha : t.alist = s.alist) (hs : t.src = s.src) : t.Filled L src :=
  ⟨h.inv.congr hb hn hl hc ha hs,ha ▸ h.order,hs ▸ h.src_eq⟩

theorem write_filled (disk : ℕ → ℕ → UInt8) (b : ℤ) (patch : ℕ → Option UInt8) :
    ∃ t L, dataStep anyDevs sectorSizes (boot disk) (.write 0 b patch) = some t ∧ t.Filled L [(0,b)] ∧
      t.disk = disk := by
  obtain ⟨t,L,ht,hfill,hload⟩ := (boot_filled disk).get (D := anyDevs) (g := ⟨0,b,512⟩)
    (show DevOk 0 by decide) rfl (by decide) (by simp)
  obtain ⟨r,hr,rfl⟩ := Option.map_eq_some_iff.mp ht
  exact ⟨r.2.modify r.1 patch,L,by simp [dataStep,sectorSizes,hr],hfill.congr rfl rfl rfl rfl rfl rfl,hload.disk⟩

theorem foldlM_sectors (dev n : ℕ) :
    ((sectors dev n).map (fun g => DataOp.get g.dev g.blk)).foldlM (dataStep D sectorSizes) s =
      (sectors dev n).foldlM (getStep D) s := by
  induction n with
  | zero => rfl
  | succ n ih =>
    rw [sectors_succ,List.map_append,List.map_singleton,foldlM_concat,foldlM_concat,ih]
    rfl

/-- Behind one block, the first sectors fill up the table. -/
theorem Filled.sectors {n : ℕ} (h : s.Filled L [(0,(NSECACHS : ℤ))]) (hn : n < NSECACHS) : ∃ t L',
    (sectors 0 n).foldlM (getStep anyDevs) s = some t ∧
      t.Filled L' ((oneThenSectors 0 NSECACHS 0 n).map (fun g => (g.dev,g.blk))) ∧ t.disk = s.disk ∧
      t.buf (some 0) = s.buf (some 0) := by
  have hlt : NSECACHS ≤ 2 ^ 31 := by decide
  obtain ⟨t,L',ht,hfill,hdisk,-,hbuf⟩ := h.run (D := anyDevs) (Scache.sectors 0 n)
    (fun g hg => ⟨(sectors_valid (by decide) (by omega) g hg).dev_ok,rfl⟩) (sectors_nodup 0 n)
    (by
      intro g hg
      obtain ⟨j,hj,rfl⟩ := List.mem_map.mp hg
      have hj' := List.mem_range.mp hj
      simp only [List.mem_singleton,Prod.mk.injEq]
      omega)
    (by rw [sectors_length,List.length_singleton]; omega)
  exact ⟨t,L',ht,hfill,hdisk,hbuf 0 (by decide)⟩

/-- While the table fills up, no entry is recycled. -/
theorem Filled.sectors_spare {n : ℕ} (h : s.Filled L [(0,(NSECACHS : ℤ))]) (hn : n < NSECACHS) :
    AllSteps (dataStep anyDevs sectorSizes) (Spares anyDevs sectorSizes) s
      ((Scache.sectors 0 n).map (fun g => .get g.dev g.blk)) := by
  induction n with
  | zero => exact allSteps_nil
  | succ n ih =>
    rw [sectors_succ,List.map_append,List.map_singleton]
    refine (ih (by omega)).append (fun t ht => allSteps_cons (fun _ hfull => ?_) (fun _ _ => allSteps_nil))
    obtain ⟨u,L',hu,hfill,-⟩ := h.sectors (n := n) (by omega)
    rw [foldlM_sectors] at ht
    obtain rfl : u = t := Option.some.inj (hu.symm.trans ht)
    rw [hfill.cnt,List.length_map,oneThenSectors,List.length_cons,sectors_length] at hfull
    omega

/-- A full table whose next entry to be recycled is not the head of its list: entry 0 has block
`b` of device 0, and the others have the first sectors. -/
structure Rolling (s : Scache) (b : ℤ) : Prop where
  inv : ∃ L, s.Inv L
  cnt : s.alist.cnt = NSECACHS
  begin_eq : s.alist.begin = some 0
  le : 511 ≤ b
  zero : s.src (some 0) = (0,b)
  succ : ∀ j < 511, s.src (some (j + 1)) = (0,(j : ℤ))

theorem Filled.rolling {b : ℤ} (h : s.Filled L ((oneThenSectors 0 b 0 511).map (fun g => (g.dev,g.blk)))) (hb : 511 ≤ b) :
    s.Rolling b :=
  ⟨⟨L,h.inv⟩,h.full.1,h.full.2,hb,h.zero,fun _ hj => h.succ hj⟩

theorem Rolling.spare {b : ℤ} (h : s.Rolling b) (k : ℕ) : s.clist k ≠ some 0 := by
  obtain ⟨L,hinv⟩ := h.inv
  have h1 : s.src (some 1) = (0,0) := h.succ 0 (by decide)
  have hle := h.le
  exact hinv.not_head (i := 0) (j := 1) (by rw [h.cnt]; decide) (by rw [h.cnt]; decide) (by rw [h.zero,h1])
    (by rw [h.zero,h1]; dsimp only; omega) k

theorem Rolling.touch {b : ℤ} (h : s.Rolling b) (f : Ptr → ℕ → UInt8) (d : ℕ → ℕ → UInt8) (k : ℕ → ℕ) :
    { s with buf := f, disk := d, pos := k }.Rolling b :=
  ⟨h.inv.imp (fun _ hinv => hinv.congr rfl rfl rfl rfl rfl rfl),h.cnt,h.begin_eq,h.le,h.zero,h.succ⟩

theorem Rolling.get {b : ℤ} (h : s.Rolling b) (b' : ℤ) (hb : 511 ≤ b') (hne : b ≠ b') :
    ∃ t, scacheGet anyDevs 0 b' 512 s = some (some 0,t) ∧ Loads anyDevs 0 b' 512 s t 0 ∧ t.Rolling b' := by
  obtain ⟨L,hinv⟩ := h.inv
  have hnew : ∀ i < s.alist.cnt, s.src (some i) ≠ (0,b') := by
    intro i hi
    rw [h.cnt] at hi
    cases i with
    | zero =>
      rw [h.zero]
      exact fun he => hne (Prod.mk.inj he).2
    | succ j =>
      have hj : j < 511 := Nat.lt_of_succ_lt_succ hi
      rw [h.succ j hj]
      intro he
      have hjb := (Prod.mk.inj he).2
      omega
  obtain ⟨L',t,ht,hinv',hload,hcnt,hbegin⟩ := hinv.get_recycle (D := anyDevs) 0 b' 512 (by decide) rfl h.spare h.cnt
    h.begin_eq hnew
  refine ⟨t,ht,hload,⟨L',hinv'⟩,hcnt,hbegin,hb,?_,fun j hj => ?_⟩
  · rw [hload.src,update_self]
  · rw [(hload.other (Nat.succ_ne_zero j)).1,h.succ j hj]

theorem last_valid : (sectorSizes.request 0 NSECACHS).Valid anyDevs := ⟨by decide,by decide,by decide,fun _ => rfl⟩

def keepingOps : List DataOp :=
  [.write 0 NSECACHS setFirst,.sync 0 NSECACHS] ++ (sectors 0 NSECACHS).map (fun g => .get g.dev g.blk)

theorem keepingOps_eq : keepingOps ++ [.get 0 NSECACHS] = .write 0 NSECACHS setFirst :: .sync 0 NSECACHS ::
    ((sectors 0 511).map (fun g => .get g.dev g.blk) ++ [.get 0 511,.get 0 NSECACHS]) := by
  rw [keepingOps,show NSECACHS = 511 + 1 from rfl,sectors_succ]
  simp

theorem sectors_op_valid {op : DataOp} (h : op ∈ (sectors 0 NSECACHS).map (fun g => .get g.dev g.blk)) :
    op.Valid anyDevs sectorSizes := by
  obtain ⟨g,hg,rfl⟩ := List.mem_map.mp h
  have hv := sectors_valid (d := 0) (by decide) (by decide) g hg
  obtain ⟨j,-,rfl⟩ := List.mem_map.mp hg
  exact ⟨hv,rfl⟩

theorem keepingOps_valid : ∀ op ∈ keepingOps ++ [.get 0 NSECACHS], op.Valid anyDevs sectorSizes := by
  intro op hop
  simp only [keepingOps,List.mem_append,List.mem_cons,List.not_mem_nil,or_false] at hop
  rcases hop with ((rfl | rfl) | hop) | rfl
  · exact ⟨last_valid,rfl⟩
  · exact ⟨last_valid,rfl⟩
  · exact sectors_op_valid hop
  · exact ⟨last_valid,rfl⟩

theorem write_sync_clean {w u : Scache} (hw : dataStep anyDevs sectorSizes (boot disk) (.write 0 NSECACHS setFirst) = some w)
    (hu : dataStep anyDevs sectorSizes w (.sync 0 NSECACHS) = some u) :
    (∃ L, u.Filled L [(0,(NSECACHS : ℤ))]) ∧ u.Clean (sectorSizes.geometry anyDevs) (some 0) := by
  obtain ⟨w',L,hw',hfill,-⟩ := write_filled disk NSECACHS setFirst
  obtain rfl : w' = w := Option.some.inj (hw'.symm.trans hw)
  obtain ⟨w',hw',L',hcoh⟩ := boot_coherent.step
    (show (DataOp.write 0 NSECACHS setFirst).Valid anyDevs sectorSizes from ⟨last_valid,rfl⟩)
    (show (boot disk).Spares anyDevs sectorSizes _ from fun _ hfull => absurd hfull (show 0 ≠ NSECACHS by decide))
  obtain rfl : w' = _ := Option.some.inj (hw'.symm.trans hw)
  obtain ⟨r,disk',pos',hsync,hcoh',-,hdisk⟩ := hcoh.sync (g := sectorSizes.request 0 NSECACHS) last_valid
    (BlkSizes.fits last_valid) rfl rfl
  have hu' : dataStep anyDevs sectorSizes w' (.sync 0 NSECACHS) = some { w' with disk := disk', pos := pos' } := by
    rw [dataStep]
    exact congrArg (Option.map Prod.snd) hsync
  obtain rfl := Option.some.inj (hu'.symm.trans hu)
  have hcnt : 0 < w'.alist.cnt := by rw [hfill.cnt]; decide
  have hsrc : w'.src (some 0) = (0,(NSECACHS : ℤ)) := hfill.src_eq 0 (by decide)
  refine ⟨⟨L,hfill.congr rfl rfl rfl rfl rfl rfl⟩,fun k hk => ?_⟩
  have hcached := hcoh'.cached 0 hcnt k hk
  dsimp only at hcached hk ⊢
  rw [hsrc] at hcached hk ⊢
  rw [hcached]
  exact (hdisk ⟨0,hcnt,hsrc⟩ k hk).symm

theorem keepingOps_spare : AllSteps (dataStep anyDevs sectorSizes) (Spares anyDevs sectorSizes) (boot fun _ _ => 0)
    (keepingOps ++ [.get 0 NSECACHS]) := by
  rw [keepingOps_eq]
  refine allSteps_cons (fun _ hfull => absurd hfull (by decide)) (fun w hw => allSteps_cons trivial (fun u hu => ?_))
  obtain ⟨⟨L,hfill⟩,hclean⟩ := write_sync_clean hw hu
  refine (hfill.sectors_spare (n := 511) (by decide)).append (fun s hs => ?_)
  obtain ⟨s',L',hs',hfill',hdisk,hbuf⟩ := hfill.sectors (n := 511) (by decide)
  rw [foldlM_sectors] at hs
  obtain rfl : s' = s := Option.some.inj (hs'.symm.trans hs)
  have hroll : s'.Rolling NSECACHS := hfill'.rolling (by decide)
  obtain ⟨t,ht,hload,hroll'⟩ := hroll.get 511 (by decide) (by decide)
  refine allSteps_cons (fun _ _ => ?_) (fun t' ht' => allSteps_cons (fun _ _ => ?_) (fun _ _ => allSteps_nil))
  · rw [hroll.begin_eq]
    refine ⟨hroll.spare,fun k hk => ?_⟩
    have hsrc : s'.src (some 0) = u.src (some 0) := hfill'.zero.trans (hfill.src_eq 0 (by decide)).symm
    rw [hsrc] at hk ⊢
    rw [hbuf,hdisk]
    exact hclean k hk
  · obtain rfl : t = t' := by
      rw [dataStep,show sectorSizes.size 0 = 512 from rfl,ht] at ht'
      exact Option.some.inj ht'
    rw [hroll'.begin_eq]
    refine ⟨hroll'.spare,fun k hk => ?_⟩
    rw [hload.src,update_self] at hk ⊢
    have hv : (sectorSizes.request 0 511).Valid anyDevs := ⟨by decide,by decide,by decide,fun _ => rfl⟩
    rw [hload.data (g := ⟨0,511,512⟩) hv rfl hk,hload.disk]
    rfl

/-- A block that was written back before its entry was recycled is read again with the written
byte. -/
theorem scache_write_read : ∃ s i t, dataRun anyDevs sectorSizes (fun _ _ => 0) keepingOps = some s ∧
    scacheGet anyDevs 0 NSECACHS 512 s = some (some i,t) ∧ ∀ k < 512, t.buf (some i) k =
      lastWritten sectorSizes (fun _ _ => 0) keepingOps 0 NSECACHS k :=
  scache_no_lost_update anyDevs sectorSizes (fun _ _ => 0) keepingOps 0 NSECACHS keepingOps_valid keepingOps_spare

def losingOps : List DataOp :=
  .write 0 NSECACHS setFirst :: (sectors 0 NSECACHS).map (fun g => .get g.dev g.blk)

theorem lastWritten_gets (disk : ℕ → ℕ → UInt8) (bs : BlkSizes) (ops : List DataOp) (gs : List Get) :
    lastWritten bs disk (ops ++ gs.map (fun g => .get g.dev g.blk)) = lastWritten bs disk ops := by
  induction gs using List.reverseRecOn with
  | nil => simp
  | append_singleton gs g ih =>
    rw [← ih,List.map_append,← List.append_assoc]
    simp only [lastWritten,List.foldl_append,List.map_cons,List.map_nil,List.foldl_cons,List.foldl_nil]

/-- The entry of the modified block is recycled without being written back, and the block
is then read from the disk again. -/
theorem scache_loses_update : (∀ op ∈ losingOps ++ [.get 0 NSECACHS], op.Valid anyDevs sectorSizes) ∧
    ∃ s i t, dataRun anyDevs sectorSizes (fun _ _ => 0) losingOps = some s ∧
      scacheGet anyDevs 0 NSECACHS 512 s = some (some i,t) ∧
      t.buf (some i) 0 = 0 ∧ lastWritten sectorSizes (fun _ _ => 0) losingOps 0 NSECACHS 0 = 1 := by
  constructor
  · intro op hop
    rw [losingOps,List.cons_append,List.mem_cons,List.mem_append,List.mem_singleton] at hop
    rcases hop with rfl | hop | rfl
    · exact ⟨last_valid,rfl⟩
    · exact sectors_op_valid hop
    · exact ⟨last_valid,rfl⟩
  obtain ⟨u,L₀,hu,hfill₀,hdisk₀⟩ := write_filled (fun _ _ => 0) NSECACHS setFirst
  obtain ⟨s,L,hs,hfill,hdisk,-⟩ := hfill₀.sectors (n := 511) (by decide)
  have hroll : s.Rolling NSECACHS := hfill.rolling (by decide)
  obtain ⟨s₁,hs₁,hload₁,hroll₁⟩ := hroll.get 511 (by decide) (by decide)
  obtain ⟨s₂,hs₂,hload₂,-⟩ := hroll₁.get NSECACHS (by decide) (by decide)
  refine ⟨s₁,0,s₂,?_,hs₂,?_,?_⟩
  · have hlast : (sectors 0 NSECACHS).foldlM (getStep anyDevs) u = some s₁ := by
      rw [show NSECACHS = 511 + 1 from rfl,sectors_succ,foldlM_concat,hs,Option.bind_some]
      simp [getStep,hs₁]
    rw [dataRun,losingOps,List.foldlM_cons,hu,Option.bind_eq_bind,Option.bind_some,foldlM_sectors,hlast]
  · have hdata := hload₂.data (g := ⟨0,NSECACHS,512⟩) last_valid rfl (k := 0) (by decide)
    rw [hdata,hload₁.disk,hdisk,hdisk₀]
  · have hw := lastWritten_gets (fun _ _ => 0) sectorSizes [.write 0 NSECACHS setFirst] (sectors 0 NSECACHS)
    rw [List.singleton_append,← losingOps] at hw
    rw [hw]
    simp [lastWritten,Content.patch,setFirst]

end Micron.Kernel.Scache

import Micron.Kernel.Scache

/-! # Recycling of vnodes

The allocation list of `filesys/vcache.c`. The in-use counter `sem` is the only
thing that protects a vnode; the functions here read it and never change it.
-/
namespace Micron.Kernel
open AllocList

def vcacheAlloc (s : AllocList) : Option (Ptr × AllocList) := s.alloc NVCHCNTS

/-- Unlike `scache_promo`, the function tests `vp->cnext` again between its halves. -/
def vcachePromo (s : AllocList) (p : Ptr) : AllocList :=
  if s.next p = none then s
  else
    let s := s.promoUnlink p
    if s.next p ≠ none then s.promoRelink p else s

/-- The second test always succeeds. -/
theorem vcachePromo_eq (s : AllocList) (p : Ptr) : vcachePromo s p = s.promo p := by
  unfold vcachePromo AllocList.promo
  by_cases hn : s.next p = none
  · simp only [hn,↓reduceIte]
  · have hu : (s.promoUnlink p).next p = s.next p := by
      unfold promoUnlink
      dsimp only
      split
      · simp only [setNext,setLast,Function.update_apply]
        split <;> split <;> rfl
      · rfl
    simp only [hn,hu,ne_eq,not_false_eq_true,↓reduceIte]

def vcacheStep (s : AllocList) : Op → Option AllocList
  | .alloc => (vcacheAlloc s).map Prod.snd
  | .promo i => if i < s.cnt then some (vcachePromo s (some i)) else none
  | .sem f => some { s with sem := f }

def vcacheRun (ops : List Op) : Option AllocList := ops.foldlM vcacheStep boot

theorem vcacheRun_eq (ops : List Op) : vcacheRun ops = run NVCHCNTS ops := by
  have hs : vcacheStep = step NVCHCNTS := by
    funext s op
    cases op <;> simp only [vcacheStep,step,vcacheAlloc,vcachePromo_eq]
  rw [vcacheRun,run,hs]

/-- Every `vcache_alloc` of the run that recycles finds the vnode at `begin` in use and
a free vnode other than the one at `end`, or no free vnode at all. -/
def VcacheRoomy (ops : List Op) : Prop :=
  ∀ pre s, pre ++ [.alloc] <+: ops → vcacheRun pre = some s → s.Roomy NVCHCNTS

/-- In every full state of a run that recycles only vnodes inside the list, successive
calls rotate exactly when at most one vnode is free or the one at `begin` is in use. -/
theorem vcache_rotates_iff (ops : List Op) (hr : VcacheRoomy ops) {s : AllocList}
    (hs : vcacheRun ops = some s) (hfull : s.cnt = NVCHCNTS) :
    s.Rotates NVCHCNTS ↔ s.free NVCHCNTS ≤ 1 ∨ s.sem s.begin ≠ 0 := by
  have hr' : RunRoomy NVCHCNTS ops := fun pre t hp ht => hr pre t hp (by rwa [vcacheRun_eq])
  rw [vcacheRun_eq] at hs
  obtain ⟨⟨l,hl⟩,_⟩ := run_good (by decide) hr' hs
  exact hl.rotates_iff hfull (by decide)

/-- Fill the table, then put the vnode at `begin` into use: the other 4095 rotate. -/
theorem vcache_rotates_iff_begin_used :
    ∃ s, vcacheRun (List.replicate NVCHCNTS .alloc ++ [.sem (fun p => if p = some 0 then 1 else 0)]) = some s ∧
      s.cnt = NVCHCNTS ∧ s.Rotates NVCHCNTS := by
  obtain ⟨t,ht,hl,_⟩ := run_fill (n := NVCHCNTS) (k := NVCHCNTS) (Nat.le_refl _)
  have hc : t.cnt = NVCHCNTS := hl.length.symm.trans List.length_range
  have hb : t.begin = some 0 := by rw [hl.begin_eq,List.head?_range,if_neg (by decide)]
  have hs : vcacheRun (List.replicate NVCHCNTS .alloc ++ [.sem (fun p => if p = some 0 then 1 else 0)]) =
      some { t with sem := fun p => if p = some 0 then 1 else 0 } := by
    rw [vcacheRun_eq,run_concat,ht]
    rfl
  refine ⟨_,hs,hc,(vcache_rotates_iff _ ?_ hs hc).mpr (Or.inr ?_)⟩
  · intro pre u hp hu
    rcases List.prefix_concat_iff.mp hp with he | hp
    · exact absurd (List.append_inj' he rfl).2 (by simp)
    · exact run_fill_roomy (Nat.le_refl _) pre u hp (by rwa [vcacheRun_eq] at hu)
  · simp [hb]

/-- The first state in which the table is full already returns one vnode twice. -/
theorem vcache_fill_not_rotates :
    ∃ s, vcacheRun (List.replicate NVCHCNTS .alloc) = some s ∧ s.cnt = NVCHCNTS ∧
      ¬ s.Rotates NVCHCNTS := by
  obtain ⟨s,hs,hl,hz⟩ := run_fill (n := NVCHCNTS) (k := NVCHCNTS) (Nat.le_refl _)
  have hc : s.cnt = NVCHCNTS := hl.length.symm.trans List.length_range
  refine ⟨s,(vcacheRun_eq _).trans hs,hc,?_⟩
  rw [hl.rotates_iff hc (by decide)]
  have hf : s.free NVCHCNTS = NVCHCNTS := by simp [AllocList.free,hz]
  rw [hf,hz]
  simp [NVCHCNTS]

/-! ## Promotion in both caches -/

/-- On every list, and for every entry of it, the two promotions exchange the entry with
its successor. They change nothing if the entry is the last. -/
theorem promo_exchanges (s : AllocList) (l : List ℕ) (i : ℕ) (h : s.Threads l) (hi : i ∈ l) :
    (vcachePromo s (some i)).Threads (exchange i l) ∧ (l.getLast? = some i → vcachePromo s (some i) = s) ∧
    ∀ c : Scache, c.alist = s → (c.scachePromo (some i)).alist.Threads (exchange i l) ∧
      (l.getLast? = some i → c.scachePromo (some i) = c) := by
  obtain ⟨hthreads,hlast⟩ := h.exchange hi
  rw [vcachePromo_eq]
  refine ⟨hthreads,hlast,?_⟩
  rintro c rfl
  refine ⟨hthreads,fun hl => ?_⟩
  rw [Scache.scachePromo,hlast hl]

/-- Two entries, the first of which is promoted: it becomes the end of the list. -/
theorem promo_exchanges_pair : ∃ s : AllocList, s.Threads [0,1] ∧ (vcachePromo s (some 0)).Threads [1,0] := by
  have h : (boot.append.append).Threads [0,1] := (append_holds (append_holds boot_holds)).threads
  exact ⟨_,h,(promo_exchanges _ _ 0 h (by decide)).1⟩

end Micron.Kernel

import Mathlib.Data.List.Induction
import Micron.Kernel.AllocList

/-! # Integrity and rotation of the allocation list over whole runs

Recycling does not move `begin`, and it links an entry behind `end_` after having
read `end_`. Both are harmless for an entry strictly inside the list. The results
of this file say exactly when a run stays on that side.
-/
namespace Micron.Kernel.AllocList
open Function Linked
variable {s t : AllocList} {l m : List ℕ} {i j n : ℕ}

/-- Following `next` from `begin` visits each of the first `cnt` entries once and ends
at `end_`, and `last` is the exact inverse of `next`. -/
def Intact (s : AllocList) : Prop :=
  ∃ l : List ℕ, Chain s.next s.begin l ∧ l.Nodup ∧ (∀ i, i ∈ l ↔ i < s.cnt) ∧ s.end_ = l.getLast? ∧
    (∀ i ∈ l, s.last (some i) = none ↔ s.begin = some i) ∧
    ∀ i ∈ l, ∀ j ∈ l, s.next (some i) = some j ↔ s.last (some j) = some i

theorem Holds.intact (h : s.Holds l) : s.Intact := by
  refine ⟨l,h.begin_eq ▸ h.seg.chain,h.nodup,h.mem_iff,h.end_eq,?_,?_⟩
  · intro i hi
    obtain ⟨l₁,l₂,rfl⟩ := List.append_of_mem hi
    rw [h.seg.prev_mid,h.begin_eq,List.head?_append]
    rcases List.eq_nil_or_concat l₁ with rfl | ⟨l₁,y,rfl⟩
    · simp
    · simp only [List.concat_eq_append,List.getLast?_append,List.getLast?_singleton,Option.some_or,
        reduceCtorEq,List.head?_append,List.head?_cons,false_iff]
      intro hx
      have hmem : i ∈ l₁ ++ [y] := by
        cases l₁ with
        | nil => simpa using hx.symm
        | cons z l₁ =>
          simp only [List.head?_cons,Option.some_or,Option.some.injEq] at hx
          simp [hx]
      have hnd := h.nodup
      rw [List.concat_eq_append,List.nodup_append] at hnd
      exact hnd.2.2 i hmem i (by simp) rfl
  · intro i hi j hj
    constructor
    · intro hij
      obtain ⟨l₁,l₂,rfl⟩ := List.append_of_mem hi
      rw [h.seg.next_mid,Option.or_none] at hij
      obtain ⟨l₂,rfl⟩ := List.head?_eq_some_iff.mp hij
      have hs : Seg s.next s.last none ((l₁ ++ [i]) ++ j :: l₂) none := by simpa using h.seg
      rw [hs.prev_mid]
      simp
    · intro hij
      obtain ⟨l₁,l₂,rfl⟩ := List.append_of_mem hj
      rw [h.seg.prev_mid,Option.or_none] at hij
      obtain ⟨l₁,rfl⟩ := List.getLast?_eq_some_iff.mp hij
      have hs : Seg s.next s.last none (l₁ ++ i :: (j :: l₂)) none := by simpa using h.seg
      rw [hs.next_mid]
      simp

theorem seg_of_inverse {next last : Ptr → Ptr} {a p : Ptr} {l : List ℕ} (hc : Chain next p l)
    (ha : ∀ x, p = some x → last (some x) = a)
    (hi : ∀ i ∈ l, ∀ j ∈ l, next (some i) = some j → last (some j) = some i) :
    Seg next last a l none := by
  induction l generalizing a p with
  | nil => trivial
  | cons x l ih =>
    obtain ⟨rfl,hc⟩ := hc
    have hnx : next (some x) = l.head? := by
      cases l with
      | nil => exact hc
      | cons y l => exact hc.1
    refine ⟨ha x rfl,by simpa using hnx,ih hc ?_ ?_⟩
    · intro y hy
      refine hi x (by simp) y (List.mem_cons_of_mem _ ?_) hy
      exact List.mem_of_head? (hnx ▸ hy)
    · exact fun i hil j hjl => hi i (List.mem_cons_of_mem _ hil) j (List.mem_cons_of_mem _ hjl)

theorem intact_iff : s.Intact ↔ ∃ l, s.Holds l := by
  constructor
  · rintro ⟨l,hc,hnd,hm,he,hb,hi⟩
    have hbl : s.begin = l.head? := by
      cases l with
      | nil => exact hc
      | cons y l => exact hc.1
    refine ⟨l,hbl,he,?_,hnd,hm⟩
    refine seg_of_inverse hc (fun x hx => (hb x ?_).mpr hx) (fun i hil j hjl => (hi i hil j hjl).mp)
    exact List.mem_of_head? (hbl ▸ hx)
  · rintro ⟨l,h⟩
    exact h.intact

inductive Op where
  | alloc
  | promo (i : ℕ)
  | sem (f : Ptr → ℕ)

/-- One operation; promotions are made on allocated entries only, and an allocation
that does not return has no next state. -/
def step (cap : ℕ) (s : AllocList) : Op → Option AllocList
  | .alloc => (s.alloc cap).map Prod.snd
  | .promo i => if i < s.cnt then some (s.promo (some i)) else none
  | .sem f => some { s with sem := f }

def run (cap : ℕ) (ops : List Op) : Option AllocList := ops.foldlM (step cap) boot

/-- A recycling call neither takes the first entry of the list nor the last one: the
first is in use, and a free entry other than the last exists if there is one at all. -/
def Roomy (cap : ℕ) (s : AllocList) : Prop :=
  s.cnt < cap ∨ s.sem s.begin ≠ 0 ∧
    ((∀ i < s.cnt, s.sem (some i) ≠ 0) ∨ ∃ i < s.cnt, s.sem (some i) = 0 ∧ s.end_ ≠ some i)

theorem Holds.set_sem (h : s.Holds l) (f : Ptr → ℕ) : { s with sem := f }.Holds l :=
  ⟨h.begin_eq,h.end_eq,h.seg,h.nodup,h.mem_iff⟩

theorem Holds.promo (h : s.Holds l) (hi : i < s.cnt) : ∃ m, (s.promo (some i)).Holds m := by
  obtain ⟨l₁,l₂,rfl⟩ := List.append_of_mem ((h.mem_iff i).mpr hi)
  cases l₂ with
  | nil => exact ⟨_,(promo_last h).symm ▸ h⟩
  | cons j l₂ => exact ⟨_,promo_holds h⟩

/-- Allocation on an intact list returns, and leaves it intact exactly when the call
does not recycle one of its two ends. -/
theorem Holds.alloc (h : s.Holds l) (hcap : 2 ≤ n) (hle : s.cnt ≤ n) :
    ∃ p t, s.alloc n = some (p,t) ∧ ((∃ m, t.Holds m) ↔ s.Roomy n) := by
  by_cases hc : s.cnt < n
  · exact ⟨_,_,by rw [AllocList.alloc,if_pos hc],iff_of_true ⟨_,append_holds h⟩ (Or.inl hc)⟩
  · have hfull : s.cnt = n := by omega
    have hlen := h.length
    rw [alloc_full h hfull]
    cases hf : l.find? (fun i => s.sem (some i) = 0) with
    | none =>
      have hall : ∀ i < s.cnt, s.sem (some i) ≠ 0 := by
        intro i hi
        simpa using List.find?_eq_none.mp hf i ((h.mem_iff i).mpr hi)
      refine ⟨_,_,rfl,iff_of_true ⟨l,h⟩ (Or.inr ⟨?_,Or.inl hall⟩)⟩
      obtain ⟨x,l,rfl⟩ := List.exists_cons_of_length_pos (l := l) (by omega)
      rw [h.begin_eq]
      exact hall x ((h.mem_iff x).mp (by simp))
    | some i =>
      refine ⟨_,_,rfl,?_⟩
      obtain ⟨hi,l₁,l₂,rfl,hfree⟩ := List.find?_eq_some_iff_append.mp hf
      simp only [decide_eq_true_eq] at hi
      by_cases h1 : l₁ = []
      · subst h1
        refine iff_of_false ?_ (fun hr => ?_)
        · rintro ⟨m,hm⟩
          refine recycle_head_not_holds (m := l₂) (by simpa using h) ?_ hm
          rintro rfl
          simp only [List.nil_append,List.length_singleton] at hlen
          omega
        · refine (hr.resolve_left hc).1 ?_
          rw [h.begin_eq]
          simpa using hi
      · by_cases h2 : l₂ = []
        · subst h2
          refine iff_of_false (fun hm => hm.elim fun m => recycle_last_not_holds h h1) (fun hr => ?_)
          rcases (hr.resolve_left hc).2 with hall | ⟨j,hj,hj0,hje⟩
          · exact hall i ((h.mem_iff i).mp (by simp)) hi
          · have hmem := (h.mem_iff j).mpr hj
            rw [List.mem_append,List.mem_singleton] at hmem
            rcases hmem with hmem | rfl
            · simpa [hj0] using hfree j hmem
            · exact hje (by rw [h.end_eq]; simp)
        · refine iff_of_true ⟨_,recycle_holds h h1 h2⟩ (Or.inr ⟨?_,Or.inr ⟨i,?_,hi,?_⟩⟩)
          · obtain ⟨x,l₁,rfl⟩ := List.exists_cons_of_ne_nil h1
            rw [h.begin_eq]
            simpa using hfree x (by simp)
          · exact (h.mem_iff i).mp (by simp)
          · rw [h.end_eq]
            intro he
            have hnd := (List.nodup_append.mp h.nodup).2.1
            rw [List.getLast?_append_of_ne_nil _ (by simp),List.getLast?_cons] at he
            obtain ⟨z,hz⟩ : ∃ z, l₂.getLast? = some z := ⟨_,List.getLast?_eq_getLast_of_ne_nil h2⟩
            obtain rfl : z = i := by simpa [hz] using he
            exact (List.nodup_cons.mp hnd).1 (List.mem_of_getLast? hz)

theorem alloc_cnt_le {p : Ptr} (hle : s.cnt ≤ n) (he : s.alloc n = some (p,t)) : t.cnt ≤ n := by
  unfold AllocList.alloc at he
  by_cases hc : s.cnt < n
  · simp only [hc,↓reduceIte,Option.some.injEq,Prod.mk.injEq] at he
    rw [← he.2,append_cnt]
    omega
  · simp only [hc,↓reduceIte] at he
    split at he
    · simp at he
    · simp only [Option.some.injEq,Prod.mk.injEq] at he
      rw [← he.2]
      exact hle
    · simp only [Option.some.injEq,Prod.mk.injEq] at he
      rw [← he.2,recycle_cnt]
      exact hle

/-- The invariant of a run that never recycles an end of the list. -/
def Good (cap : ℕ) (s : AllocList) : Prop := (∃ l, s.Holds l) ∧ s.cnt ≤ cap

theorem boot_good : boot.Good n := ⟨⟨[],boot_holds⟩,Nat.zero_le _⟩

theorem Good.step {op : Op} (hcap : 2 ≤ n) (h : s.Good n) (he : s.step n op = some t)
    (hr : op = .alloc → s.Roomy n) : t.Good n := by
  obtain ⟨⟨l,h⟩,hle⟩ := h
  cases op with
  | alloc =>
    obtain ⟨p,t',ha,hiff⟩ := h.alloc hcap hle
    simp only [AllocList.step,ha,Option.map_some,Option.some.injEq] at he
    subst he
    exact ⟨hiff.mpr (hr rfl),alloc_cnt_le hle ha⟩
  | promo i =>
    simp only [AllocList.step] at he
    split at he
    · rename_i hi
      cases he
      exact ⟨h.promo hi,by rwa [promo_cnt]⟩
    · simp at he
  | sem f =>
    simp only [AllocList.step,Option.some.injEq] at he
    subst he
    exact ⟨⟨l,h.set_sem f⟩,hle⟩

theorem run_concat {ops : List Op} {op : Op} :
    run n (ops ++ [op]) = (run n ops).bind (fun s => s.step n op) := by
  simp [run,List.foldlM_append]

def RunRoomy (cap : ℕ) (ops : List Op) : Prop :=
  ∀ pre s, pre ++ [.alloc] <+: ops → run cap pre = some s → s.Roomy cap

theorem RunRoomy.mono {ops pre : List Op} (h : RunRoomy n ops) (hp : pre <+: ops) : RunRoomy n pre :=
  fun p s hpre he => h p s (hpre.trans hp) he

theorem run_good {ops : List Op} (hcap : 2 ≤ n) (hr : RunRoomy n ops) (he : run n ops = some s) :
    s.Good n := by
  induction ops using List.reverseRecOn generalizing s with
  | nil =>
    simp only [run,List.foldlM_nil,Option.pure_def,Option.some.injEq] at he
    exact he ▸ boot_good
  | append_singleton ops op ih =>
    rw [run_concat] at he
    obtain ⟨t,ht,he⟩ := Option.bind_eq_some_iff.mp he
    refine (ih (hr.mono (List.prefix_append ..)) ht).step hcap he ?_
    rintro rfl
    exact hr ops t List.prefix_rfl ht

/-- A run keeps the list intact throughout exactly when none of its allocations
recycles an end of the list. -/
theorem run_intact_iff (hcap : 2 ≤ n) (ops : List Op) :
    (∀ pre s, pre <+: ops → run n pre = some s → s.Intact) ↔ RunRoomy n ops := by
  constructor
  · intro h
    -- up to the first bad allocation the run is roomy, so the counter bound is available
    have key : ∀ pre, pre <+: ops → RunRoomy n pre := by
      intro pre
      induction pre using List.reverseRecOn with
      | nil =>
        intro _ p s hp _
        simpa using List.prefix_nil.mp hp
      | append_singleton pre op ih =>
        intro hpre p s hp hs
        have hrp := ih ((List.prefix_append pre [op]).trans hpre)
        rcases List.prefix_concat_iff.mp hp with he | hp
        · obtain ⟨rfl,hop⟩ := List.append_inj' he rfl
          obtain ⟨⟨l,hl⟩,hle⟩ := run_good hcap hrp hs
          obtain ⟨q,t,ha,hiff⟩ := hl.alloc hcap hle
          refine hiff.mp (intact_iff.mp (h _ t (hp.trans hpre) ?_))
          rw [run_concat,hs]
          simp [AllocList.step,ha]
        · exact hrp p s hp hs
    exact key ops List.prefix_rfl
  · intro h pre s hpre he
    exact intact_iff.mpr (run_good hcap (h.mono hpre) he).1

theorem run_fill {k : ℕ} (hk : k ≤ n) :
    ∃ s, run n (List.replicate k .alloc) = some s ∧ s.Holds (List.range k) ∧ s.sem = fun _ => 0 := by
  induction k with
  | zero => exact ⟨boot,rfl,boot_holds,rfl⟩
  | succ k ih =>
    obtain ⟨s,hs,h,hz⟩ := ih (by omega)
    have hc : s.cnt = k := by simpa using h.length.symm
    refine ⟨s.append,?_,?_,by simpa using hz⟩
    · rw [List.replicate_succ',run_concat,hs]
      simp [AllocList.step,AllocList.alloc,show s.cnt < n by omega]
    · rw [List.range_succ]
      simpa [hc] using append_holds h

theorem run_fill_roomy {k : ℕ} (hk : k ≤ n) : RunRoomy n (List.replicate k .alloc) := by
  intro pre s hp hs
  have hlen := hp.length_le
  simp only [List.length_append,List.length_singleton,List.length_replicate] at hlen
  have hpre : pre = List.replicate pre.length .alloc := by
    rw [List.eq_replicate_iff]
    exact ⟨rfl,fun b hb => List.eq_of_mem_replicate (hp.subset (List.mem_append_left _ hb))⟩
  obtain ⟨t,ht,h,_⟩ := run_fill (n := n) (k := pre.length) (by omega)
  rw [← hpre,hs] at ht
  cases ht
  have hc : s.cnt = pre.length := by simpa using h.length.symm
  exact Or.inl (by omega)

/-! ## Rotation -/

def allocs (cap : ℕ) : ℕ → AllocList → Option (List Ptr × AllocList)
  | 0, s => some ([],s)
  | n + 1, s => do
    let (p,s) ← s.alloc cap
    let (ps,s) ← allocs cap n s
    return (p :: ps,s)

def free (cap : ℕ) (s : AllocList) : ℕ := (List.range cap).countP (fun i => s.sem (some i) = 0)

/-- As many successive allocations as there are free entries return pairwise different
entries, and an allocation returns the null pointer exactly when all entries are in use. -/
def Rotates (cap : ℕ) (s : AllocList) : Prop :=
  (∃ ps t, allocs cap (s.free cap) s = some (ps,t) ∧ ps.Nodup ∧ ∀ p ∈ ps, p ≠ none) ∧
  ((∃ t, s.alloc cap = some (none,t)) ↔ ∀ i < cap, s.sem (some i) ≠ 0)

def freeList (s : AllocList) (l : List ℕ) : List ℕ := l.filter (fun i => s.sem (some i) = 0)

theorem Holds.freeList_length (h : s.Holds l) (hfull : s.cnt = n) :
    (s.freeList l).length = s.free n := by
  have hp : l.Perm (List.range n) := by
    refine (List.perm_ext_iff_of_nodup h.nodup List.nodup_range).mpr ?_
    intro i
    rw [h.mem_iff,hfull,List.mem_range]
  rw [free,← hp.countP_eq,List.countP_eq_length_filter]
  rfl

theorem find_eq_freeList_head :
    l.find? (fun i => s.sem (some i) = 0) = (s.freeList l).head? := List.head?_filter.symm

/-- A free `begin` is taken and stays `begin`. -/
theorem alloc_begin (hfull : s.cnt = n) (hpos : 0 < n) (hb : s.begin = some i)
    (hi : s.sem (some i) = 0) : s.alloc n = some (some i,s.recycle (some i)) := by
  obtain ⟨c,rfl⟩ := Nat.exists_eq_succ_of_ne_zero (Nat.ne_of_gt hpos)
  simp [AllocList.alloc,hfull,hb,seekFree,find,hi]

/-- One call on a full table whose first entry is in use takes the first free entry,
which thereby becomes the last one. -/
theorem alloc_rotate {f : List ℕ} (h : s.Holds l) (hfull : s.cnt = n) (hb : s.sem s.begin ≠ 0)
    (hf : s.freeList l = i :: f) (hne : f ≠ []) :
    ∃ t m, s.alloc n = some (some i,t) ∧ t.Holds m ∧ t.freeList m = f ++ [i] ∧
      t.cnt = n ∧ t.begin = s.begin ∧ t.sem = s.sem := by
  have hfind : l.find? (fun i => s.sem (some i) = 0) = some i := by
    rw [find_eq_freeList_head,hf]
    rfl
  obtain ⟨hi,l₁,l₂,rfl,hfree⟩ := List.find?_eq_some_iff_append.mp hfind
  have hl₁ : s.freeList l₁ = [] := by
    rw [freeList,List.filter_eq_nil_iff]
    intro x hx
    simpa using hfree x hx
  have hl₂ : s.freeList l₂ = f := by
    simpa [freeList,List.filter_append,List.filter_cons,hi,show List.filter _ l₁ = [] from hl₁] using hf
  have h1 : l₁ ≠ [] := by
    rintro rfl
    rw [h.begin_eq] at hb
    exact hb (by simpa using hi)
  have h2 : l₂ ≠ [] := by
    rintro rfl
    exact hne hl₂.symm
  refine ⟨_,_,?_,recycle_holds h h1 h2,?_,by simpa using hfull,by simp,by simp⟩
  · rw [alloc_full h hfull,hfind]
  · have hs : ∀ l, (s.recycle (some i)).freeList l = s.freeList l := by simp [freeList]
    rw [hs,freeList,List.filter_append,List.filter_append]
    change s.freeList l₁ ++ s.freeList l₂ ++ _ = _
    rw [hl₁,hl₂]
    simpa using hi

theorem allocs_rotate {a b : List ℕ} (h : s.Holds l) (hfull : s.cnt = n) (hb : s.sem s.begin ≠ 0)
    (hf : s.freeList l = a ++ b) (htwo : 2 ≤ (a ++ b).length) :
    ∃ t, allocs n a.length s = some (a.map some,t) := by
  induction a generalizing s l b with
  | nil => exact ⟨s,rfl⟩
  | cons x a ih =>
    have hne : a ++ b ≠ [] := by
      intro he
      simp [he] at htwo
    obtain ⟨t,m,ht,hm,hmf,hc,hbt,hst⟩ := alloc_rotate h hfull hb hf hne
    obtain ⟨u,hu⟩ := ih hm hc (by rwa [hst,hbt]) (b := b ++ [x]) (by simpa using hmf)
      (by simp only [List.length_append,List.length_cons,List.length_nil] at htwo ⊢; omega)
    exact ⟨u,by simp [allocs,ht,hu]⟩

theorem Holds.alloc_null_iff (h : s.Holds l) (hfull : s.cnt = n) :
    (∃ t, s.alloc n = some (none,t)) ↔ ∀ i < n, s.sem (some i) ≠ 0 := by
  rw [alloc_full h hfull]
  cases hf : l.find? (fun i => s.sem (some i) = 0) with
  | none =>
    refine iff_of_true ⟨s,rfl⟩ ?_
    intro i hi
    simpa using List.find?_eq_none.mp hf i ((h.mem_iff i).mpr (by omega))
  | some i =>
    have hi := List.find?_some hf
    simp only [decide_eq_true_eq] at hi
    refine iff_of_false (by simp) (fun hall => hall i ?_ hi)
    rw [← hfull,← h.mem_iff]
    exact List.mem_of_find?_eq_some hf

/-- On a full intact list recycling rotates exactly when at most one entry is free or
the first entry of the list is in use. -/
theorem Holds.rotates_iff (h : s.Holds l) (hfull : s.cnt = n) (hpos : 0 < n) :
    s.Rotates n ↔ s.free n ≤ 1 ∨ s.sem s.begin ≠ 0 := by
  have hlen := h.freeList_length hfull
  constructor
  · rintro ⟨⟨ps,t,hps,hnd,_⟩,_⟩
    by_contra hcon
    obtain ⟨hfr,hb⟩ := not_or.mp hcon
    rw [not_ne_iff] at hb
    obtain ⟨x,l,rfl⟩ := List.exists_cons_of_length_pos (l := l) (by have := h.length; omega)
    have hbx : s.begin = some x := h.begin_eq
    rw [hbx] at hb
    obtain ⟨k,hk⟩ : ∃ k, s.free n = k + 2 := ⟨s.free n - 2,by omega⟩
    have h1 := alloc_begin hfull hpos hbx hb
    have h2 := alloc_begin (s := s.recycle (some x)) (i := x) (by simpa using hfull) hpos
      (by simpa using hbx) (by simpa using hb)
    rw [hk] at hps
    simp only [allocs,h1,h2,Option.bind_eq_bind,Option.bind_some,Option.pure_def] at hps
    obtain ⟨⟨qs,u⟩,hq,he⟩ := Option.bind_eq_some_iff.mp hps
    obtain ⟨⟨qs',u'⟩,_,he'⟩ := Option.bind_eq_some_iff.mp hq
    simp only [Option.some.injEq,Prod.mk.injEq] at he he'
    rw [← he.1,← he'.1] at hnd
    simp at hnd
  · intro hcase
    refine ⟨?_,h.alloc_null_iff hfull⟩
    by_cases hfr : s.free n ≤ 1
    · rcases Nat.le_one_iff_eq_zero_or_eq_one.mp hfr with h0 | h1
      · exact ⟨[],s,by rw [h0]; rfl,by simp,by simp⟩
      · obtain ⟨x,hx⟩ := List.length_eq_one_iff.mp (hlen.trans h1)
        have hfind : l.find? (fun i => s.sem (some i) = 0) = some x := by
          rw [find_eq_freeList_head,hx]
          rfl
        refine ⟨[some x],s.recycle (some x),?_,by simp,by simp⟩
        rw [h1]
        simp [allocs,alloc_full h hfull,hfind]
    · have hb := hcase.resolve_left hfr
      obtain ⟨t,ht⟩ := allocs_rotate (a := s.freeList l) (b := []) h hfull hb (by simp)
        (by simp only [List.append_nil]; omega)
      rw [hlen] at ht
      refine ⟨_,t,ht,?_,by simp⟩
      exact (h.nodup.filter _).map (fun _ _ => Option.some.inj)

end Micron.Kernel.AllocList

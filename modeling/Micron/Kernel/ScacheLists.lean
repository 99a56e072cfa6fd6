import Mathlib.Data.List.Sort
import Mathlib.Data.Set.Finite.Basic
import Micron.Kernel.Scache

/-! # The device lists of the sector cache

Each block device has one list of its cached blocks in ascending order. The lists
are disjoint and cover the allocated entries, as long as recycling never takes the
head of a list: `scache_alloc` does not know which head pointer it would have to move.
-/
namespace Micron.Kernel.Scache
open Function Linked
variable {s t : Scache} {L : ℕ → List ℕ} {M : ℕ → Prop} {A B : List ℕ} {i j k : ℕ} {b : ℤ}

structure Lists (s : Scache) (L : ℕ → List ℕ) (M : ℕ → Prop) : Prop where
  head : ∀ k, s.clist k = (L k).head?
  seg : ∀ k, Seg s.cnext s.clast none (L k) none
  sorted : ∀ k, (L k).Pairwise (fun i j => s.blk (some i) < s.blk (some j))
  inj : ∀ i j k, i ∈ L j → i ∈ L k → j = k
  mem_iff : ∀ i, (∃ k, i ∈ L k) ↔ M i

theorem boot_lists (disk : ℕ → ℕ → UInt8) : (boot disk).Lists (fun _ => []) (fun _ => False) :=
  ⟨fun _ => rfl,fun _ => trivial,fun _ => List.Pairwise.nil,fun _ _ _ h => by simp at h,fun i => by simp⟩

theorem Lists.nodup (h : s.Lists L M) (k : ℕ) : (L k).Nodup := by
  refine (h.sorted k).imp ?_
  rintro i j hij rfl
  exact lt_irrefl _ hij

theorem Lists.chain (h : s.Lists L M) (k : ℕ) : Chain s.cnext (s.clist k) (L k) :=
  h.head k ▸ (h.seg k).chain

theorem Lists.length_le {n : ℕ} (h : s.Lists L M) (hM : ∀ i, M i → i < n) (k : ℕ) : (L k).length ≤ n := by
  have hs : L k ⊆ List.range n := by
    intro i hi
    exact List.mem_range.mpr (hM i ((h.mem_iff i).mp ⟨k,hi⟩))
  simpa using (h.nodup k).subperm hs |>.length_le

theorem Lists.seek (h : s.Lists L M) (hM : ∀ i, M i → i < NSECACHS) (k : ℕ) (b : ℤ) :
    s.scacheSeek (s.clist k) b = some ((L k).find? (fun i => s.blk (some i) = b)) :=
  find_eq (h.chain k) (h.length_le hM k)

/-- Entries of one list are told apart by their block numbers. -/
theorem Lists.blk_inj (h : s.Lists L M) (hi : i ∈ L k) (hj : j ∈ L k)
    (hb : s.blk (some i) = s.blk (some j)) : i = j := by
  obtain ⟨l₁,l₂,hl⟩ := List.append_of_mem hi
  have hs := h.sorted k
  rw [hl] at hs hj
  obtain ⟨_,hs₂,hs₁⟩ := List.pairwise_append.mp hs
  rcases List.mem_append.mp hj with hj | hj
  · have := hs₁ j hj i List.mem_cons_self
    omega
  · rcases List.mem_cons.mp hj with rfl | hj
    · rfl
    · have := (List.pairwise_cons.mp hs₂).1 j hj
      omega

theorem Lists.congr (h : s.Lists L M) (hh : t.clist = s.clist) (hn : t.cnext = s.cnext)
    (hl : t.clast = s.clast) (hb : ∀ i, M i → t.blk (some i) = s.blk (some i)) : t.Lists L M := by
  have hM : ∀ k, ∀ i ∈ L k, M i := fun k i hi => (h.mem_iff i).mp ⟨k,hi⟩
  refine ⟨fun k => hh ▸ h.head k,fun k => hn ▸ hl ▸ h.seg k,?_,h.inj,h.mem_iff⟩
  intro k
  refine (h.sorted k).imp_of_mem ?_
  intro i j hi hj hij
  rwa [hb i (hM k i hi),hb j (hM k j hj)]

/-! ## Taking an entry off its list -/

theorem detach_eq (hl : s.clast (some i) = some j) (hij : i ≠ j) :
    s.detach (some i) = { s with
      cnext := update s.cnext (some j) (s.cnext (some i))
      clast := if s.cnext (some i) = none then s.clast
        else update s.clast (s.cnext (some i)) (some j) } := by
  have hne : (some i : Ptr) ≠ some j := by simpa using hij
  by_cases hn : s.cnext (some i) = none
  · simp [detach,setCnext,hl,hn,update_of_ne hne]
  · simp [detach,setCnext,setClast,hl,hn,update_of_ne hne]

/-- An entry that does not head its list is taken off it. -/
theorem Lists.detach (h : s.Lists L M) (hk : L k = A ++ i :: B) (hA : A ≠ []) :
    (s.detach (some i)).Lists (update L k (A ++ B)) (fun j => M j ∧ j ≠ i) := by
  have hseg := h.seg k
  have hnd := h.nodup k
  rw [hk] at hseg hnd
  obtain ⟨y,hy⟩ : ∃ y, A.getLast? = some y := ⟨_,List.getLast?_eq_getLast_of_ne_nil hA⟩
  have hyA : y ∈ A := List.mem_of_getLast? hy
  have hlast : s.clast (some i) = some y := by rw [hseg.prev_mid,hy]; rfl
  have hnext : s.cnext (some i) = B.head? := by rw [hseg.next_mid]; simp
  obtain ⟨hd1,hd2,hd3⟩ := List.nodup_append.mp hnd
  obtain ⟨hi,hd2⟩ := List.nodup_cons.mp hd2
  have hiy : i ≠ y := fun hx => hd3 y hyA i (by simp) hx.symm
  have hmem : ∀ x, x ∈ A ++ B → x ∈ L k := by
    intro x hx
    rw [hk]
    rcases List.mem_append.mp hx with hx | hx <;> simp [hx]
  -- the two redirected links belong to entries of list `k`
  have hyk : ∀ k', k' ≠ k → ∀ x ∈ L k', (some y : Ptr) ≠ some x := by
    rintro k' hne x hx ⟨⟩
    exact hne (h.inj y k' k hx (hmem y (by simp [hyA])))
  have hBk : ∀ k', k' ≠ k → ∀ x ∈ L k', B.head? ≠ some x := by
    intro k' hne x hx hB
    exact hne (h.inj x k' k hx (hmem x (by simp [List.mem_of_head? hB])))
  have hBA : ∀ x ∈ A, B.head? ≠ some x := by
    intro x hx hB
    exact hd3 x hx x (by simp [List.mem_of_head? hB]) rfl
  have hyB : ∀ x ∈ B, (some y : Ptr) ≠ some x := by
    rintro x hx ⟨⟩
    exact hd3 y hyA y (by simp [hx]) rfl
  rw [detach_eq hlast hiy,hnext]
  have hprev : ∀ x, (if B.head? = none then s.clast else update s.clast B.head? (some y)) (some x) =
      update s.clast B.head? (some y) (some x) := by
    intro x
    by_cases hB : B.head? = none <;> simp [hB,update_apply]
  refine ⟨?_,?_,?_,?_,?_⟩
  · intro k'
    by_cases hkk : k' = k
    · subst hkk
      obtain ⟨x,A,rfl⟩ := List.exists_cons_of_ne_nil hA
      simpa [hk] using h.head k'
    · simpa [hkk] using h.head k'
  · intro k'
    by_cases hkk : k' = k
    · subst hkk
      obtain ⟨hsA,_,_,hsB⟩ := seg_append.mp hseg
      rw [update_self]
      refine Seg.congr (?_ : Seg (update s.cnext (some y) B.head?) (update s.clast B.head? (some y)) _ _ _)
        (fun _ _ => rfl) (fun x _ => hprev x)
      rw [seg_append]
      constructor
      · rw [← hy]
        simpa using (hsA.retarget_exit hd1 B.head?).frame_prev hBA
      · rw [hy]
        exact (hsB.retarget_entry hd2 (some y)).frame_next hyB
    · rw [update_of_ne hkk]
      refine Seg.congr (?_ : Seg (update s.cnext (some y) B.head?) (update s.clast B.head? (some y)) _ _ _)
        (fun _ _ => rfl) (fun x _ => hprev x)
      exact ((h.seg k').frame_next (hyk k' hkk)).frame_prev (hBk k' hkk)
  · intro k'
    by_cases hkk : k' = k
    · subst hkk
      rw [update_self]
      refine (h.sorted k').sublist ?_
      rw [hk]
      exact (List.sublist_cons_self i B).append_left A
    · rw [update_of_ne hkk]
      exact h.sorted k'
  · intro x k₁ k₂ h₁ h₂
    have hsub : ∀ k', x ∈ update L k (A ++ B) k' → x ∈ L k' := by
      intro k' hx
      by_cases hkk : k' = k
      · subst hkk
        exact hmem x (by simpa using hx)
      · simpa [hkk] using hx
    exact h.inj x k₁ k₂ (hsub k₁ h₁) (hsub k₂ h₂)
  · intro x
    rw [← h.mem_iff x]
    constructor
    · rintro ⟨k',hx⟩
      by_cases hkk : k' = k
      · subst hkk
        rw [update_self] at hx
        refine ⟨⟨k',hmem x hx⟩,?_⟩
        rintro rfl
        rcases List.mem_append.mp hx with hx | hx
        · exact hd3 x hx x (by simp) rfl
        · exact hi hx
      · rw [update_of_ne hkk] at hx
        refine ⟨⟨k',hx⟩,?_⟩
        rintro rfl
        exact hkk (h.inj x k' k hx (by simp [hk]))
    · rintro ⟨⟨k',hx⟩,hne⟩
      refine ⟨k',?_⟩
      by_cases hkk : k' = k
      · subst hkk
        rw [hk] at hx
        rw [update_self]
        simpa [hne] using hx
      · simpa [hkk] using hx

/-! ## Sorted insertion -/

theorem place_eq {p : Ptr} {fuel : ℕ} (hc : Chain s.cnext p (A ++ B)) (hne : A ++ B ≠ [])
    (hA : ∀ x ∈ A, s.blk (some x) < b) (hB : ∀ x ∈ B, b < s.blk (some x))
    (hf : (A ++ B).length ≤ fuel) :
    s.place b fuel p = some (match B.head? with
      | some c => .before (some c)
      | none => .after A.getLast?) := by
  induction A generalizing p fuel with
  | nil =>
    obtain ⟨c,B,rfl⟩ := List.exists_cons_of_ne_nil hne
    obtain ⟨rfl,_⟩ := hc
    cases fuel with
    | zero => simp at hf
    | succ fuel =>
      have hb := hB c List.mem_cons_self
      simp [place,hb,show ¬ s.blk (some c) = b by omega]
  | cons a A ih =>
    obtain ⟨rfl,hc⟩ := hc
    change Chain s.cnext (s.cnext (some a)) (A ++ B) at hc
    have ha := hA a List.mem_cons_self
    cases fuel with
    | zero => simp at hf
    | succ fuel =>
      simp only [place,show ¬ s.blk (some a) = b by omega,show ¬ s.blk (some a) > b by omega,↓reduceIte]
      cases hAB : A ++ B with
      | nil =>
        obtain ⟨rfl,rfl⟩ := List.append_eq_nil_iff.mp hAB
        simp only [List.append_nil,Chain] at hc
        simp [hc]
      | cons y m =>
        have hn : s.cnext (some a) ≠ none := by
          rw [hAB] at hc
          simp [hc.1]
        rw [if_neg hn,ih hc (by simp [hAB]) (fun x hx => hA x (List.mem_cons_of_mem _ hx)) (by simpa using hf)]
        cases B with
        | cons c B => rfl
        | nil =>
          obtain ⟨z,hz⟩ : ∃ z, A.getLast? = some z := by
            rw [List.append_nil] at hAB
            exact ⟨_,List.getLast?_eq_getLast_of_ne_nil (by simp [hAB])⟩
          simp [List.getLast?_cons,hz]

theorem insertBefore_eq {c : ℕ} (hic : i ≠ c) :
    s.insertBefore k (some i) (some c) = { s with
      cnext := update (update s.cnext (some i) (some c)) (s.clast (some c)) (some i)
      clast := update (update s.clast (some i) (s.clast (some c))) (some c) (some i)
      clist := if s.clast (some c) = none then update s.clist k (some i) else s.clist } := by
  have hci : (some c : Ptr) ≠ some i := by simpa using hic.symm
  have hne : (some i : Ptr) ≠ some c := by simpa using hic
  by_cases hn : s.clast (some c) = none
  · simp [insertBefore,setCnext,setClast,setClist,update_of_ne hci,update_of_ne hne,hn]
  · simp [insertBefore,setCnext,setClast,update_of_ne hci,update_of_ne hne,hn]

theorem insertAfter_eq {c : ℕ} : s.insertAfter k (some i) (some c) = { s with
      cnext := update (update s.cnext (some i) none) (some c) (some i)
      clast := update s.clast (some i) (some c) } := by
  simp [insertAfter,setCnext,setClast]

/-- Insertion at the sorted place links the item between `A` and `B` and moves the head
pointer when the item comes first. -/
theorem insert_eq (hhead : s.clist k = (A ++ B).head?) (hs : Seg s.cnext s.clast none (A ++ B) none) (hi : i ∉ A ++ B)
    (hlen : (A ++ B).length ≤ NSECACHS) (hA : ∀ x ∈ A, s.blk (some x) < s.blk (some i))
    (hB : ∀ x ∈ B, s.blk (some i) < s.blk (some x)) :
    ∃ cn cl ch, s.scacheInsert k (some i) = some (0,{ s with cnext := cn, clast := cl, clist := ch }) ∧
      (∀ x, cn (some x) = update (update s.cnext (some i) B.head?) A.getLast? (some i) (some x)) ∧
      (∀ x, cl (some x) = update (update s.clast (some i) A.getLast?) B.head? (some i) (some x)) ∧
      ch = if A = [] then update s.clist k (some i) else s.clist := by
  by_cases hne : A ++ B = []
  · obtain ⟨rfl,rfl⟩ := List.append_eq_nil_iff.mp hne
    have hempty : s.clist k = none := hhead
    refine ⟨_,_,_,by simp only [scacheInsert,hempty,↓reduceIte,setClist,setCnext,setClast]; rfl,?_,?_,?_⟩
    · intro x; simp [update_apply]
    · intro x; simp [update_apply]
    · simp
  · have hsome : s.clist k ≠ none := by
      rw [hhead]
      obtain ⟨y,m,hy⟩ := List.exists_cons_of_ne_nil hne
      simp [hy]
    have hp := place_eq (hhead ▸ hs.chain) hne hA hB hlen
    cases B with
    | cons c B =>
      have hic : i ≠ c := by
        rintro rfl
        exact hi (by simp)
      have hlast : s.clast (some c) = A.getLast? := by rw [hs.prev_mid]; simp
      refine ⟨_,_,_,by simp only [scacheInsert,hsome,↓reduceIte,hp,List.head?_cons,insertBefore_eq hic]; rfl,
        ?_,?_,?_⟩
      · intro x; rw [hlast]; rfl
      · intro x; rw [hlast]; rfl
      · simp [hlast]
    | nil =>
      obtain ⟨y,hy⟩ : ∃ y, A.getLast? = some y :=
        ⟨_,List.getLast?_eq_getLast_of_ne_nil (by simpa using hne)⟩
      refine ⟨_,_,_,by simp only [scacheInsert,hsome,↓reduceIte,hp,List.head?_nil,hy,insertAfter_eq]; rfl,
        ?_,?_,?_⟩
      · intro x; simp [hy]
      · intro x; simp [hy,update_apply]
      · rw [if_neg (by simpa using hne)]

theorem Lists.insert_eq (h : s.Lists L M) (hi : ¬ M i) (hk : L k = A ++ B) (hlen : (L k).length ≤ NSECACHS)
    (hA : ∀ x ∈ A, s.blk (some x) < s.blk (some i)) (hB : ∀ x ∈ B, s.blk (some i) < s.blk (some x)) :
    ∃ cn cl ch, s.scacheInsert k (some i) = some (0,{ s with cnext := cn, clast := cl, clist := ch }) ∧
      (∀ x, cn (some x) = update (update s.cnext (some i) B.head?) A.getLast? (some i) (some x)) ∧
      (∀ x, cl (some x) = update (update s.clast (some i) A.getLast?) B.head? (some i) (some x)) ∧
      ch = if A = [] then update s.clist k (some i) else s.clist :=
  Scache.insert_eq (hk ▸ h.head k) (hk ▸ h.seg k) (fun hx => hi ((h.mem_iff i).mp ⟨k,hk ▸ hx⟩)) (hk ▸ hlen) hA hB

theorem sorted_insert (hs : (A ++ B).Pairwise (fun i j => s.blk (some i) < s.blk (some j)))
    (hA : ∀ x ∈ A, s.blk (some x) < s.blk (some i)) (hB : ∀ x ∈ B, s.blk (some i) < s.blk (some x)) :
    (A ++ i :: B).Pairwise (fun i j => s.blk (some i) < s.blk (some j)) := by
  obtain ⟨h1,h2,h3⟩ := List.pairwise_append.mp hs
  refine List.pairwise_append.mpr ⟨h1,List.pairwise_cons.mpr ⟨hB,h2⟩,?_⟩
  intro x hx y hy
  rcases List.mem_cons.mp hy with rfl | hy
  · exact hA x hx
  · exact h3 x hx y hy

theorem Lists.insert (h : s.Lists L M) (hi : ¬ M i) (hk : L k = A ++ B)
    (hA : ∀ x ∈ A, s.blk (some x) < s.blk (some i)) (hB : ∀ x ∈ B, s.blk (some i) < s.blk (some x))
    {cn cl : Ptr → Ptr} {ch : ℕ → Ptr}
    (hcn : ∀ x, cn (some x) = update (update s.cnext (some i) B.head?) A.getLast? (some i) (some x))
    (hcl : ∀ x, cl (some x) = update (update s.clast (some i) A.getLast?) B.head? (some i) (some x))
    (hch : ch = if A = [] then update s.clist k (some i) else s.clist) :
    { s with cnext := cn, clast := cl, clist := ch }.Lists (update L k (A ++ i :: B)) (fun j => M j ∨ j = i) := by
  have hM : ∀ k, ∀ x ∈ L k, M x := fun k x hx => (h.mem_iff x).mp ⟨k,hx⟩
  have hiL : ∀ k, ∀ x ∈ L k, (some i : Ptr) ≠ some x := by
    rintro k x hx ⟨⟩
    exact hi (hM k i hx)
  have hseg := h.seg k
  have hnd := h.nodup k
  rw [hk] at hseg hnd
  have hmA : ∀ x ∈ A, x ∈ L k := fun x hx => by simp [hk,hx]
  have hmB : ∀ x ∈ B, x ∈ L k := fun x hx => by simp [hk,hx]
  refine ⟨?_,?_,?_,?_,?_⟩
  · intro k'
    change ch k' = _
    rw [hch]
    by_cases hkk : k' = k
    · subst hkk
      cases A with
      | nil => simp
      | cons a A => simpa [hk] using h.head k'
    · have : (if A = [] then update s.clist k (some i) else s.clist) k' = s.clist k' := by
        split <;> simp [hkk]
      rw [this,update_of_ne hkk]
      exact h.head k'
  · intro k'
    refine Seg.congr ?_ (fun x _ => hcn x) (fun x _ => hcl x)
    by_cases hkk : k' = k
    · subst hkk
      rw [update_self]
      exact hseg.insert hnd (fun hx => hiL k' i (hk ▸ hx) rfl)
    · rw [update_of_ne hkk]
      have hAk : ∀ x ∈ L k', A.getLast? ≠ some x := by
        intro x hx hA
        exact hkk (h.inj x k' k hx (hmA x (List.mem_of_getLast? hA)))
      have hBk : ∀ x ∈ L k', B.head? ≠ some x := by
        intro x hx hB
        exact hkk (h.inj x k' k hx (hmB x (List.mem_of_head? hB)))
      exact (((h.seg k').frame_next (hiL k')).frame_next hAk).frame_prev (hiL k') |>.frame_prev hBk
  · intro k'
    by_cases hkk : k' = k
    · subst hkk
      rw [update_self]
      have hs := h.sorted k'
      rw [hk] at hs
      exact sorted_insert hs hA hB
    · rw [update_of_ne hkk]
      exact h.sorted k'
  · have hcases : ∀ x k', x ∈ update L k (A ++ i :: B) k' → x ∈ L k' ∨ x = i ∧ k' = k := by
      intro x k' hx
      by_cases hkk : k' = k
      · subst hkk
        rw [update_self,List.mem_append,List.mem_cons] at hx
        rcases hx with hx | rfl | hx
        · exact Or.inl (hmA x hx)
        · exact Or.inr ⟨rfl,rfl⟩
        · exact Or.inl (hmB x hx)
      · rw [update_of_ne hkk] at hx
        exact Or.inl hx
    intro x k₁ k₂ hx₁ hx₂
    rcases hcases x k₁ hx₁ with h₁ | ⟨he₁,hk₁⟩ <;> rcases hcases x k₂ hx₂ with h₂ | ⟨he₂,hk₂⟩
    · exact h.inj x k₁ k₂ h₁ h₂
    · exact absurd (congrArg some he₂.symm) (hiL k₁ x h₁)
    · exact absurd (congrArg some he₁.symm) (hiL k₂ x h₂)
    · exact hk₁.trans hk₂.symm
  · intro x
    rw [← h.mem_iff x]
    constructor
    · rintro ⟨k',hx⟩
      by_cases hkk : k' = k
      · subst hkk
        rw [update_self,List.mem_append,List.mem_cons] at hx
        rcases hx with hx | rfl | hx
        · exact Or.inl ⟨k',hmA x hx⟩
        · exact Or.inr rfl
        · exact Or.inl ⟨k',hmB x hx⟩
      · rw [update_of_ne hkk] at hx
        exact Or.inl ⟨k',hx⟩
    · rintro (⟨k',hx⟩ | rfl)
      · refine ⟨k',?_⟩
        by_cases hkk : k' = k
        · subst hkk
          rw [hk] at hx
          rw [update_self,List.mem_append,List.mem_cons]
          rcases List.mem_append.mp hx with hx | hx <;> simp [hx]
        · rwa [update_of_ne hkk]
      · exact ⟨k,by simp⟩

theorem split_sorted {l : List ℕ} (hs : l.Pairwise (fun i j => s.blk (some i) < s.blk (some j)))
    (hb : ∀ x ∈ l, s.blk (some x) ≠ b) :
    ∃ A B, l = A ++ B ∧ (∀ x ∈ A, s.blk (some x) < b) ∧ ∀ x ∈ B, b < s.blk (some x) := by
  induction l with
  | nil => exact ⟨[],[],rfl,by simp,by simp⟩
  | cons x l ih =>
    obtain ⟨hx,hs⟩ := List.pairwise_cons.mp hs
    rcases lt_or_gt_of_ne (hb x List.mem_cons_self) with hlt | hgt
    · obtain ⟨A,B,rfl,hA,hB⟩ := ih hs (fun y hy => hb y (List.mem_cons_of_mem _ hy))
      exact ⟨x :: A,B,rfl,List.forall_mem_cons.mpr ⟨hlt,hA⟩,hB⟩
    · exact ⟨[],x :: l,rfl,by simp,List.forall_mem_cons.mpr ⟨hgt,fun y hy => hgt.trans (hx y hy)⟩⟩

theorem Lists.split (h : s.Lists L M) (k : ℕ) (hb : ∀ x ∈ L k, s.blk (some x) ≠ b) :
    ∃ A B, L k = A ++ B ∧ (∀ x ∈ A, s.blk (some x) < b) ∧ ∀ x ∈ B, b < s.blk (some x) :=
  split_sorted (h.sorted k) hb

end Micron.Kernel.Scache

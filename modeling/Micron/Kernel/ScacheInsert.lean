import Micron.Kernel.ScacheLists

/-! # Sorted insertion into a device list

`scache_insert` on one list, whatever the other lists look like. An item that comes before
the head of a list is linked through `clist->clast->cnext` although the head has no `clast`.
-/
namespace Micron.Kernel.Scache
open Function Linked
variable {s t : Scache} {l : List ℕ} {i k : ℕ} {b : ℤ}

/-! ## The pointers that are followed -/

def walked (s : Scache) (blk : ℤ) : ℕ → Ptr → List Ptr
  | 0, _ => []
  | fuel + 1, c => c :: if s.blk c = blk ∨ s.blk c > blk ∨ s.cnext c = none then [] else s.walked blk fuel (s.cnext c)

def followed (s : Scache) (k : ℕ) (item : Ptr) : List Ptr :=
  if s.clist k = none then [item]
  else s.walked (s.blk item) NSECACHS (s.clist k) ++
    match s.place (s.blk item) NSECACHS (s.clist k) with
    | none | some .same => [item]
    | some (.before c) => [item,c,s.clast c]
    | some (.after c) => [item,c]

theorem walked_subset {p : Ptr} {fuel : ℕ} (hc : Chain s.cnext p l) (hne : l ≠ []) :
    ∀ q ∈ s.walked b fuel p, ∃ x ∈ l, q = some x := by
  induction l generalizing p fuel with
  | nil => exact absurd rfl hne
  | cons x l ih =>
    obtain ⟨rfl,hc⟩ := hc
    cases fuel with
    | zero => exact nofun
    | succ fuel =>
      rw [walked]
      refine List.forall_mem_cons.mpr ⟨⟨x,List.mem_cons_self,rfl⟩,?_⟩
      split
      · exact nofun
      · rename_i hgo
        intro q hq
        have hl : l ≠ [] := by
          rintro rfl
          exact hgo (Or.inr (Or.inr hc))
        obtain ⟨y,hy,rfl⟩ := ih hc hl q hq
        exact ⟨y,List.mem_cons_of_mem _ hy,rfl⟩

/-- On a list with the block number, the walk ends at the entry that has it. -/
theorem place_same {p : Ptr} {fuel : ℕ} (hc : Chain s.cnext p l)
    (hs : l.Pairwise (fun i j => s.blk (some i) < s.blk (some j))) (hb : ∃ x ∈ l, s.blk (some x) = b)
    (hf : l.length ≤ fuel) : s.place b fuel p = some .same := by
  induction l generalizing p fuel with
  | nil => simp at hb
  | cons x l ih =>
    obtain ⟨rfl,hc⟩ := hc
    obtain ⟨hx,hs⟩ := List.pairwise_cons.mp hs
    cases fuel with
    | zero => simp at hf
    | succ fuel =>
      rw [place]
      by_cases hxb : s.blk (some x) = b
      · rw [if_pos hxb]
      · obtain ⟨y,hy,hyb⟩ := hb
        have hyl : y ∈ l := (List.mem_cons.mp hy).resolve_left (fun he => hxb (he ▸ hyb))
        have hlt := hx y hyl
        have hnext : s.cnext (some x) ≠ none := by
          intro h0
          rw [h0] at hc
          cases l with
          | nil => simp at hyl
          | cons z l => exact absurd hc.1 (by simp)
        rw [if_neg hxb,if_neg (by omega),if_neg hnext]
        exact ih hc hs ⟨y,hyl,hyb⟩ (by simpa using hf)

/-! ## One list -/

/-- The list at place `k` is `l`: entries of the table in ascending order of their block
numbers, linked in both directions. -/
structure ListAt (s : Scache) (k : ℕ) (l : List ℕ) : Prop where
  head : s.clist k = l.head?
  seg : Seg s.cnext s.clast none l none
  sorted : l.Pairwise (fun i j => s.blk (some i) < s.blk (some j))
  lt : ∀ i ∈ l, i < NSECACHS

theorem ListAt.nodup (h : s.ListAt k l) : l.Nodup := by
  refine h.sorted.imp ?_
  rintro i j hij rfl
  exact lt_irrefl _ hij

theorem ListAt.chain (h : s.ListAt k l) : Chain s.cnext (s.clist k) l := h.head ▸ h.seg.chain

theorem ListAt.length_le (h : s.ListAt k l) : l.length ≤ NSECACHS := by
  have hsub : l ⊆ List.range NSECACHS := fun i hi => List.mem_range.mpr (h.lt i hi)
  simpa using (h.nodup.subperm hsub).length_le

/-- The item gets its place in the list and null is never followed; if its block number is
on the list already, nothing changes. -/
def InsertsSorted (s : Scache) (k i : ℕ) (l : List ℕ) : Prop :=
  none ∉ s.followed k (some i) ∧
  ((∀ x ∈ l, s.blk (some x) ≠ s.blk (some i)) → ∃ t A B, s.scacheInsert k (some i) = some (0,t) ∧ l = A ++ B ∧
    t.ListAt k (A ++ i :: B) ∧ t = { s with cnext := t.cnext, clast := t.clast, clist := t.clist }) ∧
  ((∃ x ∈ l, s.blk (some x) = s.blk (some i)) → s.scacheInsert k (some i) = some (-1,s))

theorem ListAt.insert (h : s.ListAt k l) (hi : i ∉ l) (hlt : i < NSECACHS)
    (hb : ∀ x ∈ l, s.blk (some x) ≠ s.blk (some i)) :
    ∃ t A B, s.scacheInsert k (some i) = some (0,t) ∧ l = A ++ B ∧ t.ListAt k (A ++ i :: B) ∧
      t = { s with cnext := t.cnext, clast := t.clast, clist := t.clist } := by
  obtain ⟨A,B,rfl,hA,hB⟩ := split_sorted h.sorted hb
  obtain ⟨cn,cl,ch,hins,hcn,hcl,hch⟩ := insert_eq h.head h.seg hi h.length_le hA hB
  refine ⟨_,A,B,hins,rfl,⟨?_,?_,?_,?_⟩,rfl⟩
  · change ch k = _
    rw [hch]
    cases A with
    | nil => simp
    | cons a A => simpa using h.head
  · exact (h.seg.insert h.nodup hi).congr (fun x _ => hcn x) (fun x _ => hcl x)
  · exact sorted_insert h.sorted hA hB
  · intro x hx
    rcases List.mem_append.mp hx with hx | hx
    · exact h.lt x (List.mem_append_left _ hx)
    · rcases List.mem_cons.mp hx with rfl | hx
      · exact hlt
      · exact h.lt x (List.mem_append_right _ hx)

/-- Null is followed exactly when the item comes before the head of a list. -/
theorem ListAt.followed_null (h : s.ListAt k l) :
    none ∈ s.followed k (some i) ↔ ∃ c, l.head? = some c ∧ s.blk (some i) < s.blk (some c) := by
  unfold followed
  by_cases hl : l = []
  · subst hl
    rw [h.head]
    simp
  have hsome : s.clist k ≠ none := by
    obtain ⟨x,m,rfl⟩ := List.exists_cons_of_ne_nil hl
    rw [h.head]
    simp
  have hwalk : none ∉ s.walked (s.blk (some i)) NSECACHS (s.clist k) := by
    intro hmem
    obtain ⟨x,-,hx⟩ := walked_subset h.chain hl none hmem
    exact absurd hx (by simp)
  rw [if_neg hsome,List.mem_append,or_iff_right hwalk]
  by_cases hb : ∃ x ∈ l, s.blk (some x) = s.blk (some i)
  · rw [place_same h.chain h.sorted hb h.length_le]
    obtain ⟨x,hx,hxb⟩ := hb
    simp only [List.mem_singleton,reduceCtorEq,false_iff]
    -- the head has the smallest number of the list
    rintro ⟨c,hc,hlt⟩
    obtain ⟨m,rfl⟩ := List.head?_eq_some_iff.mp hc
    rcases List.mem_cons.mp hx with rfl | hx
    · omega
    · have := (List.pairwise_cons.mp h.sorted).1 x hx
      omega
  · have hne : ∀ x ∈ l, s.blk (some x) ≠ s.blk (some i) := fun x hx he => hb ⟨x,hx,he⟩
    obtain ⟨A,B,rfl,hA,hB⟩ := split_sorted h.sorted hne
    rw [place_eq h.chain hl hA hB h.length_le]
    cases A with
    | nil =>
      obtain ⟨c,B,rfl⟩ := List.exists_cons_of_ne_nil hl
      have hlast : s.clast (some c) = none := h.seg.1
      have hlt := hB c List.mem_cons_self
      simp [hlast,hlt]
    | cons a A =>
      have ha := le_of_lt (hA a List.mem_cons_self)
      cases B with
      | nil => simp [ha,List.getLast?_cons]
      | cons c B =>
        have hlast : s.clast (some c) ≠ none := by
          rw [h.seg.prev_mid]
          simp [List.getLast?_cons]
        simp [ha,hlast.symm]

/-- An insertion is as it should be exactly when the item does not come before the head. -/
theorem insert_sorted_iff (s : Scache) (k i : ℕ) (l : List ℕ) (h : s.ListAt k l) (hi : i ∉ l) (hlt : i < NSECACHS) :
    InsertsSorted s k i l ↔ ∀ c, l.head? = some c → s.blk (some c) ≤ s.blk (some i) := by
  have hnull : none ∉ s.followed k (some i) ↔ ∀ c, l.head? = some c → s.blk (some c) ≤ s.blk (some i) := by
    rw [h.followed_null]
    push Not
    rfl
  rw [← hnull]
  refine ⟨fun hins => hins.1,fun hn => ⟨hn,h.insert hi hlt,fun hb => ?_⟩⟩
  have hsome : s.clist k ≠ none := by
    obtain ⟨x,hx,-⟩ := hb
    obtain ⟨y,m,rfl⟩ := List.exists_cons_of_ne_nil (List.ne_nil_of_mem hx)
    rw [h.head]
    simp
  rw [scacheInsert,if_neg hsome,place_same h.chain h.sorted hb h.length_le]

def oneBlock (b : ℤ) : Scache := { boot (fun _ _ => 0) with
  clist := fun k => if k = 0 then some 0 else none
  blk := fun p => if p = some 0 then 5 else b }

theorem oneBlock_listAt (b : ℤ) : (oneBlock b).ListAt 0 [0] :=
  ⟨rfl,⟨rfl,rfl,trivial⟩,List.pairwise_singleton _ _,by decide⟩

theorem insert_sorted_append : (oneBlock 7).ListAt 0 [0] ∧ InsertsSorted (oneBlock 7) 0 1 [0] := by
  refine ⟨oneBlock_listAt 7,(insert_sorted_iff (oneBlock 7) 0 1 [0] (oneBlock_listAt 7) (by decide) (by decide)).mpr ?_⟩
  rintro c ⟨⟩
  decide

/-- A block that comes before the head is linked through the null pointer. -/
theorem insert_follows_null : (oneBlock 3).ListAt 0 [0] ∧ none ∈ (oneBlock 3).followed 0 (some 1) ∧
    ¬ InsertsSorted (oneBlock 3) 0 1 [0] := by
  have hnull : none ∈ (oneBlock 3).followed 0 (some 1) := by decide
  exact ⟨oneBlock_listAt 3,hnull,fun h => h.1 hnull⟩

end Micron.Kernel.Scache

import Mathlib.Data.List.Nodup
import Mathlib.Data.Nat.Notation
import Mathlib.Logic.Function.Basic

/-! # Doubly linked lists in a pointer store

A pointer is an optional cell and `none` is the null pointer. The forward and
backward links are arbitrary total functions, so a list is a statement about
finitely many of their values and every other link is left open.
-/
namespace Micron.Linked
open Function
variable {ι : Type*}

/-- Following `next` from `p` visits exactly `l` and then meets the null pointer. -/
def Chain (next : Option ι → Option ι) : Option ι → List ι → Prop
  | p, [] => p = none
  | p, x :: l => p = some x ∧ Chain next (next (some x)) l

/-- The cells of `l` are linked in both directions, with `a` standing before the
first and `b` after the last of them. -/
def Seg (next prev : Option ι → Option ι) : Option ι → List ι → Option ι → Prop
  | _, [], _ => True
  | a, x :: l, b => prev (some x) = a ∧ next (some x) = l.head?.or b ∧ Seg next prev (some x) l b

/-- Walk along `next` to the first cell that passes `test`, meeting at most `fuel` cells.
On a store of `fuel` cells a walk that is still under way then is cyclic; the result
`none` says that it never ends, `some none` that it met the null pointer. -/
def find (next : Option ι → Option ι) (test : ι → Bool) : ℕ → Option ι → Option (Option ι)
  | _, none => some none
  | 0, some _ => none
  | fuel + 1, some x => if test x then some (some x) else find next test fuel (next (some x))

theorem Chain.unique {next : Option ι → Option ι} {p : Option ι} {l m : List ι}
    (hl : Chain next p l) (hm : Chain next p m) : l = m := by
  induction l generalizing p m with
  | nil =>
    cases m with
    | nil => rfl
    | cons y m => simp only [Chain] at hl hm; rw [hl] at hm; simp at hm
  | cons x l ih =>
    cases m with
    | nil => simp only [Chain] at hl hm; rw [hm] at hl; simp at hl
    | cons y m =>
      obtain ⟨hp,hl⟩ := hl
      obtain ⟨hq,hm⟩ := hm
      obtain rfl : x = y := Option.some.inj (hp.symm.trans hq)
      rw [ih hl hm]

variable {next prev next' prev' : Option ι → Option ι} {a b : Option ι} {l m : List ι}

theorem Seg.chain (h : Seg next prev a l none) : Chain next l.head? l := by
  induction l generalizing a with
  | nil => rfl
  | cons x l ih =>
    obtain ⟨_,hn,hs⟩ := h
    refine ⟨rfl,?_⟩
    rw [hn,Option.or_none]
    exact ih hs

theorem Chain.from_mid {x : ι} (h : Chain next a (l ++ x :: m)) : Chain next (some x) (x :: m) := by
  induction l generalizing a with
  | nil => exact ⟨rfl,h.2⟩
  | cons y l ih => exact ih h.2

/-- A walk that ends meets no cell twice. -/
theorem Chain.nodup (h : Chain next a l) : l.Nodup := by
  induction l generalizing a with
  | nil => exact List.nodup_nil
  | cons x l ih =>
    refine List.nodup_cons.mpr ⟨fun hx => ?_,ih h.2⟩
    obtain ⟨l,m,rfl⟩ := List.append_of_mem hx
    -- from the second visit on, the walk would be the one from the first
    have hlen := congrArg List.length (Chain.unique (Chain.from_mid (l := []) h) h.2.from_mid)
    rw [List.length_cons,List.length_cons,List.length_append,List.length_cons] at hlen
    omega

theorem Chain.congr (h : Chain next a l) (hn : ∀ x ∈ l, next' (some x) = next (some x)) :
    Chain next' a l := by
  induction l generalizing a with
  | nil => exact h
  | cons x l ih =>
    refine ⟨h.1,?_⟩
    rw [hn x List.mem_cons_self]
    exact ih h.2 (fun y hy => hn y (List.mem_cons_of_mem _ hy))

theorem Chain.next_mid {x : ι} (h : Chain next a (l ++ x :: m)) : next (some x) = m.head? := by
  induction l generalizing a with
  | nil =>
    cases m with
    | nil => exact h.2
    | cons y m => exact h.2.1
  | cons y l ih => exact ih h.2

theorem find_eq {test : ι → Bool} {fuel : ℕ} (hc : Chain next a l) (hf : l.length ≤ fuel) :
    find next test fuel a = some (l.find? test) := by
  induction l generalizing a fuel with
  | nil => simp only [Chain] at hc; subst hc; cases fuel <;> rfl
  | cons x l ih =>
    obtain ⟨rfl,hc⟩ := hc
    cases fuel with
    | zero => simp at hf
    | succ fuel =>
      by_cases hx : test x = true
      · simp [find,hx]
      · simp only [find,hx,Bool.false_eq_true,↓reduceIte,List.find?_cons]
        exact ih hc (by simpa using hf)

/-- A segment only speaks about the links of its own cells. -/
theorem Seg.congr (h : Seg next prev a l b) (hn : ∀ x ∈ l, next' (some x) = next (some x))
    (hp : ∀ x ∈ l, prev' (some x) = prev (some x)) : Seg next' prev' a l b := by
  induction l generalizing a with
  | nil => trivial
  | cons x l ih =>
    obtain ⟨h1,h2,h3⟩ := h
    have hx : x ∈ x :: l := List.mem_cons_self
    exact ⟨(hp x hx).trans h1,(hn x hx).trans h2,
      ih h3 (fun y hy => hn y (List.mem_cons_of_mem _ hy)) (fun y hy => hp y (List.mem_cons_of_mem _ hy))⟩

theorem seg_append : Seg next prev a (l ++ m) b ↔
    Seg next prev a l (m.head?.or b) ∧ Seg next prev (l.getLast?.or a) m b := by
  induction l generalizing a with
  | nil => simp [Seg]
  | cons x l ih =>
    have hlast : (x :: l).getLast?.or a = l.getLast?.or (some x) := by
      cases h : l.getLast? <;> simp [List.getLast?_cons,h]
    simp only [List.cons_append,Seg,ih,List.head?_append,Option.or_assoc,hlast,and_assoc]

@[simp] theorem seg_singleton {x : ι} :
    Seg next prev a [x] b ↔ prev (some x) = a ∧ next (some x) = b := by
  simp [Seg]

/-- The successor of a cell in the middle of a segment. -/
theorem Seg.next_mid {x : ι} (h : Seg next prev a (l ++ x :: m) b) : next (some x) = m.head?.or b :=
  (seg_append.mp h).2.2.1

theorem Seg.prev_mid {x : ι} (h : Seg next prev a (l ++ x :: m) b) : prev (some x) = l.getLast?.or a :=
  (seg_append.mp h).2.1

section Update
variable [DecidableEq ι] {k v : Option ι}

theorem Seg.frame_next (h : Seg next prev a l b) (hk : ∀ x ∈ l, k ≠ some x) :
    Seg (update next k v) prev a l b :=
  h.congr (fun x hx => update_of_ne (hk x hx).symm _ _) (fun _ _ => rfl)

theorem Seg.frame_prev (h : Seg next prev a l b) (hk : ∀ x ∈ l, k ≠ some x) :
    Seg next (update prev k v) a l b :=
  h.congr (fun _ _ => rfl) (fun x hx => update_of_ne (hk x hx).symm _ _)

/-- Redirecting the forward link of the last cell changes only where the segment leads to. -/
theorem Seg.retarget_exit (h : Seg next prev a l b) (hd : l.Nodup) (v : Option ι) :
    Seg (update next l.getLast? v) prev a l v := by
  rcases List.eq_nil_or_concat l with rfl | ⟨l,y,rfl⟩
  · trivial
  · rw [List.concat_eq_append] at h hd ⊢
    obtain ⟨h1,h2⟩ := seg_append.mp h
    have hy : y ∉ l := fun hy => (List.nodup_append.mp hd).2.2 y hy y (by simp) rfl
    simp only [List.getLast?_append_of_ne_nil,ne_eq,List.cons_ne_nil,not_false_eq_true,List.getLast?_singleton]
    refine seg_append.mpr ⟨?_,?_⟩
    · exact h1.frame_next (fun x hx he => hy (Option.some.inj he ▸ hx))
    · simp only [seg_singleton] at h2 ⊢
      exact ⟨h2.1,update_self ..⟩

/-- Redirecting the backward link of the first cell changes only where the segment comes from. -/
theorem Seg.retarget_entry (h : Seg next prev a l b) (hd : l.Nodup) (v : Option ι) :
    Seg next (update prev l.head? v) v l b := by
  cases l with
  | nil => trivial
  | cons x l =>
    obtain ⟨_,h2,h3⟩ := h
    refine ⟨update_self ..,h2,?_⟩
    exact h3.frame_prev (fun y hy he => (List.nodup_cons.mp hd).1 (Option.some.inj he ▸ hy))

/-- A new cell is linked in between two parts of a list. -/
theorem Seg.insert {i : ι} (h : Seg next prev none (l ++ m) none) (hd : (l ++ m).Nodup) (hi : i ∉ l ++ m) :
    Seg (update (update next (some i) m.head?) l.getLast? (some i))
      (update (update prev (some i) l.getLast?) m.head? (some i)) none (l ++ i :: m) none := by
  obtain ⟨hl,hm⟩ := seg_append.mp h
  obtain ⟨hdl,hdm,hdis⟩ := List.nodup_append.mp hd
  have hil : ∀ x ∈ l, (some i : Option ι) ≠ some x := fun x hx he => hi (List.mem_append_left _ (Option.some.inj he ▸ hx))
  have him : ∀ x ∈ m, (some i : Option ι) ≠ some x := fun x hx he => hi (List.mem_append_right _ (Option.some.inj he ▸ hx))
  have hlm : ∀ x ∈ m, l.getLast? ≠ some x := fun x hx he => hdis x (List.mem_of_getLast? he) x hx rfl
  have hml : ∀ x ∈ l, m.head? ≠ some x := fun x hx he => hdis x hx x (List.mem_of_head? he) rfl
  have hil' : (some i : Option ι) ≠ l.getLast? := fun he => hil i (List.mem_of_getLast? he.symm) rfl
  have him' : (some i : Option ι) ≠ m.head? := fun he => him i (List.mem_of_head? he.symm) rfl
  rw [seg_append]
  refine ⟨?_,?_,?_,?_⟩
  · have h1 := (hl.frame_next (v := m.head?) hil).retarget_exit hdl (some i)
    exact (h1.frame_prev hil).frame_prev hml
  · simp [update_of_ne him']
  · simp [update_of_ne hil']
  · have h1 := (hm.frame_prev (v := l.getLast?) him).retarget_entry hdm (some i)
    exact (h1.frame_next him).frame_next hlm

end Update

end Micron.Linked

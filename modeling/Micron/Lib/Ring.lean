import Mathlib.Data.List.GetD
import Mathlib.Data.List.ReduceOption
import Mathlib.Logic.Function.Iterate
import Mathlib.Tactic.Common

/-! # Queues in a ring of flagged slots

A bounded queue, and a ring that stores one: two indices run downwards through the slots,
and a flag in each slot tells whether it is taken. No count is kept.
-/
namespace Micron.Ring
open Function
variable {α : Type} {n : ℕ}

/-! ## Bounded queues -/

def push (n : ℕ) (q : List α) (a : α) : List α := if q.length < n then q ++ [a] else q

inductive Op (α : Type) where
  | push (a : α)
  | pop

def run (n : ℕ) : List (Op α) → List α × List (Option α) → List α × List (Option α)
  | [], r => r
  | .push a :: ops, (q,out) => run n ops (push n q a,out)
  | .pop :: ops, (q,out) => run n ops (q.tail,out ++ [q.head?])

def accepted (n : ℕ) : List (Op α) → List α → List α
  | [], _ => []
  | .push a :: ops, q => (if q.length < n then [a] else []) ++ accepted n ops (push n q a)
  | .pop :: ops, q => accepted n ops q.tail

/-- What was accepted comes out in the same order, and the rest of it is in the queue. -/
theorem run_conserves (ops : List (Op α)) (q : List α) (out : List (Option α)) :
    out.reduceOption ++ q ++ accepted n ops q = (run n ops (q,out)).2.reduceOption ++ (run n ops (q,out)).1 := by
  induction ops generalizing q out with
  | nil => rw [accepted,run,List.append_nil]
  | cons op ops ih =>
    cases op with
    | push a =>
      rw [accepted,run,← ih,push]
      split <;> simp
    | pop =>
      rw [accepted,run,← ih]
      cases q with
      | nil => simp [List.reduceOption_append]
      | cons a q => simp [List.reduceOption_append]

/-! ## Slots -/

def down (i : Fin n) : Fin n :=
  if 0 < i.val then ⟨i.val - 1,Nat.lt_of_le_of_lt (Nat.sub_le _ _) i.isLt⟩ else ⟨n - 1,Nat.sub_one_lt_of_lt i.isLt⟩

def nth (i : Fin n) (k : ℕ) : Fin n := down^[k] i

variable {i : Fin n} {k l : ℕ}

theorem nth_down (i : Fin n) (k : ℕ) : nth (down i) k = nth i (k + 1) := rfl

theorem nth_succ (i : Fin n) (k : ℕ) : nth i (k + 1) = down (nth i k) := iterate_succ_apply' down k i

theorem down_val : (down i).val = if 0 < i.val then i.val - 1 else n - 1 := by
  unfold down
  split <;> rfl

theorem nth_val (hk : k < n) : (nth i k).val = if k ≤ i.val then i.val - k else i.val + n - k := by
  induction k with
  | zero => simp [nth]
  | succ k ih =>
    rw [nth_succ,down_val,ih (by omega)]
    split_ifs <;> omega

theorem nth_inj (hk : k < n) (hl : l < n) (h : nth i k = nth i l) : k = l := by
  have hv := congrArg Fin.val h
  rw [nth_val hk,nth_val hl] at hv
  have hi := i.isLt
  split_ifs at hv <;> omega

/-- All the way round. -/
theorem nth_self : nth i n = i := by
  have hi := i.isLt
  obtain ⟨k,hk⟩ := Nat.exists_eq_succ_of_ne_zero (Nat.ne_of_gt i.pos)
  have hn : nth i n = nth i (k + 1) := congrArg (nth i) hk
  rw [hn,nth_succ]
  ext
  rw [down_val,nth_val (by omega)]
  split_ifs <;> omega

/-! ## Queues in a ring -/

/-- The ring holds the queue `q`: it starts at `tail`, and `head` is the slot behind it. -/
structure Holds (full : Fin n → Bool) (buf : Fin n → α) (head tail : Fin n) (q : List α) : Prop where
  length_le : q.length ≤ n
  head_eq : head = nth tail q.length
  data : ∀ k (h : k < q.length), buf (nth tail k) = q[k]
  flags : ∀ k < n, full (nth tail k) = decide (k < q.length)

variable {full : Fin n → Bool} {buf : Fin n → α} {head tail : Fin n} {q : List α} {a : α}

theorem Holds.full_tail (h : Holds full buf head tail q) : full tail = decide (q ≠ []) := by
  have hflag := h.flags 0 tail.pos
  rw [show full tail = full (nth tail 0) from rfl,hflag]
  exact decide_eq_decide.mpr List.length_pos_iff

/-- The slot for the next element is taken only if all are. -/
theorem Holds.full_head (h : Holds full buf head tail q) : full head = decide (q.length = n) := by
  rw [h.head_eq]
  rcases Nat.lt_or_eq_of_le h.length_le with hlt | heq
  · rw [h.flags _ hlt,decide_eq_false (Nat.lt_irrefl _),decide_eq_false (Nat.ne_of_lt hlt)]
  · have hpos := tail.pos
    rw [heq,nth_self,h.full_tail,decide_eq_true rfl,decide_eq_true]
    rintro rfl
    rw [List.length_nil] at heq
    omega

theorem Holds.push (h : Holds full buf head tail q) (hlt : q.length < n) (a : α) :
    Holds (update full head true) (update buf head a) (down head) tail (q ++ [a]) := by
  have hne : ∀ k < n, k ≠ q.length → nth tail k ≠ head := by
    intro k hk hkl he
    rw [h.head_eq] at he
    exact hkl (nth_inj hk hlt he)
  refine ⟨by rw [List.length_append,List.length_singleton]; omega,?_,?_,?_⟩
  · rw [List.length_append,List.length_singleton,nth_succ,← h.head_eq]
  · intro k hk
    rw [List.length_append,List.length_singleton] at hk
    rcases Nat.lt_or_eq_of_le (Nat.le_of_lt_succ hk) with hk | rfl
    · rw [update_of_ne (hne k (by omega) (by omega)),List.getElem_append_left hk]
      exact h.data k hk
    · rw [← h.head_eq,update_self,List.getElem_concat_length rfl]
  · intro k hk
    rw [List.length_append,List.length_singleton]
    by_cases hkl : k = q.length
    · rw [hkl,← h.head_eq,update_self,decide_eq_true (Nat.lt_succ_self _)]
    · rw [update_of_ne (hne k hk hkl),h.flags k hk]
      exact decide_eq_decide.mpr (by omega)

theorem Holds.pop (h : Holds full buf head tail (a :: q)) :
    buf tail = a ∧ Holds (update full tail false) buf head (down tail) q := by
  have hlen := h.length_le
  rw [List.length_cons] at hlen
  refine ⟨h.data 0 (Nat.succ_pos _),by omega,?_,?_,?_⟩
  · rw [nth_down]
    exact h.head_eq
  · intro k hk
    rw [nth_down]
    exact h.data (k + 1) (Nat.succ_lt_succ hk)
  · intro k hk
    rw [nth_down]
    rcases Nat.lt_or_eq_of_le hk with hk | rfl
    · have hne : nth tail (k + 1) ≠ tail := fun he => Nat.noConfusion (nth_inj hk tail.pos he)
      rw [update_of_ne hne,h.flags _ hk]
      exact decide_eq_decide.mpr (by rw [List.length_cons]; omega)
    · rw [nth_self,update_self,decide_eq_false (by omega)]

def content (full : Fin n → Bool) (buf : Fin n → α) (tail : Fin n) : List α :=
  ((List.range n).filter (fun k => full (nth tail k))).map (fun k => buf (nth tail k))

theorem Holds.content_eq (h : Holds full buf head tail q) : content full buf tail = q := by
  have hrange : (List.range n).filter (fun k => full (nth tail k)) = List.range q.length := by
    rw [List.filter_congr (fun k hk => h.flags k (List.mem_range.mp hk)),
      ← Nat.add_sub_of_le h.length_le,List.range_add,List.filter_append,List.filter_eq_self.mpr,
      List.filter_eq_nil_iff.mpr,List.append_nil]
    · simp
    · exact fun k hk => decide_eq_true (List.mem_range.mp hk)
  rw [content,hrange]
  refine List.ext_getElem (by simp) (fun k hk _ => ?_)
  simp only [List.length_map,List.length_range] at hk
  rw [List.getElem_map,List.getElem_range]
  exact h.data k hk

end Micron.Ring

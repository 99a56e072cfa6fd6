import Mathlib.Data.Nat.Notation
import Mathlib.Tactic.ByContra

/-! # Systems that take turns

At each time a schedule gives the turn to one of the actors. A turn that is not possible
leaves the state as it is.
-/
namespace Micron.Turns
variable {σ α : Type*} {step : σ → α → σ} {s : σ} {sched : ℕ → α}

def run (step : σ → α → σ) (s : σ) (sched : ℕ → α) : ℕ → σ
  | 0 => s
  | n + 1 => step (run step s sched n) (sched n)

theorem run_invariant {I : σ → Prop} (hstep : ∀ s a, I s → I (step s a)) (hs : I s) (n : ℕ) : I (run step s sched n) := by
  induction n with
  | zero => exact hs
  | succ n ih => exact hstep _ _ ih

/-- Every actor of `P` has its turn again and again. -/
def Fair (P : α → Prop) (sched : ℕ → α) : Prop := ∀ a, P a → ∀ n, ∃ k, n ≤ k ∧ sched k = a

/-- An actor that could change the state has its turn, unless the state changes before. -/
theorem exists_change {P : α → Prop} (hf : Fair P sched) {n : ℕ} {a : α} (ha : P a)
    (hgo : step (run step s sched n) a ≠ run step s sched n) :
    ∃ k, run step s sched k = run step s sched n ∧ run step s sched (k + 1) ≠ run step s sched k := by
  by_contra hno
  push Not at hno
  have hsame : ∀ k, run step s sched (n + k) = run step s sched n := by
    intro k
    induction k with
    | zero => rfl
    | succ k ih => exact (hno (n + k) ih).trans ih
  obtain ⟨k,hk,hka⟩ := hf a ha n
  obtain ⟨i,rfl⟩ := Nat.exists_eq_add_of_le hk
  have hstep := hno (n + i) (hsame i)
  rw [run,hka,hsame i] at hstep
  exact hgo hstep

/-- If every turn that changes the state lowers a measure, and some actor of `P` can change it
as long as the end is not reached, a fair schedule reaches the end. -/
theorem fair_reaches {P : α → Prop} {I Done : σ → Prop} (hstep : ∀ s a, I s → I (step s a)) (measure : σ → ℕ)
    (hlow : ∀ s a, I s → step s a ≠ s → measure (step s a) < measure s)
    (hgo : ∀ s, I s → ¬ Done s → ∃ a, P a ∧ step s a ≠ s) (hf : Fair P sched) (hs : I s) :
    ∃ n, Done (run step s sched n) := by
  have hall : ∀ m n, measure (run step s sched n) = m → ∃ n, Done (run step s sched n) := by
    intro m
    induction m using Nat.strongRecOn with
    | ind m ih =>
      intro n hn
      by_cases hd : Done (run step s sched n)
      · exact ⟨n,hd⟩
      · obtain ⟨a,ha,hne⟩ := hgo _ (run_invariant hstep hs n) hd
        obtain ⟨k,hk,hchange⟩ := exists_change hf ha hne
        have hlt := hlow _ _ (run_invariant hstep hs k) hchange
        exact ih _ (by rw [← hn,← hk]; exact hlt) (k + 1) rfl
  exact hall _ 0 rfl

/-- If no turn before the end raises a measure and those of one actor lower it, a schedule that
is fair to this actor reaches the end. -/
theorem fair_descends {a : α} {I Done : σ → Prop} (hstep : ∀ s a, I s → I (step s a)) (measure : σ → ℕ)
    (hle : ∀ s a, I s → ¬ Done s → measure (step s a) ≤ measure s)
    (hlow : ∀ s, I s → ¬ Done s → measure (step s a) < measure s) (hf : Fair (· = a) sched) (hs : I s) :
    ∃ n, Done (run step s sched n) := by
  by_contra hno
  push Not at hno
  have hmono : ∀ n k, measure (run step s sched (n + k)) ≤ measure (run step s sched n) := by
    intro n k
    induction k with
    | zero => exact Nat.le_refl _
    | succ k ih => exact Nat.le_trans (hle _ _ (run_invariant hstep hs (n + k)) (hno _)) ih
  have hall : ∀ m n, measure (run step s sched n) ≠ m := by
    intro m
    induction m using Nat.strongRecOn with
    | ind m ih =>
      rintro n rfl
      obtain ⟨k,hk,hka⟩ := hf a rfl n
      obtain ⟨i,rfl⟩ := Nat.exists_eq_add_of_le hk
      have hlt := hlow _ (run_invariant hstep hs (n + i)) (hno _)
      rw [← hka] at hlt
      exact ih _ (Nat.lt_of_lt_of_le hlt (hmono n i)) (n + i + 1) rfl
  exact hall _ 0 rfl

end Micron.Turns

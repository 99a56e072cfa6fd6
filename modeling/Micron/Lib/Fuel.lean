import Mathlib.Data.Nat.Notation

/-! # Computations in a number of steps

A loop that may not end is a function of the number of steps it is given. It settles on a
value if that is its result from some number of steps on.
-/
namespace Micron.Fuel
variable {α β : Type*} {f g : ℕ → Option α} {a b : α}

def Settles (f : ℕ → Option α) (a : α) : Prop := ∃ n, ∀ k, n ≤ k → f k = some a

theorem settles_const (a : α) : Settles (fun _ => some a) a := ⟨0,fun _ _ => rfl⟩

theorem Settles.congr (h : Settles f a) (hfg : ∀ k, g k = f k) : Settles g a := by
  obtain ⟨n,hn⟩ := h
  exact ⟨n,fun k hk => (hfg k).trans (hn k hk)⟩

/-- One more step than `f`. -/
theorem Settles.succ (h : Settles f a) (hfg : ∀ k, g (k + 1) = f k) : Settles g a := by
  obtain ⟨n,hn⟩ := h
  refine ⟨n + 1,fun k hk => ?_⟩
  obtain ⟨k,rfl⟩ := Nat.exists_eq_add_one.mpr (Nat.zero_lt_of_lt hk)
  rw [hfg]
  exact hn k (Nat.le_of_succ_le_succ hk)

theorem Settles.bind {h : ℕ → α → Option β} {c : β} (hf : Settles f a) (hh : Settles (fun k => h k a) c) :
    Settles (fun k => (f k).bind (h k)) c := by
  obtain ⟨n,hn⟩ := hf
  obtain ⟨l,hl⟩ := hh
  refine ⟨max n l,fun k hk => ?_⟩
  dsimp only
  rw [hn k (Nat.le_trans (Nat.le_max_left n l) hk),Option.bind_some]
  exact hl k (Nat.le_trans (Nat.le_max_right n l) hk)

theorem Settles.map (hf : Settles f a) (h : α → β) : Settles (fun k => (f k).map h) (h a) := by
  obtain ⟨n,hn⟩ := hf
  refine ⟨n,fun k hk => ?_⟩
  dsimp only
  rw [hn k hk,Option.map_some]

end Micron.Fuel

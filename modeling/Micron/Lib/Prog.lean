import Mathlib.Order.Basic

/-! # Programs over a state that only grows

A program runs from a state and ends with a value or stops early; either way it leaves
a state behind. The states are ordered, and a program carries the proof that it never
moves down. What is closed upwards in that order, such as a counter having reached its
limit, therefore needs no argument of its own when programs are composed.
-/
namespace Micron

structure Prog (ε σ : Type) [Preorder σ] (α : Type) where
  run : σ → Except ε α × σ
  grows : ∀ s, s ≤ (run s).2

namespace Prog
variable {ε σ α β : Type} [Preorder σ]

instance : Monad (Prog ε σ) where
  pure a := ⟨fun s => (.ok a,s),fun _ => le_rfl⟩
  bind p f :=
    { run := fun s => match p.run s with
        | (.ok a,t) => (f a).run t
        | (.error e,t) => (.error e,t)
      grows := by
        intro s
        have hp := p.grows s
        split <;> rename_i h <;> rw [h] at hp
        · exact hp.trans ((f _).grows _)
        · exact hp }

def get : Prog ε σ σ := ⟨fun s => (.ok s,s),fun _ => le_rfl⟩

def modify (f : σ → σ) (h : ∀ s, s ≤ f s) : Prog ε σ Unit := ⟨fun s => (.ok (),f s),h⟩

def stop (e : ε) : Prog ε σ α := ⟨fun s => (.error e,s),fun _ => le_rfl⟩

/-- One fallible step that leaves the state alone when it fails. -/
def step (f : σ → Except ε (α × σ)) (h : ∀ s a t, f s = .ok (a,t) → s ≤ t) : Prog ε σ α where
  run s := match f s with
    | .ok (a,t) => (.ok a,t)
    | .error e => (.error e,s)
  grows s := by
    split
    · exact h s _ _ ‹_›
    · exact le_rfl

/-! ## Weakest preconditions -/

/-- From `s`, `p` ends in a state with `Q`, or stops in a state with `X`. -/
def wp (p : Prog ε σ α) (Q : α → σ → Prop) (X : σ → Prop) (s : σ) : Prop :=
  match p.run s with
  | (.ok a,t) => Q a t
  | (.error _,t) => X t

variable {p : Prog ε σ α} {f : α → Prog ε σ β} {Q Q' : α → σ → Prop} {R : β → σ → Prop} {X X' : σ → Prop} {s t : σ}

@[simp] theorem wp_pure (a : α) : wp (pure a : Prog ε σ α) Q X s ↔ Q a s := Iff.rfl

@[simp] theorem wp_get {Q : σ → σ → Prop} : wp (get : Prog ε σ σ) Q X s ↔ Q s s := Iff.rfl

@[simp] theorem wp_modify {Q : Unit → σ → Prop} {g : σ → σ} {h : ∀ s, s ≤ g s} :
    wp (modify g h : Prog ε σ Unit) Q X s ↔ Q () (g s) := Iff.rfl

@[simp] theorem wp_stop (e : ε) : wp (stop e : Prog ε σ α) Q X s ↔ X s := Iff.rfl

theorem wp_step {g : σ → Except ε (α × σ)} {h : ∀ s a t, g s = .ok (a,t) → s ≤ t} :
    wp (step g h) Q X s ↔ match g s with
      | .ok (a,t) => Q a t
      | .error _ => X s := by
  simp only [wp,step]
  rcases g s with _ | ⟨a,t⟩ <;> rfl

@[simp] theorem wp_bind : wp (p >>= f) R X s ↔ wp p (fun a t => wp (f a) R X t) X s := by
  simp only [wp,bind]
  rcases p.run s with ⟨_ | a,t⟩ <;> rfl

theorem wp.mono (h : wp p Q X s) (hQ : ∀ a t, s ≤ t → Q a t → Q' a t) (hX : ∀ t, s ≤ t → X t → X' t) :
    wp p Q' X' s := by
  have hg := p.grows s
  unfold wp at h ⊢
  split <;> rename_i hr <;> rw [hr] at h hg
  · exact hQ _ _ hg h
  · exact hX _ hg h

theorem wp_true : wp p (fun _ _ => True) (fun _ => True) s := by
  unfold wp
  split <;> trivial

/-- Whatever the first part does. -/
theorem wp_bind_any (h : ∀ a t, wp (f a) R (fun _ => True) t) : wp (p >>= f) R (fun _ => True) s := by
  rw [wp_bind]
  exact wp.mono wp_true (fun a t _ _ => h a t) (fun _ _ _ => trivial)

/-- What holds in the end and after a stop holds of the state left behind. -/
theorem wp.left (h : wp p (fun _ t => X t) X s) : X (p.run s).2 := by
  unfold wp at h
  split at h <;> rename_i hr <;> rw [hr] <;> exact h

theorem wp_of_run {a : α} (h : p.run s = (.ok a,t)) (hQ : Q a t) : wp p Q X s := by
  simpa only [wp,h]

theorem wp.of_run {a : α} (h : wp p Q X s) (hr : p.run s = (.ok a,t)) : Q a t := by
  simpa only [wp,hr] using h

theorem wp.run (h : wp p Q (fun _ => False) s) : ∃ a t, p.run s = (.ok a,t) ∧ Q a t := by
  unfold wp at h
  split at h
  · exact ⟨_,_,‹_›,h⟩
  · exact h.elim

theorem run_bind {a : α} (h : p.run s = (.ok a,t)) : (p >>= f).run s = (f a).run t := by
  simp only [bind,h]

theorem run_bind_error {e : ε} (h : p.run s = (.error e,t)) : (p >>= f).run s = (.error e,t) := by
  simp only [bind,h]

theorem le_run_bind : (p.run s).2 ≤ ((p >>= f).run s).2 := by
  simp only [bind]
  split <;> rename_i hr <;> rw [hr]
  exact (f _).grows _

theorem of_run_bind {b : β} (h : (p >>= f).run s = (.ok b,t)) :
    ∃ a u, p.run s = (.ok a,u) ∧ (f a).run u = (.ok b,t) := by
  simp only [bind] at h
  split at h <;> rename_i hr
  · exact ⟨_,_,hr,h⟩
  · cases h

/-! ## Correctness up to a limit -/

/-- From `s`, `p` ends in a state with `Q` unless it reaches a state with `X`. -/
def Ends (X : σ → Prop) (p : Prog ε σ α) (Q : α → σ → Prop) (s : σ) : Prop :=
  wp p (fun a t => X t ∨ Q a t) X s

theorem Ends.of_wp (h : wp p Q (fun _ => False) s) : Ends X p Q s :=
  h.mono (fun _ _ _ => Or.inr) (fun _ _ => False.elim)

theorem Ends.mono (h : Ends X p Q s) (hQ : ∀ a t, s ≤ t → Q a t → Q' a t) : Ends X p Q' s :=
  wp.mono h (fun a t hst => Or.imp_right (hQ a t hst)) (fun _ _ hx => hx)

theorem Ends.of_limit (hX : ∀ s t, s ≤ t → X s → X t) (h : X s) : Ends X p Q s := by
  have hg := p.grows s
  unfold Ends wp
  split <;> rename_i hr <;> rw [hr] at hg
  · exact Or.inl (hX _ _ hg h)
  · exact hX _ _ hg h

theorem Ends.bind (hX : ∀ s t, s ≤ t → X s → X t) (h : Ends X p Q s)
    (hf : ∀ a t, s ≤ t → Q a t → Ends X (f a) R t) : Ends X (p >>= f) R s := by
  unfold Ends
  rw [wp_bind]
  refine wp.mono h (fun a t hst hq => ?_) (fun _ _ hx => hx)
  rcases hq with hx | hq
  · exact Ends.of_limit hX hx
  · exact hf a t hst hq

theorem Ends.run (h : Ends X p Q s) (hX : ¬ X (p.run s).2) : ∃ a t, p.run s = (.ok a,t) ∧ Q a t := by
  unfold Ends wp at h
  split at h <;> rename_i hr <;> rw [hr] at hX
  · exact ⟨_,_,hr,h.resolve_left hX⟩
  · exact absurd h hX

/-! ## Results by the reason of a stop -/

/-- From `s`, `p` ends in a state with `Q`, or stops for a reason with `F`. -/
def Yields (p : Prog ε σ α) (Q : α → σ → Prop) (F : ε → Prop) (s : σ) : Prop :=
  match p.run s with
  | (.ok a,t) => Q a t
  | (.error e,_) => F e

section Yields
variable {F F' : ε → Prop}

theorem Yields.mono (h : Yields p Q F s) (hQ : ∀ a t, Q a t → Q' a t) (hF : ∀ e, F e → F' e) : Yields p Q' F' s := by
  unfold Yields at h ⊢
  split <;> rename_i hr <;> rw [hr] at h
  · exact hQ _ _ h
  · exact hF _ h

theorem Yields.bind (h : Yields p (fun a t => Yields (f a) R F t) F s) : Yields (p >>= f) R F s := by
  simp only [Yields,Bind.bind] at h ⊢
  rcases hr : p.run s with ⟨_ | a,t⟩ <;> rw [hr] at h <;> exact h

theorem wp.yields (h : wp p Q (fun _ => False) s) : Yields p Q F s := by
  obtain ⟨a,t,hr,hq⟩ := h.run
  simpa only [Yields,hr]

theorem wp.yields_bind (h : wp p (fun a t => Yields (f a) R F t) (fun _ => False) s) : Yields (p >>= f) R F s :=
  h.yields.bind

end Yields

/-! ## What a program leaves alone -/

/-- However `p` ends, it leaves `g` of the state as it was. -/
def Fixes {τ : Type} (g : σ → τ) (p : Prog ε σ α) : Prop := ∀ s, g (p.run s).2 = g s

section Fixes
variable {τ : Type} {g : σ → τ}

theorem fixes_pure (a : α) : Fixes g (pure a : Prog ε σ α) := fun _ => rfl

theorem fixes_get : Fixes g (get : Prog ε σ σ) := fun _ => rfl

theorem fixes_stop (e : ε) : Fixes g (stop e : Prog ε σ α) := fun _ => rfl

theorem fixes_modify {k : σ → σ} {h : ∀ s, s ≤ k s} (hk : ∀ s, g (k s) = g s) :
    Fixes g (modify k h : Prog ε σ Unit) := hk

theorem fixes_step {k : σ → Except ε (α × σ)} {h : ∀ s a t, k s = .ok (a,t) → s ≤ t}
    (hk : ∀ s a t, k s = .ok (a,t) → g t = g s) : Fixes g (step k h) := by
  intro s
  simp only [step]
  split
  · exact hk s _ _ ‹_›
  · rfl

theorem Fixes.bind (h : Fixes g p) (hf : ∀ a, Fixes g (f a)) : Fixes g (p >>= f) := by
  intro s
  have hp := h s
  simp only [Bind.bind]
  split <;> rename_i hr <;> rw [hr] at hp
  · exact (hf _ _).trans hp
  · exact hp

theorem Fixes.ite {c : Prop} [Decidable c] {q : Prog ε σ α} (h : Fixes g p) (hq : Fixes g q) :
    Fixes g (if c then p else q) := by
  split
  · exact h
  · exact hq

theorem wp.fixes (h : wp p Q X s) (hg : Fixes g p) : wp p (fun a t => Q a t ∧ g t = g s) X s := by
  have ht := hg s
  unfold wp at h ⊢
  split <;> rename_i hr <;> rw [hr] at h ht
  · exact ⟨h,ht⟩
  · exact h

theorem Ends.fixes (h : Ends X p Q s) (hg : Fixes g p) : Ends X p (fun a t => Q a t ∧ g t = g s) s :=
  wp.mono (wp.fixes h hg) (fun _ _ _ ht => ht.1.imp_right (fun hq => ⟨hq,ht.2⟩)) (fun _ _ hx => hx)

/-- A first part that leaves `g` alone, whatever else it does. -/
theorem Fixes.wp_bind (hg : Fixes g p) (hf : ∀ a t, g t = g s → wp (f a) R (fun _ => True) t) :
    wp (p >>= f) R (fun _ => True) s := by
  rw [Prog.wp_bind]
  exact wp.mono (wp_true.fixes hg) (fun a t _ ht => hf a t ht.2) (fun _ _ _ => trivial)

end Fixes

/-! ## Relations between the states before and after -/

/-- However `p` ends, `R` relates the state before to the one it leaves behind; `Q` holds if
it returns. -/
def Relates (R : σ → σ → Prop) (p : Prog ε σ α) (Q : α → σ → Prop) (s : σ) : Prop :=
  wp p (fun a t => R s t ∧ Q a t) (R s) s

section Relates
variable {R : σ → σ → Prop} {Q' : β → σ → Prop}

theorem Relates.bind (hR : ∀ {s t u}, R s t → R t u → R s u) (h : Relates R p Q s)
    (hf : ∀ a t, s ≤ t → R s t → Q a t → Relates R (f a) Q' t) : Relates R (p >>= f) Q' s := by
  unfold Relates
  rw [wp_bind]
  refine wp.mono h (fun a t hst hq => ?_) (fun _ _ hx => hx)
  exact wp.mono (hf a t hst hq.1 hq.2) (fun b u _ hr => ⟨hR hq.1 hr.1,hr.2⟩) (fun u _ hr => hR hq.1 hr)

theorem Relates.mono {Q' : α → σ → Prop} (h : Relates R p Q s) (hQ : ∀ a t, s ≤ t → R s t → Q a t → Q' a t) :
    Relates R p Q' s :=
  wp.mono h (fun a t hst hq => ⟨hq.1,hQ a t hst hq.1 hq.2⟩) (fun _ _ hx => hx)

theorem Relates.ite {c : Prop} [Decidable c] {q : Prog ε σ α} (h : c → Relates R p Q s) (h' : ¬ c → Relates R q Q s) :
    Relates R (if c then p else q) Q s := by
  split
  · exact h ‹_›
  · exact h' ‹_›

theorem relates_pure {a : α} (h : R s s) (hQ : Q a s) : Relates R (pure a : Prog ε σ α) Q s := ⟨h,hQ⟩

theorem relates_stop (h : R s s) (e : ε) : Relates R (stop e : Prog ε σ α) Q s := h

theorem relates_assoc {γ : Type} {f : α → Prog ε σ β} {k : β → Prog ε σ γ} {Q' : γ → σ → Prop} :
    Relates R (p >>= f >>= k) Q' s ↔ Relates R (p >>= fun a => f a >>= k) Q' s := by
  simp only [Relates,wp_bind]

theorem Relates.of_fixes {τ : Type} {g : σ → τ} (h : Fixes g p) (hR : ∀ t, g t = g s → R s t) :
    Relates R p (fun _ t => g t = g s) s := by
  have ht := h s
  unfold Relates wp
  split <;> rename_i hr <;> rw [hr] at ht
  · exact ⟨hR _ ht,ht⟩
  · exact hR _ ht

end Relates

end Prog
end Micron

import Mathlib.Data.List.Induction

/-! # Runs of a fallible step function

A run is a list of events folded from a start state; it fails as soon as one step
does. The rules below reduce a statement about every run to one about a single step.
-/
namespace Micron.Runs
variable {σ ε : Type*} {step : σ → ε → Option σ} {Ok : σ → ε → Prop} {s t : σ}

/-- Every step of the run of `es` from `s` starts in a state that admits its event. -/
def AllSteps (step : σ → ε → Option σ) (Ok : σ → ε → Prop) (s : σ) (es : List ε) : Prop :=
  ∀ pre e t, pre ++ [e] <+: es → pre.foldlM step s = some t → Ok t e

theorem AllSteps.mono {es pre : List ε} (h : AllSteps step Ok s es) (hp : pre <+: es) :
    AllSteps step Ok s pre :=
  fun q e t hq => h q e t (hq.trans hp)

theorem allSteps_nil : AllSteps step Ok s [] := fun pre e _ hp => absurd (List.prefix_nil.mp hp) (by simp)

theorem allSteps_cons {es : List ε} {e : ε} (h : Ok s e) (hes : ∀ t, step s e = some t → AllSteps step Ok t es) :
    AllSteps step Ok s (e :: es) := by
  intro pre e' t hp ht
  cases pre with
  | nil =>
    obtain rfl : s = t := Option.some.inj ht
    obtain ⟨rfl,-⟩ := List.cons_prefix_cons.mp hp
    exact h
  | cons a pre =>
    obtain ⟨rfl,hpre⟩ := List.cons_prefix_cons.mp hp
    obtain ⟨u,hu,ht⟩ := Option.bind_eq_some_iff.mp ht
    exact hes u hu pre e' t hpre ht

theorem AllSteps.head {es : List ε} {e : ε} (h : AllSteps step Ok s (e :: es)) : Ok s e :=
  h [] e s (by simp) rfl

theorem AllSteps.tail {es : List ε} {e : ε} (h : AllSteps step Ok s (e :: es)) (ht : step s e = some t) :
    AllSteps step Ok t es :=
  fun pre e' u hp hu => h (e :: pre) e' u (List.cons_prefix_cons.mpr ⟨rfl,hp⟩) (by rw [List.foldlM_cons,ht]; exact hu)

theorem AllSteps.append {es es' : List ε} (h : AllSteps step Ok s es)
    (h' : ∀ t, es.foldlM step s = some t → AllSteps step Ok t es') : AllSteps step Ok s (es ++ es') := by
  induction es generalizing s with
  | nil => exact h' s rfl
  | cons e es ih =>
    refine allSteps_cons h.head (fun t ht => ih (h.tail ht) (fun u hu => h' u ?_))
    rw [List.foldlM_cons,ht]
    exact hu

/-- A test of every step of a run. -/
def testSteps (step : σ → ε → Option σ) (test : σ → ε → Bool) : σ → List ε → Bool
  | _, [] => true
  | s, e :: es => test s e && (step s e).elim true (fun t => testSteps step test t es)

theorem allSteps_of_test {test : σ → ε → Bool} (htest : ∀ s e, test s e = true → Ok s e) {es : List ε}
    (h : testSteps step test s es = true) : AllSteps step Ok s es := by
  induction es generalizing s with
  | nil => exact allSteps_nil
  | cons e es ih =>
    obtain ⟨he,hes⟩ := Bool.and_eq_true_iff.mp h
    refine allSteps_cons (htest s e he) (fun t ht => ih ?_)
    rwa [ht] at hes

theorem foldlM_concat {es : List ε} {e : ε} :
    (es ++ [e]).foldlM step s = (es.foldlM step s).bind (fun t => step t e) := by
  cases h : es.foldlM step s <;> simp [List.foldlM_append,h]

theorem prefix_concat_cases {α : Type*} {l pre : List α} {x c : α} (h : pre ++ [c] <+: l ++ [x]) :
    pre ++ [c] <+: l ∨ pre = l ∧ c = x := by
  rcases List.prefix_concat_iff.mp h with he | hp
  · obtain ⟨rfl,hc⟩ := List.append_inj' he rfl
    exact Or.inr ⟨rfl,List.singleton_inj.mp hc⟩
  · exact Or.inl hp

theorem forall_prefix_cons {α : Type*} {P : List α → α → Prop} {a : α} {l : List α} :
    (∀ pre c, pre ++ [c] <+: a :: l → P pre c) ↔ P [] a ∧ ∀ pre c, pre ++ [c] <+: l → P (a :: pre) c := by
  constructor
  · exact fun h => ⟨h [] a (by simp),fun pre c hp => h (a :: pre) c (List.cons_prefix_cons.mpr ⟨rfl,hp⟩)⟩
  · rintro ⟨ha,hl⟩ pre c hp
    cases pre with
    | nil =>
      obtain ⟨rfl,-⟩ := List.cons_prefix_cons.mp hp
      exact ha
    | cons b pre =>
      obtain ⟨rfl,hpre⟩ := List.cons_prefix_cons.mp hp
      exact hl pre c hpre

/-- What every successful step keeps holds after a successful run. -/
theorem run_inv {P : List ε → σ → Prop} {es : List ε} (hs : P [] s)
    (hstep : ∀ pre s e t, pre ++ [e] <+: es → P pre s → step s e = some t → P (pre ++ [e]) t)
    (h : es.foldlM step s = some t) : P es t := by
  induction es using List.reverseRecOn generalizing t with
  | nil =>
    obtain rfl : s = t := Option.some.inj h
    exact hs
  | append_singleton es e ih =>
    rw [foldlM_concat] at h
    obtain ⟨u,hu,ht⟩ := Option.bind_eq_some_iff.mp h
    have hu' := ih (fun pre s e' t hp => hstep pre s e' t (hp.trans (List.prefix_append es [e]))) hu
    exact hstep es u e t (List.prefix_refl _) hu' ht

/-- Steps that succeed and keep `P`, a property of the events so far and the state they
led to, make the whole run succeed and keep `P`. -/
theorem run_total {P : List ε → σ → Prop} (es : List ε) (hs : P [] s) (hok : AllSteps step Ok s es)
    (hstep : ∀ pre s, ∀ e ∈ es, P pre s → Ok s e → ∃ t, step s e = some t ∧ P (pre ++ [e]) t) :
    ∃ t, es.foldlM step s = some t ∧ P es t := by
  induction es using List.reverseRecOn with
  | nil => exact ⟨s,rfl,hs⟩
  | append_singleton es e ih =>
    obtain ⟨t,ht,hP⟩ := ih (hok.mono (List.prefix_append es [e]))
      (fun pre s e' he' => hstep pre s e' (List.mem_append_left [e] he'))
    obtain ⟨u,hu,hu'⟩ := hstep es t e (by simp) hP (hok es e t (List.prefix_refl _) ht)
    exact ⟨u,by simp [ht,hu],hu'⟩

/-- What every admitted step keeps holds after a run of admitted steps. -/
theorem AllSteps.run_inv {Q : σ → Prop} {es : List ε} (hok : AllSteps step Ok s es) (hs : Q s)
    (hstep : ∀ s e t, Q s → Ok s e → step s e = some t → Q t) (h : es.foldlM step s = some t) : Q t := by
  have hrun := Runs.run_inv (P := fun pre t => pre.foldlM step s = some t ∧ Q t) ⟨rfl,hs⟩
    (fun pre u e v hp hu hv => ⟨by rw [foldlM_concat,hu.1]; exact hv,
      hstep u e v hu.2 (hok pre e u hp hu.1) hv⟩) h
  exact hrun.2

/-- Two conditions on steps that agree in the states of a run hold along it together. -/
theorem AllSteps.congr {Q : σ → Prop} {A B : σ → ε → Prop} {es : List ε} (hok : AllSteps step Ok s es) (hs : Q s)
    (hstep : ∀ s e t, Q s → Ok s e → step s e = some t → Q t) (hiff : ∀ s e, Q s → Ok s e → (A s e ↔ B s e)) :
    AllSteps step A s es ↔ AllSteps step B s es := by
  have hagree : ∀ pre e t, pre ++ [e] <+: es → pre.foldlM step s = some t → (A t e ↔ B t e) := by
    intro pre e t hp ht
    have hpre : pre <+: es := (List.prefix_append pre [e]).trans hp
    exact hiff t e ((hok.mono hpre).run_inv hs hstep ht) (hok pre e t hp ht)
  exact ⟨fun h pre e t hp ht => (hagree pre e t hp ht).mp (h pre e t hp ht),
    fun h pre e t hp ht => (hagree pre e t hp ht).mpr (h pre e t hp ht)⟩

section Maps
variable {τ : Type*} {step' : τ → ε → Option τ} {φ : σ → τ} (hφ : ∀ s e, (step s e).map φ = step' (φ s) e)
include hφ

/-- A map that commutes with a step commutes with a run. -/
theorem map_foldlM (es : List ε) (s : σ) : (es.foldlM step s).map φ = es.foldlM step' (φ s) := by
  induction es generalizing s with
  | nil => rfl
  | cons e es ih =>
    rw [List.foldlM_cons,List.foldlM_cons,← hφ]
    cases h : step s e with
    | none => rfl
    | some t => exact ih t

theorem AllSteps.map_iff {A : σ → ε → Prop} {B : τ → ε → Prop} {es : List ε} (hAB : ∀ s e, A s e ↔ B (φ s) e) :
    AllSteps step A s es ↔ AllSteps step' B (φ s) es := by
  constructor
  · intro h pre e t' hp ht
    rw [← map_foldlM hφ] at ht
    obtain ⟨t,hrun,rfl⟩ := Option.map_eq_some_iff.mp ht
    exact (hAB t e).mp (h pre e t hp hrun)
  · intro h pre e t hp ht
    refine (hAB t e).mpr (h pre e (φ t) hp ?_)
    rw [← map_foldlM hφ,ht]
    rfl

end Maps

/-! ## Runs that stop with an error -/

section Stops
variable {β : Type*} {step : σ → ε → Except β σ} {P : List ε → σ → Prop} {bad : β}

theorem bind_eq_ok {τ υ : Type} {x : Except β τ} {f : τ → Except β υ} {b : υ} :
    x >>= f = .ok b ↔ ∃ a, x = .ok a ∧ f a = .ok b := by
  cases x with
  | error e => exact ⟨nofun,fun ⟨_,ha,_⟩ => nomatch ha⟩
  | ok a => exact ⟨fun h => ⟨a,rfl,h⟩,fun ⟨_,ha,h⟩ => Except.ok.inj ha ▸ h⟩

theorem foldlM_concat_except {es : List ε} {e : ε} :
    (es ++ [e]).foldlM step s = es.foldlM step s >>= fun t => step t e := by
  simp [List.foldlM_append]

variable (hs : P [] s) (hstep : ∀ pre s e t, P pre s → step s e = .ok t → P (pre ++ [e]) t)
include hs hstep

theorem except_inv {es : List ε} (h : es.foldlM step s = .ok t) : P es t := by
  induction es using List.reverseRecOn generalizing t with
  | nil =>
    obtain rfl : s = t := Except.ok.inj h
    exact hs
  | append_singleton es e ih =>
    rw [foldlM_concat_except] at h
    cases hu : es.foldlM step s with
    | error b =>
      rw [hu] at h
      exact absurd h nofun
    | ok u =>
      rw [hu] at h
      exact hstep es u e t (ih hu) h

/-- Where a step stops with `bad` exactly if it is not admitted, so does the run. -/
theorem ne_error_iff {Ok : List ε → σ → ε → Prop} (hok : ∀ pre s e, P pre s → Ok pre s e → step s e ≠ .error bad)
    (hbad : ∀ pre s e, P pre s → ¬ Ok pre s e → step s e = .error bad) {es : List ε} :
    es.foldlM step s ≠ .error bad ↔ ∀ pre e t, pre ++ [e] <+: es → pre.foldlM step s = .ok t → Ok pre t e := by
  induction es using List.reverseRecOn with
  | nil => exact ⟨fun _ pre e t hp => absurd (List.prefix_nil.mp hp) (by simp),fun _ => nofun⟩
  | append_singleton es e ih =>
    rw [foldlM_concat_except]
    constructor
    · intro h pre e' t hp ht
      rcases prefix_concat_cases hp with hp | ⟨rfl,rfl⟩
      · refine ih.mp (fun hb => h ?_) pre e' t hp ht
        rw [hb]
        rfl
      · by_contra hno
        refine h ?_
        rw [ht]
        exact hbad pre t e' (except_inv hs hstep ht) hno
    · intro h
      have hes := ih.mpr (fun pre e' t hp => h pre e' t (hp.trans (List.prefix_append es [e])))
      cases hu : es.foldlM step s with
      | error b =>
        rw [hu] at hes
        exact hes
      | ok u => exact hok es u e (except_inv hs hstep hu) (h es e u (List.prefix_refl _) hu)

theorem ne_error (hok : ∀ pre s e, P pre s → step s e ≠ .error bad) {es : List ε} : es.foldlM step s ≠ .error bad :=
  (ne_error_iff hs hstep (fun pre s e h _ => hok pre s e h)
    (fun _ _ _ _ h => absurd trivial h)).mpr (fun _ _ _ _ _ => trivial)

end Stops

end Micron.Runs

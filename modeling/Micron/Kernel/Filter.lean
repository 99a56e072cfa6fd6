import Mathlib.Data.List.Induction
import Mathlib.Logic.Function.Basic

/-! # Exception filters

Registrations lie on the stacks of the functions with a `_try` block and are linked
through `pre`, the innermost first. `filter_fill_regs` takes one spent registration off
and directs control to the one below it. A run is any sequence of entered blocks,
blocks left and exceptions.
-/
namespace Micron.Kernel.Filter
open Function

abbrev Addr := UInt32

structure XcptReg where
  pre : Option Addr
  handler : UInt32
  ebp : UInt32
  esp : UInt32
  ret_addr : UInt32
  fired : Bool
deriving DecidableEq, Repr

structure Regs where
  ebp : UInt32
  eip : UInt32
deriving DecidableEq, Repr

structure State where
  cur : Option Addr
  reg : Addr → XcptReg

variable {s t : State} {p q : Addr} {r : Regs}

def boot (mem : Addr → XcptReg) : State := ⟨none,mem⟩

def xcptPushFilter (p : Addr) (s : State) : State :=
  ⟨some p,update s.reg p { s.reg p with pre := s.cur, fired := false }⟩

def xcptPopFilter (s : State) : State × UInt32 :=
  match s.cur with
  | some p => (⟨(s.reg p).pre,s.reg⟩,(s.reg p).ret_addr)
  | none => (s,0)

def dropSpent (s : State) : State :=
  match s.cur with
  | some p => if (s.reg p).fired then (xcptPopFilter s).1 else s
  | none => s

def filterFillRegs (r : Regs) (s : State) : State × Regs × Bool :=
  let t := dropSpent s
  match t.cur with
  | some p => (⟨t.cur,update t.reg p { t.reg p with fired := true }⟩,⟨(t.reg p).ebp,(t.reg p).handler⟩,true)
  | none => (t,r,false)

/-! ## Runs -/

structure Block where
  handler : UInt32
  ebp : UInt32
  esp : UInt32
  ret_addr : UInt32

inductive Event
  | push (p : Addr) (b : Block)
  | pop
  | except (r : Regs)

def step (s : State) : Event → State
  | .push p b => xcptPushFilter p
      { s with reg := update s.reg p ⟨(s.reg p).pre,b.handler,b.ebp,b.esp,b.ret_addr,(s.reg p).fired⟩ }
  | .pop => (xcptPopFilter s).1
  | .except r => (filterFillRegs r s).1

def run (s : State) (es : List Event) : State := es.foldl step s

variable {es : List Event} {e : Event}

theorem run_concat : run s (es ++ [e]) = step (run s es) e := by
  simp [run]

/-- The registration that an exception in `s` sends control to. -/
def target (s : State) : Option Addr := (dropSpent s).cur

def Spent (s : State) (es : List Event) (p : Addr) : Prop :=
  ∃ a r b, es = a ++ .except r :: b ∧ target (run s a) = some p ∧ ∀ v, .push p v ∉ b

def State.nth (s : State) : ℕ → Option Addr
  | 0 => s.cur
  | n + 1 => (s.nth n).bind (fun p => (s.reg p).pre)

/-- An exception after `es` goes to the innermost registration that is not spent, and is
unhandled if there is none. -/
def WellSent (s : State) (es : List Event) (r : Regs) : Prop :=
  match filterFillRegs r (run s es) with
  | (t,r',true) => ∃ n p, (run s es).nth n = some p ∧ ¬ Spent s es p ∧
      (∀ m < n, ∀ q, (run s es).nth m = some q → Spent s es q) ∧
      t.cur = some p ∧ r' = ⟨((run s es).reg p).ebp,((run s es).reg p).handler⟩
  | (_,_,false) => ∀ n p, (run s es).nth n = some p → Spent s es p

/-- The current registration and the one below it have both fired. -/
def TwoFired (s : State) : Prop :=
  ∃ p q, s.cur = some p ∧ (s.reg p).fired ∧ (s.reg p).pre = some q ∧ (s.reg q).fired

theorem spent_concat : Spent s (es ++ [e]) p ↔
    (∃ r, e = .except r) ∧ target (run s es) = some p ∨ Spent s es p ∧ ∀ v, e ≠ .push p v := by
  constructor
  · rintro ⟨a,r,b,he,ht,hb⟩
    rcases List.eq_nil_or_concat b with rfl | ⟨b,x,rfl⟩
    · obtain ⟨rfl,hx⟩ := List.append_inj' he rfl
      exact Or.inl ⟨⟨r,List.singleton_inj.mp hx⟩,ht⟩
    · rw [List.concat_eq_append,← List.cons_append,← List.append_assoc] at he
      obtain ⟨rfl,hx⟩ := List.append_inj' he rfl
      obtain rfl := List.singleton_inj.mp hx
      refine Or.inr ⟨⟨a,r,b,rfl,ht,fun v hv => hb v (by simp [hv])⟩,?_⟩
      rintro v rfl
      exact hb v (by simp)
  · rintro (⟨⟨r,rfl⟩,ht⟩ | ⟨⟨a,r,b,rfl,ht,hb⟩,hne⟩)
    · exact ⟨es,r,[],rfl,ht,fun _ => List.not_mem_nil⟩
    · refine ⟨a,r,b ++ [e],by simp,ht,fun v hv => ?_⟩
      rcases List.mem_append.mp hv with hv | hv
      · exact hb v hv
      · exact hne v (List.mem_singleton.mp hv).symm

/-! ## The flags record what happened -/

theorem dropSpent_reg : (dropSpent s).reg = s.reg := by
  rw [dropSpent]
  split
  · rename_i p hp
    split
    · simp [xcptPopFilter,hp]
    · rfl
  · rfl

theorem filterFillRegs_some (h : target s = some p) : filterFillRegs r s =
    (⟨some p,update s.reg p { s.reg p with fired := true }⟩,⟨(s.reg p).ebp,(s.reg p).handler⟩,true) := by
  rw [target] at h
  simp only [filterFillRegs,h,dropSpent_reg]

theorem filterFillRegs_none (h : target s = none) : filterFillRegs r s = (⟨none,s.reg⟩,r,false) := by
  rw [target] at h
  simp only [filterFillRegs,h]
  rw [← dropSpent_reg (s := s),← h]

theorem target_none (h : s.cur = none) : target s = none := by
  simp [target,dropSpent,h]

theorem target_unfired (h : s.cur = some p) (hf : ¬ (s.reg p).fired) : target s = some p := by
  simp [target,dropSpent,h,hf]

theorem target_fired (h : s.cur = some p) (hf : (s.reg p).fired) : target s = (s.reg p).pre := by
  simp [target,dropSpent,xcptPopFilter,h,hf]

/-- The registrations in force were pushed, and their flags say which of them are spent. -/
structure Recorded (s : State) (es : List Event) : Prop where
  cur : ∀ p, (run s es).cur = some p → ∃ b, .push p b ∈ es
  pre : ∀ p b q, .push p b ∈ es → ((run s es).reg p).pre = some q → ∃ b, .push q b ∈ es
  fired : ∀ p b, .push p b ∈ es → (((run s es).reg p).fired ↔ Spent s es p)

theorem Recorded.target (h : Recorded s es) (ht : target (run s es) = some p) : ∃ b, .push p b ∈ es := by
  cases hc : (run s es).cur with
  | none => simp [target_none hc] at ht
  | some q =>
    by_cases hf : ((run s es).reg q).fired
    · obtain ⟨b,hb⟩ := h.cur q hc
      exact h.pre q b p hb (target_fired hc hf ▸ ht)
    · rw [target_unfired hc hf,← hc] at ht
      exact h.cur p ht

theorem Recorded.nth (h : Recorded s es) {n : ℕ} (hn : (run s es).nth n = some p) : ∃ b, .push p b ∈ es := by
  induction n generalizing p with
  | zero => exact h.cur p hn
  | succ n ih =>
    obtain ⟨q,hq,hp⟩ := Option.bind_eq_some_iff.mp hn
    obtain ⟨b,hb⟩ := ih hq
    exact h.pre q b p hb hp

theorem step_push {b : Block} : step s (.push p b) =
    ⟨some p,update s.reg p ⟨s.cur,b.handler,b.ebp,b.esp,b.ret_addr,false⟩⟩ := by
  simp [step,xcptPushFilter]

theorem step_pop : step s .pop = ⟨s.cur.bind (fun p => (s.reg p).pre),s.reg⟩ := by
  rw [step,xcptPopFilter]
  split
  · rename_i p hp
    simp [hp]
  · rename_i hp
    rw [hp,Option.bind_none,← hp]

theorem step_except : step s (.except r) =
    ⟨target s,fun q => { s.reg q with fired := (s.reg q).fired || decide (target s = some q) }⟩ := by
  cases ht : target s with
  | none => simp [step,filterFillRegs_none ht]
  | some p =>
    rw [step,filterFillRegs_some ht,State.mk.injEq]
    refine ⟨rfl,?_⟩
    funext q
    by_cases hq : q = p
    · simp [hq]
    · simp [hq,Ne.symm hq]

theorem Recorded.concat (h : Recorded s es) : Recorded s (es ++ [e]) := by
  cases e with
  | push p v =>
    have hmem : ∀ q b, .push q b ∈ es ++ [.push p v] → q ≠ p → .push q b ∈ es := by
      intro q b hq hne
      rcases List.mem_append.mp hq with hq | hq
      · exact hq
      · exact absurd (Event.push.inj (List.mem_singleton.mp hq)).1 hne
    have hkeep : ∀ q, (∃ b, .push q b ∈ es) → ∃ b, .push q b ∈ es ++ [.push p v] :=
      fun q ⟨b,hb⟩ => ⟨b,List.mem_append_left _ hb⟩
    refine ⟨?_,?_,?_⟩
    · intro q hq
      rw [run_concat,step_push] at hq
      obtain rfl := Option.some.inj hq
      exact ⟨v,by simp⟩
    · intro q b q' hq hpre
      rw [run_concat,step_push] at hpre
      by_cases hqp : q = p
      · simp only [hqp,update_self] at hpre
        exact hkeep q' (h.cur q' hpre)
      · simp only [update_of_ne hqp] at hpre
        exact hkeep q' (h.pre q b q' (hmem q b hq hqp) hpre)
    · intro q b hq
      rw [run_concat,step_push,spent_concat]
      by_cases hqp : q = p
      · simp [hqp]
      · simp [hqp,Ne.symm hqp,h.fired q b (hmem q b hq hqp)]
  | pop =>
    have hmem : ∀ q b, .push q b ∈ es ++ [.pop] ↔ .push q b ∈ es := by simp
    refine ⟨?_,?_,?_⟩
    · intro q hq
      rw [run_concat,step_pop] at hq
      obtain ⟨p,hp,hpre⟩ := Option.bind_eq_some_iff.mp hq
      obtain ⟨b,hb⟩ := h.cur p hp
      simpa only [hmem] using h.pre p b q hb hpre
    · intro q b q' hq hpre
      rw [run_concat,step_pop] at hpre
      simpa only [hmem] using h.pre q b q' ((hmem q b).mp hq) hpre
    · intro q b hq
      rw [run_concat,step_pop,spent_concat]
      simp [h.fired q b ((hmem q b).mp hq)]
  | except r =>
    have hmem : ∀ q b, .push q b ∈ es ++ [.except r] ↔ .push q b ∈ es := by simp
    refine ⟨?_,?_,?_⟩
    · intro q hq
      rw [run_concat,step_except] at hq
      simpa only [hmem] using h.target hq
    · intro q b q' hq hpre
      rw [run_concat,step_except] at hpre
      simpa only [hmem] using h.pre q b q' ((hmem q b).mp hq) hpre
    · intro q b hq
      rw [run_concat,step_except,spent_concat]
      simp [h.fired q b ((hmem q b).mp hq),or_comm]

theorem recorded (mem : Addr → XcptReg) (es : List Event) : Recorded (boot mem) es := by
  induction es using List.reverseRecOn with
  | nil =>
    refine ⟨fun p hp => ?_,fun p b q hp => ?_,fun p b hp => ?_⟩
    · cases hp
    · cases hp
    · cases hp
  | append_singleton es e ih => exact ih.concat

/-! ## Where an exception goes -/

theorem nth_none (h : s.cur = none) (n : ℕ) : s.nth n = none := by
  induction n with
  | zero => exact h
  | succ n ih => rw [State.nth,ih,Option.bind_none]

theorem nth_succ (h : s.cur = some p) (n : ℕ) : s.nth (n + 1) = (State.mk (s.reg p).pre s.reg).nth n := by
  induction n with
  | zero => simp [State.nth,h]
  | succ n ih => rw [State.nth,ih,State.nth]

theorem wellSent_iff (h : Recorded s es) : WellSent s es r ↔ ¬ TwoFired (run s es) := by
  have hflag : ∀ n p, (run s es).nth n = some p → (((run s es).reg p).fired ↔ Spent s es p) := by
    intro n p hn
    obtain ⟨b,hb⟩ := h.nth hn
    exact h.fired p b hb
  cases hc : (run s es).cur with
  | none =>
    rw [WellSent,filterFillRegs_none (target_none hc)]
    refine iff_of_true (fun n p hn => ?_) ?_
    · rw [nth_none hc] at hn
      cases hn
    · rintro ⟨p,-,hp,-⟩
      rw [hc] at hp
      cases hp
  | some p =>
    have hp := hflag 0 p hc
    by_cases hf : ((run s es).reg p).fired
    · cases hq : ((run s es).reg p).pre with
      | none =>
        rw [WellSent,filterFillRegs_none ((target_fired hc hf).trans hq)]
        refine iff_of_true (fun n p' hn => ?_) ?_
        · cases n with
          | zero =>
            obtain rfl := Option.some.inj (hc.symm.trans hn)
            exact hp.mp hf
          | succ n =>
            rw [nth_succ hc,hq,nth_none rfl] at hn
            cases hn
        · rintro ⟨p',q,hp',-,hq',-⟩
          obtain rfl := Option.some.inj (hc.symm.trans hp')
          rw [hq] at hq'
          cases hq'
      | some q =>
        rw [WellSent,filterFillRegs_some ((target_fired hc hf).trans hq)]
        have hn : (run s es).nth 1 = some q := by simp [State.nth,hc,hq]
        by_cases hfq : ((run s es).reg q).fired
        · refine iff_of_false ?_ (not_not_intro ⟨p,q,hc,hf,hq,hfq⟩)
          rintro ⟨n,q',-,hns,-,hcur,-⟩
          obtain rfl := Option.some.inj hcur
          exact hns ((hflag 1 _ hn).mp hfq)
        · refine iff_of_true ⟨1,q,hn,fun hs => hfq ((hflag 1 q hn).mpr hs),fun m hm p' hp' => ?_,rfl,rfl⟩ ?_
          · obtain rfl := Nat.lt_one_iff.mp hm
            obtain rfl := Option.some.inj (hc.symm.trans hp')
            exact hp.mp hf
          · rintro ⟨p',q',hp',-,hq',hfq'⟩
            obtain rfl := Option.some.inj (hc.symm.trans hp')
            obtain rfl := Option.some.inj (hq.symm.trans hq')
            exact hfq hfq'
    · rw [WellSent,filterFillRegs_some (target_unfired hc hf)]
      refine iff_of_true ⟨0,p,hc,fun hs => hf (hp.mpr hs),fun m hm => absurd hm (Nat.not_lt_zero m),rfl,rfl⟩ ?_
      rintro ⟨p',-,hp',hf',-⟩
      obtain rfl := Option.some.inj (hc.symm.trans hp')
      exact hf hf'

/-- Over every run from boot, each exception goes to the innermost registration that is
not spent exactly if none happens while the current registration and the one below it
have both fired. -/
theorem except_well_sent_iff (mem : Addr → XcptReg) (es : List Event) :
    (∀ pre r, pre ++ [.except r] <+: es → WellSent (boot mem) pre r) ↔
    ∀ pre r, pre ++ [.except r] <+: es → ¬ TwoFired (run (boot mem) pre) :=
  forall_congr' fun pre => forall_congr' fun _ => imp_congr_right fun _ => wellSent_iff (recorded mem pre)

/-- A block entered in a handler whose own handler faults as well: the third exception goes
to the first registration again. -/
theorem except_reenters_spent :
    Spent (boot (fun _ => ⟨none,0,0,0,0,false⟩))
      [.push 1 ⟨10,11,12,13⟩,.except ⟨0,0⟩,.push 2 ⟨20,21,22,23⟩,.except ⟨0,0⟩] 1 ∧
    (filterFillRegs ⟨0,0⟩ (run (boot (fun _ => ⟨none,0,0,0,0,false⟩))
      [.push 1 ⟨10,11,12,13⟩,.except ⟨0,0⟩,.push 2 ⟨20,21,22,23⟩,.except ⟨0,0⟩])).2 = (⟨11,10⟩,true) ∧
    ¬ WellSent (boot (fun _ => ⟨none,0,0,0,0,false⟩))
      [.push 1 ⟨10,11,12,13⟩,.except ⟨0,0⟩,.push 2 ⟨20,21,22,23⟩,.except ⟨0,0⟩] ⟨0,0⟩ := by
  refine ⟨⟨[.push 1 ⟨10,11,12,13⟩],⟨0,0⟩,[.push 2 ⟨20,21,22,23⟩,.except ⟨0,0⟩],rfl,by decide,by simp⟩,by decide,?_⟩
  rw [wellSent_iff (recorded _ _),not_not]
  exact ⟨2,1,by decide,by decide,by decide,by decide⟩

end Micron.Kernel.Filter

import Mathlib.Algebra.Order.Group.Multiset
import Mathlib.Data.Multiset.Range
import Micron.Lib.Runs

/-! # The system timers

`timer_list` holds the timers in its first `timer_num` entries. The entries are
`(ms, handler)` pairs with a countdown; only the pairs say which timers there are. A
run is any sequence of registrations, removals and loop passes of `timer_rolling`.
-/
namespace Micron.Kernel.Systimer
open Function

/-- Addresses of functions; `0` is the null pointer. -/
abbrev Handler := UInt32

structure Timer where
  ms : Int32
  handler : Handler
  counter : Int32
deriving DecidableEq, Repr

def MAX_TIMER : ℕ := 64
def RTC_FREQUENCY : Int32 := 100

/-- The static variables. Indices from `MAX_TIMER` on are the memory behind the table. -/
structure Timers where
  timer_list : ℕ → Timer
  timer_num : ℕ

variable {s t : Timers} {h : Handler} {ms : Int32} {i n : ℕ}

def boot (behind : ℕ → Timer) : Timers :=
  ⟨fun i => if i < MAX_TIMER then ⟨0,0,0⟩ else behind i,0⟩

def registerTimer (ms : Int32) (h : Handler) (s : Timers) : Timers × Bool :=
  if s.timer_num ≥ MAX_TIMER ∨ ms ≤ 0 then (s,false)
  else (⟨update s.timer_list s.timer_num ⟨ms,h,ms⟩,s.timer_num + 1⟩,true)

/-- The loop of `unregister_timer` over the `k` entries from `i` on. The second test of the
source, with interrupts off, reads the entry of the first again. -/
def unregisterLoop (h : Handler) (s : Timers) : ℕ → ℕ → Timers × Bool
  | _, 0 => (s,false)
  | i, k + 1 =>
    if h = (s.timer_list i).handler then
      -- the entry at timer_num is one behind the last timer
      (⟨update s.timer_list i (s.timer_list s.timer_num),s.timer_num - 1⟩,true)
    else unregisterLoop h s (i + 1) k

def unregisterTimer (h : Handler) (s : Timers) : Timers × Bool := unregisterLoop h s 0 s.timer_num

def dec : Int32 := 1000 / RTC_FREQUENCY

/-- The loop of `timer_rolling` at entry `i`, up to the call of the handler. -/
def rollAt (i : ℕ) (s : Timers) : Timers × Option Handler :=
  let tmr := s.timer_list i
  let c := tmr.counter - dec
  if c ≤ 0 then (⟨update s.timer_list i { tmr with counter := tmr.ms },s.timer_num⟩,some tmr.handler)
  else (⟨update s.timer_list i { tmr with counter := c },s.timer_num⟩,none)

/-- The loop of `timer_rolling` from entry `i` on, with the handlers called. A handler acts
on the timers as `act` says, and `timer_num` is read again after it. -/
def rollLoop (act : Handler → Timers → Timers) : ℕ → ℕ → Timers → Timers × List Handler
  | 0, _, s => (s,[])
  | fuel + 1, i, s =>
    if i < s.timer_num then
      match rollAt i s with
      | (t,some h) =>
        let r := rollLoop act fuel (i + 1) (act h t)
        (r.1,h :: r.2)
      | (t,none) => rollLoop act fuel (i + 1) t
    else (s,[])

def timerRolling (act : Handler → Timers → Timers) (s : Timers) : Timers × List Handler :=
  rollLoop act MAX_TIMER 0 s

/-! ## What a call does -/

def Timer.key (t : Timer) : Int32 × Handler := (t.ms,t.handler)

def Timers.active (s : Timers) : Multiset (Int32 × Handler) :=
  (Multiset.range s.timer_num).map (fun i => (s.timer_list i).key)

def FirstAt (s : Timers) (h : Handler) (i : ℕ) : Prop :=
  i < s.timer_num ∧ (s.timer_list i).handler = h ∧ ∀ j < i, (s.timer_list j).handler ≠ h

theorem FirstAt.unique {j : ℕ} (hi : FirstAt s h i) (hj : FirstAt s h j) : i = j := by
  rcases Nat.lt_trichotomy i j with hlt | he | hlt
  · exact absurd hi.2.1 (hj.2.2 i hlt)
  · exact he
  · exact absurd hj.2.1 (hi.2.2 j hlt)

theorem registerTimer_cases (ms : Int32) (h : Handler) (s : Timers) :
    registerTimer ms h s = (s,false) ∨ s.timer_num < MAX_TIMER ∧
    registerTimer ms h s = (⟨update s.timer_list s.timer_num ⟨ms,h,ms⟩,s.timer_num + 1⟩,true) := by
  rw [registerTimer]
  split
  · exact Or.inl rfl
  · rename_i hc
    exact Or.inr ⟨Nat.lt_of_not_le (not_or.mp hc).1,rfl⟩

theorem unregisterLoop_cases {k : ℕ} (hn : i + k = s.timer_num) (hi : ∀ j < i, (s.timer_list j).handler ≠ h) :
    (∀ j < s.timer_num, (s.timer_list j).handler ≠ h) ∧ unregisterLoop h s i k = (s,false) ∨
    ∃ j, FirstAt s h j ∧ unregisterLoop h s i k =
      (⟨update s.timer_list j (s.timer_list s.timer_num),s.timer_num - 1⟩,true) := by
  induction k generalizing i with
  | zero =>
    obtain rfl : i = s.timer_num := hn
    exact Or.inl ⟨hi,rfl⟩
  | succ k ih =>
    rw [unregisterLoop]
    split
    · rename_i hh
      exact Or.inr ⟨i,⟨by omega,hh.symm,hi⟩,rfl⟩
    · rename_i hh
      refine ih (by omega) (fun j hj => ?_)
      rcases Nat.lt_succ_iff_lt_or_eq.mp hj with hj | rfl
      · exact hi j hj
      · exact Ne.symm hh

theorem unregisterTimer_cases :
    (∀ j < s.timer_num, (s.timer_list j).handler ≠ h) ∧ unregisterTimer h s = (s,false) ∨
    ∃ j, FirstAt s h j ∧ unregisterTimer h s =
      (⟨update s.timer_list j (s.timer_list s.timer_num),s.timer_num - 1⟩,true) :=
  unregisterLoop_cases (Nat.zero_add _) (fun _ hj => absurd hj (Nat.not_lt_zero _))

def Timer.rolled (t : Timer) : Timer := { t with counter := if t.counter - dec ≤ 0 then t.ms else t.counter - dec }

def Timer.due (t : Timer) : Bool := decide (t.counter - dec ≤ 0)

theorem rollAt_eq : rollAt i s = (⟨update s.timer_list i (s.timer_list i).rolled,s.timer_num⟩,
    if (s.timer_list i).due then some (s.timer_list i).handler else none) := by
  rw [rollAt,Timer.rolled,Timer.due]
  by_cases hc : (s.timer_list i).counter - dec ≤ 0
  · simp [hc]
  · simp [hc]

/-! ## Ticks -/

/-- A pass over `k` entries whose handlers leave the timers alone. -/
theorem rollLoop_quiet {k fuel : ℕ} (hn : i + k = s.timer_num) (hf : k ≤ fuel) :
    rollLoop (fun _ t => t) fuel i s =
      (⟨fun j => if i ≤ j ∧ j < s.timer_num then (s.timer_list j).rolled else s.timer_list j,s.timer_num⟩,
        (((List.range' i k).map s.timer_list).filter Timer.due).map Timer.handler) := by
  induction k generalizing i s fuel with
  | zero =>
    have hlist : (fun j => if i ≤ j ∧ j < s.timer_num then (s.timer_list j).rolled else s.timer_list j) =
        s.timer_list := funext (fun j => if_neg (by omega))
    rw [hlist]
    cases fuel with
    | zero => rfl
    | succ fuel => rw [rollLoop,if_neg (by omega)]; rfl
  | succ k ih =>
    obtain ⟨fuel,rfl⟩ := Nat.exists_eq_add_one.mpr (Nat.lt_of_lt_of_le k.succ_pos hf)
    have hrest : rollLoop (fun _ t => t) fuel (i + 1)
        ⟨update s.timer_list i (s.timer_list i).rolled,s.timer_num⟩ = _ := ih (by dsimp only; omega) (by omega)
    have hlist : (List.range' (i + 1) k).map (update s.timer_list i (s.timer_list i).rolled) =
        (List.range' (i + 1) k).map s.timer_list := by
      refine List.map_congr_left (fun j hj => update_of_ne ?_ _ _)
      rw [List.mem_range'_1] at hj
      omega
    have hafter : (fun j => if i + 1 ≤ j ∧ j < s.timer_num then (update s.timer_list i (s.timer_list i).rolled j).rolled
        else update s.timer_list i (s.timer_list i).rolled j) =
        fun j => if i ≤ j ∧ j < s.timer_num then (s.timer_list j).rolled else s.timer_list j := by
      funext j
      by_cases hj : j = i
      · subst hj
        rw [if_neg (by omega),if_pos (by omega),update_self]
      · rw [update_of_ne hj]
        exact if_congr (by omega) rfl rfl
    simp only [hlist,hafter] at hrest
    rw [rollLoop,if_pos (by omega),rollAt_eq,List.range'_succ,List.map_cons]
    cases hd : (s.timer_list i).due with
    | true => simp [hrest,hd]
    | false => simp [hrest,hd]

def Timers.ticked (s : Timers) : Timers × List Handler :=
  (⟨fun j => if j < s.timer_num then (s.timer_list j).rolled else s.timer_list j,s.timer_num⟩,
    (((List.range s.timer_num).map s.timer_list).filter Timer.due).map Timer.handler)

theorem timerRolling_quiet (hn : s.timer_num ≤ MAX_TIMER) : timerRolling (fun _ t => t) s = s.ticked := by
  rw [timerRolling,rollLoop_quiet (Nat.zero_add _) hn,Timers.ticked,List.range_eq_range']
  simp

/-! ## Runs -/

/-- A call, or a pass of the loop of `timer_rolling` at an entry in use. What a handler
does are the events behind its pass. -/
inductive Event
  | register (ms : Int32) (h : Handler)
  | unregister (h : Handler)
  | roll (i : ℕ)

def step (s : Timers) : Event → Timers × Bool
  | .register ms h => registerTimer ms h s
  | .unregister h => unregisterTimer h s
  | .roll i => if i < s.timer_num then ((rollAt i s).1,true) else (s,false)

def run (s : Timers) (es : List Event) : Timers := es.foldl (fun t e => (step t e).1) s

theorem run_concat {es : List Event} {e : Event} : run s (es ++ [e]) = (step (run s es) e).1 := by
  simp [run]

theorem run_append {es fs : List Event} : run s (es ++ fs) = run (run s es) fs := by
  simp [run]

/-- From the registered timers `M` to `M'` by an event with its return value. -/
def Legal (M : Multiset (Int32 × Handler)) : Event → Bool → Multiset (Int32 × Handler) → Prop
  | .register ms h, true, M' => M' = (ms,h) ::ₘ M
  | .unregister h, true, M' => ∃ ms, (ms,h) ∈ M ∧ M' = M.erase (ms,h)
  | .unregister h, false, M' => (∀ ms, (ms,h) ∉ M) ∧ M' = M
  | _, _, M' => M' = M

/-- All along the run the table holds the timers that were registered and not
unregistered since. -/
def Registered (s : Timers) (es : List Event) : Prop :=
  ∃ M : List Event → Multiset (Int32 × Handler), M [] = 0 ∧
    (∀ pre e, pre ++ [e] <+: es → Legal (M pre) e (step (run s pre) e).2 (M (pre ++ [e]))) ∧
    ∀ pre, pre <+: es → (run s pre).active = M pre

/-- Whether the entry behind the timers is a good stand-in when the event removes one. -/
def Replaceable (s : Timers) : Event → Prop
  | .unregister h => ∀ i, FirstAt s h i → i + 1 = s.timer_num ∨
      (s.timer_list s.timer_num).key = (s.timer_list (s.timer_num - 1)).key ∨
      (s.timer_list (s.timer_num - 1)).handler = h ∧ (s.timer_list s.timer_num).key = (s.timer_list i).key
  | _ => True

theorem active_update {f : ℕ → Timer} {x : Timer} (hi : i < n) :
    ∃ X : Multiset (Int32 × Handler), (⟨f,n⟩ : Timers).active = (f i).key ::ₘ X ∧
      (⟨update f i x,n⟩ : Timers).active = x.key ::ₘ X := by
  refine ⟨((Multiset.range n).erase i).map (fun j => (f j).key),?_,?_⟩
  · conv_lhs => rw [Timers.active,← Multiset.cons_erase (Multiset.mem_range.mpr hi)]
    exact Multiset.map_cons ..
  · conv_lhs => rw [Timers.active,← Multiset.cons_erase (Multiset.mem_range.mpr hi)]
    simp only [Multiset.map_cons,update_self]
    congr 1
    refine Multiset.map_congr rfl (fun j hj => ?_)
    have hne : j ≠ i := fun he => (Multiset.nodup_range n).notMem_erase (he ▸ hj)
    rw [update_of_ne hne]

theorem active_succ {f : ℕ → Timer} : (⟨f,n + 1⟩ : Timers).active = (f n).key ::ₘ (⟨f,n⟩ : Timers).active := by
  simp [Timers.active,Multiset.range_succ]

theorem active_update_behind {f : ℕ → Timer} {x : Timer} (hi : n ≤ i) :
    (⟨update f i x,n⟩ : Timers).active = (⟨f,n⟩ : Timers).active := by
  refine Multiset.map_congr rfl (fun j hj => ?_)
  have hne : j ≠ i := Nat.ne_of_lt (Nat.lt_of_lt_of_le (Multiset.mem_range.mp hj) hi)
  simp only [update_of_ne hne]

theorem mem_active (h : Handler) : (∃ ms, (ms,h) ∈ s.active) ↔ ∃ j < s.timer_num, (s.timer_list j).handler = h := by
  constructor
  · rintro ⟨ms,hm⟩
    obtain ⟨j,hj,he⟩ := Multiset.mem_map.mp hm
    exact ⟨j,Multiset.mem_range.mp hj,congrArg Prod.snd he⟩
  · rintro ⟨j,hj,rfl⟩
    exact ⟨(s.timer_list j).ms,Multiset.mem_map.mpr ⟨j,Multiset.mem_range.mpr hj,rfl⟩⟩

theorem cons_cons_eq {α : Type*} {a b c d : α} {X : Multiset α} :
    a ::ₘ b ::ₘ X = c ::ₘ d ::ₘ X ↔ a = c ∧ b = d ∨ a = d ∧ b = c := by
  constructor
  · intro he
    have hpair : a ::ₘ {b} = c ::ₘ ({d} : Multiset α) := by
      have hsum : a ::ₘ {b} + X = c ::ₘ {d} + X := by simpa using he
      exact Multiset.add_left_inj.mp hsum
    rcases Multiset.cons_eq_cons.mp hpair with ⟨hac,hbd⟩ | ⟨-,cs,hb,hd⟩
    · exact Or.inl ⟨hac,Multiset.singleton_inj.mp hbd⟩
    · exact Or.inr ⟨((Multiset.singleton_eq_cons_iff cs).mp hd).1.symm,((Multiset.singleton_eq_cons_iff cs).mp hb).1⟩
  · rintro (⟨rfl,rfl⟩ | ⟨rfl,rfl⟩)
    · rfl
    · exact Multiset.cons_swap _ _ _

/-- Removing one entry with handler `h`, as an equation without `erase`. -/
theorem legal_unregister {M M' : Multiset (Int32 × Handler)} :
    Legal M (.unregister h) true M' ↔ ∃ ms, M = (ms,h) ::ₘ M' := by
  refine exists_congr (fun ms => ?_)
  constructor
  · rintro ⟨hm,rfl⟩
    exact (Multiset.cons_erase hm).symm
  · rintro rfl
    exact ⟨Multiset.mem_cons_self _ _,(Multiset.erase_cons_head _ _).symm⟩

/-- The entry at `timer_num` takes the place of the first entry with handler `h`. -/
theorem legal_removal (hi : FirstAt s h i) :
    Legal s.active (.unregister h) true
      (⟨update s.timer_list i (s.timer_list s.timer_num),s.timer_num - 1⟩ : Timers).active ↔
    i + 1 = s.timer_num ∨ (s.timer_list s.timer_num).key = (s.timer_list (s.timer_num - 1)).key ∨
      (s.timer_list (s.timer_num - 1)).handler = h ∧ (s.timer_list s.timer_num).key = (s.timer_list i).key := by
  obtain ⟨f,n⟩ := s
  obtain ⟨hlt,hh,-⟩ := hi
  dsimp only at hlt hh ⊢
  obtain ⟨n,rfl⟩ := Nat.exists_eq_add_one.mpr (Nat.zero_lt_of_lt hlt)
  rw [legal_unregister,Nat.add_sub_cancel,active_succ]
  have hkey : ∀ t : Timer, t.handler = h → t.key = (t.ms,h) := fun t ht => by rw [Timer.key,ht]
  rcases Nat.lt_succ_iff_lt_or_eq.mp hlt with hlt | rfl
  · obtain ⟨X,hold,hnew⟩ := active_update (f := f) (x := f (n + 1)) hlt
    rw [hold,hnew]
    simp only [cons_cons_eq]
    constructor
    · rintro ⟨ms,⟨hlast,hback⟩ | ⟨hlast,-⟩⟩
      · exact Or.inr (Or.inr ⟨congrArg Prod.snd hlast,hback.symm⟩)
      · exact Or.inr (Or.inl hlast.symm)
    · rintro (he | he | ⟨hlast,he⟩)
      · omega
      · exact ⟨(f i).ms,Or.inr ⟨he.symm,hkey _ hh⟩⟩
      · exact ⟨(f n).ms,Or.inl ⟨hkey _ hlast,he.symm⟩⟩
  · rw [active_update_behind (Nat.le_refl _)]
    exact iff_of_true ⟨(f i).ms,by rw [hkey _ hh]⟩ (Or.inl rfl)

theorem step_legal_iff (e : Event) : Legal s.active e (step s e).2 (step s e).1.active ↔ Replaceable s e := by
  cases e with
  | register ms h =>
    refine iff_of_true ?_ trivial
    rcases registerTimer_cases ms h s with he | ⟨-,he⟩
    · simp [step,he,Legal]
    · simp [step,he,Legal,active_succ,active_update_behind (Nat.le_refl _),Timer.key]
  | unregister h =>
    rcases unregisterTimer_cases (h := h) (s := s) with ⟨hnone,he⟩ | ⟨i,hi,he⟩
    · refine iff_of_true ?_ (fun i hi => absurd hi.2.1 (hnone i hi.1))
      rw [step,he]
      exact ⟨fun ms hm => by
        obtain ⟨j,hj,hh⟩ := (mem_active h).mp ⟨ms,hm⟩
        exact hnone j hj hh,rfl⟩
    · rw [step,he,legal_removal hi]
      constructor
      · exact fun hr j hj => hj.unique hi ▸ hr
      · exact fun hr => hr i hi
  | roll i =>
    refine iff_of_true ?_ trivial
    rw [step]
    split
    · rename_i hlt
      rw [rollAt_eq]
      obtain ⟨X,hold,hnew⟩ := active_update (f := s.timer_list) (x := (s.timer_list i).rolled) hlt
      exact hnew.trans hold.symm
    · rfl

theorem run_num_le {es : List Event} (hn : s.timer_num ≤ MAX_TIMER) : (run s es).timer_num ≤ MAX_TIMER := by
  induction es using List.reverseRecOn with
  | nil => exact hn
  | append_singleton es e ih =>
    rw [run_concat]
    generalize run s es = t at ih
    cases e with
    | register ms h =>
      rcases registerTimer_cases ms h t with he | ⟨hlt,he⟩
      · rw [step,he]
        exact ih
      · rw [step,he]
        exact hlt
    | unregister h =>
      rcases unregisterTimer_cases (h := h) (s := t) with ⟨-,he⟩ | ⟨i,-,he⟩
      · rw [step,he]
        exact ih
      · rw [step,he]
        exact Nat.le_trans (Nat.sub_le _ _) ih
    | roll i =>
      rw [step]
      split
      · rw [rollAt_eq]
        exact ih
      · exact ih

theorem registered_iff {es : List Event} (hs : s.active = 0) :
    Registered s es ↔ ∀ pre e, pre ++ [e] <+: es → Replaceable (run s pre) e := by
  constructor
  · rintro ⟨M,-,hlegal,hactive⟩ pre e hpre
    have hstep := hlegal pre e hpre
    rw [← hactive _ hpre,← hactive _ ((List.prefix_append pre [e]).trans hpre),run_concat] at hstep
    exact (step_legal_iff e).mp hstep
  · intro hok
    refine ⟨fun pre => (run s pre).active,hs,fun pre e hpre => ?_,fun _ _ => rfl⟩
    simp only [run_concat]
    exact (step_legal_iff e).mpr (hok pre e hpre)

/-- Over every run from boot, the table holds the timers registered and not unregistered
since exactly if each removal finds a good stand-in at `timer_num`. A tick calls the
handlers of the timers of the table that are due, and counts down all of them. -/
theorem timers_registered_iff (behind : ℕ → Timer) (es : List Event) :
    (Registered (boot behind) es ↔
      ∀ pre e, pre ++ [e] <+: es → Replaceable (run (boot behind) pre) e) ∧
    timerRolling (fun _ t => t) (run (boot behind) es) = (run (boot behind) es).ticked :=
  ⟨registered_iff rfl,timerRolling_quiet (run_num_le (Nat.zero_le _))⟩

/-- Two timers, the first of them removed: the second is gone, and the next tick calls the
null pointer. -/
theorem unregister_forgets_last :
    ¬ Registered (boot (fun _ => ⟨0,0,0⟩)) [.register 100 1,.register 200 2,.unregister 1] ∧
    (timerRolling (fun _ t => t)
      (run (boot (fun _ => ⟨0,0,0⟩)) [.register 100 1,.register 200 2,.unregister 1])).2 = [0] := by
  refine ⟨fun hreg => ?_,by decide⟩
  have hfirst : FirstAt (run (boot (fun _ => ⟨0,0,0⟩)) [.register 100 1,.register 200 2]) 1 0 :=
    ⟨by decide,by decide,fun j hj => absurd hj (Nat.not_lt_zero j)⟩
  have hr := (registered_iff rfl).mp hreg [.register 100 1,.register 200 2] (.unregister 1) (List.prefix_refl _)
  exact absurd (hr 0 hfirst) (by decide)

end Micron.Kernel.Systimer

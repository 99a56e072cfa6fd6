import Micron.Kernel.TimerHandlers
import Micron.Lib.Turns

/-! # Timers are changed while the clock ticks

`register_timer` works with interrupts off. `unregister_timer` looks for its timer with
interrupts on and turns them off to remove it. The clock may tick, and handlers may register
further timers, between any two of its steps.
-/
namespace Micron.Kernel.Systimer
open Function Turns

/-- Where the main line is: between two calls, at `i < timer_num`, at the comparison with entry
`i`, or at the part with interrupts off. -/
inductive Pc
  | idle
  | test (h : Handler) (i : ℕ)
  | look (h : Handler) (i : ℕ)
  | lock (h : Handler) (i : ℕ)

structure Race where
  timers : Timers
  pc : Pc
  todo : List Api
  results : List Bool

def Race.main (r : Race) : Race :=
  match r.pc with
  | .idle =>
    match r.todo with
    | [] => r
    | .register ms h :: cs =>
      let (t,b) := registerTimer ms h r.timers
      { r with timers := t, todo := cs, results := r.results ++ [b] }
    | .unregister h :: cs => { r with pc := .test h 0, todo := cs }
  | .test h i =>
    if i < r.timers.timer_num then { r with pc := .look h i } else { r with pc := .idle, results := r.results ++ [false] }
  | .look h i => { r with pc := if h = (r.timers.timer_list i).handler then .lock h i else .test h (i + 1) }
  | .lock h i =>
    let s := r.timers
    let t := if h = (s.timer_list i).handler then ⟨update s.timer_list i (s.timer_list s.timer_num),s.timer_num - 1⟩ else s
    { r with timers := t, pc := .idle, results := r.results ++ [true] }

def registering (regs : Handler → Timers → List (Int32 × Handler)) (h : Handler) (t : Timers) : List Api :=
  (regs h t).map fun x => .register x.1 x.2

inductive Turn
  | main
  | tick (regs : Handler → Timers → List (Int32 × Handler))

def Race.step (r : Race) : Turn → Race
  | .main => r.main
  | .tick regs => { r with timers := (timerRolling (acts (registering regs)) r.timers).1 }

/-! ## Calls without an interruption -/

inductive Atomic
  | call (c : Api)
  | tick (regs : Handler → Timers → List (Int32 × Handler))

def atomic : List Atomic → Timers × List Bool → Timers × List Bool
  | [], r => r
  | .call c :: as, (t,out) => atomic as ((Systimer.step t c.event).1,out ++ [(Systimer.step t c.event).2])
  | .tick regs :: as, (t,out) => atomic as ((timerRolling (acts (registering regs)) t).1,out)

def Atomic.api? : Atomic → Option Api
  | .call c => some c
  | .tick _ => none

def Atomic.regs? : Atomic → Option (Handler → Timers → List (Int32 × Handler))
  | .call _ => none
  | .tick regs => some regs

def Turn.regs? : Turn → Option (Handler → Timers → List (Int32 × Handler))
  | .main => none
  | .tick regs => some regs

/-- What a turn does to the timers: a call takes effect when `unregister_timer` has found no
further entry, or with interrupts off. -/
def Race.effect (r : Race) : Turn → List Atomic
  | .main =>
    match r.pc with
    | .idle =>
      match r.todo with
      | .register ms h :: _ => [.call (.register ms h)]
      | _ => []
    | .test h i => if i < r.timers.timer_num then [] else [.call (.unregister h)]
    | .look _ _ => []
    | .lock h _ => [.call (.unregister h)]
  | .tick regs => [.tick regs]

def Race.pending (r : Race) : List Api :=
  match r.pc with
  | .idle => []
  | .test h _ => [.unregister h]
  | .look h _ => [.unregister h]
  | .lock h _ => [.unregister h]

def Race.Finished (r : Race) : Prop := r.pending ++ r.todo = []

theorem atomic_append (as bs : List Atomic) (r : Timers × List Bool) : atomic (as ++ bs) r = atomic bs (atomic as r) := by
  induction as generalizing r with
  | nil => rfl
  | cons a as ih =>
    cases a with
    | call c => exact ih _
    | tick regs => exact ih _

/-! ## What a tick leaves alone -/

section
variable {s t u : Timers} {h : Handler} {i fuel : ℕ} {regs : Handler → Timers → List (Int32 × Handler)}

structure Grows (s t : Timers) : Prop where
  num : s.timer_num ≤ t.timer_num
  handler : ∀ j < s.timer_num, (t.timer_list j).handler = (s.timer_list j).handler

theorem Grows.refl (s : Timers) : Grows s s := ⟨Nat.le_refl _,fun _ _ => rfl⟩

theorem Grows.trans (h : Grows s t) (h' : Grows t u) : Grows s u where
  num := Nat.le_trans h.num h'.num
  handler j hj := (h'.handler j (Nat.lt_of_lt_of_le hj h.num)).trans (h.handler j hj)

theorem grows_step {e : Event} (he : ∀ h, e ≠ .unregister h) : Grows s (Systimer.step s e).1 := by
  cases e with
  | unregister h => exact absurd rfl (he h)
  | register ms h =>
    obtain hr | ⟨-,hr⟩ := registerTimer_cases ms h s
    · rw [Systimer.step,hr]
      exact .refl s
    · rw [Systimer.step,hr]
      refine ⟨Nat.le_succ _,fun j hj => ?_⟩
      dsimp only
      rw [update_of_ne (Nat.ne_of_lt hj)]
  | roll i =>
    rw [Systimer.step]
    split
    · rw [rollAt_eq]
      refine ⟨Nat.le_refl _,fun j hj => ?_⟩
      dsimp only
      by_cases hji : j = i
      · rw [hji,update_self]
        rfl
      · rw [update_of_ne hji]
    · exact .refl s

theorem grows_run {es : List Event} (he : ∀ e ∈ es, ∀ h, e ≠ .unregister h) : Grows s (Systimer.run s es) := by
  induction es generalizing s with
  | nil => exact .refl s
  | cons e es ih => exact (grows_step (he e List.mem_cons_self)).trans (ih fun e h => he e (List.mem_cons_of_mem _ h))

theorem tickEvents_registering : ∀ e ∈ tickEvents (registering regs) fuel i s, ∀ h, e ≠ .unregister h := by
  induction fuel generalizing i s with
  | zero => exact fun e he => absurd he List.not_mem_nil
  | succ fuel ih =>
    intro e he h
    rw [tickEvents] at he
    split at he
    · rcases hr : rollAt i s with ⟨t,o⟩
      rw [hr] at he
      cases o with
      | some g =>
        obtain rfl | he := List.mem_cons.mp he
        · exact fun hx => by cases hx
        · obtain he | he := List.mem_append.mp he
          · obtain ⟨c,hc,rfl⟩ := List.mem_map.mp he
            obtain ⟨x,-,rfl⟩ := List.mem_map.mp hc
            exact fun hx => by cases hx
          · exact ih e he h
      | none =>
        obtain rfl | he := List.mem_cons.mp he
        · exact fun hx => by cases hx
        · exact ih e he h
    · exact absurd he List.not_mem_nil

theorem grows_tick (regs : Handler → Timers → List (Int32 × Handler)) (s : Timers) :
    Grows s (timerRolling (acts (registering regs)) s).1 := by
  rw [timerRolling,rollLoop_events]
  exact grows_run tickEvents_registering

theorem tick_num_le (regs : Handler → Timers → List (Int32 × Handler)) (hn : s.timer_num ≤ MAX_TIMER) :
    (timerRolling (acts (registering regs)) s).1.timer_num ≤ MAX_TIMER := by
  rw [timerRolling,rollLoop_events]
  exact run_num_le hn

end

/-! ## One turn -/

section
variable {r : Race} {h : Handler} {i : ℕ} {regs : Handler → Timers → List (Int32 × Handler)}

/-- How far the search of `unregister_timer` is. -/
def Race.Searching (r : Race) : Prop :=
  match r.pc with
  | .idle => True
  | .test h i => i ≤ r.timers.timer_num ∧ ∀ j < i, (r.timers.timer_list j).handler ≠ h
  | .look h i => i < r.timers.timer_num ∧ ∀ j < i, (r.timers.timer_list j).handler ≠ h
  | .lock h i => FirstAt r.timers h i

theorem Race.Searching.tick (hr : r.Searching) : (r.step (.tick regs)).Searching := by
  have hg := grows_tick regs r.timers
  unfold Searching at hr ⊢
  simp only [Race.step]
  cases hpc : r.pc with
  | idle => trivial
  | test h i =>
    simp only [hpc] at hr
    refine ⟨Nat.le_trans hr.1 hg.num,fun j hj => ?_⟩
    rw [hg.handler j (Nat.lt_of_lt_of_le hj hr.1)]
    exact hr.2 j hj
  | look h i =>
    simp only [hpc] at hr
    refine ⟨Nat.lt_of_lt_of_le hr.1 hg.num,fun j hj => ?_⟩
    rw [hg.handler j (Nat.lt_trans hj hr.1)]
    exact hr.2 j hj
  | lock h i =>
    simp only [hpc] at hr
    obtain ⟨hi,hh,hj⟩ := hr
    refine ⟨Nat.lt_of_lt_of_le hi hg.num,?_,fun j hji => ?_⟩
    · rw [hg.handler i hi]
      exact hh
    · rw [hg.handler j (Nat.lt_trans hji hi)]
      exact hj j hji

theorem Race.Searching.main (hr : r.Searching) : r.main.Searching := by
  unfold Searching at hr
  cases hpc : r.pc with
  | idle =>
    cases htodo : r.todo with
    | nil => simp only [Race.main,Searching,hpc,htodo]
    | cons c cs =>
      cases c with
      | register ms h => simp only [Race.main,Searching,hpc,htodo]
      | unregister h =>
        simp only [Race.main,Searching,hpc,htodo]
        exact ⟨Nat.zero_le _,fun j hj => absurd hj (Nat.not_lt_zero j)⟩
  | test h i =>
    simp only [hpc] at hr
    simp only [Race.main,hpc]
    split
    · rename_i hi
      exact ⟨hi,hr.2⟩
    · trivial
  | look h i =>
    simp only [hpc] at hr
    simp only [Race.main,hpc]
    split
    · rename_i hh
      exact ⟨hr.1,hh.symm,hr.2⟩
    · rename_i hh
      refine ⟨hr.1,fun j hj => ?_⟩
      obtain hj | rfl := Nat.lt_succ_iff_lt_or_eq.mp hj
      · exact hr.2 j hj
      · exact Ne.symm hh
  | lock h i => simp only [Race.main,Searching,hpc]

theorem Race.Searching.step (a : Turn) (hr : r.Searching) : (r.step a).Searching := by
  cases a with
  | main => exact hr.main
  | tick regs => exact hr.tick

theorem unregister_none (hno : ∀ j < r.timers.timer_num, (r.timers.timer_list j).handler ≠ h) :
    unregisterTimer h r.timers = (r.timers,false) := by
  obtain ⟨-,he⟩ | ⟨j,hj,-⟩ := unregisterTimer_cases (s := r.timers) (h := h)
  · exact he
  · exact absurd hj.2.1 (hno j hj.1)

theorem unregister_first (hi : FirstAt r.timers h i) : unregisterTimer h r.timers =
    (⟨update r.timers.timer_list i (r.timers.timer_list r.timers.timer_num),r.timers.timer_num - 1⟩,true) := by
  obtain ⟨hno,-⟩ | ⟨j,hj,he⟩ := unregisterTimer_cases (s := r.timers) (h := h)
  · exact absurd hi.2.1 (hno i hi.1)
  · rw [he,hi.unique hj]

theorem Race.step_effect (hr : r.Searching) (a : Turn) :
    atomic (r.effect a) (r.timers,r.results) = ((r.step a).timers,(r.step a).results) ∧
      (r.effect a).filterMap Atomic.api? ++ ((r.step a).pending ++ (r.step a).todo) = r.pending ++ r.todo := by
  cases a with
  | tick regs => exact ⟨rfl,rfl⟩
  | main =>
    unfold Searching at hr
    cases hpc : r.pc with
    | idle =>
      cases htodo : r.todo with
      | nil =>
        simp only [effect,Race.step,Race.main,pending,hpc,htodo]
        exact ⟨rfl,rfl⟩
      | cons c cs =>
        cases c with
        | register ms h =>
          simp only [effect,Race.step,Race.main,pending,hpc,htodo]
          exact ⟨rfl,rfl⟩
        | unregister h =>
          simp only [effect,Race.step,Race.main,pending,hpc,htodo]
          exact ⟨rfl,rfl⟩
    | test h i =>
      simp only [hpc] at hr
      simp only [effect,Race.step,Race.main,hpc]
      split
      · simp only [pending,hpc]
        exact ⟨rfl,rfl⟩
      · rename_i hi
        have hno := unregister_none (r := r) fun j hj => hr.2 j (Nat.lt_of_lt_of_le hj (Nat.not_lt.mp hi))
        simp only [atomic,Api.event,Systimer.step,hno,pending,hpc]
        exact ⟨trivial,rfl⟩
    | look h i =>
      by_cases hh : h = (r.timers.timer_list i).handler
      · simp only [effect,Race.step,Race.main,pending,hpc,if_pos hh]
        exact ⟨rfl,rfl⟩
      · simp only [effect,Race.step,Race.main,pending,hpc,if_neg hh]
        exact ⟨rfl,rfl⟩
    | lock h i =>
      simp only [hpc] at hr
      simp only [effect,Race.step,Race.main,hpc,atomic,Api.event,Systimer.step,unregister_first hr,pending]
      rw [if_pos hr.2.1.symm]
      exact ⟨rfl,rfl⟩

/-! ## All turns -/

def effects (r : ℕ → Race) (sched : ℕ → Turn) (n : ℕ) : List Atomic := (List.range n).flatMap fun k => (r k).effect (sched k)

theorem effects_succ (r : ℕ → Race) (sched : ℕ → Turn) (n : ℕ) :
    effects r sched (n + 1) = effects r sched n ++ (r n).effect (sched n) := by
  rw [effects,List.range_succ,List.flatMap_append,List.flatMap_singleton]
  rfl

theorem effects_run {sched : ℕ → Turn} (hr : r.Searching) (n : ℕ) :
    let t := Turns.run Race.step r sched
    atomic (effects t sched n) (r.timers,r.results) = ((t n).timers,(t n).results) ∧
      (effects t sched n).filterMap Atomic.api? ++ ((t n).pending ++ (t n).todo) = r.pending ++ r.todo := by
  intro t
  induction n with
  | zero => exact ⟨rfl,rfl⟩
  | succ n ih =>
    have hn : (t n).Searching := run_invariant (fun r a h => h.step a) hr n
    obtain ⟨htimers,hcalls⟩ := Race.step_effect hn (sched n)
    rw [effects_succ,atomic_append,ih.1,List.filterMap_append,List.append_assoc]
    refine ⟨htimers,?_⟩
    rw [← ih.2]
    exact congrArg _ hcalls

theorem atomic_results (as : List Atomic) (t : Timers) (out : List Bool) :
    (atomic as (t,out)).2.length = out.length + (as.filterMap Atomic.api?).length := by
  induction as generalizing t out with
  | nil => rfl
  | cons a as ih =>
    cases a with
    | call c =>
      have hcons : (Atomic.call c :: as).filterMap Atomic.api? = c :: as.filterMap Atomic.api? := rfl
      rw [atomic,ih,hcons,List.length_append,List.length_singleton,List.length_cons]
      omega
    | tick regs =>
      rw [atomic,ih,List.filterMap_cons_none rfl]

theorem effects_ticks (r : ℕ → Race) (sched : ℕ → Turn) (n : ℕ) :
    (effects r sched n).filterMap Atomic.regs? = ((List.range n).map sched).filterMap Turn.regs? := by
  induction n with
  | zero => rfl
  | succ n ih =>
    rw [effects_succ,List.filterMap_append,ih,List.range_succ,List.map_append,List.filterMap_append]
    congr 1
    cases hs : sched n with
    | tick regs => simp [hs,Race.effect,Atomic.regs?,Turn.regs?]
    | main =>
      rw [List.map_singleton,hs]
      cases hpc : (r n).pc with
      | idle =>
        cases htodo : (r n).todo with
        | nil => simp only [Race.effect,hpc,htodo]; rfl
        | cons c cs =>
          cases c with
          | register ms h => simp only [Race.effect,hpc,htodo]; rfl
          | unregister h => simp only [Race.effect,hpc,htodo]; rfl
      | test h i =>
        simp only [Race.effect,hpc]
        split
        · rfl
        · rfl
      | look h i => simp only [Race.effect,hpc]; rfl
      | lock h i => simp only [Race.effect,hpc]; rfl

/-! ## The calls come back -/

def Pc.left : Pc → ℕ
  | .idle => 0
  | .test _ i => 2 * (MAX_TIMER - i) + 2
  | .look _ i => 2 * (MAX_TIMER - i) + 1
  | .lock _ _ => 1

def Race.left (r : Race) : ℕ := (2 * MAX_TIMER + 3) * r.todo.length + r.pc.left

theorem main_num_le (hn : r.timers.timer_num ≤ MAX_TIMER) : r.main.timers.timer_num ≤ MAX_TIMER := by
  unfold Race.main
  split
  · split
    · exact hn
    · rename_i ms h cs htodo
      have hle : (run r.timers [.register ms h]).timer_num ≤ MAX_TIMER := run_num_le hn
      exact hle
    · exact hn
  · split
    · exact hn
    · exact hn
  · exact hn
  · dsimp only
    split
    · exact Nat.le_trans (Nat.sub_le _ _) hn
    · exact hn

theorem main_left (hr : r.Searching) (hn : r.timers.timer_num ≤ MAX_TIMER) (hd : ¬ r.Finished) :
    r.main.left < r.left := by
  unfold Race.Searching at hr
  unfold Race.left
  cases hpc : r.pc with
  | idle =>
    cases htodo : r.todo with
    | nil =>
      rw [Race.Finished,Race.pending,hpc,htodo] at hd
      exact absurd rfl hd
    | cons c cs =>
      cases c with
      | register ms h =>
        simp only [Race.main,hpc,htodo,Pc.left,List.length_cons,MAX_TIMER]
        omega
      | unregister h =>
        simp only [Race.main,hpc,htodo,Pc.left,List.length_cons,MAX_TIMER]
        omega
  | test h i =>
    simp only [Race.main,hpc]
    split
    · simp only [Pc.left]
      omega
    · simp only [Pc.left]
      omega
  | look h i =>
    simp only [hpc] at hr
    have hi := Nat.lt_of_lt_of_le hr.1 hn
    simp only [Race.main,hpc]
    split
    · simp only [Pc.left]
      omega
    · simp only [Pc.left]
      omega
  | lock h i =>
    simp only [Race.main,hpc,Pc.left]
    omega

end

/-- Whatever turns the main line and the clock take, the timers are those after the same calls and
ticks one after the other, where each call of the main line has its effect in one of its own turns,
and the calls return what they return without ticks in between. All of them come back if the main
line has a turn again and again. -/
theorem timer_calls_atomic (s : Timers) (calls : List Api) (sched : ℕ → Turn) :
    let r := Turns.run Race.step ⟨s,.idle,calls,[]⟩ sched
    (∀ n, atomic (effects r sched n) (s,[]) = ((r n).timers,(r n).results) ∧
      (effects r sched n).filterMap Atomic.api? = calls.take (r n).results.length ∧
      (effects r sched n).filterMap Atomic.regs? = ((List.range n).map sched).filterMap Turn.regs?) ∧
    (s.timer_num ≤ MAX_TIMER → Fair (· = .main) sched → ∃ n, (r n).results.length = calls.length) := by
  intro r
  have hstart : Race.Searching ⟨s,.idle,calls,[]⟩ := trivial
  have hlen : ∀ n, (effects r sched n).filterMap Atomic.api? ++ ((r n).pending ++ (r n).todo) = calls ∧
      (r n).results.length = ((effects r sched n).filterMap Atomic.api?).length := by
    intro n
    obtain ⟨hat,hcalls⟩ : atomic (effects r sched n) (s,[]) = ((r n).timers,(r n).results) ∧ _ := effects_run hstart n
    have hres := atomic_results (effects r sched n) s []
    refine ⟨hcalls,?_⟩
    have hout : (atomic (effects r sched n) (s,[])).2 = (r n).results := congrArg Prod.snd hat
    rw [← hout,hres,List.length_nil,Nat.zero_add]
  refine ⟨fun n => ⟨(effects_run hstart n).1,?_,effects_ticks r sched n⟩,fun hn hf => ?_⟩
  · obtain ⟨hcalls,hres⟩ := hlen n
    rw [hres,← hcalls,List.take_left]
  · obtain ⟨n,hend⟩ : ∃ n, (r n).Finished := by
      have hstep : ∀ (r : Race) (a : Turn), r.Searching ∧ r.timers.timer_num ≤ MAX_TIMER →
          (r.step a).Searching ∧ (r.step a).timers.timer_num ≤ MAX_TIMER := by
        rintro r a ⟨hr,hn⟩
        refine ⟨hr.step a,?_⟩
        cases a with
        | main => exact main_num_le hn
        | tick regs => exact tick_num_le regs hn
      apply fair_descends hstep Race.left _ _ hf ⟨hstart,hn⟩
      · rintro r a ⟨hr,hn⟩ hd
        cases a with
        | tick regs => exact Nat.le_refl _
        | main => exact Nat.le_of_lt (main_left hr hn hd)
      · rintro r ⟨hr,hn⟩ hd
        exact main_left hr hn hd
    obtain ⟨hcalls,hres⟩ := hlen n
    unfold Race.Finished at hend
    rw [hend,List.append_nil] at hcalls
    exact ⟨n,by rw [hres,hcalls]⟩

def alternating (n : ℕ) : Turn := if n % 2 = 0 then .main else .tick fun h _ => if h = 1 then [(50,4)] else []

/-- One of three timers is removed and another one is registered. -/
theorem timer_calls_alternating : ∃ n,
    (Turns.run Race.step ⟨three,.idle,[.unregister 2,.register 30 5],[]⟩ alternating n).results.length = 2 := by
  apply (timer_calls_atomic three [.unregister 2,.register 30 5] alternating).2 (by decide)
  rintro a rfl n
  exact ⟨2 * n,by omega,if_pos (by omega)⟩

end Micron.Kernel.Systimer

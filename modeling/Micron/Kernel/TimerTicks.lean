import Micron.Kernel.Systimer

/-! # When timers fire

A countdown loses `dec` in each tick and starts again at `ms` once it is used up, without
the remainder. A timer therefore fires every `period ms` ticks, counted from its
registration, however many timers there are and whenever they came.
-/
namespace Micron.Kernel.Systimer
variable {s t : Timers} {h : Handler} {ms : Int32} {i n : ℕ}

def period (ms : Int32) : ℕ := (ms.toInt.toNat + 9) / 10

/-! ## One timer -/

structure Timer.Counts (t : Timer) (n : ℕ) : Prop where
  pos : 0 < t.ms
  counter : t.counter.toInt = t.ms.toInt - 10 * (n % period t.ms : ℕ)

theorem toInt_pos (h : 0 < ms) : 0 < ms.toInt := Int32.lt_iff_toInt_lt.mp h

theorem period_pos (h : 0 < ms) : 0 < period ms := by
  have hms := toInt_pos h
  unfold period
  omega

theorem Timer.Counts.bounds {t : Timer} (h : t.Counts n) : 0 < t.counter ∧ t.counter ≤ t.ms := by
  have hms := toInt_pos h.pos
  have hlt := Nat.mod_lt n (period_pos h.pos)
  have hcnt := h.counter
  rw [Int32.lt_iff_toInt_lt,Int32.le_iff_toInt_le,Int32.toInt_zero]
  generalize n % period t.ms = r at hlt hcnt
  unfold period at hlt
  omega

theorem Timer.Counts.toInt_sub {t : Timer} (h : t.Counts n) :
    (t.counter - dec).toInt = t.ms.toInt - 10 * (n % period t.ms + 1 : ℕ) := by
  obtain ⟨hpos,hle⟩ := h.bounds
  have hlt := t.ms.toInt_lt
  rw [Int32.lt_iff_toInt_lt,Int32.toInt_zero] at hpos
  rw [Int32.le_iff_toInt_le] at hle
  rw [Int32.toInt_sub,show dec.toInt = 10 from rfl,Int.bmod_eq_of_le (by omega) (by omega),h.counter]
  omega

theorem succ_mod (hn : 0 < n) (m : ℕ) : (m + 1) % n = if m % n + 1 = n then 0 else m % n + 1 := by
  have hlt := Nat.mod_lt m hn
  rw [← Nat.mod_add_mod]
  split
  · rename_i he
    rw [he,Nat.mod_self]
  · exact Nat.mod_eq_of_lt (by omega)

theorem Timer.Counts.used_up {t : Timer} (h : t.Counts n) :
    t.counter - dec ≤ 0 ↔ n % period t.ms + 1 = period t.ms := by
  have hms := toInt_pos h.pos
  have hlt := Nat.mod_lt n (period_pos h.pos)
  rw [Int32.le_iff_toInt_le,h.toInt_sub,Int32.toInt_zero]
  generalize n % period t.ms = r at hlt ⊢
  unfold period at hlt ⊢
  omega

/-- A timer fires in the ticks whose number is a multiple of the period. -/
theorem Timer.Counts.due_iff {t : Timer} (h : t.Counts n) : t.due = true ↔ period t.ms ∣ n + 1 := by
  rw [Timer.due,decide_eq_true_iff,h.used_up,Nat.dvd_iff_mod_eq_zero,succ_mod (period_pos h.pos)]
  split
  · exact iff_of_true ‹_› rfl
  · exact iff_of_false ‹_› (Nat.succ_ne_zero _)

theorem Timer.Counts.rolled {t : Timer} (h : t.Counts n) : t.rolled.Counts (n + 1) := by
  refine ⟨h.pos,?_⟩
  have hsub := h.toInt_sub
  simp only [Timer.rolled,h.used_up,succ_mod (period_pos h.pos)]
  split
  · simp
  · exact hsub

/-! ## Registrations and ticks -/

inductive Call
  | register (ms : Int32) (h : Handler)
  | tick
deriving DecidableEq

def Call.play (s : Timers) : Call → Timers
  | .register ms h => (registerTimer ms h s).1
  | .tick => (timerRolling (fun _ t => t) s).1

def play (s : Timers) (cs : List Call) : Timers := cs.foldl Call.play s

def Timers.dues (s : Timers) : List ℕ := (List.range s.timer_num).filter (fun i => (s.timer_list i).due)

def callsOf (i : ℕ) : Timers → List Call → ℕ
  | _, [] => 0
  | s, .register ms h :: cs => callsOf i (Call.play s (.register ms h)) cs
  | s, .tick :: cs => s.dues.count i + callsOf i (Call.play s .tick) cs

theorem tick_calls (hn : s.timer_num ≤ MAX_TIMER) :
    (timerRolling (fun _ t => t) s).2 = s.dues.map (fun i => (s.timer_list i).handler) := by
  rw [timerRolling_quiet hn,Timers.ticked,Timers.dues,List.filter_map,List.map_map]
  rfl

theorem count_dues (hi : i < s.timer_num) : s.dues.count i = if (s.timer_list i).due then 1 else 0 := by
  split
  · rename_i hdue
    exact List.count_eq_one_of_mem (List.nodup_range.filter _) (List.mem_filter.mpr ⟨List.mem_range.mpr hi,hdue⟩)
  · rename_i hdue
    exact List.count_eq_zero_of_not_mem (fun hmem => hdue (List.mem_filter.mp hmem).2)

structure Running (s : Timers) (i : ℕ) (ms : Int32) (h : Handler) (n : ℕ) : Prop where
  num_le : s.timer_num ≤ MAX_TIMER
  lt_num : i < s.timer_num
  key : (s.timer_list i).key = (ms,h)
  counts : (s.timer_list i).Counts n

theorem num_le_play (c : Call) (hn : s.timer_num ≤ MAX_TIMER) : (c.play s).timer_num ≤ MAX_TIMER := by
  cases c with
  | register ms h =>
    rcases registerTimer_cases ms h s with he | ⟨hlt,he⟩
    · rw [Call.play,he]
      exact hn
    · rw [Call.play,he]
      exact hlt
  | tick =>
    rw [Call.play,timerRolling_quiet hn]
    exact hn

theorem play_num_le (cs : List Call) (hn : s.timer_num ≤ MAX_TIMER) : (play s cs).timer_num ≤ MAX_TIMER := by
  induction cs generalizing s with
  | nil => exact hn
  | cons c cs ih => exact ih (num_le_play c hn)

theorem Running.start (hn : s.timer_num ≤ MAX_TIMER) (hreg : (registerTimer ms h s).2 = true) :
    Running (registerTimer ms h s).1 s.timer_num ms h 0 := by
  have hle := num_le_play (.register ms h) hn
  rw [Call.play] at hle
  rw [registerTimer] at hreg hle ⊢
  split at hreg
  · exact Bool.noConfusion hreg
  · rename_i hc
    rw [if_neg hc] at hle ⊢
    have hms : 0 < ms := Int32.not_le.mp (not_or.mp hc).2
    exact ⟨hle,Nat.lt_succ_self _,by simp [Timer.key],by simpa using hms,by simp⟩

theorem Running.register (hr : Running s i ms h n) (ms' : Int32) (h' : Handler) :
    Running (Call.play s (.register ms' h')) i ms h n := by
  have hle := num_le_play (.register ms' h') hr.num_le
  rcases registerTimer_cases ms' h' s with he | ⟨-,he⟩
  · rw [Call.play,he]
    exact hr
  · rw [Call.play,he] at hle ⊢
    refine ⟨hle,Nat.lt_succ_of_lt hr.lt_num,?_,?_⟩ <;> dsimp only <;> rw [Function.update_of_ne (Nat.ne_of_lt hr.lt_num)]
    · exact hr.key
    · exact hr.counts

theorem Running.tick (hr : Running s i ms h n) : Running (Call.play s .tick) i ms h (n + 1) := by
  have hentry : (Call.play s .tick).timer_list i = (s.timer_list i).rolled := by
    rw [Call.play,timerRolling_quiet hr.num_le]
    exact if_pos hr.lt_num
  refine ⟨num_le_play .tick hr.num_le,?_,hentry ▸ hr.key,hentry ▸ hr.counts.rolled⟩
  rw [Call.play,timerRolling_quiet hr.num_le]
  exact hr.lt_num

theorem Running.bounds (hr : Running s i ms h n) : 0 < (s.timer_list i).counter ∧ (s.timer_list i).counter ≤ ms := by
  have hms : (s.timer_list i).ms = ms := congrArg Prod.fst hr.key
  rw [← hms]
  exact hr.counts.bounds

theorem Running.run (hr : Running s i ms h n) (cs : List Call) :
    Running (play s cs) i ms h (n + cs.count .tick) ∧
      n / period ms + callsOf i s cs = (n + cs.count .tick) / period ms := by
  induction cs generalizing s n with
  | nil => exact ⟨hr,rfl⟩
  | cons c cs ih =>
    cases c with
    | register ms' h' =>
      rw [List.count_cons_of_ne (fun he : Call.register ms' h' = .tick => nomatch he)]
      exact ih (hr.register ms' h')
    | tick =>
      obtain ⟨hrun,hcalls⟩ := ih hr.tick
      have hms : (s.timer_list i).ms = ms := congrArg Prod.fst hr.key
      have hdue := hr.counts.due_iff
      rw [hms] at hdue
      rw [List.count_cons_self,callsOf,count_dues hr.lt_num,← Nat.add_assoc,Nat.add_right_comm n]
      refine ⟨hrun,?_⟩
      rw [← hcalls,Nat.succ_div]
      simp only [hdue]
      omega

/-- After any registrations and ticks, a timer registered `n` ticks ago has fired
`n / period ms` times. Within a tick the handlers are called in the order of the table,
and between ticks the countdown is in `1 .. ms`. -/
theorem timer_fires (behind : ℕ → Timer) (pre post : List Call) (ms : Int32) (h : Handler)
    (hreg : (registerTimer ms h (play (boot behind) pre)).2 = true) :
    let s := (registerTimer ms h (play (boot behind) pre)).1
    let i := (play (boot behind) pre).timer_num
    let t := play s post
    (t.timer_list i).key = (ms,h) ∧ callsOf i s post = post.count .tick / period ms ∧
      0 < (t.timer_list i).counter ∧ (t.timer_list i).counter ≤ ms ∧
      (timerRolling (fun _ t => t) t).2 = t.dues.map (fun j => (t.timer_list j).handler) := by
  have hstart := Running.start (play_num_le pre (Nat.zero_le _)) hreg
  obtain ⟨hrun,hcalls⟩ := hstart.run post
  obtain ⟨hpos,hle⟩ := hrun.bounds
  rw [Nat.zero_div,Nat.zero_add,Nat.zero_add] at hcalls
  exact ⟨hrun.key,hcalls,hpos,hle,tick_calls hrun.num_le⟩

/-- A timer of 25 ms, registered while another one is running, after seven ticks. -/
theorem timer_fires_25 :
    let s := (registerTimer 25 2 (play (boot (fun _ => ⟨0,0,0⟩)) [.register 40 1,.tick])).1
    callsOf 1 s [.tick,.tick,.tick,.register 5 3,.tick,.tick,.tick,.tick] = 7 / period 25 := by
  exact (timer_fires (fun _ => ⟨0,0,0⟩) [.register 40 1,.tick]
    [.tick,.tick,.tick,.register 5 3,.tick,.tick,.tick,.tick] 25 2 (by decide)).2.1

end Micron.Kernel.Systimer

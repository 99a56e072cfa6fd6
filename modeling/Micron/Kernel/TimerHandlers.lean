import Micron.Kernel.Systimer

/-! # Handlers that change the timers

`timer_rolling` reads `timer_num` again after each handler, and `unregister_timer` moves
entries. A tick is the run of its loop passes with the calls that the handlers make in
between. Beside the table a ledger says which timer an entry holds, which timers are
registered, and which countdowns the tick has advanced.
-/
namespace Micron.Kernel.Systimer
open Function

inductive Api
  | register (ms : Int32) (h : Handler)
  | unregister (h : Handler)

deriving instance DecidableEq for Event

def Api.event : Api → Event
  | .register ms h => .register ms h
  | .unregister h => .unregister h

section Tick
variable (calls : Handler → Timers → List Api)

def acts (h : Handler) (t : Timers) : Timers := run t ((calls h t).map Api.event)

/-- The events of the loop of `timer_rolling` from entry `i` on. -/
def tickEvents : ℕ → ℕ → Timers → List Event
  | 0, _, _ => []
  | fuel + 1, i, s =>
    if i < s.timer_num then
      match rollAt i s with
      | (t,some h) => .roll i :: ((calls h t).map Api.event ++ tickEvents fuel (i + 1) (acts calls h t))
      | (t,none) => .roll i :: tickEvents fuel (i + 1) t
    else []

end Tick

/-! ## The ledger -/

/-- Timers have numbers: those of the table before the tick their index, later ones the
next free number. `passed` counts the passes of the loop. -/
structure Ledger where
  timers : Timers
  owner : ℕ → Option ℕ
  next : ℕ
  live : List ℕ
  advanced : List ℕ
  passed : ℕ

def Ledger.start (s : Timers) : Ledger :=
  ⟨s,fun i => if i < s.timer_num then some i else none,s.timer_num,List.range s.timer_num,[],0⟩

def Timers.first (s : Timers) (h : Handler) : Option ℕ :=
  (List.range s.timer_num).find? (fun i => (s.timer_list i).handler = h)

def Ledger.enter (l : Ledger) (e : Event) : Ledger :=
  let l' := { l with timers := (step l.timers e).1 }
  let n := l.timers.timer_num
  match e with
  | .register ms h =>
    if (registerTimer ms h l.timers).2 then
      { l' with owner := update l.owner n (some l.next), next := l.next + 1, live := l.next :: l.live }
    else l'
  | .unregister h =>
    match l.timers.first h with
    | some j =>
      { l' with
        owner := update l.owner j (l.owner n)
        live := l.live.filter (fun x => some x ≠ l.owner j) }
    | none => l'
  | .roll i => { l' with advanced := l.advanced ++ (l.owner i).toList, passed := i + 1 }

def ledger (s : Timers) (es : List Event) : Ledger := es.foldl Ledger.enter (.start s)

def Ledger.pending (l : Ledger) : List ℕ :=
  (List.range' l.passed (l.timers.timer_num - l.passed)).filterMap l.owner

/-- Of `n` timers before the tick, those still registered have been advanced once, and none
of the later ones has been. -/
def Ledger.Once (n : ℕ) (l : Ledger) : Prop :=
  (∀ x ∈ l.live, x < n → l.advanced.count x = 1) ∧ ∀ x, n ≤ x → x ∉ l.advanced

/-- The tick will advance every timer once if no more handler changes the table. -/
def Ledger.Steady (n : ℕ) (l : Ledger) : Prop :=
  (∀ x ∈ l.live, x < n → l.advanced.count x + l.pending.count x = 1) ∧
    ∀ x, n ≤ x → x ∉ l.advanced ∧ x ∉ l.pending

/-- A registration is refused or lands behind the loop. A removal is that of the last entry,
or the loop has passed the last entry. -/
def Ledger.Spares (l : Ledger) : Event → Prop
  | .register ms _ => MAX_TIMER ≤ l.timers.timer_num ∨ ms ≤ 0 ∨ l.timers.timer_num < l.passed
  | .unregister h => ∀ j, FirstAt l.timers h j → j + 1 = l.timers.timer_num ∨ l.timers.timer_num ≤ l.passed
  | .roll _ => True

variable {calls : Handler → Timers → List Api} {s t : Timers} {h : Handler} {l : Ledger} {e : Event} {es : List Event}
  {i j n x fuel : ℕ}

theorem ledger_concat : ledger s (es ++ [e]) = (ledger s es).enter e := by
  simp [ledger]

theorem enter_timers (l : Ledger) (e : Event) : (l.enter e).timers = (step l.timers e).1 := by
  cases e with
  | register ms h =>
    rw [Ledger.enter]
    split <;> rfl
  | unregister h =>
    rw [Ledger.enter]
    split <;> rfl
  | roll i => rfl

theorem foldl_timers (es : List Event) (l : Ledger) : (es.foldl Ledger.enter l).timers = run l.timers es := by
  induction es generalizing l with
  | nil => rfl
  | cons e es ih =>
    rw [List.foldl_cons,ih,enter_timers]
    rfl

theorem first_eq_some : s.first h = some j ↔ FirstAt s h j := by
  rw [Timers.first,List.find?_range_eq_some,FirstAt]
  simp only [decide_eq_true_eq,List.mem_range,ne_eq,Bool.not_eq_true',decide_eq_false_iff_not]
  tauto

/-! ## Steps -/

/-- What holds of the ledger as long as every event spares the loop: the entries it has
still to pass are where they were. -/
structure Ledger.Inv (n : ℕ) (l : Ledger) : Prop where
  inPlace : ∀ m, l.passed ≤ m → m < l.timers.timer_num → l.owner m = some m ∧ m < n ∧ m ∈ l.live
  alone : ∀ m k, l.passed ≤ m → m < l.timers.timer_num → l.owner k = some m → k = m
  old : ∀ x ∈ l.live, x < n → (x < l.passed → l.advanced.count x = 1) ∧ (l.passed ≤ x → x < l.timers.timer_num)
  advanced : ∀ x ∈ l.advanced, x < n ∧ x < l.passed
  next : n ≤ l.next

theorem inv_start (s : Timers) : (Ledger.start s).Inv s.timer_num where
  inPlace m _ hm := ⟨if_pos hm,hm,List.mem_range.mpr hm⟩
  alone m k _ _ hk := by
    simp only [Ledger.start] at hk
    split at hk
    · exact Option.some.inj hk
    · cases hk
  old x _ hx := ⟨fun h0 => absurd h0 (Nat.not_lt_zero x),fun _ => hx⟩
  advanced x hx := by cases hx
  next := Nat.le_refl _

theorem Ledger.Inv.pending (hl : l.Inv n) : l.pending = List.range' l.passed (l.timers.timer_num - l.passed) := by
  rw [Ledger.pending,List.filterMap_congr (fun m hm => ?_),List.filterMap_some]
  rw [List.mem_range'_1] at hm
  exact (hl.inPlace m hm.1 (by omega)).1

theorem Ledger.Inv.steady (hl : l.Inv n) : l.Steady n := by
  rw [Ledger.Steady,hl.pending]
  refine ⟨fun x hx hn => ?_,fun x hn => ⟨fun hadv => ?_,fun hpen => ?_⟩⟩
  · obtain ⟨hpast,hahead⟩ := hl.old x hx hn
    by_cases hlt : x < l.passed
    · rw [hpast hlt,List.count_eq_zero_of_not_mem (by rw [List.mem_range'_1]; omega)]
    · have hnum := hahead (Nat.not_lt.mp hlt)
      rw [List.count_eq_zero_of_not_mem (fun hadv => hlt (hl.advanced x hadv).2),
        List.count_eq_one_of_mem List.nodup_range' (by rw [List.mem_range'_1]; omega)]
  · exact Nat.not_lt.mpr hn (hl.advanced x hadv).1
  · rw [List.mem_range'_1] at hpen
    exact Nat.not_lt.mpr hn (hl.inPlace x hpen.1 (by omega)).2.1

/-- Once the loop is through, no timer is left to be advanced. -/
theorem Ledger.Steady.once (hl : l.Steady n) (hend : l.timers.timer_num ≤ l.passed) : l.Once n := by
  have hnil : l.pending = [] := by
    rw [Ledger.pending,Nat.sub_eq_zero_of_le hend]
    rfl
  rw [Ledger.Steady,hnil] at hl
  exact ⟨fun x hx hn => hl.1 x hx hn,fun x hn => (hl.2 x hn).1⟩

theorem Ledger.Inv.roll (hl : l.Inv n) (hi : i < l.timers.timer_num) (hp : l.passed = i) : (l.enter (.roll i)).Inv n := by
  have hnum : (l.enter (.roll i)).timers.timer_num = l.timers.timer_num := by
    rw [enter_timers,step,if_pos hi,rollAt_eq]
  obtain ⟨hown,hn,-⟩ := hl.inPlace i (Nat.le_of_eq hp) hi
  have hadv : (l.enter (.roll i)).advanced = l.advanced ++ [i] := by
    rw [Ledger.enter,hown]
    rfl
  have hfresh : l.advanced.count i = 0 :=
    List.count_eq_zero_of_not_mem (fun hmem => Nat.ne_of_lt (hl.advanced i hmem).2 hp.symm)
  refine ⟨fun m hm => ?_,fun m k hm => ?_,fun x hx hxn => ?_,fun x hx => ?_,hl.next⟩
  · rw [hnum]
    exact hl.inPlace m (by have : i + 1 ≤ m := hm; omega)
  · rw [hnum]
    exact hl.alone m k (by have : i + 1 ≤ m := hm; omega)
  · obtain ⟨hpast,hahead⟩ := hl.old x hx hxn
    rw [hnum,hadv,List.count_append]
    refine ⟨fun hlt => ?_,fun hle => hahead (by have : i + 1 ≤ x := hle; omega)⟩
    rcases Nat.lt_succ_iff_lt_or_eq.mp (show x < i + 1 from hlt) with hlt | rfl
    · rw [hpast (hp.symm ▸ hlt),List.count_singleton,if_neg (by simpa using Nat.ne_of_gt hlt)]
    · rw [hfresh,List.count_singleton_self]
  · rw [hadv] at hx
    show x < n ∧ x < i + 1
    rcases List.mem_append.mp hx with hx | hx
    · have := hl.advanced x hx
      omega
    · rw [List.mem_singleton.mp hx]
      exact ⟨hn,Nat.lt_succ_self i⟩

theorem enter_refused {ms : Int32} (hf : MAX_TIMER ≤ l.timers.timer_num ∨ ms ≤ 0) : l.enter (.register ms h) = l := by
  rw [Ledger.enter,step,registerTimer,if_pos hf]
  rfl

theorem enter_register {ms : Int32} (hf : ¬ (MAX_TIMER ≤ l.timers.timer_num ∨ ms ≤ 0)) :
    l.enter (.register ms h) = { l with
      timers := ⟨update l.timers.timer_list l.timers.timer_num ⟨ms,h,ms⟩,l.timers.timer_num + 1⟩
      owner := update l.owner l.timers.timer_num (some l.next)
      next := l.next + 1
      live := l.next :: l.live } := by
  rw [Ledger.enter,step,registerTimer,if_neg hf]
  rfl

theorem enter_missing (hno : l.timers.first h = none) : l.enter (.unregister h) = l := by
  rcases unregisterTimer_cases (h := h) (s := l.timers) with ⟨-,he⟩ | ⟨j,hj,-⟩
  · rw [Ledger.enter,step,he]
    simp only [hno]
  · rw [first_eq_some.mpr hj] at hno
    cases hno

theorem enter_unregister (hj : FirstAt l.timers h j) :
    l.enter (.unregister h) = { l with
      timers := ⟨update l.timers.timer_list j (l.timers.timer_list l.timers.timer_num),l.timers.timer_num - 1⟩
      owner := update l.owner j (l.owner l.timers.timer_num)
      live := l.live.filter (fun x => some x ≠ l.owner j) } := by
  rcases unregisterTimer_cases (h := h) (s := l.timers) with ⟨hno,-⟩ | ⟨k,hk,he⟩
  · exact absurd hj.2.1 (hno j hj.1)
  · obtain rfl := hk.unique hj
    rw [Ledger.enter,step,he]
    simp only [first_eq_some.mpr hj]

theorem Ledger.Inv.register {ms : Int32} (hl : l.Inv n) (hs : l.Spares (.register ms h)) :
    (l.enter (.register ms h)).Inv n := by
  by_cases hf : MAX_TIMER ≤ l.timers.timer_num ∨ ms ≤ 0
  · rw [enter_refused hf]
    exact hl
  -- the new entry is behind the loop, so that there is none before it
  have hlt : l.timers.timer_num < l.passed := (or_assoc.mpr hs).resolve_left hf
  rw [enter_register hf]
  refine ⟨fun m hm hnum => ?_,fun m k hm hnum => ?_,fun x hx hxn => ?_,hl.advanced,Nat.le_succ_of_le hl.next⟩ <;>
    dsimp only at *
  · omega
  · omega
  · rcases List.mem_cons.mp hx with rfl | hx
    · exact absurd hl.next (Nat.not_le.mpr hxn)
    · obtain ⟨hpast,hahead⟩ := hl.old x hx hxn
      exact ⟨hpast,fun hle => Nat.lt_succ_of_lt (hahead hle)⟩

theorem Ledger.Inv.unregister (hl : l.Inv n) (hs : l.Spares (.unregister h)) : (l.enter (.unregister h)).Inv n := by
  cases hfirst : l.timers.first h with
  | none =>
    rw [enter_missing hfirst]
    exact hl
  | some j =>
    have hj := first_eq_some.mp hfirst
    have hlast := hs j hj
    have hlt := hj.1
    rw [enter_unregister hj]
    refine ⟨fun m hm hnum => ?_,fun m k hm hnum hk => ?_,fun x hx hxn => ?_,hl.advanced,hl.next⟩ <;> dsimp only at *
    · obtain ⟨hown,hn,hlive⟩ := hl.inPlace m hm (by omega)
      rw [update_of_ne (by omega)]
      refine ⟨hown,hn,List.mem_filter.mpr ⟨hlive,?_⟩⟩
      -- the removed entry is not the one of `m`
      rw [decide_eq_true_iff]
      intro he
      have := hl.alone m j hm (by omega) he.symm
      omega
    · rw [update_apply] at hk
      split at hk
      · have := hl.alone m _ hm (by omega) hk
        omega
      · exact hl.alone m k hm (by omega) hk
    · obtain ⟨hx,hne⟩ := List.mem_filter.mp hx
      obtain ⟨hpast,hahead⟩ := hl.old x hx hxn
      refine ⟨hpast,fun hle => ?_⟩
      have hnum := hahead hle
      have hown := (hl.inPlace x hle hnum).1
      have hxj : x ≠ j := by
        rintro rfl
        rw [hown] at hne
        exact of_decide_eq_true hne rfl
      omega

/-- Any other event makes the loop miss a timer or pass a new one. -/
theorem Ledger.Inv.spares (hl : l.Inv n) (hst : (l.enter e).Steady n) : l.Spares e := by
  cases e with
  | roll i => trivial
  | register ms h =>
    by_cases hf : MAX_TIMER ≤ l.timers.timer_num ∨ ms ≤ 0
    · exact or_assoc.mp (Or.inl hf)
    rw [enter_register hf] at hst
    refine Or.inr (Or.inr (Nat.lt_of_not_le (fun hle => (hst.2 l.next hl.next).2 ?_)))
    refine List.mem_filterMap.mpr ⟨l.timers.timer_num,?_,update_self ..⟩
    rw [List.mem_range'_1]
    dsimp only
    omega
  | unregister h =>
    intro j hj
    by_contra hno
    have hlt := hj.1
    obtain ⟨hown,hn,hlive⟩ := hl.inPlace (l.timers.timer_num - 1) (by omega) (by omega)
    have hone : ∀ k, l.owner k = some (l.timers.timer_num - 1) → k = l.timers.timer_num - 1 :=
      fun k => hl.alone _ k (by omega) (by omega)
    rw [enter_unregister hj] at hst
    have hcount := hst.1 (l.timers.timer_num - 1) (List.mem_filter.mpr ⟨hlive,by
      rw [decide_eq_true_iff]
      intro he
      have := hone j he.symm
      omega⟩) hn
    rw [List.count_eq_zero_of_not_mem,List.count_eq_zero_of_not_mem] at hcount
    · exact absurd hcount (by decide)
    · intro hpen
      obtain ⟨k,hk,hpen⟩ := List.mem_filterMap.mp hpen
      rw [List.mem_range'_1] at hk
      dsimp only at hk hpen
      rw [update_apply] at hpen
      split at hpen
      · have := hone _ hpen
        omega
      · have := hone k hpen
        omega
    · intro hadv
      have := (hl.advanced _ hadv).2
      omega

/-! ## Ticks -/

def Ledger.Passes (l : Ledger) : Event → Prop
  | .roll i => i < l.timers.timer_num ∧ l.passed = i
  | _ => True

theorem Ledger.Inv.enter (hl : l.Inv n) (hp : l.Passes e) (hs : l.Spares e) : (l.enter e).Inv n := by
  cases e with
  | roll i => exact hl.roll hp.1 hp.2
  | register ms h => exact hl.register hs
  | unregister h => exact hl.unregister hs

theorem inv_of_spares (hp : ∀ pre e, pre ++ [e] <+: es → (ledger s pre).Passes e)
    (hs : ∀ pre e, pre ++ [e] <+: es → (ledger s pre).Spares e) : (ledger s es).Inv s.timer_num := by
  induction es using List.reverseRecOn with
  | nil => exact inv_start s
  | append_singleton es e ih =>
    rw [ledger_concat]
    have hpre : es <+: es ++ [e] := List.prefix_append es [e]
    exact (ih (fun pre e' h => hp pre e' (h.trans hpre)) (fun pre e' h => hs pre e' (h.trans hpre))).enter
      (hp es e (List.prefix_refl _)) (hs es e (List.prefix_refl _))

theorem steady_iff_spares (hp : ∀ pre e, pre ++ [e] <+: es → (ledger s pre).Passes e) :
    (∀ pre, pre <+: es → (ledger s pre).Steady s.timer_num) ↔
      ∀ pre e, pre ++ [e] <+: es → (ledger s pre).Spares e := by
  constructor
  · intro hst
    induction es using List.reverseRecOn with
    | nil => exact fun pre e h => absurd (List.prefix_nil.mp h) (by simp)
    | append_singleton es e ih =>
      have hpre : es <+: es ++ [e] := List.prefix_append es [e]
      have hes := ih (fun pre e' h => hp pre e' (h.trans hpre)) (fun pre h => hst pre (h.trans hpre))
      have hinv := inv_of_spares (fun pre e' h => hp pre e' (h.trans hpre)) hes
      intro pre e' h
      rcases Runs.prefix_concat_cases h with h | ⟨rfl,rfl⟩
      · exact hes pre e' h
      · refine hinv.spares ?_
        rw [← ledger_concat]
        exact hst _ (List.prefix_refl _)
  · intro hs pre h
    exact (inv_of_spares (fun p e hpe => hp p e (hpe.trans h)) (fun p e hpe => hs p e (hpe.trans h))).steady

theorem foldl_api (cs : List Api) (l : Ledger) : ((cs.map Api.event).foldl Ledger.enter l).passed = l.passed := by
  induction cs generalizing l with
  | nil => rfl
  | cons c cs ih =>
    rw [List.map_cons,List.foldl_cons,ih]
    cases c with
    | register ms h =>
      rw [Api.event,Ledger.enter]
      split <;> rfl
    | unregister h =>
      rw [Api.event,Ledger.enter]
      split <;> rfl

theorem passes_api {cs : List Api} (h : ∀ pre e, pre ++ [e] <+: es →
      (pre.foldl Ledger.enter ((cs.map Api.event).foldl Ledger.enter l)).Passes e) :
    ∀ pre e, pre ++ [e] <+: cs.map Api.event ++ es → (pre.foldl Ledger.enter l).Passes e := by
  induction cs generalizing l with
  | nil => exact h
  | cons c cs ih =>
    rw [List.map_cons,List.cons_append,Runs.forall_prefix_cons]
    exact ⟨by cases c <;> trivial,ih h⟩

/-- The loop goes through the entries in order, up to the end of the table it then finds. -/
theorem tickEvents_passes (ht : l.timers = t) (hp : l.passed = i) :
    ∀ pre e, pre ++ [e] <+: tickEvents calls fuel i t → (pre.foldl Ledger.enter l).Passes e := by
  induction fuel generalizing i t l with
  | zero => exact fun pre e h => absurd (List.prefix_nil.mp h) (by simp)
  | succ fuel ih =>
    rw [tickEvents]
    split
    · rename_i hlt
      have hroll : ∀ u o, rollAt i t = (u,o) → (l.enter (.roll i)).timers = u := by
        intro u o he
        rw [enter_timers,ht,step,if_pos hlt,he]
      split
      · rename_i u h he
        rw [Runs.forall_prefix_cons]
        refine ⟨⟨ht ▸ hlt,hp⟩,passes_api (ih ?_ ?_)⟩
        · rw [foldl_timers,hroll u _ he]
          rfl
        · rw [foldl_api]
          rfl
      · rename_i u he
        rw [Runs.forall_prefix_cons]
        exact ⟨⟨ht ▸ hlt,hp⟩,ih (hroll u _ he) rfl⟩
    · exact fun pre e h => absurd (List.prefix_nil.mp h) (by simp)

theorem tickEvents_end (ht : l.timers = t) (hp : l.passed = i) (hn : t.timer_num ≤ MAX_TIMER)
    (hf : i + fuel = MAX_TIMER) :
    ((tickEvents calls fuel i t).foldl Ledger.enter l).timers.timer_num ≤
      ((tickEvents calls fuel i t).foldl Ledger.enter l).passed := by
  induction fuel generalizing i t l with
  | zero =>
    have hi : i = MAX_TIMER := hf
    rw [tickEvents,List.foldl_nil,ht,hp,hi]
    exact hn
  | succ fuel ih =>
    rw [tickEvents]
    split
    · rename_i hlt
      have hroll : ∀ u o, rollAt i t = (u,o) → (l.enter (.roll i)).timers = u ∧ u.timer_num ≤ MAX_TIMER := by
        intro u o he
        have hu : (rollAt i t).1 = u := congrArg Prod.fst he
        rw [enter_timers,ht,step,if_pos hlt]
        refine ⟨hu,?_⟩
        rw [← hu,rollAt_eq]
        exact hn
      split
      · rename_i u h he
        obtain ⟨hu,hnum⟩ := hroll u _ he
        rw [List.foldl_cons,List.foldl_append]
        refine ih ?_ ?_ (run_num_le hnum) (by omega)
        · rw [foldl_timers,hu]
          rfl
        · rw [foldl_api]
          rfl
      · rename_i u he
        obtain ⟨hu,hnum⟩ := hroll u _ he
        exact ih hu rfl hnum (by omega)
    · rename_i hge
      rw [List.foldl_nil,ht,hp]
      exact Nat.not_lt.mp hge

theorem rollLoop_events : (rollLoop (acts calls) fuel i s).1 = run s (tickEvents calls fuel i s) := by
  induction fuel generalizing i s with
  | zero => rfl
  | succ fuel ih =>
    rw [rollLoop,tickEvents]
    split
    · rename_i hlt
      have hroll : ∀ t o, rollAt i s = (t,o) → ∀ es, run s (.roll i :: es) = run t es := by
        intro t o he es
        rw [run,List.foldl_cons,step,if_pos hlt,he]
        rfl
      rcases he : rollAt i s with ⟨t,o⟩
      cases o with
      | some h =>
        dsimp only
        rw [hroll t _ he,run_append]
        exact ih
      | none =>
        dsimp only
        rw [hroll t _ he]
        exact ih
    · rfl

def tickRun (calls : Handler → Timers → List Api) (s : Timers) : List Event := tickEvents calls MAX_TIMER 0 s

/-- Whatever timers there are and whatever calls their handlers make: throughout the tick
each countdown is due to be advanced exactly once exactly if all calls spare the loop, and
in that case it has been at the end of the tick. -/
theorem tick_advances_once (calls : Handler → Timers → List Api) (s : Timers) (hn : s.timer_num ≤ MAX_TIMER) :
    (ledger s (tickRun calls s)).timers = (timerRolling (acts calls) s).1 ∧
    ((∀ pre, pre <+: tickRun calls s → (ledger s pre).Steady s.timer_num) ↔
      ∀ pre e, pre ++ [e] <+: tickRun calls s → (ledger s pre).Spares e) ∧
    ((∀ pre e, pre ++ [e] <+: tickRun calls s → (ledger s pre).Spares e) →
      (ledger s (tickRun calls s)).Once s.timer_num) := by
  have hp : ∀ pre e, pre ++ [e] <+: tickRun calls s → (ledger s pre).Passes e := tickEvents_passes rfl rfl
  refine ⟨?_,steady_iff_spares hp,fun hs => (inv_of_spares hp hs).steady.once ?_⟩
  · rw [ledger,foldl_timers]
    exact rollLoop_events.symm
  · exact tickEvents_end rfl rfl hn (Nat.zero_add _)

def rearms (h : Handler) (_ : Timers) : List Api := if h = 2 then [.unregister 2,.register 20 2] else []

/-- The last timer of the table starts itself again. -/
theorem rearmed_advances_once :
    let s := run (boot (fun _ => ⟨0,0,0⟩)) [.register 40 1,.register 10 2]
    (ledger s (tickRun rearms s)).Once s.timer_num := by
  intro s
  refine (tick_advances_once rearms s (by decide)).2.2 ?_
  have hrun : tickRun rearms s = [.roll 0,.roll 1,.unregister 2,.register 20 2] := by decide
  rw [hrun]
  simp only [Runs.forall_prefix_cons]
  refine ⟨trivial,trivial,fun j hj => Or.inl ?_,Or.inr (Or.inr (by decide)),fun pre e h => ?_⟩
  · have hfirst : (ledger s [.roll 0,.roll 1]).timers.first 2 = some 1 := by decide
    obtain rfl : j = 1 := Option.some.inj ((first_eq_some.mpr hj).symm.trans hfirst)
    decide
  · exact absurd (List.prefix_nil.mp h) (by simp)

def registers (h : Handler) (_ : Timers) : List Api := if h = 1 then [.register 100 2] else []

def removes (h : Handler) (_ : Timers) : List Api := if h = 1 then [.unregister 2] else []

def alone : Timers := run (boot (fun _ => ⟨0,0,0⟩)) [.register 10 1]

def three : Timers := run (boot (fun _ => ⟨0,0,0⟩)) [.register 10 1,.register 20 2,.register 30 3]

/-- A timer registered by the handler of the only one is advanced in the same tick. Of three
timers the first removes the second, and the third is not advanced. -/
theorem handler_disturbs_tick :
    ((timerRolling (acts registers) alone).1.timer_list 1).counter = 90 ∧
    ¬ (ledger alone (tickRun registers alone)).Once alone.timer_num ∧
    2 ∈ (ledger three (tickRun removes three)).live ∧
    ¬ (ledger three (tickRun removes three)).Once three.timer_num := by
  refine ⟨by decide,fun honce => honce.2 1 (by decide) (by decide),by decide,fun honce => ?_⟩
  exact absurd (honce.1 2 (by decide) (by decide)) (by decide)

end Micron.Kernel.Systimer

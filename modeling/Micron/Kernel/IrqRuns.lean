import Micron.Kernel.Trap

/-! # Interrupt lines over whole runs

A run installs and removes handlers, masks lines and takes requests of the devices. It behaves
as a table of sixteen lines that are open or closed and carry handlers: no controller, no
descriptor and no stack shows.
-/
namespace Micron.Kernel.Irq
open Function Bytes Micron.Pic Micron.Ia32 Trap

inductive Event (H : Type)
  | install (index : ℤ) (h : Option H)
  | mask (irq : ℤ) (enabled : Bool)
  | request (n : Fin 16) (c : Cpu)
  | spurious (slave : Bool) (c : Cpu)

def Enabled (c : Cpu) : Prop := c.eflags &&& 0x200 ≠ 0

instance (c : Cpu) : Decidable (Enabled c) := inferInstanceAs (Decidable (_ ≠ _))

section
variable {H ω : Type} (call : H → UInt32 → (ℕ → UInt8) → ω → Except Halt ((ℕ → UInt8) × ω))
  (addr : Stub → UInt32) (entry ret : UInt32) (left : UInt32 × UInt32 × UInt32) (idt : ℕ → Descriptors.Idt)

def isrEntryC (regs : UInt32) (m : ℕ → UInt8) (s : State H ω) : Except Halt (Returned (State H ω)) :=
  (isrEntry call regs m s).map fun x => ⟨left.1,left.2.1,left.2.2,x.1,x.2⟩

def deliver (v : UInt8) (c : Cpu) (s : State H ω) : Except Halt (State H ω) :=
  match trap addr entry ret (isrEntryC call left) (idtInit addr idt) v.toNat none c s with
  | some r => r.map Prod.snd
  | none => .error .wild

/-- A request that does not get through stays with the controllers. -/
def step (s : State H ω) : Event H → Except Halt (State H ω)
  | .install index h => irqInstall index h s
  | .mask irq enabled => .ok { s with pics := irqMask irq enabled s.pics }
  | .request n c =>
    if Enabled c then
      match s.pics.raise n with
      | some (v,pics) => deliver call addr entry ret left idt v c { s with pics := pics }
      | none => .ok s
    else .ok s
  | .spurious slave c =>
    if Enabled c then
      deliver call addr entry ret left idt (s.pics.spurious slave).1 c { s with pics := (s.pics.spurious slave).2 }
    else .ok s

def run (s : State H ω) : List (Event H) → Except Halt (State H ω)
  | [] => .ok s
  | e :: es => (step call addr entry ret left idt s e).bind fun t => run t es

end

/-! ## The table of lines -/

structure Lines (H ω : Type) where
  isOpen : Fin 16 → Bool
  handler : Fin 16 → Option H
  messages : List ℕ
  world : ω

namespace Lines
section
variable {H ω : Type} (call : H → UInt32 → (ℕ → UInt8) → ω → Except Halt ((ℕ → UInt8) × ω)) (ret : UInt32)

def Reaches (l : Lines H ω) (n : Fin 16) : Prop := n ≠ 2 ∧ l.isOpen n ∧ (8 ≤ n → l.isOpen 2)

instance (l : Lines H ω) (n : Fin 16) : Decidable (l.Reaches n) := inferInstanceAs (Decidable (_ ∧ _ ∧ _))

/-- The handler of the line is called with the registers that were saved below the stack of the
interrupted code; a line without one is reported, line 7 excepted. -/
def serve (n : Fin 16) (c : Cpu) (l : Lines H ω) : Except Halt (Lines H ω) :=
  match l.handler n with
  | some h => (call h (c.esp - 72) (frameMem c (32 + n.val).toUInt32 0 ret) l.world).map fun x => { l with world := x.2 }
  | none => .ok (if n.val = 7 then l else { l with messages := l.messages ++ [n.val] })

def step (l : Lines H ω) : Event H → Except Halt (Lines H ω)
  | .install index h =>
    if hi : index.toNat < 16 ∧ 0 ≤ index then
      .ok { l with handler := update l.handler ⟨index.toNat,hi.1⟩ h, isOpen := update l.isOpen ⟨index.toNat,hi.1⟩ h.isSome }
    else .error .wild
  | .mask irq enabled =>
    .ok (if hi : irq.toNat < 16 ∧ 0 ≤ irq then { l with isOpen := update l.isOpen ⟨irq.toNat,hi.1⟩ enabled } else l)
  | .request n c => if Enabled c ∧ l.Reaches n then serve call ret n c l else .ok l
  | .spurious slave c => if Enabled c then serve call ret ⟨if slave then 15 else 7,by split <;> decide⟩ c l else .ok l

def run (l : Lines H ω) : List (Event H) → Except Halt (Lines H ω)
  | [] => .ok l
  | e :: es => (step call ret l e).bind fun l => run l es

end
end Lines

def State.lines {H ω : Type} (s : State H ω) : Lines H ω :=
  ⟨fun n => !lineMasked s.pics n,s.irq_handler,s.messages,s.world⟩

/-! ## The run is a run of the table -/

section
variable {H ω : Type} {call : H → UInt32 → (ℕ → UInt8) → ω → Except Halt ((ℕ → UInt8) × ω)}
  {addr : Stub → UInt32} {entry ret : UInt32} {left : UInt32 × UInt32 × UInt32} {idt : ℕ → Descriptors.Idt}
  {s : State H ω} {c : Cpu} {n : Fin 16} {e : Event H}

theorem isrEntry_line (hroom : 80 ≤ c.esp.toNat) (n : Fin 16) :
    isrEntry call (c.esp - 72) (frameMem c (32 + n.val).toUInt32 0 ret) s =
    irqEntry call n (c.esp - 72) (frameMem c (32 + n.val).toUInt32 0 ret) s := by
  have hv : (32 + n.val).toUInt32.toNat = 32 + n.val := by
    rw [Nat.toUInt32_eq,UInt32.toNat_ofNat',Nat.mod_eq_of_lt (by omega)]
  simp only [isrEntry,frameMem_intn _ 0 ret hroom,hv]
  rw [dif_neg (by omega),dif_pos (by omega)]
  simp only [Nat.add_sub_cancel_left]

theorem deliver_line (hd : Apart addr) (hroom : 80 ≤ c.esp.toNat) {v : UInt8} (hv : v.toNat = 32 + n.val) :
    deliver call addr entry ret left idt v c s =
    (irqEntry call n (c.esp - 72) (frameMem c (32 + n.val).toUInt32 0 ret) s).map Prod.snd := by
  have herr : (none : Option UInt32).isSome = decide (32 + n.val ∈ errVectors) := by
    symm
    rw [Option.isSome_none,decide_eq_false_iff_not,errVectors]
    simp only [List.mem_cons,List.not_mem_nil,or_false]
    omega
  rw [deliver,hv,trap_eq (isrEntryC call left) hd idt (by omega) herr hroom,Option.getD_none,vectorNumber,
    if_pos (Or.inl (by omega)),isrEntryC,isrEntry_line hroom]
  cases irqEntry call n (c.esp - 72) (frameMem c (32 + n.val).toUInt32 0 ret) s with
  | error h => rfl
  | ok x => rfl

theorem irqEntry_some {h : H} (hh : s.irq_handler n = some h) (regs : UInt32) (m : ℕ → UInt8) :
    irqEntry call n regs m s =
    (call h regs m s.world).map fun x => (x.1,{ s with world := x.2, pics := irqEoi n s.pics }) := by
  simp only [irqEntry,hh,reduceCtorEq,false_and,if_false,handle]
  cases call h regs m s.world with
  | error e => rfl
  | ok x => rfl

theorem irqEntry_none (hh : s.irq_handler n = none) (regs : UInt32) (m : ℕ → UInt8) :
    irqEntry call n regs m s = .ok (m,{ s with
      messages := if n.val = 7 then s.messages else s.messages ++ [n.val], pics := irqEoi n s.pics }) := by
  by_cases h7 : n.val = 7
  · simp only [irqEntry,hh,h7,ne_eq,not_true_eq_false,and_false,if_false,if_true]
    rfl
  · simp only [irqEntry,hh,h7,ne_eq,not_false_eq_true,and_self,if_false,if_true]
    rfl

/-- The outcome is that of the table, and the controllers are idle again. -/
def Refines (r : Except Halt (State H ω)) (l : Except Halt (Lines H ω)) : Prop :=
  r.map State.lines = l ∧ ∀ t, r = .ok t → t.pics.Idle 0x20 0x28

theorem refines_ok {t : State H ω} {l : Lines H ω} (hl : t.lines = l) (ht : t.pics.Idle 0x20 0x28) :
    Refines (.ok t) (.ok l) :=
  ⟨congrArg Except.ok hl,fun _ hu => Except.ok.inj hu ▸ ht⟩

theorem refines_error {h : Halt} : Refines (.error h : Except Halt (State H ω)) (.error h) := by
  constructor
  · rfl
  · intro t ht
    cases ht

/-- A line is served, and its end of interrupt leads back to the controllers `p`. -/
theorem deliver_refines (hd : Apart addr) (hroom : 80 ≤ c.esp.toNat) {v : UInt8} (hv : v.toNat = 32 + n.val) {t : Pair}
    (hs : s.pics.Idle 0x20 0x28) (ht : irqEoi n t = s.pics) :
    Refines (deliver call addr entry ret left idt v c { s with pics := t }) (Lines.serve call ret n c s.lines) := by
  rw [deliver_line hd hroom hv]
  cases hh : s.irq_handler n with
  | none =>
    rw [irqEntry_none (s := { s with pics := t }) hh,Lines.serve,show s.lines.handler n = none from hh]
    apply refines_ok
    · simp only [State.lines,ht]
      split <;> rfl
    · simp only [ht]
      exact hs
  | some h =>
    rw [irqEntry_some (s := { s with pics := t }) hh,Lines.serve,show s.lines.handler n = some h from hh]
    change Refines _ ((call h (c.esp - 72) (frameMem c (32 + n.val).toUInt32 0 ret) s.world).map _)
    simp only [ht]
    cases call h (c.esp - 72) (frameMem c (32 + n.val).toUInt32 0 ret) s.world with
    | error e => exact refines_error
    | ok x => exact refines_ok rfl hs

def Event.Room : Event H → Prop
  | .request _ c => 80 ≤ c.esp.toNat
  | .spurious _ c => 80 ≤ c.esp.toNat
  | _ => True

theorem lines_mask (hs : s.pics.Idle 0x20 0x28) (n : Fin 16) (enabled : Bool) :
    { s with pics := irqMask n.val enabled s.pics }.lines = { s.lines with isOpen := update s.lines.isOpen n enabled } := by
  simp only [State.lines,Lines.mk.injEq,and_true]
  funext k
  rw [irqMask_line hs n.isLt k.isLt,update_apply]
  by_cases hk : k = n
  · simp [hk]
  · simp [hk,Fin.val_inj]

theorem reaches_iff (hs : s.pics.Idle 0x20 0x28) (n : Fin 16) : s.lines.Reaches n ↔ (s.pics.raise n).isSome := by
  rw [raise_isSome hs,Lines.Reaches]
  have h2 : n ≠ 2 ↔ n.val ≠ 2 := by rw [ne_eq,← Fin.val_inj]; rfl
  simp only [State.lines,Bool.not_eq_true',h2]
  constructor
  · rintro ⟨h,ho,hc⟩
    exact ⟨n.isLt,h,ho,hc⟩
  · rintro ⟨-,h,ho,hc⟩
    exact ⟨h,ho,hc⟩

theorem step_refines (hd : Apart addr) (hs : s.pics.Idle 0x20 0x28) (he : e.Room) :
    Refines (step call addr entry ret left idt s e) (s.lines.step call ret e) := by
  cases e with
  | install index h =>
    rw [step,Lines.step,irqInstall]
    by_cases hi : 0 ≤ index ∧ index.toNat < 16
    · rw [dif_pos hi,dif_pos hi.symm]
      obtain ⟨hi0,hi⟩ := hi
      obtain ⟨k,rfl⟩ := Int.eq_ofNat_of_zero_le hi0
      apply refines_ok
      · exact congrArg (fun o => Lines.mk o (update s.irq_handler ⟨k,hi⟩ h) s.messages s.world)
          (congrArg Lines.isOpen (lines_mask hs ⟨k,hi⟩ h.isSome))
      · exact irqMask_idle hs hi h.isSome
    · rw [dif_neg hi,dif_neg (mt And.symm hi)]
      exact refines_error
  | mask irq enabled =>
    rw [step,Lines.step]
    by_cases hi : 0 ≤ irq ∧ irq.toNat < 16
    · rw [dif_pos hi.symm]
      obtain ⟨hi0,hi⟩ := hi
      obtain ⟨k,rfl⟩ := Int.eq_ofNat_of_zero_le hi0
      exact refines_ok (lines_mask hs ⟨k,hi⟩ enabled) (irqMask_idle hs hi enabled)
    · rw [dif_neg (mt And.symm hi),irqMask,if_pos (by omega)]
      exact refines_ok rfl hs
  | request n c =>
    rw [step,Lines.step]
    by_cases hc : Enabled c
    · rw [if_pos hc]
      cases hr : s.pics.raise n with
      | none =>
        rw [if_neg (by rw [reaches_iff hs,hr]; simp)]
        exact refines_ok rfl hs
      | some x =>
        obtain ⟨v,t⟩ := x
        obtain ⟨hv,ht⟩ := raise_eoi hs hr
        rw [if_pos ⟨hc,by rw [reaches_iff hs,hr]; rfl⟩]
        exact deliver_refines hd he hv hs ht
    · rw [if_neg hc,if_neg (fun h => hc h.1)]
      exact refines_ok rfl hs
  | spurious slave c =>
    rw [step,Lines.step]
    by_cases hc : Enabled c
    · rw [if_pos hc,if_pos hc]
      obtain ⟨hv,ht⟩ := spurious_eoi hs slave
      cases slave with
      | false => exact deliver_refines hd he hv hs ht
      | true => exact deliver_refines hd he hv hs ht
    · rw [if_neg hc,if_neg hc]
      exact refines_ok rfl hs

theorem run_refines (hd : Apart addr) (es : List (Event H)) (hs : s.pics.Idle 0x20 0x28) (hr : ∀ e ∈ es, e.Room) :
    Refines (run call addr entry ret left idt s es) (s.lines.run call ret es) := by
  induction es generalizing s with
  | nil => exact refines_ok rfl hs
  | cons e es ih =>
    have hstep : Refines (step call addr entry ret left idt s e) (s.lines.step call ret e) :=
      step_refines hd hs (hr e List.mem_cons_self)
    obtain ⟨hl,hi⟩ := hstep
    rw [run,Lines.run,← hl]
    cases ht : step call addr entry ret left idt s e with
    | error h => exact refines_error
    | ok t => exact ih (hi t ht) (fun e he => hr e (List.mem_cons_of_mem _ he))

/-- Every run of the interrupt system from its initialization on is the run of a table of
sixteen lines of which only line 2 is open at first, and ends with idle controllers. A request
gets through while interrupts are enabled; line 2 itself is raised by the second controller only. -/
theorem interrupts_run_lines (call : H → UInt32 → (ℕ → UInt8) → ω → Except Halt ((ℕ → UInt8) × ω)) (addr : Stub → UInt32)
    (hd : Apart addr) (entry ret : UInt32) (left : UInt32 × UInt32 × UInt32) (idt : ℕ → Descriptors.Idt) (s : State H ω)
    (es : List (Event H)) (hr : ∀ e ∈ es, e.Room) :
    (run call addr entry ret left idt (irqInit s) es).map State.lines =
      Lines.run call ret ⟨fun n => decide (n = 2),s.irq_handler,s.messages,s.world⟩ es ∧
    ∀ t, run call addr entry ret left idt (irqInit s) es = .ok t → t.pics.Idle 0x20 0x28 := by
  have hl : (irqInit s).lines = ⟨fun n => decide (n = 2),s.irq_handler,s.messages,s.world⟩ := by
    simp only [irqInit,State.lines,Lines.mk.injEq,and_true]
    funext n
    -- whatever the controllers were, their masks are now 0xFB and 0xFF
    change (!lineMasked ⟨⟨0x20,0xFB,0,0⟩,⟨0x28,0xFF,0,0⟩⟩ n) = decide (n = 2)
    revert n
    decide
  rw [← hl]
  exact run_refines hd es ⟨⟨rfl,rfl,rfl⟩,⟨rfl,rfl,rfl⟩⟩ hr

end

def blank : State ℕ (List ℕ) := ⟨fun _ => none,fun _ => none,⟨⟨0,0,0,0⟩,⟨0,0,0,0⟩⟩,[],[]⟩

def noting (h : ℕ) (_ : UInt32) (m : ℕ → UInt8) (w : List ℕ) : Except Halt ((ℕ → UInt8) × List ℕ) := .ok (m,w ++ [h])

/-- The handler of the disk runs when its line asks, and the line without a handler does not. -/
theorem disk_request_served : ((run noting layout 0 0 (0,0,0) (fun _ => ⟨0,0,0,0,0,0,0,0,0⟩) (irqInit blank)
    [.install 14 (some 7),.request 14 start,.request 3 start]).map State.lines).map Lines.world = .ok [7] := by
  have h := (interrupts_run_lines noting layout layout_apart 0 0 (0,0,0) (fun _ => ⟨0,0,0,0,0,0,0,0,0⟩) blank
    [.install 14 (some 7),.request 14 start,.request 3 start] (by simp [Event.Room]; decide)).1
  rw [h]
  rfl

end Micron.Kernel.Irq

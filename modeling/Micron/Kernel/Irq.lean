import Micron.Lib.Ia32
import Micron.Lib.Pic

/-! # Interrupt tables and the interrupt controllers

The handlers of the 32 processor exceptions and of the 16 interrupt lines. Installing a
handler of a line opens the line in the controllers and removing it closes the line.
-/
namespace Micron.Kernel.Irq
open Function Micron.Pic Micron.Bits Micron.Ia32

inductive Halt
  | panic
  | wild
deriving DecidableEq, Repr

/-- The tables, the controllers, the interrupts reported by `MSG` and what the handlers of the
drivers work on. -/
structure State (H ω : Type*) where
  isr_handler : Fin 32 → Option H
  irq_handler : Fin 16 → Option H
  pics : Pair
  messages : List ℕ
  world : ω

variable {H ω : Type*}

def irqEoi (irq : ℕ) (s : Pair) : Pair := (if 8 ≤ irq then s.outb 0xA0 0x20 else s).outb 0x20 0x20

def picInit (s : Pair) : Pair :=
  s.outs [(0x20,0x11),(0x21,0x20),(0x21,0x04),(0x21,0x01),
    (0xA0,0x11),(0xA1,0x28),(0xA1,0x02),(0xA1,0x01),(0x21,0xFB),(0xA1,0xFF)]

def irqInit (s : State H ω) : State H ω := { s with pics := picInit s.pics }

def maskWord (irq : ℕ) (enabled : Bool) (w : UInt8) : UInt8 :=
  match irq with
  | 1 | 9 => if enabled then w &&& 0xFD else w ||| 0x02
  | 0 | 8 => if enabled then w &&& 0xFE else w ||| 0x01
  | 2 | 10 => if enabled then w &&& 0xFB else w ||| 0x04
  | 3 | 11 => if enabled then w &&& 0xF7 else w ||| 0x08
  | 4 | 12 => if enabled then w &&& 0xEF else w ||| 0x10
  | 5 | 13 => if enabled then w &&& 0xDF else w ||| 0x20
  | 6 | 14 => if enabled then w &&& 0xBF else w ||| 0x40
  | 7 | 15 => if enabled then w &&& 0x7F else w ||| 0x80
  | _ => w

def irqMask (irq : ℤ) (enabled : Bool) (s : Pair) : Pair :=
  if irq < 0 ∨ 15 < irq then s
  else if irq < 8 then s.outb 0x21 (maskWord irq.toNat enabled (s.inb 0x21))
  else s.outb 0xA1 (maskWord irq.toNat enabled (s.inb 0xA1))

/-- An index outside the table writes over other variables. -/
def isrInstall (index : ℤ) (h : Option H) (s : State H ω) : Except Halt (State H ω) :=
  if hi : 0 ≤ index ∧ index.toNat < 32 then .ok { s with isr_handler := update s.isr_handler ⟨index.toNat,hi.2⟩ h }
  else .error .wild

def irqInstall (index : ℤ) (h : Option H) (s : State H ω) : Except Halt (State H ω) :=
  if hi : 0 ≤ index ∧ index.toNat < 16 then
    .ok { s with irq_handler := update s.irq_handler ⟨index.toNat,hi.2⟩ h, pics := irqMask index h.isSome s.pics }
  else .error .wild

section
variable (call : H → UInt32 → (ℕ → UInt8) → ω → Except Halt ((ℕ → UInt8) × ω))

def handle (h : H) (regs : UInt32) (m : ℕ → UInt8) (s : State H ω) : Except Halt ((ℕ → UInt8) × State H ω) :=
  (call h regs m s.world).map fun x => (x.1,{ s with world := x.2 })

/-- The branch of `isr_entry` for the interrupt lines. -/
def irqEntry (irq : Fin 16) (regs : UInt32) (m : ℕ → UInt8) (s : State H ω) :
    Except Halt ((ℕ → UInt8) × State H ω) :=
  let s := if s.irq_handler irq = none ∧ irq.val ≠ 7 then { s with messages := s.messages ++ [irq.val] } else s
  let called := match s.irq_handler irq with
    | some h => handle call h regs m s
    | none => .ok (m,s)
  called.map fun x => (x.1,{ x.2 with pics := irqEoi irq x.2.pics })

/-- `regs` points to the saved registers; the interrupt number is their 14th word. Vector 0x80
reads the exception table behind its end. -/
def isrEntry (regs : UInt32) (m : ℕ → UInt8) (s : State H ω) : Except Halt ((ℕ → UInt8) × State H ω) :=
  let intn := (peek m (regs + 52)).toNat
  if hi : intn < 32 then
    match s.isr_handler ⟨intn,hi⟩ with
    | none => .error .panic
    | some h => handle call h regs m s
  else if hi : intn - 32 < 16 then irqEntry call ⟨intn - 32,hi⟩ regs m s
  else if intn = 0x80 then .error .wild
  else .ok (m,s)

end

variable {s t : Pair} {n k : ℕ} {b b' v : UInt8}

/-! ## The masks -/

theorem maskWord_eq (hn : n < 16) (e : Bool) (w : UInt8) : maskWord n e w = mark w (7 - n % 8) (!e) := by
  interval_cases n <;> cases e <;> rfl

def lineMasked (s : Pair) (n : ℕ) : Bool := if n < 8 then s.master.masked n else s.slave.masked (n - 8)

theorem irqMask_master (hs : s.Idle b b') (hn : n < 8) (e : Bool) :
    irqMask n e s = { s with master.imr := mark s.master.imr (7 - n) (!e) } := by
  rw [irqMask,if_neg (by omega),if_pos (by omega),Int.toNat_natCast,maskWord_eq (by omega),Nat.mod_eq_of_lt hn]
  simp [Pair.outb,Pair.inb,Chip.data,hs.master.2.2]

theorem irqMask_slave (hs : s.Idle b b') (hn : 8 ≤ n) (hn' : n < 16) (e : Bool) :
    irqMask n e s = { s with slave.imr := mark s.slave.imr (7 - (n - 8)) (!e) } := by
  rw [irqMask,if_neg (by omega),if_neg (by omega),Int.toNat_natCast,maskWord_eq hn',show n % 8 = n - 8 by omega]
  simp [Pair.outb,Pair.inb,Chip.data,hs.slave.2.2]

theorem irqMask_idle (hs : s.Idle b b') (hn : n < 16) (e : Bool) : (irqMask n e s).Idle b b' := by
  by_cases h : n < 8
  · rw [irqMask_master hs h]
    exact ⟨hs.master,hs.slave⟩
  · rw [irqMask_slave hs (by omega) hn]
    exact ⟨hs.master,hs.slave⟩

theorem irqMask_line (hs : s.Idle b b') (hn : n < 16) (hk : k < 16) (e : Bool) :
    lineMasked (irqMask n e s) k = if k = n then !e else lineMasked s k := by
  by_cases h : n < 8
  · rw [irqMask_master hs h]
    by_cases hk8 : k < 8
    · simp only [lineMasked,if_pos hk8,Chip.masked]
      rw [bit_mark _ (by omega) (by omega)]
      exact if_congr (by omega) rfl rfl
    · simp only [lineMasked,if_neg hk8]
      rw [if_neg (by omega)]
  · rw [irqMask_slave hs (by omega) hn]
    by_cases hk8 : k < 8
    · simp only [lineMasked,if_pos hk8]
      rw [if_neg (by omega)]
    · simp only [lineMasked,if_neg hk8,Chip.masked]
      rw [bit_mark _ (by omega) (by omega)]
      exact if_congr (by omega) rfl rfl

/-! ## Requests -/

/-- A request of an idle pair gets through if its line is open, and that of the slave as well
for the lines behind it. -/
theorem raise_isSome (hs : s.Idle b b') : (s.raise n).isSome ↔
    n < 16 ∧ n ≠ 2 ∧ lineMasked s n = false ∧ (8 ≤ n → lineMasked s 2 = false) := by
  rw [Pair.raise,lineMasked,accepts_idle hs.master.2.1,accepts_idle hs.slave.2.1,accepts_idle hs.master.2.1]
  by_cases h : n < 8
  · rw [if_pos h,if_pos h]
    by_cases hc : n ≠ 2 ∧ s.master.masked n = false
    · simp [hc,show n < 16 by omega]
      omega
    · rw [if_neg (by simpa using hc)]
      simp only [Option.isSome_none,Bool.false_eq_true,false_iff]
      tauto
  · rw [if_neg h,if_neg h]
    by_cases hc : n < 16 ∧ s.slave.masked (n - 8) = false ∧ s.master.masked 2 = false
    · simp [hc,lineMasked]
      omega
    · rw [if_neg (by simpa using hc)]
      simp only [Option.isSome_none,Bool.false_eq_true,false_iff,lineMasked]
      intro hx
      exact hc ⟨hx.1,hx.2.2.1,hx.2.2.2 (by omega)⟩

theorem irqEoi_low (h : n < 8) : irqEoi n s = { s with master := s.master.command 0x20 } := by
  rw [irqEoi,if_neg (by omega)]
  rfl

theorem irqEoi_high (h : 8 ≤ n) : irqEoi n s = ⟨s.master.command 0x20,s.slave.command 0x20⟩ := by
  rw [irqEoi,if_pos h]
  rfl

theorem raise_eoi (hs : s.Idle 0x20 0x28) (h : s.raise n = some (v,t)) : v.toNat = 32 + n ∧ irqEoi n t = s := by
  rw [Pair.raise] at h
  by_cases h8 : n < 8
  · rw [if_pos h8] at h
    obtain ⟨hv,ht⟩ := Prod.mk.inj (Option.some.inj (Option.ite_none_right_eq_some.mp h).2)
    constructor
    · rw [← hv,hs.master.1]
      interval_cases n <;> rfl
    · rw [← ht,irqEoi_low h8]
      simp only [accept_end hs.master.2.1 h8]
  · rw [if_neg h8] at h
    obtain ⟨hc,h⟩ := Option.ite_none_right_eq_some.mp h
    obtain ⟨hv,ht⟩ := Prod.mk.inj (Option.some.inj h)
    constructor
    · rw [← hv,hs.slave.1]
      have hn := hc.1
      interval_cases n <;> rfl
    · rw [← ht,irqEoi_high (by omega)]
      simp only [accept_end hs.master.2.1 (show 2 < 8 by decide),accept_end hs.slave.2.1 (show n - 8 < 8 by omega)]

/-- So does the one after a request that was gone. -/
theorem spurious_eoi (hs : s.Idle 0x20 0x28) (slave : Bool) :
    (s.spurious slave).1.toNat = 32 + (if slave then 15 else 7) ∧
    irqEoi (if slave then 15 else 7) (s.spurious slave).2 = s := by
  cases slave with
  | false =>
    constructor
    · simp [Pair.spurious,hs.master.1]
    · rw [if_neg (by decide),irqEoi_low (by decide)]
      simp only [Pair.spurious,Bool.false_eq_true,if_false,idle_end hs.master.2.1]
  | true =>
    constructor
    · simp [Pair.spurious,hs.slave.1]
    · rw [if_pos rfl,irqEoi_high (by decide)]
      simp only [Pair.spurious,if_true,accept_end hs.master.2.1 (show 2 < 8 by decide),idle_end hs.slave.2.1]

end Micron.Kernel.Irq

import Micron.Lib.Bits

/-! # A cascaded pair of interrupt controllers of type 8259A

Fixed priorities, edge triggered, non-specific end of interrupt. Line 2 of the master
carries the slave. Commands outside this use are ignored.
-/
namespace Micron.Pic
open Bits

structure Chip where
  base : UInt8
  imr : UInt8
  isr : UInt8
  icw : ℕ
deriving DecidableEq, Repr

/-- A write at the even port. The first initialization word announces three more at the odd
port; an end of interrupt clears the in-service bit of the highest priority. -/
def Chip.command (p : Chip) (v : UInt8) : Chip :=
  if v &&& 0x10 ≠ 0 then { p with imr := 0, isr := 0, icw := 3 }
  else if v = 0x20 then { p with isr := p.isr &&& (p.isr - 1) }
  else p

def Chip.data (p : Chip) (v : UInt8) : Chip :=
  match p.icw with
  | 0 => { p with imr := v }
  | 3 => { p with base := v &&& 0xf8, icw := 2 }
  | n + 1 => { p with icw := n }

def Chip.masked (p : Chip) (n : ℕ) : Bool := bit p.imr (7 - n)

def Chip.accepts (p : Chip) (n : ℕ) : Bool := !p.masked n && decide (∀ i ≤ n, bit p.isr (7 - i) = false)

def Chip.accept (p : Chip) (n : ℕ) : Chip := { p with isr := p.isr ||| one (7 - n) }

structure Pair where
  master : Chip
  slave : Chip
deriving DecidableEq, Repr

namespace Pair

def outb (s : Pair) (port v : UInt8) : Pair :=
  if port = 0x20 then { s with master := s.master.command v }
  else if port = 0x21 then { s with master := s.master.data v }
  else if port = 0xA0 then { s with slave := s.slave.command v }
  else if port = 0xA1 then { s with slave := s.slave.data v }
  else s

def inb (s : Pair) (port : UInt8) : UInt8 := if port = 0x21 then s.master.imr else if port = 0xA1 then s.slave.imr else 0

def outs (s : Pair) (l : List (UInt8 × UInt8)) : Pair := l.foldl (fun s x => s.outb x.1 x.2) s

def raise (s : Pair) (n : ℕ) : Option (UInt8 × Pair) :=
  if n < 8 then
    if n ≠ 2 ∧ s.master.accepts n then some (s.master.base + n.toUInt8,{ s with master := s.master.accept n }) else none
  else if n < 16 ∧ s.slave.accepts (n - 8) ∧ s.master.accepts 2 then
    some (s.slave.base + (n - 8).toUInt8,⟨s.master.accept 2,s.slave.accept (n - 8)⟩)
  else none

/-- A request that is gone when it is acknowledged: the lowest line of the controller, without
an in-service bit. -/
def spurious (s : Pair) (slave : Bool) : UInt8 × Pair :=
  if slave then (s.slave.base + 7,{ s with master := s.master.accept 2 }) else (s.master.base + 7,s)

structure Idle (s : Pair) (base base' : UInt8) : Prop where
  master : s.master.base = base ∧ s.master.isr = 0 ∧ s.master.icw = 0
  slave : s.slave.base = base' ∧ s.slave.isr = 0 ∧ s.slave.icw = 0

end Pair

variable {p : Chip} {s : Pair} {n : ℕ} {b b' : UInt8}

theorem one_end (h : n < 8) : (0 ||| one (7 - n)) &&& ((0 ||| one (7 - n)) - 1) = 0 := by
  interval_cases n <;> rfl

/-- An interrupt of an idle controller is ended by one command. -/
theorem accept_end (hp : p.isr = 0) (h : n < 8) : (p.accept n).command 0x20 = p := by
  simp only [Chip.command,Chip.accept,hp]
  rw [if_neg (by decide),if_pos trivial,one_end h,← hp]

theorem idle_end (hp : p.isr = 0) : p.command 0x20 = p := by
  simp only [Chip.command,hp]
  rw [if_neg (by decide),if_pos trivial,show (0 : UInt8) &&& (0 - 1) = 0 from rfl,← hp]

theorem accepts_idle (hp : p.isr = 0) : p.accepts n = !p.masked n := by
  have hz : ∀ i ≤ n, bit p.isr (7 - i) = false := by
    intro i _
    rw [hp,bit]
    simp
  rw [Chip.accepts,decide_eq_true hz,Bool.and_true]

end Micron.Pic

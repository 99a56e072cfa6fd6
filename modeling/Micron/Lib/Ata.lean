import Mathlib.Data.Nat.Notation

/-! # An ATA drive that transfers sectors by programmed input and output

The drive is busy before each sector for as long as it likes. It then asks for the data to be
read or written, word by word, and is busy again after the last word of the sector. For a
sector to be read, for every sector to be written but the first, and at the end of a write it
requests an interrupt, which a read of the status takes back.
-/
namespace Micron.Ata

abbrev Sector := List UInt16

inductive Phase
  | idle
  /-- busy, with the sectors that are still to be read -/
  | fetch (secs : List Sector)
  /-- the rest of the sector that can be read, and the sectors behind it -/
  | data (words : List UInt16) (secs : List Sector)
  /-- busy, with the number of sectors that are still to be written -/
  | want (first : Bool) (n : ℕ)
  /-- the words of the sector that is written, and the number of sectors behind it -/
  | take (words : List UInt16) (n : ℕ)
  /-- busy with the last sector that was written -/
  | flush
  /-- a command has ended with an error -/
  | failed

/-- The sectors that were taken stand in `stored`. -/
structure Drive where
  phase : Phase
  intrq : Bool
  stored : List Sector

def Phase.status : Phase → UInt8
  | .idle => 0x50
  | .fetch _ => 0xD0
  | .data _ _ => 0x58
  | .want _ _ => 0xD0
  | .take _ _ => 0x58
  | .flush => 0xD0
  | .failed => 0x51

def Phase.asks : Phase → Bool
  | .data _ _ => true
  | .take _ _ => true
  | _ => false

def Phase.busy : Phase → Bool
  | .fetch _ => true
  | .want _ _ => true
  | .flush => true
  | _ => false

theorem Phase.status_asks (p : Phase) : p.status &&& 0x08 ≠ 0 ↔ p.asks = true := by
  cases p <;> simp only [status,asks] <;> decide

theorem Phase.status_error (p : Phase) : p.status &&& 0x01 ≠ 0 ↔ p = .failed := by
  cases p with
  | failed => exact iff_of_true (by decide) rfl
  | _ => exact iff_of_false (by simp only [status]; decide) (by simp)

def Phase.behind : List UInt16 → List Sector → Phase
  | [], [] => .idle
  | [], s :: l => .fetch (s :: l)
  | w :: ws, l => .data (w :: ws) l

namespace Drive

def read (d : Drive) (secs : List Sector) : Drive := { d with phase := .fetch secs, intrq := false }

def write (d : Drive) (n : ℕ) : Drive := { d with phase := .want true n, intrq := false }

def readStatus (d : Drive) : UInt8 × Drive := (d.phase.status,{ d with intrq := false })

/-- Without a word to be read the bus is open. -/
def readData (d : Drive) : UInt16 × Drive :=
  match d.phase with
  | .data (w :: ws) l => (w,{ d with phase := .behind ws l })
  | _ => (0xFFFF,d)

def writeData (d : Drive) (w : UInt16) : Drive :=
  match d.phase with
  | .take ws n =>
    if (ws ++ [w]).length = 256 then
      { d with phase := if n = 0 then .flush else .want false n, stored := d.stored ++ [ws ++ [w]] }
    else { d with phase := .take (ws ++ [w]) n }
  | _ => d

def ready (d : Drive) : Drive :=
  match d.phase with
  | .fetch (s :: l) => { d with phase := .data s l, intrq := true }
  | .want first (n + 1) => { d with phase := .take [] n, intrq := d.intrq || !first }
  | .flush => { d with phase := .idle, intrq := true }
  | _ => d

def fail (d : Drive) : Drive :=
  match d.phase with
  | .fetch _ => { d with phase := .failed, intrq := true }
  | .want _ _ => { d with phase := .failed, intrq := true }
  | .flush => { d with phase := .failed, intrq := true }
  | _ => d

end Drive

end Micron.Ata

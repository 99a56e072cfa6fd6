import Micron.Kernel.HdaInit
import Micron.Lib.Ata
import Micron.Lib.Turns

/-! # The driver of the hard disk and the drive

`hda_read` waits for the interrupt of the drive and `hda_write` does not. Both then move words
for as long as each look at the status says that the drive asks for data. The drive, the
interrupt and the driver take turns in any order.
-/
namespace Micron.Kernel.HdaPio
open Function Ata Turns

inductive Op
  | identify
  | read
  | write
deriving DecidableEq

/-- Where the driver is: at `while(!hda_stat.rready)`, at the look at the status, at the word it
moves, or back at the caller. -/
inductive Pc
  | wait
  | poll
  | move
  | done
deriving DecidableEq

/-- The drive, the fields of `hda_stat` in use, and the local state of the driver. A `PANIC` in
the interrupt handler halts the system. -/
structure Sys where
  drive : Drive
  cmd : UInt8
  rready : Bool
  C : UInt16
  H : UInt16
  S : UInt16
  cnt : UInt32
  op : Op
  pc : Pc
  i : ℕ
  buf : ℕ → UInt16
  halted : Bool

inductive Actor
  | host
  | drive
  | fault
  | irq
deriving DecidableEq

def CMD_IDENTIFY : UInt8 := 0xEC
def CMD_READ : UInt8 := 0x20
def CMD_WRITE : UInt8 := 0x30

/-- The loop over the words in the case `CMD_IDENTIFY`; the status asks for data as long as
there are words. -/
def identifyLoop : ℕ → List UInt16 → Sys → Sys
  | _, [], s => s
  | i, data :: ws, s =>
    let s := if i = 1 then { s with C := data } else if i = 3 then { s with H := data }
      else if i = 6 then { s with S := data } else s
    identifyLoop (i + 1) ws s

def hdaIntr (s : Sys) : Sys :=
  let (status,drive) := s.drive.readStatus
  let s := { s with drive := drive }
  if status &&& 0x01 ≠ 0 then { s with halted := true }
  else
    let s :=
      if s.cmd = CMD_IDENTIFY then
        match s.drive.phase with
        | .data ws l =>
          let s := identifyLoop 0 ws s
          { s with drive := { s.drive with phase := .behind [] l }, rready := true }
        | _ => { s with rready := true }
      else if s.cmd = CMD_READ then { s with rready := true }
      else if s.cmd = CMD_WRITE then { s with rready := true }
      else s
    { s with cmd := 0 }

def host (s : Sys) : Sys :=
  match s.pc with
  | .wait => if s.rready then { s with pc := if s.op = .identify then .done else .poll } else s
  | .poll =>
    let (status,drive) := s.drive.readStatus
    { s with drive := drive, pc := if status &&& 0x08 ≠ 0 then .move else .done }
  | .move =>
    if s.i < (s.cnt * 256).toNat then
      if s.op = .write then { s with drive := s.drive.writeData (s.buf s.i), i := s.i + 1, pc := .poll }
      else
        let (w,drive) := s.drive.readData
        { s with drive := drive, buf := update s.buf s.i w, i := s.i + 1, pc := .poll }
    else { s with pc := .poll }
  | .done => s

def step (s : Sys) : Actor → Sys
  | .host => if s.halted then s else host s
  | .drive => { s with drive := s.drive.ready }
  | .fault => { s with drive := s.drive.fail }
  | .irq => if s.drive.intrq ∧ ¬ s.halted then hdaIntr s else s

/-- The number of sectors that a drive takes the register for. -/
def sectorCount (r : UInt8) : ℕ := if r = 0 then 256 else r.toNat

abbrev Platter := Hda.Regs → ℕ → ℕ → UInt16

def sectors (p : Platter) (r : Hda.Regs) (n : ℕ) : List Sector :=
  (List.range n).map fun k => (List.range 256).map (p r k)

def address (g : Hda.HdaStat) : Hda.Regs :=
  ⟨(g.s &&& 0xFF).toUInt8,(g.c &&& 0xFF).toUInt8,((g.c >>> 8) &&& 0xFF).toUInt8,(g.h &&& 0x0F).toUInt8⟩

def hdaRead (p : Platter) (g : Hda.HdaStat) (cnt : UInt32) (buf : ℕ → UInt16) (s : Sys) : Sys :=
  { s with drive := s.drive.read (sectors p (address g) (sectorCount cnt.toUInt8)), cmd := CMD_READ, rready := false,
           cnt := cnt, op := .read, pc := .wait, i := 0, buf := buf }

def hdaWrite (cnt : UInt32) (buf : ℕ → UInt16) (s : Sys) : Sys :=
  { s with drive := s.drive.write (sectorCount cnt.toUInt8), cmd := CMD_WRITE,
           cnt := cnt, op := .write, pc := .poll, i := 0, buf := buf }

/-! ## Turns of the driver -/

section Turns
variable {s : Sys}

theorem host_poll (hpc : s.pc = .poll) :
    host s = { s with drive := { s.drive with intrq := false }, pc := if s.drive.phase.asks then .move else .done } := by
  simp only [host,hpc,Drive.readStatus,Phase.status_asks]

theorem host_wait (hpc : s.pc = .wait) (hr : s.rready = true) :
    host s = { s with pc := if s.op = .identify then .done else .poll } := by
  simp only [host,hpc,hr,if_true]

theorem host_read {w : UInt16} {ws : List UInt16} {l : List Sector} (hpc : s.pc = .move) (hop : s.op = .read)
    (hi : s.i < (s.cnt * 256).toNat) (hph : s.drive.phase = .data (w :: ws) l) :
    host s =
      { s with drive := { s.drive with phase := .behind ws l }, buf := update s.buf s.i w, i := s.i + 1, pc := .poll } := by
  simp only [host,hpc,if_pos hi,Drive.readData,hph]
  rw [if_neg (by rw [hop]; decide)]

theorem host_move (hpc : s.pc = .move) : (host s).pc = .poll := by
  simp only [host,hpc]
  split
  · split <;> rfl
  · rfl

theorem hdaIntr_failed (h : s.drive.phase = .failed) :
    hdaIntr s = { s with drive := { s.drive with intrq := false }, halted := true } := by
  simp only [hdaIntr,Drive.readStatus]
  exact if_pos ((Phase.status_error _).mpr h)

theorem hdaIntr_read (h : s.drive.phase ≠ .failed) (hc : s.cmd = CMD_READ) :
    hdaIntr s = { s with drive := { s.drive with intrq := false }, rready := true, cmd := 0 } := by
  simp only [hdaIntr,Drive.readStatus,hc]
  rw [if_neg (mt (Phase.status_error _).mp h)]
  rfl

theorem hdaIntr_none (h : s.drive.phase ≠ .failed) (hc : s.cmd = 0) :
    hdaIntr s = { s with drive := { s.drive with intrq := false }, cmd := 0 } := by
  simp only [hdaIntr,Drive.readStatus,hc]
  rw [if_neg (mt (Phase.status_error _).mp h)]
  rfl

end Turns

/-! ## Reading -/

section Reading
variable {c : UInt32} {all rest : List UInt16} {buf₀ : ℕ → UInt16} {s : Sys} {ph : Phase}

def Left (rest : List UInt16) : Phase → Prop
  | .idle => rest = []
  | .fetch l => l ≠ [] ∧ (∀ s ∈ l, s.length = 256) ∧ rest = l.flatten
  | .data w l => w ≠ [] ∧ (∀ s ∈ l, s.length = 256) ∧ rest = w ++ l.flatten
  | .failed => rest ≠ [] ∧ 256 ∣ rest.length
  | _ => False

def Data (ph : Phase) : Prop := ∃ w l, ph = .data w l

def Place (s : Sys) : Prop :=
  match s.pc with
  | .wait => s.i = 0 ∧ (s.rready = true ∧ Data s.drive.phase ∨ s.rready = false ∧ (s.halted ∨ s.cmd = CMD_READ ∧
      ((∃ l, s.drive.phase = .fetch l) ∧ s.drive.intrq = false ∨
        s.drive.intrq = true ∧ (Data s.drive.phase ∨ s.drive.phase = .failed))))
  | .poll => 0 < s.i ∨ Data s.drive.phase
  | .move => Data s.drive.phase
  | .done => 0 < s.i ∧ 256 ∣ s.i

structure Reading (c : UInt32) (all : List UInt16) (buf₀ : ℕ → UInt16) (s : Sys) : Prop where
  op : s.op = .read
  cmd : s.cmd = CMD_READ ∨ s.cmd = 0
  whole : 256 ∣ all.length
  count : s.cnt = c
  bound : s.i ≤ (c * 256).toNat
  moved : ∃ rest, (List.range s.i).map s.buf ++ rest = all ∧ Left rest s.drive.phase
  kept : ∀ j, s.i ≤ j → s.buf j = buf₀ j
  place : Place s

theorem flatten_length {l : List Sector} (h : ∀ s ∈ l, s.length = 256) : l.flatten.length = 256 * l.length := by
  rw [List.length_flatten,List.map_congr_left h,List.map_const',List.sum_replicate_nat,Nat.mul_comm]

theorem Left.dvd (h : Left rest ph) (hd : ¬ Data ph) : 256 ∣ rest.length := by
  cases ph with
  | idle => rw [show rest = [] from h]; exact Nat.dvd_zero _
  | fetch l =>
    obtain ⟨-,hl,rfl⟩ := h
    rw [flatten_length hl]
    exact Nat.dvd_mul_right _ _
  | data w l => exact absurd ⟨w,l,rfl⟩ hd
  | failed => exact h.2
  | _ => exact h.elim

/-- The status asks for data exactly if there is data. -/
theorem Left.asks (h : Left rest ph) : ph.asks = true ↔ Data ph := by
  cases ph with
  | data w l => exact iff_of_true rfl ⟨w,l,rfl⟩
  | take w n => exact h.elim
  | _ => exact iff_of_false Bool.false_ne_true (by rintro ⟨w,l,h⟩; cases h)

theorem Left.idle (h : Left [] ph) : ph = .idle := by
  cases ph with
  | idle => rfl
  | fetch l =>
    obtain ⟨hne,hlen,hflat⟩ := h
    have hz := flatten_length hlen
    rw [← hflat,List.length_nil] at hz
    have hpos := List.length_pos_of_ne_nil hne
    omega
  | data w l =>
    obtain ⟨hne,-,hflat⟩ := h
    exact absurd (List.append_eq_nil_iff.mp hflat.symm).1 hne
  | failed => exact absurd rfl h.1
  | _ => exact h.elim

theorem Left.behind {w : UInt16} {ws : List UInt16} {l : List Sector} (h : Left rest (.data (w :: ws) l)) :
    ∃ rest', rest = w :: rest' ∧ Left rest' (.behind ws l) := by
  obtain ⟨-,hl,rfl⟩ := h
  refine ⟨ws ++ l.flatten,rfl,?_⟩
  cases ws with
  | nil =>
    cases l with
    | nil => rfl
    | cons s l => exact ⟨List.cons_ne_nil _ _,hl,rfl⟩
  | cons w' ws => exact ⟨List.cons_ne_nil _ _,hl,rfl⟩

theorem map_range_update (f : ℕ → UInt16) (n : ℕ) (w : UInt16) :
    (List.range (n + 1)).map (update f n w) = (List.range n).map f ++ [w] := by
  rw [List.range_succ,List.map_append,List.map_singleton,update_self]
  congr 1
  apply List.map_congr_left
  intro j hj
  rw [update_of_ne (Nat.ne_of_lt (List.mem_range.mp hj))]

theorem Reading.host (h : Reading c all buf₀ s) : Reading c all buf₀ (host s) := by
  obtain ⟨rest,hrest,hleft⟩ := h.moved
  have hplace := h.place
  cases hpc : s.pc with
  | wait =>
    simp only [Place,hpc] at hplace
    obtain ⟨hi,⟨hr,hd⟩ | ⟨hr,-⟩⟩ := hplace
    · rw [host_wait hpc hr,if_neg (by rw [h.op]; decide)]
      exact ⟨h.op,h.cmd,h.whole,h.count,h.bound,h.moved,h.kept,Or.inr hd⟩
    · simp only [HdaPio.host,hpc,hr]
      exact h
  | poll =>
    simp only [Place,hpc] at hplace
    rw [host_poll hpc]
    by_cases hd : Data s.drive.phase
    · rw [if_pos (hleft.asks.mpr hd)]
      exact ⟨h.op,h.cmd,h.whole,h.count,h.bound,⟨rest,hrest,hleft⟩,h.kept,hd⟩
    · rw [if_neg (mt hleft.asks.mp hd)]
      refine ⟨h.op,h.cmd,h.whole,h.count,h.bound,⟨rest,hrest,hleft⟩,h.kept,hplace.resolve_right hd,?_⟩
      have hlen := congrArg List.length hrest
      rw [List.length_append,List.length_map,List.length_range] at hlen
      exact (Nat.dvd_add_left (hleft.dvd hd)).mp (hlen ▸ h.whole)
  | move =>
    simp only [Place,hpc] at hplace
    by_cases hi : s.i < (s.cnt * 256).toNat
    · obtain ⟨w,l,hph⟩ := hplace
      rw [hph] at hleft
      cases w with
      | nil => exact absurd rfl hleft.1
      | cons w ws =>
        obtain ⟨rest',rfl,hleft'⟩ := hleft.behind
        rw [host_read hpc h.op hi hph]
        refine ⟨h.op,h.cmd,h.whole,h.count,h.count ▸ hi,⟨rest',?_,hleft'⟩,fun j hj => ?_,Or.inl (Nat.succ_pos _)⟩
        · rw [map_range_update,List.append_assoc]
          exact hrest
        · exact (update_of_ne (Nat.ne_of_gt hj) _ _).trans (h.kept j (Nat.le_of_succ_le hj))
    · -- no word is taken, and the drive goes on asking
      simp only [HdaPio.host,hpc,if_neg hi]
      exact ⟨h.op,h.cmd,h.whole,h.count,h.bound,h.moved,h.kept,Or.inr hplace⟩
  | done =>
    simp only [HdaPio.host,hpc]
    exact h

theorem Reading.goes {d : Drive} (h : Reading c all buf₀ s) (hleft : ∀ rest, Left rest s.drive.phase → Left rest d.phase)
    (hdata : Data s.drive.phase → d.phase = s.drive.phase ∧ (s.drive.intrq → d.intrq))
    (hwait : (∃ l, s.drive.phase = .fetch l) → d.phase = s.drive.phase ∧ d.intrq = s.drive.intrq ∨
      d.intrq = true ∧ (Data d.phase ∨ d.phase = .failed))
    (hfail : s.drive.phase = .failed → d = s.drive) : Reading c all buf₀ { s with drive := d } := by
  obtain ⟨rest,hrest,hl⟩ := h.moved
  have hplace := h.place
  refine ⟨h.op,h.cmd,h.whole,h.count,h.bound,⟨rest,hrest,hleft rest hl⟩,h.kept,?_⟩
  have hkeep : Data s.drive.phase → Data d.phase := fun hd => (hdata hd).1 ▸ hd
  cases hpc : s.pc with
  | wait =>
    simp only [Place,hpc] at hplace ⊢
    obtain ⟨hi,⟨hr,hd⟩ | ⟨hr,hw⟩⟩ := hplace
    · exact ⟨hi,Or.inl ⟨hr,hkeep hd⟩⟩
    · refine ⟨hi,Or.inr ⟨hr,?_⟩⟩
      obtain hw | ⟨hc,⟨hf,hq⟩ | ⟨hq,hd | hf⟩⟩ := hw
      · exact Or.inl hw
      · obtain ⟨hph,hsame⟩ | hd := hwait hf
        · rw [hph,hsame]
          exact Or.inr ⟨hc,Or.inl ⟨hf,hq⟩⟩
        · exact Or.inr ⟨hc,Or.inr hd⟩
      · exact Or.inr ⟨hc,Or.inr ⟨(hdata hd).2 hq,Or.inl (hkeep hd)⟩⟩
      · rw [hfail hf]
        exact Or.inr ⟨hc,Or.inr ⟨hq,Or.inr hf⟩⟩
  | poll =>
    simp only [Place,hpc] at hplace ⊢
    exact hplace.imp_right hkeep
  | move =>
    simp only [Place,hpc] at hplace ⊢
    exact hkeep hplace
  | done =>
    simp only [Place,hpc] at hplace ⊢
    exact hplace

theorem Reading.drive (h : Reading c all buf₀ s) : Reading c all buf₀ (step s .drive) := by
  apply h.goes
  · intro rest hl
    rw [Drive.ready]
    cases hph : s.drive.phase with
    | fetch l =>
      rw [hph] at hl
      cases l with
      | nil => exact absurd rfl hl.1
      | cons x l =>
        have hx : x ≠ [] := List.ne_nil_of_length_pos (by rw [hl.2.1 x List.mem_cons_self]; decide)
        exact ⟨hx,fun t ht => hl.2.1 t (List.mem_cons_of_mem _ ht),hl.2.2⟩
    | want f n => rw [hph] at hl; exact hl.elim
    | flush => rw [hph] at hl; exact hl.elim
    | _ => simpa only [hph] using hl
  · rintro ⟨w,l,hph⟩
    rw [Drive.ready,hph]
    exact ⟨hph,id⟩
  · rintro ⟨l,hph⟩
    rw [Drive.ready,hph]
    cases l with
    | nil => exact Or.inl ⟨hph,rfl⟩
    | cons x l => exact Or.inr ⟨rfl,Or.inl ⟨x,l,rfl⟩⟩
  · intro hph
    rw [Drive.ready,hph]

theorem Reading.fault (h : Reading c all buf₀ s) : Reading c all buf₀ (step s .fault) := by
  apply h.goes
  · intro rest hl
    rw [Drive.fail]
    cases hph : s.drive.phase with
    | fetch l =>
      rw [hph] at hl
      obtain ⟨hne,hlen,rfl⟩ := hl
      refine ⟨?_,by rw [flatten_length hlen]; exact Nat.dvd_mul_right _ _⟩
      apply List.ne_nil_of_length_pos
      rw [flatten_length hlen]
      exact Nat.mul_pos (by decide) (List.length_pos_of_ne_nil hne)
    | want f n => rw [hph] at hl; exact hl.elim
    | flush => rw [hph] at hl; exact hl.elim
    | _ => simpa only [hph] using hl
  · rintro ⟨w,l,hph⟩
    rw [Drive.fail,hph]
    exact ⟨hph,id⟩
  · rintro ⟨l,hph⟩
    rw [Drive.fail,hph]
    exact Or.inr ⟨rfl,Or.inr rfl⟩
  · intro hph
    rw [Drive.fail,hph]

theorem Reading.irq (h : Reading c all buf₀ s) : Reading c all buf₀ (step s .irq) := by
  rw [step]
  split
  swap
  · exact h
  rename_i hirq
  have hplace := h.place
  by_cases hf : s.drive.phase = .failed
  · rw [hdaIntr_failed hf]
    refine ⟨h.op,h.cmd,h.whole,h.count,h.bound,h.moved,h.kept,?_⟩
    cases hpc : s.pc with
    | wait =>
      simp only [Place,hpc] at hplace ⊢
      exact ⟨hplace.1,hplace.2.imp_right fun hw => ⟨hw.1,Or.inl trivial⟩⟩
    | _ =>
      simp only [Place,hpc] at hplace ⊢
      exact hplace
  · obtain hc | hc := h.cmd
    · rw [hdaIntr_read hf hc]
      refine ⟨h.op,Or.inr rfl,h.whole,h.count,h.bound,h.moved,h.kept,?_⟩
      cases hpc : s.pc with
      | wait =>
        simp only [Place,hpc] at hplace ⊢
        obtain ⟨hi,⟨-,hd⟩ | ⟨-,hw⟩⟩ := hplace
        · exact ⟨hi,Or.inl ⟨trivial,hd⟩⟩
        · obtain hw | ⟨-,⟨-,hq⟩ | ⟨-,hd | hd⟩⟩ := hw
          · exact absurd hw hirq.2
          · exact absurd (hq.symm.trans hirq.1) Bool.false_ne_true
          · exact ⟨hi,Or.inl ⟨trivial,hd⟩⟩
          · exact absurd hd hf
      | _ =>
        simp only [Place,hpc] at hplace ⊢
        exact hplace
    · rw [hdaIntr_none hf hc]
      refine ⟨h.op,Or.inr rfl,h.whole,h.count,h.bound,h.moved,h.kept,?_⟩
      cases hpc : s.pc with
      | wait =>
        simp only [Place,hpc] at hplace ⊢
        obtain ⟨hi,hd | ⟨-,hw⟩⟩ := hplace
        · exact ⟨hi,Or.inl hd⟩
        · obtain hw | ⟨hread,-⟩ := hw
          · exact absurd hw hirq.2
          · exact absurd (hc.symm.trans hread) (by decide)
      | _ =>
        simp only [Place,hpc] at hplace ⊢
        exact hplace

theorem Reading.step (a : Actor) (h : Reading c all buf₀ s) : Reading c all buf₀ (step s a) := by
  cases a with
  | host =>
    rw [HdaPio.step]
    split
    · exact h
    · exact h.host
  | drive => exact h.drive
  | fault => exact h.fault
  | irq => exact h.irq

/-! ## The end of a read -/

def load : Phase → ℕ
  | .fetch l => 2 * l.flatten.length + 2 * l.length
  | .data w l => 2 * (w ++ l.flatten).length + 2 * l.length
  | _ => 0

def Pc.load : Pc → ℕ
  | .wait => 2
  | .poll => 1
  | _ => 0

def measure (s : Sys) : ℕ := load s.drive.phase + s.pc.load + s.drive.intrq.toNat

theorem load_behind (w : UInt16) (ws : List UInt16) (l : List Sector) :
    load (.behind ws l) + 2 = load (.data (w :: ws) l) := by
  cases ws with
  | nil =>
    cases l with
    | nil => rfl
    | cons x l =>
      simp only [Phase.behind,load,List.cons_append,List.nil_append,List.length_cons]
      omega
  | cons w' ws =>
    simp only [Phase.behind,load,List.cons_append,List.length_cons]
    omega

theorem Reading.host_lower (hlim : all.length ≤ (c * 256).toNat) (h : Reading c all buf₀ s) :
    HdaPio.host s = s ∨ measure (HdaPio.host s) < measure s := by
  obtain ⟨rest,hrest,hleft⟩ := h.moved
  have hplace := h.place
  cases hpc : s.pc with
  | wait =>
    by_cases hr : s.rready = true
    · rw [host_wait hpc hr,if_neg (by rw [h.op]; decide)]
      right
      simp only [measure,hpc,Pc.load]
      omega
    · left
      simp only [HdaPio.host,hpc,hr]
      rfl
  | poll =>
    right
    rw [host_poll hpc]
    simp only [measure,hpc,Bool.toNat_false]
    split
    · simp only [Pc.load]
      omega
    · simp only [Pc.load]
      omega
  | move =>
    right
    simp only [Place,hpc] at hplace
    obtain ⟨w,l,hph⟩ := hplace
    rw [hph] at hleft
    cases w with
    | nil => exact absurd rfl hleft.1
    | cons w ws =>
      obtain ⟨rest',rfl,-⟩ := hleft.behind
      have hi : s.i < (s.cnt * 256).toNat := by
        rw [h.count]
        rw [← hrest,List.length_append,List.length_map,List.length_range,List.length_cons] at hlim
        omega
      have hload := load_behind w ws l
      rw [host_read hpc h.op hi hph]
      simp only [measure,hpc,hph,Pc.load]
      omega
  | done =>
    left
    simp only [HdaPio.host,hpc]

theorem Reading.lower (hlim : all.length ≤ (c * 256).toNat) (a : Actor) (h : Reading c all buf₀ s) :
    HdaPio.step s a = s ∨ measure (HdaPio.step s a) < measure s := by
  obtain ⟨rest,hrest,hleft⟩ := h.moved
  cases a with
  | host =>
    rw [HdaPio.step]
    split
    · exact Or.inl rfl
    · exact h.host_lower hlim
  | drive =>
    rw [HdaPio.step,Drive.ready]
    cases hph : s.drive.phase with
    | fetch l =>
      cases l with
      | nil => exact Or.inl rfl
      | cons x l =>
        right
        have hq := Bool.toNat_le s.drive.intrq
        simp only [measure,load,hph,List.flatten_cons,List.length_append,List.length_cons,Bool.toNat_true]
        omega
    | want f n => rw [hph] at hleft; exact hleft.elim
    | flush => rw [hph] at hleft; exact hleft.elim
    | _ => exact Or.inl rfl
  | fault =>
    rw [HdaPio.step,Drive.fail]
    cases hph : s.drive.phase with
    | fetch l =>
      right
      rw [hph] at hleft
      have hpos := List.length_pos_of_ne_nil hleft.1
      simp only [measure,load,hph,Bool.toNat_true]
      omega
    | want f n => rw [hph] at hleft; exact hleft.elim
    | flush => rw [hph] at hleft; exact hleft.elim
    | _ => exact Or.inl rfl
  | irq =>
    rw [HdaPio.step]
    split
    swap
    · exact Or.inl rfl
    rename_i hirq
    right
    by_cases hf : s.drive.phase = .failed
    · rw [hdaIntr_failed hf]
      simp only [measure,hirq.1,Bool.toNat_true,Bool.toNat_false]
      omega
    · obtain hc | hc := h.cmd
      · rw [hdaIntr_read hf hc]
        simp only [measure,hirq.1,Bool.toNat_true,Bool.toNat_false]
        omega
      · rw [hdaIntr_none hf hc]
        simp only [measure,hirq.1,Bool.toNat_true,Bool.toNat_false]
        omega

/-- As long as the driver waits or moves, one of the parties can go on. -/
theorem Reading.goes_on (h : Reading c all buf₀ s) (hd : ¬ (s.pc = .done ∨ s.halted = true)) :
    ∃ a, a ≠ Actor.fault ∧ HdaPio.step s a ≠ s := by
  obtain ⟨hpc,hh⟩ := not_or.mp hd
  have hplace := h.place
  have hirq : s.drive.intrq = true → HdaPio.step s .irq ≠ s := by
    intro hq heq
    have hcond : s.drive.intrq ∧ ¬ s.halted := ⟨hq,hh⟩
    rw [HdaPio.step,if_pos hcond] at heq
    have hoff : (hdaIntr s).drive.intrq = false := by
      by_cases hf : s.drive.phase = .failed
      · rw [hdaIntr_failed hf]
      · obtain hc | hc := h.cmd
        · rw [hdaIntr_read hf hc]
        · rw [hdaIntr_none hf hc]
    rw [heq,hq] at hoff
    cases hoff
  cases hp : s.pc with
  | wait =>
    simp only [Place,hp] at hplace
    obtain ⟨-,⟨hr,-⟩ | ⟨-,hw⟩⟩ := hplace
    · refine ⟨.host,by decide,fun heq => ?_⟩
      rw [HdaPio.step,if_neg hh,host_wait hp hr,if_neg (by rw [h.op]; decide)] at heq
      have hpc' : Pc.wait = Pc.poll := hp.symm.trans (congrArg Sys.pc heq.symm)
      cases hpc'
    · obtain hw | ⟨-,⟨⟨l,hl⟩,-⟩ | ⟨hq,-⟩⟩ := hw
      · exact absurd hw hh
      · refine ⟨.drive,by decide,fun heq => ?_⟩
        obtain ⟨rest,-,hleft⟩ := h.moved
        rw [hl] at hleft
        cases l with
        | nil => exact absurd rfl hleft.1
        | cons x l =>
          have hph := congrArg (fun s => s.drive.phase) heq
          simp only [HdaPio.step,Drive.ready,hl] at hph
          cases hph
      · exact ⟨.irq,by decide,hirq hq⟩
  | poll =>
    refine ⟨.host,by decide,fun heq => ?_⟩
    rw [HdaPio.step,if_neg hh,host_poll hp] at heq
    have hpc' := congrArg Sys.pc heq
    simp only [hp] at hpc'
    split at hpc'
    · cases hpc'
    · cases hpc'
  | move =>
    refine ⟨.host,by decide,fun heq => ?_⟩
    rw [HdaPio.step,if_neg hh] at heq
    have hpc' := (congrArg Sys.pc heq).symm.trans (host_move hp)
    rw [hp] at hpc'
    cases hpc'
  | done => exact absurd hp hpc

/-! ## What a read brings -/

theorem sectors_flatten (p : Platter) (r : Hda.Regs) (n : ℕ) :
    (sectors p r n).flatten = (List.range (256 * n)).map fun j => p r (j / 256) (j % 256) := by
  induction n with
  | zero => rfl
  | succ n ih =>
    have hlast : sectors p r (n + 1) = sectors p r n ++ [(List.range 256).map (p r n)] := by
      rw [sectors,List.range_succ (n := n),List.map_append]
      rfl
    rw [hlast,List.flatten_append,ih,List.flatten_singleton,Nat.mul_succ,List.range_add,List.map_append,List.map_map]
    congr 1
    apply List.map_congr_left
    intro j hj
    have hlt := List.mem_range.mp hj
    simp only [comp_apply]
    rw [Nat.mul_add_mod,Nat.mod_eq_of_lt hlt,Nat.mul_add_div (by decide),Nat.div_eq_of_lt hlt,Nat.add_zero]

theorem sectorCount_pos (r : UInt8) : 0 < sectorCount r := by
  rw [sectorCount]
  split
  · decide
  · rename_i h
    exact Nat.pos_of_ne_zero (fun h0 => h (UInt8.toNat_inj.mp h0))

/-- The loop ends before the sectors do only if the count has 24 zero bits. -/
theorem sectorCount_limit {c : UInt32} (h : c.toNat % 2 ^ 24 ≠ 0) : 256 * sectorCount c.toUInt8 ≤ (c * 256).toNat := by
  have hbyte : c.toUInt8 = 0 ↔ c.toNat % 256 = 0 := by
    rw [← UInt8.toNat_inj,UInt32.toNat_toUInt8]
    rfl
  rw [UInt32.toNat_mul,show (256 : UInt32).toNat = 256 from rfl,sectorCount]
  simp only [hbyte]
  split
  · omega
  · rw [UInt32.toNat_toUInt8]
    omega

theorem limit_zero {c : UInt32} (h : c.toNat % 2 ^ 24 = 0) : (c * 256).toNat = 0 := by
  rw [UInt32.toNat_mul,show (256 : UInt32).toNat = 256 from rfl]
  omega

theorem length_of_mem_sectors {p : Platter} {r : Hda.Regs} {n : ℕ} : ∀ x ∈ sectors p r n, x.length = 256 := by
  intro x hx
  obtain ⟨k,-,rfl⟩ := List.mem_map.mp hx
  rw [List.length_map,List.length_range]

theorem sectors_length (p : Platter) (r : Hda.Regs) (n : ℕ) : (sectors p r n).length = n := by
  rw [sectors,List.length_map,List.length_range]

theorem hdaRead_reading (p : Platter) (g : Hda.HdaStat) (c : UInt32) (buf : ℕ → UInt16) (s : Sys) :
    Reading c (sectors p (address g) (sectorCount c.toUInt8)).flatten buf (hdaRead p g c buf s) := by
  have hne : sectors p (address g) (sectorCount c.toUInt8) ≠ [] := by
    apply List.ne_nil_of_length_pos
    rw [sectors_length]
    exact sectorCount_pos _
  refine ⟨rfl,Or.inl rfl,?_,rfl,Nat.zero_le _,⟨_,rfl,hne,length_of_mem_sectors,rfl⟩,fun _ _ => rfl,rfl,?_⟩
  · rw [flatten_length length_of_mem_sectors]
    exact Nat.dvd_mul_right _ _
  · exact Or.inr ⟨rfl,Or.inr ⟨rfl,Or.inl ⟨⟨_,rfl⟩,rfl⟩⟩⟩

/-- A read that has come back brought whole sectors, and all of them exactly if the drive is idle. -/
theorem Reading.done {p : Platter} {r : Hda.Regs} {n : ℕ} (h : Reading c (sectors p r n).flatten buf₀ s) (hd : s.pc = .done) :
    ∃ k, 1 ≤ k ∧ k ≤ n ∧ (∀ j, s.buf j = if j < 256 * k then p r (j / 256) (j % 256) else buf₀ j) ∧
      (s.drive.phase = .idle ↔ k = n) := by
  obtain ⟨rest,hrest,hleft⟩ := h.moved
  have hplace := h.place
  simp only [Place,hd] at hplace
  obtain ⟨hpos,k,hk⟩ := hplace
  rw [sectors_flatten] at hrest
  have hlen := congrArg List.length hrest
  simp only [List.length_append,List.length_map,List.length_range] at hlen
  have hidle : s.drive.phase = .idle ↔ rest = [] := by
    constructor
    · intro hph
      rw [hph] at hleft
      exact hleft
    · rintro rfl
      exact hleft.idle
  refine ⟨k,by omega,by omega,fun j => ?_,?_⟩
  · by_cases hj : j < 256 * k
    · rw [if_pos hj]
      have hget : ((List.range s.i).map s.buf ++ rest)[j]? = _ := congrArg (fun l => l[j]?) hrest
      rw [List.getElem?_append_left (by simpa [hk] using hj),List.getElem?_map,List.getElem?_map,
        List.getElem?_range (by omega),List.getElem?_range (by omega)] at hget
      exact Option.some.inj hget
    · rw [if_neg hj]
      exact h.kept j (by omega)
  · rw [hidle,← List.length_eq_zero_iff]
    omega

/-- A drive that is never left busy when another has its turn. -/
def Prompt (s : Sys) (sched : ℕ → Actor) : Prop :=
  ∀ n, (run step s sched n).drive.phase.busy = true → sched n = .drive

theorem Reading.irq_same (h : Reading c all buf₀ s) :
    (HdaPio.step s .irq).drive.phase = s.drive.phase ∧ (HdaPio.step s .irq).pc = s.pc := by
  rw [HdaPio.step]
  split
  · by_cases hf : s.drive.phase = .failed
    · rw [hdaIntr_failed hf]
      exact ⟨rfl,rfl⟩
    · obtain hc | hc := h.cmd
      · rw [hdaIntr_read hf hc]
        exact ⟨rfl,rfl⟩
      · rw [hdaIntr_none hf hc]
        exact ⟨rfl,rfl⟩
  · exact ⟨rfl,rfl⟩

def Whole (s : Sys) : Prop := (s.drive.phase = .idle ∨ (∃ l, s.drive.phase = .fetch l) ∨ Data s.drive.phase) ∧
  (s.pc = .done → s.drive.phase = .idle)

theorem Whole.host (h : Reading c all buf₀ s) (hw : Whole s) (hb : s.drive.phase.busy = false) : Whole (host s) := by
  obtain ⟨hph,hdone⟩ := hw
  have hplace := h.place
  obtain ⟨rest,-,hleft⟩ := h.moved
  cases hpc : s.pc with
  | wait =>
    simp only [HdaPio.host,hpc,h.op]
    split
    · exact ⟨hph,fun hd => by cases hd⟩
    · exact ⟨hph,hdone⟩
  | poll =>
    rw [host_poll hpc]
    refine ⟨hph,fun hd => ?_⟩
    by_cases hdata : Data s.drive.phase
    · rw [if_pos (hleft.asks.mpr hdata)] at hd
      cases hd
    · obtain hi | ⟨l,hl⟩ | hd := hph
      · exact hi
      · rw [hl] at hb
        cases hb
      · exact absurd hd hdata
  | move =>
    have hpoll := host_move hpc
    refine ⟨?_,fun hd => by rw [hpoll] at hd; cases hd⟩
    simp only [Place,hpc] at hplace
    by_cases hi : s.i < (s.cnt * 256).toNat
    · obtain ⟨w,l,hw⟩ := hplace
      rw [hw] at hleft
      cases w with
      | nil => exact absurd rfl hleft.1
      | cons w ws =>
        rw [host_read hpc h.op hi hw]
        cases ws with
        | nil =>
          cases l with
          | nil => exact Or.inl rfl
          | cons x l => exact Or.inr (Or.inl ⟨_,rfl⟩)
        | cons w' ws => exact Or.inr (Or.inr ⟨_,_,rfl⟩)
    · simp only [HdaPio.host,hpc,if_neg hi]
      exact hph
  | done =>
    simp only [HdaPio.host,hpc]
    exact ⟨hph,hdone⟩

theorem Whole.step {a : Actor} (h : Reading c all buf₀ s) (hw : Whole s) (hb : s.drive.phase.busy = true → a = .drive) :
    Whole (step s a) := by
  cases a with
  | host =>
    rw [HdaPio.step]
    split
    · exact hw
    · exact hw.host h (Bool.eq_false_iff.mpr fun hx => absurd (hb hx) (by decide))
  | drive =>
    obtain ⟨hph,hdone⟩ := hw
    simp only [HdaPio.step,Drive.ready]
    obtain hi | ⟨l,hl⟩ | ⟨w,l,hd⟩ := hph
    · simp only [hi]
      exact ⟨Or.inl hi,hdone⟩
    · have hno : s.pc ≠ .done := fun hd => by
        have hidle := hdone hd
        rw [hl] at hidle
        cases hidle
      simp only [hl]
      cases l with
      | nil => exact ⟨Or.inr (Or.inl ⟨_,hl⟩),fun hd => absurd hd hno⟩
      | cons x l => exact ⟨Or.inr (Or.inr ⟨_,_,rfl⟩),fun hd => absurd hd hno⟩
    · simp only [hd]
      exact ⟨Or.inr (Or.inr ⟨_,_,hd⟩),hdone⟩
  | fault =>
    obtain ⟨hph,hdone⟩ := hw
    simp only [HdaPio.step,Drive.fail]
    obtain hi | ⟨l,hl⟩ | ⟨w,l,hd⟩ := hph
    · simp only [hi]
      exact ⟨Or.inl hi,hdone⟩
    · exact absurd (hb (by rw [hl]; rfl)) (by decide)
    · simp only [hd]
      exact ⟨Or.inr (Or.inr ⟨_,_,hd⟩),hdone⟩
  | irq =>
    obtain ⟨hsame,hpc⟩ := h.irq_same
    rw [Whole,hsame,hpc]
    exact hw

/-- Then a read that has come back brought everything. -/
theorem Whole.run {s : Sys} {sched : ℕ → Actor} (h : Reading c all buf₀ s) (hw : Whole s) (hp : Prompt s sched) (n : ℕ) :
    Reading c all buf₀ (run HdaPio.step s sched n) ∧ Whole (run HdaPio.step s sched n) := by
  induction n with
  | zero => exact ⟨h,hw⟩
  | succ n ih => exact ⟨ih.1.step _,ih.2.step ih.1 (hp n)⟩

/-! ## All orders of turns -/

def byteOf (buf : ℕ → UInt16) (a : ℕ) : UInt8 := (if a % 2 = 0 then buf (a / 2) else buf (a / 2) >>> 8).toUInt8

def Holds (p : Platter) (disk : Hda.Media) : Prop := ∀ r j, byteOf (p r 0) j = disk r j

/-- Whatever turns the drive, the interrupt and `hda_read` take: when `hda_read` comes back it has
read the first of the sectors that the low 8 bits of the count stand for, at least one, and has
left alone what lies behind them in the buffer; they are all exactly if the drive has become idle. It comes back or stops with a
`PANIC` if all take their turns again and again, unless the count of sectors is a multiple of 2²⁴,
when it never does. From a drive that no one finds busy it brings all the sectors, and for one
sector it brings from any drive what the disk holds at the address. -/
theorem hda_read_any_order (p : Platter) (g : Hda.HdaStat) (cnt : UInt32) (buf : ℕ → UInt16) (s : Sys) (sched : ℕ → Actor) :
    let r := run step (hdaRead p g cnt buf s) sched
    (∀ n, (r n).pc = .done → ∃ k, 1 ≤ k ∧ k ≤ sectorCount cnt.toUInt8 ∧
      (∀ j, (r n).buf j = if j < 256 * k then p (address g) (j / 256) (j % 256) else buf j) ∧
      ((r n).drive.phase = .idle ↔ k = sectorCount cnt.toUInt8)) ∧
    (cnt.toNat % 2 ^ 24 ≠ 0 → Fair (· ≠ .fault) sched → ∃ n, (r n).pc = .done ∨ (r n).halted = true) ∧
    (cnt.toNat % 2 ^ 24 = 0 → ∀ n, (r n).pc ≠ .done) ∧
    (Prompt (hdaRead p g cnt buf s) sched → ∀ n, (r n).pc = .done → (r n).drive.phase = .idle) ∧
    (cnt = 1 → ∀ disk, Holds p disk → ∀ n, (r n).pc = .done → ∀ a < 512, byteOf (r n).buf a = Hda.hdaRead g disk a) := by
  intro r
  have hstart := hdaRead_reading p g cnt buf s
  have hinv : ∀ n, Reading cnt (sectors p (address g) (sectorCount cnt.toUInt8)).flatten buf (r n) :=
    run_invariant (fun s a h => h.step a) hstart
  refine ⟨fun n hd => (hinv n).done hd,fun hc hf => ?_,fun hc n hd => ?_,fun hp n => ?_,?_⟩
  · have hlim : (sectors p (address g) (sectorCount cnt.toUInt8)).flatten.length ≤ (cnt * 256).toNat := by
      rw [sectors_flatten,List.length_map,List.length_range]
      exact sectorCount_limit hc
    apply fair_reaches (fun s a h => h.step a) measure _ (fun s h hd => h.goes_on hd) hf hstart
    intro s a h hne
    exact (h.lower hlim a).resolve_left hne
  · have hb := (hinv n).bound
    have hplace := (hinv n).place
    rw [limit_zero hc] at hb
    simp only [Place,hd] at hplace
    omega
  · have hw : Whole (hdaRead p g cnt buf s) := ⟨Or.inr (Or.inl ⟨_,rfl⟩),fun hd => by cases hd⟩
    exact (hw.run hstart hp n).2.2
  · rintro rfl disk hdisk n hd a ha
    obtain ⟨k,hk,-,hbuf,-⟩ := (hinv n).done hd
    have hword : (r n).buf (a / 2) = p (address g) 0 (a / 2) := by
      rw [hbuf,if_pos (by omega),Nat.div_eq_of_lt (by omega),Nat.mod_eq_of_lt (by omega)]
    have hbyte : byteOf (r n).buf a = byteOf (p (address g) 0) a := by rw [byteOf,byteOf,hword]
    exact hbyte.trans (hdisk _ a)

def roundRobin (n : ℕ) : Actor := if n % 3 = 0 then .host else if n % 3 = 1 then .drive else .irq

theorem roundRobin_fair : Fair (· ≠ .fault) roundRobin := by
  intro a ha n
  cases a with
  | host => exact ⟨3 * n,by omega,if_pos (by omega)⟩
  | drive => exact ⟨3 * n + 1,by omega,by rw [roundRobin,if_neg (by omega),if_pos (by omega)]⟩
  | irq => exact ⟨3 * n + 2,by omega,by rw [roundRobin,if_neg (by omega),if_neg (by omega)]⟩
  | fault => exact absurd rfl ha

def quiet : Sys := ⟨⟨.idle,false,[]⟩,0,false,0,0,0,0,.read,.done,0,fun _ => 0,false⟩

def numbered : Platter := fun _ k j => (256 * k + j).toUInt16

/-- With turns in a row a read of two sectors comes back. -/
theorem hda_read_round_robin : ∃ n, (run step (hdaRead numbered ⟨4,2,8,0,0,1⟩ 2 (fun _ => 0) quiet) roundRobin n).pc = .done ∨
    (run step (hdaRead numbered ⟨4,2,8,0,0,1⟩ 2 (fun _ => 0) quiet) roundRobin n).halted = true :=
  (hda_read_any_order numbered ⟨4,2,8,0,0,1⟩ 2 (fun _ => 0) quiet roundRobin).2.1 (by decide) roundRobin_fair

/-! ## Coming back early -/

theorem host_halted (s : Sys) : (host s).halted = s.halted := by
  rw [host]
  split
  · split <;> rfl
  · rfl
  · split
    · split <;> rfl
    · rfl
  · rfl

end Reading

end Micron.Kernel.HdaPio

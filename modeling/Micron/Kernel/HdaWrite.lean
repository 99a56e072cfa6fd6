import Micron.Kernel.HdaPio

/-! # Writing to the hard disk

`hda_write` looks at the status right behind its command and gives up as soon as the drive
does not ask for data.
-/
namespace Micron.Kernel.HdaPio
open Function Ata Turns

section Writing
variable {c : UInt32} {N m : ℕ} {cur : List UInt16} {buf : ℕ → UInt16} {before : List Sector} {s : Sys} {ph : Phase}

def chunk (buf : ℕ → UInt16) (j n : ℕ) : List UInt16 := (List.range n).map fun t => buf (256 * j + t)

def chunks (buf : ℕ → UInt16) (m : ℕ) : List Sector := (List.range m).map fun j => chunk buf j 256

theorem chunk_succ (buf : ℕ → UInt16) (j n : ℕ) : chunk buf j n ++ [buf (256 * j + n)] = chunk buf j (n + 1) := by
  rw [chunk,chunk,List.range_succ,List.map_append]
  rfl

theorem chunks_succ (buf : ℕ → UInt16) (m : ℕ) : chunks buf m ++ [chunk buf m 256] = chunks buf (m + 1) := by
  rw [chunks,chunks,List.range_succ (n := m),List.map_append]
  rfl

def Taking (N m t : ℕ) (buf : ℕ → UInt16) : Phase → Prop
  | .want _ n => t = 0 ∧ 0 < n ∧ m + n = N
  | .take ws n => ws = chunk buf m t ∧ t < 256 ∧ m + 1 + n = N
  | .flush => t = 0 ∧ m = N
  | .idle => t = 0 ∧ m = N
  | .failed => t = 0 ∧ m ≤ N
  | _ => False

def Takes (ph : Phase) : Prop := ∃ ws n, ph = .take ws n

def WritePlace (s : Sys) : Prop :=
  match s.pc with
  | .wait => False
  | .poll => True
  | .move => Takes s.drive.phase
  | .done => 256 ∣ s.i

structure Writing (c : UInt32) (N : ℕ) (buf : ℕ → UInt16) (before : List Sector) (s : Sys) : Prop where
  op : s.op = .write
  cmd : s.cmd = CMD_WRITE ∨ s.cmd = 0
  count : s.cnt = c
  buf_eq : s.buf = buf
  moved : ∃ m t, s.drive.stored = before ++ chunks buf m ∧ s.i = 256 * m + t ∧ Taking N m t buf s.drive.phase
  place : WritePlace s

theorem Taking.asks {t : ℕ} (h : Taking N m t buf ph) : ph.asks = true ↔ Takes ph := by
  cases ph with
  | take ws n => exact iff_of_true rfl ⟨ws,n,rfl⟩
  | data w l => exact h.elim
  | _ => exact iff_of_false Bool.false_ne_true (by rintro ⟨w,l,h⟩; cases h)

theorem Taking.zero {t : ℕ} (h : Taking N m t buf ph) (hn : ¬ Takes ph) : t = 0 := by
  cases ph with
  | take ws n => exact absurd ⟨ws,n,rfl⟩ hn
  | want f n => exact h.1
  | flush => exact h.1
  | idle => exact h.1
  | failed => exact h.1
  | _ => exact h.elim

theorem Taking.lt {t : ℕ} (h : Taking N m t buf ph) : t < 256 ∧ m ≤ N := by
  cases ph with
  | take ws n => obtain ⟨-,hlt,hsum⟩ := h; omega
  | want f n => obtain ⟨rfl,-,hsum⟩ := h; omega
  | flush => obtain ⟨rfl,rfl⟩ := h; omega
  | idle => obtain ⟨rfl,rfl⟩ := h; omega
  | failed => obtain ⟨rfl,hle⟩ := h; omega
  | _ => exact h.elim

theorem host_write (hpc : s.pc = .move) (hop : s.op = .write) (hi : s.i < (s.cnt * 256).toNat) :
    host s = { s with drive := s.drive.writeData (s.buf s.i), i := s.i + 1, pc := .poll } := by
  simp only [host,hpc,if_pos hi]
  rw [if_pos hop]

theorem Taking.write {d : Drive} {t : ℕ} (hm : d.stored = before ++ chunks buf m) (h : Taking N m t buf d.phase)
    (hn : Takes d.phase) :
    ∃ m' t', 256 * m' + t' = 256 * m + t + 1 ∧ (d.writeData (buf (256 * m + t))).stored = before ++ chunks buf m' ∧
      Taking N m' t' buf (d.writeData (buf (256 * m + t))).phase := by
  obtain ⟨ws,n,hph⟩ := hn
  rw [hph] at h
  obtain ⟨rfl,hlt,hsum⟩ := h
  simp only [Drive.writeData,hph,chunk_succ]
  have hlen : (chunk buf m (t + 1)).length = t + 1 := by rw [chunk,List.length_map,List.length_range]
  rw [hlen]
  by_cases hlast : t + 1 = 256
  · rw [if_pos hlast]
    refine ⟨m + 1,0,by omega,?_,?_⟩
    · simp only [hm,List.append_assoc,hlast,chunks_succ]
    · dsimp only
      split
      · exact ⟨rfl,by omega⟩
      · exact ⟨rfl,by omega,by omega⟩
  · rw [if_neg hlast]
    exact ⟨m,t + 1,by omega,hm,rfl,by omega,hsum⟩

theorem Writing.host (h : Writing c N buf before s) : Writing c N buf before (host s) := by
  obtain ⟨m,t,hm,hi,ht⟩ := h.moved
  have hplace := h.place
  cases hpc : s.pc with
  | wait => simp only [WritePlace,hpc] at hplace
  | poll =>
    rw [host_poll hpc]
    by_cases hd : Takes s.drive.phase
    · rw [if_pos (ht.asks.mpr hd)]
      exact ⟨h.op,h.cmd,h.count,h.buf_eq,⟨m,t,hm,hi,ht⟩,hd⟩
    · rw [if_neg (mt ht.asks.mp hd)]
      refine ⟨h.op,h.cmd,h.count,h.buf_eq,⟨m,t,hm,hi,ht⟩,?_⟩
      change 256 ∣ s.i
      rw [hi,ht.zero hd]
      exact Nat.dvd_mul_right _ _
  | move =>
    simp only [WritePlace,hpc] at hplace
    by_cases hlim : s.i < (s.cnt * 256).toNat
    · rw [host_write hpc h.op hlim,h.buf_eq,hi]
      obtain ⟨m',t',hsum,hst,ht'⟩ := ht.write hm hplace
      exact ⟨h.op,h.cmd,h.count,rfl,⟨m',t',hst,hsum.symm,ht'⟩,trivial⟩
    · simp only [HdaPio.host,hpc,if_neg hlim]
      exact ⟨h.op,h.cmd,h.count,h.buf_eq,h.moved,trivial⟩
  | done =>
    simp only [HdaPio.host,hpc]
    exact h

theorem Writing.goes {d : Drive} (h : Writing c N buf before s) (hst : d.stored = s.drive.stored)
    (htake : ∀ m t, Taking N m t buf s.drive.phase → Taking N m t buf d.phase)
    (hkeep : Takes s.drive.phase → Takes d.phase) : Writing c N buf before { s with drive := d } := by
  obtain ⟨m,t,hm,hi,ht⟩ := h.moved
  have hplace := h.place
  refine ⟨h.op,h.cmd,h.count,h.buf_eq,⟨m,t,hst.trans hm,hi,htake m t ht⟩,?_⟩
  cases hpc : s.pc with
  | wait => simp only [WritePlace,hpc] at hplace
  | poll => trivial
  | move =>
    simp only [WritePlace,hpc] at hplace ⊢
    exact hkeep hplace
  | done =>
    simp only [WritePlace,hpc] at hplace ⊢
    exact hplace

theorem Writing.drive (h : Writing c N buf before s) : Writing c N buf before (HdaPio.step s .drive) := by
  apply h.goes
  · rw [Drive.ready]
    split <;> rfl
  · intro m t ht
    rw [Drive.ready]
    cases hph : s.drive.phase with
    | fetch l => rw [hph] at ht; exact ht.elim
    | want f n =>
      rw [hph] at ht
      obtain ⟨rfl,hn,hsum⟩ := ht
      cases n with
      | zero => exact absurd hn (Nat.lt_irrefl 0)
      | succ n => exact ⟨rfl,by decide,by omega⟩
    | flush => rw [hph] at ht; exact ht
    | _ => simpa only [hph] using ht
  · rintro ⟨ws,n,hph⟩
    rw [Drive.ready,hph]
    exact ⟨ws,n,hph⟩

theorem Writing.fault (h : Writing c N buf before s) : Writing c N buf before (HdaPio.step s .fault) := by
  apply h.goes
  · rw [Drive.fail]
    split <;> rfl
  · intro m t ht
    rw [Drive.fail]
    cases hph : s.drive.phase with
    | fetch l => rw [hph] at ht; exact ht.elim
    | want f n =>
      rw [hph] at ht
      obtain ⟨rfl,-,hsum⟩ := ht
      exact ⟨rfl,by omega⟩
    | flush =>
      rw [hph] at ht
      exact ⟨ht.1,Nat.le_of_eq ht.2⟩
    | _ => simpa only [hph] using ht
  · rintro ⟨ws,n,hph⟩
    rw [Drive.fail,hph]
    exact ⟨ws,n,hph⟩

theorem hdaIntr_write (h : s.drive.phase ≠ .failed) (hc : s.cmd = CMD_WRITE) :
    hdaIntr s = { s with drive := { s.drive with intrq := false }, rready := true, cmd := 0 } := by
  simp only [hdaIntr,Drive.readStatus,hc]
  rw [if_neg (mt (Phase.status_error _).mp h)]
  rfl

/-- The interrupt takes back its request, and may set `rready` or halt the system. -/
theorem Writing.irq_eq (h : Writing c N buf before s) (hq : s.drive.intrq ∧ ¬ s.halted) : ∃ b r k, (k = CMD_WRITE ∨ k = 0) ∧
    HdaPio.step s .irq = { s with drive := { s.drive with intrq := false }, rready := r, cmd := k, halted := b } := by
  rw [HdaPio.step,if_pos hq]
  by_cases hf : s.drive.phase = .failed
  · exact ⟨true,s.rready,s.cmd,h.cmd,hdaIntr_failed hf⟩
  · obtain hc | hc := h.cmd
    · exact ⟨s.halted,true,0,Or.inr rfl,hdaIntr_write hf hc⟩
    · exact ⟨s.halted,s.rready,0,Or.inr rfl,hdaIntr_none hf hc⟩

theorem Writing.irq (h : Writing c N buf before s) : Writing c N buf before (HdaPio.step s .irq) := by
  by_cases hq : s.drive.intrq ∧ ¬ s.halted
  · obtain ⟨b,r,k,hk,heq⟩ := h.irq_eq hq
    rw [heq]
    exact ⟨h.op,hk,h.count,h.buf_eq,h.moved,h.place⟩
  · rw [HdaPio.step,if_neg hq]
    exact h

theorem Writing.step (a : Actor) (h : Writing c N buf before s) : Writing c N buf before (HdaPio.step s a) := by
  cases a with
  | host =>
    rw [HdaPio.step]
    split
    · exact h
    · exact h.host
  | drive => exact h.drive
  | fault => exact h.fault
  | irq => exact h.irq

/-! ## The end of a write -/

def writeLoad : Phase → ℕ
  | .want _ n => 2 * n + 2
  | .take _ n => 2 * n + 2
  | .flush => 2
  | _ => 0

def writeMeasure (N : ℕ) (s : Sys) : ℕ := 2 * (256 * N - s.i) + s.pc.load + writeLoad s.drive.phase + s.drive.intrq.toNat

theorem writeData_load (d : Drive) (w : UInt16) : writeLoad (d.writeData w).phase ≤ writeLoad d.phase ∧
    (d.writeData w).intrq = d.intrq := by
  rw [Drive.writeData]
  cases hph : d.phase with
  | take ws n =>
    dsimp only
    split
    · refine ⟨?_,rfl⟩
      dsimp only
      split
      · simp only [writeLoad]
        omega
      · exact Nat.le_refl _
    · exact ⟨Nat.le_refl _,rfl⟩
  | _ => exact ⟨by rw [hph],rfl⟩

theorem Writing.host_lower (hlim : 256 * N ≤ (c * 256).toNat) (h : Writing c N buf before s) :
    HdaPio.host s = s ∨ writeMeasure N (HdaPio.host s) < writeMeasure N s := by
  obtain ⟨m,t,hm,hi,ht⟩ := h.moved
  have hplace := h.place
  cases hpc : s.pc with
  | wait => simp only [WritePlace,hpc] at hplace
  | poll =>
    right
    rw [host_poll hpc]
    simp only [writeMeasure,hpc,Bool.toNat_false]
    split
    · simp only [Pc.load]
      omega
    · simp only [Pc.load]
      omega
  | move =>
    right
    simp only [WritePlace,hpc] at hplace
    obtain ⟨ws,n,hph⟩ := hplace
    rw [hph] at ht
    obtain ⟨-,hlt,hsum⟩ := ht
    have hcnt : s.i < (s.cnt * 256).toNat := by
      rw [h.count]
      omega
    obtain ⟨hload,hq⟩ := writeData_load s.drive (s.buf s.i)
    rw [host_write hpc h.op hcnt]
    simp only [writeMeasure,hpc,Pc.load,hq]
    omega
  | done =>
    left
    simp only [HdaPio.host,hpc]

theorem Writing.lower (hlim : 256 * N ≤ (c * 256).toNat) (a : Actor) (h : Writing c N buf before s) :
    HdaPio.step s a = s ∨ writeMeasure N (HdaPio.step s a) < writeMeasure N s := by
  obtain ⟨m,t,hm,hi,ht⟩ := h.moved
  have hle := Bool.toNat_le s.drive.intrq
  cases a with
  | host =>
    rw [HdaPio.step]
    split
    · exact Or.inl rfl
    · exact h.host_lower hlim
  | drive =>
    rw [HdaPio.step,Drive.ready]
    cases hph : s.drive.phase with
    | fetch l => rw [hph] at ht; exact ht.elim
    | want f n =>
      cases n with
      | zero => exact Or.inl rfl
      | succ n =>
        right
        have hq := Bool.toNat_le (s.drive.intrq || !f)
        simp only [writeMeasure,writeLoad,hph]
        omega
    | flush =>
      right
      simp only [writeMeasure,writeLoad,hph,Bool.toNat_true]
      omega
    | _ => exact Or.inl rfl
  | fault =>
    rw [HdaPio.step,Drive.fail]
    cases hph : s.drive.phase with
    | fetch l => rw [hph] at ht; exact ht.elim
    | want f n =>
      right
      simp only [writeMeasure,writeLoad,hph,Bool.toNat_true]
      omega
    | flush =>
      right
      simp only [writeMeasure,writeLoad,hph,Bool.toNat_true]
      omega
    | _ => exact Or.inl rfl
  | irq =>
    by_cases hq : s.drive.intrq ∧ ¬ s.halted
    · obtain ⟨b,r,k,hk,heq⟩ := h.irq_eq hq
      right
      rw [heq]
      simp only [writeMeasure,hq.1,Bool.toNat_true,Bool.toNat_false]
      omega
    · left
      rw [HdaPio.step,if_neg hq]

/-- The driver never waits for another. -/
theorem Writing.goes_on (h : Writing c N buf before s) (hd : ¬ (s.pc = .done ∨ s.halted = true)) :
    ∃ a, a = Actor.host ∧ HdaPio.step s a ≠ s := by
  obtain ⟨hpc,hh⟩ := not_or.mp hd
  have hplace := h.place
  refine ⟨.host,rfl,fun heq => ?_⟩
  rw [HdaPio.step,if_neg hh] at heq
  have hsame := congrArg Sys.pc heq
  cases hp : s.pc with
  | wait => simp only [WritePlace,hp] at hplace
  | poll =>
    rw [host_poll hp] at hsame
    simp only [hp] at hsame
    split at hsame
    · cases hsame
    · cases hsame
  | move =>
    rw [host_move hp,hp] at hsame
    cases hsame
  | done => exact hpc hp

/-! ## All orders of turns -/

theorem hdaWrite_writing (cnt : UInt32) (buf : ℕ → UInt16) (s : Sys) :
    Writing cnt (sectorCount cnt.toUInt8) buf s.drive.stored (hdaWrite cnt buf s) := by
  refine ⟨rfl,Or.inl rfl,rfl,rfl,⟨0,0,?_,rfl,rfl,sectorCount_pos _,Nat.zero_add _⟩,trivial⟩
  exact (List.append_nil _).symm

theorem Writing.done (h : Writing c N buf before s) :
    ∃ k, k ≤ N ∧ s.drive.stored = before ++ chunks buf k ∧ (s.pc = .done → s.i = 256 * k) := by
  obtain ⟨m,t,hm,hi,ht⟩ := h.moved
  refine ⟨m,ht.lt.2,hm,fun hd => ?_⟩
  have hplace := h.place
  have hlt := ht.lt.1
  simp only [WritePlace,hd] at hplace
  omega

def WriteWhole (s : Sys) : Prop := s.drive.phase ≠ .failed ∧ (s.pc = .done → s.drive.phase = .idle)

theorem WriteWhole.host (h : Writing c N buf before s) (hw : WriteWhole s) (hb : s.drive.phase.busy = false) :
    WriteWhole (host s) := by
  obtain ⟨hf,hdone⟩ := hw
  obtain ⟨m,t,-,-,ht⟩ := h.moved
  have hplace := h.place
  cases hpc : s.pc with
  | wait => simp only [WritePlace,hpc] at hplace
  | poll =>
    rw [host_poll hpc]
    refine ⟨hf,fun hd => ?_⟩
    by_cases hx : Takes s.drive.phase
    · rw [if_pos (ht.asks.mpr hx)] at hd
      cases hd
    · change s.drive.phase = .idle
      cases hph : s.drive.phase with
      | idle => rfl
      | take ws n => exact absurd ⟨ws,n,hph⟩ hx
      | failed => exact absurd hph hf
      | data w l => rw [hph] at ht; exact ht.elim
      | fetch l => rw [hph] at hb; cases hb
      | want f n => rw [hph] at hb; cases hb
      | flush => rw [hph] at hb; cases hb
  | move =>
    have hpoll := host_move hpc
    refine ⟨?_,fun hd => by rw [hpoll] at hd; cases hd⟩
    simp only [WritePlace,hpc] at hplace
    by_cases hi : s.i < (s.cnt * 256).toNat
    · obtain ⟨ws,n,hph⟩ := hplace
      rw [host_write hpc h.op hi]
      simp only [Drive.writeData,hph]
      split
      · dsimp only
        split
        · exact fun hx => by cases hx
        · exact fun hx => by cases hx
      · exact fun hx => by cases hx
    · simp only [HdaPio.host,hpc,if_neg hi]
      exact hf
  | done =>
    simp only [HdaPio.host,hpc]
    exact ⟨hf,hdone⟩

theorem WriteWhole.step {a : Actor} (h : Writing c N buf before s) (hw : WriteWhole s)
    (hb : s.drive.phase.busy = true → a = .drive) : WriteWhole (HdaPio.step s a) := by
  cases a with
  | host =>
    rw [HdaPio.step]
    split
    · exact hw
    · exact hw.host h (Bool.eq_false_iff.mpr fun hx => absurd (hb hx) (by decide))
  | drive =>
    obtain ⟨hf,hdone⟩ := hw
    simp only [HdaPio.step]
    refine ⟨?_,fun hd => ?_⟩
    · rw [Drive.ready]
      split
      · exact fun hx => by cases hx
      · exact fun hx => by cases hx
      · exact fun hx => by cases hx
      · exact hf
    · dsimp only
      rw [Drive.ready,hdone hd]
      exact hdone hd
  | fault =>
    have hidle : s.drive.fail = s.drive := by
      rw [Drive.fail]
      split
      · rename_i hph
        exact absurd (hb (by rw [hph]; rfl)) (by decide)
      · rename_i hph
        exact absurd (hb (by rw [hph]; rfl)) (by decide)
      · rename_i hph
        exact absurd (hb (by rw [hph]; rfl)) (by decide)
      · rfl
    rw [HdaPio.step,hidle]
    exact hw
  | irq =>
    by_cases hq : s.drive.intrq ∧ ¬ s.halted
    · obtain ⟨b,r,k,-,heq⟩ := h.irq_eq hq
      rw [heq]
      exact hw
    · rw [HdaPio.step,if_neg hq]
      exact hw

theorem WriteWhole.run {s : Sys} {sched : ℕ → Actor} (h : Writing c N buf before s) (hw : WriteWhole s) (hp : Prompt s sched)
    (n : ℕ) : Writing c N buf before (run HdaPio.step s sched n) ∧ WriteWhole (run HdaPio.step s sched n) := by
  induction n with
  | zero => exact ⟨h,hw⟩
  | succ n ih => exact ⟨ih.1.step _,ih.2.step ih.1 (hp n)⟩

/-- Whatever turns the drive, the interrupt and `hda_write` take: the drive has taken the first
sectors of the buffer, and no part of a sector when `hda_write` comes back. It comes back, or the
system stops with a `PANIC`, even if the drive never has a turn, unless the count is a multiple of
2²⁴. From a drive that no one finds busy it comes back when all the sectors are taken that the low
8 bits of the count stand for. If it has the first turn it comes back at once and nothing is
written. -/
theorem hda_write_any_order (cnt : UInt32) (buf : ℕ → UInt16) (s : Sys) (sched : ℕ → Actor) :
    let r := run step (hdaWrite cnt buf s) sched
    (∀ n, ∃ k, k ≤ sectorCount cnt.toUInt8 ∧ (r n).drive.stored = s.drive.stored ++ chunks buf k ∧
      ((r n).pc = .done → (r n).i = 256 * k)) ∧
    (cnt.toNat % 2 ^ 24 ≠ 0 → Fair (· = .host) sched → ∃ n, (r n).pc = .done ∨ (r n).halted = true) ∧
    (Prompt (hdaWrite cnt buf s) sched → ∀ n, (r n).pc = .done →
      (r n).drive.stored = s.drive.stored ++ chunks buf (sectorCount cnt.toUInt8)) ∧
    (s.halted = false → sched 0 = .host → (r 1).pc = .done ∧ (r 1).drive.stored = s.drive.stored) := by
  intro r
  have hstart := hdaWrite_writing cnt buf s
  have hinv : ∀ n, Writing cnt (sectorCount cnt.toUInt8) buf s.drive.stored (r n) :=
    run_invariant (fun s a h => h.step a) hstart
  refine ⟨fun n => (hinv n).done,fun hc hf => ?_,fun hp n hd => ?_,fun hh h0 => ?_⟩
  · apply fair_reaches (fun s a h => h.step a) (writeMeasure (sectorCount cnt.toUInt8)) _ (fun s h hd => h.goes_on hd) hf hstart
    intro s a h hne
    exact (h.lower (sectorCount_limit hc) a).resolve_left hne
  · have hw : WriteWhole (hdaWrite cnt buf s) := by
      refine ⟨fun hx => ?_,fun hx => ?_⟩
      · cases hx
      · cases hx
    have hidle := (hw.run hstart hp n).2.2 hd
    obtain ⟨m,t,hm,-,ht⟩ := (hinv n).moved
    rw [hidle] at ht
    rw [hm,ht.2]
  · have hone : r 1 = host (hdaWrite cnt buf s) := by
      change step (hdaWrite cnt buf s) (sched 0) = _
      rw [h0,step]
      exact if_neg (by rw [show (hdaWrite cnt buf s).halted = s.halted from rfl,hh]; decide)
    rw [hone,host_poll rfl]
    exact ⟨rfl,rfl⟩

/-- With turns in a row a write of two sectors comes back. -/
theorem hda_write_round_robin : ∃ n, (run step (hdaWrite 2 (fun j => j.toUInt16) quiet) roundRobin n).pc = .done ∨
    (run step (hdaWrite 2 (fun j => j.toUInt16) quiet) roundRobin n).halted = true := by
  apply (hda_write_any_order 2 (fun j => j.toUInt16) quiet roundRobin).2.1 (by decide)
  rintro a rfl
  exact roundRobin_fair .host (by decide)

end Writing

end Micron.Kernel.HdaPio

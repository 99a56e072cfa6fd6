import Micron.Kernel.HdaPio

/-! # The geometry of the hard disk

`hda_init` asks the drive to identify itself and waits. The words are read by the interrupt
handler, which keeps three of them.
-/
namespace Micron.Kernel.HdaPio
open Function Ata Turns

section Identify
variable {ident : Sector} {s : Sys}

/-- `hda_init` behind its command, of a drive that answers with `ident`. -/
def hdaIdentify (ident : Sector) (s : Sys) : Sys :=
  { s with drive := s.drive.read [ident], cmd := CMD_IDENTIFY, rready := false, op := .identify, pc := .wait }

def Known (ident : Sector) (s : Sys) : Prop := some s.C = ident[1]? ∧ some s.H = ident[3]? ∧ some s.S = ident[6]?

theorem identifyLoop_behind (ws : List UInt16) {i : ℕ} (hi : 7 ≤ i) (s : Sys) : identifyLoop i ws s = s := by
  induction ws generalizing i with
  | nil => rfl
  | cons w ws ih =>
    rw [identifyLoop,if_neg (by omega),if_neg (by omega),if_neg (by omega)]
    exact ih (by omega)

theorem identifyLoop_known (h : 7 ≤ ident.length) (s : Sys) :
    ∃ C H S, identifyLoop 0 ident s = { s with C := C, H := H, S := S } ∧
      some C = ident[1]? ∧ some H = ident[3]? ∧ some S = ident[6]? := by
  obtain ⟨w,ws,rfl,hw⟩ : ∃ w ws, w ++ ws = ident ∧ w.length = 7 :=
    ⟨_,_,List.take_append_drop 7 ident,List.length_take_of_le h⟩
  obtain ⟨w0,w1,w2,w3,w4,w5,w6,rfl⟩ : ∃ w0 w1 w2 w3 w4 w5 w6, [w0,w1,w2,w3,w4,w5,w6] = w := by
    simpa [List.length_eq_succ_iff] using hw
  exact ⟨w1,w3,w6,identifyLoop_behind _ (Nat.le_refl 7) _,rfl,rfl,rfl⟩

theorem hdaIntr_identify (hlen : 7 ≤ ident.length) (hph : s.drive.phase = .data ident []) (hc : s.cmd = CMD_IDENTIFY) :
    ∃ C H S, hdaIntr s = { s with drive := ⟨.idle,false,s.drive.stored⟩, rready := true, cmd := 0, C := C, H := H, S := S } ∧
      some C = ident[1]? ∧ some H = ident[3]? ∧ some S = ident[6]? := by
  obtain ⟨C,H,S,hloop,hknown⟩ := identifyLoop_known hlen { s with drive := { s.drive with intrq := false } }
  refine ⟨C,H,S,?_,hknown⟩
  simp only [hdaIntr,Drive.readStatus,hc,if_true]
  rw [if_neg (mt (Phase.status_error _).mp (by rw [hph]; exact fun hx => by cases hx))]
  simp only [hph]
  rw [show ({ s with drive := ⟨.data ident [],false,s.drive.stored⟩, cmd := CMD_IDENTIFY } : Sys) =
    { s with drive := { s.drive with intrq := false } } by rw [← hph,← hc],hloop]
  rfl

inductive Identifying (ident : Sector) (s : Sys) : Prop
  | asked (hop : s.op = .identify) (hpc : s.pc = .wait) (hr : s.rready = false) (hc : s.cmd = CMD_IDENTIFY)
      (hph : s.drive.phase = .fetch [ident])
      (hq : s.drive.intrq = false)
  | answered (hop : s.op = .identify) (hpc : s.pc = .wait) (hr : s.rready = false) (hc : s.cmd = CMD_IDENTIFY)
      (hph : s.drive.phase = .data ident [])
      (hq : s.drive.intrq = true)
  | refused (hpc : s.pc = .wait) (hr : s.rready = false) (hph : s.drive.phase = .failed)
      (hq : s.drive.intrq = true ∨ s.halted = true)
  | known (hop : s.op = .identify) (hpc : s.pc = .wait ∨ s.pc = .done) (hr : s.rready = true) (hc : s.cmd = 0)
      (hph : s.drive.phase = .idle) (hq : s.drive.intrq = false) (hk : Known ident s)

theorem host_waits (hpc : s.pc = .wait) (hr : s.rready = false) : host s = s := by
  simp only [host,hpc,hr]
  rfl

theorem Identifying.host (h : Identifying ident s) :
    Identifying ident (host s) ∧ (HdaPio.host s = s ∨ measure (HdaPio.host s) < measure s) := by
  cases h with
  | asked hop hpc hr hc hph hq =>
    rw [host_waits hpc hr]
    exact ⟨.asked hop hpc hr hc hph hq,Or.inl rfl⟩
  | answered hop hpc hr hc hph hq =>
    rw [host_waits hpc hr]
    exact ⟨.answered hop hpc hr hc hph hq,Or.inl rfl⟩
  | refused hpc hr hph hq =>
    rw [host_waits hpc hr]
    exact ⟨.refused hpc hr hph hq,Or.inl rfl⟩
  | known hop hpc hr hc hph hq hk =>
    obtain hpc | hpc := hpc
    · rw [host_wait hpc hr,if_pos hop]
      refine ⟨.known hop (Or.inr rfl) hr hc hph hq hk,Or.inr ?_⟩
      simp only [measure,hpc,Pc.load]
      omega
    · simp only [HdaPio.host,hpc]
      exact ⟨.known hop (Or.inr hpc) hr hc hph hq hk,Or.inl trivial⟩

theorem Identifying.drive (h : Identifying ident s) :
    Identifying ident (step s .drive) ∧ (step s .drive = s ∨ measure (step s .drive) < measure s) := by
  rw [step,Drive.ready]
  cases h with
  | asked hop hpc hr hc hph hq =>
    rw [hph]
    refine ⟨.answered hop hpc hr hc rfl rfl,Or.inr ?_⟩
    simp only [measure,load,hph,hq,List.flatten_nil,List.append_nil,List.flatten_cons,
      List.length_cons,Bool.toNat_true,Bool.toNat_false]
    omega
  | answered hop hpc hr hc hph hq =>
    rw [hph]
    exact ⟨.answered hop hpc hr hc hph hq,Or.inl rfl⟩
  | refused hpc hr hph hq =>
    rw [hph]
    exact ⟨.refused hpc hr hph hq,Or.inl rfl⟩
  | known hop hpc hr hc hph hq hk =>
    rw [hph]
    exact ⟨.known hop hpc hr hc hph hq hk,Or.inl rfl⟩

theorem Identifying.fault (h : Identifying ident s) :
    Identifying ident (step s .fault) ∧ (step s .fault = s ∨ measure (step s .fault) < measure s) := by
  rw [step,Drive.fail]
  cases h with
  | asked hop hpc hr hc hph hq =>
    rw [hph]
    refine ⟨.refused hpc hr rfl (Or.inl rfl),Or.inr ?_⟩
    simp only [measure,load,hph,hq,List.length_cons,List.length_nil,Bool.toNat_true,Bool.toNat_false]
    omega
  | answered hop hpc hr hc hph hq =>
    rw [hph]
    exact ⟨.answered hop hpc hr hc hph hq,Or.inl rfl⟩
  | refused hpc hr hph hq =>
    rw [hph]
    exact ⟨.refused hpc hr hph hq,Or.inl rfl⟩
  | known hop hpc hr hc hph hq hk =>
    rw [hph]
    exact ⟨.known hop hpc hr hc hph hq hk,Or.inl rfl⟩

theorem Identifying.irq (hlen : 7 ≤ ident.length) (h : Identifying ident s) :
    Identifying ident (step s .irq) ∧ (step s .irq = s ∨ measure (step s .irq) < measure s) := by
  by_cases hirq : s.drive.intrq ∧ ¬ s.halted
  swap
  · rw [step,if_neg hirq]
    exact ⟨h,Or.inl rfl⟩
  rw [step,if_pos hirq]
  cases h with
  | asked hop hpc hr hc hph hq => exact absurd (hq.symm.trans hirq.1) Bool.false_ne_true
  | answered hop hpc hr hc hph hq =>
    obtain ⟨C,H,S,heq,hknown⟩ := hdaIntr_identify hlen hph hc
    rw [heq]
    refine ⟨.known hop (Or.inl hpc) rfl rfl rfl rfl hknown,Or.inr ?_⟩
    simp only [measure,load,hph,hq,Bool.toNat_true,Bool.toNat_false]
    omega
  | refused hpc hr hph hq =>
    rw [hdaIntr_failed hph]
    refine ⟨.refused hpc hr hph (Or.inr rfl),Or.inr ?_⟩
    simp only [measure,hirq.1,Bool.toNat_true,Bool.toNat_false]
    omega
  | known hop hpc hr hc hph hq hk => exact absurd (hq.symm.trans hirq.1) Bool.false_ne_true

theorem Identifying.turn (hlen : 7 ≤ ident.length) (a : Actor) (h : Identifying ident s) :
    Identifying ident (step s a) ∧ (step s a = s ∨ measure (step s a) < measure s) := by
  cases a with
  | host =>
    rw [step]
    split
    · exact ⟨h,Or.inl rfl⟩
    · exact h.host
  | drive => exact h.drive
  | fault => exact h.fault
  | irq => exact h.irq hlen

theorem Identifying.goes_on (hlen : 7 ≤ ident.length) (h : Identifying ident s) (hd : ¬ (s.pc = .done ∨ s.halted = true)) :
    ∃ a, a ≠ Actor.fault ∧ step s a ≠ s := by
  obtain ⟨hpc',hh⟩ := not_or.mp hd
  cases h with
  | asked hop hpc hr hc hph hq =>
    refine ⟨.drive,by decide,fun heq => ?_⟩
    have hsame := congrArg (fun s => s.drive.intrq) heq
    simp only [step,Drive.ready,hph,hq] at hsame
    cases hsame
  | answered hop hpc hr hc hph hq =>
    refine ⟨.irq,by decide,fun heq => ?_⟩
    obtain ⟨C,H,S,hintr,-⟩ := hdaIntr_identify hlen hph hc
    have hsame := congrArg Sys.rready heq
    rw [step,if_pos ⟨hq,hh⟩,hintr,hr] at hsame
    cases hsame
  | refused hpc hr hph hq =>
    refine ⟨.irq,by decide,fun heq => hh ?_⟩
    have hsame := congrArg Sys.halted heq
    rw [step,if_pos ⟨hq.resolve_right hh,hh⟩,hdaIntr_failed hph] at hsame
    exact hsame.symm
  | known hop hpc hr hc hph hq hk =>
    have hwait := hpc.resolve_right hpc'
    refine ⟨.host,by decide,fun heq => hpc' ?_⟩
    rw [step,if_neg hh,host_wait hwait hr,if_pos hop] at heq
    exact (congrArg Sys.pc heq).symm

/-- Only a fault of the drive stops the system. -/
theorem Identifying.spared (hlen : 7 ≤ ident.length) {a : Actor} (ha : a ≠ .fault) (h : Identifying ident s)
    (hf : s.drive.phase ≠ .failed ∧ s.halted = false) : (step s a).drive.phase ≠ .failed ∧ (step s a).halted = false := by
  obtain ⟨hf,hh⟩ := hf
  cases a with
  | fault => exact absurd rfl ha
  | host =>
    rw [step,if_neg (by rw [hh]; exact Bool.false_ne_true)]
    refine ⟨?_,(host_halted s).trans hh⟩
    cases h with
    | known hop hpc hr hc hph hq hk =>
      obtain hpc | hpc := hpc
      · rw [host_wait hpc hr]
        exact hf
      · simp only [HdaPio.host,hpc]
        exact hf
    | asked hop hpc hr hc hph hq => rwa [host_waits hpc hr]
    | answered hop hpc hr hc hph hq => rwa [host_waits hpc hr]
    | refused hpc hr hph hq => exact absurd hph hf
  | drive =>
    refine ⟨?_,hh⟩
    rw [step,Drive.ready]
    split
    · exact fun hx => by cases hx
    · exact fun hx => by cases hx
    · exact fun hx => by cases hx
    · exact hf
  | irq =>
    by_cases hirq : s.drive.intrq ∧ ¬ s.halted
    swap
    · rw [step,if_neg hirq]
      exact ⟨hf,hh⟩
    rw [step,if_pos hirq]
    cases h with
    | asked hop hpc hr hc hph hq => exact absurd (hq.symm.trans hirq.1) Bool.false_ne_true
    | answered hop hpc hr hc hph hq =>
      obtain ⟨C,H,S,heq,-⟩ := hdaIntr_identify hlen hph hc
      rw [heq]
      exact ⟨fun hx => (by cases hx),hh⟩
    | refused hpc hr hph hq => exact absurd hph hf
    | known hop hpc hr hc hph hq hk => exact absurd (hq.symm.trans hirq.1) Bool.false_ne_true

/-- Whatever turns the drive, the interrupt and `hda_init` take: when `hda_init` goes on it has the
cylinders, heads and sectors of the words 1, 3 and 6, all the words are read, and no interrupt of
the drive is left over. It goes on or the system stops with a `PANIC` if all take their turns again
and again, and it goes on if the drive does not fail. -/
theorem hda_identify_any_order (ident : Sector) (hlen : 7 ≤ ident.length) (s : Sys) (sched : ℕ → Actor) :
    let r := run step (hdaIdentify ident s) sched
    (∀ n, (r n).pc = .done → Known ident (r n) ∧ (r n).drive.phase = .idle ∧ (r n).drive.intrq = false ∧ (r n).cmd = 0) ∧
    (Fair (· ≠ .fault) sched → ∃ n, (r n).pc = .done ∨ (r n).halted = true) ∧
    (s.halted = false → Fair (· ≠ .fault) sched → (∀ n, sched n ≠ .fault) → ∃ n, (r n).pc = .done) := by
  intro r
  have hstart : Identifying ident (hdaIdentify ident s) := .asked rfl rfl rfl rfl rfl rfl
  have hinv : ∀ n, Identifying ident (r n) := run_invariant (fun s a h => (h.turn hlen a).1) hstart
  have hend : Fair (· ≠ .fault) sched → ∃ n, (r n).pc = .done ∨ (r n).halted = true := by
    intro hf
    apply fair_reaches (fun s a h => (h.turn hlen a).1) measure _ (fun s h hd => h.goes_on hlen hd) hf hstart
    intro s a h hne
    exact (h.turn hlen a).2.resolve_left hne
  refine ⟨fun n hd => ?_,hend,fun hh hf hno => ?_⟩
  · cases hinv n with
    | known hop hpc hr hc hph hq hk => exact ⟨hk,hph,hq,hc⟩
    | asked hop hpc hr hc hph hq => rw [hd] at hpc; cases hpc
    | answered hop hpc hr hc hph hq => rw [hd] at hpc; cases hpc
    | refused hpc hr hph hq => rw [hd] at hpc; cases hpc
  · have hspared : ∀ n, (r n).drive.phase ≠ .failed ∧ (r n).halted = false := by
      intro n
      induction n with
      | zero => exact ⟨fun hx => (by cases hx),hh⟩
      | succ n ih => exact (hinv n).spared hlen (hno n) ih
    obtain ⟨n,hn⟩ := hend hf
    exact ⟨n,hn.resolve_right (by rw [(hspared n).2]; exact Bool.false_ne_true)⟩

/-- With turns in a row a drive of 980 cylinders, 10 heads and 17 sectors is identified. -/
theorem hda_identify_round_robin :
    ∃ n, (run step (hdaIdentify ([0x40,980,0,10,0,0,17] ++ List.replicate 249 0) quiet) roundRobin n).pc = .done := by
  apply (hda_identify_any_order ([0x40,980,0,10,0,0,17] ++ List.replicate 249 0)
    (by simp only [List.length_append,List.length_cons,List.length_replicate]; omega)
    quiet roundRobin).2.2 rfl roundRobin_fair
  intro n
  rw [roundRobin]
  split
  · decide
  · split
    · decide
    · decide

end Identify

end Micron.Kernel.HdaPio

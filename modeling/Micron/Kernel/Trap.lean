import Micron.Kernel.Descriptors
import Micron.Kernel.Irq

/-! # The way of an interrupt through the kernel

An interrupt goes through its gate to a stub, which pushes the number of the vector, and on to
`isr_handler`, which saves the registers as a `struct Register`, calls `isr_entry` with a
pointer to it and restores the registers from it.
-/
namespace Micron.Kernel.Trap
open Function Bytes Micron.Bitfield Micron.Ia32 Descriptors

/-! ## Gates and stubs -/

inductive Stub
  | isr (n : ℕ)
  | invalid
  | syscall
deriving DecidableEq, Repr

def stubs : List Stub := (List.range 48).map .isr ++ [.invalid,.syscall]

def INTR := 6
def BITS32 := 1

/-- Vector 255 keeps its old entry. -/
def idtInit (addr : Stub → UInt32) (idt : ℕ → Idt) : ℕ → Idt :=
  let idt := (List.range 48).foldl (fun t i => idtSetup i 0x08 (addr (.isr i)) 1 0 INTR BITS32 t) idt
  let idt := (List.range' 48 207).foldl (fun t i => idtSetup i 0x08 (addr .invalid) 1 0 INTR BITS32 t) idt
  idtSetup 0x80 0x08 (addr .syscall) 1 0 INTR BITS32 idt

def errVectors : List ℕ := [8,10,11,12,13,14,17]

/-- A stub without an error code pushes a zero in its place. -/
def stubCode : Stub → List Instr
  | .isr n => if n ∈ errVectors then [.pushImm n.toUInt32] else [.pushImm 0,.pushImm n.toUInt32]
  | .invalid => [.pushImm 0,.pushImm 0xFF]
  | .syscall => [.pushImm 0,.pushImm 0x80]

def isrHandlerIn (entry : UInt32) : List Instr :=
  [.pusha,.pushSeg .ss,.pushSeg .ds,.pushSeg .es,.pushSeg .fs,.pushSeg .gs,
    .movAx 0x10,.movSeg .ss,.movSeg .ds,.movSeg .es,.movSeg .fs,.movSeg .gs,
    .mov .esp .eax,.push .eax,.movImm entry .eax]

def isrHandlerOut : List Instr :=
  [.pop .eax,.popSeg .gs,.popSeg .fs,.popSeg .es,.popSeg .ds,.popSeg .ss,.popa,.addEsp 8]

/-- `struct Register` without its last two fields, which are there only when the interrupted
code ran at another privilege level. -/
structure Register where
  gs : UInt32
  fs : UInt32
  es : UInt32
  ds : UInt32
  ss : UInt32
  edi : UInt32
  esi : UInt32
  ebp : UInt32
  esp : UInt32
  ebx : UInt32
  edx : UInt32
  ecx : UInt32
  eax : UInt32
  intn : UInt32
  err : UInt32
  eip : UInt32
  cs : UInt32
  eflags : UInt32
deriving DecidableEq, Repr

def Register.at (m : ℕ → UInt8) (p : UInt32) : Register where
  gs := peek m p
  fs := peek m (p + 4)
  es := peek m (p + 8)
  ds := peek m (p + 12)
  ss := peek m (p + 16)
  edi := peek m (p + 20)
  esi := peek m (p + 24)
  ebp := peek m (p + 28)
  esp := peek m (p + 32)
  ebx := peek m (p + 36)
  edx := peek m (p + 40)
  ecx := peek m (p + 44)
  eax := peek m (p + 48)
  intn := peek m (p + 52)
  err := peek m (p + 56)
  eip := peek m (p + 60)
  cs := peek m (p + 64)
  eflags := peek m (p + 68)

/-- The registers that the interrupted code goes on with; the stack pointer is not taken from
the structure. -/
def Register.resume (r : Register) (esp : UInt32) : Regs where
  eax := r.eax
  ecx := r.ecx
  edx := r.edx
  ebx := r.ebx
  esp := esp
  ebp := r.ebp
  esi := r.esi
  edi := r.edi
  eip := r.eip
  eflags := r.eflags
  cs := r.cs.toUInt16
  ss := r.ss.toUInt16
  ds := r.ds.toUInt16
  es := r.es.toUInt16
  fs := r.fs.toUInt16
  gs := r.gs.toUInt16

def Register.of (c : Regs) (n err : UInt32) : Register where
  gs := c.gs.toUInt32
  fs := c.fs.toUInt32
  es := c.es.toUInt32
  ds := c.ds.toUInt32
  ss := c.ss.toUInt32
  edi := c.edi
  esi := c.esi
  ebp := c.ebp
  esp := c.esp - 20
  ebx := c.ebx
  edx := c.edx
  ecx := c.ecx
  eax := c.eax
  intn := n
  err := err
  eip := c.eip
  cs := c.cs.toUInt32
  eflags := c.eflags

/-- The structure that interrupted code is resumed with unchanged. -/
theorem resume_of (c : Regs) (n err : UInt32) : (Register.of c n err).resume c.esp = c := by
  simp [Register.resume,Register.of]

section
variable {ε κ : Type} (addr : Stub → UInt32) (entry ret : UInt32)
  (isr_entry : UInt32 → (ℕ → UInt8) → κ → Except ε (Returned κ))

def stubAt (a : ℕ) : Option Stub := stubs.find? (fun s => (addr s).toNat = a)

def runStub (st : Stub) (c : Cpu) (g : κ) : Except ε (Cpu × κ) :=
  ((execs c (stubCode st ++ isrHandlerIn entry)).call ret isr_entry g).map fun x =>
    ((execs x.1 isrHandlerOut).iret,x.2)

/-- Vector `n` while the processor is at `c`. Without a present interrupt gate nothing of the
kernel is entered. -/
def trap (idt : ℕ → Idt) (n : ℕ) (err : Option UInt32) (c : Cpu) (g : κ) : Option (Except ε (Cpu × κ)) :=
  let d := gate (pack (idt n).fields)
  if d.present = 1 ∧ d.kind = 14 then
    (stubAt addr d.offset).map fun st =>
      runStub entry ret isr_entry st (c.interrupt d.sel.toUInt16 d.offset.toUInt32 err) g
  else none

end

variable {c : Cpu} {entry ret : UInt32} {err : Option UInt32} {st : Stub}

/-! ## Into the handler -/

def Stub.number : Stub → UInt32
  | .isr n => n.toUInt32
  | .invalid => 0xFF
  | .syscall => 0x80

def Stub.coded : Stub → Bool
  | .isr n => decide (n ∈ errVectors)
  | .invalid => false
  | .syscall => false

theorem stubCode_eq (st : Stub) : stubCode st = ((if st.coded then [] else [0]) ++ [st.number]).map .pushImm := by
  cases st with
  | isr n =>
    rw [stubCode,Stub.coded]
    by_cases h : n ∈ errVectors
    · simp [h,Stub.number]
    · simp [h,Stub.number]
  | invalid => rfl
  | syscall => rfl

/-- Together the processor and the stub push an error code and the number. -/
theorem error_and_number (h : err.isSome = st.coded) :
    err.toList ++ ((if st.coded then [] else [0]) ++ [st.number]) = [err.getD 0,st.number] := by
  cases err with
  | none => simp [← h]
  | some e => simp [← h]

def pushedRegs (c : Regs) : List UInt32 :=
  [c.eax,c.ecx,c.edx,c.ebx,c.esp,c.ebp,c.esi,c.edi,
    c.ss.toUInt32,c.ds.toUInt32,c.es.toUInt32,c.fs.toUInt32,c.gs.toUInt32]

theorem exec_pushSeg (c : Cpu) (vs : List UInt32) (s : Seg) :
    exec (c.pushes vs) (.pushSeg s) = c.pushes (vs ++ [(c.seg s).toUInt32]) := by
  rw [← pushes_append,exec,pushes_seg]
  rfl

theorem ax_data_selector (v : UInt32) : (v &&& 0xffff0000 ||| (0x10 : UInt16).toUInt32).toUInt16 = 0x10 := by
  apply UInt16.eq_of_toBitVec_eq
  simp

theorem loadSegs_eq (c : Cpu) (entry : UInt32) :
    execs c [.movAx 0x10,.movSeg .ss,.movSeg .ds,.movSeg .es,.movSeg .fs,.movSeg .gs,
      .mov .esp .eax,.push .eax,.movImm entry .eax] =
    { c.push c.esp with eax := entry, ss := 0x10, ds := 0x10, es := 0x10, fs := 0x10, gs := 0x10 } := by
  simp only [execs,List.foldl_cons,List.foldl_nil,exec,Cpu.setSeg,ax_data_selector]
  rfl

theorem isrHandlerIn_eq (c : Cpu) (entry : UInt32) : execs c (isrHandlerIn entry) =
    { c.pushes (pushedRegs c.toRegs ++ [(c.pushes (pushedRegs c.toRegs)).esp]) with
      eax := entry, ss := 0x10, ds := 0x10, es := 0x10, fs := 0x10, gs := 0x10 } := by
  have h : execs c [.pusha,.pushSeg .ss,.pushSeg .ds,.pushSeg .es,.pushSeg .fs,.pushSeg .gs] =
      c.pushes (pushedRegs c.toRegs) := by
    simp only [execs,List.foldl_cons,List.foldl_nil]
    rw [exec,exec_pushSeg,exec_pushSeg,exec_pushSeg,exec_pushSeg,exec_pushSeg]
    rfl
  rw [← pushes_append]
  apply Eq.trans _ (loadSegs_eq (c.pushes (pushedRegs c.toRegs)) entry)
  rw [← h,← execs_append]
  rfl

def saved (c : Regs) (n e : UInt32) : List UInt32 :=
  [c.eflags,c.cs.toUInt32,c.eip,e,n] ++ pushedRegs { c with esp := c.esp - 20 }

theorem enter_eq (c : Cpu) (sel : UInt16) (off : UInt32) (h : err.isSome = st.coded) :
    execs (c.interrupt sel off err) (stubCode st ++ isrHandlerIn entry) =
    { (c.pushes (saved c.toRegs st.number (err.getD 0) ++ [c.esp - 72])).enter sel off (c.eflags &&& ~~~ 0x34300) with
      eax := entry, ss := 0x10, ds := 0x10, es := 0x10, fs := 0x10, gs := 0x10 } := by
  have hp : (c.interrupt sel off err).pushes ((if st.coded then [] else [0]) ++ [st.number]) =
      (c.pushes [c.eflags,c.cs.toUInt32,c.eip,err.getD 0,st.number]).enter sel off (c.eflags &&& ~~~ 0x34300) := by
    rw [Cpu.interrupt,pushes_enter,pushes_append,List.append_assoc,error_and_number h]
    rfl
  have hr : pushedRegs ((c.pushes [c.eflags,c.cs.toUInt32,c.eip,err.getD 0,st.number]).enter sel off
      (c.eflags &&& ~~~ 0x34300)).toRegs = pushedRegs { c.toRegs with esp := c.esp - 20 } := by
    simp only [Cpu.enter,pushes_regs]
    rfl
  have hs : [c.eflags,c.cs.toUInt32,c.eip,err.getD 0,st.number] ++ pushedRegs { c.toRegs with esp := c.esp - 20 } =
      saved c.toRegs st.number (err.getD 0) := rfl
  rw [execs_append,stubCode_eq,execs_pushImm,hp,isrHandlerIn_eq,hr,pushes_enter,pushes_append,← List.append_assoc,hs,
    pushes_enter,pushes_append,hs,show ((c.pushes (saved c.toRegs st.number (err.getD 0))).enter sel off
      (c.eflags &&& ~~~ 0x34300)).esp = c.esp - 72 from pushes_esp ..]

theorem at_of_words {m : ℕ → UInt8} {p : UInt32} {r : Register} (hp : p.toNat + 72 < 2 ^ 32)
    (h : Words m p.toNat [r.gs,r.fs,r.es,r.ds,r.ss,r.edi,r.esi,r.ebp,r.esp,r.ebx,r.edx,r.ecx,r.eax,r.intn,r.err,
      r.eip,r.cs,r.eflags]) : Register.at m p = r := by
  have hk (k : UInt32) (hk : k.toNat ≤ 68) : (p + k).toNat = p.toNat + k.toNat := toNat_add (by omega)
  obtain ⟨h0,h1,h2,h3,h4,h5,h6,h7,h8,h9,h10,h11,h12,h13,h14,h15,h16,h17,-⟩ := h
  simp only [Register.at,peek]
  rw [hk 4 (by decide),hk 8 (by decide),hk 12 (by decide),hk 16 (by decide),hk 20 (by decide),
    hk 24 (by decide),hk 28 (by decide),hk 32 (by decide),hk 36 (by decide),hk 40 (by decide),hk 44 (by decide),
    hk 48 (by decide),hk 52 (by decide),hk 56 (by decide),hk 60 (by decide),hk 64 (by decide),hk 68 (by decide)]
  cases r
  rw [Register.mk.injEq]
  exact ⟨h0,h1,h2,h3,h4,h5,h6,h7,h8,h9,h10,h11,h12,h13,h14,h15,h16,h17⟩

theorem out_eq (c : Cpu) : (execs c isrHandlerOut).iret =
    { (Register.at c.mem (c.esp + 4)).resume (c.esp + 76) with mem := c.mem } := by
  simp only [execs,isrHandlerOut,List.foldl_cons,List.foldl_nil,exec,Cpu.setSeg,Cpu.set,Cpu.load,Cpu.iret,
    UInt32.add_assoc,Register.at,Register.resume]
  rfl

/-- The memory that `isr_entry` starts with: the registers are saved, its argument and its
return address are pushed. -/
def frameMem (c : Cpu) (n e ret : UInt32) : ℕ → UInt8 := (c.pushes (saved c.toRegs n e ++ [c.esp - 72,ret])).mem

theorem frameMem_above {a : ℕ} (n e ret : UInt32) (hroom : 80 ≤ c.esp.toNat) (ha : c.esp.toNat ≤ a ∨ a < c.esp.toNat - 80) :
    frameMem c n e ret a = c.mem a := pushes_frame hroom ha

theorem frameMem_register (n e ret : UInt32) (hroom : 80 ≤ c.esp.toNat) :
    Register.at (frameMem c n e ret) (c.esp - 72) = Register.of c.toRegs n e := by
  have hs := (stacked_nil c).pushes (saved c.toRegs n e ++ [c.esp - 72,ret]) hroom
  have hp : (c.esp - 72).toNat = c.esp.toNat - 72 :=
    UInt32.toNat_sub_of_le _ _ (UInt32.le_iff_toNat_le.mpr (Nat.le_trans (by decide) hroom))
  have hlt := c.esp.toNat_lt
  have he : (c.pushes (saved c.toRegs n e ++ [c.esp - 72,ret])).esp.toNat + 80 = c.esp.toNat := hs.esp
  have hw := hs.words.2.2
  rw [show _ + 4 + 4 = (c.esp - 72).toNat by omega] at hw
  exact at_of_words (by omega) hw

theorem frameMem_intn (n e ret : UInt32) (hroom : 80 ≤ c.esp.toNat) :
    peek (frameMem c n e ret) (c.esp - 72 + 52) = n := by
  have h := frameMem_register n e ret hroom
  rw [Register.at,Register.of,Register.mk.injEq] at h
  exact h.2.2.2.2.2.2.2.2.2.2.2.2.2.1

section
variable {ε κ : Type} (isr_entry : UInt32 → (ℕ → UInt8) → κ → Except ε (Returned κ)) (g : κ)

/-- `isr_entry` is given the saved registers, and the interrupted code goes on with what it
leaves there. -/
theorem runStub_eq (sel : UInt16) (off : UInt32) (hroom : 80 ≤ c.esp.toNat) (h : err.isSome = st.coded) :
    runStub entry ret isr_entry st (c.interrupt sel off err) g =
    (isr_entry (c.esp - 72) (frameMem c st.number (err.getD 0) ret) g).map fun r =>
      ({ (Register.at r.mem (c.esp - 72)).resume c.esp with mem := r.mem },r.globals) := by
  have hs := (stacked_nil c).pushes (saved c.toRegs st.number (err.getD 0) ++ [c.esp - 72]) (show 76 ≤ _ by omega)
  have harg : peek (c.pushes (saved c.toRegs st.number (err.getD 0) ++ [c.esp - 72])).mem
      (c.pushes (saved c.toRegs st.number (err.getD 0) ++ [c.esp - 72])).esp = c.esp - 72 := hs.words.1
  have hesp : (c.pushes (saved c.toRegs st.number (err.getD 0) ++ [c.esp - 72])).esp = c.esp - 76 := pushes_esp ..
  have hmem : ((c.pushes (saved c.toRegs st.number (err.getD 0) ++ [c.esp - 72])).push ret).mem =
      frameMem c st.number (err.getD 0) ret := by
    rw [frameMem,show [c.esp - 72,ret] = [c.esp - 72] ++ [ret] from rfl,← List.append_assoc,← pushes_append]
    rfl
  rw [runStub,enter_eq c sel off h]
  generalize c.pushes (saved c.toRegs st.number (err.getD 0) ++ [c.esp - 72]) = d at harg hesp hmem
  simp only [Cpu.call,Cpu.load,Cpu.enter,Cpu.push] at hmem ⊢
  rw [harg,hmem]
  cases isr_entry (c.esp - 72) (frameMem c st.number (err.getD 0) ret) g with
  | error e => rfl
  | ok r =>
    simp only [Except.map,out_eq]
    rw [hesp,show c.esp - 76 + 76 = c.esp from UInt32.sub_add_cancel ..,show (76 : UInt32) = 72 + 4 from rfl,← sub_sub,
      UInt32.sub_add_cancel]

end

/-! ## Through the gate -/

def stubFor (n : ℕ) : Stub := if n = 0x80 then .syscall else if n < 48 then .isr n else .invalid

/-- The number that `isr_entry` is given for vector `n`; the vectors without a stub of their own
share `isr_invalid`, which pushes 0xFF. -/
def vectorNumber (n : ℕ) : UInt32 := if n < 48 ∨ n = 0x80 then n.toUInt32 else 0xFF

theorem foldl_update {α : Type*} (f : ℕ → α) (l : List ℕ) (t : ℕ → α) (n : ℕ) :
    l.foldl (fun t i => update t i (f i)) t n = if n ∈ l then f n else t n := by
  induction l generalizing t with
  | nil => rfl
  | cons i l ih =>
    rw [List.foldl_cons,ih]
    by_cases hl : n ∈ l
    · rw [if_pos hl,if_pos (List.mem_cons_of_mem i hl)]
    · by_cases hi : n = i
      · rw [if_neg hl,hi,update_self,if_pos List.mem_cons_self]
      · rw [if_neg hl,update_of_ne hi,if_neg (by simp [hi,hl])]

theorem idtInit_entry (addr : Stub → UInt32) (idt : ℕ → Idt) {n : ℕ} (hn : n < 255) :
    idtInit addr idt n = idtEntry 0x08 (addr (stubFor n)) 1 0 INTR BITS32 := by
  simp only [idtInit,idtSetup]
  rw [update_apply,foldl_update (fun _ => idtEntry 0x08 (addr .invalid) 1 0 INTR BITS32),
    foldl_update (fun i => idtEntry 0x08 (addr (.isr i)) 1 0 INTR BITS32),stubFor]
  by_cases hs : n = 0x80
  · rw [if_pos hs,if_pos hs]
  · rw [if_neg hs,if_neg hs]
    by_cases hl : n < 48
    · rw [if_neg (by rw [List.mem_range'_1]; omega),if_pos (List.mem_range.mpr hl),if_pos hl]
    · rw [if_pos (by rw [List.mem_range'_1]; omega),if_neg hl]

theorem stubFor_mem (n : ℕ) : stubFor n ∈ stubs := by
  rw [stubFor,stubs]
  split
  · simp
  · split
    · rename_i h
      exact List.mem_append_left _ (List.mem_map_of_mem (List.mem_range.mpr h))
    · simp

theorem stubFor_number (n : ℕ) : (stubFor n).number = vectorNumber n := by
  rw [stubFor,vectorNumber]
  by_cases hs : n = 0x80
  · rw [if_pos hs,if_pos (Or.inr hs),hs]
    rfl
  · by_cases hl : n < 48
    · rw [if_neg hs,if_pos hl,if_pos (Or.inl hl)]
      rfl
    · rw [if_neg hs,if_neg hl,if_neg (by omega)]
      rfl

theorem stubFor_coded (n : ℕ) : (stubFor n).coded = decide (n ∈ errVectors) := by
  rw [stubFor]
  by_cases hs : n = 0x80
  · rw [if_pos hs,hs]
    rfl
  · by_cases hl : n < 48
    · rw [if_neg hs,if_pos hl]
      rfl
    · rw [if_neg hs,if_neg hl]
      symm
      rw [Stub.coded,decide_eq_false_iff_not,errVectors]
      simp only [List.mem_cons,List.not_mem_nil,or_false]
      omega

/-- No two stubs lie at one address. -/
def Apart (addr : Stub → UInt32) : Prop := ∀ s ∈ stubs, ∀ t ∈ stubs, addr s = addr t → s = t

theorem stubAt_addr {addr : Stub → UInt32} (h : Apart addr) (hst : st ∈ stubs) : stubAt addr (addr st).toNat = some st := by
  rw [stubAt]
  cases hf : stubs.find? (fun s => (addr s).toNat = (addr st).toNat) with
  | none =>
    have := List.find?_eq_none.mp hf st hst
    simp at this
  | some t =>
    have ht := List.find?_some hf
    rw [decide_eq_true_eq] at ht
    rw [h t (List.mem_of_find?_eq_some hf) st hst (UInt32.toNat_inj.mp ht)]

section
variable {ε κ : Type} {addr : Stub → UInt32} (isr_entry : UInt32 → (ℕ → UInt8) → κ → Except ε (Returned κ))

theorem trap_eq (hd : Apart addr) (idt : ℕ → Idt) {n : ℕ} (hn : n < 255) (herr : err.isSome = decide (n ∈ errVectors))
    (hroom : 80 ≤ c.esp.toNat) (g : κ) :
    trap addr entry ret isr_entry (idtInit addr idt) n err c g =
    some ((isr_entry (c.esp - 72) (frameMem c (vectorNumber n) (err.getD 0) ret) g).map fun r =>
      ({ (Register.at r.mem (c.esp - 72)).resume c.esp with mem := r.mem },r.globals)) := by
  simp only [trap,idtInit_entry addr idt hn,gate_idtEntry]
  rw [if_pos (by simp [INTR,BITS32]),stubAt_addr hd (stubFor_mem n),Option.map_some,
    runStub_eq isr_entry g _ _ hroom (herr.trans (stubFor_coded n).symm),stubFor_number]

/-- Every vector of the table but the last reaches `isr_entry` with the registers of the
interrupted code and the number of the vector, or 0xFF where the vectors share `isr_invalid`, and
leaves alone the memory outside the 80 bytes below its stack. The code goes on with what
`isr_entry` leaves in the structure, at its own stack pointer, and with all its registers if
`isr_entry` leaves the structure alone. -/
theorem interrupt_saves_and_resumes (hd : Apart addr) (idt : ℕ → Idt) (n : ℕ) (hn : n < 255) (err : Option UInt32)
    (herr : err.isSome = decide (n ∈ errVectors)) (c : Cpu) (hroom : 80 ≤ c.esp.toNat) (entry ret : UInt32) (g : κ) :
    ∃ m, Register.at m (c.esp - 72) = Register.of c.toRegs (vectorNumber n) (err.getD 0) ∧
      (∀ a, c.esp.toNat ≤ a ∨ a < c.esp.toNat - 80 → m a = c.mem a) ∧
      trap addr entry ret isr_entry (idtInit addr idt) n err c g = some ((isr_entry (c.esp - 72) m g).map fun r =>
        ({ (Register.at r.mem (c.esp - 72)).resume c.esp with mem := r.mem },r.globals)) ∧
      ∀ r, isr_entry (c.esp - 72) m g = .ok r → Register.at r.mem (c.esp - 72) = Register.at m (c.esp - 72) →
        trap addr entry ret isr_entry (idtInit addr idt) n err c g = some (.ok ({ c with mem := r.mem },r.globals)) := by
  have ht : trap addr entry ret isr_entry (idtInit addr idt) n err c g = _ := trap_eq isr_entry hd idt hn herr hroom g
  have hm := frameMem_register (vectorNumber n) (err.getD 0) ret hroom
  refine ⟨frameMem c (vectorNumber n) (err.getD 0) ret,hm,fun a ha => frameMem_above _ _ _ hroom ha,ht,fun r hr hsame => ?_⟩
  rw [ht,hr,Except.map,hsame,hm,resume_of]

end

def layout : Stub → UInt32
  | .isr n => (16 * n).toUInt32
  | .invalid => 0x300
  | .syscall => 0x310

theorem layout_apart : Apart layout := by
  have hone : ∀ s ∈ stubs, stubAt layout (layout s).toNat = some s := by decide +kernel
  intro s hs t ht h
  have hs' := hone s hs
  rw [h,hone t ht] at hs'
  exact (Option.some.inj hs').symm

def start : Cpu where
  eax := 0
  ecx := 0
  edx := 0
  ebx := 0
  esp := 0x8000
  ebp := 0
  esi := 0
  edi := 0
  eip := 0
  eflags := 0x202
  cs := 8
  ss := 16
  ds := 16
  es := 16
  fs := 16
  gs := 16
  mem := fun _ => 0

/-- A page fault whose handler does nothing. -/
theorem page_fault_resumes : ∃ m, trap layout 0 0 (fun _ m g => (.ok ⟨0,0,0,m,g⟩ : Except Unit (Returned Unit)))
    (idtInit layout (fun _ => ⟨0,0,0,0,0,0,0,0,0⟩)) 14 (some 2) start () = some (.ok ({ start with mem := m },())) := by
  obtain ⟨m,-,-,-,h⟩ := interrupt_saves_and_resumes (fun _ m g => (.ok ⟨0,0,0,m,g⟩ : Except Unit (Returned Unit))) layout_apart
    (fun _ => ⟨0,0,0,0,0,0,0,0,0⟩) 14 (by decide) (some 2) (by decide) start (by decide) 0 0 ()
  exact ⟨m,h _ rfl rfl⟩

end Micron.Kernel.Trap

import Micron.Lib.Bytes

/-! # A part of the IA-32 machine

The registers, a flat memory of bytes and the instructions that work on the stack, at one
privilege level. Arithmetic flags are not computed. `Stacked` lists the words that code has
pushed since the stack pointer stood at a base.
-/
namespace Micron.Ia32
open Bytes

abbrev peek (m : ℕ → UInt8) (a : UInt32) : UInt32 := get32 m a.toNat

abbrev poke (m : ℕ → UInt8) (a v : UInt32) : ℕ → UInt8 := put m a.toNat (le32 v)

structure Regs where
  eax : UInt32
  ecx : UInt32
  edx : UInt32
  ebx : UInt32
  esp : UInt32
  ebp : UInt32
  esi : UInt32
  edi : UInt32
  eip : UInt32
  eflags : UInt32
  cs : UInt16
  ss : UInt16
  ds : UInt16
  es : UInt16
  fs : UInt16
  gs : UInt16
deriving DecidableEq, Repr

structure Cpu extends Regs where
  mem : ℕ → UInt8

inductive Reg
  | eax | ecx | edx | ebx | esp | ebp | esi | edi

inductive Seg
  | ss | ds | es | fs | gs

def Regs.get (r : Regs) : Reg → UInt32
  | .eax => r.eax
  | .ecx => r.ecx
  | .edx => r.edx
  | .ebx => r.ebx
  | .esp => r.esp
  | .ebp => r.ebp
  | .esi => r.esi
  | .edi => r.edi

def Regs.seg (r : Regs) : Seg → UInt16
  | .ss => r.ss
  | .ds => r.ds
  | .es => r.es
  | .fs => r.fs
  | .gs => r.gs

namespace Cpu

def set (c : Cpu) (v : UInt32) : Reg → Cpu
  | .eax => { c with eax := v }
  | .ecx => { c with ecx := v }
  | .edx => { c with edx := v }
  | .ebx => { c with ebx := v }
  | .esp => { c with esp := v }
  | .ebp => { c with ebp := v }
  | .esi => { c with esi := v }
  | .edi => { c with edi := v }

def setSeg (c : Cpu) (v : UInt16) : Seg → Cpu
  | .ss => { c with ss := v }
  | .ds => { c with ds := v }
  | .es => { c with es := v }
  | .fs => { c with fs := v }
  | .gs => { c with gs := v }

def load (c : Cpu) (a : UInt32) : UInt32 := peek c.mem a

def store (c : Cpu) (a v : UInt32) : Cpu := { c with mem := poke c.mem a v }

def push (c : Cpu) (v : UInt32) : Cpu := { c with esp := c.esp - 4, mem := poke c.mem (c.esp - 4) v }

def pushes (c : Cpu) (vs : List UInt32) : Cpu := vs.foldl push c

end Cpu

inductive Instr
  | pusha
  | popa
  | pushSeg (s : Seg)
  | popSeg (s : Seg)
  | pushImm (v : UInt32)
  | push (r : Reg)
  | pop (r : Reg)
  | movAx (v : UInt16)
  | movSeg (s : Seg)
  | movImm (v : UInt32) (r : Reg)
  | mov (src dst : Reg)
  | store (src : Reg) (disp : UInt32) (base : Reg)
  | load (disp : UInt32) (base dst : Reg)
  | addEsp (v : UInt32)
  | leave

def exec (c : Cpu) : Instr → Cpu
  | .pusha => c.pushes [c.eax,c.ecx,c.edx,c.ebx,c.esp,c.ebp,c.esi,c.edi]
  -- the stored stack pointer is skipped
  | .popa => { c with
      edi := c.load c.esp, esi := c.load (c.esp + 4), ebp := c.load (c.esp + 8), ebx := c.load (c.esp + 16),
      edx := c.load (c.esp + 20), ecx := c.load (c.esp + 24), eax := c.load (c.esp + 28), esp := c.esp + 32 }
  | .pushSeg s => c.push (c.seg s).toUInt32
  | .popSeg s => { c with esp := c.esp + 4 }.setSeg (c.load c.esp).toUInt16 s
  | .pushImm v => c.push v
  | .push r => c.push (c.get r)
  | .pop r => { c with esp := c.esp + 4 }.set (c.load c.esp) r
  | .movAx v => { c with eax := c.eax &&& 0xffff0000 ||| v.toUInt32 }
  | .movSeg s => c.setSeg c.eax.toUInt16 s
  | .movImm v r => c.set v r
  | .mov src dst => c.set (c.get src) dst
  | .store src disp base => c.store (c.get base + disp) (c.get src)
  | .load disp base dst => c.set (c.load (c.get base + disp)) dst
  | .addEsp v => { c with esp := c.esp + v }
  | .leave => { c with esp := c.ebp + 4, ebp := c.load c.ebp }

def execs (c : Cpu) (code : List Instr) : Cpu := code.foldl exec c

def Cpu.enter (c : Cpu) (sel : UInt16) (offset flags : UInt32) : Cpu :=
  { c with eip := offset, cs := sel, eflags := flags }

/-- Delivery through an interrupt gate of the same privilege level; some exceptions come
with an error code. The interrupt, trap, nested task, resume and virtual flags are cleared. -/
def Cpu.interrupt (c : Cpu) (sel : UInt16) (offset : UInt32) (err : Option UInt32) : Cpu :=
  (c.pushes ([c.eflags,c.cs.toUInt32,c.eip] ++ err.toList)).enter sel offset (c.eflags &&& ~~~ 0x34300)

def Cpu.iret (c : Cpu) : Cpu :=
  { c with eip := c.load c.esp, cs := (c.load (c.esp + 4)).toUInt16, eflags := c.load (c.esp + 8), esp := c.esp + 12 }

def Cpu.ret (c : Cpu) : Cpu := { c with eip := c.load c.esp, esp := c.esp + 4 }

/-- What a C function leaves behind: the registers it need not keep, the memory and the
variables `κ` that are kept apart from it. -/
structure Returned (κ : Type*) where
  eax : UInt32
  ecx : UInt32
  edx : UInt32
  mem : ℕ → UInt8
  globals : κ

def Cpu.call {ε κ : Type*} (c : Cpu) (ret : UInt32) (f : UInt32 → (ℕ → UInt8) → κ → Except ε (Returned κ)) (g : κ) :
    Except ε (Cpu × κ) :=
  (f (c.load c.esp) (c.push ret).mem g).map fun r =>
    ({ c with eax := r.eax, ecx := r.ecx, edx := r.edx, mem := r.mem },r.globals)

variable {c : Cpu} {m : ℕ → UInt8} {a b n : ℕ} {ws vs : List UInt32} {v w : UInt32}

/-! ## Words on the stack -/

def Words (m : ℕ → UInt8) : ℕ → List UInt32 → Prop
  | _,[] => True
  | a,w :: ws => get32 m a = w ∧ Words m (a + 4) ws

theorem Words.put (h : Words m a ws) (hb : b + 4 ≤ a) : Words (Bytes.put m b (le32 v)) a ws := by
  induction ws generalizing a with
  | nil => trivial
  | cons w ws ih =>
    refine ⟨?_,ih h.2 (by omega)⟩
    rw [get32_put (by simp; omega)]
    exact h.1

theorem words_push (h : Words m (a + 4) ws) : Words (Bytes.put m a (le32 v)) a (v :: ws) :=
  ⟨get32_of_at at_put,h.put le_rfl⟩

theorem peek_poke (m : ℕ → UInt8) (a v : UInt32) : peek (poke m a v) a = v := get32_of_at at_put

theorem peek_poke_of_apart {x y : UInt32} (h : x.toNat + 4 ≤ y.toNat ∨ y.toNat + 4 ≤ x.toNat) :
    peek (poke m y v) x = peek m x := get32_put h

theorem peek_congr {m' : ℕ → UInt8} (h : ∀ i, v.toNat ≤ i → i < v.toNat + 4 → m i = m' i) : peek m v = peek m' v := by
  simp only [peek,get32]
  rw [h _ (by omega) (by omega),h _ (by omega) (by omega),h _ (by omega) (by omega),h _ (by omega) (by omega)]

theorem poke_of_apart {i : ℕ} (h : i < w.toNat ∨ w.toNat + 4 ≤ i) : poke m w v i = m i := put_frame h

theorem poke_congr {m' : ℕ → UInt8} {i : ℕ} (h : m i = m' i) : poke m w v i = poke m' w v i := by
  simp only [poke,put,h]

theorem toNat_sub_four (h : 4 ≤ v.toNat) : (v - 4).toNat = v.toNat - 4 :=
  UInt32.toNat_sub_of_le v 4 (UInt32.le_iff_toNat_le.mpr h)

theorem toNat_add (h : v.toNat + w.toNat < 2 ^ 32) : (v + w).toNat = v.toNat + w.toNat := by
  rw [UInt32.toNat_add,Nat.mod_eq_of_lt h]

structure Stacked (c : Cpu) (b : ℕ) (ws : List UInt32) : Prop where
  esp : c.esp.toNat + 4 * ws.length = b
  words : Words c.mem c.esp.toNat ws

theorem stacked_nil (c : Cpu) : Stacked c c.esp.toNat [] := ⟨rfl,trivial⟩

theorem Stacked.push (h : Stacked c b ws) (hb : 4 * (ws.length + 1) ≤ b) : Stacked (c.push v) b (v :: ws) := by
  have he := h.esp
  have ht : (c.esp - 4).toNat = c.esp.toNat - 4 := toNat_sub_four (by omega)
  constructor
  · rw [List.length_cons,Cpu.push,ht]
    omega
  · apply words_push
    rw [ht,Nat.sub_add_cancel (by omega)]
    exact h.words

theorem Stacked.pushes (vs : List UInt32) (h : Stacked c b ws) (hb : 4 * (ws.length + vs.length) ≤ b) :
    Stacked (c.pushes vs) b (vs.reverse ++ ws) := by
  induction vs generalizing c ws with
  | nil => exact h
  | cons v vs ih =>
    rw [List.length_cons] at hb
    rw [List.reverse_cons,List.append_assoc]
    apply ih (h.push (by omega))
    rw [List.length_cons]
    omega

/-- Pushing leaves alone what lies above the stack pointer and below the new words. -/
theorem pushes_frame (hb : 4 * vs.length ≤ c.esp.toNat) (ha : c.esp.toNat ≤ a ∨ a < c.esp.toNat - 4 * vs.length) :
    (c.pushes vs).mem a = c.mem a := by
  induction vs generalizing c with
  | nil => rfl
  | cons v vs ih =>
    rw [List.length_cons] at hb ha
    have ht : (c.push v).esp.toNat = c.esp.toNat - 4 := toNat_sub_four (by omega)
    apply (ih (by omega) (by omega)).trans
    apply put_frame
    rw [le32_length,show (c.esp - 4).toNat = c.esp.toNat - 4 from ht]
    omega

theorem sub_sub (u v w : UInt32) : u - v - w = u - (v + w) := by
  apply UInt32.eq_of_toBitVec_eq
  simp only [UInt32.toBitVec_sub,UInt32.toBitVec_add,BitVec.sub_sub]

/-- Only the stack pointer and the memory change. -/
theorem pushes_regs (c : Cpu) (vs : List UInt32) :
    (c.pushes vs).toRegs = { c.toRegs with esp := c.esp - (4 * vs.length).toUInt32 } := by
  induction vs generalizing c with
  | nil =>
    rw [List.length_nil,Nat.mul_zero,show c.esp - (0 : ℕ).toUInt32 = c.esp from UInt32.sub_zero _]
    rfl
  | cons v vs ih =>
    apply (ih (c.push v)).trans
    rw [Cpu.push,sub_sub,List.length_cons,Nat.mul_succ,Nat.add_comm (4 * vs.length),Nat.toUInt32_eq,Nat.toUInt32_eq,
      UInt32.ofNat_add]
    rfl

theorem pushes_esp (c : Cpu) (vs : List UInt32) : (c.pushes vs).esp = c.esp - (4 * vs.length).toUInt32 :=
  congrArg Regs.esp (pushes_regs c vs)

theorem pushes_seg (c : Cpu) (vs : List UInt32) (s : Seg) : (c.pushes vs).seg s = c.seg s := by
  rw [pushes_regs]
  cases s <;> rfl

theorem pushes_enter (c : Cpu) (vs : List UInt32) (sel : UInt16) (offset flags : UInt32) :
    (c.enter sel offset flags).pushes vs = (c.pushes vs).enter sel offset flags := by
  induction vs generalizing c with
  | nil => rfl
  | cons v vs ih => exact ih (c.push v)

theorem pushes_append (c : Cpu) (vs ws : List UInt32) : (c.pushes vs).pushes ws = c.pushes (vs ++ ws) :=
  (List.foldl_append ..).symm

theorem execs_append (c : Cpu) (l l' : List Instr) : execs c (l ++ l') = execs (execs c l) l' := List.foldl_append ..

theorem execs_pushImm (c : Cpu) (vs : List UInt32) : execs c (vs.map .pushImm) = c.pushes vs := by
  rw [execs,List.foldl_map]
  rfl

end Micron.Ia32

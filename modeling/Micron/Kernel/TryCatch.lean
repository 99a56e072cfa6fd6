import Micron.Kernel.Xcpt

/-! # The code of `_try` and `_catch`

In a function with a frame pointer `_try` fills in a registration among the locals, makes it
current and replaces the return address on the stack by a label of its own, 1. An exception
goes on at label 3, which takes the stack pointer from the registration. At label 1 the
registration is taken off and control goes to the real return address.
-/
namespace Micron.Kernel.TryCatch
open Micron.Ia32 Trap Xcpt

section
variable (one three ret : UInt32) (l : UInt32 × UInt32)

def pushFilterC (p : UInt32) (m : ℕ → UInt8) (cur : UInt32) : Except Irq.Halt (Returned UInt32) :=
  .ok ⟨1,l.1,l.2,(pushFilter p m cur).1,(pushFilter p m cur).2⟩

def popFilterC (_ : UInt32) (m : ℕ → UInt8) (cur : UInt32) : Except Irq.Halt (Returned UInt32) :=
  .ok ⟨(popFilter m cur).1,l.1,l.2,m,(popFilter m cur).2⟩

def getEspC (_ : UInt32) (m : ℕ → UInt8) (cur : UInt32) : Except Irq.Halt (Returned UInt32) :=
  (getEsp m cur).map fun v => ⟨v,l.1,l.2,m,cur⟩

/-- `_try` up to its call; `ebx` points to the registration and `three` is the address of label 3. -/
def tryCode : List Instr :=
  [.movImm three .eax,.store .eax 0x4 .ebx,.store .ebp 0x8 .ebx,.store .esp 0xC .ebx,.load 0x4 .ebp .eax,
    .store .eax 0x10 .ebx,.push .ebx]

def tryEnter (c : Cpu) (cur : UInt32) : Except Irq.Halt (Cpu × UInt32) :=
  ((execs c (tryCode three)).call ret (pushFilterC l) cur).map fun x =>
    (execs x.1 [.addEsp 0x4,.movImm one .eax,.store .eax 0x4 .ebp],x.2)

def catchEnter (c : Cpu) (cur : UInt32) : Except Irq.Halt (Cpu × UInt32) :=
  (c.call ret (getEspC l) cur).map fun x => (exec x.1 (.mov .eax .esp),x.2)

/-- The end of the function, and label 1 if it is returned to. -/
def leaveRet (c : Cpu) (cur : UInt32) : Except Irq.Halt (Cpu × UInt32) :=
  let c := (exec c .leave).ret
  if c.eip = one then
    ((exec c (.push .eax)).call ret (popFilterC l) cur).map fun x =>
      let c := execs x.1 [.mov .eax .edx,.pop .eax]
      ({ c with eip := c.edx },x.2)
  else .ok (c,cur)

end

variable {one three ret cur : UInt32} {l : UInt32 × UInt32} {c d : Cpu} {m m' : ℕ → UInt8} {q : UInt32}

structure Frame (c : Cpu) : Prop where
  room : 8 ≤ c.esp.toNat
  above : c.esp.toNat ≤ c.ebx.toNat
  below : c.ebx.toNat + 24 ≤ c.ebp.toNat
  top : c.ebp.toNat + 8 < 2 ^ 32

def tryMem (one three ret : UInt32) (c : Cpu) (cur : UInt32) : ℕ → UInt8 :=
  let m := poke (poke (poke c.mem (c.ebx + 4) three) (c.ebx + 8) c.ebp) (c.ebx + 12) c.esp
  let m := poke (poke (poke m (c.ebx + 16) (peek m (c.ebp + 4))) (c.esp - 4) c.ebx) (c.esp - 8) ret
  poke (pushFilter c.ebx m cur).1 (c.ebp + 4) one

theorem tryEnter_eq : tryEnter one three ret l c cur =
    .ok ({ c with eax := one, ecx := l.1, edx := l.2, mem := tryMem one three ret c cur },c.ebx) := by
  have hadd : c.esp - 4 + 4 = c.esp := UInt32.sub_add_cancel ..
  simp only [tryEnter,tryCode,execs,List.foldl_cons,List.foldl_nil,exec,Cpu.set,Cpu.store,Cpu.load,Cpu.push,Regs.get,Cpu.call,
    pushFilterC,Except.map,peek_poke,sub_sub,tryMem,hadd]
  rfl

theorem Frame.fits (h : Frame c) : Fits c.ebx := by
  have := h.below
  have := h.top
  rw [Fits]
  omega

theorem Frame.ebp_add (h : Frame c) : (c.ebp + 4).toNat = c.ebp.toNat + 4 := by
  apply Ia32.toNat_add
  have := h.top
  change _ + 4 < _
  omega

theorem Frame.ne_zero (h : Frame c) : c.ebx ≠ 0 := by
  intro h0
  have h1 := h.room
  have h2 := h.above
  rw [h0] at h2
  exact absurd (h1.trans h2) (by decide)

theorem Frame.esp_sub_four (h : Frame c) : (c.esp - 4).toNat = c.esp.toNat - 4 :=
  toNat_sub_four (by have := h.room; omega)

theorem Frame.esp_sub_eight (h : Frame c) : (c.esp - 8).toNat = c.esp.toNat - 8 :=
  UInt32.toNat_sub_of_le _ _ (UInt32.le_iff_toNat_le.mpr h.room)

/-- What `_try` leaves in memory: the registration, the changed return address and the
caller's frame pointer. -/
theorem tryMem_frame (one three ret cur : UInt32) (h : Frame c) :
    regAt (tryMem one three ret c cur) c.ebx = ⟨ptr cur,three,c.ebp,c.esp,peek c.mem (c.ebp + 4),false⟩ ∧
    peek (tryMem one three ret c cur) (c.ebp + 4) = one ∧
    peek (tryMem one three ret c cur) c.ebp = peek c.mem c.ebp := by
  have hp := h.fits
  obtain ⟨h1,h2,h3,h5⟩ := h
  have h4 : (c.ebx + 4).toNat = c.ebx.toNat + 4 := hp.toNat_add (by decide)
  have h8 : (c.ebx + 8).toNat = c.ebx.toNat + 8 := hp.toNat_add (by decide)
  have h12 : (c.ebx + 12).toNat = c.ebx.toNat + 12 := hp.toNat_add (by decide)
  have h16 : (c.ebx + 16).toNat = c.ebx.toNat + 16 := hp.toNat_add (by decide)
  have h20 : (c.ebx + 20).toNat = c.ebx.toNat + 20 := hp.toNat_add (by decide)
  have hb : (c.ebp + 4).toNat = c.ebp.toNat + 4 := Frame.ebp_add ⟨h1,h2,h3,h5⟩
  have he4 : (c.esp - 4).toNat = c.esp.toNat - 4 := Frame.esp_sub_four ⟨h1,h2,h3,h5⟩
  have he8 : (c.esp - 8).toNat = c.esp.toNat - 8 := Frame.esp_sub_eight ⟨h1,h2,h3,h5⟩
  refine ⟨?_,?_,?_⟩
  · simp (disch := omega) only [regAt,tryMem,pushFilter,peek_poke,peek_poke_of_apart]
    simp
  · exact peek_poke ..
  · simp (disch := omega) only [tryMem,pushFilter,peek_poke_of_apart]

/-- The registration of the function of `c`, its mark excepted, and the two words at the frame
pointer are as in `m`. -/
def Kept (c : Cpu) (m m' : ℕ → UInt8) : Prop :=
  ∀ i, c.ebx.toNat ≤ i ∧ i < c.ebx.toNat + 20 ∨ c.ebp.toNat ≤ i ∧ i < c.ebp.toNat + 8 → m' i = m i

theorem Kept.peek_reg (hk : Kept c m m') (h : Frame c) {k : UInt32} (hle : k.toNat ≤ 16) :
    peek m' (c.ebx + k) = peek m (c.ebx + k) := by
  have ha := h.fits.toNat_add (k := k) (by omega)
  apply peek_congr
  intro i h1 h2
  exact hk i (by omega)

theorem Kept.peek_frame (hk : Kept c m m') (h : Frame c) :
    peek m' c.ebx = peek m c.ebx ∧ peek m' c.ebp = peek m c.ebp ∧ peek m' (c.ebp + 4) = peek m (c.ebp + 4) := by
  have hb := h.ebp_add
  refine ⟨peek_congr fun i h1 h2 => hk i (by omega),peek_congr fun i h1 h2 => hk i (by omega),
    peek_congr fun i h1 h2 => hk i (by omega)⟩

/-- At the end of the function control goes to the caller, the registration is off, and the
registers are those of an ordinary return; only `ecx` and `edx` are lost. -/
theorem leaveRet_eq (h : Frame c) (hk : Kept c (tryMem one three ret c cur) d.mem) (hb : d.ebp = c.ebp) (ret' : UInt32) :
    leaveRet one ret' l d c.ebx = .ok ({ d with
      eip := peek c.mem (c.ebp + 4), esp := c.ebp + 8, ebp := peek c.mem c.ebp, edx := peek c.mem (c.ebp + 4), ecx := l.1,
      mem := poke (poke d.mem (c.ebp + 4) d.eax) c.ebp ret' },cur) := by
  obtain ⟨hr,h1,h2⟩ := tryMem_frame one three ret cur h
  obtain ⟨hk0,hkb,hkb4⟩ := hk.peek_frame h
  have hpre : peek d.mem c.ebx = cur := hk0.trans (ptr_inj (congrArg Filter.XcptReg.pre hr))
  have hret : peek d.mem (c.ebx + 16) = peek c.mem (c.ebp + 4) :=
    (hk.peek_reg h (by decide)).trans (congrArg Filter.XcptReg.ret_addr hr)
  rw [h1] at hkb4
  rw [h2] at hkb
  have ha : c.ebp + 4 + 4 = c.ebp + 8 := UInt32.add_assoc ..
  have hs4 : c.ebp + 8 - 4 = c.ebp + 4 := by
    rw [← ha]
    exact UInt32.add_sub_cancel ..
  have hs8 : c.ebp + 4 - 4 = c.ebp := UInt32.add_sub_cancel ..
  have hfit := h.fits
  have hb4 := h.ebp_add
  have h16 : (c.ebx + 16).toNat = c.ebx.toNat + 16 := hfit.toNat_add (by decide)
  have hbelow := h.below
  -- the two words that are pushed on the way lie above the registration
  have e1 : peek (poke (poke d.mem (c.ebp + 4) d.eax) c.ebp ret') (c.ebp + 4) = d.eax := by
    rw [peek_poke_of_apart (by omega),peek_poke]
  have e2 : peek (poke (poke d.mem (c.ebp + 4) d.eax) c.ebp ret') (c.ebx + 16) = peek c.mem (c.ebp + 4) := by
    rw [peek_poke_of_apart (by omega),peek_poke_of_apart (by omega),hret]
  have e3 : peek (poke (poke d.mem (c.ebp + 4) d.eax) c.ebp ret') c.ebx = cur := by
    rw [peek_poke_of_apart (by omega),peek_poke_of_apart (by omega),hpre]
  simp only [leaveRet,exec,Cpu.ret,Cpu.load,hb,hkb,hkb4,ha,if_true]
  simp only [execs,List.foldl_cons,List.foldl_nil,exec,Cpu.call,Cpu.push,Regs.get,Cpu.set,Cpu.load,popFilterC,popFilter,
    if_pos h.ne_zero,Except.map,hs4,hs8,e1,e2,e3,ha]

/-- Label 3 takes the stack pointer of `_try` again. -/
theorem catchEnter_eq (h : Frame c) (hr : peek d.mem (c.ebx + 12) = c.esp)
    (hesp : 4 ≤ d.esp.toNat) (hle : d.esp.toNat ≤ c.ebx.toNat) :
    catchEnter ret l d c.ebx =
    .ok ({ d with eax := c.esp, ecx := l.1, edx := l.2, esp := c.esp, mem := poke d.mem (d.esp - 4) ret },c.ebx) := by
  have h12 : (c.ebx + 12).toNat = c.ebx.toNat + 12 := h.fits.toNat_add (by decide)
  have h4 := toNat_sub_four hesp
  simp only [catchEnter,Cpu.call,getEspC,getEsp,if_pos h.ne_zero,Except.map,Cpu.push,exec,Regs.get,Cpu.set]
  rw [peek_poke_of_apart (by omega),hr]

section
variable {H : Type} {call : H → UInt32 → (ℕ → UInt8) → UInt32 → Except Irq.Halt ((ℕ → UInt8) × UInt32)}
  {addr : Stub → UInt32} {entry eret : UInt32} {left : UInt32 × UInt32 × UInt32} {idt : ℕ → Descriptors.Idt}
  {n : ℕ} {err : Option UInt32} {k : Irq.State H UInt32} {h : H}

/-- A fault below the block, with its filter the next one, enters its handler. -/
theorem fault_catch (ret' : UInt32) (l : UInt32 × UInt32) (hf : Frame c) (hd : Apart addr)
    (hk : ∀ i, k.isr_handler i = some h) (hcall : call h = isrHandler)
    (hroom : 80 ≤ d.esp.toNat) (hle : d.esp.toNat ≤ c.ebx.toNat) (hn : n < 32) (herr : err.isSome = decide (n ∈ errVectors))
    (hcur : Fits k.world ∧ Off k.world (d.esp.toNat - 80) 80) (hp : dropFired d.mem k.world = c.ebx)
    (hkept : Kept c (tryMem one three ret c cur) d.mem) :
    ∃ d₁ d₂, trap addr entry eret (Irq.isrEntryC call left) (idtInit addr idt) n err d k =
      some (.ok (d₁,{ k with world := c.ebx })) ∧
      d₁.eip = three ∧ catchEnter ret' l d₁ c.ebx = .ok (d₂,c.ebx) ∧ d₂.esp = c.esp ∧ d₂.ebp = c.ebp ∧
      d₂.ebx = d.ebx ∧ d₂.esi = d.esi ∧ d₂.edi = d.edi ∧ Kept c (tryMem one three ret c cur) d₂.mem := by
  have hfit := hf.fits
  have hbelow := hf.below
  have h20 : (c.ebx + 20).toNat = c.ebx.toNat + 20 := hfit.toNat_add (by decide)
  have h12 : (c.ebx + 12).toNat = c.ebx.toNat + 12 := hfit.toNat_add (by decide)
  have h4 : (d.esp - 4).toNat = d.esp.toNat - 4 := toNat_sub_four (by omega)
  obtain ⟨m,ht,hm⟩ := trap_filter entry eret left idt hd hk hcall hroom hn herr hcur hp hf.ne_zero hfit
    (show Off c.ebx (d.esp.toNat - 80) 80 by rw [Off]; omega)
  obtain ⟨hr,-,-⟩ := tryMem_frame one three ret cur hf
  have hebp : (regAt d.mem c.ebx).ebp = c.ebp := (hkept.peek_reg hf (by decide)).trans (congrArg Filter.XcptReg.ebp hr)
  have hhan : (regAt d.mem c.ebx).handler = three := (hkept.peek_reg hf (by decide)).trans (congrArg Filter.XcptReg.handler hr)
  rw [hebp,hhan] at ht
  have hmem : Kept c (tryMem one three ret c cur) m := by
    intro i hi
    rw [hm i (by omega),poke_of_apart (by omega)]
    exact hkept i hi
  have hesp : peek m (c.ebx + 12) = c.esp := (hmem.peek_reg hf (by decide)).trans (congrArg Filter.XcptReg.esp hr)
  refine ⟨_,_,ht,rfl,catchEnter_eq hf hesp (show 4 ≤ d.esp.toNat by omega) hle,rfl,rfl,rfl,rfl,rfl,fun i hi => ?_⟩
  exact (poke_of_apart (w := d.esp - 4) (by omega)).trans (hmem i hi)

/-- A function with a `_try` block behaves to its caller as one without. Whatever the block and
its handler do, as long as they leave alone the registration and the words at the frame pointer:
a fault below the block goes to its handler with the stack and frame pointer of `_try` and
leaves them alone as well, and the end of the function returns to its caller with the caller's
frame pointer, the value in `eax` and the filter that was current before. -/
theorem try_block_catches_and_returns (call : H → UInt32 → (ℕ → UInt8) → UInt32 → Except Irq.Halt ((ℕ → UInt8) × UInt32))
    (addr : Stub → UInt32) (hd : Apart addr) (entry eret : UInt32) (left : UInt32 × UInt32 × UInt32)
    (idt : ℕ → Descriptors.Idt) (k : Irq.State H UInt32) (hk : ∀ i, k.isr_handler i = some h) (hcall : call h = isrHandler)
    (one three ret ret' : UInt32) (l : UInt32 × UInt32) (c : Cpu) (hf : Frame c) (cur : UInt32) :
    ∃ c₁, tryEnter one three ret l c cur = .ok (c₁,c.ebx) ∧ c₁.esp = c.esp ∧ c₁.ebp = c.ebp ∧
    (∀ d n err w, Kept c c₁.mem d.mem → 80 ≤ d.esp.toNat → d.esp.toNat ≤ c.ebx.toNat → n < 32 →
      err.isSome = decide (n ∈ errVectors) → Fits w → Off w (d.esp.toNat - 80) 80 → dropFired d.mem w = c.ebx →
      ∃ d₁ d₂, trap addr entry eret (Irq.isrEntryC call left) (idtInit addr idt) n err d { k with world := w } =
          some (.ok (d₁,{ k with world := c.ebx })) ∧
        d₁.eip = three ∧ catchEnter ret' l d₁ c.ebx = .ok (d₂,c.ebx) ∧ d₂.esp = c.esp ∧ d₂.ebp = c.ebp ∧ Kept c c₁.mem d₂.mem) ∧
    ∀ d, Kept c c₁.mem d.mem → d.ebp = c.ebp →
      ∃ e, leaveRet one ret' l d c.ebx = .ok (e,cur) ∧ e.eip = peek c.mem (c.ebp + 4) ∧ e.esp = c.ebp + 8 ∧
        e.ebp = peek c.mem c.ebp ∧ e.eax = d.eax ∧ e.ebx = d.ebx ∧ e.esi = d.esi ∧ e.edi = d.edi := by
  refine ⟨_,tryEnter_eq,rfl,rfl,?_,?_⟩
  · intro d n err w hkept hroom hle hn herr hw hoff hp
    obtain ⟨d₁,d₂,ht,hip,hc,hs,hb,-,-,-,hm⟩ :=
      fault_catch (k := { k with world := w }) ret' l hf hd hk hcall hroom hle hn herr ⟨hw,hoff⟩ hp hkept
    exact ⟨d₁,d₂,ht,hip,hc,hs,hb,hm⟩
  · intro d hkept hb
    exact ⟨_,leaveRet_eq hf hkept hb ret',rfl,rfl,rfl,rfl,rfl,rfl,rfl⟩

end

def inFunction : Cpu := { start with ebx := 0x8100, ebp := 0x8200 }

/-- A page fault in a call below the block is caught, and the function returns what its handler
puts into `eax`. -/
theorem inFunction_catches : ∃ c d₁ d₂ e, tryEnter 1 3 0 (0,0) inFunction 0x9000 = .ok (c,0x8100) ∧
    trap layout 0 0 (Irq.isrEntryC (fun _ : Unit => isrHandler) (0,0,0)) (idtInit layout (fun _ => ⟨0,0,0,0,0,0,0,0,0⟩))
      14 (some 4) { c with eax := 5, esp := 0x7f00 } ⟨fun _ => some (),fun _ => none,⟨⟨0,0,0,0⟩,⟨0,0,0,0⟩⟩,[],0x8100⟩ =
        some (.ok (d₁,⟨fun _ => some (),fun _ => none,⟨⟨0,0,0,0⟩,⟨0,0,0,0⟩⟩,[],0x8100⟩)) ∧
    d₁.eip = 3 ∧ catchEnter 0 (0,0) d₁ 0x8100 = .ok (d₂,0x8100) ∧ d₂.esp = 0x8000 ∧
    leaveRet 1 0 (0,0) { d₂ with eax := 7 } 0x8100 = .ok (e,0x9000) ∧ e.esp = 0x8208 ∧ e.eax = 7 := by
  obtain ⟨c,ht,-,-,hfault,hreturn⟩ := try_block_catches_and_returns (fun _ : Unit => isrHandler) layout layout_apart 0 0 (0,0,0)
    (fun _ => ⟨0,0,0,0,0,0,0,0,0⟩) ⟨fun _ => some (),fun _ => none,⟨⟨0,0,0,0⟩,⟨0,0,0,0⟩⟩,[],0⟩ (fun _ => rfl) rfl
    1 3 0 0 (0,0) inFunction ⟨by decide,by decide,by decide,by decide⟩ 0x9000
  have hmem : c.mem = tryMem 1 3 0 inFunction 0x9000 := by
    obtain rfl := (Prod.mk.inj (Except.ok.inj (ht.symm.trans tryEnter_eq))).1
    rfl
  have hdrop : dropFired c.mem 0x8100 = 0x8100 := by
    rw [hmem]
    decide +kernel
  obtain ⟨d₁,d₂,htrap,hip,hcatch,hsp,hbp,hkept⟩ := hfault { c with eax := 5, esp := 0x7f00 } 14 (some 4) 0x8100
    (fun _ _ => rfl) (show 80 ≤ 0x7f00 by decide) (show 0x7f00 ≤ 0x8100 by decide) (by decide) (by decide)
    (show 0x8100 + 24 ≤ 2 ^ 32 by decide) (Or.inr (show 0x7f00 - 80 + 80 ≤ 0x8100 by decide)) hdrop
  obtain ⟨e,he,-,hesp,-,heax,-⟩ := hreturn { d₂ with eax := 7 } hkept hbp
  exact ⟨c,d₁,d₂,e,ht,htrap,hip,hcatch,hsp,he,hesp,heax⟩

end Micron.Kernel.TryCatch

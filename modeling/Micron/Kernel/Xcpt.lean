import Micron.Kernel.Filter
import Micron.Kernel.IrqRuns
import Micron.Lib.Linked

/-! # Exception filters in memory

The filter functions of the kernel as they work on the words of memory, the handler that is
installed for the 32 exceptions, and the refinement of the list of filters by them.
-/
namespace Micron.Kernel.Xcpt
open Function Bytes Micron.Ia32 Trap

def ptr (p : UInt32) : Option Filter.Addr := if p = 0 then none else some p

def regAt (m : ℕ → UInt8) (p : UInt32) : Filter.XcptReg where
  pre := ptr (peek m p)
  handler := peek m (p + 4)
  ebp := peek m (p + 8)
  esp := peek m (p + 12)
  ret_addr := peek m (p + 16)
  fired := decide (peek m (p + 20) ≠ 0)

def pushFilter (p : UInt32) (m : ℕ → UInt8) (cur : UInt32) : (ℕ → UInt8) × UInt32 :=
  (poke (poke m p cur) (p + 20) 0,p)

def popFilter (m : ℕ → UInt8) (cur : UInt32) : UInt32 × UInt32 :=
  if cur ≠ 0 then (peek m (cur + 16),peek m cur) else (0,cur)

def getEsp (m : ℕ → UInt8) (cur : UInt32) : Except Irq.Halt UInt32 :=
  if cur ≠ 0 then .ok (peek m (cur + 12)) else .error .panic

def dropFired (m : ℕ → UInt8) (cur : UInt32) : UInt32 :=
  if cur ≠ 0 ∧ peek m (cur + 20) ≠ 0 then (popFilter m cur).2 else cur

def filterFillRegs (r : UInt32) (m : ℕ → UInt8) (cur : UInt32) : Bool × (ℕ → UInt8) × UInt32 :=
  let cur := dropFired m cur
  if cur ≠ 0 then
    let m := poke m (r + 28) (peek m (cur + 8))
    let m := poke m (r + 60) (peek m (cur + 4))
    (true,poke m (cur + 20) 1,cur)
  else (false,m,cur)

/-- `isr_handler` of the system; what it prints before it stops is left out. -/
def isrHandler (r : UInt32) (m : ℕ → UInt8) (cur : UInt32) : Except Irq.Halt ((ℕ → UInt8) × UInt32) :=
  if peek m (r + 52) < 32 then
    let f := filterFillRegs r m cur
    if f.1 then .ok f.2 else .error .panic
  else .ok (m,cur)

/-- `setup_isr_handler`: the handler `h` for every exception. -/
def setupIsrHandler {H ω : Type} (h : H) (s : Irq.State H ω) : Except Irq.Halt (Irq.State H ω) :=
  (List.range 32).foldlM (fun s (i : ℕ) => Irq.isrInstall i (some h) s) s

variable {m m' : ℕ → UInt8} {p q r v a cur : UInt32} {b : Filter.Block} {ps : List UInt32} {s : Filter.State}

/-! ## Registrations that do not overlap -/

def Fits (p : UInt32) : Prop := p.toNat + 24 ≤ 2 ^ 32

def Off (p : UInt32) (a n : ℕ) : Prop := p.toNat + 24 ≤ a ∨ a + n ≤ p.toNat

theorem Fits.toNat_add (h : Fits p) {k : UInt32} (hk : k.toNat ≤ 20) : (p + k).toNat = p.toNat + k.toNat := by
  apply Ia32.toNat_add
  rw [Fits] at h
  omega

theorem regAt_congr (hp : Fits p) (h : ∀ i, p.toNat ≤ i → i < p.toNat + 24 → m i = m' i) : regAt m p = regAt m' p := by
  have hk (k : UInt32) (hk : k.toNat ≤ 20) : peek m (p + k) = peek m' (p + k) := by
    apply peek_congr
    intro i h1 h2
    rw [hp.toNat_add hk] at h1 h2
    exact h i (by omega) (by omega)
  have h0 : peek m p = peek m' p := peek_congr fun i h1 h2 => h i h1 (by omega)
  rw [regAt,h0,hk 4 (by decide),hk 8 (by decide),hk 12 (by decide),hk 16 (by decide),hk 20 (by decide)]
  rfl

theorem dropFired_congr (hc : Fits cur) (h : ∀ i, cur.toNat ≤ i → i < cur.toNat + 24 → m i = m' i) :
    dropFired m cur = dropFired m' cur := by
  have h0 : peek m cur = peek m' cur := peek_congr fun i h1 h2 => h i h1 (by omega)
  have h20 : peek m (cur + 20) = peek m' (cur + 20) := by
    apply peek_congr
    intro i h1 h2
    rw [hc.toNat_add (by decide),show (20 : UInt32).toNat = 20 from rfl] at h1 h2
    exact h i (by omega) (by omega)
  have hpop : (popFilter m cur).2 = (popFilter m' cur).2 := by
    rw [popFilter,popFilter,h0]
    split <;> rfl
  rw [dropFired,dropFired,hpop,h20]

theorem regAt_poke (hp : Fits p) (h : Off p a.toNat 4) : regAt (poke m a v) p = regAt m p := by
  apply regAt_congr hp
  intro i h1 h2
  apply poke_of_apart
  rw [Off] at h
  omega

def enterTry (p : UInt32) (b : Filter.Block) (m : ℕ → UInt8) (cur : UInt32) : (ℕ → UInt8) × UInt32 :=
  pushFilter p (poke (poke (poke (poke m (p + 4) b.handler) (p + 8) b.ebp) (p + 12) b.esp) (p + 16) b.ret_addr) cur

theorem regAt_enterTry (hp : Fits p) :
    regAt (enterTry p b m cur).1 p = ⟨ptr cur,b.handler,b.ebp,b.esp,b.ret_addr,false⟩ := by
  have h4 : (p + 4).toNat = p.toNat + 4 := hp.toNat_add (by decide)
  have h8 : (p + 8).toNat = p.toNat + 8 := hp.toNat_add (by decide)
  have h12 : (p + 12).toNat = p.toNat + 12 := hp.toNat_add (by decide)
  have h16 : (p + 16).toNat = p.toNat + 16 := hp.toNat_add (by decide)
  have h20 : (p + 20).toNat = p.toNat + 20 := hp.toNat_add (by decide)
  simp (disch := omega) only [regAt,enterTry,pushFilter,peek_poke,peek_poke_of_apart]
  simp

theorem regAt_enterTry_of_off (hq : Fits q) (hp : Fits p) (h : Off q p.toNat 24) :
    regAt (enterTry p b m cur).1 q = regAt m q := by
  have hoff (k : UInt32) (hk : k.toNat ≤ 20) : Off q (p + k).toNat 4 := by
    rw [hp.toNat_add hk]
    rw [Off] at h ⊢
    omega
  have h0 : Off q p.toNat 4 := by
    rw [Off] at h ⊢
    omega
  rw [enterTry,pushFilter,regAt_poke hq (hoff 20 (by decide)),regAt_poke hq h0,regAt_poke hq (hoff 16 (by decide)),
    regAt_poke hq (hoff 12 (by decide)),regAt_poke hq (hoff 8 (by decide)),regAt_poke hq (hoff 4 (by decide))]

/-! ## The list of filters -/

def next (m : ℕ → UInt8) (o : Option UInt32) : Option UInt32 := o.bind fun p => (regAt m p).pre

/-- The registrations `ps` are in force in memory, apart from each other, and the state of the
filters holds what they say. -/
structure Sim (m : ℕ → UInt8) (cur : UInt32) (ps : List UInt32) (s : Filter.State) : Prop where
  chain : Linked.Chain (next m) (ptr cur) ps
  cur : s.cur = ptr cur
  reg : ∀ p ∈ ps, regAt m p = s.reg p
  fits : ∀ p ∈ ps, Fits p
  apart : ps.Pairwise fun p q => Off p q.toNat 24

theorem sim_boot (m : ℕ → UInt8) (mem : Filter.Addr → Filter.XcptReg) : Sim m 0 [] (Filter.boot mem) where
  chain := rfl
  cur := rfl
  reg := fun _ hp => absurd hp List.not_mem_nil
  fits := fun _ hp => absurd hp List.not_mem_nil
  apart := List.Pairwise.nil

/-- Memory outside the registrations is free to change. -/
theorem Sim.congr (h : Sim m cur ps s) (hm : ∀ p ∈ ps, regAt m' p = regAt m p) : Sim m' cur ps s where
  chain := h.chain.congr fun p hp => by simp only [next,Option.bind_some,hm p hp]
  cur := h.cur
  reg := fun p hp => (hm p hp).trans (h.reg p hp)
  fits := h.fits
  apart := h.apart

theorem ptr_of_ne (h : p ≠ 0) : ptr p = some p := if_neg h

theorem ptr_eq_some (h : ptr p = some q) : p = q ∧ p ≠ 0 := by
  rw [ptr] at h
  split at h
  · cases h
  · exact ⟨Option.some.inj h,by assumption⟩

theorem ptr_inj (h : ptr p = ptr q) : p = q := by
  by_cases hp : p = 0 <;> by_cases hq : q = 0 <;> simp_all [ptr]

theorem Sim.enter (h : Sim m cur ps s) (h0 : p ≠ 0) (hp : Fits p) (ha : ∀ q ∈ ps, Off q p.toNat 24) :
    Sim (enterTry p b m cur).1 p (p :: ps) (Filter.step s (.push p b)) := by
  have hkeep : ∀ q ∈ ps, regAt (enterTry p b m cur).1 q = regAt m q :=
    fun q hq => regAt_enterTry_of_off (h.fits q hq) hp (ha q hq)
  have hne : ∀ q ∈ ps, q ≠ p := by
    rintro q hq rfl
    have := ha q hq
    rw [Off] at this
    omega
  rw [Filter.step_push]
  constructor
  · refine ⟨ptr_of_ne h0,?_⟩
    rw [next,Option.bind_some,regAt_enterTry hp]
    exact (h.congr hkeep).chain
  · exact (ptr_of_ne h0).symm
  · intro q hq
    rcases List.mem_cons.mp hq with rfl | hq
    · rw [regAt_enterTry hp,h.cur]
      simp
    · rw [hkeep q hq,h.reg q hq]
      simp [hne q hq]
  · intro q hq
    rcases List.mem_cons.mp hq with rfl | hq
    · exact hp
    · exact h.fits q hq
  · apply List.Pairwise.cons _ h.apart
    intro q hq
    have := ha q hq
    rw [Off] at this ⊢
    omega

/-- Without the innermost registration. -/
theorem Sim.tail (h : Sim m cur (p :: ps) s) : Sim m (peek m p) ps ⟨(s.reg p).pre,s.reg⟩ where
  chain := h.chain.2
  cur := (congrArg Filter.XcptReg.pre (h.reg p List.mem_cons_self)).symm
  reg := fun q hq => h.reg q (List.mem_cons_of_mem p hq)
  fits := fun q hq => h.fits q (List.mem_cons_of_mem p hq)
  apart := (List.pairwise_cons.mp h.apart).2

theorem Sim.cur_nil (h : Sim m cur [] s) : cur = 0 ∧ s.cur = none := by
  have hc : ptr cur = none := h.chain
  refine ⟨?_,h.cur.trans hc⟩
  by_contra hne
  rw [ptr_of_ne hne] at hc
  cases hc

theorem Sim.cur_cons (h : Sim m cur (p :: ps) s) : cur = p ∧ p ≠ 0 ∧ s.cur = some p := by
  have hc : ptr cur = some p := h.chain.1
  obtain ⟨rfl,hne⟩ := ptr_eq_some hc
  exact ⟨rfl,hne,h.cur.trans hc⟩

theorem Sim.leave (h : Sim m cur ps s) : Sim m (popFilter m cur).2 ps.tail (Filter.step s .pop) := by
  rw [Filter.step_pop]
  cases ps with
  | nil =>
    obtain ⟨rfl,hc⟩ := h.cur_nil
    rw [hc]
    exact ⟨rfl,rfl,h.reg,h.fits,h.apart⟩
  | cons p ps =>
    obtain ⟨rfl,hne,hc⟩ := h.cur_cons
    rw [popFilter,if_pos hne,hc]
    exact h.tail

theorem Sim.drop (h : Sim m cur ps s) : ∃ qs, qs <:+ ps ∧ Sim m (dropFired m cur) qs (Filter.dropSpent s) := by
  cases ps with
  | nil =>
    obtain ⟨rfl,hc⟩ := h.cur_nil
    refine ⟨[],List.suffix_rfl,?_⟩
    simp only [dropFired,Filter.dropSpent,hc]
    exact h
  | cons p ps =>
    obtain ⟨rfl,hne,hc⟩ := h.cur_cons
    have hf : (s.reg cur).fired = decide (peek m (cur + 20) ≠ 0) :=
      (congrArg Filter.XcptReg.fired (h.reg cur List.mem_cons_self)).symm
    by_cases hp : peek m (cur + 20) ≠ 0
    · refine ⟨ps,List.suffix_cons cur ps,?_⟩
      simp only [dropFired,Filter.dropSpent,hc,hf,decide_eq_true hp,if_true,popFilter,if_pos hne,if_pos (And.intro hne hp),
        Filter.xcptPopFilter]
      exact h.tail
    · refine ⟨cur :: ps,List.suffix_rfl,?_⟩
      simp only [dropFired,Filter.dropSpent,hc,hf,decide_eq_false hp,Bool.false_eq_true,if_false,
        if_neg (fun hx : cur ≠ 0 ∧ peek m (cur + 20) ≠ 0 => hp hx.2)]
      exact h

theorem regAt_fire (hp : Fits p) : regAt (poke m (p + 20) 1) p = { regAt m p with fired := true } := by
  have h4 : (p + 4).toNat = p.toNat + 4 := hp.toNat_add (by decide)
  have h8 : (p + 8).toNat = p.toNat + 8 := hp.toNat_add (by decide)
  have h12 : (p + 12).toNat = p.toNat + 12 := hp.toNat_add (by decide)
  have h16 : (p + 16).toNat = p.toNat + 16 := hp.toNat_add (by decide)
  have h20 : (p + 20).toNat = p.toNat + 20 := hp.toNat_add (by decide)
  simp (disch := omega) only [regAt,peek_poke,peek_poke_of_apart]
  simp

/-- The current registration is marked. -/
theorem Sim.fire (h : Sim m cur (p :: ps) s) :
    Sim (poke m (p + 20) 1) p (p :: ps) ⟨some p,update s.reg p { s.reg p with fired := true }⟩ := by
  obtain ⟨rfl,hne,hc⟩ := h.cur_cons
  have hfit := h.fits cur List.mem_cons_self
  obtain ⟨hoff,hpw⟩ := List.pairwise_cons.mp h.apart
  have hkeep : ∀ q ∈ ps, regAt (poke m (cur + 20) 1) q = regAt m q := by
    intro q hq
    apply regAt_poke (h.fits q (List.mem_cons_of_mem cur hq))
    have := hoff q hq
    rw [hfit.toNat_add (by decide),show (20 : UInt32).toNat = 20 from rfl]
    rw [Off] at this ⊢
    omega
  have hqne : ∀ q ∈ ps, q ≠ cur := by
    rintro q hq rfl
    have := hoff q hq
    rw [Off] at this
    omega
  constructor
  · refine ⟨ptr_of_ne hne,?_⟩
    have ht := (h.tail.congr hkeep).chain
    rw [next,Option.bind_some,regAt_fire hfit]
    exact ht
  · exact (ptr_of_ne hne).symm
  · intro q hq
    rcases List.mem_cons.mp hq with rfl | hq
    · rw [regAt_fire hfit,h.reg q List.mem_cons_self]
      simp
    · rw [hkeep q hq,h.reg q (List.mem_cons_of_mem cur hq)]
      simp [hqne q hq]
  · exact h.fits
  · exact h.apart

def OffFrame (r p : UInt32) : Prop := Off p r.toNat 72

theorem frame_toNat (hr : r.toNat + 72 ≤ 2 ^ 32) {k : UInt32} (hk : k.toNat ≤ 68) : (r + k).toNat = r.toNat + k.toNat := by
  apply Ia32.toNat_add
  omega

/-- A store into field `k` of the saved registers leaves the other fields. -/
theorem peek_poke_field (hr : r.toNat + 72 ≤ 2 ^ 32) {k l : UInt32} (hk : k.toNat ≤ 68) (hl : l.toNat ≤ 68)
    (h : k.toNat + 4 ≤ l.toNat ∨ l.toNat + 4 ≤ k.toNat) : peek (poke m (r + k) v) (r + l) = peek m (r + l) := by
  apply peek_poke_of_apart
  rw [frame_toNat hr hk,frame_toNat hr hl]
  omega

theorem peek_poke_field_zero (hr : r.toNat + 72 ≤ 2 ^ 32) {k : UInt32} (hk : k.toNat ≤ 68) (h : 4 ≤ k.toNat) :
    peek (poke m (r + k) v) r = peek m r := by
  apply peek_poke_of_apart
  rw [frame_toNat hr hk]
  omega

theorem at_poke_ebp (hr : r.toNat + 72 ≤ 2 ^ 32) : Register.at (poke m (r + 28) v) r = { Register.at m r with ebp := v } := by
  simp (disch := decide) only [Register.at,peek_poke,peek_poke_field hr,peek_poke_field_zero hr]

theorem at_poke_eip (hr : r.toNat + 72 ≤ 2 ^ 32) : Register.at (poke m (r + 60) v) r = { Register.at m r with eip := v } := by
  simp (disch := decide) only [Register.at,peek_poke,peek_poke_field hr,peek_poke_field_zero hr]

theorem at_poke_of_off (hr : r.toNat + 72 ≤ 2 ^ 32) (h : r.toNat + 72 ≤ a.toNat ∨ a.toNat + 4 ≤ r.toNat) :
    Register.at (poke m a v) r = Register.at m r := by
  have hk {k : UInt32} (hk : k.toNat ≤ 68) : peek (poke m a v) (r + k) = peek m (r + k) := by
    apply peek_poke_of_apart
    rw [frame_toNat hr hk]
    omega
  have h0 : peek (poke m a v) r = peek m r := peek_poke_of_apart (by omega)
  simp (disch := decide) only [Register.at,hk,h0]

theorem filterFillRegs_zero (h : dropFired m cur = 0) : filterFillRegs r m cur = (false,m,0) := by
  simp only [filterFillRegs,h]
  rfl

/-- The two stores into the saved registers do not touch the registration. -/
theorem filterFillRegs_ne (h : dropFired m cur = p) (h0 : p ≠ 0) (hp : Fits p) (hr : r.toNat + 72 ≤ 2 ^ 32) (ha : OffFrame r p) :
    filterFillRegs r m cur =
    (true,poke (poke (poke m (r + 28) (regAt m p).ebp) (r + 60) (regAt m p).handler) (p + 20) 1,p) := by
  have h28 : (r + 28).toNat = r.toNat + 28 := frame_toNat hr (by decide)
  have h4 : (p + 4).toNat = p.toNat + 4 := hp.toNat_add (by decide)
  rw [OffFrame,Off] at ha
  have hk : ∀ v, peek (poke m (r + 28) v) (p + 4) = peek m (p + 4) := fun v => peek_poke_of_apart (by omega)
  simp only [filterFillRegs,h,hk]
  rw [if_pos h0]
  rfl

/-- `filter_fill_regs` does what the list of filters says: it finds the same filter, marks it
and sets the two registers. -/
theorem Sim.except (h : Sim m cur ps s) (hr : r.toNat + 72 ≤ 2 ^ 32) (ha : ∀ p ∈ ps, OffFrame r p) (x : Filter.Regs) :
    (filterFillRegs r m cur).1 = (Filter.filterFillRegs x s).2.2 ∧
    (∃ qs, qs <:+ ps ∧ Sim (filterFillRegs r m cur).2.1 (filterFillRegs r m cur).2.2 qs (Filter.filterFillRegs x s).1) ∧
    ((filterFillRegs r m cur).1 = true → Register.at (filterFillRegs r m cur).2.1 r =
      { Register.at m r with ebp := (Filter.filterFillRegs x s).2.1.ebp, eip := (Filter.filterFillRegs x s).2.1.eip }) := by
  obtain ⟨qs,hqs,hd⟩ := h.drop
  cases qs with
  | nil =>
    obtain ⟨hc,ht⟩ := hd.cur_nil
    rw [filterFillRegs_zero hc,Filter.filterFillRegs_none ht]
    refine ⟨rfl,⟨[],hqs,?_⟩,fun hx => absurd hx (by simp)⟩
    exact ⟨rfl,rfl,fun _ hp => absurd hp List.not_mem_nil,fun _ hp => absurd hp List.not_mem_nil,List.Pairwise.nil⟩
  | cons p qs =>
    obtain ⟨hc,h0,ht⟩ := hd.cur_cons
    have hp : Fits p := hd.fits p List.mem_cons_self
    have hoff : ∀ q ∈ p :: qs, OffFrame r q := fun q hq => ha q (hqs.mem hq)
    have hpr := hoff p List.mem_cons_self
    have hreg : regAt m p = s.reg p := by
      rw [hd.reg p List.mem_cons_self,Filter.dropSpent_reg]
    have h28 : (r + 28).toNat = r.toNat + 28 := frame_toNat hr (by decide)
    have h60 : (r + 60).toNat = r.toNat + 60 := frame_toNat hr (by decide)
    have h20 : (p + 20).toNat = p.toNat + 20 := hp.toNat_add (by decide)
    rw [filterFillRegs_ne hc h0 hp hr hpr,Filter.filterFillRegs_some ht,hreg]
    refine ⟨rfl,⟨p :: qs,hqs,?_⟩,fun _ => ?_⟩
    · have hkeep : ∀ q ∈ p :: qs, regAt (poke (poke m (r + 28) (s.reg p).ebp) (r + 60) (s.reg p).handler) q = regAt m q := by
        intro q hq
        have hq' := hoff q hq
        rw [OffFrame,Off] at hq'
        rw [regAt_poke (hd.fits q hq) (by rw [Off]; omega),regAt_poke (hd.fits q hq) (by rw [Off]; omega)]
      have hfire := (hd.congr hkeep).fire
      rw [Filter.dropSpent_reg] at hfire
      exact hfire
    · rw [OffFrame,Off] at hpr
      rw [at_poke_of_off hr (by omega),at_poke_eip hr,at_poke_ebp hr]

/-! ## Every reachable memory -/

/-- The memories and the current filter that are reached from boot by entering and leaving
blocks, by exceptions that are handled, whose saved registers lie apart from the registrations
in force, and by code that leaves those registrations alone. -/
inductive Reached : (ℕ → UInt8) → UInt32 → List UInt32 → List Filter.Event → Prop
  | boot (m : ℕ → UInt8) : Reached m 0 [] []
  | enter {m : ℕ → UInt8} {cur : UInt32} {ps : List UInt32} {es : List Filter.Event} {p : UInt32} {b : Filter.Block} :
      Reached m cur ps es → p ≠ 0 → Fits p → (∀ q ∈ ps, Off q p.toNat 24) →
      Reached (enterTry p b m cur).1 p (p :: ps) (es ++ [.push p b])
  | leave {m : ℕ → UInt8} {cur : UInt32} {ps : List UInt32} {es : List Filter.Event} :
      Reached m cur ps es → Reached m (popFilter m cur).2 ps.tail (es ++ [.pop])
  | except {m : ℕ → UInt8} {cur : UInt32} {ps qs : List UInt32} {es : List Filter.Event} {r : UInt32} (x : Filter.Regs) :
      Reached m cur ps es → r.toNat + 72 ≤ 2 ^ 32 → (∀ p ∈ ps, OffFrame r p) → (filterFillRegs r m cur).1 = true →
      Linked.Chain (next (filterFillRegs r m cur).2.1) (ptr (filterFillRegs r m cur).2.2) qs →
      Reached (filterFillRegs r m cur).2.1 (filterFillRegs r m cur).2.2 qs (es ++ [.except x])
  | other {m m' : ℕ → UInt8} {cur : UInt32} {ps : List UInt32} {es : List Filter.Event} :
      Reached m cur ps es → (∀ p ∈ ps, ∀ i, p.toNat ≤ i → i < p.toNat + 24 → m' i = m i) → Reached m' cur ps es

theorem Reached.sim {es : List Filter.Event} (mem : Filter.Addr → Filter.XcptReg) (h : Reached m cur ps es) :
    Sim m cur ps (Filter.run (Filter.boot mem) es) := by
  induction h with
  | boot m => exact sim_boot m mem
  | enter _ h0 hp ha ih =>
    rw [Filter.run_concat]
    exact ih.enter h0 hp ha
  | leave _ ih =>
    rw [Filter.run_concat]
    exact ih.leave
  | except x _ hr ha _ hc ih =>
    rw [Filter.run_concat]
    obtain ⟨qs,_,hs⟩ := (ih.except hr ha x).2.1
    rwa [hc.unique hs.chain]
  | other _ hm ih => exact ih.congr fun p hp => regAt_congr (ih.fits p hp) (hm p hp)

/-- In every memory that is reached, `filter_fill_regs` sends an exception where the list of
filters sends it after the same events: it is handled by the same filter with the same registers, or by none. -/
theorem filter_memory_refines {es : List Filter.Event} (mem : Filter.Addr → Filter.XcptReg) (h : Reached m cur ps es)
    (hr : r.toNat + 72 ≤ 2 ^ 32) (ha : ∀ p ∈ ps, OffFrame r p) (x : Filter.Regs) :
    let f := filterFillRegs r m cur
    let g := Filter.filterFillRegs x (Filter.run (Filter.boot mem) es)
    f.1 = g.2.2 ∧ g.1.cur = ptr f.2.2 ∧
      (f.1 = true → Register.at f.2.1 r = { Register.at m r with ebp := g.2.1.ebp, eip := g.2.1.eip }) := by
  obtain ⟨hb,⟨qs,_,hs⟩,hw⟩ := (h.sim mem).except hr ha x
  exact ⟨hb,hs.cur,hw⟩

/-! ## From the fault to the filter -/

section
variable {H : Type} {call : H → UInt32 → (ℕ → UInt8) → UInt32 → Except Irq.Halt ((ℕ → UInt8) × UInt32)}
  {addr : Stub → UInt32} {entry ret : UInt32} {left : UInt32 × UInt32 × UInt32} {idt : ℕ → Descriptors.Idt}
  {c : Cpu} {n : ℕ} {err : Option UInt32} {k k' : Irq.State H UInt32} {h : H}

theorem foldlM_isrInstall (h : H) (l : List ℕ) (hl : ∀ i ∈ l, i < 32) (k : Irq.State H UInt32) :
    l.foldlM (fun s (i : ℕ) => Irq.isrInstall i (some h) s) k =
    .ok { k with isr_handler := fun j => if j.val ∈ l then some h else k.isr_handler j } := by
  induction l generalizing k with
  | nil => simp [pure,Except.pure]
  | cons i l ih =>
    have hi : i < 32 := hl i List.mem_cons_self
    have hstep : Irq.isrInstall (i : ℤ) (some h) k = .ok { k with isr_handler := update k.isr_handler ⟨i,hi⟩ (some h) } := by
      rw [Irq.isrInstall,dif_pos ⟨Int.natCast_nonneg i,by simpa using hi⟩]
      rfl
    rw [List.foldlM_cons,hstep]
    apply (ih (fun j hj => hl j (List.mem_cons_of_mem i hj)) _).trans
    congr 2
    funext j
    by_cases hj : j.val ∈ l
    · simp [hj]
    · by_cases he : j = ⟨i,hi⟩
      · simp [he]
      · have : j.val ≠ i := fun hv => he (Fin.ext hv)
        simp [hj,he,this]

/-- Every exception is handled by `h` then. -/
theorem setupIsrHandler_eq (h : H) (k : Irq.State H UInt32) :
    setupIsrHandler h k = .ok { k with isr_handler := fun _ => some h } := by
  rw [setupIsrHandler,foldlM_isrInstall h _ (fun i hi => List.mem_range.mp hi)]
  simp only [List.mem_range,Fin.is_lt,if_true]

theorem isrEntry_exception (hk : ∀ i, k.isr_handler i = some h) (hcall : call h = isrHandler) (hroom : 80 ≤ c.esp.toNat)
    (hn : n < 32) (e : UInt32) :
    Irq.isrEntry call (c.esp - 72) (frameMem c n.toUInt32 e ret) k =
    if (filterFillRegs (c.esp - 72) (frameMem c n.toUInt32 e ret) k.world).1 then
      .ok ((filterFillRegs (c.esp - 72) (frameMem c n.toUInt32 e ret) k.world).2.1,
        { k with world := (filterFillRegs (c.esp - 72) (frameMem c n.toUInt32 e ret) k.world).2.2 })
    else .error .panic := by
  have hv : n.toUInt32.toNat = n := by
    rw [Nat.toUInt32_eq,UInt32.toNat_ofNat',Nat.mod_eq_of_lt (by omega)]
  have hlt : n.toUInt32 < 32 := UInt32.lt_iff_toNat_lt.mpr (hv.symm ▸ hn)
  simp only [Irq.isrEntry,frameMem_intn _ e ret hroom,hv,hk]
  rw [dif_pos hn]
  simp only [Irq.handle,hcall,isrHandler,frameMem_intn _ e ret hroom]
  rw [if_pos hlt]
  split
  · rfl
  · rfl

theorem trap_exception (hd : Apart addr) (hk : ∀ i, k.isr_handler i = some h) (hcall : call h = isrHandler)
    (hroom : 80 ≤ c.esp.toNat) (hn : n < 32) (herr : err.isSome = decide (n ∈ errVectors)) :
    trap addr entry ret (Irq.isrEntryC call left) (idtInit addr idt) n err c k =
    some (if (filterFillRegs (c.esp - 72) (frameMem c n.toUInt32 (err.getD 0) ret) k.world).1 then
      .ok ({ (Register.at (filterFillRegs (c.esp - 72) (frameMem c n.toUInt32 (err.getD 0) ret) k.world).2.1
          (c.esp - 72)).resume c.esp with
          mem := (filterFillRegs (c.esp - 72) (frameMem c n.toUInt32 (err.getD 0) ret) k.world).2.1 },
        { k with world := (filterFillRegs (c.esp - 72) (frameMem c n.toUInt32 (err.getD 0) ret) k.world).2.2 })
      else .error .panic) := by
  rw [trap_eq (Irq.isrEntryC call left) hd idt (by omega) herr hroom,vectorNumber,if_pos (Or.inl (by omega)),
    Irq.isrEntryC,isrEntry_exception hk hcall hroom hn]
  split
  · rfl
  · rfl

/-- An exception that interrupts code at `c` in a memory that is reached goes where the list of
filters says: the code goes on at the filter's handler with its frame pointer and with every
other register as it was, in a memory that is reached again, or the kernel stops. -/
theorem exception_resumes_in_filter (call : H → UInt32 → (ℕ → UInt8) → UInt32 → Except Irq.Halt ((ℕ → UInt8) × UInt32))
    (addr : Stub → UInt32) (hd : Apart addr) (entry ret : UInt32) (left : UInt32 × UInt32 × UInt32) (idt : ℕ → Descriptors.Idt)
    (mem : Filter.Addr → Filter.XcptReg) {es : List Filter.Event}
    (hk : setupIsrHandler h k' = .ok k) (hcall : call h = isrHandler) (hm : Reached c.mem k.world ps es)
    (hroom : 80 ≤ c.esp.toNat)
    (hoff : ∀ p ∈ ps, Off p (c.esp.toNat - 80) 80) (hn : n < 32) (herr : err.isSome = decide (n ∈ errVectors)) :
    let g := Filter.filterFillRegs ⟨c.ebp,c.eip⟩ (Filter.run (Filter.boot mem) es)
    let t := trap addr entry ret (Irq.isrEntryC call left) (idtInit addr idt) n err c k
    (g.2.2 = false → t = some (.error .panic)) ∧
    (g.2.2 = true → ∃ m cur qs,
      t = some (.ok ({ c with ebp := g.2.1.ebp, eip := g.2.1.eip, mem := m },{ k with world := cur })) ∧
      Reached m cur qs (es ++ [.except ⟨c.ebp,c.eip⟩])) := by
  obtain rfl := Except.ok.inj ((setupIsrHandler_eq h k').symm.trans hk)
  intro g t
  have hesp := c.esp.toNat_lt
  have hr : (c.esp - 72).toNat = c.esp.toNat - 72 :=
    UInt32.toNat_sub_of_le _ _ (UInt32.le_iff_toNat_le.mpr (Nat.le_trans (by decide) hroom))
  have hfit : (c.esp - 72).toNat + 72 ≤ 2 ^ 32 := by omega
  have hframe : ∀ p ∈ ps, OffFrame (c.esp - 72) p := by
    intro p hp
    have := hoff p hp
    rw [Off] at this
    rw [OffFrame,Off,hr]
    omega
  -- the saved registers are written beside the registrations
  have hF : Reached (frameMem c n.toUInt32 (err.getD 0) ret) k'.world ps es := by
    apply hm.other
    intro p hp i h1 h2
    have := hoff p hp
    rw [Off] at this
    exact frameMem_above _ _ _ hroom (by omega)
  obtain ⟨hb,⟨qs,_,hs⟩,hw⟩ := (hF.sim mem).except hfit hframe ⟨c.ebp,c.eip⟩
  have ht : t = _ := trap_exception hd (fun _ => rfl) hcall hroom hn herr
  constructor
  · intro hg
    rw [ht,hb.trans hg]
    rfl
  · intro hg
    have h1 := hb.trans hg
    refine ⟨_,_,qs,?_,hF.except ⟨c.ebp,c.eip⟩ hfit hframe h1 hs.chain⟩
    rw [ht,if_pos h1,hw h1,frameMem_register _ _ _ hroom]
    simp [Register.resume,Register.of,g]

/-- The same for the filter at `p` that memory names, in terms of the memory before. -/
theorem trap_filter (entry ret : UInt32) (left : UInt32 × UInt32 × UInt32) (idt : ℕ → Descriptors.Idt)
    (hd : Apart addr) (hk : ∀ i, k.isr_handler i = some h) (hcall : call h = isrHandler)
    (hroom : 80 ≤ c.esp.toNat) (hn : n < 32) (herr : err.isSome = decide (n ∈ errVectors))
    (hcur : Fits k.world ∧ Off k.world (c.esp.toNat - 80) 80) (hp : dropFired c.mem k.world = p) (h0 : p ≠ 0)
    (hfit : Fits p) (hoff : Off p (c.esp.toNat - 80) 80) :
    ∃ m, trap addr entry ret (Irq.isrEntryC call left) (idtInit addr idt) n err c k =
      some (.ok ({ c with ebp := (regAt c.mem p).ebp, eip := (regAt c.mem p).handler, mem := m },{ k with world := p })) ∧
      ∀ i, i < c.esp.toNat - 80 ∨ c.esp.toNat ≤ i → m i = poke c.mem (p + 20) 1 i := by
  have hesp := c.esp.toNat_lt
  have hr : (c.esp - 72).toNat = c.esp.toNat - 72 :=
    UInt32.toNat_sub_of_le _ _ (UInt32.le_iff_toNat_le.mpr (Nat.le_trans (by decide) hroom))
  -- the saved registers are written beside both registrations
  have hkeep (q : UInt32) (hq : Off q (c.esp.toNat - 80) 80) (i : ℕ) (h1 : q.toNat ≤ i) (h2 : i < q.toNat + 24) :
      frameMem c n.toUInt32 (err.getD 0) ret i = c.mem i := by
    rw [Off] at hq
    exact frameMem_above _ _ _ hroom (by omega)
  have hdrop := (dropFired_congr hcur.1 (hkeep k.world hcur.2)).trans hp
  have hframe : OffFrame (c.esp - 72) p := by
    rw [Off] at hoff
    rw [OffFrame,Off,hr]
    omega
  have hfill := filterFillRegs_ne hdrop h0 hfit (show (c.esp - 72).toNat + 72 ≤ 2 ^ 32 by omega) hframe
  rw [regAt_congr hfit (hkeep p hoff)] at hfill
  have h20 : (p + 20).toNat = p.toNat + 20 := hfit.toNat_add (by decide)
  have h28 : (c.esp - 72 + 28).toNat = (c.esp - 72).toNat + 28 := frame_toNat (by omega) (by decide)
  have h60 : (c.esp - 72 + 60).toNat = (c.esp - 72).toNat + 60 := frame_toNat (by omega) (by decide)
  refine ⟨(filterFillRegs (c.esp - 72) (frameMem c n.toUInt32 (err.getD 0) ret) k.world).2.1,?_,fun i hi => ?_⟩
  · rw [OffFrame,Off] at hframe
    rw [trap_exception hd hk hcall hroom hn herr,hfill,if_pos rfl,at_poke_of_off (by omega) (by omega),
      at_poke_eip (by omega),at_poke_ebp (by omega),frameMem_register _ _ _ hroom]
    simp [Register.resume,Register.of]
  · rw [hfill]
    apply poke_congr
    rw [poke_of_apart (by omega),poke_of_apart (by omega),frameMem_above _ _ _ hroom (by omega)]

end

def inBlock : Cpu := { start with mem := (enterTry 0x9000 ⟨0x100,0x9100,0x8f00,0x200⟩ (fun _ => 0) 0).1 }

theorem inBlock_reached : Reached inBlock.mem 0x9000 [0x9000] [.push 0x9000 ⟨0x100,0x9100,0x8f00,0x200⟩] :=
  (Reached.boot fun _ => 0).enter (by decide) (show (0x9000 : UInt32).toNat + 24 ≤ 2 ^ 32 by decide) (by simp)

theorem inBlock_filter_found : (filterFillRegs 0x7000 inBlock.mem 0x9000).1 = true := by
  have h := filter_memory_refines (fun _ => ⟨none,0,0,0,0,false⟩) (r := 0x7000) inBlock_reached (by decide)
    (by simp [OffFrame,Off]) ⟨0,0⟩
  exact h.1

theorem inBlock_fault_resumes : ∃ m cur, trap layout 0 0 (Irq.isrEntryC (fun _ => isrHandler) (0,0,0))
    (idtInit layout (fun _ => ⟨0,0,0,0,0,0,0,0,0⟩)) 0 none inBlock
      ⟨fun _ => some (),fun _ => none,⟨⟨0,0,0,0⟩,⟨0,0,0,0⟩⟩,[],0x9000⟩ =
    some (.ok ({ inBlock with ebp := 0x9100, eip := 0x100, mem := m },
      ⟨fun _ => some (),fun _ => none,⟨⟨0,0,0,0⟩,⟨0,0,0,0⟩⟩,[],cur⟩)) := by
  have h := exception_resumes_in_filter (fun _ => isrHandler) layout layout_apart 0 0 (0,0,0) (fun _ => ⟨0,0,0,0,0,0,0,0,0⟩)
    (fun _ => ⟨none,0,0,0,0,false⟩) (c := inBlock) (n := 0)
    (setupIsrHandler_eq () ⟨fun _ => none,fun _ => none,⟨⟨0,0,0,0⟩,⟨0,0,0,0⟩⟩,[],0x9000⟩) rfl inBlock_reached (by decide)
    (by simp [Off]; decide) (by decide) (show (none : Option UInt32).isSome = decide (0 ∈ errVectors) by decide)
  obtain ⟨m,cur,-,ht,-⟩ := h.2 rfl
  exact ⟨m,cur,ht⟩

end Micron.Kernel.Xcpt

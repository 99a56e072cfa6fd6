import Mathlib.Data.Nat.Find
import Mathlib.Logic.Function.Basic
import Micron.Lib.Machine

/-! # The memory probe

`mem_size` writes two patterns to the first word of each page from `kernel_end` on, until a page
does not hold them. The address has 32 bits, so after the last page comes page 0, and the
bound of the loop is one that no page address reaches.
-/
namespace Micron.Kernel.MemSize
open Function

/-- The memory: which words store what is written to them, what the words read as, and which of them
have been read or written. -/
structure Memory where
  ram : UInt32 → Bool
  word : UInt32 → UInt32
  touched : List UInt32

namespace Memory

def read (a : UInt32) (m : Memory) : UInt32 × Memory := (m.word a,{ m with touched := a :: m.touched })

def write (a v : UInt32) (m : Memory) : Memory :=
  { m with word := if m.ram a then update m.word a v else m.word, touched := a :: m.touched }

end Memory

/-- The body of the loop up to `memsize += 0x1000`; `false` for a `break`. -/
def probe (tp : UInt32) (m : Memory) : Bool × Memory :=
  let (tmp,m) := m.read tp
  let m := m.write tp 0x55AA55AA
  let (v,m) := m.read tp
  if v ≠ 0x55AA55AA then (false,m)
  else
    let m := m.write tp 0xAA55AA55
    let (v,m) := m.read tp
    if v ≠ 0xAA55AA55 then (false,m) else (true,m.write tp tmp)

def sizeLoop : ℕ → UInt32 → Memory → Option (UInt32 × Memory)
  | 0, _, _ => none
  | fuel + 1, memsize, m =>
    match probe memsize m with
    | (false,m) => some (memsize,m)
    | (true,m) =>
      if memsize + 0x1000 < 0xFFFFFFFF then sizeLoop fuel (memsize + 0x1000) m
      else some (memsize + 0x1000,m)

def memSize (fuel : ℕ) (kernel_end : UInt32) (m : Memory) : Option (UInt32 × Memory) := sizeLoop fuel kernel_end m

variable {m m' : Memory} {a x size : UInt32} {fuel e f k n : ℕ}

/-! ## One page -/

theorem probe_ram (h : m.ram a = true) : probe a m = (true,{ m with touched := List.replicate 6 a ++ m.touched }) := by
  simp [probe,Memory.read,Memory.write,h,List.replicate]

/-- A word that does not store fails one of the two tests. -/
theorem probe_rom (h : m.ram a = false) :
    ∃ i, probe a m = (false,{ m with touched := List.replicate (i + 1) a ++ m.touched }) := by
  by_cases hv : m.word a = 0x55AA55AA
  · refine ⟨4,?_⟩
    simp [probe,Memory.read,Memory.write,h,hv,List.replicate]
  · refine ⟨2,?_⟩
    simp [probe,Memory.read,Memory.write,h,hv,List.replicate]

theorem probe_touched : ∃ i, (probe a m).2.touched = List.replicate (i + 1) a ++ m.touched := by
  cases h : m.ram a with
  | false =>
    obtain ⟨i,hi⟩ := probe_rom h
    exact ⟨i,by rw [hi]⟩
  | true => exact ⟨5,by rw [probe_ram h]⟩

/-! ## Pages -/

def page (k : ℕ) : UInt32 := .ofNat (0x1000 * k)

theorem page_toNat : (page k).toNat = 0x1000 * k % 2 ^ 32 := UInt32.toNat_ofNat'

theorem page_succ : page k + 0x1000 = page (k + 1) := by
  apply UInt32.toNat_inj.mp
  rw [UInt32.toNat_add,page_toNat,page_toNat]
  simp
  omega

/-- No page address reaches the bound of the loop. -/
theorem page_lt : page k < 0xFFFFFFFF := by
  rw [UInt32.lt_iff_toNat_lt,page_toNat]
  simp
  omega

theorem page_le_iff (he : e < 2 ^ 20) (hk : k < 2 ^ 20) : page e ≤ page k ↔ e ≤ k := by
  rw [UInt32.le_iff_toNat_le,page_toNat,page_toNat]
  omega

theorem page_lt_iff (he : e < 2 ^ 20) (hk : k < 2 ^ 20) : page e < page k ↔ e < k := by
  rw [UInt32.lt_iff_toNat_lt,page_toNat,page_toNat]
  omega

theorem exists_page (h : a.toNat % 0x1000 = 0) : ∃ k < 2 ^ 20, a = page k := by
  have hlt := a.toNat_lt
  refine ⟨a.toNat / 0x1000,by omega,?_⟩
  apply UInt32.toNat_inj.mp
  rw [page_toNat]
  omega

theorem page_aligned : (page k).toNat % 0x1000 = 0 := by
  rw [page_toNat]
  omega

/-! ## The loop -/

theorem sizeLoop_ram (h : m.ram (page k) = true) : sizeLoop (f + 1) (page k) m =
    sizeLoop f (page (k + 1)) { m with touched := List.replicate 6 (page k) ++ m.touched } := by
  rw [sizeLoop,probe_ram h]
  simp only [page_succ]
  exact if_pos page_lt

theorem sizeLoop_rom (h : m.ram a = false) :
    ∃ i, sizeLoop (f + 1) a m = some (a,{ m with touched := List.replicate (i + 1) a ++ m.touched }) := by
  obtain ⟨i,hi⟩ := probe_rom h
  exact ⟨i,by rw [sizeLoop,hi]⟩

/-- Pages that store are passed one after the other, and nothing else is touched. -/
theorem sizeLoop_pages (h : ∀ i < n, m.ram (page (k + i)) = true) :
    ∃ l, sizeLoop (n + f) (page k) m = sizeLoop f (page (k + n)) { m with touched := l } ∧
      ∀ x ∈ l, x ∈ m.touched ∨ ∃ i < n, x = page (k + i) := by
  induction n generalizing f with
  | zero => exact ⟨m.touched,by rw [Nat.zero_add]; rfl,fun x hx => Or.inl hx⟩
  | succ n ih =>
    obtain ⟨l,hl,hmem⟩ := ih (f := f + 1) (fun i hi => h i (Nat.lt_succ_of_lt hi))
    refine ⟨List.replicate 6 (page (k + n)) ++ l,?_,fun x hx => ?_⟩
    · rw [Nat.add_right_comm,Nat.add_assoc,hl]
      exact sizeLoop_ram (m := { m with touched := l }) (h n (Nat.lt_succ_self n))
    · rcases List.mem_append.mp hx with hx | hx
      · exact Or.inr ⟨n,Nat.lt_succ_self n,List.eq_of_mem_replicate hx⟩
      · rcases hmem x hx with hx | ⟨i,hi,rfl⟩
        · exact Or.inl hx
        · exact Or.inr ⟨i,Nat.lt_succ_of_lt hi,rfl⟩

theorem sizeLoop_mono (h : sizeLoop fuel a m = some (size,m')) : m.touched ⊆ m'.touched := by
  induction fuel generalizing a m with
  | zero => cases h
  | succ fuel ih =>
    obtain ⟨i,hi⟩ := probe_touched (a := a) (m := m)
    have hsub : m.touched ⊆ (probe a m).2.touched := by
      rw [hi]
      exact List.subset_append_right _ _
    rw [sizeLoop] at h
    split at h <;> rename_i m₁ hp <;> rw [hp] at hsub
    · cases h
      exact hsub
    · split at h
      · exact List.Subset.trans hsub (ih h)
      · obtain ⟨-,rfl⟩ := Prod.mk.inj (Option.some.inj h)
        exact hsub

theorem sizeLoop_first (h : sizeLoop (fuel + 1) a m = some (size,m')) : a ∈ m'.touched := by
  obtain ⟨i,hi⟩ := probe_touched (a := a) (m := m)
  have hmem : a ∈ (probe a m).2.touched := by
    rw [hi]
    simp
  rw [sizeLoop] at h
  split at h <;> rename_i m₁ hp <;> rw [hp] at hmem
  · cases h
    exact hmem
  · split at h
    · exact sizeLoop_mono h hmem
    · obtain ⟨-,rfl⟩ := Prod.mk.inj (Option.some.inj h)
      exact hmem

/-! ## The probe -/

/-- The size is the address of the first page from `kernel_end` on that does not store, or the end of
the address space. -/
structure Measured (ram : UInt32 → Bool) (kernel_end size : UInt32) : Prop where
  least : ∀ a, a.toNat % 0x1000 = 0 → kernel_end ≤ a → ram a = false →
    (∀ b, b.toNat % 0x1000 = 0 → kernel_end ≤ b → b < a → ram b = true) → size = a
  all : (∀ a, a.toNat % 0x1000 = 0 → kernel_end ≤ a → ram a = true) → size = 0 ∨ size = 0xFFFFFFFF

/-- The probe ends with the right size. It touches nothing below `kernel_end` and leaves the
words that store as they were. -/
def Harmless (ram : UInt32 → Bool) (word : UInt32 → UInt32) (kernel_end : UInt32) : Prop :=
  ∃ fuel size m, memSize fuel kernel_end ⟨ram,word,[]⟩ = some (size,m) ∧ Measured ram kernel_end size ∧
    (∀ a ∈ m.touched, kernel_end ≤ a) ∧ ∀ a, ram a = true → m.word a = word a

variable {ram : UInt32 → Bool} {word : UInt32 → UInt32}

theorem harmless_of_rom (he : e + n < 2 ^ 20) (hram : ∀ i < n, ram (page (e + i)) = true) (hrom : ram (page (e + n)) = false) :
    Harmless ram word (page e) := by
  obtain ⟨l,hl,hmem⟩ := sizeLoop_pages (m := ⟨ram,word,[]⟩) (f := 1) hram
  obtain ⟨i,hi⟩ := sizeLoop_rom (f := 0) (m := ⟨ram,word,l⟩) hrom
  refine ⟨n + 1,page (e + n),_,hl.trans hi,⟨?_,?_⟩,?_,fun a _ => rfl⟩
  · intro a ha hle hrom' hbelow
    obtain ⟨j,hj,rfl⟩ := exists_page ha
    have hej : e ≤ j := (page_le_iff (by omega) hj).mp hle
    rcases Nat.lt_trichotomy j (e + n) with hlt | rfl | hgt
    · have htrue := hram (j - e) (by omega)
      rw [Nat.add_sub_cancel' hej,hrom'] at htrue
      cases htrue
    · rfl
    · have htrue := hbelow _ page_aligned ((page_le_iff (by omega) he).mpr (Nat.le_add_right e n))
        ((page_lt_iff he hj).mpr hgt)
      rw [hrom] at htrue
      cases htrue
  · intro hall
    have htrue := hall _ page_aligned ((page_le_iff (by omega) he).mpr (Nat.le_add_right e n))
    rw [hrom] at htrue
    cases htrue
  · intro a ha
    rcases List.mem_append.mp ha with ha | ha
    · rw [List.eq_of_mem_replicate ha]
      exact (page_le_iff (by omega) he).mpr (Nat.le_add_right e n)
    · rcases hmem a ha with ha | ⟨i,hi,rfl⟩
      · cases ha
      · exact (page_le_iff (by omega) (by omega)).mpr (Nat.le_add_right e i)

theorem page_mod : page (k % 2 ^ 20) = page k := by
  apply UInt32.toNat_inj.mp
  rw [page_toNat,page_toNat]
  omega

/-- The probe of a memory in which all pages store never ends. -/
theorem memSize_none (h : ∀ k, m.ram (page k) = true) : memSize fuel (page e) m = none := by
  obtain ⟨l,hl,-⟩ := sizeLoop_pages (k := e) (n := fuel) (f := 0) (m := m) (fun i _ => h (e + i))
  exact hl

/-- When all pages from `kernel_end` on store, the probe goes on at page 0. -/
theorem memSize_wraps (he : e < 2 ^ 20) (h : ∀ k < 2 ^ 20, e ≤ k → m.ram (page k) = true)
    (hrun : memSize fuel (page e) m = some (size,m')) : 0 ∈ m'.touched := by
  have hram : ∀ i < 2 ^ 20 - e, m.ram (page (e + i)) = true := fun i hi => h (e + i) (by omega) (Nat.le_add_right e i)
  by_cases hfuel : fuel ≤ 2 ^ 20 - e
  · obtain ⟨l,hl,-⟩ := sizeLoop_pages (k := e) (n := fuel) (f := 0) (m := m) (fun i hi => hram i (by omega))
    rw [memSize,show sizeLoop fuel (page e) m = _ from hl] at hrun
    cases hrun
  · obtain ⟨i,rfl⟩ := Nat.exists_eq_add_of_lt (Nat.lt_of_not_le hfuel)
    obtain ⟨l,hl,-⟩ := sizeLoop_pages (f := i + 1) hram
    rw [memSize,Nat.add_assoc,hl,Nat.add_sub_cancel' (Nat.le_of_lt he)] at hrun
    have hfirst := sizeLoop_first hrun
    rwa [← page_mod,Nat.mod_self] at hfirst

/-- The probe is harmless exactly if there is a page at or above `kernel_end` that does not store. -/
theorem memSize_harmless_iff (ram : UInt32 → Bool) (word : UInt32 → UInt32) (kernel_end : UInt32)
    (hpage : kernel_end.toNat % 0x1000 = 0) : Harmless ram word kernel_end ↔
      ∃ a, a.toNat % 0x1000 = 0 ∧ kernel_end ≤ a ∧ ram a = false := by
  obtain ⟨e,he,rfl⟩ := exists_page hpage
  constructor
  · rintro ⟨fuel,size,m,hrun,-,htouched,-⟩
    by_contra hnone
    have hram : ∀ k < 2 ^ 20, e ≤ k → ram (page k) = true := by
      intro k hk hek
      by_contra hrom
      exact hnone ⟨page k,page_aligned,(page_le_iff he hk).mpr hek,by simpa using hrom⟩
    -- page 0 is touched, so it is not below the end of the kernel
    have hzero : e = 0 := by
      have hle := htouched 0 (memSize_wraps he hram hrun)
      have hle : page e ≤ page 0 := hle
      have := (page_le_iff he (by omega)).mp hle
      omega
    subst hzero
    rw [memSize_none (fun k => by rw [← page_mod]; exact hram _ (Nat.mod_lt _ (by decide)) (Nat.zero_le _))] at hrun
    cases hrun
  · rintro ⟨a,ha,hle,hrom⟩
    obtain ⟨j,hj,rfl⟩ := exists_page ha
    have hej := (page_le_iff he hj).mp hle
    have hex : ∃ n, ram (page (e + n)) = false := ⟨j - e,by rw [Nat.add_sub_cancel' hej]; exact hrom⟩
    have hmin : Nat.find hex ≤ j - e := Nat.find_min' hex (by rw [Nat.add_sub_cancel' hej]; exact hrom)
    refine harmless_of_rom (n := Nat.find hex) (by omega) (fun i hi => ?_) (Nat.find_spec hex)
    simpa using Nat.find_min hex hi

theorem memSize_harmless_small : Harmless (fun a => decide (a < 0x400000)) (fun _ => 0) 0x200000 :=
  (memSize_harmless_iff _ _ 0x200000 (by decide)).mpr ⟨0x400000,by decide,by decide,by decide⟩

/-- With all of the address space storing the probe runs forever. With a hole at 0xA0000 only, it
comes from the last page back to page 0, probes the memory below the kernel and ends at the hole. -/
theorem memSize_full : (∀ fuel, memSize fuel 0x200000 ⟨fun _ => true,fun _ => 0,[]⟩ = none) ∧
    ∃ fuel m, memSize fuel 0x200000 ⟨fun a => decide (a ≠ 0xA0000),fun _ => 0,[]⟩ = some (0xA0000,m) ∧ 0 ∈ m.touched := by
  refine ⟨fun fuel => memSize_none (e := 0x200) (fun _ => rfl),?_⟩
  have hpages : ∀ i < 2 ^ 20 - 0x160, decide (page (0x200 + i) ≠ 0xA0000) = true := by
    intro i hi
    rw [decide_eq_true_eq,← UInt32.toNat_inj.ne,page_toNat]
    simp
    omega
  obtain ⟨l,hl,-⟩ := sizeLoop_pages (m := ⟨fun a => decide (a ≠ 0xA0000),fun _ => 0,[]⟩) (f := 1) hpages
  have hend : page (0x200 + (2 ^ 20 - 0x160)) = 0xA0000 := page_mod.symm.trans (by decide)
  rw [hend] at hl
  obtain ⟨i,hi⟩ := sizeLoop_rom (f := 0) (m := ⟨fun a => decide (a ≠ 0xA0000),fun _ => 0,l⟩) (a := 0xA0000)
    (show decide ((0xA0000 : UInt32) ≠ 0xA0000) = false by decide)
  refine ⟨_,_,hl.trans hi,?_⟩
  refine memSize_wraps (e := 0x200) (by decide) (fun k hk hek => ?_) (hl.trans hi)
  rw [decide_eq_true_eq,← UInt32.toNat_inj.ne,page_toNat]
  simp
  omega

end Micron.Kernel.MemSize

import Micron.Boot.KernCopy
import Micron.Lib.Ia32

/-! # From the boot loader to the kernel

The 32-bit part of `boot.s` moves the buffer to the address of the kernel and jumps there with
the boot drive in `al`. `init.s` keeps `eax` in `kboot`, clears the section `.bss`, and `kmain`
mounts the root file system if it finds the first hard disk there. Line 20 of the address bus is
taken to be on.
-/
namespace Micron.Boot
open Bytes Ia32

/-! ## The loader in protected mode -/

structure Pm where
  eax : UInt32
  esi : UInt32
  edi : UInt32
  esp : UInt32
  mem : Memory

def moveLoop : ℕ → Pm → Option Pm
  | 0, _ => none
  | fuel + 1, s =>
    let eax := peek s.mem s.esi
    let s := { s with eax := eax, mem := poke s.mem s.edi eax }
    if s.esi = 0x90000 then some s else moveLoop fuel { s with esi := s.esi + 4, edi := s.edi + 4 }

def kernMove (fuel : ℕ) (s : Pm) : Option Pm := moveLoop fuel { s with esi := 0x10000, edi := 0x100000 }

def setLow (eax : UInt32) (al : UInt8) : UInt32 := (256 * (eax.toNat / 256) + al.toNat).toUInt32

/-- `_start32`, with the instruction behind the call at `ret` and `b_devi` at the given address. -/
def start32 (ret : UInt32) (b_devi fuel : ℕ) (s : Pm) : Option Pm := do
  let s ← kernMove fuel { s with esp := s.esp - 4, mem := poke s.mem (s.esp - 4) ret }
  if peek s.mem s.esp = ret then
    -- orl leaves eax as it is
    let eax := s.eax ||| s.eax
    some { s with eax := setLow eax (s.mem b_devi), esp := s.esp + 4 }
  else none

inductive Entry
  | halted
  | running
  | entered (s : Pm)

/-- `_start` of the loader, started by the BIOS with the drive in `dl`, up to the jump to the
kernel. A floppy drive is not booted from. -/
def bootStart (g : Geometry) (disk : Disk) (ret : UInt32) (b_devi : ℕ) (dl : UInt8) (fuel fuel' : ℕ) (s : Pm) : Entry :=
  if dl &&& 0x80 = 0 then .halted
  else match bootHdd g disk fuel (put s.mem b_devi [dl]) with
    | .halted => .halted
    | .running _ _ => .running
    | .returned _ mem =>
      match start32 ret b_devi fuel' { s with mem := mem } with
      | some s => .entered s
      | none => .running

/-! ## The kernel -/

structure Layout where
  kboot : UInt32
  bss : ℕ
  bssend : ℕ

def bssLoop (bssend : ℕ) : ℕ → ℕ → Memory → Option Memory
  | 0, _, _ => none
  | fuel + 1, bssp, mem =>
    if bssp < bssend then bssLoop bssend fuel (bssp + 4) (put mem bssp (le32 0)) else some (put mem bssp (le32 0))

/-- `_start` of `init.s` as far as it concerns `kboot`. -/
def initStart (l : Layout) (fuel : ℕ) (s : Pm) : Option Memory := bssLoop l.bssend fuel l.bss (poke s.mem l.kboot s.eax)

def kmain (kboot : UInt32) : Option String × Option UInt32 :=
  if kboot = 0 then (some "Booted from floppy0\n",none)
  else if kboot = 1 then (some "Booted from floppy1\n",none)
  else if kboot = 0x80 then (some "Booted from hda, setting it up as root\n",some 1)
  else if kboot = 0x81 then (some "Booted from hdb0\n",none)
  else (none,none)

/-! ## The move -/

section
variable {s : Pm} {m : Memory} {n : ℕ}

def moved (b : ℕ) (m : Memory) : Memory := fun a => if b ≤ a ∧ a < 0x180004 then m (a - 0xF0000) else m a

theorem poke_peek {x y : UInt32} {a : ℕ} (h1 : y.toNat ≤ a) (h2 : a < y.toNat + 4) :
    poke m y (peek m x) a = m (x.toNat + (a - y.toNat)) := by
  have h := at_put (m := m) (a := y.toNat) (l := le32 (get32 m x.toNat)) (a - y.toNat) (by rw [le32_length]; omega)
  rw [Nat.add_sub_cancel' h1] at h
  refine h.trans ?_
  have hbytes := le32_get32 m x.toNat
  obtain hi | hi | hi | hi : a - y.toNat = 0 ∨ a - y.toNat = 1 ∨ a - y.toNat = 2 ∨ a - y.toNat = 3 := by omega
  all_goals simp only [hi,hbytes]; rfl

theorem moved_end (m : Memory) : moved 0x180004 m = m := by
  funext a
  exact if_neg (by omega)

theorem moved_poke {x y : UInt32} (hxy : y.toNat = x.toNat + 0xF0000) (h1 : 0x100000 ≤ y.toNat) (h2 : y.toNat ≤ 0x180000) :
    moved (y.toNat + 4) (poke m y (peek m x)) = moved y.toNat m := by
  funext a
  rw [moved,moved]
  by_cases hlow : y.toNat ≤ a ∧ a < y.toNat + 4
  · have hsrc : x.toNat + (a - y.toNat) = a - 0xF0000 := by omega
    rw [if_neg (by omega),if_pos (by omega),poke_peek hlow.1 hlow.2,hsrc]
  · by_cases hin : y.toNat + 4 ≤ a ∧ a < 0x180004
    · rw [if_pos hin,if_pos (by omega)]
      exact poke_of_apart (by omega)
    · rw [if_neg hin,if_neg (by omega)]
      exact poke_of_apart (by omega)

theorem moveLoop_moves (hn : n ≤ 131072) (hsi : s.esi.toNat = 0x90000 - 4 * n) (hdi : s.edi.toNat = 0x180000 - 4 * n) :
    moveLoop (n + 1) s =
      some { s with eax := peek s.mem 0x90000, esi := 0x90000, edi := 0x180000, mem := moved s.edi.toNat s.mem } := by
  have hmem : moved (s.edi.toNat + 4) (poke s.mem s.edi (peek s.mem s.esi)) = moved s.edi.toNat s.mem :=
    moved_poke (by omega) (by omega) (by omega)
  induction n generalizing s with
  | zero =>
    have hx : s.esi = 0x90000 := UInt32.toNat_inj.mp hsi
    have hy : s.edi = 0x180000 := UInt32.toNat_inj.mp hdi
    rw [hdi,moved_end] at hmem
    rw [moveLoop,hdi,← hmem]
    simp only [hx,hy,if_true]
  | succ n ih =>
    have hne : s.esi ≠ 0x90000 := by
      intro hx
      rw [hx] at hsi
      simp at hsi
      omega
    rw [moveLoop]
    simp only [if_neg hne]
    have hsi' : (s.esi + 4).toNat = s.esi.toNat + 4 := toNat_add (by simp; omega)
    have hdi' : (s.edi + 4).toNat = s.edi.toNat + 4 := toNat_add (by simp; omega)
    rw [ih (by omega) (by simp only [hsi']; omega) (by simp only [hdi']; omega)
      (moved_poke (by simp only [hsi',hdi']; omega) (by simp only [hdi']; omega) (by simp only [hdi']; omega))]
    simp only [hdi',hmem]
    have hlast : peek (poke s.mem s.edi (peek s.mem s.esi)) 0x90000 = peek s.mem 0x90000 :=
      peek_poke_of_apart (by simp; omega)
    rw [hlast]

theorem start32_enters {ret eax esi edi esp : UInt32} {b_devi : ℕ} (hdev : b_devi + 5 ≤ esp.toNat) (hsp : esp.toNat ≤ 0x10000) :
    start32 ret b_devi 131073 ⟨eax,esi,edi,esp,m⟩ = some ⟨setLow (peek m 0x90000) (m b_devi),0x90000,0x180000,esp,
      moved 0x100000 (poke m (esp - 4) ret)⟩ := by
  have hsub := toNat_sub_four (v := esp) (by omega)
  have hmove : moveLoop 131073 ⟨eax,0x10000,0x100000,esp - 4,poke m (esp - 4) ret⟩ =
      some ⟨peek (poke m (esp - 4) ret) 0x90000,0x90000,0x180000,esp - 4,moved 0x100000 (poke m (esp - 4) ret)⟩ :=
    moveLoop_moves (Nat.le_refl 131072) rfl rfl
  have hpop : peek (moved 0x100000 (poke m (esp - 4) ret)) (esp - 4) = ret := by
    refine (peek_congr fun i h1 h2 => ?_).trans (peek_poke m (esp - 4) ret)
    exact if_neg (by omega)
  have hbyte : moved 0x100000 (poke m (esp - 4) ret) b_devi = m b_devi :=
    (if_neg (by omega)).trans (poke_of_apart (by omega))
  have hword : peek (poke m (esp - 4) ret) 0x90000 = peek m 0x90000 := peek_poke_of_apart (by simp; omega)
  rw [start32,kernMove,hmove]
  simp only [Option.bind_eq_bind,Option.bind_some]
  rw [if_pos hpop,hbyte,hword]
  simp

theorem moved_last {esp ret : UInt32} (h4 : 4 ≤ esp.toNat) (hsp : esp.toNat ≤ 0x10000) :
    peek (moved 0x100000 (poke m (esp - 4) ret)) 0x180000 = peek m 0x90000 := by
  have hsub := toNat_sub_four h4
  have hbyte : ∀ i < 4, moved 0x100000 (poke m (esp - 4) ret) (0x180000 + i) = m (0x90000 + i) := by
    intro i hi
    rw [moved,if_pos (by omega),show 0x180000 + i - 0xF0000 = 0x90000 + i by omega]
    exact poke_of_apart (by omega)
  rw [peek,peek,get32,get32,show (0x180000 : UInt32).toNat = 0x180000 from rfl,show (0x90000 : UInt32).toNat = 0x90000 from rfl,
    hbyte 1 (by decide),hbyte 2 (by decide),hbyte 3 (by decide),← hbyte 0 (by decide)]

/-! ## The section `.bss` -/

/-- One word more than the section has is cleared. -/
def clearedEnd (bss bssend : ℕ) : ℕ := bss + 4 * ((bssend - bss + 3) / 4 + 1)

def cleared (bss bssend : ℕ) (m : Memory) : Memory := fun a => if bss ≤ a ∧ a < clearedEnd bss bssend then 0 else m a

theorem put_zero (m : Memory) (p a : ℕ) : put m p (le32 0) a = if p ≤ a ∧ a < p + 4 then 0 else m a := by
  split
  · rename_i h
    have hat := at_put (m := m) (a := p) (l := le32 0) (a - p) (by rw [le32_length]; omega)
    rw [Nat.add_sub_cancel' h.1] at hat
    refine hat.trans ?_
    obtain hi | hi | hi | hi : a - p = 0 ∨ a - p = 1 ∨ a - p = 2 ∨ a - p = 3 := by omega
    all_goals simp only [hi]; rfl
  · rename_i h
    exact put_frame (by rw [le32_length]; omega)

theorem bssLoop_clears {bssend k : ℕ} (p : ℕ) (hk : (bssend - p + 3) / 4 = k) (m : Memory) :
    bssLoop bssend (k + 1) p m = some (cleared p bssend m) := by
  induction k generalizing p m with
  | zero =>
    rw [bssLoop,if_neg (by omega)]
    congr 1
    funext a
    rw [put_zero,cleared,clearedEnd,hk]
  | succ k ih =>
    rw [bssLoop,if_pos (by omega),ih (p + 4) (by omega)]
    congr 1
    funext a
    rw [cleared,cleared,clearedEnd,clearedEnd,hk,show (bssend - (p + 4) + 3) / 4 = k by omega,put_zero]
    by_cases h1 : p + 4 ≤ a ∧ a < p + 4 + 4 * (k + 1)
    · rw [if_pos h1,if_pos (by omega)]
    · rw [if_neg h1]
      by_cases h2 : p ≤ a ∧ a < p + 4
      · rw [if_pos h2,if_pos (by omega)]
      · rw [if_neg h2,if_neg (by omega)]

def Layout.Spared (l : Layout) : Prop := l.kboot.toNat + 4 ≤ l.bss ∨ clearedEnd l.bss l.bssend ≤ l.kboot.toNat

def Layout.Cleared (l : Layout) : Prop := l.bss ≤ l.kboot.toNat ∧ l.kboot.toNat + 4 ≤ clearedEnd l.bss l.bssend

theorem kboot_spared {l : Layout} (h : l.Spared) (m : Memory) (v : UInt32) :
    peek (cleared l.bss l.bssend (poke m l.kboot v)) l.kboot = v := by
  refine (peek_congr fun i h1 h2 => ?_).trans (peek_poke m l.kboot v)
  unfold Layout.Spared at h
  exact if_neg (by omega)

theorem kboot_cleared {l : Layout} (h : l.Cleared) (m : Memory) : peek (cleared l.bss l.bssend m) l.kboot = 0 := by
  obtain ⟨h1,h2⟩ := h
  have hzero : ∀ i < 4, cleared l.bss l.bssend m (l.kboot.toNat + i) = 0 := fun i hi => if_pos (by omega)
  have h0 : cleared l.bss l.bssend m l.kboot.toNat = 0 := hzero 0 (by decide)
  rw [peek,get32,h0,hzero 1 (by decide),hzero 2 (by decide),hzero 3 (by decide)]
  rfl

/-! ## All the way -/

theorem memAt_below {g : Geometry} {disk : Disk} {mem : Memory} {ks k a : ℕ} (ha : a < 65536) :
    memAt g disk ks mem k a = mem a := by
  induction k with
  | zero => rfl
  | succ k ih =>
    rw [memAt,load,if_neg (by omega)]
    exact ih

/-- The memory when the kernel is loaded: what lies below its buffer is left alone but for the
super block. -/
theorem loaded {g : Geometry} {disk : Disk} {mem : Memory} {kblk kb : UInt16} (h : g.Loadable kblk.toNat kb.toNat)
    (hkb : kb.toNat ≤ 512) (h3 : 3 ≤ g.total) (hsb : Says disk kblk kb) : ∃ fuel v mem',
      bootHdd g disk fuel mem = .returned v mem' ∧ (∀ a < 0x7E00, mem' a = mem a) ∧
      ∀ a < 1024 * kb.toNat, mem' (0x10000 + a) = disk (2 * kblk.toNat + 1 + a / 512) (a % 512) := by
  have hl : LoadsKernel g disk mem kblk.toNat kb.toNat := h.loads hkb h3 hsb
  obtain ⟨hS,hok,hmem⟩ := (loadsKernel_iff hsb hkb h3).mp hl
  have hcounts := passes_counts (n := 2 * kb.toNat) g.S_pos g.S_le (by omega)
  have hle := passes_le (n := 2 * kb.toNat) g.S_pos (by omega)
  have hrun : bootHdd g disk (passes g.S (2 * kb.toNat)) mem = _ :=
    (bootHdd_eq hsb).trans ((if_pos ⟨hS,h3⟩).trans (copyLoop_returns hcounts hle (by omega) hok))
  refine ⟨_,_,_,hrun,fun a ha => ?_,fun a ha => ?_⟩
  · rw [memAt_below (by omega),load,if_neg (by omega)]
  · have hslot := hmem (a / 512) (by omega) (a % 512) (Nat.mod_lt a (by decide))
    rwa [Nat.add_assoc,Nat.div_add_mod] at hslot

theorem bootStart_enters {g : Geometry} {disk : Disk} {ret : UInt32} {b_devi fuel fuel' : ℕ} {dl : UInt8} {t : Pm} {v : Vars}
    (hdl : dl &&& 0x80 ≠ 0) (hrun : bootHdd g disk fuel (put s.mem b_devi [dl]) = .returned v m)
    (hstart : start32 ret b_devi fuel' { s with mem := m } = some t) :
    bootStart g disk ret b_devi dl fuel fuel' s = .entered t := by
  rw [bootStart,if_neg hdl,hrun]
  dsimp only
  rw [hstart]

theorem setLow_toNat (eax : UInt32) (al : UInt8) : (setLow eax al).toNat = 256 * (eax.toNat / 256) + al.toNat := by
  have h1 := eax.toNat_lt
  have h2 := al.toNat_lt
  rw [setLow,Nat.toUInt32_eq,UInt32.toNat_ofNat',Nat.mod_eq_of_lt (by omega)]

theorem kmain_mounts (kboot : UInt32) : (kmain kboot).2 = some 1 ↔ kboot = 0x80 := by
  unfold kmain
  split
  · rename_i h
    rw [h]
    exact iff_of_false (fun hx => by cases hx) (by decide)
  · split
    · rename_i h
      rw [h]
      exact iff_of_false (fun hx => by cases hx) (by decide)
    · split
      · rename_i h
        exact iff_of_true rfl h
      · rename_i h
        refine iff_of_false ?_ h
        split
        · exact fun hx => by cases hx
        · exact fun hx => by cases hx

theorem setLow_drive (eax : UInt32) (dl : UInt8) : setLow eax dl = 0x80 ↔ dl = 0x80 ∧ eax.toNat < 256 := by
  have h := setLow_toNat eax dl
  have h2 := dl.toNat_lt
  rw [← UInt32.toNat_inj,← UInt8.toNat_inj,h,show (0x80 : UInt32).toNat = 128 from rfl,show (0x80 : UInt8).toNat = 128 from rfl]
  omega

end

section
variable {l : Layout} {t : Pm}

theorem Layout.Cleared.not_spared (h : l.Cleared) : ¬ l.Spared := by
  unfold Layout.Cleared at h
  unfold Layout.Spared
  omega

theorem initStart_clears (l : Layout) (t : Pm) :
    ∃ k, initStart l k t = some (cleared l.bss l.bssend (poke t.mem l.kboot t.eax)) :=
  ⟨_,bssLoop_clears l.bss rfl _⟩

theorem cleared_frame {a : ℕ} (h1 : a < l.bss ∨ clearedEnd l.bss l.bssend ≤ a) (h2 : a < l.kboot.toNat ∨ l.kboot.toNat + 4 ≤ a) :
    cleared l.bss l.bssend (poke t.mem l.kboot t.eax) a = t.mem a :=
  (if_neg (by omega)).trans (poke_of_apart h2)

theorem kmain_cleared (hl : l.Spared ∨ l.Cleared) {w : UInt32} {dl : UInt8} (heax : t.eax = setLow w dl) :
    (kmain (peek (cleared l.bss l.bssend (poke t.mem l.kboot t.eax)) l.kboot)).2 = some 1 ↔
      dl = 0x80 ∧ w.toNat < 256 ∧ l.Spared := by
  rw [kmain_mounts]
  obtain hl | hl := hl
  · rw [kboot_spared hl,heax,setLow_drive]
    simp only [hl,and_true]
  · rw [kboot_cleared hl]
    refine iff_of_false ?_ fun h => hl.not_spared h.2.2
    decide

end

/-- Every disk that the loader can load a kernel from, with the drive at hand and the stack below
the buffer: the loader enters the kernel with its sectors at 0x100000, and `eax` is the last word
that was moved with the drive as its low byte. `init.s` then clears the section `.bss` and the
word behind it and nothing else, and `kmain` mounts the root exactly if the drive is the first
hard disk, the upper bytes of that word happen to be 0, and `kboot` is not cleared with the rest. -/
theorem kernel_started (g : Geometry) (disk : Disk) (kblk kb : UInt16) (hload : g.Loadable kblk.toNat kb.toNat)
    (hkb : kb.toNat ≤ 512) (h3 : 3 ≤ g.total) (hsb : Says disk kblk kb) (dl : UInt8) (hdl : dl &&& 0x80 ≠ 0) (ret : UInt32)
    (b_devi : ℕ) (hdev : b_devi < 0x7E00) (s : Pm) (h4 : b_devi + 5 ≤ s.esp.toNat) (hsp : s.esp.toNat ≤ 0x10000) :
    ∃ fuel fuel' t, bootStart g disk ret b_devi dl fuel fuel' s = .entered t ∧
      (∀ a < 1024 * kb.toNat, t.mem (0x100000 + a) = disk (2 * kblk.toNat + 1 + a / 512) (a % 512)) ∧
      t.eax = setLow (peek t.mem 0x180000) dl ∧
      ∀ l : Layout, l.Spared ∨ l.Cleared → ∃ k m, initStart l k t = some m ∧
        (∀ a, l.bss ≤ a → a < clearedEnd l.bss l.bssend → m a = 0) ∧
        (∀ a, a < l.bss ∨ clearedEnd l.bss l.bssend ≤ a → a < l.kboot.toNat ∨ l.kboot.toNat + 4 ≤ a → m a = t.mem a) ∧
        ((kmain (peek m l.kboot)).2 = some 1 ↔ dl = 0x80 ∧ (peek t.mem 0x180000).toNat < 256 ∧ l.Spared) := by
  obtain ⟨fuel,v,mem,hrun,hlow,hkern⟩ : ∃ fuel v mem, bootHdd g disk fuel (put s.mem b_devi [dl]) = .returned v mem ∧ _ :=
    loaded hload hkb h3 hsb
  have hbyte : mem b_devi = dl := by
    rw [hlow b_devi hdev]
    exact at_put (m := s.mem) (a := b_devi) (l := [dl]) 0 Nat.one_pos
  have hlast : peek (moved 0x100000 (poke mem (s.esp - 4) ret)) 0x180000 = peek mem 0x90000 := moved_last (by omega) hsp
  have hstart : start32 ret b_devi 131073 { s with mem := mem } = some ⟨setLow (peek mem 0x90000) dl,0x90000,0x180000,s.esp,
      moved 0x100000 (poke mem (s.esp - 4) ret)⟩ := by
    rw [← hbyte]
    exact start32_enters h4 hsp
  have heax : setLow (peek mem 0x90000) dl = setLow (peek (moved 0x100000 (poke mem (s.esp - 4) ret)) 0x180000) dl := by
    rw [hlast]
  refine ⟨fuel,131073,_,bootStart_enters hdl hrun hstart,fun a ha => ?_,heax,fun l hl => ?_⟩
  · have hsub := toNat_sub_four (v := s.esp) (by omega)
    have haddr : 0x100000 + a - 0xF0000 = 0x10000 + a := by omega
    refine (if_pos (by omega)).trans ?_
    rw [haddr,← hkern a ha]
    exact poke_of_apart (by omega)
  · obtain ⟨k,hk⟩ := initStart_clears l
      ⟨setLow (peek mem 0x90000) dl,0x90000,0x180000,s.esp,moved 0x100000 (poke mem (s.esp - 4) ret)⟩
    exact ⟨k,_,hk,fun a h1 h2 => if_pos ⟨h1,h2⟩,fun a h1 h2 => cleared_frame h1 h2,kmain_cleared hl heax⟩

/-- A kernel of 60 blocks on tracks of eight sectors, started from the first hard disk. -/
theorem kernel_started_small : ∃ fuel fuel' t,
    bootStart ⟨8,15,100,by decide,by decide,by decide,by decide⟩ (tagged 1 60) 0x7D80 0x7DA0 0x80 fuel fuel'
        ⟨0,0,0,0x8000,fun _ => 0⟩ = .entered t ∧
      t.eax = setLow (peek t.mem 0x180000) 0x80 := by
  obtain ⟨fuel,fuel',t,ht,-,heax,-⟩ := kernel_started ⟨8,15,100,by decide,by decide,by decide,by decide⟩ (tagged 1 60) 1 60
    (by decide +kernel) (by decide) (by decide) (tagged_super 1 60) 0x80 (by decide) 0x7D80 0x7DA0 (by decide)
    ⟨0,0,0,0x8000,fun _ => 0⟩ (by decide) (by decide)
  exact ⟨fuel,fuel',t,ht,heax⟩

end Micron.Boot

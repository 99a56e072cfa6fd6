import Mathlib.Data.Nat.Notation
import Mathlib.Logic.Function.Basic
import Mathlib.Tactic.NormNum

/-! # The console

`tty_write` wraps and scrolls before it handles a byte. The page it draws on is compared
with a terminal that has as many rows as it needs: the page is a window of 24 rows of it.
-/
namespace Micron.Kernel.Tty
open Function

/-- `struct tty_disp` of display 0. `buf` is the frame buffer from the start of the page
on, and `location` is what the cursor registers hold. -/
structure TtyDisp where
  buf : ℕ → UInt16
  color : UInt8
  max_x : ℕ
  max_y : ℕ
  pos_x : ℕ
  pos_y : ℕ
  location : ℕ

variable {d e : TtyDisp} {c : UInt8} {i j k n : ℕ} {v : UInt16}

def TtyDisp.draw (d : TtyDisp) (f : ℕ → UInt16) : TtyDisp := { d with buf := f }

/-- A store to the frame buffer; `none` if it misses the page. -/
def TtyDisp.poke (d : TtyDisp) (i : ℕ) (v : UInt16) : Option TtyDisp :=
  if i < d.max_x * d.max_y then some (d.draw (update d.buf i v)) else none

def ttySetcursor (d : TtyDisp) : TtyDisp := { d with location := (d.pos_x + d.pos_y * d.max_x) % 2 ^ 16 }

def blank : UInt16 := 0x0F20

def copyCells : ℕ → ℕ → ℕ → TtyDisp → Option TtyDisp
  | 0, _, _, d => some d
  | cnt + 1, dest, src, d => (d.poke dest (d.buf src)).bind (copyCells cnt (dest + 1) (src + 1))

def fillDown (dest : ℕ) (v : UInt16) : ℕ → TtyDisp → Option TtyDisp
  | 0, d => some d
  | cnt + 1, d => (d.poke (dest + cnt) v).bind (fillDown dest v cnt)

def fillUp (v : UInt16) : ℕ → ℕ → TtyDisp → Option TtyDisp
  | 0, _, d => some d
  | n + 1, i, d => (d.poke i v).bind (fillUp v n (i + 1))

def ttyScroll (d : TtyDisp) : Option TtyDisp :=
  (copyCells (d.max_x * (d.max_y - 1)) 0 d.max_x d).bind (fillDown (d.max_x * (d.max_y - 1)) blank d.max_x)

def ttyWrap (d : TtyDisp) : TtyDisp :=
  if d.pos_x ≥ d.max_x then { d with pos_x := 0, pos_y := (d.pos_y + 1) % 2 ^ 32 } else d

def ttyRoom (d : TtyDisp) : Option TtyDisp :=
  if d.pos_y ≥ d.max_y - 1 then (ttyScroll d).map (fun d => { d with pos_y := d.pos_y - 1 }) else some d

/-- The cell for a byte; `char` is signed. -/
def charCell (c color : UInt8) : UInt16 := c.toInt8.toInt16.toUInt16 ||| color.toUInt16 <<< 8

def ttyChar (c : UInt8) (d : TtyDisp) : Option TtyDisp :=
  if c = 8 then some (if d.pos_x > 0 then { d with pos_x := d.pos_x - 1 } else d)
  else if c = 13 then some (if d.pos_x > 0 then { d with pos_x := 0 } else d)
  else if c = 10 then some { d with pos_x := 0, pos_y := (d.pos_y + 1) % 2 ^ 32 }
  else if c = 9 then some { d with pos_x := (d.pos_x / 8 + 1) * 8 % 2 ^ 32 }
  else (d.poke ((d.pos_x + d.pos_y * d.max_x) % 2 ^ 32) (charCell c d.color)).map
    (fun d => { d with pos_x := (d.pos_x + 1) % 2 ^ 32 })

def ttyPut (d : TtyDisp) (c : UInt8) : Option TtyDisp :=
  ((ttyRoom (ttyWrap d)).bind (ttyChar c)).map ttySetcursor

def ttyWrite (buf : List UInt8) (d : TtyDisp) : Option TtyDisp := buf.foldlM ttyPut d

/-- Command 1 selects the page on display and leaves the page itself alone. -/
def ttyIoctl (cmd arg : Int32) (d : TtyDisp) : Option TtyDisp :=
  if cmd = 2 then some { d with color := arg.toUInt32.toUInt8 }
  else if cmd = 3 then fillUp blank (d.max_x * d.max_y) 0 d
  else if cmd = 4 then some { d with pos_x := arg.toUInt32.toNat }
  else if cmd = 5 then some { d with pos_y := arg.toUInt32.toNat }
  else some d

/-- `tty_init` up to its banner, with any video memory. -/
def ttySetup (mem : ℕ → UInt16) (location : ℕ) : Option TtyDisp :=
  ttyIoctl 3 0 ⟨mem,0x0F,80,25,0,0,location⟩

def banner : List UInt8 :=
  [84,84,89,32,68,105,115,112,108,97,121,32,114,101,97,100,121,10,10]

/-! ## The loops, cell by cell -/

theorem poke_eq (h : i < d.max_x * d.max_y) : d.poke i v = some (d.draw (update d.buf i v)) := if_pos h

/-- The source lies above the destination, so the loop reads each cell before it changes it. -/
theorem copyCells_eq {dest off : ℕ} (hoff : 0 < off) (h : dest + n ≤ d.max_x * d.max_y) :
    copyCells n dest (dest + off) d =
      some (d.draw (fun i => if dest ≤ i ∧ i < dest + n then d.buf (i + off) else d.buf i)) := by
  induction n generalizing dest d with
  | zero =>
    have hsame : (fun i => if dest ≤ i ∧ i < dest + 0 then d.buf (i + off) else d.buf i) = d.buf :=
      funext (fun i => if_neg (by omega))
    rw [hsame]
    rfl
  | succ n ih =>
    have hrest : copyCells n (dest + 1) (dest + 1 + off) (d.draw (update d.buf dest (d.buf (dest + off)))) = _ :=
      ih (by simp only [TtyDisp.draw]; omega)
    rw [copyCells,poke_eq (by omega),Option.bind_some,Nat.add_right_comm,hrest]
    simp only [TtyDisp.draw]
    congr 2
    funext i
    by_cases hi : i = dest
    · subst hi
      rw [if_neg (by omega),if_pos (by omega),update_self]
    · rw [update_of_ne hi]
      by_cases hr : dest + 1 ≤ i ∧ i < dest + 1 + n
      · rw [if_pos hr,if_pos (by omega),update_of_ne (by omega)]
      · rw [if_neg hr,if_neg (by omega)]

theorem fillDown_eq {dest : ℕ} (h : dest + n ≤ d.max_x * d.max_y) : fillDown dest v n d =
    some (d.draw (fun i => if dest ≤ i ∧ i < dest + n then v else d.buf i)) := by
  induction n generalizing d with
  | zero =>
    have hsame : (fun i => if dest ≤ i ∧ i < dest + 0 then v else d.buf i) = d.buf :=
      funext (fun i => if_neg (by omega))
    rw [hsame]
    rfl
  | succ n ih =>
    have hrest := ih (d := d.draw (update d.buf (dest + n) v)) (by simp only [TtyDisp.draw]; omega)
    rw [fillDown,poke_eq (by omega),Option.bind_some,hrest]
    simp only [TtyDisp.draw]
    congr 2
    funext i
    by_cases hi : i = dest + n
    · subst hi
      rw [if_neg (by omega),if_pos (by omega),update_self]
    · rw [update_of_ne hi]
      exact if_congr (by omega) rfl rfl

theorem fillUp_eq (h : i + n ≤ d.max_x * d.max_y) : fillUp v n i d =
    some (d.draw (fun j => if i ≤ j ∧ j < i + n then v else d.buf j)) := by
  induction n generalizing i d with
  | zero =>
    have hsame : (fun j => if i ≤ j ∧ j < i + 0 then v else d.buf j) = d.buf :=
      funext (fun j => if_neg (by omega))
    rw [hsame]
    rfl
  | succ n ih =>
    have hrest := ih (d := d.draw (update d.buf i v)) (i := i + 1) (by simp only [TtyDisp.draw]; omega)
    rw [fillUp,poke_eq (by omega),Option.bind_some,hrest]
    simp only [TtyDisp.draw]
    congr 2
    funext j
    by_cases hj : j = i
    · subst hj
      rw [if_neg (by omega),if_pos (by omega),update_self]
    · rw [update_of_ne hj]
      exact if_congr (by omega) rfl rfl

/-- Every row takes the content of the next, the last row is blank. -/
theorem ttyScroll_eq (hx : d.max_x = 80) (hy : d.max_y = 25) : ttyScroll d =
    some (d.draw (fun i => if i < 1920 then d.buf (i + 80) else if i < 2000 then blank else d.buf i)) := by
  have hcopy : copyCells 1920 0 (0 + 80) d = _ := copyCells_eq (by decide) (by rw [hx,hy]; decide)
  rw [Nat.zero_add] at hcopy
  rw [ttyScroll,hx,hy,hcopy,Option.bind_some,fillDown_eq (by simp only [TtyDisp.draw,hx,hy]; decide)]
  simp only [TtyDisp.draw]
  congr 2
  funext i
  by_cases h1 : i < 1920
  · rw [if_neg (by omega),if_pos (by omega),if_pos h1]
  · rw [if_neg h1,if_neg (show ¬ (0 ≤ i ∧ i < 0 + 1920) by omega)]
    exact if_congr (by omega) rfl rfl

/-! ## A terminal of unbounded height -/

structure Cell where
  char : UInt8
  color : UInt8
deriving DecidableEq, Repr

def Cell.code (c : Cell) : UInt16 := c.char.toUInt16 ||| c.color.toUInt16 <<< 8

def Cell.blank : Cell := ⟨0x20,0x0F⟩

structure Terminal where
  cell : ℕ → ℕ → Cell
  color : UInt8
  x : ℕ
  y : ℕ

namespace Terminal
variable {T : Terminal}

def fresh : Terminal := ⟨fun _ _ => .blank,0x0F,0,0⟩

def wrap (T : Terminal) : Terminal := if T.x < 80 then T else { T with x := 0, y := T.y + 1 }

def char (T : Terminal) (c : UInt8) : Terminal :=
  if c = 8 then { T with x := T.x - 1 }
  else if c = 13 then { T with x := 0 }
  else if c = 10 then { T with x := 0, y := T.y + 1 }
  else if c = 9 then { T with x := (T.x / 8 + 1) * 8 }
  else { T with cell := update T.cell T.y (update (T.cell T.y) T.x ⟨c,T.color⟩), x := T.x + 1 }

def put (T : Terminal) (c : UInt8) : Terminal := T.wrap.char c

end Terminal

/-! ## Runs -/

inductive Event
  | write (buf : List UInt8)
  | color (arg : Int32)

def step (d : TtyDisp) : Event → Option TtyDisp
  | .write buf => ttyWrite buf d
  | .color arg => ttyIoctl 2 arg d

def run (d : TtyDisp) (es : List Event) : Option TtyDisp := es.foldlM step d

def Terminal.step (T : Terminal) : Event → Terminal
  | .write buf => buf.foldl Terminal.put T
  | .color arg => { T with color := arg.toUInt32.toUInt8 }

def Terminal.run (T : Terminal) (es : List Event) : Terminal := es.foldl Terminal.step T

/-- The page shows the rows of the terminal from `k` on. -/
structure Window (k : ℕ) (d : TtyDisp) (T : Terminal) : Prop where
  max_x : d.max_x = 80
  max_y : d.max_y = 25
  color : d.color = T.color
  x : d.pos_x = T.x
  y : k + d.pos_y = T.y
  x_le : T.x ≤ 80
  page : ∀ i < 25, ∀ j < 80, d.buf (j + i * 80) = (T.cell (k + i) j).code
  below : ∀ i, k + 24 ≤ i → ∀ j, T.cell i j = .blank

/-! ## One byte -/

theorem blank_code : Cell.blank.code = blank := by decide

/-- A 7-bit byte has no sign to extend. -/
theorem charCell_eq (hc : c < 128) (color : UInt8) : charCell c color = (⟨c,color⟩ : Cell).code := by
  have hbyte : ∀ n : Fin 128, (UInt8.ofNat n).toInt8.toInt16.toUInt16 = (UInt8.ofNat n).toUInt16 := by
    decide +kernel
  have h := hbyte ⟨c.toNat,UInt8.lt_iff_toNat_lt.mp hc⟩
  rw [UInt8.ofNat_toNat] at h
  rw [charCell,Cell.code,h]

section Step
variable {T : Terminal}

/-- The window with the cursor on one of the shown rows, or at the start of the row below. -/
def Shown (k : ℕ) (d : TtyDisp) (T : Terminal) : Prop :=
  Window k d T ∧ (d.pos_y ≤ 23 ∨ d.pos_y = 24 ∧ d.pos_x = 0)

theorem Shown.wrap (h : Shown k d T) : Window k (ttyWrap d) T.wrap ∧ T.wrap.x < 80 ∧ (ttyWrap d).pos_y ≤ 24 := by
  obtain ⟨hw,hy⟩ := h
  have hx := hw.x
  have hxle := hw.x_le
  have hyeq := hw.y
  have hmax := hw.max_x
  rw [ttyWrap,Terminal.wrap]
  by_cases hlt : T.x < 80
  · rw [if_neg (by omega),if_pos hlt]
    exact ⟨hw,hlt,by omega⟩
  · rw [if_pos (by omega),if_neg hlt]
    refine ⟨⟨hmax,hw.max_y,hw.color,rfl,?_,Nat.zero_le _,hw.page,hw.below⟩,Nat.zero_lt_succ _,?_⟩
    · dsimp only
      omega
    · dsimp only
      omega

/-- A scroll moves the window one row down. -/
theorem Window.room (h : Window k d T) (hy : d.pos_y ≤ 24) :
    ∃ e k, ttyRoom d = some e ∧ Window k e T ∧ e.pos_y ≤ 23 := by
  have hyeq := h.y
  rw [ttyRoom,h.max_y]
  by_cases hlt : d.pos_y ≥ 25 - 1
  · rw [if_pos hlt,ttyScroll_eq h.max_x h.max_y]
    refine ⟨_,k + 1,rfl,⟨h.max_x,h.max_y,h.color,h.x,?_,h.x_le,?_,?_⟩,?_⟩
    · dsimp only [TtyDisp.draw]
      omega
    · intro i hi j hj
      dsimp only [TtyDisp.draw]
      by_cases hlast : i = 24
      · subst hlast
        rw [if_neg (by omega),if_pos (by omega),h.below _ (by omega),blank_code]
      · rw [if_pos (by omega),show j + i * 80 + 80 = j + (i + 1) * 80 by omega,h.page (i + 1) (by omega) j hj]
        congr 2
        omega
    · exact fun i hi => h.below i (by omega)
    · dsimp only [TtyDisp.draw]
      omega
  · rw [if_neg hlt]
    exact ⟨d,k,rfl,h,by omega⟩

/-- Another column within the page, on the same row. -/
theorem Window.move {x : ℕ} (h : Window k d T) (hx : x ≤ 80) (hy : d.pos_y ≤ 23) :
    Shown k { d with pos_x := x } { T with x := x } :=
  ⟨⟨h.max_x,h.max_y,h.color,rfl,h.y,hx,h.page,h.below⟩,Or.inl hy⟩

theorem Window.char (h : Window k d T) (hc : c < 128) (hx : T.x < 80) (hy : d.pos_y ≤ 23) :
    ∃ e, ttyChar c d = some e ∧ Shown k e (T.char c) := by
  have hxeq := h.x
  have hyeq := h.y
  rw [ttyChar,Terminal.char]
  by_cases hb : c = 8
  · rw [if_pos hb,if_pos hb]
    refine ⟨_,rfl,?_⟩
    split
    · rw [hxeq]
      exact h.move (by omega) hy
    · rw [show T.x - 1 = d.pos_x by omega]
      exact h.move (by omega) hy
  rw [if_neg hb,if_neg hb]
  by_cases hr : c = 13
  · rw [if_pos hr,if_pos hr]
    refine ⟨_,rfl,?_⟩
    split
    · exact h.move (by omega) hy
    · rw [show 0 = d.pos_x by omega]
      exact h.move (by omega) hy
  rw [if_neg hr,if_neg hr]
  by_cases hn : c = 10
  · rw [if_pos hn,if_pos hn]
    refine ⟨_,rfl,⟨h.max_x,h.max_y,h.color,rfl,?_,Nat.zero_le _,h.page,h.below⟩,?_⟩
    · dsimp only
      omega
    · dsimp only
      omega
  rw [if_neg hn,if_neg hn]
  by_cases ht : c = 9
  · rw [if_pos ht,if_pos ht]
    have hm := h.move (x := (T.x / 8 + 1) * 8) (by omega) hy
    rw [hxeq,Nat.mod_eq_of_lt (by omega)]
    exact ⟨_,rfl,hm⟩
  rw [if_neg ht,if_neg ht,h.max_x]
  -- a printed byte goes to a cell of a shown row
  have hcell : (d.pos_x + d.pos_y * 80) % 2 ^ 32 = T.x + d.pos_y * 80 := by omega
  rw [hcell,poke_eq (by rw [h.max_x,h.max_y]; omega),Option.map_some,charCell_eq hc]
  refine ⟨_,rfl,⟨h.max_x,h.max_y,h.color,?_,h.y,hx,?_,?_⟩,Or.inl hy⟩
  · dsimp only [TtyDisp.draw]
    omega
  · intro i hi j hj
    dsimp only [TtyDisp.draw]
    by_cases hij : i = d.pos_y ∧ j = T.x
    · obtain ⟨rfl,rfl⟩ := hij
      rw [update_self,hyeq,update_self,update_self,h.color]
    · rw [update_of_ne (by omega),h.page i hi j hj]
      congr 1
      by_cases hiy : k + i = T.y
      · rw [hiy,update_self,update_of_ne (by omega)]
      · rw [update_of_ne hiy]
  · intro i hi j
    dsimp only
    rw [update_of_ne (by omega)]
    exact h.below i hi j

/-- One byte, from any shown state. -/
theorem Shown.put (h : Shown k d T) (hc : c < 128) : ∃ e k, ttyPut d c = some e ∧ Shown k e (T.put c) := by
  obtain ⟨hw,hx,hy⟩ := h.wrap
  obtain ⟨e,k,he,hw,hy⟩ := hw.room hy
  obtain ⟨f,hf,hs⟩ := hw.char hc hx hy
  refine ⟨ttySetcursor f,k,by rw [ttyPut,he,Option.bind_some,hf,Option.map_some],?_⟩
  obtain ⟨hw,hy⟩ := hs
  exact ⟨⟨hw.max_x,hw.max_y,hw.color,hw.x,hw.y,hw.x_le,hw.page,hw.below⟩,hy⟩

theorem Shown.write {buf : List UInt8} (h : Shown k d T) (hb : ∀ c ∈ buf, c < 128) :
    ∃ e k, ttyWrite buf d = some e ∧ Shown k e (buf.foldl Terminal.put T) := by
  induction buf generalizing d T k with
  | nil => exact ⟨d,k,rfl,h⟩
  | cons c buf ih =>
    obtain ⟨e,k,he,hs⟩ := h.put (hb c List.mem_cons_self)
    obtain ⟨f,k,hf,hs⟩ := ih hs (fun c' hc' => hb c' (List.mem_cons_of_mem _ hc'))
    refine ⟨f,k,?_,hs⟩
    rw [ttyWrite,List.foldlM_cons,he]
    exact hf

end Step

/-! ## Runs show a window of the terminal -/

def Event.Ascii : Event → Prop
  | .write buf => ∀ c ∈ buf, c < 128
  | .color _ => True

theorem Shown.run {T : Terminal} {es : List Event} (h : Shown k d T) (hes : ∀ e ∈ es, e.Ascii) :
    ∃ e k, run d es = some e ∧ Shown k e (T.run es) := by
  induction es generalizing d T k with
  | nil => exact ⟨d,k,rfl,h⟩
  | cons ev es ih =>
    have hstep : ∃ e k, step d ev = some e ∧ Shown k e (T.step ev) := by
      cases ev with
      | write buf => exact h.write (hes (.write buf) List.mem_cons_self)
      | color arg =>
        obtain ⟨hw,hy⟩ := h
        exact ⟨_,k,rfl,⟨hw.max_x,hw.max_y,rfl,hw.x,hw.y,hw.x_le,hw.page,hw.below⟩,hy⟩
    obtain ⟨e,k,he,hs⟩ := hstep
    obtain ⟨f,k,hf,hs⟩ := ih hs (fun e' he' => hes e' (List.mem_cons_of_mem _ he'))
    refine ⟨f,k,?_,hs⟩
    rw [Tty.run,List.foldlM_cons,he]
    exact hf

theorem ttySetup_shown (mem : ℕ → UInt16) (location : ℕ) :
    ∃ d, ttySetup mem location = some d ∧ Shown 0 d .fresh := by
  have hfill := fillUp_eq (d := ⟨mem,0x0F,80,25,0,0,location⟩) (v := blank) (i := 0) (n := 2000) (Nat.le_refl 2000)
  refine ⟨_,hfill,⟨rfl,rfl,rfl,rfl,rfl,Nat.zero_le _,?_,fun _ _ _ => rfl⟩,Or.inl (Nat.zero_le _)⟩
  intro i hi j hj
  exact (if_pos (by omega)).trans blank_code.symm

/-- From the display that `tty_init` sets up, any run of writes and colour changes stays
inside the page, and the page shows 24 consecutive rows of the unbounded terminal with
the cursor on its place. -/
theorem console_shows_window (mem : ℕ → UInt16) (location : ℕ) (es : List Event) (hes : ∀ e ∈ es, e.Ascii) :
    ∃ d k, (ttySetup mem location).bind (fun d => run d es) = some d ∧
      (∀ i < 24, ∀ j < 80, d.buf (j + i * 80) = ((Terminal.fresh.run es).cell (k + i) j).code) ∧
      d.pos_x = (Terminal.fresh.run es).x ∧ k + d.pos_y = (Terminal.fresh.run es).y := by
  obtain ⟨d,hd,hs⟩ := ttySetup_shown mem location
  obtain ⟨e,k,he,hw,-⟩ := hs.run hes
  refine ⟨e,k,by rw [hd,Option.bind_some,he],fun i hi => hw.page i (Nat.lt_succ_of_lt hi),hw.x,hw.y⟩

/-- The banner, then a colour change and more text. -/
theorem console_shows_banner :
    (∀ e ∈ [Event.write banner,.color 0x1E,.write [104,105,9,33]], e.Ascii) ∧
    ∃ d k, (ttySetup (fun _ => 0) 0).bind
        (fun d => run d [.write banner,.color 0x1E,.write [104,105,9,33]]) = some d ∧
      (∀ i < 24, ∀ j < 80, d.buf (j + i * 80) =
        ((Terminal.fresh.run [.write banner,.color 0x1E,.write [104,105,9,33]]).cell (k + i) j).code) ∧
      d.pos_x = (Terminal.fresh.run [.write banner,.color 0x1E,.write [104,105,9,33]]).x ∧
      k + d.pos_y = (Terminal.fresh.run [.write banner,.color 0x1E,.write [104,105,9,33]]).y := by
  have hes : ∀ e ∈ [Event.write banner,.color 0x1E,.write [104,105,9,33]], e.Ascii := by
    simp only [List.forall_mem_cons,Event.Ascii]
    exact ⟨by decide +kernel,trivial,by decide +kernel,fun _ h => absurd h List.not_mem_nil⟩
  exact ⟨hes,console_shows_window _ _ _ hes⟩

end Micron.Kernel.Tty

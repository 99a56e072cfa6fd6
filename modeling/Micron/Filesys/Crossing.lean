import Micron.Filesys.Mount

/-! # Crossing mount points

`vget` has two copies of its search for a child. The one for inner components asks the
mount table about every child it passes, before it looks at the name; the one for the
last component never asks. Both are compared with the rule that the child with the name
is found first and then crossed if a file system is mounted on it.
-/
namespace Micron.Filesys
open Function Bytes Kernel Prog
variable {E : Env} {s t : State} {p q : VPtr} {name : List UInt8} {l : List ℕ} {fuel i j : ℕ}

def ChildList (s : State) : VPtr → List ℕ → Prop
  | p, [] => p = .null
  | p, j :: l => p = .vc j ∧ ChildList s (s.vnode (.vc j)).next l

/-- The slot that `mountab_seek` finds for a vnode, in use or not. -/
def hostSlot (s : State) (j : ℕ) : Option ℕ :=
  (List.range NVFSMNTS).find? (fun i => (s.mountab i).hdev = (s.vnode (.vc j)).dev ∧ (s.mountab i).hino = (s.vnode (.vc j)).ino)

def liveSlot (s : State) (j : ℕ) : Option ℕ :=
  (List.range NVFSMNTS).find? (fun i => (s.mountab i).stat ∧ (s.mountab i).hdev = (s.vnode (.vc j)).dev ∧
    (s.mountab i).hino = (s.vnode (.vc j)).ino)

def named (s : State) (name : List UInt8) (j : ℕ) : Bool := decide ((s.vnode (.vc j)).str = name)

/-- The slot of the first child that the search for an inner component takes for a mount
point. -/
def capture (s : State) (name : List UInt8) : List ℕ → Option ℕ
  | [] => none
  | j :: l => match hostSlot s j with
    | some i => some i
    | none => if named s name j then none else capture s name l

def reached (cross : Bool) (s : State) (name : List UInt8) (l : List ℕ) : VPtr :=
  match if cross then capture s name l else none with
  | some i => .root i
  | none => match l.find? (named s name) with
    | none => .null
    | some j => .vc j

theorem seekName_cons {cross : Bool} : (seekName cross name (fuel + 1) (.vc j)).run s =
    match if cross then hostSlot s j else none with
    | some i => (.ok (.root i),s)
    | none => if named s name j then (.ok (.vc j),s) else (seekName cross name fuel (s.vnode (.vc j)).next).run s := by
  have hname : (if (s.vnode (.vc j)).str = name then pure (.vc j)
      else seekName cross name fuel (s.vnode (.vc j)).next).run s =
      if named s name j then (.ok (.vc j),s) else (seekName cross name fuel (s.vnode (.vc j)).next).run s := by
    by_cases hn : (s.vnode (.vc j)).str = name
    · rw [if_pos hn,named,decide_eq_true hn]
      rfl
    · rw [if_neg hn,named,decide_eq_false hn]
      rfl
  rw [seekName,run_bind (show (vnode (.vc j)).run s = (.ok (s.vnode (.vc j)),s) from rfl)]
  · cases cross with
    | false => exact hname
    | true =>
      have hseek : (mountabSeek (s.vnode (.vc j)).dev (s.vnode (.vc j)).ino).run s = (.ok (hostSlot s j),s) := rfl
      simp only [if_true]
      rw [run_bind hseek]
      cases hostSlot s j with
      | some i => rfl
      | none => exact hname
  · exact VPtr.noConfusion

theorem seekName_run (cross : Bool) (h : ChildList s p l) (hf : l.length ≤ fuel) :
    (seekName cross name fuel p).run s = (.ok (reached cross s name l),s) := by
  induction l generalizing p fuel with
  | nil =>
    obtain rfl : p = .null := h
    cases cross <;> cases fuel <;> rfl
  | cons j l ih =>
    obtain ⟨rfl,hl⟩ := h
    obtain ⟨fuel,rfl⟩ := Nat.exists_eq_add_one.mpr (Nat.lt_of_lt_of_le (Nat.zero_lt_succ _) hf)
    rw [seekName_cons,ih hl (Nat.le_of_succ_le_succ hf)]
    cases hn : named s name j with
    | true => cases cross <;> cases hs : hostSlot s j <;> simp [reached,capture,hs,hn]
    | false => cases cross <;> cases hs : hostSlot s j <;> simp [reached,capture,hs,hn]

/-! ## When the search follows the rule -/

/-- Whether the search keeps to the rule in this list. An inner component: the slot that
captures the walk, if there is one, is the file system mounted on the child with the name.
The last component: nothing is mounted on the child with the name. -/
def Fits (cross : Bool) (s : State) (name : List UInt8) (l : List ℕ) : Prop :=
  if cross then ∀ i, capture s name l = some i → ∃ j, l.find? (named s name) = some j ∧ liveSlot s j = some i
  else ∀ j, l.find? (named s name) = some j → liveSlot s j = none

end Micron.Filesys

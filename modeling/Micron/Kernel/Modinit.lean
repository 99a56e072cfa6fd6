import Mathlib.Data.List.Range

/-! # Starting the modules

`modinit` walks over the table that the linker has collected from the modules once for each type,
so that drivers are started before file systems, those before protocols, and services last. A
module that cannot be started is stopped at once.
-/
namespace Micron.Kernel.Modinit

structure Modtab where
  type : Int8
  desc : List UInt8
  init : UInt32
  exit : UInt32

def SRV : ℕ := 3

def modStr : List String := ["DRIVER ","FILESYS","PROTOCO","SERVICE"]

inductive Out
  /-- `"%C[%s]%C "` -/
  | head (kind : String)
  /-- `"%s Initializing..."` or `"%s Unitialized..."` -/
  | doing (desc : List UInt8) (what : String)
  /-- `"%X%C[SUCCESS]%C\n"` or `"%X%C[FAILURE]%C\n"`, from column 68 on -/
  | verdict (colour : UInt8) (text : String)
  /-- `modhdl` has been called for an entry of the table, and what it returned -/
  | called (i : ℕ) (exit : Bool) (r : Int32)

def judged (r : Int32) : Out := if r = 0 then .verdict 0x0A "[SUCCESS]" else .verdict 0x0C "[FAILURE]"

structure State (ω : Type) where
  world : ω
  out : List Out

section
variable {ω : Type} (call : UInt32 → ω → Int32 × ω) (tab : ℕ → Modtab)

def invoke (type i : ℕ) (exit : Bool) (s : State ω) : Int32 × State ω :=
  let (r,w) := call (if exit then (tab i).exit else (tab i).init) s.world
  (r,⟨w,s.out ++ [.head (modStr.getD type ""),.doing (tab i).desc (if exit then "Unitialized..." else "Initializing..."),
    .called i exit r,judged r]⟩)

def start (type i : ℕ) (s : State ω) : State ω :=
  let (r,s) := invoke call tab type i false s
  if r = 0 then s else (invoke call tab type i true s).2

/-- The loop over the table, of which `n` entries begin below `modtab_end`. What stands behind
them is looked at, too. -/
def typeLoop (n type : ℕ) : ℕ → ℕ → State ω → Option (State ω)
  | 0, _, _ => none
  | fuel + 1, i, s =>
    if (tab i).init ≠ 0 ∧ i < n then
      if (tab i).type.toInt ≠ type then typeLoop n type fuel (i + 1) s
      else typeLoop n type fuel (i + 1) (start call tab type i s)
    else some s

/-- From `next_mod` on, with at most `k` more types. -/
def nextMod (n fuel : ℕ) : ℕ → ℕ → State ω → Option (State ω)
  | 0, _, _ => none
  | k + 1, type, s => do
    let s ← typeLoop call tab n type fuel 0 s
    if type ≠ SRV then nextMod n fuel k (type + 1) s else some s

def modinit (n fuel : ℕ) (s : State ω) : Option (State ω) := nextMod call tab n fuel 4 0 s

/-! ## The order -/

def ofType (k type : ℕ) : List ℕ := (List.range k).filter fun i => (tab i).type.toInt = type

def order (k : ℕ) : List (ℕ × ℕ) := (List.range 4).flatMap fun type => (ofType tab k type).map (type,·)

structure Scanned (n k : ℕ) : Prop where
  le : k ≤ n
  live : ∀ i < k, (tab i).init ≠ 0
  ends : k < n → (tab k).init = 0

theorem scanned_exists (n : ℕ) : ∃ k, Scanned tab n k := by
  induction n with
  | zero => exact ⟨0,Nat.le_refl 0,fun i h => absurd h (Nat.not_lt_zero i),fun h => absurd h (Nat.not_lt_zero 0)⟩
  | succ n ih =>
    obtain ⟨k,hle,hlive,hends⟩ := ih
    obtain hlt | rfl := Nat.lt_or_eq_of_le hle
    · exact ⟨k,Nat.le_succ_of_le hle,hlive,fun _ => hends hlt⟩
    · by_cases h0 : (tab k).init = 0
      · exact ⟨k,Nat.le_succ k,hlive,fun _ => h0⟩
      · refine ⟨k + 1,Nat.le_refl _,fun i hi => ?_,fun h => absurd h (Nat.lt_irrefl _)⟩
        obtain hi | rfl := Nat.lt_or_eq_of_le (Nat.le_of_lt_succ hi)
        · exact hlive i hi
        · exact h0

variable {tab} {n k : ℕ}

theorem mem_ofType {type i : ℕ} : i ∈ ofType tab k type ↔ i < k ∧ (tab i).type.toInt = type := by
  rw [ofType,List.mem_filter,List.mem_range,decide_eq_true_iff]

theorem mem_order {x : ℕ × ℕ} : x ∈ order tab k ↔ x.1 < 4 ∧ x.2 < k ∧ (tab x.2).type.toInt = x.1 := by
  obtain ⟨type,i⟩ := x
  simp only [order,List.mem_flatMap,List.mem_range,List.mem_map,mem_ofType]
  constructor
  · rintro ⟨t,ht,j,hj,hx⟩
    cases hx
    exact ⟨ht,hj⟩
  · rintro ⟨ht,hi⟩
    exact ⟨type,ht,i,hi,rfl⟩

theorem order_pairwise : (order tab k).Pairwise fun x y => x.1 < y.1 ∨ x.1 = y.1 ∧ x.2 < y.2 := by
  rw [order,List.pairwise_flatMap]
  constructor
  · intro type _
    apply List.pairwise_map.mpr
    apply (List.pairwise_lt_range.filter _).imp
    intro i j hij
    exact .inr ⟨rfl,hij⟩
  · apply List.pairwise_lt_range.imp
    intro t u htu x hx y hy
    obtain ⟨i,-,rfl⟩ := List.mem_map.mp hx
    obtain ⟨j,-,rfl⟩ := List.mem_map.mp hy
    exact .inl htu

/-! ## The loops -/

theorem typeLoop_spec (h : Scanned tab n k) (type : ℕ) {d i fuel : ℕ} (hd : i + d = k) (hf : d < fuel) (s : State ω) :
    typeLoop call tab n type fuel i s =
      some (((List.range' i d).filter fun i => (tab i).type.toInt = type).foldl (fun s i => start call tab type i s) s) := by
  induction d generalizing i fuel s with
  | zero =>
    obtain ⟨fuel,rfl⟩ := Nat.exists_eq_succ_of_ne_zero (Nat.ne_of_gt hf)
    rw [typeLoop,if_neg]
    · rfl
    · rintro ⟨hne,hlt⟩
      have hik : i = k := hd
      exact hne (hik ▸ h.ends (hik ▸ hlt))
  | succ d ih =>
    obtain ⟨fuel,rfl⟩ := Nat.exists_eq_succ_of_ne_zero (Nat.ne_of_gt (Nat.zero_lt_of_lt hf))
    have hle := h.le
    have hnext := ih (show i + 1 + d = k by omega) (show d < fuel by omega)
    rw [typeLoop,if_pos ⟨h.live i (by omega),by omega⟩,List.range'_succ,List.filter_cons]
    by_cases ht : (tab i).type.toInt = type
    · rw [if_neg (not_not_intro ht),if_pos (decide_eq_true ht)]
      exact hnext _
    · rw [if_pos ht,if_neg (by rw [decide_eq_true_iff]; exact ht)]
      exact hnext s

theorem typeLoop_ofType (h : Scanned tab n k) (type fuel : ℕ) (s : State ω) :
    typeLoop call tab n type (n + 1 + fuel) 0 s = some ((ofType tab k type).foldl (fun s i => start call tab type i s) s) := by
  have hle := h.le
  rw [ofType,List.range_eq_range']
  apply typeLoop_spec call h type
  · exact Nat.zero_add k
  · omega

theorem nextMod_spec (h : Scanned tab n k) (fuel : ℕ) {d type : ℕ} (hd : type + d = SRV) (s : State ω) :
    nextMod call tab n (n + 1 + fuel) (d + 1) type s =
      some (((List.range' type (d + 1)).flatMap fun type => (ofType tab k type).map (type,·)).foldl
        (fun s x => start call tab x.1 x.2 s) s) := by
  induction d generalizing type s with
  | zero =>
    rw [nextMod,typeLoop_ofType call h,Option.bind_eq_bind,Option.bind_some,if_neg (not_not_intro (Nat.add_zero type ▸ hd))]
    simp only [Nat.zero_add,List.range'_one,List.flatMap_singleton,List.foldl_map]
  | succ d ih =>
    have hne : type ≠ SRV := by omega
    rw [nextMod,typeLoop_ofType call h,Option.bind_eq_bind,Option.bind_some,if_pos hne,ih (by omega)]
    rw [List.range'_succ (n := d + 1),List.flatMap_cons,List.foldl_append,List.foldl_map]

theorem modinit_order (h : Scanned tab n k) (fuel : ℕ) (s : State ω) :
    modinit call tab n (n + 1 + fuel) s = some ((order tab k).foldl (fun s x => start call tab x.1 x.2 s) s) := by
  rw [modinit,order,List.range_eq_range']
  exact nextMod_spec call h fuel rfl s

/-! ## The calls -/

def Out.call? : Out → Option (ℕ × Bool × Int32)
  | .called i exit r => some (i,exit,r)
  | _ => none

theorem judged_call (r : Int32) : [judged r].filterMap Out.call? = [] := by
  rw [judged]
  split <;> rfl

variable (tab)

def attempt (i : ℕ) (w : ω) : List (ℕ × Bool × Int32) × ω :=
  let (r,w) := call (tab i).init w
  if r = 0 then ([(i,false,r)],w)
  else
    let (q,w) := call (tab i).exit w
    ([(i,false,r),(i,true,q)],w)

def attempts : List ℕ → ω → List (ℕ × Bool × Int32) × ω
  | [], w => ([],w)
  | i :: l, w =>
    let (c,w) := attempt call tab i w
    let (cs,w) := attempts l w
    (c ++ cs,w)

theorem invoke_calls (type i : ℕ) (exit : Bool) (s : State ω) :
    (invoke call tab type i exit s).2.out.filterMap Out.call? =
      s.out.filterMap Out.call? ++ [(i,exit,(invoke call tab type i exit s).1)] := by
  rw [invoke,List.filterMap_append]
  exact congrArg (fun l => s.out.filterMap Out.call? ++ (i,exit,_) :: l) (judged_call _)

theorem start_attempt (type i : ℕ) (s : State ω) :
    (start call tab type i s).out.filterMap Out.call? = s.out.filterMap Out.call? ++ (attempt call tab i s.world).1 ∧
    (start call tab type i s).world = (attempt call tab i s.world).2 := by
  have hinit := invoke_calls call tab type i false s
  have hexit := invoke_calls call tab type i true (invoke call tab type i false s).2
  have hr : (invoke call tab type i false s).1 = (call (tab i).init s.world).1 := rfl
  rw [start,attempt]
  dsimp only
  rw [hr]
  split
  · exact ⟨hinit,rfl⟩
  · constructor
    · rw [hexit,hinit,List.append_assoc]
      rfl
    · rfl

theorem foldl_attempts (l : List (ℕ × ℕ)) (s : State ω) :
    let s' := l.foldl (fun s x => start call tab x.1 x.2 s) s
    s'.out.filterMap Out.call? = s.out.filterMap Out.call? ++ (attempts call tab (l.map Prod.snd) s.world).1 ∧
    s'.world = (attempts call tab (l.map Prod.snd) s.world).2 := by
  induction l generalizing s with
  | nil => exact ⟨(List.append_nil _).symm,rfl⟩
  | cons x l ih =>
    obtain ⟨hout,hworld⟩ := start_attempt call tab x.1 x.2 s
    obtain ⟨hcalls,hend⟩ := ih (start call tab x.1 x.2 s)
    rw [hworld] at hcalls hend
    constructor
    · refine hcalls.trans ?_
      rw [hout,List.append_assoc]
      rfl
    · exact hend

/-- Whatever stands in the table: `modinit` comes back, after it has started the modules of the four
types up to the first entry without an `init`, each once, by types and within a type as they
stand in the table. It has called `exit` right behind each `init` that failed, and nothing else. -/
theorem modules_started (n : ℕ) (s : State ω) : ∃ k l s', Scanned tab n k ∧
    (∀ fuel, modinit call tab n (n + 1 + fuel) s = some s') ∧
    (∀ i, i ∈ l ↔ i < k ∧ 0 ≤ (tab i).type.toInt ∧ (tab i).type.toInt ≤ 3) ∧
    l.Pairwise (fun i j => (tab i).type.toInt < (tab j).type.toInt ∨ (tab i).type = (tab j).type ∧ i < j) ∧
    s'.out.filterMap Out.call? = s.out.filterMap Out.call? ++ (attempts call tab l s.world).1 ∧
    s'.world = (attempts call tab l s.world).2 := by
  obtain ⟨k,h⟩ := scanned_exists tab n
  refine ⟨k,(order tab k).map Prod.snd,_,h,fun fuel => modinit_order call h fuel s,fun i => ?_,?_,foldl_attempts call tab _ s⟩
  · rw [List.mem_map]
    constructor
    · rintro ⟨x,hx,rfl⟩
      obtain ⟨ht,hk,htype⟩ := mem_order.mp hx
      exact ⟨hk,by omega,by omega⟩
    · rintro ⟨hk,h0,h3⟩
      exact ⟨((tab i).type.toInt.toNat,i),mem_order.mpr ⟨by dsimp only; omega,hk,by dsimp only; omega⟩,rfl⟩
  · apply List.pairwise_map.mpr
    apply order_pairwise.imp_of_mem
    intro x y hx hy hxy
    obtain ⟨-,-,htx⟩ := mem_order.mp hx
    obtain ⟨-,-,hty⟩ := mem_order.mp hy
    obtain hlt | ⟨heq,hlt⟩ := hxy
    · exact .inl (by omega)
    · exact .inr ⟨Int8.toInt_inj.mp (by omega),hlt⟩

end
end Micron.Kernel.Modinit

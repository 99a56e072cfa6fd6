import Mathlib.Data.List.Basic
import Mathlib.Data.List.Find
import Mathlib.Data.List.Induction
import Mathlib.Data.List.Pairwise
import Mathlib.Data.Nat.Notation

/-! # Names in a directory graph

Every node has a list of children and a name. A path is resolved by taking at each level
the first child with the next name. Where every node has one parent at most, no other path
leads there, and a new leaf adds one path.
-/
namespace Micron.Names
variable {ν κ : Type} [DecidableEq κ] {kids : ν → List ν} {name : ν → κ}

def child (kids : ν → List ν) (name : ν → κ) (n : ν) (c : κ) : Option ν := (kids n).find? (fun m => name m = c)

def resolve (kids : ν → List ν) (name : ν → κ) : ν → List κ → Option ν
  | n, [] => some n
  | n, c :: cs => (child kids name n c).bind (fun m => resolve kids name m cs)

theorem resolve_append (n : ν) (cs : List κ) (c : κ) :
    resolve kids name n (cs ++ [c]) = (resolve kids name n cs).bind (fun m => child kids name m c) := by
  induction cs generalizing n with
  | nil => cases h : child kids name n c <;> simp [resolve,h]
  | cons d cs ih =>
    simp only [List.cons_append,resolve]
    cases child kids name n d with
    | none => rfl
    | some m => exact ih m

/-! ## Trees -/

/-- The nodes with `P` form a tree below `r`. -/
structure Treelike (kids : ν → List ν) (P : ν → Prop) (r : ν) : Prop where
  root : P r
  closed : ∀ n, P n → ∀ m ∈ kids n, P m ∧ m ≠ r
  parent : ∀ n n' m, P n → P n' → m ∈ kids n → m ∈ kids n' → n = n'

section Treelike
variable {P : ν → Prop} {r m : ν} {cs cs' : List κ} (h : Treelike kids P r)
include h

theorem Treelike.resolve_mem (hm : resolve kids name r cs = some m) : P m := by
  induction cs using List.reverseRecOn generalizing m with
  | nil => exact Option.some.inj hm ▸ h.root
  | append_singleton cs c ih =>
    rw [resolve_append] at hm
    obtain ⟨n,hn,hm⟩ := Option.bind_eq_some_iff.mp hm
    exact (h.closed n (ih hn) m (List.mem_of_find?_eq_some hm)).1

/-- Only the names of children matter. -/
theorem Treelike.resolve_congr {name' : ν → κ} (hname : ∀ n, P n → ∀ m ∈ kids n, name' m = name m) (cs : List κ) :
    resolve kids name' r cs = resolve kids name r cs := by
  induction cs using List.reverseRecOn with
  | nil => rfl
  | append_singleton cs c ih =>
    rw [resolve_append,resolve_append,ih]
    refine Option.bind_congr (fun n hn => ?_)
    exact List.find?_congr (fun m hm => by rw [hname n (h.resolve_mem hn) m hm])

/-- The last step of a path to `m`. -/
theorem Treelike.resolve_last {c : κ} (hm : resolve kids name r (cs ++ [c]) = some m) :
    ∃ n, resolve kids name r cs = some n ∧ P n ∧ m ∈ kids n ∧ name m = c := by
  rw [resolve_append] at hm
  obtain ⟨n,hn,hm⟩ := Option.bind_eq_some_iff.mp hm
  exact ⟨n,hn,h.resolve_mem hn,List.mem_of_find?_eq_some hm,by simpa using List.find?_some hm⟩

/-- Only one path leads to a node. -/
theorem Treelike.resolve_inj (hm : resolve kids name r cs = some m) (hm' : resolve kids name r cs' = some m) :
    cs = cs' := by
  induction cs using List.reverseRecOn generalizing m cs' with
  | nil =>
    obtain rfl : r = m := Option.some.inj hm
    rcases List.eq_nil_or_concat' cs' with rfl | ⟨cs',c,rfl⟩
    · rfl
    · obtain ⟨n,-,hn,hmem,-⟩ := h.resolve_last hm'
      exact absurd rfl (h.closed n hn r hmem).2
  | append_singleton cs c ih =>
    obtain ⟨n,hcs,hn,hmem,rfl⟩ := h.resolve_last hm
    rcases List.eq_nil_or_concat' cs' with rfl | ⟨cs',c',rfl⟩
    · obtain rfl : r = m := Option.some.inj hm'
      exact absurd rfl (h.closed n hn r hmem).2
    · obtain ⟨n',hcs',hn',hmem',rfl⟩ := h.resolve_last hm'
      obtain rfl := h.parent n n' m hn hn' hmem hmem'
      rw [ih hcs hcs']

end Treelike

structure Grafted (kids : ν → List ν) (name : ν → κ) (P : ν → Prop) (kids' : ν → List ν) (name' : ν → κ) (d m : ν)
    (c : κ) : Prop where
  parent : kids' d = m :: kids d
  leaf : kids' m = []
  name_leaf : name' m = c
  kids_eq : ∀ n, P n → n ≠ d → kids' n = kids n
  name_eq : ∀ n, P n → ∀ k ∈ kids n, name' k = name k

section Grafted
variable [DecidableEq ν] {P : ν → Prop} {r d m : ν} {c : κ} {dirs cs : List κ} {kids' : ν → List ν} {name' : ν → κ}

theorem Grafted.child (hg : Grafted kids name P kids' name' d m c) {n : ν} (hn : P n) (x : κ) :
    child kids' name' n x = if n = d ∧ x = c then some m else child kids name n x := by
  have hfind : (kids n).find? (fun k => name' k = x) = (kids n).find? (fun k => name k = x) :=
    List.find?_congr (fun k hk => by rw [hg.name_eq n hn k hk])
  by_cases hd : n = d
  · subst hd
    rw [Names.child,hg.parent,List.find?_cons,hg.name_leaf,hfind]
    by_cases hx : x = c
    · simp [hx]
    · simp [hx,Ne.symm hx,Names.child]
  · rw [if_neg (fun he => hd he.1),Names.child,hg.kids_eq n hn hd]
    exact hfind

/-- The path to the leaf is the only new one. -/
theorem Grafted.resolve (h : Treelike kids P r) (hg : Grafted kids name P kids' name' d m c)
    (hd : Names.resolve kids name r dirs = some d) (hc : Names.child kids name d c = none) :
    Names.resolve kids' name' r cs = if cs = dirs ++ [c] then some m else Names.resolve kids name r cs := by
  induction cs using List.reverseRecOn with
  | nil => rw [if_neg (by simp)]; rfl
  | append_singleton cs x ih =>
    rw [resolve_append,ih]
    by_cases hcs : cs = dirs ++ [c]
    · -- nothing is below the leaf, and there was nothing below its path before
      have hlong : cs ++ [x] ≠ dirs ++ [c] := by
        rw [hcs]
        simp
      have hold : Names.resolve kids name r (cs ++ [x]) = none := by
        rw [resolve_append,hcs,resolve_append,hd,Option.bind_some,hc]
        rfl
      rw [if_pos hcs,if_neg hlong,hold,Option.bind_some,Names.child,hg.leaf]
      rfl
    · rw [if_neg hcs,resolve_append]
      cases hn : Names.resolve kids name r cs with
      | none =>
        have hne : cs ++ [x] ≠ dirs ++ [c] := by
          intro he
          rw [(List.append_inj' he rfl).1,hd] at hn
          cases hn
        rw [if_neg hne]
        rfl
      | some n =>
        have hiff : (n = d ∧ x = c) ↔ cs ++ [x] = dirs ++ [c] := by
          constructor
          · rintro ⟨rfl,rfl⟩
            rw [h.resolve_inj hn hd]
          · intro he
            obtain ⟨rfl,hx⟩ := List.append_inj' he rfl
            exact ⟨Option.some.inj (hn.symm.trans hd),List.singleton_inj.mp hx⟩
        rw [Option.bind_some,Option.bind_some,hg.child (h.resolve_mem hn)]
        exact if_congr hiff rfl rfl

/-- Without the leaf, the paths to other nodes are still there. -/
theorem Grafted.resolve_of_ne (h : Treelike kids P r) (hg : Grafted kids name P kids' name' d m c) {n : ν}
    (hn : Names.resolve kids' name' r cs = some n) (hne : n ≠ m) : Names.resolve kids name r cs = some n := by
  induction cs using List.reverseRecOn generalizing n with
  | nil => exact hn
  | append_singleton cs x ih =>
    rw [resolve_append] at hn ⊢
    obtain ⟨q,hq,hx⟩ := Option.bind_eq_some_iff.mp hn
    have hqm : q ≠ m := by
      rintro rfl
      rw [Names.child,hg.leaf] at hx
      cases hx
    have hres := ih hq hqm
    rw [hres,Option.bind_some]
    rw [hg.child (h.resolve_mem hres)] at hx
    split at hx
    · exact absurd (Option.some.inj hx).symm hne
    · exact hx

end Grafted

end Micron.Names

import Mathlib.Data.List.Perm.Subperm
import Micron.Mkmfs.Pack

/-! # Lookup of paths in the image builder

`mfs_iget` ends an unsuccessful search at index 0, compares the name of the root with the
component it did not find, and uses the result -1 as the index for the next one. The
lookup is compared with the descent from inode 0 by the names of children.
-/
namespace Micron.Mkmfs
open Linked
variable {im : Image} {used : ℕ → Prop} {L : ℕ → List ℕ} {k p q : ℕ} {c : List UInt8} {comps : List (List UInt8)}

/-- The used records are in the table, the root is one of them, and the children of `n` are
`L n`, all of them used and each of them once. -/
structure Treelike (im : Image) (used : ℕ → Prop) (L : ℕ → List ℕ) : Prop where
  root : used 0
  lt : ∀ n, used n → n < NINODE
  children : ∀ n, used n → im.Children n (L n)
  sub : ∀ n, used n → ∀ i ∈ L n, used i
  nodup : ∀ n, used n → (L n).Nodup

theorem WellFormed.treelike (h : WellFormed im k) (hk : k < NINODE) : ∃ L, Treelike im (· ≤ k) L := by
  obtain ⟨L,hL,-⟩ := h.lists
  exact ⟨L,Nat.zero_le k,fun n hn => Nat.lt_of_le_of_lt hn hk,fun n hn => (hL n hn).1,
    fun n hn i hi => ((hL n hn).2.2 i hi).2,fun n hn => (hL n hn).2.1⟩

theorem packdir_treelike (clock : ℕ → UInt32) {root : List UInt8} {d : Dir} (h : d.Packable root)
    (hroot : root.length + 1 < 512) (hfit : d.PathsFit (root.length + 1)) :
    ∃ im L, packdir clock root d mfsNew = .ok im ∧ Treelike im (· ≤ d.count) L := by
  obtain ⟨im,hp,hw,-⟩ := packdir_mirrors clock h hroot hfit
  obtain ⟨L,hL⟩ := hw.treelike (Nat.lt_succ_of_le h.count)
  exact ⟨im,L,hp,hL⟩

def descend (im : Image) (L : ℕ → List ℕ) : ℕ → List (List UInt8) → Option ℕ
  | p, [] => some p
  | p, c :: cs =>
    match (L p).find? (fun i => (im.iblk i).str = c) with
    | some i => descend im L i cs
    | none => none

/-- The path from `p` ends with its first missing component; after a missing one that is
the name of the root, this is asked of the rest from the root on. -/
def endsMissing (im : Image) (L : ℕ → List ℕ) : ℕ → List (List UInt8) → Bool
  | _, [] => false
  | p, c :: cs =>
    match (L p).find? (fun i => (im.iblk i).str = c) with
    | some i => endsMissing im L i cs
    | none => if (im.iblk 0).str = c then endsMissing im L 0 cs else cs.isEmpty

theorem length_le_of_nodup {l : List ℕ} {n : ℕ} (hd : l.Nodup) (hl : ∀ i ∈ l, i < n) : l.length ≤ n := by
  have hsub : l ⊆ List.range n := fun i hi => List.mem_range.mpr (hl i hi)
  simpa using (List.Nodup.subperm hd hsub).length_le

section Lookup
variable (h : Treelike im used L)
include h

theorem Treelike.igetStep (hp : used p) (c : List UInt8) :
    igetStep im (some p) c = .ok (match (L p).find? (fun i => (im.iblk i).str = c) with
      | some i => some i
      | none => if (im.iblk 0).str = c then some 0 else none) := by
  have hlt : ∀ i ∈ L p, i < NINODE := fun i hi => h.lt i (h.sub p hp i hi)
  exact igetStep_eq (h.children p hp) hlt (length_le_of_nodup (h.nodup p hp) hlt)

theorem Treelike.found (hp : used p) (hf : (L p).find? (fun i => (im.iblk i).str = c) = some q) :
    Mkmfs.igetStep im (some p) c = .ok (some q) ∧ used q := by
  rw [h.igetStep hp,hf]
  exact ⟨rfl,h.sub p hp q (List.mem_of_find?_eq_some hf)⟩

/-- A path that exists is followed. -/
theorem Treelike.iget_some (hp : used p) (hd : descend im L p comps = some q) :
    comps.foldlM (Mkmfs.igetStep im) (some p) = .ok (some q) := by
  induction comps generalizing p with
  | nil =>
    obtain rfl : p = q := Option.some.inj hd
    rfl
  | cons c cs ih =>
    rw [descend] at hd
    cases hf : (L p).find? (fun i => (im.iblk i).str = c) with
    | none =>
      rw [hf] at hd
      cases hd
    | some i =>
      rw [hf] at hd
      obtain ⟨hstep,hi⟩ := h.found hp hf
      rw [List.foldlM_cons,hstep]
      exact ih hi hd

omit h in
theorem iget_none (cs : List (List UInt8)) : cs.foldlM (igetStep im) none = .ok none ↔ cs = [] := by
  cases cs with
  | nil => exact iff_of_true rfl rfl
  | cons c cs => exact iff_of_false (fun he => nomatch he) (List.cons_ne_nil c cs)

/-- The result -1. -/
theorem Treelike.iget_none_iff (hp : used p) :
    comps.foldlM (Mkmfs.igetStep im) (some p) = .ok none ↔ endsMissing im L p comps := by
  induction comps generalizing p with
  | nil => exact iff_of_false (fun he => nomatch he) (fun he => nomatch he)
  | cons c cs ih =>
    rw [endsMissing,List.foldlM_cons]
    cases hf : (L p).find? (fun i => (im.iblk i).str = c) with
    | some i =>
      obtain ⟨hstep,hi⟩ := h.found hp hf
      rw [hstep]
      exact ih hi
    | none =>
      rw [h.igetStep hp,hf]
      dsimp only
      by_cases hroot : (im.iblk 0).str = c
      · rw [if_pos hroot,if_pos hroot]
        exact ih h.root
      · rw [if_neg hroot,if_neg hroot]
        exact (iget_none cs).trans List.isEmpty_iff.symm

end Lookup

/-- In every tree and for every path, with or without a final slash, the lookup gives the
inode that the names of children lead to, or -1 where they lead to none, exactly if the path
exists or ends with its first missing component. -/
theorem iget_exact_iff (im : Image) (used : ℕ → Prop) (L : ℕ → List ℕ) (h : Treelike im used L)
    (comps : List (List UInt8)) (tail : List UInt8) (hc : ∀ c ∈ comps, c ≠ [] ∧ slash ∉ c) (hlen : comps.length ≤ 128)
    (ht : tail = [] ∨ tail = [slash]) :
    mfsIget im (joined comps ++ tail) = .ok (descend im L 0 comps) ↔
      (descend im L 0 comps).isSome ∨ endsMissing im L 0 comps := by
  rw [mfsIget,pathents_joined hc ht,if_neg (Nat.not_lt.mpr hlen)]
  cases hd : descend im L 0 comps with
  | some q => exact iff_of_true (h.iget_some h.root hd) (Or.inl rfl)
  | none =>
    rw [h.iget_none_iff h.root]
    exact ⟨Or.inr,fun hor => hor.resolve_left (by simp)⟩

def smallImage : Image :=
  (callRun (fun _ => 0) [.mkdir [slash] [97],.write [slash,97,slash] [98] [1,2,3]]).getD mfsNew

theorem smallImage_run :
    callRun (fun _ => 0) [.mkdir [slash] [97],.write [slash,97,slash] [98] [1,2,3]] = some smallImage := by
  have hrun : (callRun (fun _ => 0) [.mkdir [slash] [97],.write [slash,97,slash] [98] [1,2,3]]).isSome := by
    decide +kernel
  obtain ⟨im,him⟩ := Option.isSome_iff_exists.mp hrun
  rw [smallImage,him]
  rfl

/-- `/a/b` is inode 2, and `/a/c/` is missing; in a packed directory all paths are looked up so. -/
theorem iget_exact_small : mfsIget smallImage (joined [[97],[98]]) = .ok (some 2) ∧
    mfsIget smallImage (joined [[97],[99]] ++ [slash]) = .ok none ∧
    ∃ im L, packdir (fun _ => 0) [114] sampleDir mfsNew = .ok im ∧
      ∀ comps : List (List UInt8), (∀ c ∈ comps, c ≠ [] ∧ slash ∉ c) → comps.length ≤ 128 →
        (mfsIget im (joined comps ++ [slash]) = .ok (descend im L 0 comps) ↔
          (descend im L 0 comps).isSome ∨ endsMissing im L 0 comps) := by
  have hforest := callRun_forest smallImage_run
  have htree : Treelike smallImage (· ≤ 2) (kids smallImage 2) :=
    ⟨Nat.zero_le 2,fun n hn => Nat.lt_of_le_of_lt hn (by decide),hforest.children,fun n _ i hi => (mem_kids.mp hi).2.1,
      fun n _ => kids_nodup⟩
  have hfound : descend smallImage (kids smallImage 2) 0 [[97],[98]] = some 2 := by decide +kernel
  have hgone : descend smallImage (kids smallImage 2) 0 [[97],[99]] = none := by decide +kernel
  have hexact := fun comps => iget_exact_iff smallImage (· ≤ 2) (kids smallImage 2) htree comps
  refine ⟨?_,?_,?_⟩
  · rw [← hfound,← List.append_nil (joined [[97],[98]])]
    exact (hexact _ [] (by decide) (by decide) (Or.inl rfl)).mpr (Or.inl (by rw [hfound]; rfl))
  · rw [← hgone]
    exact (hexact _ [slash] (by decide) (by decide) (Or.inr rfl)).mpr (Or.inr (by decide +kernel))
  · obtain ⟨im,L,hp,hL⟩ := packdir_treelike (fun _ => 0) sampleDir_packable (by decide) (by simp [sampleDir,Dir.PathsFit])
    exact ⟨im,L,hp,fun comps hc hlen => iget_exact_iff im _ L hL comps [slash] hc hlen (Or.inr rfl)⟩

/-- In a new image the missing path `/root` leads to the root, and `/a/b` to an access at
index -1. -/
theorem iget_new_image : Treelike mfsNew (· = 0) (fun _ => []) ∧
    descend mfsNew (fun _ => []) 0 [[114,111,111,116]] = none ∧ descend mfsNew (fun _ => []) 0 [[97],[98]] = none ∧
    mfsIget mfsNew (joined [[114,111,111,116]]) = .ok (some 0) ∧ mfsIget mfsNew (joined [[97],[98]]) = .error .fault := by
  refine ⟨⟨rfl,?_,?_,fun _ _ i hi => absurd hi List.not_mem_nil,fun _ _ => List.nodup_nil⟩,
    rfl,rfl,by decide +kernel,by decide +kernel⟩
  · rintro n rfl
    decide
  · rintro n rfl
    rfl

end Micron.Mkmfs

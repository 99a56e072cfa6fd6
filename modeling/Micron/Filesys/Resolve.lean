import Micron.Filesys.Mkdir

/-! # Lookups in a tree that is partly in memory

`vget` loads the children of a directory when it comes there for the first time. Its answer
is the one of the records on the disk, whichever directories earlier calls have loaded.
-/
namespace Micron.Filesys
open Kernel Scache Prog
variable {E : Env} {bs : BlkSizes} {C : Content} {T : Table} {s t : State} {p q : VPtr} {parent : Bool}
  {dirs : List (List UInt8)} {name : List UInt8}

/-- The components that `vget` follows: the last one only if the node itself is wanted. -/
def wanted (parent : Bool) (dirs : List (List UInt8)) (name : List UInt8) : List (List UInt8) :=
  dirs ++ if parent then [] else [name]

/-- The answer `q` is the node that the records lead to, taking the first child of each name,
with its children in memory; it is null if there is none. -/
structure Reached (T : Table) (parent : Bool) (dirs : List (List UInt8)) (name : List UInt8) (q : VPtr) (t : State) :
    Prop where
  finds : Finds t q (T.resolve 0 (wanted parent dirs name))
  complete : q ≠ .null → Complete T t q

def SameInode (s : State) (p : VPtr) (t : State) (q : VPtr) : Prop :=
  p = .null ∧ q = .null ∨ p.isNode ∧ q.isNode ∧ s.ino p = t.ino q

theorem Finds.same {r : Option ℕ} (hp : Finds s p r) (hq : Finds t q r) : SameInode s p t q := by
  cases r with
  | none => exact Or.inl ⟨hp,hq⟩
  | some n => exact Or.inr ⟨hp.1.isNode,hq.1.isNode,hp.2.trans hq.2.symm⟩

theorem vget_reached (h : Serves E bs C T s) (hpath : ∀ c ∈ dirs ++ [name], slash ∉ c)
    (hroom : ¬ Full ((vget E (absPath (dirs ++ [name])) parent).run s).2) :
    ∃ q t, (vget E (absPath (dirs ++ [name])) parent).run s = (.ok q,t) ∧ Serves E bs C T t ∧
      Reached T parent dirs name q t := by
  have hends := vget_absPath h.table h.shaped (full_limit s.ofile) h.dev_ne h.tree hpath parent
  obtain ⟨q,t,hrun,ht,-,hq,hc⟩ := hends.run hroom
  refine ⟨q,t,hrun,⟨h.dev_ne,h.table,h.shaped,?_⟩,hq,hc⟩
  rw [ht.ofile]
  exact ht

theorem started_serves {disk : ℕ → ℕ → UInt8} (calls : List (List UInt8 × Bool)) (hT : T.Shaped E.fuel)
    (hon : T.On E bs (contentOf bs E.devs disk)) (hdev : T.dev ≠ 0)
    (hb : Bootable E (contentOf bs E.devs disk) T.dev T.sb)
    (hroom : ¬ Full ((started E T.dev calls).run (State.boot disk)).2) :
    ∃ s, (started E T.dev calls).run (State.boot disk) = (.ok (),s) ∧ Serves E bs (contentOf bs E.devs disk) T s := by
  have hends := started_spec calls hT hon (full_limit (State.boot disk).ofile) hdev hb
  obtain ⟨_,s,hrun,hs,-⟩ := hends.run hroom
  refine ⟨s,hrun,hdev,hon,hT,?_⟩
  rw [hs.ofile]
  exact hs

/-- After the mount of the root file system and any lookups, and in any other state in which
part of the tree is in memory, `vget` resolves the path as the records on the disk do. What it
returns in two such states is the same inode. -/
theorem vget_resolves (E : Env) (bs : BlkSizes) (T : Table) (disk : ℕ → ℕ → UInt8) (hT : T.Shaped E.fuel)
    (hon : T.On E bs (contentOf bs E.devs disk)) (hdev : T.dev ≠ 0)
    (hb : Bootable E (contentOf bs E.devs disk) T.dev T.sb) :
    (∀ calls, ¬ Full ((started E T.dev calls).run (State.boot disk)).2 →
      ∃ s, (started E T.dev calls).run (State.boot disk) = (.ok (),s) ∧ Serves E bs (contentOf bs E.devs disk) T s) ∧
    ∀ dirs name, (∀ c ∈ dirs ++ [name], c ≠ [] ∧ slash ∉ c) → ∀ parent s, Serves E bs (contentOf bs E.devs disk) T s →
      ¬ Full ((vget E (absPath (dirs ++ [name])) parent).run s).2 →
      ∃ q t, (vget E (absPath (dirs ++ [name])) parent).run s = (.ok q,t) ∧
        Serves E bs (contentOf bs E.devs disk) T t ∧ Reached T parent dirs name q t ∧
        ∀ s', Serves E bs (contentOf bs E.devs disk) T s' →
          ∀ q' t', (vget E (absPath (dirs ++ [name])) parent).run s' = (.ok q',t') → ¬ Full t' → SameInode t q t' q' := by
  refine ⟨fun calls => started_serves calls hT hon hdev hb,fun dirs name hpath parent s hs hroom => ?_⟩
  have hslash : ∀ c ∈ dirs ++ [name], slash ∉ c := fun c hc => (hpath c hc).2
  obtain ⟨q,t,hrun,ht,hq⟩ := vget_reached hs hslash hroom
  refine ⟨q,t,hrun,ht,hq,fun s' hs' q' t' hrun' hroom' => ?_⟩
  obtain ⟨q₁,t₁,hrun₁,-,hq₁⟩ := vget_reached hs' hslash (by rwa [hrun'])
  rw [hrun'] at hrun₁
  cases hrun₁
  exact hq.finds.same hq₁.finds

/-- In the sample image `/a/b` is found, with its parent, after the mount alone; there is no `/b`. -/
theorem vget_resolves_sample :
    (∃ q t, (vget sampleEnv (absPath [[97],[98]]) false).run sampleState = (.ok q,t) ∧ q.isNode ∧ t.ino q = 2) ∧
    (∃ q t, (vget sampleEnv (absPath [[97],[98]]) true).run sampleState = (.ok q,t) ∧ q.isNode ∧ t.ino q = 1 ∧
      Complete (imageTable 1 sampleImage 2) t q) ∧
    ∃ t, (vget sampleEnv (absPath [[98]]) false).run sampleState = (.ok .null,t) := by
  have hbuilt := Mkmfs.build_built sample_build sample_short
  obtain ⟨hstart,hvget⟩ := vget_resolves sampleEnv mfsSizes (imageTable 1 sampleImage 2) sampleDisk
    (imageTable_shaped 1 hbuilt (by decide)) (sample_carries.on hbuilt) (by decide) (sample_carries.bootable hbuilt)
  obtain ⟨s,hs,hserves⟩ := hstart [] (by decide +kernel)
  obtain rfl : s = sampleState := (congrArg Prod.snd hs).symm
  have hnode : (imageTable 1 sampleImage 2).resolve 0 [[97],[98]] = some 2 := by decide +kernel
  have hdir : (imageTable 1 sampleImage 2).resolve 0 [[97]] = some 1 := by decide +kernel
  have hnone : (imageTable 1 sampleImage 2).resolve 0 [[98]] = none := by decide +kernel
  refine ⟨?_,?_,?_⟩
  · obtain ⟨q,t,hrun,-,hq,-⟩ := hvget [[97]] [98] (by decide) false sampleState hserves (by decide +kernel)
    have hf := hq.finds
    rw [show wanted false [[97]] [98] = [[97],[98]] from rfl,hnode] at hf
    exact ⟨q,t,hrun,hf.1.isNode,hf.2⟩
  · obtain ⟨q,t,hrun,-,hq,-⟩ := hvget [[97]] [98] (by decide) true sampleState hserves (by decide +kernel)
    have hf := hq.finds
    rw [show wanted true [[97]] [98] = [[97]] from rfl,hdir] at hf
    exact ⟨q,t,hrun,hf.1.isNode,hf.2,hq.complete hf.1.ne_null⟩
  · obtain ⟨q,t,hrun,-,hq,-⟩ := hvget [] [98] (by decide) false sampleState hserves (by decide +kernel)
    have hf := hq.finds
    rw [show wanted false [] [98] = [[98]] from rfl,hnone] at hf
    obtain rfl : q = .null := hf
    exact ⟨t,hrun⟩

end Micron.Filesys

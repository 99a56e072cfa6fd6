import Mathlib.Data.List.Sort
import Mathlib.Logic.Relation
import Micron.Lib.Runs
import Micron.Mkmfs.Create

/-! # The inode table is a forest

Inodes are handed out in order, so the records in use are those up to some `k`, every
parent precedes its children, and the children of `n` are the used records that name `n`
as their parent, latest first.
-/
namespace Micron.Mkmfs
open Function Linked
variable {im im' : Image} {k n p : ℕ} {ip : Inode}

def Inode.par (ip : Inode) : ℕ := ip.parent.toNat

def kids (im : Image) (k n : ℕ) : List ℕ := ((List.range' 1 k).filter (fun i => (im.iblk i).par = n)).reverse

structure Forest (im : Image) (k : ℕ) : Prop where
  lt : k < NINODE
  front : Front im.ibmp (MFS_BLKSIZE * NIBMP) (k + 1)
  root_next : (im.iblk 0).next = 0
  ino : ∀ i, 0 < i → i ≤ k → (im.iblk i).ino = i.toUInt32
  par_lt : ∀ i, 0 < i → i ≤ k → (im.iblk i).par < i
  children : ∀ n ≤ k, im.Children n (kids im k n)

theorem mem_kids {i : ℕ} : i ∈ kids im k n ↔ 0 < i ∧ i ≤ k ∧ (im.iblk i).par = n := by
  simp only [kids,List.mem_reverse,List.mem_filter,List.mem_range'_1,decide_eq_true_eq]
  omega

theorem kids_sorted : (kids im k n).Pairwise (· > ·) := by
  rw [kids,List.pairwise_reverse]
  exact (List.pairwise_lt_range' 1).filter _

theorem kids_nodup : (kids im k n).Nodup := kids_sorted.imp (fun h => Nat.ne_of_gt h)

theorem kids_lt {i : ℕ} (hk : k < NINODE) (hi : i ∈ kids im k n) : i < NINODE :=
  Nat.lt_of_le_of_lt (mem_kids.mp hi).2.1 hk

theorem kids_length_le : (kids im k n).length ≤ k := by
  have h := List.length_filter_le (fun i => decide ((im.iblk i).par = n)) (List.range' 1 k)
  rwa [List.length_range',← List.length_reverse] at h

theorem kids_length (hk : k < NINODE) : (kids im k n).length ≤ NINODE := Nat.le_trans kids_length_le (Nat.le_of_lt hk)

theorem new_forest : Forest mfsNew 0 where
  lt := by decide
  front := by
    intro n hn
    rw [mfsNew,mfsMarkbmp,Bits.get_set]
    by_cases h : n = 0 <;> simp [h]
  root_next := rfl
  ino i hi hk := absurd hi (Nat.not_lt.mpr hk)
  par_lt i hi hk := absurd hi (Nat.not_lt.mpr hk)
  children n hn := by
    obtain rfl : n = 0 := Nat.le_zero.mp hn
    rfl

/-- The inode table after record `k` was filled with `ip` and put in front of the children
of `p`, its parent. -/
structure Adds (im im' : Image) (k p : ℕ) (ip : Inode) : Prop where
  ibmp : im'.ibmp = mfsMarkbmp im.ibmp k true
  new : im'.iblk k = ip
  parent : im'.iblk p = { im.iblk p with child := k.toUInt32 }
  other : ∀ i, i ≠ k → i ≠ p → im'.iblk i = im.iblk i

theorem link_adds (hp : p ≠ k) : Adds im (im.link k p ip) k p ip where
  ibmp := rfl
  new := by simp [Image.link,hp.symm]
  parent := by simp [Image.link,hp]
  other i hi hi' := by simp [Image.link,hi,hi']

theorem Adds.par (h : Adds im im' (k + 1) p ip) {i : ℕ} (hi : i ≤ k) : (im'.iblk i).par = (im.iblk i).par := by
  by_cases hip : i = p
  · subst hip
    rw [h.parent]
    rfl
  · rw [h.other i (by omega) hip]

theorem Adds.inext (h : Adds im im' (k + 1) p ip) {i : ℕ} (hi : i ≤ k) :
    im'.inext (some i) = im.inext (some i) := by
  rw [inext_some,inext_some]
  by_cases hip : i = p
  · subst hip
    rw [h.parent]
  · rw [h.other i (by omega) hip]

theorem Adds.kids (h : Adds im im' (k + 1) p ip) (hpar : ip.par = p) (n : ℕ) :
    kids im' (k + 1) n = if p = n then (k + 1) :: kids im k n else kids im k n := by
  have hold : (List.range' 1 k).filter (fun i => (im'.iblk i).par = n) =
      (List.range' 1 k).filter (fun i => (im.iblk i).par = n) := by
    apply List.filter_congr
    intro i hi
    rw [h.par (by rw [List.mem_range'_1] at hi; omega)]
  rw [Mkmfs.kids,List.range'_concat,List.filter_append,List.reverse_append,hold]
  by_cases hpn : p = n
  · simp [Nat.add_comm 1 k,h.new,hpar,hpn,Mkmfs.kids]
  · simp [Nat.add_comm 1 k,h.new,hpar,hpn,Mkmfs.kids]

/-- One creation keeps the forest. -/
theorem Forest.add (h : Forest im k) (ha : Adds im im' (k + 1) p ip) (hk : k + 1 < NINODE) (hp : p ≤ k)
    (hino : ip.ino = (k + 1).toUInt32) (hpar : ip.par = p) (hnext : ip.next = (im.iblk p).child)
    (hchild : ip.child = 0) : Forest im' (k + 1) where
  lt := hk
  front := ha.ibmp ▸ h.front.mark
  root_next := by
    by_cases h0 : 0 = p
    · subst h0
      rw [ha.parent]
      exact h.root_next
    · rw [ha.other 0 (by omega) h0]
      exact h.root_next
  ino i hi hik := by
    by_cases hnew : i = k + 1
    · rw [hnew,ha.new,hino]
    · by_cases hip : i = p
      · subst hip
        rw [ha.parent]
        exact h.ino i hi hp
      · rw [ha.other i hnew hip]
        exact h.ino i hi (by omega)
  par_lt i hi hik := by
    by_cases hnew : i = k + 1
    · rw [hnew,ha.new,hpar]
      omega
    · rw [ha.par (by omega)]
      exact h.par_lt i hi (by omega)
  children n hn := by
    have hold : ∀ n, ∀ i ∈ Mkmfs.kids im k n, im'.inext (some i) = im.inext (some i) :=
      fun n i hi => ha.inext (mem_kids.mp hi).2.1
    have hptr : ptr (k + 1).toUInt32 = some (k + 1) := by
      refine ptr_toUInt32 (Nat.succ_ne_zero k) (Nat.lt_trans hk (by decide))
    rw [ha.kids hpar n]
    unfold Image.Children
    by_cases hpn : p = n
    · subst hpn
      rw [if_pos rfl,ha.parent]
      refine ⟨hptr,?_⟩
      rw [inext_some,ha.new,hnext]
      exact (h.children p hp).congr (hold p)
    · rw [if_neg hpn]
      by_cases hnew : n = k + 1
      · subst hnew
        have hempty : Mkmfs.kids im k (k + 1) = [] := by
          apply List.eq_nil_iff_forall_not_mem.mpr
          intro i hi
          obtain ⟨h0,hik,hpar'⟩ := mem_kids.mp hi
          have := h.par_lt i h0 hik
          omega
        rw [hempty,ha.new,hchild]
        rfl
      · rw [ha.other n hnew (Ne.symm hpn)]
        exact (h.children n (by omega)).congr (hold n)

/-! ## Paths lead to used records -/

theorem Forest.igetStep (h : Forest im k) (hp : p ≤ k) (ent : List UInt8) :
    ∃ o, igetStep im (some p) ent = .ok o ∧ ∀ q, o = some q → q ≤ k := by
  refine ⟨_,igetStep_eq (h.children p hp) (fun i hi => kids_lt h.lt hi) (kids_length h.lt),?_⟩
  intro q hq
  cases hf : (kids im k p).find? (fun i => (im.iblk i).str = ent) with
  | some i =>
    rw [hf] at hq
    obtain rfl : i = q := Option.some.inj hq
    exact (mem_kids.mp (List.mem_of_find?_eq_some hf)).2.1
  | none =>
    rw [hf] at hq
    dsimp only at hq
    split at hq
    · obtain rfl : 0 = q := Option.some.inj hq
      exact Nat.zero_le k
    · simp at hq

theorem Forest.iget_le (h : Forest im k) {path : List UInt8} (hg : mfsIget im path = .ok (some p)) : p ≤ k := by
  unfold mfsIget at hg
  split at hg
  · simp at hg
  · have key : ∀ ents o, (∀ q, o = some q → q ≤ k) → List.foldlM (Mkmfs.igetStep im) o ents = .ok (some p) → p ≤ k := by
      intro ents
      induction ents with
      | nil =>
        intro o ho hr
        exact ho p (Except.ok.inj hr)
      | cons ent ents ih =>
        intro o ho hr
        rw [List.foldlM_cons] at hr
        cases o with
        | none => simp [Mkmfs.igetStep,bind,Except.bind] at hr
        | some q =>
          obtain ⟨o',ho',hle⟩ := h.igetStep (ho q rfl) ent
          rw [ho'] at hr
          exact ih o' hle hr
    exact key _ _ (fun q hq => by obtain rfl := Option.some.inj hq; exact Nat.zero_le k) hg

/-- The next record that is handed out, if any is left. -/
theorem Forest.seek (h : Forest im k) :
    mfsSeekbmp im.ibmp (MFS_BLKSIZE * NIBMP) 0 (MFS_BLKSIZE * 8) =
      .ok (if k + 1 < NINODE then some (k + 1) else none) := by
  have hlt := h.lt
  split
  · rename_i hk
    apply h.front.seek hk
    change (k + 1) / 8 < 1024
    change k + 1 < 8192 at hk
    omega
  · rename_i hk
    have hfull : k + 1 = 8 * (MFS_BLKSIZE * NIBMP) := by
      change k < 8192 at hlt
      change ¬ k + 1 < 8192 at hk
      change k + 1 = 8192
      omega
    have := h.front
    rw [hfull] at this
    exact this.seek_full

/-- The numbers of the used records are stored as they are. -/
theorem Forest.toNat_eq (h : Forest im k) (hp : p ≤ k) : p.toUInt32.toNat = p :=
  Nat.mod_eq_of_lt (Nat.lt_of_le_of_lt hp (Nat.lt_trans h.lt (by decide)))

/-- A search that finds something finds the next record. -/
theorem Forest.seek_some {i : ℕ} (h : Forest im k)
    (hseek : mfsSeekbmp im.ibmp (MFS_BLKSIZE * NIBMP) 0 (MFS_BLKSIZE * 8) = .ok (some i)) : k + 1 = i ∧ k + 1 < NINODE := by
  rw [h.seek] at hseek
  have hsome := Except.ok.inj hseek
  by_cases hk : k + 1 < NINODE
  · rw [if_pos hk] at hsome
    exact ⟨Option.some.inj hsome,hk⟩
  · rw [if_neg hk] at hsome
    cases hsome

/-! ## Calls of the builder -/

inductive Call where
  | mkdir (path name : List UInt8)
  | write (path name buff : List UInt8)

def callStep (clock : ℕ → UInt32) (im : Image) : Call → Option Image
  | .mkdir path name => (mfsMkdir clock path name im).toOption
  | .write path name buff => (mfsWrite clock path name buff im).toOption

def callRun (clock : ℕ → UInt32) (calls : List Call) : Option Image := calls.foldlM (callStep clock) mfsNew

variable {clock : ℕ → UInt32} {path name buff : List UInt8} {c : Call}

theorem toOption_some {ε α : Type*} {x : Except ε α} {a : α} : x.toOption = some a ↔ x = .ok a := by
  cases x <;> simp [Except.toOption]

/-- A successful creation fills the next record and keeps the forest. -/
theorem Forest.mkdir (h : Forest im k) (hc : mfsMkdir clock path name im = .ok im') :
    ∃ p ≤ k, mfsIget im path = .ok (some p) ∧ Forest im' (k + 1) ∧
      Adds im im' (k + 1) p (dirInode clock im name (k + 1) p) := by
  obtain ⟨-,p,i,hget,hseek,rfl⟩ := mfsMkdir_ok_iff.mp hc
  have hp := h.iget_le hget
  obtain ⟨rfl,hk⟩ := h.seek_some hseek
  have ha : Adds im _ (k + 1) p (dirInode clock im name (k + 1) p) := link_adds (by omega)
  exact ⟨p,hp,hget,h.add ha hk hp rfl (h.toNat_eq hp) rfl rfl,ha⟩

theorem Forest.write (h : Forest im k) (hc : mfsWrite clock path name buff im = .ok im') :
    ∃ p ≤ k, ∃ d, mfsIget im path = .ok (some p) ∧
      allocBlocks (dblkr buff.length) 0 im.dbmp = .ok (d,im'.dbmp) ∧
      copyData im.dblk ((regInode clock im name buff (k + 1) p d).blkentry * MFS_BLKSIZE.toUInt32).toNat buff =
        .ok im'.dblk ∧
      Forest im' (k + 1) ∧ Adds im im' (k + 1) p (regInode clock im name buff (k + 1) p d) := by
  obtain ⟨-,p,i,d,bmp,dblk,hget,-,hseek,halloc,hcopy,rfl⟩ := mfsWrite_ok_iff.mp hc
  have hp := h.iget_le hget
  obtain ⟨rfl,hk⟩ := h.seek_some hseek
  have hl : Adds im _ (k + 1) p (regInode clock im name buff (k + 1) p d) := link_adds (by omega)
  have ha : Adds im { im.link (k + 1) p (regInode clock im name buff (k + 1) p d) with dbmp := bmp, dblk := dblk }
      (k + 1) p (regInode clock im name buff (k + 1) p d) := ⟨hl.ibmp,hl.new,hl.parent,hl.other⟩
  exact ⟨p,hp,d,hget,halloc,hcopy,h.add ha hk hp rfl (h.toNat_eq hp) rfl rfl,ha⟩

def OnlyAdds (im im' : Image) (i : ℕ) : Prop :=
  Bits.get im.ibmp i = false ∧ ∃ p, p ≠ i ∧ (im'.iblk i).par = p ∧
    im'.iblk p = { im.iblk p with child := i.toUInt32 } ∧
    (∀ j, j ≠ i → j ≠ p → im'.iblk j = im.iblk j) ∧
    ∀ n, Bits.get im'.ibmp n = if n = i then true else Bits.get im.ibmp n

theorem Forest.onlyAdds (h : Forest im k) (ha : Adds im im' (k + 1) p ip) (hk : k + 1 < NINODE) (hp : p ≤ k)
    (hpar : ip.par = p) : OnlyAdds im im' (k + 1) := by
  refine ⟨?_,p,by omega,by rw [ha.new,hpar],ha.parent,ha.other,fun n => by rw [ha.ibmp,mfsMarkbmp,Bits.get_set]⟩
  rw [h.front (k + 1) hk]
  simp

theorem Forest.call (h : Forest im k) (hc : callStep clock im c = some im') :
    Forest im' (k + 1) ∧ OnlyAdds im im' (k + 1) := by
  cases c with
  | mkdir path name =>
    obtain ⟨p,hp,-,hf,ha⟩ := h.mkdir (toOption_some.mp hc)
    exact ⟨hf,h.onlyAdds ha hf.lt hp (h.toNat_eq hp)⟩
  | write path name buff =>
    obtain ⟨p,hp,d,-,-,-,hf,ha⟩ := h.write (toOption_some.mp hc)
    exact ⟨hf,h.onlyAdds ha hf.lt hp (h.toNat_eq hp)⟩

theorem callRun_forest {calls : List Call} (h : callRun clock calls = some im) : Forest im calls.length := by
  refine Runs.run_inv (P := fun pre im => Forest im pre.length) new_forest ?_ h
  intro pre s e t _ hs ht
  rw [List.length_append]
  exact (hs.call ht).1

/-! ## No cycles -/

def Edge (im : Image) (k a b : ℕ) : Prop :=
  a ≤ k ∧ b ≠ 0 ∧ ((im.iblk a).child.toNat = b ∨ (im.iblk a).next.toNat = b)

def depth (par : ℕ → ℕ) (n : ℕ) : ℕ := if par n < n then depth par (par n) + 1 else 0
termination_by n

theorem depth_succ {par : ℕ → ℕ} (h : par n < n) : depth par n = depth par (par n) + 1 := by
  rw [depth,if_pos h]

/-- A child is one level deeper; a later sibling has the same depth and a smaller index. -/
theorem Forest.edge {a b : ℕ} (h : Forest im k) (he : Edge im k a b) :
    depth (fun i => (im.iblk i).par) a < depth (fun i => (im.iblk i).par) b ∨
      depth (fun i => (im.iblk i).par) a = depth (fun i => (im.iblk i).par) b ∧ b < a := by
  obtain ⟨hak,hb0,hchild | hnext⟩ := he
  · left
    have hc := h.children a hak
    have hptr := ptr_some.mpr ⟨hb0,hchild⟩
    have hb : b ∈ kids im k a := by
      unfold Image.Children at hc
      rw [hptr] at hc
      cases hl : kids im k a with
      | nil => rw [hl] at hc; simp [Chain] at hc
      | cons x l =>
        rw [hl] at hc
        obtain rfl : b = x := Option.some.inj hc.1
        simp
    obtain ⟨h0,hbk,hpar⟩ := mem_kids.mp hb
    rw [depth_succ (n := b) (h.par_lt b h0 hbk),hpar]
    exact Nat.lt_succ_self _
  · right
    have hptr := ptr_some.mpr ⟨hb0,hnext⟩
    have ha0 : 0 < a := by
      rcases Nat.eq_zero_or_pos a with rfl | ha
      · rw [h.root_next] at hnext
        exact absurd hnext.symm hb0
      · exact ha
    have hpa := h.par_lt a ha0 hak
    have ha : a ∈ kids im k (im.iblk a).par := mem_kids.mpr ⟨ha0,hak,rfl⟩
    obtain ⟨A,B,hAB⟩ := List.append_of_mem ha
    have hc := h.children (im.iblk a).par (by omega)
    unfold Image.Children at hc
    rw [hAB] at hc
    have hb : b ∈ B := by
      apply List.mem_of_head?
      rw [← hc.next_mid,inext_some,hptr]
    have hs : (kids im k (im.iblk a).par).Pairwise (· > ·) := kids_sorted
    rw [hAB] at hs
    have hlt : b < a := (List.pairwise_cons.mp (List.pairwise_append.mp hs).2.1).1 b hb
    have hbmem : b ∈ kids im k (im.iblk a).par := by rw [hAB]; simp [hb]
    obtain ⟨hb0,hbk,hpar⟩ := mem_kids.mp hbmem
    refine ⟨?_,hlt⟩
    rw [depth_succ (n := a) hpa,depth_succ (n := b) (h.par_lt b hb0 hbk),hpar]

theorem Forest.acyclic (h : Forest im k) (n : ℕ) : ¬ Relation.TransGen (Edge im k) n n := by
  have key : ∀ b, Relation.TransGen (Edge im k) n b →
      depth (fun i => (im.iblk i).par) n < depth (fun i => (im.iblk i).par) b ∨
        depth (fun i => (im.iblk i).par) n = depth (fun i => (im.iblk i).par) b ∧ b < n := by
    intro b hb
    induction hb with
    | single he => exact h.edge he
    | tail _ he ih =>
      have := h.edge he
      omega
  intro hn
  have := key n hn
  omega

/-! ## The table of every image -/

/-- The used records are 0 to `k`; each created one knows its number and is in one child
list, once, that of its parent; no links form a cycle. -/
structure WellFormed (im : Image) (k : ℕ) : Prop where
  used : ∀ n < NINODE, Bits.get im.ibmp n = true ↔ n ≤ k
  ino : ∀ n, 0 < n → n ≤ k → (im.iblk n).ino.toNat = n
  lists : ∃ L : ℕ → List ℕ, (∀ n ≤ k, im.Children n (L n) ∧ (L n).Nodup ∧ ∀ i ∈ L n, 0 < i ∧ i ≤ k) ∧
    ∀ i, 0 < i → i ≤ k → (im.iblk i).par ≤ k ∧ ∀ n ≤ k, i ∈ L n ↔ n = (im.iblk i).par
  acyclic : ∀ n, ¬ Relation.TransGen (Edge im k) n n

theorem Forest.wellFormed (h : Forest im k) : WellFormed im k where
  used n hn := by
    rw [h.front n hn,decide_eq_true_eq]
    exact Nat.lt_succ_iff
  ino n hn hk := by
    rw [h.ino n hn hk]
    exact h.toNat_eq hk
  lists := by
    refine ⟨kids im k,fun n hn => ⟨h.children n hn,kids_nodup,fun i hi => ?_⟩,fun i hi hk => ⟨?_,fun n _ => ?_⟩⟩
    · exact ⟨(mem_kids.mp hi).1,(mem_kids.mp hi).2.1⟩
    · exact Nat.le_of_lt (Nat.lt_of_lt_of_le (h.par_lt i hi hk) hk)
    · rw [mem_kids]
      constructor
      · exact fun hm => hm.2.2.symm
      · exact fun hm => ⟨hi,hk,hm.symm⟩
  acyclic := h.acyclic

/-- After any sequence of successful calls the inode table is a well-formed forest, and each
call has changed nothing but the record it created, its bit and one first-child link. -/
theorem mkmfs_inodes_wellFormed (clock : ℕ → UInt32) (calls : List Call) (im : Image)
    (h : callRun clock calls = some im) : WellFormed im calls.length ∧
      ∀ pre c im₁ im₂, pre ++ [c] <+: calls → callRun clock pre = some im₁ →
        callRun clock (pre ++ [c]) = some im₂ → OnlyAdds im₁ im₂ (pre.length + 1) := by
  refine ⟨(callRun_forest h).wellFormed,?_⟩
  intro pre c im₁ im₂ _ h₁ h₂
  rw [callRun,Runs.foldlM_concat] at h₂
  change (callRun clock pre).bind _ = _ at h₂
  rw [h₁] at h₂
  exact ((callRun_forest h₁).call h₂).2

/-- A directory with one file in it. -/
theorem mkmfs_inodes_wellFormed_two : ∃ im,
    callRun (fun _ => 0) [.mkdir [slash] [97],.write [slash,97,slash] [98] [1,2,3]] = some im ∧
      WellFormed im 2 := by
  have hrun : (callRun (fun _ => 0) [.mkdir [slash] [97],.write [slash,97,slash] [98] [1,2,3]]).isSome := by
    decide +kernel
  obtain ⟨im,him⟩ := Option.isSome_iff_exists.mp hrun
  exact ⟨im,him,(mkmfs_inodes_wellFormed _ _ im him).1⟩

end Micron.Mkmfs

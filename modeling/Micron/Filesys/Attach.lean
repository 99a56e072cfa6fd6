import Micron.Filesys.Lookup

/-! # From boot to a lookup

The mount that `kmain` makes finds the super block in block 0 and leaves a tree of which
only the root is in memory. Lookups keep it, whatever they ask for.
-/
namespace Micron.Filesys
open Function Bytes Kernel Scache Prog
variable {E : Env} {bs : BlkSizes} {C : Content} {T : Table} {o : ℕ → Ofile} {s t : State} {X : State → Prop}
  {dev : UInt32} {disk : ℕ → ℕ → UInt8}

/-! ## The super block -/

/-- The super block is in the first sector. -/
theorem Sblk.read_congr {m m' : ℕ → UInt8} (h : ∀ k < 512, m k = m' k) : Sblk.read m = Sblk.read m' := by
  have h32 : ∀ k, k + 3 < 512 → get32 m k = get32 m' k := by
    intro k hk
    rw [get32,get32,h k (by omega),h (k + 1) (by omega),h (k + 2) (by omega),h (k + 3) hk]
  simp only [Sblk.read,h32 8 (by decide),h32 12 (by decide),h32 16 (by decide),h32 20 (by decide),
    h32 24 (by decide),h32 32 (by decide),h32 36 (by decide),h32 40 (by decide)]

/-- Block 0 of the device can be read, and its first sector is an MFS super block. -/
structure Bootable (E : Env) (C : Content) (dev : UInt32) (sb : Sblk) : Prop where
  dev_ok : DevOk dev.toNat
  open_ok : E.devs.openOk dev.toNat
  seek_ok : E.devs.seekOk dev.toNat 0
  magic : C dev.toNat 0 0 = 77 ∧ C dev.toNat 0 1 = 70 ∧ C dev.toNat 0 2 = 83
  sblk : Sblk.read (C dev.toNat 0) = sb

section Bootable
variable {sb : Sblk} (h : Bootable E C dev sb) (hX : Limit o X)
include h hX

/-- Block 0 is read with the size of a sector and with the largest size of a block. -/
theorem Bootable.get {blksize : Int32} {n : ℕ} (hn : blksize.toInt = n) (hge : 512 ≤ n) (hle : n ≤ NMXBLKSZ)
    (hc : Cached E bs C s.scache) :
    Ends X (scacheGet E dev 0 blksize) (fun p t => ∃ i c, p = some i ∧ t = { s with scache := c } ∧
      Cached E bs C c ∧ Keeps s.scache c ∧ ∀ k < 512, c.buf (some i) k = C dev.toNat 0 k) s := by
  have hvalid : ∀ n, (Get.mk dev.toNat 0 n).Valid E.devs := by
    intro n
    refine ⟨h.dev_ok,le_rfl,by simp,fun _ => ?_⟩
    simpa [sector] using h.seek_ok
  have hfits : (Get.mk dev.toNat 0 n).Fits (volume bs E.devs) := by
    refine ⟨hvalid _,?_,?_⟩
    · simp [Get.addr,volume,BlkSizes.request]
    · simp only [volume,if_true]
      omega
  refine (hX.scacheGet hc hn hle (hvalid n) hfits h.open_ok).mono ?_
  rintro p t - ⟨i,c,rfl,rfl,⟨L,hL⟩,hk,hent⟩
  refine ⟨i,c,rfl,rfl,⟨L,hL⟩,hk,fun k hk => ?_⟩
  have hbuf := hL.cached i hent.lt k
  rw [hent.src] at hbuf
  exact hbuf hk

theorem Bootable.fsProbe (hc : Cached E bs C s.scache) :
    Ends X (fsProbe E dev) (fun fs t => ∃ c, fs = some .MFS ∧ t = { s with scache := c } ∧ Cached E bs C c ∧
      Keeps s.scache c) s := by
  unfold Filesys.fsProbe mfsProbe
  refine Ends.bind hX.mono (Q := fun b t => ∃ c, b = true ∧ t = { s with scache := c } ∧ Cached E bs C c ∧
    Keeps s.scache c) ?_ ?_
  · refine Ends.bind hX.mono (h.get hX (show Int32.toInt 512 = (512 : ℕ) from rfl) (Nat.le_refl _) (by decide) hc) ?_
    rintro p t - ⟨i,c,rfl,rfl,hc',hk,hbuf⟩
    refine Or.inr ⟨c,decide_eq_true ?_,rfl,hc',hk⟩
    rw [hbuf 0 (by decide),hbuf 1 (by decide),hbuf 2 (by decide)]
    exact h.magic
  · rintro b t - ⟨c,rfl,rfl,hc',hk⟩
    exact Or.inr ⟨c,rfl,rfl,hc',hk⟩

theorem Bootable.mfsBlksz (hc : Cached E bs C s.scache) :
    Ends X (mfsBlksz E dev) (fun b t => ∃ c, b = sb.blksize ∧ t = { s with scache := c } ∧ Cached E bs C c ∧
      Keeps s.scache c) s := by
  refine Ends.bind hX.mono (h.get hX (show Int32.toInt 512 = (512 : ℕ) from rfl) (Nat.le_refl _) (by decide) hc) ?_
  rintro p t - ⟨i,c,rfl,rfl,hc',hk,hbuf⟩
  refine Or.inr ⟨c,?_,rfl,hc',hk⟩
  rw [Sblk.read_congr hbuf,h.sblk]

theorem Bootable.mfsLsblk (hc : Cached E bs C s.scache) :
    Ends X (mfsLsblk E dev) (fun b t => ∃ c, Sblk.read b = sb ∧ t = { s with scache := c } ∧ Cached E bs C c ∧
      Keeps s.scache c) s := by
  refine Ends.bind hX.mono (h.get hX (show NMXBLKSZ.toInt32.toInt = (4096 : ℕ) from rfl) (by decide) (by decide) hc) ?_
  rintro p t - ⟨i,c,rfl,rfl,hc',hk,hbuf⟩
  refine Or.inr ⟨c,?_,rfl,hc',hk⟩
  rw [← h.sblk]
  refine Sblk.read_congr (fun k hk => ?_)
  rw [if_pos (Nat.lt_trans hk (by decide)),hbuf k hk]

end Bootable

/-! ## The mount -/

def contentOf (bs : BlkSizes) (D : BlkDevs) (disk : ℕ → ℕ → UInt8) : Content :=
  fun d b k => disk d ((volume bs D).addr d b + k)

/-- A state as after boot with the table mounted, of which only the root is in memory. -/
theorem Tree.bare {m : ℕ → Mountab} {c : Scache} {f : VPtr → Vnode} (hT : T.Shaped E.fuel) (hm : Sole T m)
    (hc : Cached E bs (contentOf bs E.devs disk) c) (hdisk : c.disk = disk) (hchild : (f (.root 0)).child = .null)
    (hino : (f (.root 0)).ino = 0) (hdev : (f (.root 0)).dev = T.dev) (hfresh : ∀ j, (f (.vc j)).expand = .null) :
    Tree E bs (contentOf bs E.devs disk) T (State.boot disk).ofile (fun _ => True) { State.boot disk with
      vnode := f
      mountab := m
      scache := c } := by
  have honly : ∀ p, InTree { State.boot disk with vnode := f, mountab := m, scache := c } p → p = .root 0 := by
    intro p hp
    refine hp.sub (S := (· = .root 0)) rfl ?_
    rintro q - rfl
    exact below_of_not_node (by rw [hchild]; rfl)
  have hzero : (f (.root 0)).ino.toNat = 0 := by rw [hino]; rfl
  refine ⟨AllocList.boot_unused,hc,?_,rfl,hm,fun j _ => hfresh j,hzero,?_,?_,?_,?_⟩
  · intro n _ k _
    rw [hdisk]
    rfl
  · intro p hp
    rw [honly p hp]
    exact hdev
  · intro p hp
    rw [honly p hp,State.ino,hzero]
    exact hT.root
  · intro j hj
    exact absurd (honly _ hj) (by simp)
  · intro p hp
    rw [honly p hp]
    exact Or.inl (Or.inr ⟨rfl,hchild⟩)

theorem Tree.start {m : ℕ → Mountab} {c : Scache} (hT : T.Shaped E.fuel) (hm : Sole T m)
    (hc : Cached E bs (contentOf bs E.devs disk) c) (hdisk : c.disk = disk) :
    Tree E bs (contentOf bs E.devs disk) T (State.boot disk).ofile (fun _ => True) { State.boot disk with
      vnode := update (State.boot disk).vnode (.root 0) { Vnode.zero with ino := 0, dev := T.dev }
      mountab := m
      scache := c } :=
  Tree.bare hT hm hc hdisk (by simp [Vnode.zero]) (by simp) (by simp) (fun _ => rfl)

theorem rooted_of_zero (dev : UInt32) (h : s.vnode (.root 0) = { Vnode.zero with ino := 0, dev := dev }) : Rooted s := by
  have hstr : (s.vnode (.root 0)).str = [] := by
    have hname : cstr (List.ofFn Vnode.zero.name) = [] := by decide
    rw [h,Vnode.str,Vnode.bytes,cstr_append_right]
    · exact hname
    · rw [hname,List.length_ofFn]
      decide
  refine ⟨by rw [h]; rfl,?_⟩
  rw [hstr]
  decide

theorem mountabMount_boot (hT : T.Shaped E.fuel) (hX : Limit (State.boot disk).ofile X) (hdev : T.dev ≠ 0)
    (h : Bootable E (contentOf bs E.devs disk) T.dev T.sb) :
    Ends X (mountabMount E 0 0 T.dev) (fun r t => r = 0 ∧
      Tree E bs (contentOf bs E.devs disk) T (State.boot disk).ofile (fun _ => True) t ∧ Rooted t ∧
      (t.mountab 0).blksize = T.sb.blksize) (State.boot disk) := by
  have hget : (mountabGet T.dev).run (State.boot disk) = (.ok none,State.boot disk) := by
    rw [mountabGet_run]
    have : (List.range NVFSMNTS).find? (fun i => decide (((State.boot disk).vnode (.root i)).dev = T.dev)) = none :=
      List.find?_eq_none.mpr (fun i _ => by simp [State.boot,Vnode.zero,hdev.symm])
    rw [this]
  have hboot : Cached E bs (contentOf bs E.devs disk) (State.boot disk).scache := ⟨_,boot_coherent⟩
  unfold Ends mountabMount
  rw [wp_bind]
  refine wp_of_run hget ?_
  have hfree : (List.range NVFSMNTS).find? (fun i => decide (((State.boot disk).mountab i).stat = false)) = some 0 := rfl
  rw [if_neg (by simp),wp_bind,Prog.wp_get,hfree]
  dsimp only
  rw [wp_bind,wp_setVnode rfl,wp_bind,wp_setMount]
  refine Ends.bind hX.mono (h.fsProbe hX (by exact hboot)) ?_
  rintro fs t₁ - ⟨c₁,rfl,rfl,hc₁,hk₁⟩
  unfold Ends
  rw [wp_bind,wp_setMount,if_neg (by simp)]
  refine Ends.bind hX.mono (h.mfsBlksz hX (by exact hc₁)) ?_
  rintro blksize t₂ - ⟨c₂,rfl,rfl,hc₂,hk₂⟩
  unfold Ends
  rw [wp_bind,wp_setMount]
  refine Ends.bind hX.mono (h.mfsLsblk hX (by exact hc₂)) ?_
  rintro sb t₃ - ⟨c₃,hsb,rfl,hc₃,hk₃⟩
  unfold Ends
  rw [wp_bind,wp_setMount,wp_bind,wp_setMount,wp_pure]
  dsimp only
  simp only [update_idem,update_self]
  refine Or.inr ⟨trivial,Tree.start hT ?_ hc₃ ((hk₁.trans hk₂).trans hk₃).disk,
    rooted_of_zero T.dev (by dsimp only; rw [update_self]; rfl),trivial⟩
  refine ⟨by rw [update_self],by rw [update_self]; exact hsb,by rw [update_self],fun i => ?_⟩
  by_cases hi : i = 0
  · rw [hi,update_self]
  · rw [update_of_ne hi]
    rfl

/-! ## Lookups -/

def absPath : List (List UInt8) → List UInt8
  | [] => []
  | c :: cs => slash :: (c ++ absPath cs)

theorem splitPath_name {c : List UInt8} (hc : slash ∉ c) : splitPath c = ([],c) := by
  induction c with
  | nil => rfl
  | cons b c ih =>
    obtain ⟨hb,hc⟩ := not_or.mp (mt List.mem_cons.mpr hc)
    simp [splitPath,ih hc,Ne.symm hb]

theorem splitPath_dir {c r : List UInt8} (hc : slash ∉ c) :
    splitPath (c ++ slash :: r) = (c :: (splitPath r).1,(splitPath r).2) := by
  induction c with
  | nil => simp [splitPath]
  | cons b c ih =>
    obtain ⟨hb,hc⟩ := not_or.mp (mt List.mem_cons.mpr hc)
    simp [splitPath,ih hc,Ne.symm hb]

theorem absPath_eq {comps : List (List UInt8)} (h : comps ≠ []) : absPath comps = slash :: (absPath comps).tail := by
  cases comps with
  | nil => exact absurd rfl h
  | cons c cs => rfl

theorem splitPath_absPath {dirs : List (List UInt8)} {name : List UInt8} (h : ∀ c ∈ dirs ++ [name], slash ∉ c) :
    splitPath (absPath (dirs ++ [name])).tail = (dirs,name) := by
  induction dirs with
  | nil => simpa [absPath] using splitPath_name (h name (by simp))
  | cons c dirs ih =>
    have hrest := ih (fun x hx => h x (List.mem_cons_of_mem _ hx))
    rw [List.cons_append,absPath,List.tail_cons,absPath_eq (by simp),splitPath_dir (h c (by simp)),hrest]

theorem vget_absPath {dirs : List (List UInt8)} {name : List UInt8} (hon : T.On E bs C) (hT : T.Shaped E.fuel)
    (hX : Limit o X) (hdev : T.dev ≠ 0) (h : Tree E bs C T o (fun _ => True) s)
    (hpath : ∀ c ∈ dirs ++ [name], slash ∉ c) (parent : Bool) :
    Ends X (vget E (absPath (dirs ++ [name])) parent) (fun q t => Tree E bs C T o (fun _ => True) t ∧ Grows s t ∧
      Finds t q (T.resolve 0 (dirs ++ if parent then [] else [name])) ∧ (q ≠ .null → Complete T t q)) s := by
  have hhead : (absPath (dirs ++ [name])).head? = some slash := by
    rw [absPath_eq (by simp)]
    rfl
  refine (vget_spec hon hT hX hdev h hhead).mono ?_
  rintro q t - ⟨ht,hg,hq,hc⟩
  rw [splitPath_absPath hpath] at hq
  exact ⟨ht,hg,hq,hc⟩

def lookups (E : Env) : List (List UInt8 × Bool) → K Unit
  | [] => return
  | (path,parent) :: calls => do
    let _ ← vget E path parent
    lookups E calls

theorem lookups_spec (calls : List (List UInt8 × Bool)) (hon : T.On E bs C) (hT : T.Shaped E.fuel) (hX : Limit o X)
    (hdev : T.dev ≠ 0) (h : Tree E bs C T o (fun _ => True) s) :
    Ends X (lookups E calls) (fun _ t => Tree E bs C T o (fun _ => True) t ∧ Grows s t) s := by
  induction calls generalizing s with
  | nil => exact Or.inr ⟨h,.refl s⟩
  | cons call calls ih =>
    obtain ⟨path,parent⟩ := call
    refine Ends.bind hX.mono (Q := fun _ t => Tree E bs C T o (fun _ => True) t ∧ Grows s t) ?_ ?_
    · by_cases hpath : path.head? = some slash
      · refine (vget_spec hon hT hX hdev h hpath).mono ?_
        rintro q t - ⟨ht,hg,-⟩
        exact ⟨ht,hg⟩
      · rw [vget,if_pos hpath]
        exact Or.inr ⟨h,.refl s⟩
    · rintro q t - ⟨ht,hg⟩
      refine (ih ht).mono ?_
      rintro _ u - ⟨hu,hgu⟩
      exact ⟨hu,hg.trans hgu⟩

def started (E : Env) (dev : UInt32) (calls : List (List UInt8 × Bool)) : K Unit := do
  let _ ← mountabMount E 0 0 dev
  lookups E calls

theorem started_spec (calls : List (List UInt8 × Bool)) (hT : T.Shaped E.fuel)
    (hon : T.On E bs (contentOf bs E.devs disk)) (hX : Limit (State.boot disk).ofile X) (hdev : T.dev ≠ 0)
    (h : Bootable E (contentOf bs E.devs disk) T.dev T.sb) :
    Ends X (started E T.dev calls) (fun _ t =>
      Tree E bs (contentOf bs E.devs disk) T (State.boot disk).ofile (fun _ => True) t ∧ Rooted t) (State.boot disk) := by
  refine Ends.bind hX.mono (mountabMount_boot hT hX hdev h) ?_
  rintro r t - ⟨-,ht,hroot,-⟩
  refine (lookups_spec calls hon hT hX hdev ht).mono ?_
  rintro _ u - ⟨hu,hg⟩
  exact ⟨hu,hg.rooted hroot⟩

def lookup (E : Env) (dev : UInt32) (calls : List (List UInt8 × Bool)) (comps : List (List UInt8)) : K VPtr := do
  started E dev calls
  vget E (absPath comps) false

theorem lookup_spec {dirs : List (List UInt8)} {name : List UInt8} (calls : List (List UInt8 × Bool))
    (hT : T.Shaped E.fuel) (hon : T.On E bs (contentOf bs E.devs disk)) (hX : Limit (State.boot disk).ofile X)
    (hdev : T.dev ≠ 0) (h : Bootable E (contentOf bs E.devs disk) T.dev T.sb)
    (hpath : ∀ c ∈ dirs ++ [name], slash ∉ c) :
    Ends X (lookup E T.dev calls (dirs ++ [name])) (fun q t =>
      Tree E bs (contentOf bs E.devs disk) T (State.boot disk).ofile (fun _ => True) t ∧
      Finds t q (T.resolve 0 (dirs ++ [name]))) (State.boot disk) := by
  refine Ends.bind hX.mono (started_spec calls hT hon hX hdev h) ?_
  rintro _ s - ⟨hs,-⟩
  refine (vget_absPath hon hT hX hdev hs hpath false).mono ?_
  rintro q t - ⟨ht,-,hq,-⟩
  exact ⟨ht,hq⟩

end Micron.Filesys

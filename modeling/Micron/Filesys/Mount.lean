import Mathlib.Data.Finset.Prod
import Micron.Filesys.Access
import Micron.Filesys.Vfs
import Micron.Lib.Runs

/-! # The mount table

A slot of the table is in use when `stat` is set, but the lookup of a device and the test
for a device that is already mounted go by `root.dev`, which a slot keeps when a mount
fails and after it is released. Over runs of `mountab_mount` and `mountab_umount`.
-/
namespace Micron.Filesys
open Function Bytes Kernel Prog
variable {E : Env} {s t : State} {dev hdev hino d : UInt32} {i j : ℕ} {c : Scache}

/-! ## Programs that only use the sector cache -/

section OnCache
variable {α β : Type}

/-- The program reads and changes nothing but the sector cache. -/
def OnCache (p : K α) : Prop :=
  ∃ f : Scache → Except Stop α × Scache, ∀ s, p.run s = ((f s.scache).1,{ s with scache := (f s.scache).2 })

theorem OnCache.pure (a : α) : OnCache (Pure.pure a : K α) := ⟨fun c => (.ok a,c),fun _ => rfl⟩

theorem OnCache.stop (e : Stop) : OnCache (Prog.stop e : K α) := ⟨fun c => (.error e,c),fun _ => rfl⟩

theorem OnCache.bind {p : K α} {q : α → K β} (hp : OnCache p) (hq : ∀ a, OnCache (q a)) : OnCache (p >>= q) := by
  obtain ⟨f,hf⟩ := hp
  choose g hg using hq
  refine ⟨fun c => match f c with
    | (.ok a,c') => g a c'
    | (.error e,c') => (.error e,c'),fun s => ?_⟩
  have hs := hf s
  rcases h : f s.scache with ⟨_ | a,c⟩ <;> rw [h] at hs
  · simp only [Bind.bind,hs,h]
  · rw [run_bind hs,hg a]
    simp only [h]

theorem OnCache.scacheGet (dev : UInt32) (blk blksize : Int32) : OnCache (scacheGet E dev blk blksize) := by
  rw [Filesys.scacheGet]
  split
  · exact .stop _
  · refine ⟨fun c => (Scache.scacheGet E.devs dev.toNat blk.toInt blksize.toNatClampNeg c).elim (.error .hang,c)
      (fun r => (.ok r.1,r.2)),fun s => ?_⟩
    simp only [cached,step]
    rcases Scache.scacheGet E.devs dev.toNat blk.toInt blksize.toNatClampNeg s.scache with _ | ⟨p,c⟩ <;> rfl

theorem OnCache.buffer (p : Ptr) : OnCache (buffer p) := by
  cases p with
  | none => exact .stop _
  | some i => exact ⟨fun c => (.ok (c.buf (some i)),c),fun _ => rfl⟩

theorem OnCache.fsProbe : OnCache (fsProbe E dev) := by
  refine .bind (.bind (.scacheGet ..) (fun p => .bind (.buffer p) (fun _ => .pure _))) (fun b => ?_)
  cases b
  · exact .pure _
  · exact .pure _

theorem OnCache.mfsBlksz : OnCache (mfsBlksz E dev) :=
  .bind (.scacheGet ..) (fun p => .bind (.buffer p) (fun _ => .pure _))

theorem OnCache.mfsLsblk : OnCache (mfsLsblk E dev) :=
  .bind (.scacheGet ..) (fun p => .bind (.buffer p) (fun _ => .pure _))

/-- What does not depend on the cache survives such a program, whether it ends or stops, and
the result is the same from every state with the same cache. -/
theorem OnCache.wp {p : K α} {P : State → Prop} (hp : OnCache p) (hP : ∀ c, P { t with scache := c })
    (hc : t.scache = s.scache) :
    wp p (fun a u => P u ∧ ∃ u, p.run s = (.ok a,u)) (fun u => P u ∧ ∀ a u, p.run s ≠ (.ok a,u)) t := by
  obtain ⟨f,hf⟩ := hp
  rw [Prog.wp,hf t,hf s,hc]
  rcases f s.scache with ⟨_ | a,c⟩
  · exact ⟨hP c,fun a u he => by cases he⟩
  · exact ⟨hP c,_,rfl⟩

end OnCache

/-! ## What a call does to the table -/

def Listed (s : State) (d : UInt32) : Prop := ∃ i < NVFSMNTS, (s.vnode (.root i)).dev = d

def Mounted (s : State) (d : UInt32) : Prop := ∃ i < NVFSMNTS, (s.mountab i).stat ∧ (s.vnode (.root i)).dev = d

def HasFree (s : State) : Prop := ∃ i < NVFSMNTS, (s.mountab i).stat = false

def Recognised (E : Env) (s : State) (d : UInt32) : Prop := ∃ t, (fsProbe E d).run s = (.ok (some .MFS),t)

def Rejected (E : Env) (s : State) (d : UInt32) : Prop := ∃ t, (fsProbe E d).run s = (.ok none,t)

/-- `dev`, on no slot before, was put on the free slot `i`, and the rest of the table is as
before. -/
structure PutOn (i : ℕ) (dev : UInt32) (s t : State) : Prop where
  lt : i < NVFSMNTS
  free : (s.mountab i).stat = false
  unlisted : ¬ Listed s dev
  root : t.vnode = update s.vnode (.root i) { s.vnode (.root i) with ino := 0, dev := dev }
  other : ∀ j, j ≠ i → t.mountab j = s.mountab j

theorem recognised_or_rejected (h : Recognised E s d) (h' : Rejected E s d) : False := by
  obtain ⟨t,ht⟩ := h
  obtain ⟨u,hu⟩ := h'
  rw [ht] at hu
  cases hu

theorem mountabGet_run : (mountabGet d).run s =
    (.ok ((List.range NVFSMNTS).find? (fun i => (s.vnode (.root i)).dev = d)),s) := rfl

theorem find_isSome {P : ℕ → Prop} [DecidablePred P] {n : ℕ} :
    ((List.range n).find? (fun i => P i)).isSome ↔ ∃ i < n, P i := by
  simp [List.find?_isSome]

theorem find_eq_some {P : ℕ → Prop} [DecidablePred P] {n : ℕ} (h : (List.range n).find? (fun i => P i) = some i) :
    i < n ∧ P i := by
  have hP : decide (P i) = true := List.find?_some (p := fun i => decide (P i)) h
  exact ⟨List.mem_range.mp (List.mem_of_find?_eq_some h),of_decide_eq_true hP⟩

theorem PutOn.setEntry (h : PutOn i dev s t) (m : Mountab) :
    PutOn i dev s { t with mountab := update t.mountab i m } :=
  ⟨h.lt,h.free,h.unlisted,h.root,fun j hj => (update_of_ne hj _ _).trans (h.other j hj)⟩

def Half (i : ℕ) (dev : UInt32) (s t : State) : Prop := PutOn i dev s t ∧ (t.mountab i).stat = false

theorem Half.setEntry (h : Half i dev s t) {f : Mountab → Mountab} (hf : (f (t.mountab i)).stat = (t.mountab i).stat) :
    Half i dev s { t with mountab := update t.mountab i (f (t.mountab i)) } :=
  ⟨h.1.setEntry _,by dsimp only; rw [update_self,hf,h.2]⟩

theorem Half.setCache (h : Half i dev s t) (c : Scache) : Half i dev s { t with scache := c } :=
  ⟨⟨h.1.lt,h.1.free,h.1.unlisted,h.1.root,h.1.other⟩,h.2⟩

/-- Reading the super block of a recognised device ends with the slot in use. -/
theorem Half.wp_finish {blksize : K Int32} {sblk : K (ℕ → UInt8)} (h : Half i dev s t) (hb : OnCache blksize)
    (hs : OnCache sblk) :
    wp (do
      let b ← blksize
      setMount i (fun m => { m with blksize := b })
      let sb ← sblk
      setMount i (fun m => { m with sblk := sb })
      setMount i (fun m => { m with stat := true })
      return (0 : ℤ))
      (fun r u => r = 0 ∧ PutOn i dev s u ∧ (u.mountab i).stat = true) (fun u => Half i dev s u) t := by
  simp only [wp_bind,wp_setMount,wp_pure]
  refine wp.mono (hb.wp (s := t) h.setCache rfl) ?_ (fun _ _ hu => hu.1)
  rintro b u - ⟨hu,-⟩
  have hb' := hu.setEntry (f := fun m => { m with blksize := b }) rfl
  refine wp.mono (hs.wp (s := { u with mountab := _ }) hb'.setCache rfl) ?_ (fun _ _ hv => hv.1)
  rintro sb v - ⟨hv,-⟩
  exact ⟨trivial,(hv.1.setEntry _).setEntry _,by rw [update_self]⟩

theorem wp_mountabMount (E : Env) (hdev hino dev : UInt32) (s : State) : wp (mountabMount E hdev hino dev)
    (fun r t => r = -1 ∧ t = s ∧ (Listed s dev ∨ ¬ HasFree s) ∨
      r = 0 ∧ Recognised E s dev ∧ (∃ i, PutOn i dev s t ∧ (t.mountab i).stat = true) ∨
      r = -1 ∧ Rejected E s dev ∧ ∃ i, Half i dev s t)
    (fun t => (∃ i, Half i dev s t) ∧ ¬ Rejected E s dev) s := by
  simp only [mountabMount,wp_bind,mountabGet,Prog.wp_get,wp_pure]
  split
  · rename_i h
    exact Or.inl ⟨rfl,rfl,Or.inl (find_isSome.mp h)⟩
  · rename_i h
    have hlist : ¬ Listed s dev := fun hl => h (find_isSome.mpr hl)
    simp only [wp_bind,Prog.wp_get]
    split
    · rename_i i hi
      obtain ⟨hlt,hfree⟩ := find_eq_some hi
      simp only [wp_bind,wp_setVnode (show (VPtr.root i).isNode from rfl),wp_setMount]
      have h0 : Half i dev s { s with
          vnode := update s.vnode (.root i) { s.vnode (.root i) with ino := 0, dev := dev }
          mountab := update s.mountab i { s.mountab i with hdev := hdev, hino := hino } } :=
        ⟨⟨hlt,hfree,hlist,rfl,fun j hj => update_of_ne hj _ _⟩,by dsimp only; rw [update_self,hfree]⟩
      refine wp.mono (OnCache.fsProbe.wp (s := s) h0.setCache ?_) ?_ (fun _ _ hu => ⟨⟨i,hu.1⟩,fun hr => hr.elim (hu.2 _)⟩)
      · rfl
      rintro fs u - ⟨hu,hrun⟩
      have h1 := hu.setEntry (f := fun m => { m with fs := fs }) rfl
      rcases fs with _ | ⟨⟩
      · exact Or.inr (Or.inr ⟨rfl,hrun,i,h1⟩)
      · have hrec : ¬ Rejected E s dev := fun hrej => recognised_or_rejected hrun hrej
        refine (h1.wp_finish OnCache.mfsBlksz OnCache.mfsLsblk).mono ?_ (fun u _ hu => ⟨⟨i,hu⟩,hrec⟩)
        rintro r u - ⟨rfl,hu,hstat⟩
        exact Or.inr (Or.inl ⟨rfl,hrun,i,hu,hstat⟩)
    · rename_i hi
      refine Or.inl ⟨rfl,rfl,Or.inr (fun hf => ?_)⟩
      obtain ⟨i,hi'⟩ := Option.isSome_iff_exists.mp (find_isSome.mpr hf)
      exact hi i hi'

theorem wp_mountabUmount (dev : UInt32) (s : State) : wp (mountabUmount dev)
    (fun r t => r = -1 ∧ t = s ∧ ¬ Mounted s dev ∨
      r = 0 ∧ ∃ i < NVFSMNTS, (s.mountab i).stat ∧ (s.vnode (.root i)).dev = dev ∧
        t = { s with mountab := update s.mountab i { s.mountab i with stat := false } })
    (fun _ => False) s := by
  simp only [mountabUmount,wp_bind,Prog.wp_get]
  split
  · rename_i i hi
    obtain ⟨hlt,hstat,hdev⟩ := find_eq_some hi
    exact Or.inr ⟨rfl,i,hlt,hstat,hdev,rfl⟩
  · rename_i hi
    refine Or.inl ⟨rfl,rfl,fun hm => ?_⟩
    have hsome := find_isSome.mpr hm
    rw [hi] at hsome
    cases hsome

/-! ## Devices that open -/

def firstBlocks : Finset (ℕ × ℤ) :=
  (Finset.range NBLKDEVS ×ˢ Finset.range NBLKENTS).image (fun p => (p.1 * 65536 + p.2,0))

theorem mem_firstBlocks {d : ℕ} (h : DevOk d) : (d,(0 : ℤ)) ∈ firstBlocks := by
  refine Finset.mem_image.mpr ⟨(d / 65536,d % 65536),?_,?_⟩
  · exact Finset.mem_product.mpr ⟨Finset.mem_range.mpr h.1,Finset.mem_range.mpr h.2⟩
  · exact Prod.ext (Nat.div_add_mod' d 65536) rfl

theorem card_firstBlocks : firstBlocks.card ≤ NSECACHS := by
  refine Finset.card_image_le.trans ?_
  rw [Finset.card_product,Finset.card_range,Finset.card_range]
  decide

/-- The lists of the cache are intact, and it holds first blocks only, for which there is room. -/
def Probing (c : Scache) : Prop := ∃ L, c.Inv L ∧ ∀ i < c.alist.cnt, c.src (some i) ∈ firstBlocks

theorem boot_probing (disk : ℕ → ℕ → UInt8) : Probing (State.boot disk).scache :=
  ⟨_,Scache.boot_inv disk,fun i hi => absurd hi (Nat.not_lt_zero i)⟩

theorem Probing.get {d : ℕ} {D : BlkDevs} (h : Probing c) (hd : DevOk d) (ho : D.openOk d) (n : ℕ) :
    ∃ i c', Scache.scacheGet D d 0 n c = some (some i,c') ∧ Probing c' := by
  obtain ⟨L,hL,hB⟩ := h
  have hspare : c.SparesHeads d 0 := fun hm hfull =>
    absurd hfull (hL.room card_firstBlocks hB (mem_firstBlocks hd) ((hL.seek_none hd).mp hm)).ne
  obtain ⟨i,L',c',hget,hinv,-,hsrc,hcase⟩ := hL.get n hd ho hspare
  refine ⟨i,c',hget,L',hinv,fun j hj => ?_⟩
  rcases hcase with ⟨-,-,rfl⟩ | ⟨-,hload⟩
  · exact hB j (by simpa [Scache.scachePromo] using hj)
  · by_cases hji : j = i
    · rw [hji,hsrc]
      exact mem_firstBlocks hd
    · obtain ⟨hsrcj,-,hlt⟩ := hload.other hji
      rw [hsrcj]
      exact hB j (hlt hj)

/-- What `mfs_probe`, `mfs_blksz` and `mfs_lsblk` do: a value is computed from the buffer of
block 0. -/
theorem wp_block_zero {α : Type} {f : (ℕ → UInt8) → α} {Q : α → State → Prop} {X : State → Prop} {blksize : Int32}
    (hb : ¬ (blksize < 0 ∨ NMXBLKSZ < blksize.toNatClampNeg / 512 * 512)) :
    wp (do
      let buf ← buffer (← scacheGet E dev 0 blksize)
      return f buf) Q X s ↔
    match Scache.scacheGet E.devs dev.toNat 0 blksize.toNatClampNeg s.scache with
    | none => X s
    | some (none,c) => X { s with scache := c }
    | some (some i,c) => Q (f (c.buf (some i))) { s with scache := c } := by
  rw [wp_bind,wp_scacheGet_of hb,Int32.toInt_zero]
  rcases Scache.scacheGet E.devs dev.toNat 0 blksize.toNatClampNeg s.scache with _ | ⟨_ | i,c⟩ <;> rfl

theorem wp_block_zero_found {α : Type} {f : (ℕ → UInt8) → α} {Q : α → State → Prop} {X : State → Prop} {blksize : Int32}
    (hb : ¬ (blksize < 0 ∨ NMXBLKSZ < blksize.toNatClampNeg / 512 * 512))
    (h : Scache.scacheGet E.devs dev.toNat 0 blksize.toNatClampNeg s.scache = some (some i,c))
    (hQ : Q (f (c.buf (some i))) { s with scache := c }) :
    wp (do
      let buf ← buffer (← scacheGet E dev 0 blksize)
      return f buf) Q X s := by
  rw [wp_block_zero hb,h]
  exact hQ

/-- A mount of a device that opens returns. -/
theorem wp_mount_ends (hdev hino : UInt32) (h : Probing s.scache) (hd : DevOk dev.toNat) (ho : E.devs.openOk dev.toNat) :
    wp (mountabMount E hdev hino dev) (fun _ t => Probing t.scache) (fun _ => False) s := by
  simp only [mountabMount,wp_bind,mountabGet,Prog.wp_get,wp_pure]
  split
  · exact h
  · simp only [wp_bind,Prog.wp_get]
    split
    · rename_i j _
      simp only [wp_bind,wp_setVnode (show (VPtr.root j).isNode from rfl),wp_setMount,fsProbe]
      obtain ⟨a,c₁,h₁,hp₁⟩ := h.get hd ho 512
      refine wp_block_zero_found (by decide) h₁ ?_
      split
      · simp only [wp_pure,reduceCtorEq,if_false,wp_bind,fsCall]
        obtain ⟨b,c₂,h₂,hp₂⟩ := hp₁.get hd ho 512
        refine wp_block_zero_found (by decide) h₂ ?_
        obtain ⟨k,c₃,h₃,hp₃⟩ := hp₂.get hd ho NMXBLKSZ
        rw [wp_setMount]
        exact wp_block_zero_found (by decide) h₃ hp₃
      · exact hp₁
    · exact h

/-! ## Runs -/

inductive MountCall where
  | mount (hdev hino dev : UInt32)
  | umount (dev : UInt32)

def MountCall.prog (E : Env) : MountCall → K ℤ
  | .mount hdev hino dev => mountabMount E hdev hino dev
  | .umount dev => mountabUmount dev

/-- The state after a call, also where it stops midway. -/
def leave (E : Env) (s : State) (c : MountCall) : State := ((c.prog E).run s).2

/-- A slot in use shares its device with no other slot, in use or not. -/
def Unique (s : State) : Prop :=
  ∀ i < NVFSMNTS, ∀ j < NVFSMNTS, (s.mountab i).stat → (s.vnode (.root i)).dev = (s.vnode (.root j)).dev → i = j

theorem PutOn.dev_self (h : PutOn i dev s t) : (t.vnode (.root i)).dev = dev := by
  rw [h.root,update_self]

theorem PutOn.dev_other (h : PutOn i dev s t) (hj : j ≠ i) : (t.vnode (.root j)).dev = (s.vnode (.root j)).dev := by
  rw [h.root,update_of_ne (fun he => hj (VPtr.root.inj he))]

/-- The device is found where it was put. -/
theorem PutOn.get (h : PutOn i dev s t) : (mountabGet dev).run t = (.ok (some i),t) := by
  have hfind : (List.range NVFSMNTS).find? (fun j => (t.vnode (.root j)).dev = dev) = some i := by
    obtain ⟨j,hj⟩ := Option.isSome_iff_exists.mp (find_isSome.mpr ⟨i,h.lt,h.dev_self⟩ :
      ((List.range NVFSMNTS).find? (fun j => (t.vnode (.root j)).dev = dev)).isSome)
    obtain ⟨hlt,hdev⟩ := find_eq_some hj
    by_contra hne
    have hji : j ≠ i := fun he => hne (he ▸ hj)
    exact h.unlisted ⟨j,hlt,(h.dev_other hji).symm.trans hdev⟩
  rw [mountabGet_run,hfind]

theorem Unique.putOn (h : Unique s) (ht : PutOn i dev s t) : Unique t := by
  intro k hk j hj hstat hdev
  by_cases hki : k = i
  · by_cases hji : j = i
    · rw [hki,hji]
    · rw [hki,ht.dev_self,ht.dev_other hji] at hdev
      exact absurd ⟨j,hj,hdev.symm⟩ ht.unlisted
  · rw [ht.other k hki] at hstat
    by_cases hji : j = i
    · rw [hji,ht.dev_self,ht.dev_other hki] at hdev
      exact absurd ⟨k,hk,hdev⟩ ht.unlisted
    · rw [ht.dev_other hki,ht.dev_other hji] at hdev
      exact h k hk j hj hstat hdev

theorem Unique.release (h : Unique s) {m : Mountab} (hm : m.stat = false) :
    Unique { s with mountab := update s.mountab i m } := by
  intro k hk j hj hstat hdev
  by_cases hki : k = i
  · simp [hki,hm] at hstat
  · simp only [update_of_ne hki] at hstat
    exact h k hk j hj hstat hdev

/-- One call, whether it ends or stops. -/
theorem Unique.leave (h : Unique s) (c : MountCall) : Unique (leave E s c) := by
  refine wp.left ?_
  cases c with
  | mount hdev hino dev =>
    refine (wp_mountabMount E hdev hino dev s).mono ?_ ?_
    · rintro r t - (⟨-,rfl,-⟩ | ⟨-,-,i,ht,-⟩ | ⟨-,-,i,ht,-⟩)
      · exact h
      · exact h.putOn ht
      · exact h.putOn ht
    · rintro t - ⟨⟨i,ht,-⟩,-⟩
      exact h.putOn ht
  | umount dev =>
    refine (wp_mountabUmount dev s).mono ?_ (fun _ _ => False.elim)
    rintro r t - (⟨-,rfl,-⟩ | ⟨-,i,-,-,-,rfl⟩)
    · exact h
    · exact h.release rfl

theorem unique_boot (disk : ℕ → ℕ → UInt8) : Unique (.boot disk) :=
  fun _ _ _ _ hstat => absurd hstat Bool.false_ne_true

theorem unique_run (disk : ℕ → ℕ → UInt8) (cs : List MountCall) : Unique (cs.foldl (Filesys.leave E) (.boot disk)) := by
  induction cs using List.reverseRecOn with
  | nil => exact unique_boot disk
  | append_singleton cs c ih =>
    rw [List.foldl_concat]
    exact ih.leave c

theorem Unique.get (h : Unique s) (hi : i < NVFSMNTS) (hstat : (s.mountab i).stat) :
    (mountabGet (s.vnode (.root i)).dev).run s = (.ok (some i),s) := by
  rw [mountabGet_run]
  congr 2
  obtain ⟨j,hj⟩ := Option.isSome_iff_exists.mp (find_isSome.mpr ⟨i,hi,rfl⟩ :
    ((List.range NVFSMNTS).find? (fun j => (s.vnode (.root j)).dev = (s.vnode (.root i)).dev)).isSome)
  obtain ⟨hlt,hdev⟩ := find_eq_some hj
  rw [hj,h i hi j hlt hstat hdev.symm]

/-- After any calls, also some that stopped midway, a mounted device is on exactly one slot,
that slot is in use, and `mountab_get` returns it. -/
theorem mounted_unambiguous (E : Env) (disk : ℕ → ℕ → UInt8) (cs : List MountCall) (d : UInt32)
    (h : Mounted (cs.foldl (leave E) (.boot disk)) d) :
    ∃ i < NVFSMNTS, ((cs.foldl (leave E) (.boot disk)).mountab i).stat ∧
      (∀ j < NVFSMNTS, ((cs.foldl (leave E) (.boot disk)).vnode (.root j)).dev = d ↔ j = i) ∧
      (mountabGet d).run (cs.foldl (leave E) (.boot disk)) = (.ok (some i),cs.foldl (leave E) (.boot disk)) := by
  have hu := unique_run (E := E) disk cs
  obtain ⟨i,hi,hstat,rfl⟩ := h
  refine ⟨i,hi,hstat,fun j hj => ⟨fun hd => (hu i hi j hj hstat hd.symm).symm,fun he => he ▸ rfl⟩,hu.get hi hstat⟩

/-! ## A partial map from devices? -/

def returns (E : Env) (s : State) (c : MountCall) : Option State :=
  match (c.prog E).run s with
  | (.ok _,t) => some t
  | (.error _,_) => none

def Found (d : UInt32) (s : State) : Prop := (∃ i, (mountabGet d).run s = (.ok (some i),s)) ↔ Mounted s d

def SameTable (s t : State) : Prop :=
  ∀ i < NVFSMNTS, t.mountab i = s.mountab i ∧ t.vnode (.root i) = s.vnode (.root i)

def Sound (E : Env) (d : UInt32) (s : State) : MountCall → Prop
  | .mount hdev hino dev => dev = d → ∃ r t, (mountabMount E hdev hino d).run s = (.ok r,t) ∧
      (r = 0 ↔ ¬ Mounted s d ∧ Recognised E s d ∧ HasFree s) ∧ (r = 0 ∨ r = -1 ∧ SameTable s t)
  | .umount dev => dev = d → ∃ r t, (mountabUmount d).run s = (.ok r,t) ∧ (Mounted s d →
      ∀ hdev hino, Recognised E t d → ∃ t', (mountabMount E hdev hino d).run t = (.ok 0,t'))

def MountCall.Opens (E : Env) : MountCall → Prop
  | .mount _ _ dev => DevOk dev.toNat ∧ E.devs.openOk dev.toNat
  | .umount _ => True

/-- No mount of `d` fails in the probe, and `d` is not unmounted. -/
def Kept (E : Env) (d : UInt32) (s : State) : MountCall → Prop
  | .mount _ _ dev => dev = d → Rejected E s d → Mounted s d ∨ ¬ HasFree s
  | .umount dev => dev = d → ¬ Mounted s d

theorem found_iff : Found d s ↔ (Listed s d → Mounted s d) := by
  have hget : (∃ i, (mountabGet d).run s = (.ok (some i),s)) ↔ Listed s d := by
    rw [mountabGet_run,Listed,← find_isSome,Option.isSome_iff_exists]
    simp
  rw [Found,hget]
  refine ⟨Iff.mp,fun h => ⟨h,?_⟩⟩
  rintro ⟨i,hi,-,hd⟩
  exact ⟨i,hi,hd⟩

theorem PutOn.not_mounted (h : PutOn i dev s t) : ¬ Mounted s dev :=
  fun ⟨j,hj,_,hd⟩ => h.unlisted ⟨j,hj,hd⟩

/-- A slot put to another use does not carry a mounted device. -/
theorem Mounted.putOn (h : Mounted s d) (ht : PutOn i dev s t) : Mounted t d := by
  obtain ⟨k,hk,hstat,hd⟩ := h
  have hki : k ≠ i := by
    rintro rfl
    rw [ht.free] at hstat
    cases hstat
  exact ⟨k,hk,by rw [ht.other k hki]; exact hstat,by rw [ht.dev_other hki]; exact hd⟩

theorem Found.putOn (h : Found d s) (ht : PutOn i dev s t) (hd : dev ≠ d) : Found d t := by
  rw [found_iff] at h ⊢
  rintro ⟨j,hj,hjd⟩
  have hji : j ≠ i := by
    rintro rfl
    exact hd (ht.dev_self.symm.trans hjd)
  exact (h ⟨j,hj,(ht.dev_other hji).symm.trans hjd⟩).putOn ht

theorem Found.call {c : MountCall} (h : Found d s) (hk : Kept E d s c) :
    wp (c.prog E) (fun _ t => Found d t) (fun _ => True) s := by
  cases c with
  | mount hdev hino dev =>
    refine (wp_mountabMount E hdev hino dev s).mono ?_ (fun _ _ _ => trivial)
    by_cases hd : dev = d
    · subst hd
      rintro r t - (⟨-,rfl,-⟩ | ⟨-,-,i,ht,hstat⟩ | ⟨-,hrej,i,ht,-⟩)
      · exact h
      · exact found_iff.mpr (fun _ => ⟨i,ht.lt,hstat,ht.dev_self⟩)
      · exact absurd (hk rfl hrej) (not_or.mpr ⟨ht.not_mounted,not_not_intro ⟨i,ht.lt,ht.free⟩⟩)
    · rintro r t - (⟨-,rfl,-⟩ | ⟨-,-,i,ht,-⟩ | ⟨-,-,i,ht,-⟩)
      · exact h
      · exact h.putOn ht hd
      · exact h.putOn ht hd
  | umount dev =>
    refine (wp_mountabUmount dev s).mono ?_ (fun _ _ _ => trivial)
    rintro r t - (⟨-,rfl,-⟩ | ⟨-,i,hi,hstat,hdev,rfl⟩)
    · exact h
    · have hne : dev ≠ d := fun he => hk he ⟨i,hi,hstat,he ▸ hdev⟩
      rw [found_iff] at h ⊢
      intro hl
      obtain ⟨k,hk,hkstat,hkd⟩ := h hl
      have hki : k ≠ i := by
        rintro rfl
        exact hne (hdev.symm.trans hkd)
      exact ⟨k,hk,by simpa only [update_of_ne hki] using hkstat,hkd⟩

theorem Found.sound {c : MountCall} (h : Found d s) (hk : Kept E d s c) (hp : Probing s.scache) (hc : c.Opens E) :
    Sound E d s c := by
  rw [found_iff] at h
  cases c with
  | mount hdev hino dev =>
    rintro rfl
    obtain ⟨r,t,hrun,-⟩ := (wp_mount_ends hdev hino hp hc.1 hc.2).run
    refine ⟨r,t,hrun,?_⟩
    have hw := (wp_mountabMount E hdev hino dev s).of_run hrun
    rcases hw with ⟨rfl,rfl,hno⟩ | ⟨rfl,hrec,i,ht,-⟩ | ⟨rfl,hrej,i,ht,-⟩
    · refine ⟨iff_of_false (by decide) ?_,Or.inr ⟨rfl,fun _ _ => ⟨rfl,rfl⟩⟩⟩
      rintro ⟨hm,-,hf⟩
      rcases hno with hl | hf'
      · exact hm (h hl)
      · exact hf' hf
    · exact ⟨iff_of_true rfl ⟨ht.not_mounted,hrec,i,ht.lt,ht.free⟩,Or.inl rfl⟩
    · exact absurd (hk rfl hrej) (not_or.mpr ⟨ht.not_mounted,not_not_intro ⟨i,ht.lt,ht.free⟩⟩)
  | umount dev =>
    rintro rfl
    obtain ⟨r,t,hrun,-⟩ := (wp_mountabUmount dev s).run
    exact ⟨r,t,hrun,fun hm => absurd hm (hk rfl)⟩

/-- A call that breaks the condition shows. -/
theorem Found.kept {c : MountCall} (h : Found d s) (hu : Unique s) (hs : Sound E d s c)
    (ht : ∀ t, returns E s c = some t → Found d t) : Kept E d s c := by
  cases c with
  | mount hdev hino dev =>
    rintro rfl hrej
    obtain ⟨r,t,hrun,-,hsame⟩ := hs rfl
    rcases (wp_mountabMount E hdev hino dev s).of_run hrun with ⟨-,-,hl | hf⟩ | ⟨-,hrec,-⟩ | ⟨rfl,-,i,hp,-⟩
    · exact Or.inl (found_iff.mp h hl)
    · exact Or.inr hf
    · exact (recognised_or_rejected hrec hrej).elim
    · rcases hsame with h0 | ⟨-,hsame⟩
      · cases h0
      · refine absurd ⟨i,hp.lt,?_⟩ hp.unlisted
        rw [← (hsame i hp.lt).2]
        exact hp.dev_self
  | umount dev =>
    rintro rfl hm
    obtain ⟨r,t,hrun,hw⟩ := (wp_mountabUmount dev s).run
    have hfound := found_iff.mp (ht t (by simp only [returns,MountCall.prog,hrun]))
    rcases hw with ⟨-,-,hnm⟩ | ⟨-,i,hi,hstat,hdev,rfl⟩
    · exact hnm hm
    · obtain ⟨k,hk,hkstat,hkd⟩ := hfound ⟨i,hi,hdev⟩
      by_cases hki : k = i
      · simp [hki] at hkstat
      · simp only [update_of_ne hki] at hkstat
        exact hki (hu k hk i hi hkstat (hkd.trans hdev.symm))

theorem returns_eq {c : MountCall} (h : returns E s c = some t) : ∃ r, (c.prog E).run s = (.ok r,t) := by
  rw [returns] at h
  split at h
  · rename_i r u hr
    exact ⟨r,Option.some.inj h ▸ hr⟩
  · cases h

theorem Unique.returns {c : MountCall} (h : Unique s) (hr : returns E s c = some t) : Unique t := by
  obtain ⟨r,hr⟩ := returns_eq hr
  have hl := h.leave (E := E) c
  rwa [Filesys.leave,hr] at hl

theorem not_found_boot (disk : ℕ → ℕ → UInt8) : ¬ Found 0 (.boot disk) := by
  rw [found_iff]
  intro h
  obtain ⟨i,-,hstat,-⟩ := h ⟨0,by decide,rfl⟩
  exact Bool.false_ne_true hstat

theorem found_boot (disk : ℕ → ℕ → UInt8) (hd : d ≠ 0) : Found d (.boot disk) :=
  found_iff.mpr (fun ⟨_,_,h⟩ => absurd h.symm hd)

/-- Along the run, the table is a partial map as far as device `d` is concerned. -/
def PartialMap (E : Env) (disk : ℕ → ℕ → UInt8) (cs : List MountCall) (d : UInt32) : Prop :=
  (∀ pre s, pre <+: cs → pre.foldlM (returns E) (.boot disk) = some s → Found d s) ∧
    Runs.AllSteps (returns E) (Sound E d) (.boot disk) cs

theorem Probing.returns {c : MountCall} (h : Probing s.scache) (hc : c.Opens E) :
    ∃ t, returns E s c = some t ∧ Probing t.scache := by
  have hends : wp (c.prog E) (fun _ t => Probing t.scache) (fun _ => False) s := by
    cases c with
    | mount hdev hino dev => exact wp_mount_ends hdev hino h hc.1 hc.2
    | umount dev =>
      refine (wp_mountabUmount dev s).mono ?_ (fun _ _ => False.elim)
      rintro r t - (⟨-,rfl,-⟩ | ⟨-,i,-,-,-,rfl⟩)
      · exact h
      · exact h
  obtain ⟨r,t,hrun,ht⟩ := hends.run
  exact ⟨t,by simp only [Filesys.returns,hrun],ht⟩

/-- Every run of calls for devices that open comes to its end. -/
theorem run_returns (disk : ℕ → ℕ → UInt8) {cs : List MountCall} (ho : ∀ c ∈ cs, c.Opens E) :
    ∃ s, cs.foldlM (returns E) (.boot disk) = some s ∧ Unique s ∧ Probing s.scache := by
  induction cs using List.reverseRecOn with
  | nil => exact ⟨_,rfl,unique_boot disk,boot_probing disk⟩
  | append_singleton cs c ih =>
    obtain ⟨s,hs,hu,hp⟩ := ih (fun c hc => ho c (List.mem_append_left _ hc))
    obtain ⟨t,ht,hp'⟩ := hp.returns (ho c (by simp))
    refine ⟨t,?_,hu.returns ht,hp'⟩
    rw [Runs.foldlM_concat,hs]
    exact ht

theorem partialMap_kept {disk : ℕ → ℕ → UInt8} {cs : List MountCall} (ho : ∀ c ∈ cs, c.Opens E) :
    PartialMap E disk cs d ↔ d ≠ 0 ∧ Runs.AllSteps (returns E) (Kept E d) (.boot disk) cs := by
  have hinv : ∀ (pre : List MountCall) s, pre <+: cs → pre.foldlM (returns E) (.boot disk) = some s →
      Unique s ∧ Probing s.scache := by
    intro pre s hpre hs
    obtain ⟨t,ht,hinv⟩ := run_returns disk (fun c hc => ho c (hpre.subset hc))
    obtain rfl : t = s := Option.some.inj (ht.symm.trans hs)
    exact hinv
  constructor
  · rintro ⟨hfound,hsound⟩
    have hd : d ≠ 0 := by
      rintro rfl
      exact not_found_boot disk (hfound [] _ (List.nil_prefix) rfl)
    refine ⟨hd,fun pre c s hpre hs => ?_⟩
    have hpre' := (List.prefix_append pre [c]).trans hpre
    refine (hfound pre s hpre' hs).kept (hinv pre s hpre' hs).1 (hsound pre c s hpre hs) ?_
    intro t ht
    exact hfound (pre ++ [c]) t hpre (by rw [Runs.foldlM_concat,hs]; exact ht)
  · rintro ⟨hd,hkept⟩
    have hfound : ∀ pre s, pre <+: cs → pre.foldlM (returns E) (.boot disk) = some s → Found d s := by
      intro pre s hpre hs
      refine (Runs.run_inv (P := fun q s => q.foldlM (returns E) (.boot disk) = some s ∧ Found d s)
        ⟨rfl,found_boot disk hd⟩ ?_ hs).2
      rintro q s c t hq ⟨hs,hf⟩ hr
      obtain ⟨r,hrun⟩ := returns_eq hr
      exact ⟨by rw [Runs.foldlM_concat,hs]; exact hr,(hf.call (hkept q c s (hq.trans hpre) hs)).of_run hrun⟩
    refine ⟨hfound,fun pre c s hpre hs => ?_⟩
    have hpre' := (List.prefix_append pre [c]).trans hpre
    exact (hfound pre s hpre' hs).sound (hkept pre c s hpre hs) (hinv pre s hpre' hs).2 (ho c (hpre.subset (by simp)))

/-- Every run of calls for devices that open comes to its end, and for every device the table is
a partial map exactly if it is not device 0, none of its mounts fails in the probe, and it is
never unmounted. -/
theorem mountab_partial_map_iff (E : Env) (disk : ℕ → ℕ → UInt8) (cs : List MountCall) (d : UInt32)
    (ho : ∀ c ∈ cs, c.Opens E) : (∃ s, cs.foldlM (returns E) (.boot disk) = some s) ∧
      (PartialMap E disk cs d ↔ d ≠ 0 ∧ Runs.AllSteps (returns E) (Kept E d) (.boot disk) cs) := by
  obtain ⟨s,hs,-⟩ := run_returns disk ho
  exact ⟨⟨s,hs⟩,partialMap_kept ho⟩

def openEnv : Env := ⟨⟨fun _ => true,fun _ _ => true⟩,fun _ => 0,fun _ => 0,0⟩

def magicDisk (_ a : ℕ) : UInt8 := [77,70,83].getD a 0

def mixedDisk (d a : ℕ) : UInt8 := if d = 3 then 0 else magicDisk d a

theorem opens_small {c : MountCall} (h : ∀ hdev hino dev, c = .mount hdev hino dev → dev.toNat < 8) : c.Opens openEnv := by
  cases c with
  | umount dev => trivial
  | mount hdev hino dev =>
    have hlt := h hdev hino dev rfl
    exact ⟨⟨by rw [Nat.div_eq_of_lt (by omega)]; decide,(Nat.mod_eq_of_lt (by omega)).trans_lt hlt⟩,rfl⟩

/-- Two mounts of device 1, one of a device without a file system and one of another device,
which is then unmounted. -/
def mountCalls : List MountCall := [.mount 0 0 1,.mount 0 4 3,.mount 0 5 2,.mount 0 0 1,.umount 2]

theorem mountCalls_open : ∀ c ∈ mountCalls, c.Opens openEnv := by
  intro c hc
  apply opens_small
  rintro hdev hino dev rfl
  simp only [mountCalls,List.mem_cons,MountCall.mount.injEq,reduceCtorEq,List.not_mem_nil,or_false] at hc
  rcases hc with ⟨-,-,rfl⟩ | ⟨-,-,rfl⟩ | ⟨-,-,rfl⟩ | ⟨-,-,rfl⟩ <;> decide

/-- The table stays a partial map for device 1. -/
theorem partial_map_mounted : (∃ s, mountCalls.foldlM (returns openEnv) (.boot mixedDisk) = some s) ∧
    PartialMap openEnv mixedDisk mountCalls 1 := by
  obtain ⟨hends,hiff⟩ := mountab_partial_map_iff openEnv mixedDisk mountCalls 1 mountCalls_open
  refine ⟨hends,hiff.mpr ⟨by decide,?_⟩⟩
  refine Runs.allSteps_cons (fun _ hrej => (recognised_or_rejected ⟨_,rfl⟩ hrej).elim) (fun s hs => ?_)
  obtain rfl := Option.some.inj hs
  refine Runs.allSteps_cons (fun he => absurd he (by decide)) (fun s hs => ?_)
  obtain rfl := Option.some.inj hs
  refine Runs.allSteps_cons (fun he => absurd he (by decide)) (fun s hs => ?_)
  obtain rfl := Option.some.inj hs
  refine Runs.allSteps_cons (fun _ _ => Or.inl ⟨0,by decide,rfl,rfl⟩) (fun s hs => ?_)
  obtain rfl := Option.some.inj hs
  exact Runs.allSteps_cons (fun he => absurd he (by decide)) (fun _ _ => Runs.allSteps_nil)

/-- After its release a device cannot be mounted again. -/
theorem umount_blocks_mount : (∀ c ∈ [.mount 0 0 1,.umount 1], MountCall.Opens openEnv c) ∧
    ∃ s, [.mount 0 0 1,.umount 1].foldlM (returns openEnv) (.boot magicDisk) = some s ∧
    ¬ Mounted s 1 ∧ Recognised openEnv s 1 ∧ HasFree s ∧
    (mountabMount openEnv 0 0 1).run s = (.ok (-1),s) ∧ ¬ PartialMap openEnv magicDisk [.mount 0 0 1,.umount 1] 1 := by
  have hopens : ∀ c ∈ [.mount 0 0 1,.umount 1], MountCall.Opens openEnv c := by
    intro c hc
    apply opens_small
    rintro hdev hino dev rfl
    simp only [List.mem_cons,MountCall.mount.injEq,reduceCtorEq,List.not_mem_nil,or_false] at hc
    rw [hc.2.2]
    decide
  refine ⟨hopens,_,rfl,?_,⟨_,rfl⟩,⟨0,by decide,rfl⟩,rfl,?_⟩
  · rintro ⟨i,hi,hstat,-⟩
    cases i with
    | zero => cases hstat
    | succ i => cases hstat
  · rw [partialMap_kept hopens]
    rintro ⟨-,hkept⟩
    exact hkept [.mount 0 0 1] (.umount 1) _ (List.prefix_refl _) rfl rfl ⟨0,by decide,rfl,rfl⟩

def shutEnv : Env := { openEnv with devs := ⟨fun d => d ≠ 4,fun _ _ => true⟩ }

def brokenCalls : List MountCall := [.mount 0 0 4,.mount 0 0 1,.mount 0 4 3,.umount 1,.mount 0 0 2,.mount 0 5 5]

def brokenEnd : State := brokenCalls.foldl (leave shutEnv) (.boot mixedDisk)

/-- Both devices that are mounted in the end are found. -/
theorem mounted_at_boot : (∃ i < NVFSMNTS, (brokenEnd.mountab i).stat ∧
      (∀ j < NVFSMNTS, (brokenEnd.vnode (.root j)).dev = 2 ↔ j = i) ∧
      (mountabGet 2).run brokenEnd = (.ok (some i),brokenEnd)) ∧
    ∃ i < NVFSMNTS, (brokenEnd.mountab i).stat ∧
      (∀ j < NVFSMNTS, (brokenEnd.vnode (.root j)).dev = 5 ↔ j = i) ∧
      (mountabGet 5).run brokenEnd = (.ok (some i),brokenEnd) :=
  ⟨mounted_unambiguous shutEnv mixedDisk brokenCalls 2 ⟨0,by decide,rfl,rfl⟩,
    mounted_unambiguous shutEnv mixedDisk brokenCalls 5 ⟨1,by decide,rfl,rfl⟩⟩

end Micron.Filesys

import Micron.Filesys.Access
import Micron.Filesys.Mount
import Micron.Kernel.ScacheSizes

/-! # The super block of a mount

`mountab_mount` asks for block 0 three times, twice in blocks of a sector and then in the
largest block, of which `mfs_lsblk` copies all bytes. What it copies is the buffer that the
first request has filled.
-/
namespace Micron.Filesys
open Function Bytes Kernel Scache Prog Runs
variable {E : Env} {s t : State} {dev hdev hino : UInt32} {disk : ℕ → ℕ → UInt8} {gs : List Get} {x y : Scache × Origins}
  {c c₁ c₂ c₃ : Scache} {a b d i k : ℕ}

def probeGets (dev : UInt32) : List Get := [⟨dev.toNat,0,512⟩,⟨dev.toNat,0,512⟩]

def sblkGet (dev : UInt32) : Get := ⟨dev.toNat,0,NMXBLKSZ⟩

def SblkRead (E : Env) (dev : UInt32) (c : Scache) (i : ℕ) (c₃ : Scache) : Prop :=
  ∃ c₂, (probeGets dev).foldlM (getStep E.devs) c = some c₂ ∧
    Scache.scacheGet E.devs dev.toNat 0 NMXBLKSZ c₂ = some (some i,c₃)

theorem probe_run {p q : Ptr} (h₁ : Scache.scacheGet E.devs dev.toNat 0 512 c = some (p,c₁))
    (h₂ : Scache.scacheGet E.devs dev.toNat 0 512 c₁ = some (q,c₂)) :
    (probeGets dev).foldlM (getStep E.devs) c = some c₂ := by
  simp [probeGets,getStep,h₁,h₂]

/-- Whatever else may happen, the value comes from the entry that was returned. -/
theorem wp_block_zero_of {α : Type} {f : (ℕ → UInt8) → α} {Q : α → State → Prop} {blksize : Int32}
    (hb : ¬ (blksize < 0 ∨ NMXBLKSZ < blksize.toNatClampNeg / 512 * 512))
    (hQ : ∀ i c, Scache.scacheGet E.devs dev.toNat 0 blksize.toNatClampNeg s.scache = some (some i,c) →
      Q (f (c.buf (some i))) { s with scache := c }) :
    wp (do
      let buf ← buffer (← scacheGet E dev 0 blksize)
      return f buf) Q (fun _ => True) s := by
  rw [wp_block_zero hb]
  split
  · trivial
  · trivial
  · exact hQ _ _ ‹_›

/-- A mount that succeeds has copied the super block out of the entry that the last request
returned. -/
theorem wp_mount_sblk (E : Env) (hdev hino dev : UInt32) (s : State) : wp (mountabMount E hdev hino dev)
    (fun r t => r = 0 → ∃ i j, SblkRead E dev s.scache i t.scache ∧ PutOn j dev s t ∧ (t.mountab j).stat = true ∧
      ∀ k < NMXBLKSZ, (t.mountab j).sblk k = t.scache.buf (some i) k) (fun _ => True) s := by
  simp only [mountabMount,wp_bind,mountabGet,Prog.wp_get,wp_pure]
  split
  · exact fun h => absurd h (by decide)
  · rename_i hlist
    simp only [wp_bind,Prog.wp_get]
    split
    · rename_i j hj
      obtain ⟨hlt,hfree⟩ := find_eq_some hj
      simp only [wp_bind,wp_setVnode (show (VPtr.root j).isNode from rfl),wp_setMount,fsProbe]
      refine wp_block_zero_of (by decide) (fun a c₁ h₁ => ?_)
      split
      · -- the device is recognised
        simp only [wp_pure,reduceCtorEq,if_false,wp_bind,fsCall]
        refine wp_block_zero_of (by decide) (fun b c₂ h₂ => ?_)
        rw [wp_setMount]
        refine wp_block_zero_of (by decide) (fun i c₃ h₃ => ?_)
        simp only [wp_setMount]
        have hprobe : (probeGets dev).foldlM (getStep E.devs) s.scache = some c₂ := probe_run h₁ h₂
        refine fun _ => ⟨i,j,⟨c₂,hprobe,h₃⟩,⟨hlt,hfree,fun hl => hlist (find_isSome.mpr hl),rfl,fun k hk => ?_⟩,
          by rw [update_self],fun k hk => ?_⟩
        · simp only [update_of_ne hk]
        · rw [update_self,update_self]
          exact if_pos hk
      · exact fun h => absurd h (by decide)
    · exact fun h => absurd h (by decide)

/-- A device that is on no slot can be mounted on an empty table if its requests are served
and the first finds the magic number. -/
theorem mount_succeeds (hdev hino : UInt32) (hnew : ∀ j, (s.vnode (.root j)).dev ≠ dev)
    (hfree : ∀ j, (s.mountab j).stat = false)
    (h₁ : Scache.scacheGet E.devs dev.toNat 0 512 s.scache = some (some a,c₁))
    (hm : c₁.buf (some a) 0 = 77 ∧ c₁.buf (some a) 1 = 70 ∧ c₁.buf (some a) 2 = 83)
    (h₂ : Scache.scacheGet E.devs dev.toNat 0 512 c₁ = some (some b,c₂))
    (h₃ : Scache.scacheGet E.devs dev.toNat 0 NMXBLKSZ c₂ = some (some d,c₃)) :
    ∃ t, (mountabMount E hdev hino dev).run s = (.ok 0,t) := by
  have hnone : (List.range NVFSMNTS).find? (fun j => (s.vnode (.root j)).dev = dev) = none := by
    simp [hnew]
  have hzero : (List.range NVFSMNTS).find? (fun j => (s.mountab j).stat = false) = some 0 := by
    simp [hfree,NVFSMNTS,List.range_succ_eq_map]
  have hwp : wp (mountabMount E hdev hino dev) (fun r _ => r = 0) (fun _ => False) s := by
    simp only [mountabMount,wp_bind,mountabGet,Prog.wp_get,wp_pure,hnone,Option.isSome_none,Bool.false_eq_true,if_false,hzero,
      wp_setVnode (show (VPtr.root 0).isNode from rfl),wp_setMount,fsProbe]
    refine wp_block_zero_found (by decide) h₁ ?_
    rw [decide_eq_true hm]
    simp only [if_true,wp_pure,reduceCtorEq,if_false,wp_bind,fsCall]
    refine wp_block_zero_found (by decide) h₂ ?_
    rw [wp_setMount]
    exact wp_block_zero_found (by decide) h₃ trivial
  obtain ⟨r,t,hrun,rfl⟩ := hwp.run
  exact ⟨t,hrun⟩

/-- The entry of the device is in use, and its `sblk` holds the first bytes of the device, as
many as there is room for. -/
def SblkWhole (disk : ℕ → ℕ → UInt8) (dev : UInt32) (t : State) : Prop :=
  ∃ j, (mountabGet dev).run t = (.ok (some j),t) ∧ (t.mountab j).stat = true ∧
    ∀ k < NMXBLKSZ, (t.mountab j).sblk k = disk dev.toNat k

/-- After the requests `gs`, every mount that succeeds stores the whole super block. -/
def MountsWhole (E : Env) (gs : List Get) (dev : UInt32) : Prop :=
  ∀ disk s, getRun E.devs disk gs = some s.scache → ∀ hdev hino t, (mountabMount E hdev hino dev).run s = (.ok 0,t) →
    SblkWhole disk dev t

theorem sblkGet_first (dev : UInt32) : (sblkGet dev).first = 0 := Nat.zero_mul _

theorem magicDisk_ne_one (d a : ℕ) : magicDisk d a ≠ 1 := by
  match a with
  | 0 => exact show (77 : UInt8) ≠ 1 by decide
  | 1 => exact show (70 : UInt8) ≠ 1 by decide
  | 2 => exact show (83 : UInt8) ≠ 1 by decide
  | a + 3 => exact show (0 : UInt8) ≠ 1 by decide

def unlisted (c : Scache) (dev : UInt32) : State :=
  { State.boot c.disk with scache := c, vnode := fun _ => { Vnode.zero with dev := dev + 1 } }

theorem probes_concat : gs ++ probeGets dev = (gs ++ [Get.mk dev.toNat 0 512]) ++ [Get.mk dev.toNat 0 512] := by
  simp [probeGets]

section Requests
variable (hv : ∀ g ∈ gs ++ probeGets dev, g.Sized E.devs)
  (hs : AllSteps (readStep E.devs) Sparing (readStart fun _ _ => 0) (gs ++ probeGets dev))
include hv hs

/-- Once block 0 has been asked for, it is found, and its first sector is in place. -/
theorem probed (hy : (gs ++ probeGets dev).foldlM (readStep E.devs) (readStart disk) = some y) :
    ∃ i, y.1.scacheSeek (y.1.clist (slot dev.toNat)) 0 = some (some i) ∧ ∀ k < 512, y.2 i k = some (dev.toNat,k) := by
  rw [probes_concat] at hv hs hy
  obtain ⟨-,i,-,-,hseek⟩ := run_last hv hs hy
  exact ⟨i,hseek,fun k hk => run_last_zero hv hs hy hseek hk⟩

/-- A mount copies the whole super block if that is in place for its last request. -/
theorem mountsWhole_of_inPlace (hl : (sblkGet dev).Sized E.devs)
    (hin : ∀ y, (gs ++ probeGets dev).foldlM (readStep E.devs) (readStart fun _ _ => 0) = some y → InPlace y (sblkGet dev)) :
    MountsWhole E gs dev := by
  intro disk s hrun hdev hino t ht
  obtain ⟨i,j,⟨c,hprobe,hget⟩,hput,hstat,hsblk⟩ := (wp_mount_sblk E hdev hino dev s).of_run ht rfl
  have hfold : (gs ++ probeGets dev).foldlM (getStep E.devs) (boot disk) = some c := by
    rw [List.foldlM_append,show gs.foldlM (getStep E.devs) (boot disk) = some s.scache from hrun]
    exact hprobe
  rw [show boot disk = (readStart disk).1 from rfl,← map_foldlM (readStep_get E.devs)] at hfold
  obtain ⟨y,hy,rfl⟩ := Option.map_eq_some_iff.mp hfold
  obtain ⟨L,hL⟩ := run_traced hv hs hy
  obtain ⟨b,hseek,-⟩ := probed hv hs hy
  have hspare : y.1.SparesHeads dev.toNat 0 := fun hnone => by simp [hseek] at hnone
  have hplace : InPlace y (sblkGet dev) := by
    have hmap := map_foldlM (blank_readStep E.devs) (gs ++ probeGets dev) (readStart disk)
    rw [hy] at hmap
    exact hin (Prod.map blank id y) hmap.symm
  obtain ⟨a,c',hread,hdata⟩ := hL.delivers hl hspare hplace
  obtain ⟨rfl,rfl⟩ : i = a ∧ t.scache = c' := by simpa using hget.symm.trans hread
  refine ⟨j,hput.get,hstat,fun k hk => ?_⟩
  rw [hsblk k hk,hdata k hk,hL.disk_eq,sblkGet_first,Nat.zero_add]
  rfl

/-- A mount succeeds on a disk with the magic number and one byte more, behind the first sector. -/
theorem delivers_of_mountsWhole (hl : (sblkGet dev).Sized E.devs) (hm : MountsWhole E gs dev) {m : ℕ} (hge : 512 ≤ m)
    (hy : (gs ++ probeGets dev).foldlM (readStep E.devs) (readStart (spot magicDisk dev.toNat m)) = some y) :
    Delivers E.devs y.1 (sblkGet dev) := by
  obtain ⟨L,hL⟩ := run_traced hv hs hy
  obtain ⟨j,hseek,-⟩ := probed hv hs hy
  have hspare : y.1.SparesHeads dev.toNat 0 := fun hnone => by simp [hseek] at hnone
  obtain ⟨d,z,-,h₃,-⟩ := hL.read hl hspare
  rw [probes_concat] at hv hs hy
  obtain ⟨w,b,hw,h₂,-⟩ := run_last hv hs hy
  have hv' : ∀ g ∈ gs ++ [Get.mk dev.toNat 0 512], g.Sized E.devs := fun g hg => hv g (List.mem_append_left _ hg)
  have hs' := hs.mono (List.prefix_append (gs ++ [Get.mk dev.toNat 0 512]) _)
  obtain ⟨Lw,hLw⟩ := run_traced hv' hs' hw
  obtain ⟨x,a,hx,h₁,hseek'⟩ := run_last hv' hs' hw
  have hmagic : ∀ k < 3, w.1.buf (some a) k = magicDisk 0 k := by
    intro k hk
    rw [hLw.bytes,run_last_zero hv' hs' hw hseek' (by omega)]
    exact if_neg (fun he => by have := (Prod.mk.inj he).2; omega)
  obtain ⟨t,ht⟩ := mount_succeeds (s := unlisted x.1 dev) 0 0 (by simp [unlisted]) (fun _ => rfl) h₁
    ⟨hmagic 0 (by decide),hmagic 1 (by decide),hmagic 2 (by decide)⟩ h₂ h₃
  have hrun : getRun E.devs (spot magicDisk dev.toNat m) gs = some (unlisted x.1 dev).scache := by
    rw [getRun,show boot (spot magicDisk dev.toNat m) = (readStart (spot magicDisk dev.toNat m)).1 from rfl,
      ← map_foldlM (readStep_get E.devs),hx]
    rfl
  obtain ⟨j,hj,-,hwhole⟩ := hm _ _ hrun 0 0 t ht
  obtain ⟨i,j',⟨c,hprobe,hget⟩,hput,-,hsblk⟩ := (wp_mount_sblk E 0 0 dev (unlisted x.1 dev)).of_run ht rfl
  obtain rfl : j' = j := by simpa using hput.get.symm.trans hj
  obtain rfl : c = y.1 := Option.some.inj (hprobe.symm.trans (probe_run h₁ h₂))
  obtain ⟨rfl,-⟩ : i = d ∧ t.scache = z.1 := by simpa using hget.symm.trans h₃
  refine ⟨i,t.scache,hget,fun k hk => ?_⟩
  rw [← hsblk k hk,hwhole k hk,hL.disk_eq,sblkGet_first,Nat.zero_add]
  rfl

/-- If every mount copies the whole super block, it is in place. -/
theorem inPlace_of_mountsWhole (hl : (sblkGet dev).Sized E.devs) (hm : MountsWhole E gs dev)
    (hy : (gs ++ probeGets dev).foldlM (readStep E.devs) (readStart fun _ _ => 0) = some y) : InPlace y (sblkGet dev) := by
  obtain ⟨i,hseek,hsector⟩ := probed hv hs hy
  intro j hj k hk
  obtain rfl : i = j := by simpa using hseek.symm.trans hj
  rw [sblkGet_first,Nat.zero_add]
  by_cases hlt : k < 512
  · exact hsector k hlt
  have hspare : Sparing y (sblkGet dev) := fun hnone => by
    rw [show y.1.scacheSeek (y.1.clist (slot (sblkGet dev).dev)) (sblkGet dev).blk = some (some i) from hseek] at hnone
    cases hnone
  have hin := inPlace_of_delivers magicDisk_ne_one hv hs hy hl hspare hseek hk
    (fun z hz => delivers_of_mountsWhole hv hs hl hm (by omega) hz)
  rw [hin,sblkGet_first,Nat.zero_add]

/-- While there is room in the table, what counts is the block size of the first request for
block 0. -/
theorem short_mountsWhole_iff (hl : (sblkGet dev).Sized E.devs) (hlen : (gs ++ probeGets dev).length ≤ NSECACHS) :
    MountsWhole E gs dev ↔ ∃ g ∈ firstFor gs (dev.toNat,0), g.blksize = NMXBLKSZ := by
  obtain ⟨y,hy,L,hL⟩ := run_ends (fun _ _ => 0) hv hs
  have hin := (run_fresh hv hlen hy).inPlace_iff hL hv hl
  have hfirst : firstFor (gs ++ probeGets dev) (dev.toNat,0) =
      (firstFor gs (dev.toNat,0)).or (some ⟨dev.toNat,0,512⟩) := by
    rw [firstFor,List.find?_append,← firstFor,probeGets,List.find?_cons_of_pos (by simp)]
  have hmount : MountsWhole E gs dev ↔ InPlace y (sblkGet dev) := by
    refine ⟨fun hm => inPlace_of_mountsWhole hv hs hl hm hy,fun h => mountsWhole_of_inPlace hv hs hl (fun z hz => ?_)⟩
    obtain rfl : y = z := Option.some.inj (hy.symm.trans hz)
    exact h
  rw [hmount,hin,show ((sblkGet dev).dev,(sblkGet dev).blk) = (dev.toNat,0) from rfl,hfirst]
  cases hg : firstFor gs (dev.toNat,0) with
  | none => simp [Get.Agrees,sblkGet,NMXBLKSZ]
  | some g =>
    have hle := (hv g (List.mem_append_left _ (firstFor_eq hg).1)).supported
    simp only [Option.some_or,Option.mem_some_iff,forall_eq',exists_eq_left',Get.Agrees,sblkGet,true_and]
    omega

end Requests

/-- As long as no head of a list is recycled, all requests of a sequence are served right on
every disk exactly if none finds its block cached with bytes from other places than it asks
for. That is so if all of them agree with the earlier ones for their block, and in a sequence
that does not fill the table exactly if they agree with the first one. The `sblk` that a mount
stores is whole exactly if its bytes are in place when `mfs_lsblk` asks for them; while there
is room, exactly if block 0 was first asked for in the largest size. -/
theorem block_size_respected_iff (E : Env) (gs : List Get) (hv : ∀ g ∈ gs, g.Sized E.devs)
    (hs : AllSteps (readStep E.devs) Sparing (readStart fun _ _ => 0) gs) :
    ((∀ disk, AllSteps (getStep E.devs) (Delivers E.devs) (boot disk) gs) ↔
      AllSteps (readStep E.devs) InPlace (readStart fun _ _ => 0) gs) ∧
    (AllAgree gs → ∀ disk, AllSteps (getStep E.devs) (Delivers E.devs) (boot disk) gs) ∧
    (gs.length ≤ NSECACHS →
      ((∀ disk, AllSteps (getStep E.devs) (Delivers E.devs) (boot disk) gs) ↔ SizesAgree gs)) ∧
    ∀ dev, (∀ g ∈ sblkGet dev :: probeGets dev, g.Sized E.devs) →
      AllSteps (readStep E.devs) Sparing (readStart fun _ _ => 0) (gs ++ probeGets dev) →
      (MountsWhole E gs dev ↔ ∀ y, (gs ++ probeGets dev).foldlM (readStep E.devs) (readStart fun _ _ => 0) = some y →
        InPlace y (sblkGet dev)) ∧
      ((gs ++ probeGets dev).length ≤ NSECACHS →
        (MountsWhole E gs dev ↔ ∃ g ∈ firstFor gs (dev.toNat,0), g.blksize = NMXBLKSZ)) := by
  refine ⟨delivers_iff hv hs,fun h => (delivers_iff hv hs).mpr (inPlace_of_allAgree hv hs h),
    fun hlen => (delivers_iff hv hs).trans (short_inPlace_iff hv hlen),fun dev hp hs' => ?_⟩
  have hl : (sblkGet dev).Sized E.devs := hp _ List.mem_cons_self
  have hv' : ∀ g ∈ gs ++ probeGets dev, g.Sized E.devs := by
    intro g hg
    rcases List.mem_append.mp hg with hg | hg
    · exact hv g hg
    · exact hp g (List.mem_cons_of_mem _ hg)
  refine ⟨⟨fun hm y hy => ?_,fun hin => ?_⟩,short_mountsWhole_iff hv' hs' hl⟩
  · exact inPlace_of_mountsWhole hv' hs' hl hm hy
  · exact mountsWhole_of_inPlace hv' hs' hl hin

/-! ## Requests that agree and requests that do not -/

theorem sized_open {dev blk n : ℕ} (hd : DevOk dev) (hb : blk * (n / 512) < 2 ^ 31) (hn : 512 ∣ n) (h0 : 0 < n)
    (hle : n ≤ NMXBLKSZ) : (Get.mk dev blk n).Sized openEnv.devs := by
  have hf : (blk : ℤ) * (n / 512 : ℕ) < 2 ^ 31 := by exact_mod_cast hb
  exact ⟨⟨hd,Int.natCast_nonneg _,hf,fun _ => rfl⟩,rfl,hn,h0,hle⟩

def largestFirst : List Get := [⟨0,0,4096⟩,⟨0,0,512⟩,⟨0,3,1024⟩,⟨0,3,1024⟩]

theorem largestFirst_sized : ∀ g ∈ largestFirst ++ probeGets 0 ++ [sblkGet 0], g.Sized openEnv.devs := by
  have hzero : ∀ n, 512 ∣ n → 0 < n → n ≤ NMXBLKSZ → (Get.mk 0 0 n).Sized openEnv.devs :=
    fun n hn h0 hle => sized_open (by decide) (by simp) hn h0 hle
  have hthree : (Get.mk 0 3 1024).Sized openEnv.devs := sized_open (by decide) (by decide) (by decide) (by decide) (by decide)
  intro g hg
  simp only [largestFirst,probeGets,sblkGet,List.cons_append,List.nil_append,List.mem_cons,List.not_mem_nil,or_false] at hg
  rcases hg with rfl | rfl | rfl | rfl | rfl | rfl | rfl
  · exact hzero 4096 (by decide) (by decide) (by decide)
  · exact hzero 512 (by decide) (by decide) (by decide)
  · exact hthree
  · exact hthree
  · exact hzero 512 (by decide) (by decide) (by decide)
  · exact hzero 512 (by decide) (by decide) (by decide)
  · exact hzero NMXBLKSZ (by decide) (by decide) (by decide)

/-- The mount as well stores the whole super block. -/
theorem block_size_respected_largest :
    (∀ disk, AllSteps (getStep openEnv.devs) (Delivers openEnv.devs) (boot disk) largestFirst) ∧
      MountsWhole openEnv largestFirst 0 := by
  have hsized := largestFirst_sized
  obtain ⟨-,hagree,-,hmount⟩ := block_size_respected_iff openEnv largestFirst
    (fun g hg => hsized g (List.mem_append_left _ (List.mem_append_left _ hg))) (sparing_of_short (by decide))
  refine ⟨hagree (by decide),((hmount 0 (fun g hg => hsized g ?_) (sparing_of_short (by decide))).2 (by decide)).mpr ?_⟩
  · rcases List.mem_cons.mp hg with rfl | hg
    · simp
    · exact List.mem_append_left _ (List.mem_append_right _ hg)
  · exact ⟨⟨0,0,4096⟩,rfl,rfl⟩

def twoSectors : ℕ → ℕ → UInt8 := spot magicDisk 1 512

/-- After a request for block 1 in a sector, one in the largest block gets the bytes from 512
on instead of those from 4096 on. The super block that a mount after boot copies lacks all
bytes but the first sector. -/
theorem mount_sblk_short : (∀ g ∈ [Get.mk 1 1 512,Get.mk 1 1 4096], g.Sized openEnv.devs) ∧
    (∃ s t, getRun openEnv.devs twoSectors [⟨1,1,512⟩] = some s ∧
      Scache.scacheGet openEnv.devs 1 1 4096 s = some (some 0,t) ∧ t.buf (some 0) 0 = 1 ∧ twoSectors 1 4096 = 0 ∧
      ¬ Delivers openEnv.devs s ⟨1,1,4096⟩) ∧
    ∃ t, (mountabMount openEnv 0 0 1).run (.boot twoSectors) = (.ok 0,t) ∧
      (t.mountab 0).sblk 512 = 0 ∧ twoSectors 1 512 = 1 ∧ ¬ SblkWhole twoSectors 1 t := by
  have hread : ∃ s t, getRun openEnv.devs twoSectors [⟨1,1,512⟩] = some s ∧
      Scache.scacheGet openEnv.devs 1 1 4096 s = some (some 0,t) ∧ t.buf (some 0) 0 = 1 ∧ s.disk 1 4096 = 0 :=
    ⟨_,_,rfl,rfl,by decide,by decide⟩
  have hmount : ∃ t, (mountabMount openEnv 0 0 1).run (.boot twoSectors) = (.ok 0,t) ∧ (t.mountab 0).sblk 512 = 0 ∧
      (mountabGet 1).run t = (.ok (some 0),t) := ⟨_,rfl,by decide,rfl⟩
  obtain ⟨s,t,hs,hget,hbuf,hdisk⟩ := hread
  obtain ⟨u,hu,hzero,hentry⟩ := hmount
  refine ⟨?_,⟨s,t,hs,hget,hbuf,by decide,?_⟩,⟨u,hu,hzero,by decide,?_⟩⟩
  · intro g hg
    simp only [List.mem_cons,List.not_mem_nil,or_false] at hg
    rcases hg with rfl | rfl
    · exact sized_open (by decide) (by decide) (by decide) (by decide) (by decide)
    · exact sized_open (by decide) (by decide) (by decide) (by decide) (by decide)
  · rintro ⟨i,u,hget',hdata⟩
    obtain ⟨rfl,rfl⟩ : 0 = i ∧ t = u := by simpa using hget.symm.trans hget'
    have h0 : t.buf (some 0) 0 = s.disk 1 4096 := hdata 0 (by decide)
    rw [hbuf,hdisk] at h0
    exact absurd h0 (by decide)
  · rintro ⟨j,hj,-,h⟩
    obtain rfl : 0 = j := by simpa using hentry.symm.trans hj
    exact absurd (hzero.symm.trans (h 512 (by decide))) (by decide)

end Micron.Filesys

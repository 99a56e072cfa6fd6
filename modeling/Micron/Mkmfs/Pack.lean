import Micron.Mkmfs.Extents

/-! # The packed tree

`packdir` numbers the entries in the order of its walk. While it packs a directory, that
directory and each of its ancestors are the first child of their parent, so the path
string always leads back to the directory at once.
-/
namespace Micron.Mkmfs
open Function Bytes Linked

/-! ## Host directories within the capacity -/

structure NameOk (name : List UInt8) : Prop where
  nonempty : name ≠ []
  no_slash : slash ∉ name
  no_nul : 0 ∉ name
  length_lt : name.length < MFS_NAMELEN
  not_dots : isDots name = false

namespace Dir

def count : Dir → ℕ
  | done => 0
  | skip _ rest => rest.count
  | reg _ _ rest => rest.count + 1
  | dir _ sub rest => sub.count + rest.count + 1

def blocks : Dir → ℕ
  | done => 0
  | skip _ rest => rest.blocks
  | reg _ data rest => dblkr data.length + rest.blocks
  | dir _ sub rest => sub.blocks + rest.blocks

def nesting : Dir → ℕ
  | done => 0
  | skip _ rest | reg _ _ rest => rest.nesting
  | dir _ sub rest => max (sub.nesting + 1) rest.nesting

def NamesOk : Dir → Prop
  | done => True
  | skip _ rest => rest.NamesOk
  | reg name _ rest => NameOk name ∧ rest.NamesOk
  | dir name sub rest => NameOk name ∧ sub.NamesOk ∧ rest.NamesOk

/-- The files and directories below a directory have full paths of less than 512 bytes;
`n` is the length of its own path with a final slash. -/
def PathsShort (n : ℕ) : Dir → Prop
  | done => True
  | skip _ rest => rest.PathsShort n
  | reg name _ rest => n + name.length < 512 ∧ rest.PathsShort n
  | dir name sub rest => n + name.length < 512 ∧ sub.PathsShort (n + name.length + 1) ∧ rest.PathsShort n

/-- Every string that the walk builds is shorter than 512 bytes: the paths of all entries,
`.` and `..` included, and those of the directories with a slash behind them. -/
def PathsFit (n : ℕ) : Dir → Prop
  | done => True
  | skip name rest | reg name _ rest => n + name.length < 512 ∧ rest.PathsFit n
  | dir name sub rest => n + name.length + 1 < 512 ∧ sub.PathsFit (n + name.length + 1) ∧ rest.PathsFit n

def tops : Dir → ℕ → List ℕ
  | done, _ => []
  | skip _ rest, m => rest.tops m
  | reg _ _ rest, m => m :: rest.tops (m + 1)
  | dir _ sub rest, m => m :: rest.tops (m + 1 + sub.count)

theorem mem_tops {d : Dir} {m i : ℕ} (h : i ∈ d.tops m) : m ≤ i ∧ i < m + d.count := by
  induction d generalizing m with
  | done => simp [tops] at h
  | skip _ rest ih => exact ih h
  | reg _ _ rest ih =>
    rcases List.mem_cons.mp h with rfl | h
    · simp only [count]; omega
    · have := ih h
      simp only [count]; omega
  | dir _ sub rest _ ih =>
    rcases List.mem_cons.mp h with rfl | h
    · simp only [count]; omega
    · have := ih h
      simp only [count]; omega

end Dir

/-! ## Files and directories in the image -/

def Inode.Named (ip : Inode) (s : List UInt8) : Prop := cstr (List.ofFn ip.name) = s ∧ s.length < MFS_NAMELEN

theorem Inode.Named.str {ip : Inode} {s : List UInt8} (h : ip.Named s) : ip.str = s := by
  obtain ⟨rfl,hs⟩ := h
  exact cstr_append_right (by rwa [List.length_ofFn])

theorem named_of_strcpy {ip : Inode} {dst : Fin MFS_NAMELEN → UInt8} {name : List UInt8}
    (h : ip.name = strcpy dst name) (hn : NameOk name) : ip.Named name :=
  ⟨h ▸ cstr_strcpy dst hn.no_nul hn.length_lt,hn.length_lt⟩

/-- Record `m` is a regular file with the data, stored in the first `v` data blocks. -/
structure IsReg (im : Image) (v m : ℕ) (name data : List UInt8) : Prop where
  named : (im.iblk m).Named name
  mode : (im.iblk m).mode = S_IFREG ||| S_IRWXU ||| S_IRWXG ||| S_IROTH
  size : (im.iblk m).size.toNat = data.length
  child : im.Children m []
  data : ∀ i (h : i < data.length), (im.iblk m).blkentry.toNat * MFS_BLKSIZE + i < v * MFS_BLKSIZE ∧
    im.dblk ((im.iblk m).blkentry.toNat * MFS_BLKSIZE + i) = data[i]

structure IsDir (im : Image) (m : ℕ) (name : List UInt8) : Prop where
  named : (im.iblk m).Named name
  mode : (im.iblk m).mode = S_IFDIR ||| S_IRWXU ||| S_IRWXG ||| S_IROTH

/-- The records from `m` on hold the entries of the host directory, each directory with the
list of its entries in the reverse of the host's order. -/
def Stores (im : Image) (v : ℕ) : Dir → ℕ → Prop
  | .done, _ => True
  | .skip _ rest, m => Stores im v rest m
  | .reg name data rest, m => IsReg im v m name data ∧ Stores im v rest (m + 1)
  | .dir name sub rest, m => IsDir im m name ∧ im.Children m (sub.tops (m + 1)).reverse ∧
      Stores im v sub (m + 1) ∧ Stores im v rest (m + 1 + sub.count)

variable {im im' im'' : Image} {k u n m v : ℕ} {comps : List (List UInt8)} {d : Dir} {l : List ℕ}

/-- Lists of records that do not change stay as they are. -/
theorem Image.Children.congr (h : im.Children n l) (hn : (im'.iblk n).child = (im.iblk n).child)
    (hl : ∀ i ∈ l, (im'.iblk i).next = (im.iblk i).next) : im'.Children n l := by
  unfold Image.Children at h ⊢
  rw [hn]
  refine h.congr (fun i hi => ?_)
  rw [inext_some,inext_some,hl i hi]

theorem Stores.congr {w : ℕ} (h : Stores im v d m) (hv : v ≤ w)
    (hi : ∀ i, m ≤ i → i < m + d.count → im'.iblk i = im.iblk i)
    (hd : ∀ a < v * MFS_BLKSIZE, im'.dblk a = im.dblk a) : Stores im' w d m := by
  have hvw : v * MFS_BLKSIZE ≤ w * MFS_BLKSIZE := Nat.mul_le_mul_right _ hv
  induction d generalizing m with
  | done => trivial
  | skip _ rest ih => exact ih h hi
  | reg name data rest ih =>
    obtain ⟨hr,hrest⟩ := h
    simp only [Dir.count] at hi
    have hm := hi m (Nat.le_refl m) (by omega)
    refine ⟨⟨hm ▸ hr.named,hm ▸ hr.mode,hm ▸ hr.size,hr.child.congr (by rw [hm]) (by simp),?_⟩,?_⟩
    · intro i hlt
      obtain ⟨hb,he⟩ := hr.data i hlt
      rw [hm,hd _ hb]
      exact ⟨Nat.lt_of_lt_of_le hb hvw,he⟩
    · exact ih hrest (fun i h1 h2 => hi i (by omega) (by omega))
  | dir name sub rest ihs ihr =>
    obtain ⟨hdir,hc,hsub,hrest⟩ := h
    simp only [Dir.count] at hi
    have hm := hi m (Nat.le_refl m) (by omega)
    refine ⟨⟨hm ▸ hdir.named,hm ▸ hdir.mode⟩,?_,?_,?_⟩
    · refine hc.congr (by rw [hm]) (fun i hmem => ?_)
      have := Dir.mem_tops (List.mem_reverse.mp hmem)
      rw [hi i (by omega) (by omega)]
    · exact ihs hsub (fun i h1 h2 => hi i (by omega) (by omega))
    · exact ihr hrest (fun i h1 h2 => hi i (by omega) (by omega))

/-! ## Path strings -/

def pathOf : List (List UInt8) → List UInt8
  | [] => [slash]
  | c :: cs => slash :: (c ++ pathOf cs)

theorem pathOf_concat (c : List UInt8) : pathOf (comps ++ [c]) = pathOf comps ++ c ++ [slash] := by
  induction comps with
  | nil => rfl
  | cons c' cs ih => simp [pathOf,ih]

theorem pathents_skip {c r : List UInt8} (hc : slash ∉ c) : pathents (c ++ r) = pathents r := by
  induction c with
  | nil => rfl
  | cons x c ih =>
    rw [List.mem_cons,not_or] at hc
    obtain ⟨hx,hc⟩ := hc
    rw [List.cons_append,pathents,if_neg (fun h => hx h.1.symm),ih hc]

def joined (comps : List (List UInt8)) : List UInt8 := comps.flatMap (fun c => slash :: c)

theorem pathOf_eq (comps : List (List UInt8)) : pathOf comps = joined comps ++ [slash] := by
  induction comps with
  | nil => rfl
  | cons c cs ih =>
    rw [pathOf,ih,joined,joined,List.flatMap_cons,List.cons_append,List.cons_append,List.append_assoc]

theorem pathents_joined {tail : List UInt8} (h : ∀ c ∈ comps, c ≠ [] ∧ slash ∉ c) (ht : tail = [] ∨ tail = [slash]) :
    pathents (joined comps ++ tail) = comps := by
  induction comps with
  | nil => rcases ht with rfl | rfl <;> rfl
  | cons c cs ih =>
    obtain ⟨hne,hslash⟩ := h c List.mem_cons_self
    have htake : (c ++ (joined cs ++ tail)).takeWhile (· ≠ slash) = c := by
      rw [List.takeWhile_append_of_pos (fun x hx => by simpa using fun he : x = slash => hslash (he ▸ hx))]
      -- behind the component there is a slash or nothing
      have hrest : (joined cs ++ tail).takeWhile (· ≠ slash) = [] := by
        cases cs with
        | nil => rcases ht with rfl | rfl <;> rfl
        | cons c' cs => rfl
      rw [hrest,List.append_nil]
    rw [joined,List.flatMap_cons,List.cons_append,List.cons_append,List.append_assoc,pathents,
      if_pos ⟨rfl,by simp [hne]⟩]
    change (c ++ (joined cs ++ tail)).takeWhile (· ≠ slash) :: pathents (c ++ (joined cs ++ tail)) = c :: cs
    rw [htake,pathents_skip hslash,ih (fun c' hc' => h c' (List.mem_cons_of_mem c hc'))]

theorem pathents_pathOf (h : ∀ c ∈ comps, NameOk c) : pathents (pathOf comps) = comps := by
  rw [pathOf_eq]
  exact pathents_joined (fun c hc => ⟨(h c hc).nonempty,(h c hc).no_slash⟩) (Or.inr rfl)

/-! ## The way to the directory being packed -/

def Spine (im : Image) : ℕ → List (List UInt8) → ℕ → Prop
  | p, [], n => p = n
  | p, c :: cs, n => ∃ q, p < q ∧ ptr (im.iblk p).child = some q ∧ (im.iblk q).Named c ∧ Spine im q cs n

theorem Spine.le {p : ℕ} (h : Spine im p comps n) : p ≤ n := by
  induction comps generalizing p with
  | nil => exact Nat.le_of_eq h
  | cons c cs ih =>
    obtain ⟨q,hq,-,-,hs⟩ := h
    exact Nat.le_of_lt (Nat.lt_of_lt_of_le hq (ih hs))

/-- Records before `n` and the name of `n` are all that matters. -/
theorem Spine.congr {p : ℕ} (h : Spine im p comps n) (hlt : ∀ i < n, im'.iblk i = im.iblk i)
    (hn : (im'.iblk n).name = (im.iblk n).name) : Spine im' p comps n := by
  induction comps generalizing p with
  | nil => exact h
  | cons c cs ih =>
    obtain ⟨q,hq,hp,hc,hs⟩ := h
    refine ⟨q,hq,?_,?_,ih hs⟩
    · rw [hlt p (Nat.lt_of_lt_of_le hq hs.le),hp]
    · have hname : (im'.iblk q).name = (im.iblk q).name := by
        rcases Nat.lt_or_eq_of_le hs.le with hqn | rfl
        · rw [hlt q hqn]
        · exact hn
      unfold Inode.Named at hc ⊢
      rwa [hname]

theorem Spine.concat {p q : ℕ} {c : List UInt8} (h : Spine im p comps n) (hq : n < q)
    (hp : ptr (im.iblk n).child = some q) (hc : (im.iblk q).Named c) : Spine im p (comps ++ [c]) q := by
  induction comps generalizing p with
  | nil =>
    obtain rfl : p = n := h
    exact ⟨q,hq,hp,hc,rfl⟩
  | cons c' cs ih =>
    obtain ⟨q',hq',hp',hc',hs⟩ := h
    exact ⟨q',hq',hp',hc',ih hs⟩

theorem Spine.iget (h : Spine im 0 comps n) (hn : n < NINODE) (hlen : comps.length ≤ 128)
    (hc : ∀ c ∈ comps, NameOk c) : mfsIget im (pathOf comps) = .ok (some n) := by
  rw [mfsIget,pathents_pathOf hc,if_neg (Nat.not_lt.mpr hlen)]
  clear hlen hc
  generalize 0 = p at h
  induction comps generalizing p with
  | nil =>
    obtain rfl : p = n := h
    rfl
  | cons c cs ih =>
    obtain ⟨q,-,hp,hc,hs⟩ := h
    obtain ⟨hq0,hq⟩ := ptr_some.mp hp
    have hq' : q < NINODE := Nat.lt_of_le_of_lt hs.le hn
    have hwalk : walk im c (NINODE + 1) (im.iblk p).child.toNat = .ok q := by
      rw [hq,walk,if_neg hq0,if_neg (Nat.not_le.mpr hq'),if_pos hc.str]
    have hstep : igetStep im (some p) c = .ok (some q) := by
      simp only [igetStep,hwalk,bind,Except.bind,hc.str,↓reduceIte]
      rfl
    rw [List.foldlM_cons,hstep]
    exact ih q hs

/-! ## One entry -/

/-- The first `k` inodes after the root and the first `u` data blocks are in use. -/
structure Ready (im : Image) (k u : ℕ) : Prop where
  forest : Forest im k
  data : Front im.dbmp (MFS_BLKSIZE * NDBMP) u

/-- Of the records up to `k` only directory `n` has got new children; the first `u` data
blocks are unchanged. -/
structure Frame (im im' : Image) (n k u : ℕ) : Prop where
  other : ∀ i ≤ k, i ≠ n → im'.iblk i = im.iblk i
  dir : ∃ c, im'.iblk n = { im.iblk n with child := c }
  data : ∀ a < u * MFS_BLKSIZE, im'.dblk a = im.dblk a

theorem Frame.refl (im : Image) (n k u : ℕ) : Frame im im n k u :=
  ⟨fun _ _ _ => rfl,⟨(im.iblk n).child,rfl⟩,fun _ _ => rfl⟩

theorem Frame.trans {k' u' : ℕ} (h : Frame im im' n k u) (h' : Frame im' im'' n k' u') (hk : k ≤ k')
    (hu : u ≤ u') : Frame im im'' n k u where
  other i hi hne := by rw [h'.other i (by omega) hne,h.other i hi hne]
  dir := by
    obtain ⟨c,hc⟩ := h.dir
    obtain ⟨c',hc'⟩ := h'.dir
    exact ⟨c',by rw [hc',hc]⟩
  data a ha := by
    rw [h'.data a (Nat.lt_of_lt_of_le ha (Nat.mul_le_mul_right _ hu)),h.data a ha]

theorem Frame.spine (h : Frame im im' n k u) (hn : n ≤ k) (hs : Spine im 0 comps n) : Spine im' 0 comps n := by
  refine hs.congr (fun i hi => h.other i (by omega) (by omega)) ?_
  obtain ⟨c,hc⟩ := h.dir
  rw [hc]

theorem Adds.frame {ip : Inode} (ha : Adds im im' (k + 1) n ip) (hd : ∀ a < u * MFS_BLKSIZE, im'.dblk a = im.dblk a) :
    Frame im im' n k u :=
  ⟨fun i hi hne => ha.other i (by omega) hne,⟨_,ha.parent⟩,hd⟩

theorem Adds.children {ip : Inode} (ha : Adds im im' (k + 1) n ip) (hk : k + 1 < NINODE)
    (hnext : ip.next = (im.iblk n).child) (hl : im.Children n l) (hlk : ∀ i ∈ l, i ≤ k) :
    im'.Children n ((k + 1) :: l) := by
  unfold Image.Children at hl ⊢
  rw [ha.parent]
  refine ⟨ptr_toUInt32 (Nat.succ_ne_zero k) (Nat.lt_trans hk (by decide)),?_⟩
  rw [inext_some,ha.new,hnext]
  exact hl.congr (fun i hi => ha.inext (hlk i hi))

variable {name data : List UInt8} (clock : ℕ → UInt32)

theorem mkdir_step (hr : Ready im k u) (hn : n ≤ k) (hs : Spine im 0 comps n) (hlen : comps.length ≤ 128)
    (hc : ∀ c ∈ comps, NameOk c) (hname : NameOk name) (hk : k + 1 < NINODE) (hl : im.Children n l)
    (hlk : ∀ i ∈ l, i ≤ k) :
    ∃ im', mfsMkdir clock (pathOf comps) name im = .ok im' ∧ Ready im' (k + 1) u ∧ Frame im im' n k u ∧
      im'.Children n ((k + 1) :: l) ∧ im'.Children (k + 1) [] ∧ IsDir im' (k + 1) name ∧
      Spine im' 0 (comps ++ [name]) (k + 1) := by
  have hget := hs.iget (Nat.lt_of_le_of_lt hn hr.forest.lt) hlen hc
  have hseek := hr.forest.seek
  rw [if_pos hk] at hseek
  have hok : mfsMkdir clock (pathOf comps) name im = .ok (im.link (k + 1) n (dirInode clock im name (k + 1) n)) :=
    mfsMkdir_ok_iff.mpr ⟨Nat.le_of_lt hname.length_lt,n,k + 1,hget,hseek,rfl⟩
  obtain ⟨p,-,hp,hf,ha⟩ := hr.forest.mkdir hok
  obtain rfl : n = p := Option.some.inj (Except.ok.inj (hget.symm.trans hp))
  have hframe : Frame im (im.link (k + 1) n (dirInode clock im name (k + 1) n)) n k u := ha.frame (fun _ _ => rfl)
  have hnamed : ((im.link (k + 1) n (dirInode clock im name (k + 1) n)).iblk (k + 1)).Named name :=
    named_of_strcpy (by rw [ha.new]; rfl) hname
  refine ⟨_,hok,⟨hf,hr.data⟩,hframe,ha.children hk rfl hl hlk,?_,⟨hnamed,by rw [ha.new]; rfl⟩,?_⟩
  · unfold Image.Children
    rw [ha.new]
    rfl
  · refine (hframe.spine hn hs).concat (by omega) ?_ hnamed
    rw [ha.parent]
    exact ptr_toUInt32 (Nat.succ_ne_zero k) (Nat.lt_trans hk (by decide))

theorem write_step (data : List UInt8) (hr : Ready im k u) (hn : n ≤ k) (hs : Spine im 0 comps n) (hlen : comps.length ≤ 128)
    (hc : ∀ c ∈ comps, NameOk c) (hname : NameOk name) (hmode : (im.iblk n).mode &&& S_IFDIR = S_IFDIR)
    (hk : k + 1 < NINODE) (hu : u + dblkr data.length ≤ NDBLK) (hl : im.Children n l) (hlk : ∀ i ∈ l, i ≤ k) :
    ∃ im', mfsWrite clock (pathOf comps) name data im = .ok im' ∧ Ready im' (k + 1) (u + dblkr data.length) ∧
      Frame im im' n k u ∧ im'.Children n ((k + 1) :: l) ∧
      IsReg im' (u + dblkr data.length) (k + 1) name data := by
  have hget := hs.iget (Nat.lt_of_le_of_lt hn hr.forest.lt) hlen hc
  have hseek := hr.forest.seek
  rw [if_pos hk] at hseek
  obtain ⟨bmp,halloc,-⟩ := hr.data.allocBlocks (r := dblkr data.length) (d := 0) (Nat.le_trans hu (by decide))
  obtain ⟨dblk,hcopy,-⟩ := copyData_ok im.dblk
    (regInode_addr (Nat.le_trans hu (by decide)) clock im name (k + 1) n) (data_fits hu)
  have hok := mfsWrite_ok_iff.mpr ⟨Nat.le_of_lt hname.length_lt,n,k + 1,_,bmp,dblk,hget,hmode,hseek,halloc,hcopy,rfl⟩
  obtain ⟨p,-,hp,ha,hfront,hlow,hdata⟩ := write_data hr.forest hr.data hu hok
  obtain rfl : n = p := Option.some.inj (Except.ok.inj (hget.symm.trans hp))
  have hforest := (hr.forest.call (c := .write (pathOf comps) name data) (toOption_some.mpr hok)).1
  have hnew := ha.new
  refine ⟨_,hok,⟨hforest,hfront⟩,ha.frame hlow,ha.children hk rfl hl hlk,?_⟩
  refine ⟨named_of_strcpy (by rw [hnew]; rfl) hname,by rw [hnew]; rfl,?_,?_,?_⟩
  · rw [hnew]
    refine Nat.mod_eq_of_lt ?_
    have hfit : u * 1024 + data.length ≤ 1048576 := data_fits hu
    omega
  · unfold Image.Children
    rw [hnew]
    rfl
  · intro i hi
    have hsize := le_dblkr data.length
    rw [hnew,regInode_blkentry (Nat.le_trans hu (by decide)) (List.ne_nil_of_length_pos (Nat.zero_lt_of_lt hi))]
    refine ⟨?_,hdata i hi⟩
    rw [Nat.add_mul]
    omega

/-! ## The whole walk -/

theorem packEntries_spec (root : List UInt8) (hr : Ready im k u) (hn : n ≤ k) (hs : Spine im 0 comps n)
    (hmode : (im.iblk n).mode &&& S_IFDIR = S_IFDIR) (hc : ∀ c ∈ comps, NameOk c)
    (hl : im.Children n l) (hlk : ∀ i ∈ l, i ≤ k) (hnames : d.NamesOk) (hnest : comps.length + d.nesting ≤ 128)
    (hfit : d.PathsFit (root.length + (pathOf comps).length)) (hk : k + d.count < NINODE)
    (hu : u + d.blocks ≤ NDBLK) :
    ∃ im', packEntries clock root.length (root ++ pathOf comps) d im = .ok im' ∧
      Ready im' (k + d.count) (u + d.blocks) ∧ Frame im im' n k u ∧
      im'.Children n ((d.tops (k + 1)).reverse ++ l) ∧ Stores im' (u + d.blocks) d (k + 1) := by
  induction d generalizing im k u n comps l with
  | done => exact ⟨im,rfl,hr,Frame.refl im n k u,by simpa [Dir.tops] using hl,trivial⟩
  | skip name rest ih =>
    obtain ⟨hlen,hfit⟩ := hfit
    obtain ⟨im',hp,hrest⟩ := ih hr hn hs hmode hc hl hlk hnames hnest hfit hk hu
    refine ⟨im',?_,hrest⟩
    rw [packEntries,pathBuf,if_pos (by simp only [List.length_append]; omega)]
    exact hp
  | reg name data rest ih =>
    obtain ⟨hname,hnames⟩ := hnames
    obtain ⟨hlen,hfit⟩ := hfit
    simp only [Dir.count,Dir.blocks,Dir.nesting] at hk hu hnest ⊢
    obtain ⟨im₁,h₁,hr₁,hf₁,hl₁,hreg⟩ := write_step clock data hr hn hs (by omega) hc hname hmode
      (by omega) (by omega) hl hlk
    obtain ⟨c,hc₁⟩ := hf₁.dir
    obtain ⟨im₂,h₂,hr₂,hf₂,hl₂,hst⟩ := ih hr₁ (by omega) (hf₁.spine hn hs) (by rw [hc₁]; exact hmode) hc hl₁
      (List.forall_mem_cons.mpr ⟨Nat.le_refl _,fun i hi => Nat.le_succ_of_le (hlk i hi)⟩)
      hnames hnest hfit (by omega) (by omega)
    refine ⟨im₂,?_,?_,?_,?_,?_⟩
    · simp only [packEntries,pathBuf,List.length_append,show root.length + (pathOf comps).length + name.length < 512
        from hlen,↓reduceIte,hname.not_dots,Bool.false_eq_true,List.drop_left,bind,Except.bind,h₁]
      exact h₂
    · rwa [show k + (rest.count + 1) = k + 1 + rest.count by omega,← Nat.add_assoc]
    · exact hf₁.trans hf₂ (by omega) (by omega)
    · simpa [Dir.tops] using hl₂
    · rw [← Nat.add_assoc]
      refine ⟨?_,hst⟩
      have hst₁ : Stores im₁ (u + dblkr data.length) (.reg name data .done) (k + 1) := ⟨hreg,trivial⟩
      refine (hst₁.congr (w := u + dblkr data.length + rest.blocks) (by omega) ?_ hf₂.data).1
      intro i hi hi'
      simp only [Dir.count] at hi'
      exact hf₂.other i (by omega) (by omega)
  | dir name sub rest ihs ihr =>
    obtain ⟨hname,hsub,hrest⟩ := hnames
    obtain ⟨hlen,hfits,hfit⟩ := hfit
    simp only [Dir.count,Dir.blocks,Dir.nesting] at hk hu hnest ⊢
    obtain ⟨im₁,h₁,hr₁,hf₁,hl₁,hl₁',hdir,hs₁⟩ := mkdir_step clock hr hn hs (by omega) hc hname (by omega) hl hlk
    have hpath : (pathOf (comps ++ [name])).length = (pathOf comps).length + name.length + 1 := by
      simp [pathOf_concat,Nat.add_assoc]
    obtain ⟨im₂,h₂,hr₂,hf₂,hl₂,hst₂⟩ := ihs hr₁ (Nat.le_refl _) hs₁ (by rw [hdir.mode]; decide)
      (by
        intro c hc'
        rcases List.mem_append.mp hc' with hc' | hc'
        · exact hc c hc'
        · rw [List.mem_singleton.mp hc']
          exact hname)
      hl₁' (by simp) hsub (by rw [List.length_append,List.length_singleton]; omega)
      (by rw [hpath,← Nat.add_assoc,← Nat.add_assoc]; exact hfits) (by omega) (by omega)
    rw [List.append_nil] at hl₂
    obtain ⟨c₁,hn₁⟩ := hf₁.dir
    obtain ⟨c₂,hnew₂⟩ := hf₂.dir
    have hn₂ : im₂.iblk n = im₁.iblk n := hf₂.other n (by omega) (by omega)
    have hf₁₂ : Frame im im₂ n k u := by
      refine ⟨fun i hi hne => ?_,⟨c₁,by rw [hn₂,hn₁]⟩,fun a ha => by rw [hf₂.data a ha,hf₁.data a ha]⟩
      rw [hf₂.other i (by omega) (by omega),hf₁.other i hi hne]
    have hl₁₂ : im₂.Children n ((k + 1) :: l) := by
      refine hl₁.congr (by rw [hn₂]) (List.forall_mem_cons.mpr ⟨by rw [hnew₂],fun i hi => ?_⟩)
      have := hlk i hi
      rw [hf₂.other i (by omega) (by omega)]
    obtain ⟨im₃,h₃,hr₃,hf₃,hl₃,hst₃⟩ := ihr hr₂ (by omega) (hf₁₂.spine hn hs) (by rw [hn₂,hn₁]; exact hmode) hc hl₁₂
      (List.forall_mem_cons.mpr ⟨by omega,fun i hi => by have := hlk i hi; omega⟩) hrest (by omega) hfit
      (by omega) (by omega)
    have hnew₃ : im₃.iblk (k + 1) = { im₁.iblk (k + 1) with child := c₂ } := by
      rw [hf₃.other (k + 1) (by omega) (by omega),hnew₂]
    have hold₃ : ∀ i, k + 1 + 1 ≤ i → i < k + 1 + 1 + sub.count → im₃.iblk i = im₂.iblk i :=
      fun i hi hi' => hf₃.other i (by omega) (by omega)
    refine ⟨im₃,?_,?_,hf₁₂.trans hf₃ (by omega) (by omega),?_,?_,?_,?_,?_⟩
    · have hsub₂ : root ++ pathOf comps ++ name ++ [slash] = root ++ pathOf (comps ++ [name]) := by
        simp [pathOf_concat]
      simp only [packEntries,pathBuf,List.length_append,↓reduceIte,hname.not_dots,Bool.false_eq_true,
        show root.length + (pathOf comps).length + name.length < 512 by omega,List.drop_left,bind,Except.bind,h₁,
        hsub₂,hpath,show root.length + ((pathOf comps).length + name.length + 1) < 512 by omega,h₂]
      exact h₃
    · rwa [show k + (sub.count + rest.count + 1) = k + 1 + sub.count + rest.count by omega,← Nat.add_assoc]
    · simpa [Dir.tops,Nat.add_right_comm] using hl₃
    · refine ⟨?_,by rw [hnew₃]; exact hdir.mode⟩
      rw [hnew₃]
      exact hdir.named
    · refine hl₂.congr (by rw [hf₃.other (k + 1) (by omega) (by omega)]) (fun i hi => ?_)
      have := Dir.mem_tops (List.mem_reverse.mp hi)
      rw [hold₃ i this.1 this.2]
    · exact hst₂.congr (by omega) hold₃ hf₃.data
    · rw [show k + 1 + 1 + sub.count = k + 1 + sub.count + 1 by omega,← Nat.add_assoc]
      exact hst₃

theorem pathBuf_ok {s t : List UInt8} : pathBuf s = .ok t ↔ s.length < 512 ∧ s = t := by
  rw [pathBuf]
  split <;> simp_all

/-- A walk that comes back has not written beyond a path buffer. -/
theorem packEntries_fits {cut : ℕ} {path : List UInt8} (hnames : d.NamesOk)
    (h : packEntries clock cut path d im = .ok im') : d.PathsFit path.length := by
  induction d generalizing path im im' with
  | done => trivial
  | skip name rest ih =>
    rw [packEntries] at h
    obtain ⟨_,hbuf,h⟩ := Runs.bind_eq_ok.mp h
    exact ⟨List.length_append ▸ (pathBuf_ok.mp hbuf).1,ih hnames h⟩
  | reg name data rest ih =>
    rw [packEntries] at h
    obtain ⟨_,hbuf,h⟩ := Runs.bind_eq_ok.mp h
    obtain ⟨hname,hnames⟩ := hnames
    simp only [hname.not_dots,Bool.false_eq_true,↓reduceIte] at h
    obtain ⟨_,-,h⟩ := Runs.bind_eq_ok.mp h
    exact ⟨List.length_append ▸ (pathBuf_ok.mp hbuf).1,ih hnames h⟩
  | dir name sub rest ihs ihr =>
    obtain ⟨hname,hsub,hrest⟩ := hnames
    simp only [packEntries,hname.not_dots,Bool.false_eq_true,↓reduceIte] at h
    obtain ⟨_,hbuf,h⟩ := Runs.bind_eq_ok.mp h
    obtain ⟨-,rfl⟩ := pathBuf_ok.mp hbuf
    obtain ⟨_,-,h⟩ := Runs.bind_eq_ok.mp h
    obtain ⟨_,hslash,h⟩ := Runs.bind_eq_ok.mp h
    obtain ⟨hlen,rfl⟩ := pathBuf_ok.mp hslash
    obtain ⟨_,hin,h⟩ := Runs.bind_eq_ok.mp h
    have hfit := ihs hsub hin
    simp only [List.length_append,List.length_singleton] at hlen hfit
    exact ⟨hlen,hfit,ihr hrest h⟩

structure Dir.Packable (root : List UInt8) (d : Dir) : Prop where
  root_ne : root ≠ []
  root_short : root.length < 512
  names : d.NamesOk
  nesting : d.nesting ≤ 128
  paths : d.PathsShort (root.length + 1)
  count : d.count ≤ 8191
  blocks : d.blocks ≤ NDBLK

/-- The image of a host directory holds its tree: the records are a forest, the root lists
the entries of the directory in reverse, and every record stores its entry. -/
def Mirrors (im : Image) (d : Dir) : Prop :=
  WellFormed im d.count ∧ im.Children 0 (d.tops 1).reverse ∧ Stores im d.blocks d 1

theorem new_ready : Ready mfsNew 0 0 := by
  refine ⟨new_forest,fun n _ => ?_⟩
  change Bits.get (fun _ => 0) n = _
  simp

theorem packdir_mirrors {root : List UInt8} (h : d.Packable root) (hroot : root.length + 1 < 512)
    (hfit : d.PathsFit (root.length + 1)) : ∃ im, packdir clock root d mfsNew = .ok im ∧ Mirrors im d := by
  have hl : mfsNew.Children 0 [] := new_forest.children 0 (Nat.le_refl 0)
  have hcount := h.count
  have hblocks := h.blocks
  obtain ⟨im,hp,hr,-,hl,hst⟩ := packEntries_spec clock root new_ready (Nat.le_refl 0)
    (show Spine mfsNew 0 [] 0 from rfl) (by decide) (by simp) hl (by simp) h.names (by simpa using h.nesting) hfit
    (by change 0 + d.count < 8192; omega) (by omega)
  rw [Nat.zero_add] at hr hl hst
  rw [Nat.zero_add] at hr
  refine ⟨im,?_,hr.forest.wellFormed,by simpa using hl,hst⟩
  rw [packdir,pathBuf,if_pos (by simpa using hroot)]
  simp only [bind,Except.bind,if_neg h.root_ne]
  exact hp

/-- The image of a host directory mirrors it exactly if all strings of the walk fit into the
buffers of `packdir`. Full paths of less than 512 bytes are not enough for that. -/
theorem packdir_mirrors_iff (clock : ℕ → UInt32) (root : List UInt8) (d : Dir) (h : d.Packable root) :
    (∃ im, packdir clock root d mfsNew = .ok im ∧ Mirrors im d) ↔
      root.length + 1 < 512 ∧ d.PathsFit (root.length + 1) := by
  constructor
  · rintro ⟨im,hp,-⟩
    rw [packdir] at hp
    obtain ⟨_,hbuf,hp⟩ := Runs.bind_eq_ok.mp hp
    obtain ⟨hlen,rfl⟩ := pathBuf_ok.mp hbuf
    simp only [if_neg h.root_ne] at hp
    have hfit := packEntries_fits clock h.names hp
    rw [List.length_append,List.length_singleton] at hlen hfit
    exact ⟨hlen,hfit⟩
  · rintro ⟨hroot,hfit⟩
    exact packdir_mirrors clock h hroot hfit

def sampleDir : Dir :=
  .skip [46] (.skip [46,46] (.dir [97] (.skip [46] (.reg [98] [1,2,3] .done)) (.reg [99] [] .done)))

theorem sampleDir_packable : sampleDir.Packable [114] := by
  refine ⟨by decide,by decide,?_,by decide,?_,by decide,by decide⟩
  · refine ⟨⟨?_,?_,?_,?_,?_⟩,⟨⟨?_,?_,?_,?_,?_⟩,trivial⟩,⟨?_,?_,?_,?_,?_⟩,trivial⟩ <;> decide
  · simp [sampleDir,Dir.PathsShort]

theorem packdir_mirrors_sample : ∃ im, packdir (fun _ => 0) [114] sampleDir mfsNew = .ok im ∧ WellFormed im 3 ∧
    im.Children 0 [3,1] ∧ Stores im 1 sampleDir 1 :=
  (packdir_mirrors_iff (fun _ => 0) [114] sampleDir sampleDir_packable).mpr
    ⟨by decide,by simp [sampleDir,Dir.PathsFit]⟩

def deepDir : Dir := .skip [46] (.skip [46,46] (.dir [97,98,99] (.skip [46] (.skip [46,46] .done)) .done))

theorem deepDir_overruns {root : List UInt8} (hroot : root.length = 507) : deepDir.Packable root ∧
    packdir clock root deepDir mfsNew = .error .fault := by
  have hname : NameOk [97,98,99] := by constructor <;> decide
  constructor
  · refine ⟨fun he => by simp [he] at hroot,by omega,⟨hname,trivial,trivial⟩,by decide,?_,by decide,by decide⟩
    simp [deepDir,Dir.PathsShort,hroot]
  · obtain ⟨im,hm,-⟩ := mkdir_step (l := []) clock new_ready (Nat.le_refl 0) (show Spine mfsNew 0 [] 0 from rfl)
      (by decide) (by simp) hname (by decide) (new_forest.children 0 (Nat.le_refl 0)) (by simp)
    have hne : root ≠ [] := fun he => by simp [he] at hroot
    have hcut : (root ++ [slash]).drop 507 = pathOf [] := hroot ▸ List.drop_left
    simp [packdir,deepDir,packEntries,pathBuf,isDots,bind,Except.bind,hcut,hm,hroot,hne]

/-- The full path of the directory has 511 bytes, and the slash behind it does not fit. -/
theorem packdir_overruns : deepDir.Packable (List.replicate 507 114) ∧
    packdir (fun _ => 0) (List.replicate 507 114) deepDir mfsNew = .error .fault :=
  deepDir_overruns _ List.length_replicate

end Micron.Mkmfs

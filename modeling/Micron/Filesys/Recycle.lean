import Micron.Filesys.Access
import Micron.Filesys.Frame

/-! # What lookups and directories do to vnodes

They change the links of vnodes, and everything else only of vnodes that they have just
allocated. All pointers they store lead to vnodes that have been allocated.
-/
namespace Micron.Filesys
open Function Bytes Kernel Prog
variable {E : Env} {sb : Sblk} {s t u : State} {W : VPtr → Prop} {p q : VPtr} {α β : Type}

/-! ## Pointers -/

def Points (s : State) (p : VPtr) : Prop := ∀ j, p = .vc j → j < s.vlist.cnt

structure Vnode.Links (P : VPtr → Prop) (v : Vnode) : Prop where
  next : P v.next
  parent : P v.parent
  child : P v.child
  expand : P v.expand

/-- The table of vnodes is in order and no pointer leads to a vnode that has not been
allocated. -/
structure Sane (s : State) : Prop where
  vlist : s.vlist.Unused NVCHCNTS
  links : ∀ p, (s.vnode p).Links (Points s)
  node : ∀ fd, Points s (s.ofile fd).node

def Vnode.extent (v : Vnode) : UInt32 × UInt32 × Int32 := (v.dev,v.size,v.blkentry)

/-- The call gave a vnode that no open file uses. -/
def Alloc.Spares (a : Alloc) : Prop := ∀ fd, (a.ofile fd).node = .null ∨ (a.ofile fd).node ≠ .ofPtr a.got

structure Alloc.Regular (a : Alloc) : Prop where
  got : a.vlist.cnt < NVCHCNTS ∧ a.got = some a.vlist.cnt ∨ a.vlist.cnt = NVCHCNTS ∧ a.got = some 0
  node : ∀ fd j, (a.ofile fd).node = .vc j → j < a.vlist.cnt

theorem Points.mono (h : Points s p) (hle : s ≤ t) : Points t p := fun j hj => Nat.lt_of_lt_of_le (h j hj) hle.1

theorem Vnode.Links.mono {v : Vnode} (h : v.Links (Points s)) (hle : s ≤ t) : v.Links (Points t) :=
  ⟨h.next.mono hle,h.parent.mono hle,h.child.mono hle,h.expand.mono hle⟩

theorem points_null : Points s .null := nofun

theorem points_ofIno (n : UInt32) : Points s (.ofIno n) := by
  unfold VPtr.ofIno
  split <;> exact nofun

theorem points_root (i : ℕ) : Points s (.root i) := nofun

theorem points_vc {i : ℕ} (hi : i < s.vlist.cnt) : Points s (.vc i) := by
  intro j hj
  obtain rfl := VPtr.vc.inj hj
  exact hi

theorem Vnode.strcpy_links {v w : Vnode} {P : VPtr → Prop} {str : List UInt8} (h : v.strcpy str = some w)
    (hv : v.Links P) : w.Links P := by
  unfold Vnode.strcpy at h
  split at h
  · cases h
  · cases h
    exact ⟨hv.next,hv.parent,hv.child,hv.expand⟩

/-! ## What the programs do to vnodes -/

/-- The open files keep their nodes, and the extent of a vnode changes only if it is in `W`
or has been allocated in between. -/
structure Moves (W : VPtr → Prop) (s t : State) : Prop where
  sane : Sane t
  node : ∀ fd, (t.ofile fd).node = (s.ofile fd).node
  new : ∃ new, t.allocs = s.allocs ++ new ∧
    (∀ a ∈ new, a.Regular ∧ ∀ fd, (a.ofile fd).node = (s.ofile fd).node) ∧
    ∀ q, ¬ W q → (∃ a ∈ new, VPtr.ofPtr a.got = q) ∨ (t.vnode q).extent = (s.vnode q).extent

theorem Moves.refl (hs : Sane s) : Moves W s s :=
  ⟨hs,fun _ => rfl,[],(List.append_nil _).symm,nofun,fun _ _ => Or.inr rfl⟩

theorem Moves.trans (h : Moves W s t) (h' : Moves W t u) : Moves W s u := by
  obtain ⟨l,hl,hreg,hext⟩ := h.new
  obtain ⟨l',hl',hreg',hext'⟩ := h'.new
  refine ⟨h'.sane,fun fd => (h'.node fd).trans (h.node fd),l ++ l',by rw [hl',hl,List.append_assoc],?_,?_⟩
  · intro a ha
    rcases List.mem_append.mp ha with ha | ha
    · exact hreg a ha
    · exact ⟨(hreg' a ha).1,fun fd => ((hreg' a ha).2 fd).trans (h.node fd)⟩
  · intro q hq
    rcases hext q hq with ⟨a,ha,hgot⟩ | heq
    · exact Or.inl ⟨a,List.mem_append_left _ ha,hgot⟩
    · rcases hext' q hq with ⟨a,ha,hgot⟩ | heq'
      · exact Or.inl ⟨a,List.mem_append_right _ ha,hgot⟩
      · exact Or.inr (heq'.trans heq)

/-- However the program ends, it has moved from `s` in this way. -/
abbrev Goes (W : VPtr → Prop) (x : K α) (Q : α → State → Prop) (s : State) : Prop := Relates (Moves W) x Q s

section Goes
variable {x : K α} {f : α → K β} {Q Q' : α → State → Prop} {R : β → State → Prop}

theorem Goes.bind (h : Goes W x Q s) (hf : ∀ a t, s ≤ t → Sane t → Q a t → Goes W (f a) R t) : Goes W (x >>= f) R s :=
  Relates.bind Moves.trans h (fun a t hst hm => hf a t hst hm.sane)

theorem goes_pure {a : α} (hs : Sane s) (hQ : Q a s) : Goes W (pure a) Q s := relates_pure (.refl hs) hQ

theorem goes_stop (hs : Sane s) (e : Stop) : Goes W (stop e) Q s := relates_stop (.refl hs) e

def State.core (s : State) : (VPtr → Vnode) × AllocList × List Alloc × (ℕ → VPtr) :=
  (s.vnode,s.vlist,s.allocs,fun fd => (s.ofile fd).node)

theorem core_blind : Blind State.core := fun _ _ => rfl

theorem Moves.of_core (hs : Sane s) (h : t.core = s.core) : Moves W s t := by
  obtain ⟨hv,hl,ha,hn⟩ : t.vnode = s.vnode ∧ t.vlist = s.vlist ∧ t.allocs = s.allocs ∧
      (fun fd => (t.ofile fd).node) = fun fd => (s.ofile fd).node := by
    simpa [State.core] using h
  have hp : Points t = Points s := by
    funext p
    rw [Points,Points,hl]
  refine ⟨⟨hl ▸ hs.vlist,fun p => ?_,fun fd => ?_⟩,congrFun hn,[],?_,nofun,fun q _ => Or.inr ?_⟩
  · rw [hv,hp]
    exact hs.links p
  · rw [congrFun hn fd,hp]
    exact hs.node fd
  · rw [ha,List.append_nil]
  · rw [hv]

theorem goes_of_fixes (hs : Sane s) (h : Fixes State.core x) : Goes W x (fun _ t => t.core = s.core) s :=
  .of_fixes h (fun _ => Moves.of_core hs)

theorem goes_vnode (hs : Sane s) (p : VPtr) : Goes W (vnode p) (fun v t => t = s ∧ v.Links (Points s)) s := by
  unfold vnode
  refine .ite (fun _ => ?_) (fun _ => goes_stop hs _)
  exact ⟨.refl hs,rfl,hs.links p⟩

theorem goes_setVnode {k : Vnode → Vnode} (hs : Sane s) (hk : ∀ v, v.Links (Points s) → (k v).Links (Points s))
    (hext : W p ∨ ∀ v, (k v).extent = v.extent) : Goes W (setVnode p k) (fun _ _ => True) s := by
  unfold setVnode
  refine .ite (fun _ => ?_) (fun _ => goes_stop hs _)
  refine ⟨⟨⟨hs.vlist,fun q => ?_,hs.node⟩,fun _ => rfl,[],(List.append_nil _).symm,nofun,fun q hq => Or.inr ?_⟩,trivial⟩
  · change Vnode.Links (Points s) (update s.vnode p (k (s.vnode p)) q)
    rw [update_apply]
    split
    · exact hk _ (hs.links p)
    · exact hs.links q
  · change (update s.vnode p (k (s.vnode p)) q).extent = _
    rw [update_apply]
    split
    · rename_i he
      rw [he]
      exact hext.resolve_left (he ▸ hq) _
    · rfl

theorem goes_relink {k : Vnode → Vnode} (hs : Sane s) (hk : ∀ v, v.Links (Points s) → (k v).Links (Points s))
    (hext : ∀ v, (k v).extent = v.extent) : Goes W (setVnode p k) (fun _ _ => True) s :=
  goes_setVnode hs hk (Or.inr hext)

/-- What happens to a vnode after its allocation counts as that. -/
theorem Moves.absorb {l : AllocList} {a : Alloc} {i : ℕ} (ha : a.Regular)
    (hnode : ∀ fd, (a.ofile fd).node = (s.ofile fd).node) (hgot : a.got = some i)
    (h : Moves (fun q => W q ∨ q = .vc i) { s with vlist := l, allocs := s.allocs ++ [a] } u) : Moves W s u := by
  obtain ⟨new,hnew,hreg,hext⟩ := h.new
  refine ⟨h.sane,h.node,a :: new,by rw [hnew,List.append_assoc]; rfl,?_,fun q hq => ?_⟩
  · intro b hb
    rcases List.mem_cons.mp hb with rfl | hb
    · exact ⟨ha,hnode⟩
    · exact hreg b hb
  · by_cases hqi : q = .vc i
    · exact Or.inl ⟨a,List.mem_cons_self,by rw [hgot,hqi]; rfl⟩
    · rcases hext q (not_or.mpr ⟨hq,hqi⟩) with ⟨b,hb,hbq⟩ | heq
      · exact Or.inl ⟨b,List.mem_cons_of_mem _ hb,hbq⟩
      · exact Or.inr heq

theorem goes_alloc {f : VPtr → K β} (hs : Sane s)
    (hf : ∀ i t, s ≤ t → Sane t → i < t.vlist.cnt → Goes (fun q => W q ∨ q = .vc i) (f (.vc i)) R t) :
    Goes W (vcacheAlloc >>= f) R s := by
  unfold Goes Relates
  rw [wp_bind]
  refine wp_vcacheAlloc hs.vlist (fun i l hl hi hcase => ?_)
  have hle : s.vlist.cnt ≤ l.cnt := by
    rcases hcase with ⟨-,-,rfl⟩ | ⟨-,-,rfl⟩
    · rw [AllocList.append_cnt]
      exact Nat.le_succ _
    · rw [AllocList.recycle_cnt]
  have hst : s ≤ { s with vlist := l, allocs := s.allocs ++ [⟨s.vlist,s.ofile,some i⟩] } :=
    ⟨hle,le_rfl,List.prefix_append _ _⟩
  have hsane : Sane { s with vlist := l, allocs := s.allocs ++ [⟨s.vlist,s.ofile,some i⟩] } :=
    ⟨hl,fun p => (hs.links p).mono hst,fun fd => (hs.node fd).mono hst⟩
  have hreg : Alloc.Regular ⟨s.vlist,s.ofile,some i⟩ := by
    refine ⟨?_,fun fd j hj => hs.node fd j hj⟩
    rcases hcase with ⟨hlt,rfl,-⟩ | ⟨hfull,rfl,-⟩
    · exact Or.inl ⟨hlt,rfl⟩
    · exact Or.inr ⟨hfull,rfl⟩
  have hback : ∀ u, Moves (fun q => W q ∨ q = .vc i)
      { s with vlist := l, allocs := s.allocs ++ [⟨s.vlist,s.ofile,some i⟩] } u → Moves W s u :=
    fun _ => Moves.absorb hreg (fun _ => rfl) rfl
  exact wp.mono (hf i _ hst hsane hi) (fun b u _ hr => ⟨hback u hr.1,hr.2⟩) (fun u _ hr => hback u hr)

end Goes

/-! ## Lookups -/

theorem goes_mfsGet (hs : Sane s) (dev node : UInt32) : Goes W (mfsGet E sb dev node) (fun _ _ => True) s :=
  (goes_of_fixes hs (core_blind.mfsGet dev node)).mono (fun _ _ _ _ _ => trivial)

theorem goes_inode (hs : Sane s) (ip : IPtr) : Goes W (inode ip) (fun _ _ => True) s :=
  (goes_of_fixes hs (fixes_inode ip)).mono (fun _ _ _ _ _ => trivial)

theorem goes_translate (hs : Sane s) (ip : IPtr) (dev : UInt32) (hp : W p) :
    Goes W (translate ip dev p) (fun _ _ => True) s := by
  refine (goes_inode hs ip).bind fun n t _ ht _ => ?_
  refine Goes.bind (goes_setVnode ht ?_ (Or.inl hp)) fun _ t _ ht _ => (goes_vnode ht p).bind ?_
  · exact fun v hv => ⟨hv.next,hv.parent,hv.child,hv.expand⟩
  rintro v _ - ht ⟨rfl,hv⟩
  cases hcopy : v.strcpy n.str with
  | none => exact goes_stop ht _
  | some w =>
    have hw := Vnode.strcpy_links hcopy hv
    exact goes_setVnode ht (fun _ _ => ⟨hw.next,hw.parent,hw.child,hw.expand⟩) (Or.inl hp)

theorem goes_lnodeExpand (node p : VPtr) (fuel : ℕ) {iep : IPtr} {lvep : VPtr} (hs : Sane s) (hl : Points s lvep) :
    Goes W (lnodeExpand E sb node p fuel iep lvep) (fun q t => Points t q) s := by
  induction fuel generalizing iep lvep s W with
  | zero => exact goes_stop hs _
  | succ fuel ih =>
    refine goes_alloc hs fun i t₁ h₁ ht hi => .ite nofun fun _ => ?_
    have hvep := points_vc hi
    refine (goes_vnode ht node).bind fun _ t₂ h₂ ht _ => (goes_translate ht _ _ (Or.inr rfl)).bind fun _ t₃ h₃ ht _ => ?_
    refine (goes_vnode ht p).bind ?_
    rintro v _ - ht ⟨rfl,hv⟩
    refine Goes.bind (goes_relink ht ?_ ?_) fun _ t₄ h₄ ht _ => ?_
    · exact fun _ _ => ⟨hv.next,hv.parent,hv.child,points_null⟩
    · exact fun _ => rfl
    have hvep := hvep.mono (h₂.trans (h₃.trans h₄))
    have hrest : ∀ u, t₄ ≤ u → Sane u → Goes (fun q => W q ∨ q = .vc i) (do
        if (← inode iep).expand = 0 then return VPtr.vc i
        let iep ← mfsGet E sb (← vnode node).dev (← inode iep).expand
        lnodeExpand E sb node p fuel iep (.vc i)) (fun q t => Points t q) u := by
      intro u h₅ hu
      refine (goes_inode hu iep).bind fun _ u₁ h₆ hu _ => .ite (fun _ => goes_pure hu (hvep.mono (h₅.trans h₆))) fun _ => ?_
      refine (goes_vnode hu node).bind fun _ u₂ h₇ hu _ => (goes_inode hu iep).bind fun _ u₃ h₈ hu _ => ?_
      refine (goes_mfsGet hu _ _).bind fun _ u₄ h₉ hu _ => ih hu ?_
      exact hvep.mono (h₅.trans (h₆.trans (h₇.trans (h₈.trans h₉))))
    refine .ite (fun _ => ?_) (fun _ => ?_)
    · refine Goes.bind (goes_relink ht ?_ ?_) fun _ u hu ht _ => hrest u hu ht
      · exact fun v hv => ⟨hv.next,hv.parent,hv.child,hl.mono (h₁.trans (h₂.trans (h₃.trans h₄)))⟩
      · exact fun _ => rfl
    · refine Goes.bind (goes_relink ht ?_ ?_) fun _ u hu ht _ => hrest u hu ht
      · exact fun v hv => ⟨hv.next,hv.parent,hv.child,hvep⟩
      · exact fun _ => rfl

theorem goes_lnodeLoop {node : VPtr} (fuel : ℕ) {ip : IPtr} {lvp lvep : VPtr} (hs : Sane s) (hn : Points s node)
    (hl : Points s lvep) : Goes W (lnodeLoop E sb node fuel ip lvp lvep) (fun _ _ => True) s := by
  induction fuel generalizing ip lvp lvep s W with
  | zero => exact goes_stop hs _
  | succ fuel ih =>
    refine goes_alloc hs fun i t₁ h₁ ht hi => .ite nofun fun _ => ?_
    refine (goes_vnode ht node).bind fun _ t₂ h₂ ht _ => (goes_translate ht _ _ (Or.inr rfl)).bind fun _ t₃ h₃ ht _ => ?_
    refine (goes_inode ht ip).bind fun n t₄ h₄ ht _ => ?_
    have hle := h₂.trans (h₃.trans h₄)
    have hvp := (points_vc hi).mono hle
    have hn := hn.mono (h₁.trans hle)
    have hl := hl.mono (h₁.trans hle)
    refine Goes.bind (goes_relink ht ?_ ?_) fun _ t₅ h₅ ht _ => ?_
    · exact fun v hv => ⟨points_null,hn,points_ofIno _,hv.expand⟩
    · exact fun _ => rfl
    have hvp := hvp.mono h₅
    -- the rest is the same for the first child and the others
    have hnext : ∀ (l : VPtr) (u : State), t₅ ≤ u → Points u l → Sane u → Goes (fun q => W q ∨ q = .vc i) (do
        let n ← inode ip
        if n.next = 0 then return
        let ip ← mfsGet E sb (← vnode node).dev n.next
        lnodeLoop E sb node fuel ip (.vc i) l) (fun _ _ => True) u := by
      intro l u h₆ hlu hu
      refine (goes_inode hu ip).bind fun n u₁ h₇ hu _ => .ite (fun _ => goes_pure hu trivial) fun _ => ?_
      refine (goes_vnode hu node).bind fun _ u₂ h₈ hu _ => (goes_mfsGet hu _ _).bind fun _ u₃ h₉ hu _ => ?_
      have hle := h₇.trans (h₈.trans h₉)
      exact ih hu (hn.mono (h₅.trans (h₆.trans hle))) (hlu.mono hle)
    have hexpand : ∀ u, t₅ ≤ u → Sane u → Goes (fun q => W q ∨ q = .vc i) (do
        let lvep ← if n.expand ≠ 0 then do
            let iep ← mfsGet E sb (← vnode node).dev n.expand
            lnodeExpand E sb node (.vc i) E.fuel iep lvep
          else pure lvep
        let n ← inode ip
        if n.next = 0 then return
        let ip ← mfsGet E sb (← vnode node).dev n.next
        lnodeLoop E sb node fuel ip (.vc i) lvep) (fun _ _ => True) u := by
      intro u h₆ hu
      refine .ite (fun _ => ?_) (fun _ => ?_)
      · refine (goes_vnode hu node).bind fun _ u₁ h₇ hu _ => (goes_mfsGet hu _ _).bind fun _ u₂ h₈ hu _ => ?_
        refine (goes_lnodeExpand _ _ _ hu ?_).bind fun l u₃ h₉ hu hlu => ?_
        · exact hl.mono (h₅.trans (h₆.trans (h₇.trans h₈)))
        · exact hnext l u₃ (h₆.trans (h₇.trans (h₈.trans h₉))) hlu hu
      · exact hnext lvep u h₆ (hl.mono (h₅.trans h₆)) hu
    refine .ite (fun _ => ?_) (fun _ => ?_)
    · refine Goes.bind (goes_relink ht ?_ ?_) fun _ u hu ht _ => hexpand u hu ht
      · exact fun v hv => ⟨hv.next,hv.parent,hvp,hv.expand⟩
      · exact fun _ => rfl
    · refine Goes.bind (goes_relink ht ?_ ?_) fun _ u hu ht _ => hexpand u hu ht
      · exact fun v hv => ⟨hvp,hv.parent,hv.child,hv.expand⟩
      · exact fun _ => rfl

theorem goes_mfsLnode {node : VPtr} (hs : Sane s) (hn : Points s node) :
    Goes W (mfsLnode E sb node) (fun _ _ => True) s := by
  refine (goes_vnode hs node).bind fun v t₁ h₁ ht _ => (goes_mfsGet ht _ _).bind fun _ t₂ h₂ ht _ => ?_
  refine (goes_inode ht _).bind fun _ t₃ h₃ ht _ => .ite (fun _ => ?_) (fun _ => ?_)
  · exact goes_relink ht (fun v hv => ⟨hv.next,hv.parent,points_null,hv.expand⟩) (fun _ => rfl)
  · refine (goes_mfsGet ht _ _).bind fun _ t₄ h₄ ht _ => ?_
    exact goes_lnodeLoop _ ht (hn.mono (h₁.trans (h₂.trans (h₃.trans h₄)))) points_null

theorem goes_loadChildren (hs : Sane s) (hp : Points s p) : Goes W (loadChildren E p) (fun _ _ => True) s := by
  refine (goes_vnode hs p).bind fun v t₁ h₁ ht _ => (goes_of_fixes ht (fixes_mountabGet _)).bind fun i t₂ h₂ ht _ => ?_
  cases i with
  | none => exact goes_pure ht trivial
  | some i =>
    refine (goes_of_fixes ht (fixes_mount _)).bind fun m t₃ h₃ ht _ => ?_
    refine (goes_of_fixes ht (fixes_loaded _)).bind fun _ t₄ h₄ ht _ => .ite (fun _ => ?_) (fun _ => goes_pure ht trivial)
    have hle := h₁.trans (h₂.trans (h₃.trans h₄))
    refine Goes.bind (Q := fun _ _ => True) ?_ fun _ _ _ ht _ => goes_pure ht trivial
    cases m.fs with
    | none => exact goes_stop ht _
    | some fs => exact goes_mfsLnode ht (hp.mono hle)

theorem goes_seekName (cross : Bool) (name : List UInt8) (fuel : ℕ) (hs : Sane s) (hp : Points s p) :
    Goes W (seekName cross name fuel p) (fun q t => Points t q) s := by
  induction fuel generalizing p s with
  | zero =>
    cases p
    case null => exact goes_pure hs points_null
    all_goals exact goes_stop hs _
  | succ fuel ih =>
    cases p
    case null => exact goes_pure hs points_null
    all_goals
      refine (goes_vnode hs _).bind ?_
      rintro v _ - ht ⟨rfl,hv⟩
      have hseek : Fixes State.core (mountabSeek v.dev v.ino) := fixes_get.bind fun _ => fixes_pure _
      refine .ite (fun _ => (goes_of_fixes ht hseek).bind ?_) (fun _ => (goes_of_fixes ht (fixes_pure _)).bind ?_)
      all_goals
        intro mnt u hle hu _
        cases mnt with
        | some i => exact goes_pure hu (points_root i)
        | none => exact .ite (fun _ => goes_pure hu (hp.mono hle)) (fun _ => ih hu (hv.mono hle).next)

theorem goes_vgetLoop (dirs : List (List UInt8)) (hs : Sane s) (hp : Points s p) :
    Goes W (vgetLoop E dirs p) (fun q t => Points t q) s := by
  induction dirs generalizing p s with
  | nil => exact goes_pure hs hp
  | cons dir dirs ih =>
    refine (goes_loadChildren hs hp).bind fun _ t₁ h₁ ht _ => .ite (fun _ => goes_pure ht nofun) fun _ => ?_
    refine (goes_vnode ht p).bind ?_
    rintro v _ - ht ⟨rfl,hv⟩
    refine (goes_seekName _ _ _ ht hv.child).bind fun q t₂ h₂ ht hq => ?_
    exact .ite (fun _ => goes_pure ht points_null) (fun _ => ih ht hq)

theorem goes_vget (path : List UInt8) (parent : Bool) (hs : Sane s) :
    Goes W (vget E path parent) (fun q t => Points t q) s := by
  refine .ite (fun _ => goes_pure hs nofun) fun _ => ?_
  have hroot : Fixes State.core mountabGetroot := fixes_get.bind fun _ => fixes_pure _
  refine (goes_of_fixes hs hroot).bind fun i t₁ _ ht _ => ?_
  cases i with
  | none => exact goes_pure ht nofun
  | some i =>
    refine (goes_vgetLoop _ ht (points_root i)).bind fun q t₂ _ ht hq => .ite (fun _ => goes_pure ht hq) fun _ => ?_
    refine (goes_loadChildren ht hq).bind fun _ t₃ h₃ ht _ => .ite (fun _ => goes_pure ht nofun) fun _ => ?_
    refine .ite (fun _ => goes_pure ht (hq.mono h₃)) fun _ => (goes_vnode ht q).bind ?_
    rintro v _ - ht ⟨rfl,hv⟩
    refine (goes_seekName _ _ _ ht hv.child).bind fun q t₄ _ ht hq => .ite (fun _ => goes_pure ht points_null) fun _ => ?_
    refine (goes_loadChildren ht hq).bind fun _ t₅ h₅ ht _ => ?_
    exact .ite (fun _ => goes_pure ht nofun) (fun _ => goes_pure ht (hq.mono h₅))

/-! ## Directories -/

/-- The inode of the vnode that is allocated is not looked at. -/
theorem goes_mfsIalloc {f : VPtr → K β} {R : β → State → Prop} {dev : UInt32} (hs : Sane s)
    (hnull : ∀ t, s ≤ t → Sane t → Goes W (f .null) R t)
    (hf : ∀ i t, s ≤ t → Sane t → i < t.vlist.cnt → Goes (fun q => W q ∨ q = .vc i) (f (.vc i)) R t) :
    Goes W (mfsIalloc E sb dev >>= f) R s := by
  unfold mfsIalloc
  refine relates_assoc.mpr ?_
  refine (goes_of_fixes hs (core_blind.mfsSeekbmp dev .IBLK)).bind fun ino t₁ h₁ ht _ => ?_
  cases ino with
  | none => exact hnull t₁ h₁ ht
  | some ino =>
    dsimp only
    refine relates_assoc.mpr ?_
    refine (goes_of_fixes ht (core_blind.mfsMarkbmp dev .IBLK _ _)).bind fun _ t₂ h₂ ht _ => ?_
    refine relates_assoc.mpr ?_
    refine goes_alloc ht fun i t₃ h₃ ht hi => ?_
    refine relates_assoc.mpr ?_
    refine Goes.bind (goes_setVnode ht ?_ (Or.inl (Or.inr rfl))) fun _ t₄ h₄ ht _ => ?_
    · exact fun v hv => ⟨hv.next,hv.parent,hv.child,hv.expand⟩
    · exact hf i t₄ (h₁.trans (h₂.trans (h₃.trans h₄))) ht (Nat.lt_of_lt_of_le hi h₄.1)

theorem goes_time (hs : Sane s) : Goes W (time E) (fun _ _ => True) s := by
  have htime : Fixes State.core (time E) := by
    refine fixes_get.bind fun _ => Fixes.bind ?_ fun _ => fixes_pure _
    exact fixes_modify fun _ => rfl
  exact (goes_of_fixes hs htime).mono (fun _ _ _ _ _ => trivial)

theorem goes_mkdir (path : List UInt8) (mode : UInt32) (hs : Sane s) :
    Goes W (mkdir E path mode) (fun _ _ => True) s := by
  refine (goes_vget path true hs).bind fun p t₁ h₁ ht hp => .ite (fun _ => goes_pure ht trivial) fun _ => ?_
  refine .ite (fun _ => goes_pure ht trivial) fun _ => (goes_vnode ht p).bind fun _ t₂ h₂ ht _ => ?_
  refine (goes_of_fixes ht (fixes_mountabGet _)).bind fun i t₃ h₃ ht _ => ?_
  cases i with
  | none => exact goes_pure ht trivial
  | some i =>
    refine (goes_of_fixes ht (fixes_mount _)).bind fun m t₄ h₄ ht _ => (goes_vnode ht p).bind fun _ t₅ h₅ ht _ => ?_
    have hp := hp.mono (h₂.trans (h₃.trans (h₄.trans h₅)))
    cases hfs : m.fs with
    | none => exact goes_stop ht _
    | some fs =>
      refine goes_mfsIalloc ht (fun t _ ht => goes_stop ht _) fun i t₆ h₆ ht hi => (goes_vnode ht _).bind ?_
      rintro v _ - ht ⟨rfl,hv⟩
      have hp := hp.mono h₆
      have hnp := points_vc hi
      cases hcopy : v.strcpy (splitPath path.tail).2 with
      | none => exact goes_stop ht _
      | some w =>
        have hw := Vnode.strcpy_links hcopy hv
        refine Goes.bind (goes_setVnode ht ?_ (Or.inl (Or.inr rfl))) fun _ t₇ h₇ ht _ => ?_
        · exact fun _ _ => hw
        refine (goes_vnode ht p).bind fun _ t₈ h₈ ht _ => (goes_time ht).bind fun _ t₉ h₉ ht _ => ?_
        refine (goes_time ht).bind fun _ t₁₀ h₁₀ ht _ => (goes_time ht).bind fun _ t₁₁ h₁₁ ht _ => ?_
        have hle := h₇.trans (h₈.trans (h₉.trans (h₁₀.trans h₁₁)))
        refine Goes.bind (goes_setVnode ht ?_ (Or.inl (Or.inr rfl))) fun _ t₁₂ h₁₂ ht _ => ?_
        · exact fun v hv => ⟨hv.next,hv.parent,hv.child,hv.expand⟩
        refine Goes.bind (goes_relink ht ?_ fun _ => rfl) fun _ t₁₃ h₁₃ ht _ => (goes_vnode ht p).bind ?_
        · exact fun v hv => ⟨hv.next,hp.mono (hle.trans h₁₂),points_null,hv.expand⟩
        rintro v _ - ht ⟨rfl,hv⟩
        refine Goes.bind (goes_relink ht ?_ fun _ => rfl) fun _ t₁₄ h₁₄ ht _ => ?_
        · exact fun v' hv' => ⟨hv.child,hv'.parent,hv'.child,points_null⟩
        refine Goes.bind (goes_relink ht ?_ fun _ => rfl) fun _ t₁₅ h₁₅ ht _ => ?_
        · exact fun v hv => ⟨hv.next,hv.parent,hnp.mono (hle.trans (h₁₂.trans (h₁₃.trans h₁₄))),hv.expand⟩
        exact (goes_of_fixes ht (core_blind.mfsSnode p)).bind fun _ _ _ ht _ => goes_pure ht trivial

theorem goes_unlinkLoop (p : VPtr) (fuel : ℕ) (hs : Sane s) : Goes W (unlinkLoop p fuel q) (fun _ _ => True) s := by
  induction fuel generalizing q s with
  | zero =>
    cases q
    case null => exact goes_pure hs trivial
    all_goals exact goes_stop hs _
  | succ fuel ih =>
    cases q
    case null => exact goes_pure hs trivial
    all_goals
      refine (goes_vnode hs _).bind fun _ t₁ _ ht _ => .ite (fun _ => ?_) (fun _ => ?_)
      · refine (goes_vnode ht p).bind ?_
        rintro v _ - ht ⟨rfl,hv⟩
        refine Goes.bind (goes_relink ht ?_ fun _ => rfl) fun _ t₂ _ ht _ => ?_
        · exact fun v' hv' => ⟨hv.next,hv'.parent,hv'.child,hv'.expand⟩
        exact (goes_vnode ht _).bind fun _ _ _ ht _ => ih ht
      · exact (goes_vnode ht _).bind fun _ _ _ ht _ => ih ht

theorem goes_rmdirSave (p vnp : VPtr) (hs : Sane s) : Goes W (rmdirSave E p vnp) (fun _ _ => True) s :=
  (goes_of_fixes hs (fixes_rmdirSave core_blind p vnp)).mono fun _ _ _ _ _ => trivial

theorem goes_rmdir (path : List UInt8) (hs : Sane s) : Goes W (rmdir E path) (fun _ _ => True) s := by
  refine (goes_vget path false hs).bind fun p t₁ _ ht _ => (goes_vnode ht p).bind ?_
  rintro v _ - ht ⟨rfl,hv⟩
  refine .ite (fun _ => goes_pure ht trivial) fun _ => .ite (fun _ => goes_pure ht trivial) fun _ => ?_
  refine (goes_vnode ht _).bind ?_
  rintro w _ - ht ⟨rfl,-⟩
  refine .ite (fun _ => ?_) (fun _ => ?_)
  · refine Goes.bind (goes_relink ht ?_ fun _ => rfl) fun _ t₂ _ ht _ => goes_rmdirSave p _ ht
    exact fun w hw => ⟨hw.next,hw.parent,hv.next,hw.expand⟩
  · refine (goes_vnode ht _).bind fun _ _ _ ht _ => ?_
    exact (goes_unlinkLoop p _ ht).bind fun vnp _ _ ht _ => goes_rmdirSave p vnp ht

end Micron.Filesys

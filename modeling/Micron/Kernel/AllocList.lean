import Micron.Lib.Linked

/-! # The allocation list shared by the two kernel caches

`filesys/scache.c` and `filesys/vcache.c` keep their entries on one list each, in
the order in which entries are to be recycled. The code is the same up to the
names of the link fields, so it is written here once. A pointer is an optional
table index. The kernel runs without paging, so the cell at the null pointer is
plain memory and the link functions are total.
-/
namespace Micron.Kernel
open Function Linked

abbrev Ptr := Option ℕ

/-- `struct scache_data` or `struct vcache_data` with the link and counter fields
of all table entries; `next` and `last` are `anext`/`alast` of a sector cache and
`cnext`/`clast` of a vnode. -/
structure AllocList where
  cnt : ℕ
  begin : Ptr
  end_ : Ptr
  next : Ptr → Ptr
  last : Ptr → Ptr
  sem : Ptr → ℕ

namespace AllocList

def boot : AllocList := ⟨0,none,none,fun _ => none,fun _ => none,fun _ => 0⟩

def setNext (s : AllocList) (p v : Ptr) : AllocList := { s with next := update s.next p v }
def setLast (s : AllocList) (p v : Ptr) : AllocList := { s with last := update s.last p v }

/-- Take the entry `scache[cnt]`, which has never been used, and put it at the end. -/
def append (s : AllocList) : AllocList :=
  let p : Ptr := some s.cnt
  let s := if s.cnt = 0 then { s with begin := p }.setLast p none else s.setLast p s.end_
  let s := s.setNext p none
  let s := if s.end_ ≠ none then s.setNext s.end_ p else s
  { s with end_ := p, cnt := s.cnt + 1 }

def seekFree (cap : ℕ) (s : AllocList) : Option Ptr :=
  find s.next (fun i => s.sem (some i) = 0) cap s.begin

/-- Put `p` to the end of the list; `begin` is not touched. -/
def recycle (s : AllocList) (p : Ptr) : AllocList :=
  -- 1. unlink
  let s := if s.last p ≠ none then s.setNext (s.last p) (s.next p) else s
  let s := if s.next p ≠ none then s.setLast (s.next p) (s.last p) else s
  -- 2. relinking to end
  let s := s.setLast p s.end_
  let s := s.setNext p none
  let s := s.setNext s.end_ p
  { s with end_ := p }

def alloc (cap : ℕ) (s : AllocList) : Option (Ptr × AllocList) :=
  if s.cnt < cap then some (some s.cnt,s.append)
  else
    match s.seekFree cap with
    | none => none
    | some none => some (none,s)
    | some (some i) => some (some i,s.recycle (some i))

def promoUnlink (s : AllocList) (p : Ptr) : AllocList :=
  let s := s.setLast (s.next p) (s.last p)
  if s.last p ≠ none then s.setNext (s.last p) (s.next p) else { s with begin := s.next p }

def promoRelink (s : AllocList) (p : Ptr) : AllocList :=
  let s := if s.next (s.next p) ≠ none then s.setLast (s.next (s.next p)) p else s
  let s := s.setLast p (s.next p)
  let s := s.setNext p (s.next (s.next p))
  let s := s.setNext (s.last p) p
  if s.next p = none then { s with end_ := p } else s

def promo (s : AllocList) (p : Ptr) : AllocList :=
  if s.next p = none then s else (s.promoUnlink p).promoRelink p

/-! ## Representation -/

/-- The list runs through `l`: `begin` and `end_` are its ends, the links of its
cells are mutually inverse, and its cells are the first `cnt` table entries. -/
structure Holds (s : AllocList) (l : List ℕ) : Prop where
  begin_eq : s.begin = l.head?
  end_eq : s.end_ = l.getLast?
  seg : Seg s.next s.last none l none
  nodup : l.Nodup
  mem_iff : ∀ i, i ∈ l ↔ i < s.cnt

structure Threads (s : AllocList) (l : List ℕ) : Prop where
  begin_eq : s.begin = l.head?
  end_eq : s.end_ = l.getLast?
  seg : Seg s.next s.last none l none

variable {s : AllocList} {l m : List ℕ} {i j n : ℕ}

theorem Threads.nodup (h : s.Threads l) : l.Nodup := h.seg.chain.nodup

theorem Holds.threads (h : s.Holds l) : s.Threads l := ⟨h.begin_eq,h.end_eq,h.seg⟩

theorem Holds.length (h : s.Holds l) : l.length = s.cnt := by
  have hp : l.Perm (List.range s.cnt) :=
    (List.perm_ext_iff_of_nodup h.nodup List.nodup_range).mpr (by simpa using h.mem_iff)
  simpa using hp.length_eq

theorem boot_holds : boot.Holds [] := ⟨rfl,rfl,trivial,List.nodup_nil,by simp [boot]⟩

@[simp] theorem append_sem : s.append.sem = s.sem := by
  unfold append
  dsimp only
  split <;> split <;> rfl

@[simp] theorem append_cnt : s.append.cnt = s.cnt + 1 := by
  unfold append
  dsimp only
  split <;> split <;> rfl

theorem append_begin : s.append.begin = if s.cnt = 0 then some 0 else s.begin := by
  unfold append
  dsimp only
  split <;> split <;> simp_all [setNext,setLast]

@[simp] theorem recycle_sem (p : Ptr) : (s.recycle p).sem = s.sem := by
  unfold recycle
  dsimp only
  split <;> split <;> rfl

@[simp] theorem recycle_cnt (p : Ptr) : (s.recycle p).cnt = s.cnt := by
  unfold recycle
  dsimp only
  split <;> split <;> rfl

@[simp] theorem recycle_begin (p : Ptr) : (s.recycle p).begin = s.begin := by
  unfold recycle
  dsimp only
  split <;> split <;> rfl

@[simp] theorem recycle_end (p : Ptr) : (s.recycle p).end_ = p := by
  unfold recycle
  dsimp only

theorem alloc_cnt {t : AllocList} {p : Ptr} (h : s.alloc n = some (p,t)) : t.cnt = s.cnt ∨ t.cnt = s.cnt + 1 := by
  unfold alloc at h
  split at h
  · cases h
    simp
  · split at h <;> cases h <;> simp

theorem cnt_le_alloc {t : AllocList} {p : Ptr} (h : s.alloc n = some (p,t)) : s.cnt ≤ t.cnt := by
  rcases alloc_cnt h with he | he <;> omega

theorem append_holds (h : s.Holds l) : s.append.Holds (l ++ [s.cnt]) := by
  have hn : s.cnt ∉ l := by simp [h.mem_iff]
  have hfresh : ∀ x ∈ l, (some s.cnt : Ptr) ≠ some x := fun x hx he => hn (Option.some.inj he ▸ hx)
  have hmem : ∀ i, i ∈ l ++ [s.cnt] ↔ i < s.append.cnt := by
    intro i
    rw [append_cnt,List.mem_append,h.mem_iff,List.mem_singleton]
    omega
  have hnd : (l ++ [s.cnt]).Nodup := by
    rw [List.nodup_append]
    refine ⟨h.nodup,List.nodup_singleton _,?_⟩
    rintro x hx y hy rfl
    exact hn (List.mem_singleton.mp hy ▸ hx)
  rcases List.eq_nil_or_concat l with rfl | ⟨l,y,rfl⟩
  · -- the first entry ever allocated becomes both ends
    have hc : s.cnt = 0 := h.length.symm
    have he : s.end_ = none := h.end_eq
    refine ⟨by simp [append,setLast,setNext,hc,he],by simp [append,hc],?_,hnd,hmem⟩
    simp [append,setLast,setNext,hc,he]
  · rw [List.concat_eq_append] at *
    have hc : s.cnt ≠ 0 := by have := h.length; simp at this; omega
    have he : s.end_ = some y := by simpa using h.end_eq
    refine ⟨?_,?_,?_,hnd,hmem⟩
    · simpa [append,setLast,setNext,hc,he] using h.begin_eq
    · simp [append]
    · have hy : y ≠ s.cnt := fun hy => hn (by simp [hy])
      rw [seg_append]
      constructor
      · have h1 := (h.seg.frame_prev (v := s.end_) hfresh).frame_next (v := none) hfresh
        have h2 := h1.retarget_exit h.nodup (some s.cnt)
        simpa [append,setLast,setNext,hc,he] using h2
      · simp [append,setLast,setNext,hc,he,hy.symm]

/-- Once the table is full the call takes the first entry of the list that nobody uses. -/
theorem alloc_full (h : s.Holds l) (hfull : s.cnt = n) :
    s.alloc n = some (match l.find? (fun i => s.sem (some i) = 0) with
      | none => (none,s)
      | some i => (some i,s.recycle (some i))) := by
  have hc : Chain s.next s.begin l := h.begin_eq ▸ h.seg.chain
  have hs : s.seekFree n = some (l.find? (fun i => s.sem (some i) = 0)) :=
    find_eq hc (by rw [h.length]; omega)
  simp only [alloc,hfull,Nat.lt_irrefl,↓reduceIte,hs]
  cases l.find? (fun i => s.sem (some i) = 0) <;> rfl

/-- An entry strictly inside the list is moved to its end. -/
theorem recycle_holds (h : s.Holds (l ++ i :: m)) (hl : l ≠ []) (hm : m ≠ []) :
    (s.recycle (some i)).Holds (l ++ m ++ [i]) := by
  have hnd := h.nodup
  have hperm : (l ++ m ++ [i]).Perm (l ++ i :: m) := by
    rw [List.append_assoc]
    exact (List.perm_append_singleton i m).append_left l
  obtain ⟨l,y,rfl⟩ := (List.eq_nil_or_concat l).resolve_left hl
  obtain ⟨z,m,rfl⟩ := List.exists_cons_of_ne_nil hm
  rw [List.concat_eq_append] at *
  obtain ⟨e,he⟩ : ∃ e, (z :: m).getLast? = some e := ⟨_,List.getLast?_eq_getLast_of_ne_nil (by simp)⟩
  have hem : e ∈ z :: m := List.mem_of_getLast? he
  have hend : s.end_ = some e := by
    rw [h.end_eq,List.getLast?_append_of_ne_nil _ (by simp),List.getLast?_cons,he]
    rfl
  have hlast : s.last (some i) = some y := by rw [h.seg.prev_mid]; simp
  have hnext : s.next (some i) = some z := by rw [h.seg.next_mid]; simp
  obtain ⟨hd1,hd2,hd3⟩ := List.nodup_append.mp hnd
  obtain ⟨hi,hd2⟩ := List.nodup_cons.mp hd2
  have hil : ∀ x ∈ l ++ [y], (some i : Ptr) ≠ some x := by
    intro x hx hxi
    exact hd3 x hx i (by simp) (Option.some.inj hxi).symm
  have him : ∀ x ∈ z :: m, (some i : Ptr) ≠ some x := fun x hx hxi => hi (Option.some.inj hxi ▸ hx)
  have hel : ∀ x ∈ l ++ [y], (some e : Ptr) ≠ some x := by
    intro x hx hxe
    exact hd3 x hx e (by simp [hem]) (Option.some.inj hxe).symm
  have hym : ∀ x ∈ z :: m, (some y : Ptr) ≠ some x := by
    intro x hx hxy
    exact hd3 y (by simp) x (List.mem_cons_of_mem _ hx) (Option.some.inj hxy)
  have hzl : ∀ x ∈ l ++ [y], (some z : Ptr) ≠ some x := by
    intro x hx hxz
    exact hd3 x hx z (by simp) (Option.some.inj hxz).symm
  have hiy : (some i : Ptr) ≠ some y := hil y (by simp)
  have hie : (some i : Ptr) ≠ some e := him e hem
  have hnx : (s.recycle (some i)).next =
      update (update (update s.next (some y) (some z)) (some i) none) (some e) (some i) := by
    simp [recycle,setNext,setLast,hlast,hnext,hend,update_of_ne hiy]
  have hls : (s.recycle (some i)).last =
      update (update s.last (some z) (some y)) (some i) (some e) := by
    simp [recycle,setNext,setLast,hlast,hnext,hend,update_of_ne hiy]
  obtain ⟨hsl,hsr⟩ := seg_append.mp h.seg
  refine ⟨?_,?_,?_,hperm.nodup_iff.mpr hnd,?_⟩
  · rw [recycle_begin,h.begin_eq]
    cases l <;> simp
  · rw [recycle_end,List.getLast?_append_of_ne_nil _ (by simp)]
    rfl
  · rw [hnx,hls,seg_append,seg_append]
    refine ⟨⟨?_,?_⟩,?_⟩
    · have h1 := hsl.retarget_exit hd1 (some z)
      have h2 := (h1.frame_next (v := none) hil).frame_next (v := some i) hel
      simpa using (h2.frame_prev (v := some y) hzl).frame_prev (v := some e) hil
    · have h1 := (hsr.2.2.retarget_entry hd2 (some y)).frame_prev (v := some e) him
      have h2 := (h1.frame_next (v := some z) hym).frame_next (v := none) him
      simpa [he] using h2.retarget_exit hd2 (some i)
    · have hl' : (l ++ [y] ++ z :: m).getLast? = some e := by
        rw [List.getLast?_append_of_ne_nil _ (by simp),he]
      rw [hl']
      simp [update_of_ne hie]
  · intro x
    rw [hperm.mem_iff,h.mem_iff,recycle_cnt]

/-- Recycling the first entry leaves `begin` on an entry without a successor. -/
theorem recycle_head_not_holds (h : s.Holds (i :: m)) (hm : m ≠ []) :
    ¬ (s.recycle (some i)).Holds l := by
  intro h'
  obtain ⟨e,he⟩ : ∃ e, m.getLast? = some e := ⟨_,List.getLast?_eq_getLast_of_ne_nil hm⟩
  have hend : s.end_ = some e := by rw [h.end_eq,List.getLast?_cons,he]; rfl
  have hei : e ≠ i := by
    rintro rfl
    exact (List.nodup_cons.mp h.nodup).1 (List.mem_of_getLast? he)
  have hnone : (s.recycle (some i)).next (some i) = none := by
    have hlast : s.last (some i) = none := h.seg.1
    have hne : (some i : Ptr) ≠ some e := by simpa using hei.symm
    simp only [recycle,setNext,setLast,hlast,ne_eq,not_true_eq_false,↓reduceIte]
    split <;> simp [hend,hne]
  have hc : Chain (s.recycle (some i)).next (s.recycle (some i)).begin [i] := by
    refine ⟨by rw [recycle_begin,h.begin_eq]; rfl,?_⟩
    rw [hnone]
    rfl
  have hl : l = [i] := (h'.begin_eq ▸ h'.seg.chain).unique hc
  have hlen := h'.length
  have hlen' := h.length
  have hpos : 0 < m.length := List.length_pos_of_ne_nil hm
  rw [hl,recycle_cnt] at hlen
  simp only [List.length_cons,List.length_nil] at hlen hlen'
  omega

/-- Recycling the last entry cuts it off from its predecessor. -/
theorem recycle_last_not_holds (h : s.Holds (m ++ [i])) (hm : m ≠ []) :
    ¬ (s.recycle (some i)).Holds l := by
  intro h'
  obtain ⟨m,y,rfl⟩ := (List.eq_nil_or_concat m).resolve_left hm
  rw [List.concat_eq_append] at *
  have hlast : s.last (some i) = some y := by rw [h.seg.prev_mid]; simp
  have hnext : s.next (some i) = none := by rw [h.seg.next_mid]; simp
  obtain ⟨hd1,_,hd3⟩ := List.nodup_append.mp h.nodup
  have hil : ∀ x ∈ m ++ [y], (some i : Ptr) ≠ some x := by
    intro x hx hxi
    exact hd3 x hx i (by simp) (Option.some.inj hxi).symm
  have hyi : (some i : Ptr) ≠ some y := hil y (by simp)
  have hnx : (s.recycle (some i)).next =
      update (update (update s.next (some y) none) (some i) none) s.end_ (some i) := by
    simp [recycle,setNext,setLast,hlast,hnext,update_of_ne hyi]
  have hend : s.end_ = some i := by rw [h.end_eq]; simp
  have hseg := (seg_append.mp h.seg).1.retarget_exit hd1 none
  have hc : Chain (s.recycle (some i)).next (m ++ [y]).head? (m ++ [y]) := by
    rw [hnx,hend]
    simpa using ((hseg.frame_next (v := none) hil).frame_next (v := some i) hil).chain
  have hb : (s.recycle (some i)).begin = (m ++ [y]).head? := by
    rw [recycle_begin,h.begin_eq]
    cases m <;> simp
  have hl : l = m ++ [y] := (h'.begin_eq ▸ h'.seg.chain).unique (hb ▸ hc)
  have hi : i ∈ l := List.mem_of_getLast? (by rw [← h'.end_eq,recycle_end])
  exact hil i (hl ▸ hi) rfl

theorem promoUnlink_eq (hn : s.next (some i) = some j) (hij : i ≠ j) :
    s.promoUnlink (some i) = if s.last (some i) = none
      then { s with last := update s.last (some j) none, begin := some j }
      else { s with last := update s.last (some j) (s.last (some i)),
                    next := update s.next (s.last (some i)) (some j) } := by
  have hne : (some i : Ptr) ≠ some j := by simpa using hij
  by_cases ha : s.last (some i) = none
  · simp [promoUnlink,setLast,hn,update_of_ne hne,ha]
  · simp [promoUnlink,setLast,setNext,hn,update_of_ne hne,ha]

theorem promoRelink_eq (hn : s.next (some i) = some j) (hij : i ≠ j) :
    s.promoRelink (some i) = { s with
      last := update (if s.next (some j) = none then s.last else update s.last (s.next (some j)) (some i))
        (some i) (some j)
      next := update (update s.next (some i) (s.next (some j))) (some j) (some i)
      end_ := if s.next (some j) = none then some i else s.end_ } := by
  have hne : (some i : Ptr) ≠ some j := by simpa using hij
  by_cases hb : s.next (some j) = none
  · simp [promoRelink,setLast,setNext,hn,update_of_ne hne,hb]
  · simp [promoRelink,setLast,setNext,hn,update_of_ne hne,hb]

/-- The promotion exchanges an entry with its successor. -/
theorem Threads.promo (h : s.Threads (l ++ i :: j :: m)) : (s.promo (some i)).Threads (l ++ j :: i :: m) := by
  have hnext : s.next (some i) = some j := by rw [h.seg.next_mid]; simp
  have hlast : s.last (some i) = l.getLast? := by rw [h.seg.prev_mid]; simp
  have hs : Seg s.next s.last none ((l ++ [i]) ++ j :: m) none := by simpa using h.seg
  have hnj : s.next (some j) = m.head? := by rw [hs.next_mid]; simp
  obtain ⟨hd1,hd2,hd3⟩ := List.nodup_append.mp h.nodup
  obtain ⟨hi,hd2⟩ := List.nodup_cons.mp hd2
  obtain ⟨hj,hd2⟩ := List.nodup_cons.mp hd2
  have hil : ∀ x ∈ l, (some i : Ptr) ≠ some x := by
    intro x hx hxi
    exact hd3 x hx i (by simp) (Option.some.inj hxi).symm
  have hjl : ∀ x ∈ l, (some j : Ptr) ≠ some x := by
    intro x hx hxj
    exact hd3 x hx j (by simp) (Option.some.inj hxj).symm
  have him : ∀ x ∈ m, (some i : Ptr) ≠ some x := fun x hx hxi => hi (by simp [Option.some.inj hxi,hx])
  have hjm : ∀ x ∈ m, (some j : Ptr) ≠ some x := fun x hx hxj => hj (by simp [Option.some.inj hxj,hx])
  have hij : i ≠ j := fun hx => hi (by simp [hx])
  have hlm : ∀ x ∈ m, l.getLast? ≠ some x := by
    intro x hx hxl
    exact hd3 x (List.mem_of_getLast? hxl) x (by simp [hx]) rfl
  have hml : ∀ x ∈ l, m.head? ≠ some x := by
    intro x hx hxm
    exact hd3 x hx x (by simp [List.mem_of_head? hxm]) rfl
  have hli : (some i : Ptr) ≠ l.getLast? := fun hx => hil i (List.mem_of_getLast? hx.symm) rfl
  have hlj : (some j : Ptr) ≠ l.getLast? := fun hx => hjl j (List.mem_of_getLast? hx.symm) rfl
  obtain ⟨hsl,_,_,_,_,hsm⟩ := seg_append.mp h.seg
  have hu := promoUnlink_eq hnext hij
  have hun : (s.promoUnlink (some i)).next (some i) = some j := by
    rw [hu,hlast]
    split
    · exact hnext
    · simpa [update_of_ne hli] using hnext
  have huj : (s.promoUnlink (some i)).next (some j) = m.head? := by
    rw [hu,hlast]
    split
    · exact hnj
    · simpa [update_of_ne hlj] using hnj
  have hp : s.promo (some i) = (s.promoUnlink (some i)).promoRelink (some i) := by
    simp [AllocList.promo,hnext]
  rw [promoRelink_eq hun hij,huj,hu,hlast] at hp
  -- the cell at the null pointer is the only place where the guarded stores differ from plain ones
  have hnx : ∀ x, (s.promo (some i)).next (some x) =
      update (update (update s.next l.getLast? (some j)) (some i) m.head?) (some j) (some i) (some x) := by
    intro x
    rw [hp]
    by_cases hl : l.getLast? = none <;> simp [hl,update_apply]
  have hls : ∀ x, (s.promo (some i)).last (some x) =
      update (update (update s.last (some j) l.getLast?) m.head? (some i)) (some i) (some j) (some x) := by
    intro x
    rw [hp]
    by_cases hl : l.getLast? = none <;> by_cases hm : m.head? = none <;> simp [hl,hm,update_apply]
  have hmj : (some j : Ptr) ≠ m.head? := fun hx => hjm j (List.mem_of_head? hx.symm) rfl
  have hne : (some i : Ptr) ≠ some j := by simpa using hij
  refine ⟨?_,?_,Seg.congr ?_ (fun x _ => hnx x) (fun x _ => hls x)⟩
  · rw [hp,List.head?_append]
    have hb := h.begin_eq
    rw [List.head?_append] at hb
    cases l with
    | nil => rfl
    | cons y l => simpa [List.getLast?_cons] using hb
  · have he := h.end_eq
    rw [hp]
    cases m with
    | nil => simp
    | cons z m =>
      have hm : (l ++ j :: i :: z :: m).getLast? = (l ++ i :: j :: z :: m).getLast? := by
        simp [List.getLast?_cons]
      rw [hm,← he]
      by_cases hl : l.getLast? = none <;> simp [hl]
  · rw [seg_append]
    refine ⟨?_,?_,?_,?_,?_,?_⟩
    · have h1 := hsl.retarget_exit hd1 (some j)
      have h2 := (h1.frame_next (v := m.head?) hil).frame_next (v := some i) hjl
      exact ((h2.frame_prev (v := l.getLast?) hjl).frame_prev (v := some i) hml).frame_prev hil
    · simp [update_of_ne hne.symm,update_of_ne hmj]
    · simp
    · simp
    · simp [update_of_ne hne]
    · have h1 := (hsm.frame_prev (v := l.getLast?) hjm).retarget_entry hd2 (some i)
      have h2 := h1.frame_prev (v := some j) him
      exact ((h2.frame_next (v := some j) hlm).frame_next (v := m.head?) him).frame_next hjm

theorem Threads.promo_last (h : s.Threads (l ++ [i])) : s.promo (some i) = s := by
  have hnext : s.next (some i) = none := by rw [h.seg.next_mid]; simp
  simp [AllocList.promo,hnext]

def exchange (i : ℕ) : List ℕ → List ℕ
  | x :: y :: l => if x = i then y :: x :: l else x :: exchange i (y :: l)
  | l => l

theorem exchange_cons {x : ℕ} (hx : x ≠ i) : exchange i (x :: l) = x :: exchange i l := by
  cases l with
  | nil => rfl
  | cons y l => rw [exchange,if_neg hx]

theorem exchange_append (hi : i ∉ l) : exchange i (l ++ m) = l ++ exchange i m := by
  induction l with
  | nil => rfl
  | cons x l ih =>
    obtain ⟨hx,hl⟩ := not_or.mp (mt List.mem_cons.mpr hi)
    rw [List.cons_append,exchange_cons (Ne.symm hx),ih hl,List.cons_append]

/-- Every entry of a list is promoted by one place; the last one stays. -/
theorem Threads.exchange (h : s.Threads l) (hi : i ∈ l) :
    (s.promo (some i)).Threads (AllocList.exchange i l) ∧ (l.getLast? = some i → s.promo (some i) = s) := by
  obtain ⟨l,m,rfl⟩ := List.append_of_mem hi
  have hil : i ∉ l := fun hil => (List.nodup_append.mp h.nodup).2.2 i hil i List.mem_cons_self rfl
  rw [exchange_append hil]
  cases m with
  | nil => exact ⟨h.promo_last.symm ▸ h,fun _ => h.promo_last⟩
  | cons j m =>
    rw [AllocList.exchange,if_pos rfl]
    refine ⟨h.promo,fun hlast => ?_⟩
    have him : i ∉ j :: m := (List.nodup_cons.mp (List.nodup_append.mp h.nodup).2.1).1
    rw [List.getLast?_append_of_ne_nil _ (by simp),List.getLast?_cons_cons] at hlast
    exact absurd (List.mem_of_getLast? hlast) him

/-- Neither half of a promotion touches the counters. -/
theorem promo_cnt_sem (p : Ptr) : (s.promo p).cnt = s.cnt ∧ (s.promo p).sem = s.sem := by
  have hu : ∀ s : AllocList, (s.promoUnlink p).cnt = s.cnt ∧ (s.promoUnlink p).sem = s.sem := by
    intro s
    unfold promoUnlink
    dsimp only
    split <;> exact ⟨rfl,rfl⟩
  have hr : ∀ s : AllocList, (s.promoRelink p).cnt = s.cnt ∧ (s.promoRelink p).sem = s.sem := by
    intro s
    unfold promoRelink
    dsimp only
    split <;> split <;> exact ⟨rfl,rfl⟩
  unfold promo
  split
  · exact ⟨rfl,rfl⟩
  · exact ⟨(hr _).1.trans (hu s).1,(hr _).2.trans (hu s).2⟩

@[simp] theorem promo_cnt (p : Ptr) : (s.promo p).cnt = s.cnt := (promo_cnt_sem p).1
@[simp] theorem promo_sem (p : Ptr) : (s.promo p).sem = s.sem := (promo_cnt_sem p).2

theorem promo_holds (h : s.Holds (l ++ i :: j :: m)) : (s.promo (some i)).Holds (l ++ j :: i :: m) := by
  have hperm : (l ++ j :: i :: m).Perm (l ++ i :: j :: m) := (List.Perm.swap i j m).append_left l
  obtain ⟨hbegin,hend,hseg⟩ := h.threads.promo
  refine ⟨hbegin,hend,hseg,hperm.nodup_iff.mpr h.nodup,fun x => ?_⟩
  rw [hperm.mem_iff,h.mem_iff,promo_cnt]

theorem promo_last (h : s.Holds (l ++ [i])) : s.promo (some i) = s := h.threads.promo_last

/-! ## What survives on a broken list -/

/-- No link leads out of the allocated entries and `begin` is one of them. -/
structure Closed (s : AllocList) : Prop where
  begin_some : 0 < s.cnt → s.begin ≠ none
  begin_lt : ∀ j, s.begin = some j → j < s.cnt
  next_lt : ∀ p j, s.next p = some j → j < s.cnt

theorem boot_closed : boot.Closed := ⟨by simp [boot],by simp [boot],by simp [boot]⟩

theorem Closed.setNext (h : s.Closed) {v : Ptr} (p : Ptr) (hv : ∀ j, v = some j → j < s.cnt) :
    (s.setNext p v).Closed := by
  refine ⟨h.begin_some,h.begin_lt,?_⟩
  intro q j hq
  simp only [AllocList.setNext,update_apply] at hq
  split at hq
  · exact hv j hq
  · exact h.next_lt q j hq

theorem Closed.setLast (h : s.Closed) (p v : Ptr) : (s.setLast p v).Closed :=
  ⟨h.begin_some,h.begin_lt,h.next_lt⟩

theorem Closed.setEnd (h : s.Closed) (p : Ptr) : { s with end_ := p }.Closed :=
  ⟨h.begin_some,h.begin_lt,h.next_lt⟩

theorem Closed.append_next (h : s.Closed) {q : Ptr} {j : ℕ} (hq : s.append.next q = some j) : j < s.append.cnt := by
  have hlt : ∀ q j, s.next q = some j → j < s.cnt + 1 := fun q j hq => by have := h.next_lt q j hq; omega
  rw [append_cnt]
  unfold AllocList.append at hq
  by_cases hc : s.cnt = 0
  all_goals
    simp only [hc,↓reduceIte] at hq
    split at hq <;> simp only [AllocList.setNext,AllocList.setLast,update_apply] at hq <;> grind

theorem Closed.append (h : s.Closed) : s.append.Closed := by
  by_cases hc : s.cnt = 0
  · refine ⟨fun _ => ?_,?_,fun _ _ => h.append_next⟩
    · unfold AllocList.append
      simp only [hc,↓reduceIte]
      split <;> simp [AllocList.setNext,AllocList.setLast]
    · intro j hj
      unfold AllocList.append at hj
      simp only [hc,↓reduceIte] at hj
      split at hj <;> simp_all [AllocList.setNext,AllocList.setLast]
  · have hb : s.append.begin = s.begin := by
      unfold AllocList.append
      simp only [hc,↓reduceIte]
      split <;> rfl
    refine ⟨fun _ => ?_,?_,fun _ _ => h.append_next⟩
    · rw [hb]
      exact h.begin_some (by omega)
    · intro j hj
      have := h.begin_lt j (hb ▸ hj)
      rw [append_cnt]
      omega

theorem Closed.recycle (h : s.Closed) (hi : i < s.cnt) : (s.recycle (some i)).Closed := by
  have h1 : (if s.last (some i) ≠ none then s.setNext (s.last (some i)) (s.next (some i)) else s).Closed := by
    split
    · exact h.setNext _ (h.next_lt _)
    · exact h
  have hc : (if s.last (some i) ≠ none then s.setNext (s.last (some i)) (s.next (some i)) else s).cnt =
      s.cnt := by split <;> rfl
  unfold AllocList.recycle
  dsimp only
  generalize (if s.last (some i) ≠ none then s.setNext (s.last (some i)) (s.next (some i)) else s) = t at h1 hc
  have hself : ∀ j, (some i : Ptr) = some j → j < t.cnt := by rintro j ⟨⟩; omega
  split
  · exact ((((h1.setLast _ _).setLast _ _).setNext _ (by simp)).setNext _ hself).setEnd _
  · exact (((h1.setLast _ _).setNext _ (by simp)).setNext _ hself).setEnd _

theorem Closed.promo (h : s.Closed) (hi : i < s.cnt) : (s.promo (some i)).Closed := by
  unfold AllocList.promo
  split
  · exact h
  · rename_i hn
    have hu : (s.promoUnlink (some i)).Closed ∧ (s.promoUnlink (some i)).cnt = s.cnt := by
      unfold promoUnlink
      dsimp only
      split
      · exact ⟨(h.setLast _ _).setNext _ (h.next_lt _),rfl⟩
      · exact ⟨⟨fun _ => hn,h.next_lt _,h.next_lt⟩,rfl⟩
    obtain ⟨hu,hcu⟩ := hu
    generalize s.promoUnlink (some i) = t at hu hcu
    have hself : ∀ j, (some i : Ptr) = some j → j < t.cnt := by rintro j ⟨⟩; omega
    unfold promoRelink
    dsimp only
    split <;> split
    · exact (((((hu.setLast _ _).setLast _ _).setNext _ (hu.next_lt _)).setNext _ hself)).setEnd _
    · exact ((((hu.setLast _ _).setLast _ _).setNext _ (hu.next_lt _)).setNext _ hself)
    · exact ((((hu.setLast _ _).setNext _ (hu.next_lt _)).setNext _ hself)).setEnd _
    · exact (((hu.setLast _ _).setNext _ (hu.next_lt _)).setNext _ hself)

/-- With no entry in use, a full table gives out the entry at `begin`. -/
theorem Closed.alloc_full (h : s.Closed) (hz : s.sem = fun _ => 0) (hfull : s.cnt = n) (hpos : 0 < n) :
    ∃ i < s.cnt, s.begin = some i ∧ s.alloc n = some (some i,s.recycle (some i)) := by
  obtain ⟨i,hi⟩ := Option.ne_none_iff_exists'.mp (h.begin_some (by omega))
  obtain ⟨c,rfl⟩ := Nat.exists_eq_succ_of_ne_zero (Nat.ne_of_gt hpos)
  exact ⟨i,h.begin_lt i hi,hi,by simp [alloc,hfull,hi,seekFree,find,hz]⟩

structure Unused (n : ℕ) (s : AllocList) : Prop where
  closed : s.Closed
  sem_eq : s.sem = fun _ => 0
  cnt_le : s.cnt ≤ n
  begin_eq : 0 < s.cnt → s.begin = some 0

theorem boot_unused : boot.Unused n := ⟨boot_closed,rfl,Nat.zero_le _,fun h => absurd h (Nat.lt_irrefl 0)⟩

theorem Unused.append (h : s.Unused n) (hc : s.cnt < n) : s.append.Unused n := by
  refine ⟨h.closed.append,?_,?_,?_⟩
  · rw [append_sem,h.sem_eq]
  · rw [append_cnt]
    exact hc
  · intro _
    rw [append_begin]
    split
    · rfl
    · exact h.begin_eq (Nat.pos_of_ne_zero ‹_›)

/-- While there is room the next entry is taken, then always the first one. -/
theorem Unused.alloc (h : s.Unused n) (hpos : 0 < n) : ∃ i t, s.alloc n = some (some i,t) ∧ t.Unused n ∧
    i < t.cnt ∧ (s.cnt < n ∧ i = s.cnt ∧ t = s.append ∨ s.cnt = n ∧ i = 0 ∧ t = s.recycle (some 0)) := by
  by_cases hc : s.cnt < n
  · refine ⟨s.cnt,s.append,by simp [AllocList.alloc,hc],h.append hc,?_,Or.inl ⟨hc,rfl,rfl⟩⟩
    simp
  · have hfull : s.cnt = n := Nat.le_antisymm h.cnt_le (Nat.le_of_not_lt hc)
    obtain ⟨i,hi,hb,ha⟩ := h.closed.alloc_full h.sem_eq hfull hpos
    obtain rfl : i = 0 := Option.some.inj (hb.symm.trans (h.begin_eq (hfull ▸ hpos)))
    refine ⟨0,s.recycle (some 0),ha,⟨h.closed.recycle hi,?_,?_,?_⟩,?_,Or.inr ⟨hfull,rfl,rfl⟩⟩
    · rw [recycle_sem,h.sem_eq]
    · rw [recycle_cnt]
      exact h.cnt_le
    · rw [recycle_cnt,recycle_begin]
      exact h.begin_eq
    · rwa [recycle_cnt]

end AllocList
end Micron.Kernel

import Mathlib.Algebra.GroupWithZero.Nat
import Mathlib.Data.List.TakeWhile
import Mathlib.Data.Nat.Notation
import Mathlib.Logic.Function.Basic

/-! # Byte memories: little-endian integers and C strings

A memory maps addresses to bytes. `At m a l` says that the bytes `l` stand at `a`.
-/
namespace Micron.Bytes
open Function
variable {m : ℕ → UInt8} {a n : ℕ} {l r s : List UInt8}

def At (m : ℕ → UInt8) (a : ℕ) (l : List UInt8) : Prop := ∀ i (h : i < l.length), m (a + i) = l[i]

theorem at_cons {c : UInt8} : At m a (c :: l) ↔ m a = c ∧ At m (a + 1) l := by
  constructor
  · intro h
    refine ⟨h 0 (Nat.zero_lt_succ _),fun i hi => ?_⟩
    simpa [Nat.add_assoc,Nat.add_comm 1] using h (i + 1) (Nat.succ_lt_succ hi)
  · rintro ⟨h0,h⟩ i hi
    cases i with
    | zero => exact h0
    | succ i => simpa [Nat.add_assoc,Nat.add_comm 1] using h i (Nat.lt_of_succ_lt_succ hi)

theorem at_append : At m a (l ++ r) ↔ At m a l ∧ At m (a + l.length) r := by
  induction l generalizing a with
  | nil => simp [At]
  | cons c l ih => rw [List.cons_append,at_cons,at_cons,ih,and_assoc,List.length_cons,Nat.add_assoc,Nat.add_comm 1]

def put (m : ℕ → UInt8) (a : ℕ) (l : List UInt8) : ℕ → UInt8 :=
  fun k => if h : a ≤ k ∧ k - a < l.length then l[k - a] else m k

theorem put_frame {k : ℕ} (h : k < a ∨ a + l.length ≤ k) : put m a l k = m k := by
  rw [put,dif_neg (by omega)]

theorem at_put : At (put m a l) a l := by
  intro i hi
  rw [put,dif_pos ⟨Nat.le_add_right a i,by omega⟩]
  congr 1
  omega

/-- Bytes are not touched by a store beside them. -/
theorem At.put {b : ℕ} (h : At m a l) (hd : a + l.length ≤ b ∨ b + r.length ≤ a) : At (Bytes.put m b r) a l := by
  intro i hi
  rw [put_frame (by omega)]
  exact h i hi

def regions : List (ℕ × (ℕ → UInt8)) → ℕ → UInt8
  | [], _ => 0
  | (n,f) :: rest, k => if k < n then f k else regions rest (k - n)

/-- The buffer behind `pre`. -/
theorem regions_append (pre rest : List (ℕ × (ℕ → UInt8))) (f : ℕ → UInt8) {k : ℕ} (h : k < n) :
    regions (pre ++ (n,f) :: rest) ((pre.map Prod.fst).sum + k) = f k := by
  induction pre with
  | nil => simp [regions,h]
  | cons r pre ih =>
    obtain ⟨w,g⟩ := r
    rw [List.cons_append,regions,List.map_cons,List.sum_cons,if_neg (by omega),Nat.add_assoc,Nat.add_sub_cancel_left]
    exact ih

/-! ## Integers -/

def le16 (v : UInt16) : List UInt8 := [v.toNat.toUInt8,(v.toNat / 2 ^ 8).toUInt8]

def le32 (v : UInt32) : List UInt8 :=
  [v.toNat.toUInt8,(v.toNat / 2 ^ 8).toUInt8,(v.toNat / 2 ^ 16).toUInt8,(v.toNat / 2 ^ 24).toUInt8]

def get16 (m : ℕ → UInt8) (a : ℕ) : UInt16 := ((m a).toNat + 2 ^ 8 * (m (a + 1)).toNat).toUInt16

def get32 (m : ℕ → UInt8) (a : ℕ) : UInt32 :=
  ((m a).toNat + 2 ^ 8 * (m (a + 1)).toNat + 2 ^ 16 * (m (a + 2)).toNat + 2 ^ 24 * (m (a + 3)).toNat).toUInt32

@[simp] theorem le16_length (v : UInt16) : (le16 v).length = 2 := rfl
@[simp] theorem le32_length (v : UInt32) : (le32 v).length = 4 := rfl

theorem get16_of_at {v : UInt16} (h : At m a (le16 v)) : get16 m a = v := by
  simp only [le16,at_cons] at h
  obtain ⟨h0,h1,-⟩ := h
  have hv := v.toNat_lt
  rw [get16,h0,h1]
  apply UInt16.toNat_inj.mp
  simp only [Nat.toUInt8_eq,Nat.toUInt16_eq,UInt8.toNat_ofNat',UInt16.toNat_ofNat']
  omega

theorem get32_of_at {v : UInt32} (h : At m a (le32 v)) : get32 m a = v := by
  simp only [le32,at_cons] at h
  obtain ⟨h0,h1,h2,h3,-⟩ := h
  have hv := v.toNat_lt
  rw [get32,h0,h1,h2,h3]
  apply UInt32.toNat_inj.mp
  simp only [Nat.toUInt8_eq,Nat.toUInt32_eq,UInt8.toNat_ofNat',UInt32.toNat_ofNat']
  omega

theorem get32_put {b : ℕ} (hd : a + 4 ≤ b ∨ b + r.length ≤ a) : get32 (put m b r) a = get32 m a := by
  rw [get32,get32,put_frame (by omega),put_frame (by omega),put_frame (by omega),put_frame (by omega)]

theorem le32_get32 (m : ℕ → UInt8) (a : ℕ) : le32 (get32 m a) = [m a,m (a + 1),m (a + 2),m (a + 3)] := by
  have h0 := (m a).toNat_lt
  have h1 := (m (a + 1)).toNat_lt
  have h2 := (m (a + 2)).toNat_lt
  have h3 := (m (a + 3)).toNat_lt
  have hbyte : ∀ (n : ℕ) (b : UInt8), n % 256 = b.toNat → n.toUInt8 = b := by
    intro n b h
    apply UInt8.toNat_inj.mp
    rw [Nat.toUInt8_eq,UInt8.toNat_ofNat']
    exact h
  rw [le32,get32,Nat.toUInt32_eq,UInt32.toNat_ofNat',hbyte _ (m a) (by omega),hbyte _ (m (a + 1)) (by omega),
    hbyte _ (m (a + 2)) (by omega),hbyte _ (m (a + 3)) (by omega)]

/-! ## Strings in buffers of fixed length -/

def cstr (l : List UInt8) : List UInt8 := l.takeWhile (· ≠ 0)

def strcpy (dst : Fin n → UInt8) (s : List UInt8) : Fin n → UInt8 :=
  fun i => if h : i < s.length then s[i] else if i = s.length then 0 else dst i

theorem cstr_append (hs : 0 ∉ s) : cstr (s ++ 0 :: l) = s := by
  unfold cstr
  rw [List.takeWhile_append_of_pos]
  · simp
  · intro c hc
    simpa using fun h : c = 0 => hs (h ▸ hc)

/-- A string that stands in memory with its terminator. -/
theorem cstr_of_at (h : At m a (s ++ [0])) (hs : 0 ∉ s) (hn : s.length < n) :
    cstr ((List.range n).map (fun k => m (a + k))) = s := by
  have hsplit : (List.range n).map (fun k => m (a + k)) =
      s ++ 0 :: ((List.range n).map (fun k => m (a + k))).drop (s.length + 1) := by
    have htake : ((List.range n).map (fun k => m (a + k))).take (s.length + 1) = s ++ [0] := by
      refine List.ext_getElem (by simp; omega) (fun i _ hi => ?_)
      rw [List.getElem_take,List.getElem_map,List.getElem_range]
      exact h i hi
    rw [← List.singleton_append,← List.append_assoc,← htake,List.take_append_drop]
  rw [hsplit]
  exact cstr_append hs

/-- A string that ends inside its buffer is read whatever follows the buffer. -/
theorem cstr_append_right (h : (cstr l).length < l.length) : cstr (l ++ r) = cstr l := by
  unfold cstr at h ⊢
  induction l with
  | nil => simp at h
  | cons c l ih =>
    rw [List.cons_append,List.takeWhile_cons,List.takeWhile_cons]
    rw [List.takeWhile_cons] at h
    split
    · rename_i hc
      rw [if_pos hc] at h
      rw [ih (by simpa using h)]
    · rfl

/-- A string that leaves room for its terminator is read back. -/
theorem cstr_strcpy (dst : Fin n → UInt8) (hs : 0 ∉ s) (hn : s.length < n) :
    cstr (List.ofFn (strcpy dst s)) = s := by
  have h : List.ofFn (strcpy dst s) = s ++ 0 :: (List.ofFn (strcpy dst s)).drop (s.length + 1) := by
    apply List.ext_getElem
    · simp
      omega
    · intro i hi hi'
      rw [List.getElem_append]
      split
      · rename_i hlt
        simp [strcpy,hlt]
      · rename_i hge
        by_cases he : i = s.length
        · simp [strcpy,he]
        · rw [List.getElem_cons,dif_neg (by omega),List.getElem_drop]
          congr 1
          omega
  rw [h]
  exact cstr_append hs

end Micron.Bytes

import Mathlib.Data.List.GetD
import Micron.Lib.Ring

/-! # The keyboard buffer

`tty_kbd_buf_push` and `tty_kbd_buf_pop` of `cpu/tty.c`, without the messages that they
print. The indices run downwards, and a slot that is taken has the mark 0x55.
-/
namespace Micron.Kernel.Tty
open Function Micron.Ring

def BUF_SIZE : ℕ := 16

structure TtyQueue where
  head : Fin BUF_SIZE
  tail : Fin BUF_SIZE
  buf : Fin BUF_SIZE → UInt8
  map : Fin BUF_SIZE → UInt8

def ttyKbdBuf : TtyQueue := ⟨⟨0,by decide⟩,⟨0,by decide⟩,fun _ => 0,fun _ => 0⟩

def ttyKbdBufPush (scanCode : UInt8) (s : TtyQueue) : TtyQueue :=
  if s.map s.head = 0 then
    { s with
      buf := update s.buf s.head scanCode
      map := update s.map s.head 0x55
      head := down s.head }
  else s

def ttyKbdBufPop (s : TtyQueue) : UInt8 × TtyQueue :=
  if s.map s.tail = 0x55 then (s.buf s.tail,{ s with map := update s.map s.tail 0, tail := down s.tail })
  else (0,s)

def kbdRun : List (Op UInt8) → TtyQueue × List UInt8 → TtyQueue × List UInt8
  | [], r => r
  | .push c :: ops, (s,out) => kbdRun ops (ttyKbdBufPush c s,out)
  | .pop :: ops, (s,out) => kbdRun ops ((ttyKbdBufPop s).2,out ++ [(ttyKbdBufPop s).1])

/-! ## The buffer as a queue -/

def taken (m : UInt8) : Bool := decide (m = 0x55)

def TtyQueue.content (s : TtyQueue) : List UInt8 := Ring.content (taken ∘ s.map) s.buf s.tail

structure TtyQueue.Stores (s : TtyQueue) (q : List UInt8) : Prop where
  holds : Holds (taken ∘ s.map) s.buf s.head s.tail q
  map : ∀ i, s.map i = 0 ∨ s.map i = 0x55

variable {s : TtyQueue} {q : List UInt8} {a : UInt8}

theorem ttyKbdBuf_stores : ttyKbdBuf.Stores [] where
  holds := ⟨Nat.zero_le _,rfl,fun _ h => absurd h (Nat.not_lt_zero _),fun _ _ => rfl⟩
  map _ := Or.inl rfl

theorem map_update (h : ∀ i, s.map i = 0 ∨ s.map i = 0x55) {v : UInt8} (hv : v = 0 ∨ v = 0x55)
    (j i : Fin BUF_SIZE) : update s.map j v i = 0 ∨ update s.map j v i = 0x55 := by
  by_cases hi : i = j
  · rw [hi,update_self]
    exact hv
  · rw [update_of_ne hi]
    exact h i

/-- The mark at the head is clear exactly if there is room. -/
theorem TtyQueue.Stores.head_iff (h : s.Stores q) : s.map s.head = 0 ↔ q.length < BUF_SIZE := by
  have hfull := h.holds.full_head
  have hle := h.holds.length_le
  rcases h.map s.head with h0 | h0 <;> simp only [comp_apply,taken,h0] at hfull ⊢
  · have hne := of_decide_eq_false (hfull.symm.trans (by decide))
    simp only [true_iff]
    omega
  · have heq := of_decide_eq_true (hfull.symm.trans (by decide))
    simp only [heq,Nat.lt_irrefl,iff_false]
    decide

theorem TtyQueue.Stores.tail_iff (h : s.Stores q) : s.map s.tail = 0x55 ↔ q ≠ [] := by
  have hfull := h.holds.full_tail
  rwa [comp_apply,taken,decide_eq_decide] at hfull

theorem TtyQueue.Stores.push (h : s.Stores q) (c : UInt8) : (ttyKbdBufPush c s).Stores (Ring.push BUF_SIZE q c) := by
  unfold ttyKbdBufPush Ring.push
  by_cases hlt : q.length < BUF_SIZE
  · rw [if_pos (h.head_iff.mpr hlt),if_pos hlt]
    refine ⟨?_,map_update h.map (Or.inr rfl) s.head⟩
    have hpush := h.holds.push hlt c
    rwa [show true = taken 0x55 from rfl,← comp_update] at hpush
  · rw [if_neg (fun h0 => hlt (h.head_iff.mp h0)),if_neg hlt]
    exact h

theorem TtyQueue.Stores.pop (h : s.Stores q) :
    (ttyKbdBufPop s).1 = q.head?.getD 0 ∧ (ttyKbdBufPop s).2.Stores q.tail := by
  unfold ttyKbdBufPop
  cases q with
  | nil =>
    rw [if_neg (fun h1 => h.tail_iff.mp h1 rfl)]
    exact ⟨rfl,h⟩
  | cons a q =>
    rw [if_pos (h.tail_iff.mpr (List.cons_ne_nil a q))]
    obtain ⟨ha,hpop⟩ := h.holds.pop
    refine ⟨ha,?_,map_update h.map (Or.inl rfl) s.tail⟩
    rwa [show false = taken 0 from rfl,← comp_update] at hpop

theorem TtyQueue.Stores.run (h : s.Stores q) (ops : List (Op UInt8)) (out : List (Option UInt8)) :
    (kbdRun ops (s,out.map (·.getD 0))).1.Stores (Ring.run BUF_SIZE ops (q,out)).1 ∧
      (kbdRun ops (s,out.map (·.getD 0))).2 = (Ring.run BUF_SIZE ops (q,out)).2.map (·.getD 0) := by
  induction ops generalizing s q out with
  | nil => exact ⟨h,rfl⟩
  | cons op ops ih =>
    cases op with
    | push c => exact ih (h.push c) out
    | pop =>
      obtain ⟨hout,hpop⟩ := h.pop
      have hrun := ih hpop (out ++ [q.head?])
      rw [List.map_append,List.map_singleton,← hout] at hrun
      exact hrun

/-- In every run of the two functions from boot, the buffer is a queue of `BUF_SIZE` bytes:
the calls return what those of the queue do, a full or empty buffer is left alone, and the
bytes that found room come out in their order or are still there. -/
theorem kbd_buf_fifo (ops : List (Op UInt8)) :
    let r := kbdRun ops (ttyKbdBuf,[])
    let queue := Ring.run BUF_SIZE ops ([],[])
    r.1.content = queue.1 ∧ r.1.content.length ≤ BUF_SIZE ∧ r.2 = queue.2.map (·.getD 0) ∧
      accepted BUF_SIZE ops [] = queue.2.reduceOption ++ r.1.content ∧
      (∀ c, r.1.content.length < BUF_SIZE → (ttyKbdBufPush c r.1).content = r.1.content ++ [c]) ∧
      (∀ c, r.1.content.length = BUF_SIZE → ttyKbdBufPush c r.1 = r.1) ∧
      (∀ a q, r.1.content = a :: q → (ttyKbdBufPop r.1).1 = a ∧ (ttyKbdBufPop r.1).2.content = q) ∧
      (r.1.content = [] → ttyKbdBufPop r.1 = (0,r.1)) := by
  intro r queue
  obtain ⟨hs,hout⟩ := ttyKbdBuf_stores.run ops []
  have hcontent : r.1.content = queue.1 := hs.holds.content_eq
  have hpush : ∀ c, (ttyKbdBufPush c r.1).content = Ring.push BUF_SIZE queue.1 c :=
    fun c => (hs.push c).holds.content_eq
  rw [hcontent]
  refine ⟨rfl,hs.holds.length_le,hout,run_conserves ops [] [],fun c hlt => ?_,fun c heq => ?_,fun a q hq => ?_,fun h0 => ?_⟩
  · rw [hpush c,Ring.push,if_pos hlt]
  · rw [ttyKbdBufPush,if_neg]
    intro h0
    exact Nat.ne_of_lt (hs.head_iff.mp h0) heq
  · obtain ⟨ha,hpop⟩ := hs.pop
    have htail := hpop.holds.content_eq
    change (ttyKbdBufPop r.1).1 = queue.1.head?.getD 0 at ha
    change (ttyKbdBufPop r.1).2.content = queue.1.tail at htail
    rw [ha,htail,hq]
    exact ⟨rfl,rfl⟩
  · rw [ttyKbdBufPop,if_neg]
    intro h1
    exact hs.tail_iff.mp h1 h0

end Micron.Kernel.Tty

import Micron.Kernel.Keyboard
import Micron.Lib.Turns

/-! # Keys between the interrupt and `tty_read`

`tty_intr` stores the scan code in the buffer, takes one out again and prints it. `tty_read`
takes a byte out of the same buffer with interrupts on, so that `tty_intr` may run between any
two of its accesses to the memory.
-/
namespace Micron.Kernel.Tty
open Function Micron.Ring Turns

/-- Where `tty_read` is: the tests and stores of `tty_kbd_buf_pop`, each behind the load of the
index that it needs, or between two calls. -/
inductive ReadPc
  | idle
  | message
  | test
  | compare
  | clear
  | clearAt
  | get
  | getAt
  | sign
  | load
  | store
  | wrap
  /-- an index has left the buffer -/
  | wild

inductive Out
  | message (text : String)
  /-- `kprintf("<%x>\n", c)` -/
  | echo (c : UInt8)

structure Keys where
  queue : TtyQueue
  pc : ReadPc
  /-- the index that was loaded, and `kbd_res` -/
  t : Fin BUF_SIZE
  res : UInt8
  out : List Out
  /-- what the calls of `tty_read` have stored -/
  read : List UInt8

def msg (cond : Prop) [Decidable cond] (text : String) : List Out := if cond then [.message text] else []

def ttyRead (s : Keys) : Keys :=
  let q := s.queue
  match s.pc with
  | .idle => { s with pc := .message, t := q.tail }
  | .message => { s with pc := .test, out := s.out ++ msg (q.map s.t = 0) "reading empty buffer\n" }
  | .test => { s with pc := .compare, t := q.tail }
  | .compare => if q.map s.t = 0x55 then { s with pc := .clear } else { s with pc := .idle, read := s.read ++ [0] }
  | .clear => { s with pc := .clearAt, t := q.tail }
  | .clearAt => { s with pc := .get, queue := { q with map := update q.map s.t 0 } }
  | .get => { s with pc := .getAt, t := q.tail }
  | .getAt => { s with pc := .sign, res := q.buf s.t }
  | .sign => { s with pc := if 0 < q.tail.val then .load else .wrap }
  | .load => { s with pc := .store, t := q.tail }
  | .store =>
    -- the interrupt may have brought the index to 0 behind the test
    if 0 < s.t.val then { s with pc := .idle, queue := { q with tail := down s.t }, read := s.read ++ [s.res] }
    else { s with pc := .wild }
  | .wrap => { s with pc := .idle, queue := { q with tail := ⟨BUF_SIZE - 1,by decide⟩ }, read := s.read ++ [s.res] }
  | .wild => s

def ttyIntr (before code after : UInt8) (s : Keys) : Keys :=
  let q := s.queue
  let pushed := ttyKbdBufPush code q
  let (c,popped) := ttyKbdBufPop pushed
  { s with queue := popped,
           out := s.out ++ msg (before &&& 0x01 ≠ 0x01) "Buffer not full\n" ++
             msg (q.map q.head = 0x55) "kbd buffer overflow\n" ++
             msg (pushed.map pushed.tail = 0) "reading empty buffer\n" ++ [.echo c] ++
             msg (after &&& 0x01 ≠ 0x00) "Buffer not empty after read\n" }

inductive KeyTurn
  | read
  | intr (before code after : UInt8)

def keyStep (s : Keys) : KeyTurn → Keys
  | .read => ttyRead s
  | .intr before code after => ttyIntr before code after s

def KeyTurn.code? : KeyTurn → Option UInt8
  | .read => none
  | .intr _ code _ => some code

def Out.echo? : Out → Option UInt8
  | .message _ => none
  | .echo c => some c

section
variable {s : Keys}

structure Unread (s : Keys) : Prop where
  map : ∀ i, s.queue.map i = 0
  ends : s.queue.head = s.queue.tail
  pc : s.pc = .idle ∨ s.pc = .message ∨ s.pc = .test ∨ s.pc = .compare
  read : ∀ c ∈ s.read, c = 0
  quiet : .message "kbd buffer overflow\n" ∉ s.out

theorem echo_msg (cond : Prop) [Decidable cond] (text : String) : (msg cond text).filterMap Out.echo? = [] := by
  rw [msg]
  split
  · rfl
  · rfl

theorem mem_msg {cond : Prop} [Decidable cond] {text : String} {o : Out} (h : o ∈ msg cond text) : o = .message text := by
  rw [msg] at h
  split at h
  · exact List.mem_singleton.mp h
  · exact absurd h List.not_mem_nil

/-- The interrupt takes out what it has put in. -/
theorem ttyIntr_eq (h : Unread s) (before code after : UInt8) : ∃ buf, ttyIntr before code after s =
    { s with queue := ⟨down s.queue.head,down s.queue.head,buf,s.queue.map⟩,
             out := s.out ++ msg (before &&& 0x01 ≠ 0x01) "Buffer not full\n" ++ [.echo code] ++
               msg (after &&& 0x01 ≠ 0x00) "Buffer not empty after read\n" } := by
  have hpush : ttyKbdBufPush code s.queue = ⟨down s.queue.head,s.queue.tail,update s.queue.buf s.queue.head code,
      update s.queue.map s.queue.head 0x55⟩ := if_pos (h.map _)
  have hback : update (update s.queue.map s.queue.head 0x55) s.queue.head 0 = s.queue.map := by
    rw [update_idem,← h.map s.queue.head,update_eq_self]
  refine ⟨update s.queue.buf s.queue.head code,?_⟩
  have hover : msg (s.queue.map s.queue.head = 0x55) "kbd buffer overflow\n" = [] := by
    rw [msg,h.map]
    rfl
  have hempty : msg ((0x55 : UInt8) = 0) "reading empty buffer\n" = [] := rfl
  simp only [ttyIntr,hpush,ttyKbdBufPop,← h.ends,update_self,if_true,hback,hover,hempty,List.append_nil]

theorem Unread.intr (h : Unread s) (before code after : UInt8) : Unread (ttyIntr before code after s) := by
  obtain ⟨buf,he⟩ := ttyIntr_eq h before code after
  rw [he]
  refine ⟨h.map,rfl,h.pc,h.read,fun hm => ?_⟩
  obtain hm | hm := List.mem_append.mp hm
  · obtain hm | hm := List.mem_append.mp hm
    · obtain hm | hm := List.mem_append.mp hm
      · exact h.quiet hm
      · exact absurd (mem_msg hm) (by simp)
    · exact absurd (List.mem_singleton.mp hm) (by simp)
  · exact absurd (mem_msg hm) (by simp)

/-- `tty_read` finds the buffer empty. -/
theorem Unread.turn (h : Unread s) : Unread (ttyRead s) ∧ (ttyRead s).out.filterMap Out.echo? = s.out.filterMap Out.echo? := by
  obtain hpc | hpc | hpc | hpc := h.pc
  · simp only [ttyRead,hpc]
    exact ⟨⟨h.map,h.ends,Or.inr (Or.inl rfl),h.read,h.quiet⟩,trivial⟩
  · simp only [ttyRead,hpc,List.filterMap_append,echo_msg,List.append_nil]
    refine ⟨⟨h.map,h.ends,Or.inr (Or.inr (Or.inl rfl)),h.read,fun hm => ?_⟩,trivial⟩
    obtain hm | hm := List.mem_append.mp hm
    · exact h.quiet hm
    · exact absurd (mem_msg hm) (by simp)
  · simp only [ttyRead,hpc]
    exact ⟨⟨h.map,h.ends,Or.inr (Or.inr (Or.inr rfl)),h.read,h.quiet⟩,trivial⟩
  · have hne : ¬ s.queue.map s.t = 0x55 := by
      rw [h.map]
      decide
    simp only [ttyRead,hpc,if_neg hne]
    refine ⟨⟨h.map,h.ends,Or.inl rfl,fun c hc => ?_,h.quiet⟩,trivial⟩
    obtain hc | hc := List.mem_append.mp hc
    · exact h.read c hc
    · exact List.mem_singleton.mp hc

theorem Unread.step (a : KeyTurn) (h : Unread s) : Unread (keyStep s a) := by
  cases a with
  | read => exact h.turn.1
  | intr before code after => exact h.intr before code after

def readLeft (k : ℕ) (s : Keys) : ℕ :=
  4 * (k - s.read.length) + match s.pc with
    | .idle => 3
    | .message => 2
    | .test => 1
    | _ => 0

theorem Unread.lower {k : ℕ} (h : Unread s) (hk : ¬ k ≤ s.read.length) : readLeft k (ttyRead s) < readLeft k s := by
  obtain hpc | hpc | hpc | hpc := h.pc
  · simp only [readLeft,ttyRead,hpc]
    omega
  · simp only [readLeft,ttyRead,hpc]
    omega
  · simp only [readLeft,ttyRead,hpc]
    omega
  · have hne : ¬ s.queue.map s.t = 0x55 := by
      rw [h.map]
      decide
    simp only [readLeft,ttyRead,hpc,if_neg hne,List.length_append,List.length_singleton]
    omega

def keyboard : Keys := ⟨ttyKbdBuf,.idle,ttyKbdBuf.tail,0,[],[]⟩

theorem keyboard_unread : Unread keyboard :=
  ⟨fun _ => rfl,rfl,Or.inl rfl,List.forall_mem_nil _,List.not_mem_nil⟩

end

/-- Whenever the keyboard interrupts `tty_read`: every scan code is printed exactly once and in
order, none is lost to a full buffer, and no key ever gets to a reader: each `tty_read` comes back,
with 0. -/
theorem keys_echoed_never_read (sched : ℕ → KeyTurn) :
    let r := Turns.run keyStep keyboard sched
    (∀ n, (r n).out.filterMap Out.echo? = ((List.range n).map sched).filterMap KeyTurn.code? ∧
      .message "kbd buffer overflow\n" ∉ (r n).out ∧ (∀ c ∈ (r n).read, c = 0) ∧ (r n).queue.content = []) ∧
    (Fair (· = .read) sched → ∀ k, ∃ n, k ≤ (r n).read.length) := by
  intro r
  have hinv : ∀ n, Unread (r n) := run_invariant (fun s a h => h.step a) keyboard_unread
  refine ⟨fun n => ⟨?_,(hinv n).quiet,(hinv n).read,?_⟩,fun hf k => ?_⟩
  · induction n with
    | zero => rfl
    | succ n ih =>
      rw [List.range_succ,List.map_append,List.filterMap_append,← ih]
      change (keyStep (r n) (sched n)).out.filterMap Out.echo? = _
      cases hs : sched n with
      | read =>
        rw [List.map_singleton,hs]
        exact (hinv n).turn.2.trans (List.append_nil _).symm
      | intr before code after =>
        obtain ⟨buf,he⟩ := ttyIntr_eq (hinv n) before code after
        rw [keyStep,he,List.map_singleton,hs]
        simp only [List.filterMap_append,echo_msg,List.append_nil]
        rfl
  · have hnone : taken ∘ (r n).queue.map = fun _ => false := by
      funext i
      rw [comp_apply,(hinv n).map]
      rfl
    rw [TtyQueue.content,Ring.content,hnone]
    rfl
  · apply fair_descends (fun s a h => Unread.step a h) (readLeft k) _ (fun s h hd => h.lower hd) hf keyboard_unread
    intro s a h hd
    cases a with
    | intr before code after =>
      obtain ⟨buf,he⟩ := ttyIntr_eq h before code after
      rw [keyStep,he]
      exact Nat.le_refl _
    | read => exact Nat.le_of_lt (h.lower hd)

def typing (n : ℕ) : KeyTurn := if n % 2 = 0 then .read else .intr 0x15 (if n % 4 = 1 then 0x1e else 0x9e) 0x14

theorem keys_never_read_typing : ∃ n, 3 ≤ (Turns.run keyStep keyboard typing n).read.length := by
  apply (keys_echoed_never_read typing).2 _ 3
  rintro a rfl n
  exact ⟨2 * n,by omega,if_pos (by omega)⟩


end Micron.Kernel.Tty

import Mathlib.Data.Bool.AllAny
import Micron.Kernel.Kprintf
import Micron.Kernel.Render
import Micron.Kernel.Trap

/-! # The report of an unhandled exception

`isr_handler` of `sysisr.c` names the exception and dumps the registers when no filter is
left. The texts go through the buffer of 256 bytes of `printf`.
-/
namespace Micron.Kernel.Report
open Vsprintf Tty Trap Fuel

def octets (t : List Char) : List UInt8 := t.map fun c => c.toNat.toUInt8

/-- `printf` and `_printf`: the text is written to `buf[256]` with its terminator, then to the
console. Nothing, if it does not fit. -/
def printf (mem : UInt32 → List Char) (fmt : List Char) (args : Stream' UInt32) (d : TtyDisp) : Option (ℕ × TtyDisp) := do
  let r ← vsprintf mem fmt args
  if r.1.length < 256 then
    let d ← ttyWrite (octets r.1) d
    return (r.1.length,d)
  else none

def exceptMsg : List String :=
  ["Division By Zero","Debug","Non Maskable Interrupt","Breakpoint","Into Detected Overflow","Out of Bounds",
    "Invalid Opcode","No Coprocessor","Double Fault","Coprocessor Segment Overrun","Bad TSS","Segment Not Present",
    "Stack Fault","General Protection Fault","Page Fault","Unknown Interrupt","Coprocessor Fault","Alignment Check",
    "Machine Check","Reserved","Reserved","Reserved","Reserved","Reserved","Reserved","Reserved","Reserved","Reserved",
    "Reserved","Reserved","Reserved","Reserved"]

section
variable (mem : UInt32 → List Char) (except_msg : ℕ → UInt32) (r : Register)

/-- The words behind the arguments are whatever the stack has there. -/
def dumpCpu (stack : Stream' UInt32) (d : TtyDisp) : Option TtyDisp :=
  (printf mem
    ("Dumping CPU:\ncs: 0x%X\t\teip: 0x%X\nss: 0x%X\tesp: 0x%X\nds: 0x%X\tesi: 0x%X\nes: 0x%X\tedi: 0x%X\n" ++
      "fs: 0x%X\ngs: 0x%X\neax: 0x%X\tecx: 0x%X\tebx: 0x%X\tedx: 0x%X\neflags: 0x%X\n").toList
    (Stream'.appendStream' [r.cs,r.eip,r.ss,r.esp,r.ds,r.esi,r.es,r.edi,r.fs,r.gs,r.eax,r.ecx,r.ebx,r.edx,r.eflags] stack)
    d).map Prod.snd

/-- The branch of `isr_handler` that has no filter, up to its `PANIC`. The format of `kprintf`
stands at `fmt`. -/
def unhandled (m buf : ℕ → UInt8) (fmt : ℕ) (stack : Stream' UInt32) (d : TtyDisp) (fuel : ℕ) : Option TtyDisp := do
  let cs ← Kprintf.kprintf m fuel fmt buf (Stream'.appendStream' [0x0E,0x0F] stack)
  let d ← cs.foldlM Kprintf.perform d
  let d ← printf mem "Not handled: %s (%d)\n".toList (Stream'.appendStream' [except_msg r.intn.toNat,r.err] stack) d
  dumpCpu mem r stack d.2

end

/-! ## Formats as rows of items -/

def hexItem : Item := .conv ⟨[],.absent,.absent,none,.X⟩

def namedItems : List Item :=
  plains "Not handled: " ++ .conv ⟨[],.absent,.absent,none,.s⟩ :: plains " (" ++ .conv ⟨[],.absent,.absent,none,.d⟩ ::
    plains ")\n"

def captions : List String :=
  ["Dumping CPU:\ncs: 0x","\t\teip: 0x","\nss: 0x","\tesp: 0x","\nds: 0x","\tesi: 0x","\nes: 0x","\tedi: 0x","\nfs: 0x",
    "\ngs: 0x","\neax: 0x","\tecx: 0x","\tebx: 0x","\tedx: 0x","\neflags: 0x"]

def dumpItems : List Item := captions.flatMap (fun s => plains s ++ [hexItem]) ++ plains "\n"

theorem namedItems_format : format namedItems = "Not handled: %s (%d)\n".toList := by decide

theorem dumpItems_format : format dumpItems =
    ("Dumping CPU:\ncs: 0x%X\t\teip: 0x%X\nss: 0x%X\tesp: 0x%X\nds: 0x%X\tesi: 0x%X\nes: 0x%X\tedi: 0x%X\n" ++
      "fs: 0x%X\ngs: 0x%X\neax: 0x%X\tecx: 0x%X\tebx: 0x%X\tedx: 0x%X\neflags: 0x%X\n").toList := by decide +kernel

/-! ## Their texts -/

section
variable {mem : UInt32 → List Char} {its : List Item} {r : Register}

def hex (v : UInt32) : List Char := Numeral.numeral (digit 0) 16 v.toNat

def named (r : Register) : List Char :=
  "Not handled: ".toList ++ ((exceptMsg.getD r.intn.toNat "").toList ++ (" (".toList ++ (dec r.err ++ ")\n".toList)))

def Register.values (r : Register) : List UInt32 :=
  [r.cs,r.eip,r.ss,r.esp,r.ds,r.esi,r.es,r.edi,r.fs,r.gs,r.eax,r.ecx,r.ebx,r.edx,r.eflags]

def captioned (cs : List String) (vs : List UInt32) : List Char := (cs.zip vs).flatMap fun x => x.1.toList ++ hex x.2

def dumped (r : Register) : List Char := captioned captions (Register.values r) ++ "\n".toList

theorem captions_length (r : Register) : captions.length = (Register.values r).length := rfl

theorem hex_rendered (mem : UInt32 → List Char) (v : UInt32) :
    Directive.rendered mem ⟨[],.absent,.absent,none,.X⟩ v = hex v := by
  have h := formatted_bare v.toInt32 16 0
  rw [numeral_eq,show signText v.toInt32 0 = [] from if_neg (by simp [has]),show prefixText 16 0 = [] by decide] at h
  exact h

theorem render_captions (cs : List String) (vs : List UInt32) (h : cs.length = vs.length) (args : Stream' UInt32) :
    (render mem 0 (cs.flatMap (fun s => plains s ++ [hexItem]) ++ its) (Stream'.appendStream' vs args)).1 =
    captioned cs vs ++ (render mem 0 its args).1 := by
  induction cs generalizing vs with
  | nil =>
    rw [List.length_eq_zero_iff.mp h.symm]
    rfl
  | cons c cs ih =>
    cases vs with
    | nil => cases h
    | cons v vs =>
      rw [List.flatMap_cons,List.append_assoc,List.append_assoc,render_plains,List.singleton_append]
      have hv : (render mem 0 (hexItem :: (cs.flatMap (fun s => plains s ++ [hexItem]) ++ its))
          (Stream'.appendStream' (v :: vs) args)).1 = _ := render_conv _ _ v _
      rw [hv,hex_rendered,ih vs (Nat.succ.inj h),captioned,captioned,List.zip_cons_cons,List.flatMap_cons]
      simp only [List.append_assoc]

theorem named_rendered {p : UInt32} (hp : p ≠ 0)
    (hmem : mem p = (exceptMsg.getD r.intn.toNat "").toList) (args : Stream' UInt32) :
    (render mem 0 namedItems (Stream'.appendStream' [p,r.err] args)).1 = named r := by
  have hs : Directive.rendered mem ⟨[],.absent,.absent,none,.s⟩ p = mem p := by
    simp [Directive.rendered,field,Field.cut,Field.cells,hp]
  have harg : ∀ its, (render mem 0 (.conv ⟨[],.absent,.absent,none,.s⟩ :: its) (Stream'.appendStream' [p,r.err] args)).1 = _ :=
    fun its => render_conv _ its p _
  have herr : ∀ its, (render mem 0 (.conv ⟨[],.absent,.absent,none,.d⟩ :: its) (Stream'.appendStream' [r.err] args)).1 = _ :=
    fun its => render_conv _ its r.err _
  rw [namedItems,List.append_assoc,render_plains,List.cons_append,harg,render_plains,herr,dec_rendered,hs,hmem,
    ← List.append_nil (plains ")\n"),render_plains]
  rfl

theorem dumped_rendered (args : Stream' UInt32) :
    (render mem 0 dumpItems (Stream'.appendStream' (Register.values r) args)).1 = dumped r := by
  rw [dumpItems,render_captions captions (Register.values r) (captions_length r),← List.append_nil (plains "\n"),render_plains]
  rfl

/-! ## They fit and are readable -/

theorem hex_length (v : UInt32) : (hex v).length ≤ 8 := by
  rw [hex,Numeral.numeral]
  split
  · decide
  · rw [List.length_reverse,List.length_map,Nat.digits_length_le_iff (by decide)]
    exact v.toNat_lt

theorem dec_length (v : UInt32) : (dec v).length ≤ 11 := by
  have hsign := signText_length v.toInt32 SIGN
  have hlow := v.toInt32.le_toInt
  have hhigh := v.toInt32.toInt_lt
  have hnum : (Numeral.numeral (digit SIGN) 10 v.toInt32.toInt.natAbs).length ≤ 10 := by
    rw [Numeral.numeral]
    split
    · decide
    · rw [List.length_reverse,List.length_map,Nat.digits_length_le_iff (by decide)]
      omega
  rw [dec,List.length_append]
  omega

theorem captioned_length (cs : List String) (vs : List UInt32) (h : cs.length = vs.length) :
    (captioned cs vs).length ≤ (cs.map String.length).sum + 8 * vs.length := by
  induction cs generalizing vs with
  | nil =>
    rw [List.length_eq_zero_iff.mp h.symm]
    rfl
  | cons c cs ih =>
    cases vs with
    | nil => cases h
    | cons v vs =>
      have hv := hex_length v
      have hrest := ih vs (Nat.succ.inj h)
      rw [captioned,List.zip_cons_cons,List.flatMap_cons,← captioned]
      simp only [List.length_append,List.map_cons,List.sum_cons,List.length_cons,String.length_toList]
      omega

theorem dumped_length (r : Register) : (dumped r).length ≤ 251 := by
  have h := captioned_length captions (Register.values r) (captions_length r)
  have hsum : (captions.map String.length).sum = 130 := by decide +kernel
  have hlen : (Register.values r).length = 15 := rfl
  rw [dumped,List.length_append,String.length_toList]
  rw [hsum,hlen] at h
  exact Nat.add_le_add_right h 1

theorem exceptMsg_length : ∀ s ∈ exceptMsg, s.length ≤ 27 := by decide +kernel

theorem getD_length (i : ℕ) : (exceptMsg.getD i "").length ≤ 27 := by
  rw [List.getD_eq_getElem?_getD]
  cases h : exceptMsg[i]? with
  | none => exact Nat.zero_le _
  | some s => exact exceptMsg_length s (List.mem_of_getElem? h)

theorem named_parts (a b : List Char) :
    ("Not handled: ".toList ++ (a ++ (" (".toList ++ (b ++ ")\n".toList)))).length = 13 + (a.length + (2 + (b.length + 2))) := by
  simp only [List.length_append]
  rfl

theorem named_length (r : Register) : (named r).length ≤ 55 := by
  have hdec := dec_length r.err
  have hmsg := getD_length r.intn.toNat
  rw [← String.length_toList] at hmsg
  unfold named
  rw [named_parts]
  generalize (exceptMsg.getD r.intn.toNat "").toList.length = n at hmsg ⊢
  omega

def Readable (t : List Char) : Prop := ∀ c ∈ t, c.toNat < 128

instance (t : List Char) : Decidable (Readable t) := List.decidableBAll (fun c : Char => c.toNat < 128) t

theorem Readable.append {t u : List Char} (ht : Readable t) (hu : Readable u) : Readable (t ++ u) :=
  fun c hc => (List.mem_append.mp hc).elim (ht c) (hu c)

theorem digit_readable (type : Int32) : ∀ i < 36, (digit type i).toNat < 128 := by
  intro i hi
  rw [digit,digits]
  revert i
  split
  · decide
  · decide

theorem numeral_readable {b n : ℕ} (type : Int32) (h2 : 2 ≤ b) (h36 : b ≤ 36) : Readable (Numeral.numeral (digit type) b n) := by
  intro c hc
  obtain ⟨d,hd,rfl⟩ := Numeral.mem_numeral h2 hc
  exact digit_readable type d (Nat.lt_of_lt_of_le hd h36)

theorem hex_readable (v : UInt32) : Readable (hex v) := numeral_readable 0 (by decide) (by decide)

theorem dec_readable (v : UInt32) : Readable (dec v) := by
  apply Readable.append
  · rw [signText]
    split
    · decide
    · split
      · decide
      · split <;> decide
  · exact numeral_readable SIGN (by decide) (by decide)

theorem captioned_readable (cs : List String) (vs : List UInt32) (h : ∀ s ∈ cs, Readable s.toList) :
    Readable (captioned cs vs) := by
  intro c hc
  obtain ⟨x,hx,hc⟩ := List.mem_flatMap.mp hc
  exact ((h x.1 (List.of_mem_zip hx).1).append (hex_readable x.2)) c hc

theorem dumped_readable (r : Register) : Readable (dumped r) := by
  apply Readable.append
  · apply captioned_readable
    decide +kernel
  · decide

theorem named_readable (r : Register) : Readable (named r) := by
  have hmsg : ∀ s ∈ exceptMsg, Readable s.toList := by
    decide +kernel
  have hget : Readable (exceptMsg.getD r.intn.toNat "").toList := by
    rw [List.getD_eq_getElem?_getD]
    cases h : exceptMsg[r.intn.toNat]? with
    | none => exact fun c hc => absurd hc List.not_mem_nil
    | some s => exact hmsg s (List.mem_of_getElem? h)
  have hone : Readable "Not handled: ".toList := by decide
  have htwo : Readable " (".toList := by decide
  have hthree : Readable ")\n".toList := by decide
  exact hone.append (hget.append (htwo.append ((dec_readable r.err).append hthree)))

/-! ## On the console -/

variable {k : ℕ} {d : TtyDisp} {T : Terminal} {args : Stream' UInt32}

/-- A text that fits into the buffer is shown. -/
theorem printf_shows (hm : ∀ p, (mem p).length < 2 ^ 31) (hok : ∀ it ∈ its, it.Ok) {t : List Char}
    (ht : (render mem 0 its args).1 = t) (hlen : t.length < 256) (hr : Readable t) (h : Shown k d T) :
    ∃ e k', printf mem (format its) args d = some (t.length,e) ∧ Shown k' e ((octets t).foldl Terminal.put T) := by
  have hbytes : ∀ c ∈ octets t, c < 128 := by
    intro c hc
    obtain ⟨a,ha,rfl⟩ := List.mem_map.mp hc
    have hlt := hr a ha
    rw [UInt8.lt_iff_toNat_lt,Nat.toUInt8_eq,UInt8.toNat_ofNat',Nat.mod_eq_of_lt (by omega)]
    exact hlt
  obtain ⟨e,k',he,hs⟩ := h.write hbytes
  refine ⟨e,k',?_,hs⟩
  have hrun : vsprintfLoop mem (format its).length 0 (format its) args = _ := vsprintfLoop_items hok hm (Nat.le_refl _)
  rw [printf,vsprintf,hrun,Option.bind_eq_bind,Option.bind_some,ht,if_pos hlen,he]
  rfl

def header : List Kprintf.Item :=
  .conv .C :: ("[EXCEPTION]".toList.map fun c => .plain c.toNat.toUInt8) ++ [.conv .C,.plain 32]

theorem header_ok : ∀ it ∈ header, it.Ok := by
  have hplain : ∀ c ∈ "[EXCEPTION]".toList, c.toNat.toUInt8 ≠ 0 ∧ c.toNat.toUInt8 ≠ 37 :=
    List.all_iff_forall_prop.mp (by decide)
  intro it hit
  obtain hit | hit := List.mem_append.mp hit
  · obtain rfl | hit := List.mem_cons.mp hit
    · trivial
    · obtain ⟨c,hc,rfl⟩ := List.mem_map.mp hit
      exact hplain c hc
  · simp only [List.mem_cons,List.not_mem_nil,or_false] at hit
    obtain rfl | rfl := hit
    · trivial
    · exact ⟨by decide,by decide⟩

theorem namedItems_ok : ∀ it ∈ namedItems, it.Ok := by
  simp only [namedItems,List.forall_mem_append,List.forall_mem_cons]
  exact ⟨⟨plains_ok (by decide),conv_ok _,plains_ok (by decide)⟩,conv_ok _,plains_ok (by decide)⟩

theorem dumpItems_ok : ∀ it ∈ dumpItems, it.Ok := by
  have hcap : ∀ s ∈ captions, '%' ∉ s.toList := by decide +kernel
  rw [dumpItems,List.forall_mem_append]
  constructor
  · intro it hit
    obtain ⟨s,hs,hit⟩ := List.mem_flatMap.mp hit
    obtain hit | hit := List.mem_append.mp hit
    · exact plains_ok (hcap s hs) it hit
    · rw [List.mem_singleton.mp hit]
      exact conv_ok _
  · exact plains_ok (by decide)

def headerEvents : List Event :=
  .color 0x0E :: ("[EXCEPTION]".toList.map fun c => .write [c.toNat.toUInt8]) ++ [.color 0x0F,.write [32]]

/-- The heading takes two colors from the arguments. -/
theorem header_shown {m : ℕ → UInt8} {fmt : ℕ} (hfmt : Bytes.At m fmt (Kprintf.text header ++ [0])) (buf : ℕ → UInt8)
    (stack : Stream' UInt32) (h : Shown k d T) : ∃ cs e k',
      Settles (fun fuel => Kprintf.kprintf m fuel fmt buf (Stream'.appendStream' [0x0E,0x0F] stack)) cs ∧
      cs.foldlM Kprintf.perform d = some e ∧ Shown k' e (T.run headerEvents) := by
  have hs : Kprintf.taken .s header (Stream'.appendStream' [0x0E,0x0F] stack) = [] := rfl
  have hc : Kprintf.taken .c header (Stream'.appendStream' [0x0E,0x0F] stack) = [] := rfl
  have hstill : ∀ it ∈ header, it.Still := by
    intro it hit
    constructor
    · rintro rfl
      exact absurd hit (by decide)
    · rintro rfl
      exact absurd hit (by decide)
  have hrun : Settles _ (Kprintf.calls (fun _ => []) header (Stream'.appendStream' [0x0E,0x0F] stack)) :=
    Kprintf.kprintf_string header_ok hfmt (by rw [hs]; exact List.forall_mem_nil _) buf
  have hshown : ∃ e k', (Kprintf.calls (fun _ => []) header (Stream'.appendStream' [0x0E,0x0F] stack)).foldlM Kprintf.perform d =
      some e ∧ Shown k' e (T.run headerEvents) :=
    Kprintf.calls_shown hstill (List.all_iff_forall_prop.mp (by decide))
      (by rw [hs]; exact List.forall_mem_nil _) (by rw [hc]; exact List.forall_mem_nil _) h
  obtain ⟨e,k',he,hk⟩ := hshown
  exact ⟨_,e,k',hrun,he,hk⟩

def report (r : Register) : List Event := headerEvents ++ [.write (octets (named r)),.write (octets (dumped r))]

/-- No exception that is left without a filter overruns the buffer of `printf` with its report,
whatever the registers are: the console shows the name of the exception, the error code as a
signed number, and the registers but for `ebp` in base 16, each behind its caption. -/
theorem unhandled_reported (mem : UInt32 → List Char) (hm : ∀ p, (mem p).length < 2 ^ 31) (except_msg : ℕ → UInt32)
    (hmsg : ∀ i < 32, except_msg i ≠ 0 ∧ mem (except_msg i) = (exceptMsg.getD i "").toList) (r : Register)
    (hr : r.intn.toNat < 32) (m buf : ℕ → UInt8) (fmt : ℕ) (hfmt : Bytes.At m fmt (Kprintf.text header ++ [0]))
    (stack : Stream' UInt32) (k : ℕ) (d : TtyDisp) (T : Terminal) (h : Shown k d T) :
    ∃ e k', Settles (unhandled mem except_msg r m buf fmt stack d) e ∧ Shown k' e (T.run (report r)) := by
  obtain ⟨cs,d₁,k₁,hcs,hd₁,h₁⟩ := header_shown hfmt buf stack h
  obtain ⟨hp,hmem⟩ := hmsg r.intn.toNat hr
  obtain ⟨d₂,k₂,hd₂,h₂⟩ := printf_shows hm namedItems_ok (named_rendered hp hmem stack)
    (Nat.lt_of_le_of_lt (named_length r) (by decide)) (named_readable r) h₁
  obtain ⟨d₃,k₃,hd₃,h₃⟩ := printf_shows hm dumpItems_ok (dumped_rendered stack)
    (Nat.lt_of_le_of_lt (dumped_length r) (by decide)) (dumped_readable r) h₂
  rw [namedItems_format] at hd₂
  rw [dumpItems_format] at hd₃
  refine ⟨d₃,k₃,hcs.bind ?_,?_⟩
  · apply (settles_const d₃).congr
    intro fuel
    rw [hd₁,Option.bind_eq_bind,Option.bind_some,hd₂,Option.bind_eq_bind,Option.bind_some]
    exact congrArg (Option.map Prod.snd) hd₃
  · rw [report,Terminal.run,List.foldl_append]
    exact h₃

def messages (p : UInt32) : List Char := (exceptMsg.getD (p.toNat - 1) "").toList

theorem messages_at : ∀ i < 32, (i + 1).toUInt32 ≠ 0 ∧ messages (i + 1).toUInt32 = (exceptMsg.getD i "").toList := by
  intro i hi
  have hval : (i + 1).toUInt32.toNat = i + 1 := by
    rw [Nat.toUInt32_eq,UInt32.toNat_ofNat',Nat.mod_eq_of_lt (by omega)]
  constructor
  · intro h0
    rw [h0] at hval
    cases hval
  · rw [messages,hval,Nat.add_sub_cancel]

/-- A page fault on the console as it is set up. -/
theorem page_fault_reported : ∃ d e k, ttySetup (fun _ => 0) 0 = some d ∧
    Settles (unhandled messages (fun i => (i + 1).toUInt32) ⟨0,0,16,16,16,1,2,3,4,5,6,7,8,14,2,0x1000,8,0x202⟩
      (Bytes.put (fun _ => 0) 0 (Kprintf.text header ++ [0])) (fun _ => 0) 0 (Stream'.const 0) d) e ∧
    Shown k e (Terminal.fresh.run (report ⟨0,0,16,16,16,1,2,3,4,5,6,7,8,14,2,0x1000,8,0x202⟩)) := by
  obtain ⟨d,hd,h⟩ := ttySetup_shown (fun _ => 0) 0
  have hm : ∀ p, (messages p).length < 2 ^ 31 := by
    intro p
    rw [messages,String.length_toList]
    exact Nat.lt_of_le_of_lt (getD_length _) (by decide)
  obtain ⟨e,k,he,hk⟩ := unhandled_reported messages hm (fun i => (i + 1).toUInt32) messages_at
    ⟨0,0,16,16,16,1,2,3,4,5,6,7,8,14,2,0x1000,8,0x202⟩ (by decide) _ (fun _ => 0) 0 Bytes.at_put (Stream'.const 0) 0 d _ h
  exact ⟨d,e,k,hd,he,hk⟩

end

end Micron.Kernel.Report

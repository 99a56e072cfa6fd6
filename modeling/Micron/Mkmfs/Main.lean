import Micron.Mkmfs.Layout

/-! # The command line

`main` reads its arguments into `config`, checks what has been given and builds the image. An
option with a value takes the argument behind it, whatever that looks like, and a null pointer
behind the last one. The messages of the debug mode are left out.
-/
namespace Micron.Mkmfs
open Function

def ascii (s : String) : List UInt8 := s.toList.map fun c => c.toNat.toUInt8

inductive Setting
  | boot
  | kern
  | fmt
  | root
  | image
deriving DecidableEq

structure Config where
  showhelp : Bool
  showlic : Bool
  debug : Bool
  verbose : Bool
  value : Setting → Option (List UInt8)

def Config.set (c : Config) (f : Setting) (v : Option (List UInt8)) : Config :=
  { c with value := update c.value f v, showhelp := false }

def scanArg (a : List UInt8) (next : Option (List UInt8)) (c : Config) : Config × ℕ :=
  if a = ascii "-d" ∨ a = ascii "--debug" then ({ c with debug := true, showhelp := false },1)
  else if a = ascii "-v" ∨ a = ascii "--verbose" then ({ c with verbose := true },1)
  else if a = ascii "-b" ∨ a = ascii "--boot" then (c.set .boot next,2)
  else if a = ascii "-k" ∨ a = ascii "--kernel" then (c.set .kern next,2)
  else if a = ascii "-f" ∨ a = ascii "--fmt" then (c.set .fmt next,2)
  else if a = ascii "-r" ∨ a = ascii "--root" then (c.set .root next,2)
  else if a = ascii "-o" ∨ a = ascii "--output" then (c.set .image next,2)
  else if a = ascii "-l" ∨ a = ascii "--license" then ({ c with showlic := true },1)
  else (c,1)

def scanLoop (argv : List (List UInt8)) : ℕ → ℕ → Config → Option Config
  | 0, _, _ => none
  | fuel + 1, argci, c =>
    match argv[argci]? with
    | none => some c
    | some a =>
      let (c,k) := scanArg a argv[argci + 1]? c
      scanLoop argv fuel (argci + k) c

/-- `config` is cleared before `main`, which sets `c_showhelp`. -/
def Config.initial : Config := ⟨true,false,false,false,fun _ => none⟩

structure Host where
  file : List UInt8 → Option (List UInt8)
  dir : List UInt8 → Option Dir

def create (host : Host) (clock : ℕ → UInt32) (boot kern : Option (List UInt8)) (root : List UInt8) : Except Stop Image := do
  let im ← match boot with
    | none => pure mfsNew
    | some name => mfsLboot (host.file name) mfsNew
  let im ← match kern with
    | none => pure im
    | some name => mfsLkern (host.file name) im
  match host.dir root with
  | none => do
    let _ ← pathBuf (root ++ [slash])
    throw .exit
  | some d => packdir clock root d im

inductive Result
  | license
  | help
  | error (message : String)
  | stopped (s : Stop)
  | written (name : List UInt8) (bytes : ℕ → UInt8)

def built (name : List UInt8) : Except Stop Image → Result
  | .error s => .stopped s
  | .ok im => .written name (mfsEnd im)

/-- The checks of `main` and the building. A format other than `mfs` leaves `fslib` empty. -/
def checked (host : Host) (clock : ℕ → UInt32) (value : Setting → Option (List UInt8)) : Result :=
  match value .fmt with
  | none => .error "ERROR: File system format not specified\n"
  | some fmt =>
    match value .root with
    | none => .error "ERROR: Root directory not specified\n"
    | some root =>
      if fmt ≠ ascii "mfs" then .error "ERROR: File system format specified not supported\n"
      else match value .image with
        | none => .error "ERROR: Output image file name not specified\n"
        | some name => built name (create host clock (value .boot) (value .kern) root)

def finish (host : Host) (clock : ℕ → UInt32) (c : Config) : Result :=
  if c.showlic then .license
  else if c.showhelp then .help
  else checked host clock c.value

def main (host : Host) (clock : ℕ → UInt32) (argv : List (List UInt8)) (fuel : ℕ) : Option Result := do
  let c ← scanLoop argv fuel 1 .initial
  return finish host clock c

/-! ## Words -/

inductive Switch
  | debug
  | verbose
  | license
deriving DecidableEq

inductive Opt
  | switch (w : Switch)
  | setting (f : Setting)
deriving DecidableEq

def Opt.name : Opt → Bool → String
  | .switch .debug, long => if long then "--debug" else "-d"
  | .switch .verbose, long => if long then "--verbose" else "-v"
  | .switch .license, long => if long then "--license" else "-l"
  | .setting .boot, long => if long then "--boot" else "-b"
  | .setting .kern, long => if long then "--kernel" else "-k"
  | .setting .fmt, long => if long then "--fmt" else "-f"
  | .setting .root, long => if long then "--root" else "-r"
  | .setting .image, long => if long then "--output" else "-o"

inductive Word
  | switch (w : Switch) (long : Bool)
  | setting (f : Setting) (long : Bool) (v : Option (List UInt8))
  | other (a : List UInt8)

def Word.text : Word → List (List UInt8)
  | .switch w long => [ascii ((Opt.switch w).name long)]
  | .setting f long v => ascii ((Opt.setting f).name long) :: v.toList
  | .other a => [a]

/-- A value is missing at the end only, and what is ignored is no name. -/
def Proper : List Word → Prop
  | [] => True
  | .switch _ _ :: ws => Proper ws
  | .setting _ _ none :: ws => ws = []
  | .setting _ _ (some _) :: ws => Proper ws
  | .other a :: ws => (∀ o long, a ≠ ascii (Opt.name o long)) ∧ Proper ws

def Word.apply (c : Config) : Word → Config
  | .switch .debug _ => { c with debug := true, showhelp := false }
  | .switch .verbose _ => { c with verbose := true }
  | .switch .license _ => { c with showlic := true }
  | .setting f _ v => c.set f v
  | .other _ => c

/-! ## Reading the arguments -/

def options : List (Opt × Bool) :=
  [.switch .debug,.switch .verbose,.switch .license,.setting .boot,.setting .kern,.setting .fmt,.setting .root,
    .setting .image].flatMap fun o => [(o,false),(o,true)]

def named (a : List UInt8) : Option (Opt × Bool) := options.find? fun x => ascii (x.1.name x.2) = a

def words : List (List UInt8) → List Word
  | [] => []
  | a :: rest =>
    match named a with
    | none => .other a :: words rest
    | some (.switch w,long) => .switch w long :: words rest
    | some (.setting f,long) =>
      match rest with
      | [] => [.setting f long none]
      | v :: rest => .setting f long (some v) :: words rest

theorem mem_options (o : Opt) (long : Bool) : (o,long) ∈ options := by
  cases o with
  | switch w => cases w <;> cases long <;> decide
  | setting f => cases f <;> cases long <;> decide

theorem named_name (o : Opt) (long : Bool) : named (ascii (o.name long)) = some (o,long) := by
  cases o with
  | switch w => cases w <;> cases long <;> decide
  | setting f => cases f <;> cases long <;> decide

theorem name_of_named {a : List UInt8} {o : Opt} {long : Bool} (h : named a = some (o,long)) : ascii (o.name long) = a := by
  have hfind := List.find?_some h
  exact of_decide_eq_true hfind

theorem named_none {a : List UInt8} : named a = none ↔ ∀ o long, a ≠ ascii (Opt.name o long) := by
  rw [named,List.find?_eq_none]
  constructor
  · intro h o long ha
    exact h (o,long) (mem_options o long) (decide_eq_true ha.symm)
  · intro h x _ hx
    exact h x.1 x.2 (of_decide_eq_true hx).symm

/-- What is read is what stands there. -/
theorem words_proper (args : List (List UInt8)) : Proper (words args) ∧ (words args).flatMap Word.text = args := by
  fun_induction words args with
  | case1 => exact ⟨trivial,rfl⟩
  | case2 a rest hn ih =>
    exact ⟨⟨named_none.mp hn,ih.1⟩,congrArg (a :: ·) ih.2⟩
  | case3 a rest w long hn ih =>
    refine ⟨ih.1,?_⟩
    rw [List.flatMap_cons,ih.2,Word.text,name_of_named hn]
    rfl
  | case4 a f long hn =>
    refine ⟨rfl,?_⟩
    rw [List.flatMap_singleton,Word.text,name_of_named hn]
    rfl
  | case5 a f long hn v rest ih =>
    refine ⟨ih.1,?_⟩
    rw [List.flatMap_cons,ih.2,Word.text,name_of_named hn]
    rfl

/-- There is no other reading. -/
theorem words_text {ws : List Word} (h : Proper ws) : words (ws.flatMap Word.text) = ws := by
  induction ws with
  | nil => rfl
  | cons w ws ih =>
    rw [List.flatMap_cons]
    cases w with
    | switch w long =>
      rw [Word.text,List.singleton_append,words,named_name]
      exact congrArg (Word.switch w long :: ·) (ih h)
    | setting f long v =>
      cases v with
      | none =>
        cases (show ws = [] from h)
        rw [Word.text,Option.toList_none,List.flatMap_nil,List.append_nil,words,named_name]
      | some v =>
        rw [Word.text,Option.toList_some,List.cons_append,words,named_name]
        exact congrArg (Word.setting f long (some v) :: ·) (ih h)
    | other a =>
      rw [Word.text,List.singleton_append,words,named_none.mpr h.1]
      exact congrArg (Word.other a :: ·) (ih h.2)

/-! ## The loop -/

section
variable {next : Option (List UInt8)} {c : Config} {a : List UInt8}

theorem scanArg_switch (w : Switch) (long : Bool) :
    scanArg (ascii ((Opt.switch w).name long)) next c = (Word.apply c (.switch w long),1) := by
  cases w <;> cases long <;> rfl

theorem scanArg_setting (f : Setting) (long : Bool) :
    scanArg (ascii ((Opt.setting f).name long)) next c = (c.set f next,2) := by
  cases f <;> cases long <;> rfl

theorem scanArg_other (h : ∀ o long, a ≠ ascii (Opt.name o long)) : scanArg a next c = (c,1) := by
  have hno : ∀ o : Opt, ¬ (a = ascii (o.name false) ∨ a = ascii (o.name true)) := by
    intro o ho
    obtain ho | ho := ho
    · exact h o false ho
    · exact h o true ho
  -- the tests in the order of the source
  apply (if_neg (hno (.switch .debug))).trans
  apply (if_neg (hno (.switch .verbose))).trans
  apply (if_neg (hno (.setting .boot))).trans
  apply (if_neg (hno (.setting .kern))).trans
  apply (if_neg (hno (.setting .fmt))).trans
  apply (if_neg (hno (.setting .root))).trans
  apply (if_neg (hno (.setting .image))).trans
  exact if_neg (hno (.switch .license))

theorem scanLoop_end {argv : List (List UInt8)} {argci : ℕ} (h : argv.length ≤ argci) (fuel : ℕ) :
    scanLoop argv (fuel + 1) argci c = some c := by
  rw [scanLoop,List.getElem?_eq_none h]

theorem scanLoop_step (pre rest : List (List UInt8)) (fuel : ℕ) :
    scanLoop (pre ++ a :: rest) (fuel + 1) pre.length c =
      scanLoop (pre ++ a :: rest) fuel (pre.length + (scanArg a rest.head? c).2) (scanArg a rest.head? c).1 := by
  have ha : (pre ++ a :: rest)[pre.length]? = some a := by
    rw [List.getElem?_append_right (Nat.le_refl _),Nat.sub_self]
    rfl
  have hnext : (pre ++ a :: rest)[pre.length + 1]? = rest.head? := by
    rw [List.getElem?_append_right (Nat.le_add_right _ 1),Nat.add_sub_cancel_left,List.getElem?_cons_succ,List.head?_eq_getElem?]
  rw [scanLoop,ha,hnext]

/-- An argument `a` that is read together with the arguments `t` behind it. -/
theorem scanLoop_next {t rest : List (List UInt8)} {c' : Config} (h : scanArg a (t ++ rest).head? c = (c',t.length + 1))
    (pre : List (List UInt8)) (fuel : ℕ) :
    scanLoop (pre ++ (a :: t ++ rest)) (fuel + 1) pre.length c =
      scanLoop (pre ++ a :: t ++ rest) fuel (pre ++ a :: t).length c' := by
  rw [List.cons_append,scanLoop_step,h,List.append_assoc,List.length_append]
  rfl

theorem scanLoop_words {ws : List Word} (h : Proper ws) (pre : List (List UInt8)) {fuel : ℕ}
    (hf : (ws.flatMap Word.text).length < fuel) (c : Config) :
    scanLoop (pre ++ ws.flatMap Word.text) fuel pre.length c = some (ws.foldl Word.apply c) := by
  induction ws generalizing pre fuel c with
  | nil =>
    obtain ⟨fuel,rfl⟩ := Nat.exists_eq_succ_of_ne_zero (Nat.ne_of_gt hf)
    exact scanLoop_end (by rw [List.flatMap_nil,List.append_nil]) fuel
  | cons w ws ih =>
    obtain ⟨fuel,rfl⟩ := Nat.exists_eq_succ_of_ne_zero (Nat.ne_of_gt (Nat.zero_lt_of_lt hf))
    rw [List.flatMap_cons,List.length_append] at hf
    rw [List.flatMap_cons,List.foldl_cons]
    have hpos : 0 < w.text.length := by cases w <;> exact Nat.succ_pos _
    cases w with
    | switch w long =>
      apply (scanLoop_next (t := []) (scanArg_switch w long) pre fuel).trans
      exact ih h _ (by omega) _
    | setting f long v =>
      cases v with
      | none =>
        -- the loop ends one behind the end of the arguments
        cases (show ws = [] from h)
        obtain ⟨fuel,rfl⟩ := Nat.exists_eq_succ_of_ne_zero (show fuel ≠ 0 by omega)
        rw [List.flatMap_nil,List.append_nil]
        apply (scanLoop_step pre [] (fuel + 1)).trans
        rw [scanArg_setting]
        apply scanLoop_end
        rw [List.length_append]
        exact Nat.le_succ _
      | some v =>
        apply (scanLoop_next (t := [v]) (scanArg_setting f long) pre fuel).trans
        exact ih h _ (by omega) _
    | other a =>
      apply (scanLoop_next (t := []) (scanArg_other h.1) pre fuel).trans
      exact ih h.2 _ (by omega) _

end

/-! ## What has been asked for -/

def Word.acts : Word → Bool
  | .switch .debug _ => true
  | .setting _ _ _ => true
  | _ => false

def Word.is (w : Switch) : Word → Bool
  | .switch w' _ => w = w'
  | _ => false

def Word.gives (f : Setting) : Word → Option (Option (List UInt8))
  | .setting f' _ v => if f' = f then some v else none
  | _ => none

def last (f : Setting) (ws : List Word) : Option (List UInt8) := (ws.filterMap (Word.gives f)).getLast?.getD none

section
variable (ws : List Word) (c : Config)

theorem apply_value (w : Word) (f : Setting) : (w.apply c).value f = (w.gives f).getD (c.value f) := by
  cases w with
  | switch w long => cases w <;> rfl
  | setting f' long v =>
    rw [Word.gives]
    split
    · rename_i hf
      subst hf
      exact update_self f' v c.value
    · rename_i hf
      exact update_of_ne (Ne.symm hf) v c.value
  | other a => rfl

theorem apply_shows (w : Word) :
    (w.apply c).showlic = (c.showlic || w.is .license) ∧ (w.apply c).showhelp = (c.showhelp && !w.acts) := by
  cases w with
  | switch w long => cases w <;> simp [Word.apply,Word.is,Word.acts]
  | setting f long v => simp [Word.apply,Word.is,Word.acts,Config.set]
  | other a => simp [Word.apply,Word.is,Word.acts]

theorem foldl_shows : (ws.foldl Word.apply c).showlic = (c.showlic || ws.any (Word.is .license)) ∧
    (ws.foldl Word.apply c).showhelp = (c.showhelp && !ws.any Word.acts) := by
  induction ws generalizing c with
  | nil => exact ⟨(Bool.or_false _).symm,(Bool.and_true _).symm⟩
  | cons w ws ih =>
    obtain ⟨hlic,hhelp⟩ := ih (Word.apply c w)
    rw [(apply_shows c w).1] at hlic
    rw [(apply_shows c w).2] at hhelp
    rw [List.any_cons,List.any_cons,Bool.not_or,← Bool.or_assoc,← Bool.and_assoc]
    exact ⟨hlic,hhelp⟩

theorem foldl_value (f : Setting) :
    (ws.foldl Word.apply c).value f = (ws.filterMap (Word.gives f)).getLast?.getD (c.value f) := by
  induction ws generalizing c with
  | nil => rfl
  | cons w ws ih =>
    rw [List.foldl_cons,ih,apply_value]
    cases hg : w.gives f with
    | none => rw [List.filterMap_cons_none hg]; rfl
    | some v => rw [List.filterMap_cons_some hg,List.getLast?_cons]; rfl

/-- A setting that has a value comes from a word. -/
theorem acts_of_last {f : Setting} (h : last f ws ≠ none) : ws.any Word.acts = true := by
  by_contra hno
  have hgives : ∀ w ∈ ws, w.gives f = none := by
    intro w hw
    have hacts : ¬ w.acts = true := fun ha => hno (List.any_eq_true.mpr ⟨w,hw,ha⟩)
    cases w with
    | switch w long => rfl
    | setting f' long v => exact absurd rfl hacts
    | other a => rfl
  apply h
  rw [last,List.filterMap_eq_nil_iff.mpr hgives]
  rfl

end

section
variable (host : Host) (clock : ℕ → UInt32) (value : Setting → Option (List UInt8))

/-- Either something is missing or wrong, or the image is built. -/
theorem checked_cases :
    (∃ message, checked host clock value = .error message ∧
      (value .fmt ≠ some (ascii "mfs") ∨ value .root = none ∨ value .image = none)) ∨
    ∃ root name, value .fmt = some (ascii "mfs") ∧ value .root = some root ∧ value .image = some name ∧
      checked host clock value = built name (create host clock (value .boot) (value .kern) root) := by
  rw [checked]
  cases hfmt : value .fmt with
  | none => exact .inl ⟨_,rfl,.inl (Option.some_ne_none _).symm⟩
  | some fmt =>
    cases hroot : value .root with
    | none => exact .inl ⟨_,rfl,.inr (.inl rfl)⟩
    | some root =>
      dsimp only
      split
      · rename_i hne
        exact .inl ⟨_,rfl,.inl fun h => hne (Option.some.inj h)⟩
      · rename_i heq
        cases himage : value .image with
        | none => exact .inl ⟨_,rfl,.inr (.inr rfl)⟩
        | some name => exact .inr ⟨root,name,congrArg some (not_not.mp heq),rfl,rfl,rfl⟩

/-- The checks in terms of what they find. -/
theorem checked_obeys :
    checked host clock value ≠ .license ∧ checked host clock value ≠ .help ∧
    ((∃ message, checked host clock value = .error message) ↔
      value .fmt ≠ some (ascii "mfs") ∨ value .root = none ∨ value .image = none) ∧
    ∀ name bytes, checked host clock value = .written name bytes ↔ value .fmt = some (ascii "mfs") ∧ value .image = some name ∧
      ∃ root im, value .root = some root ∧ create host clock (value .boot) (value .kern) root = .ok im ∧ mfsEnd im = bytes := by
  obtain ⟨message,hr,hmissing⟩ | ⟨root,name,hfmt,hroot,himage,hr⟩ := checked_cases host clock value
  · rw [hr]
    refine ⟨Result.noConfusion,Result.noConfusion,⟨fun _ => hmissing,fun _ => ⟨message,rfl⟩⟩,
      fun name bytes => ⟨Result.noConfusion,?_⟩⟩
    rintro ⟨hfmt,himage,root,im,hroot,-⟩
    obtain h | h | h := hmissing
    · exact absurd hfmt h
    · exact absurd (hroot.symm.trans h) (Option.some_ne_none _)
    · exact absurd (himage.symm.trans h) (Option.some_ne_none _)
  · rw [hr,hfmt,hroot,himage]
    cases hc : create host clock (value .boot) (value .kern) root with
    | error s => simp [built,hc]
    | ok im => simp [built,hc]

end

/-- Every command line is read in exactly one way, as switches, options with their values and
arguments that are ignored. The licence goes before everything else; the help is shown if nothing
is asked for; and the image is written exactly if the last format given is `mfs` and a root and an
output are given, under the last name given, from the last root, boot sector and kernel given. -/
theorem command_line_obeyed (host : Host) (clock : ℕ → UInt32) (prog : List UInt8) (args : List (List UInt8)) : ∃ ws r,
    (∀ ws', Proper ws' ∧ ws'.flatMap Word.text = args ↔ ws' = ws) ∧
    (∀ fuel, main host clock (prog :: args) (args.length + 1 + fuel) = some r) ∧
    (r = .license ↔ ws.any (Word.is .license)) ∧
    (r = .help ↔ ¬ ws.any (Word.is .license) ∧ ¬ ws.any Word.acts) ∧
    ((∃ message, r = .error message) ↔ ¬ ws.any (Word.is .license) ∧ ws.any Word.acts ∧
      (last .fmt ws ≠ some (ascii "mfs") ∨ last .root ws = none ∨ last .image ws = none)) ∧
    ∀ name bytes, r = .written name bytes ↔ ¬ ws.any (Word.is .license) ∧ last .fmt ws = some (ascii "mfs") ∧
      last .image ws = some name ∧ ∃ root im, last .root ws = some root ∧
        create host clock (last .boot ws) (last .kern ws) root = .ok im ∧ mfsEnd im = bytes := by
  obtain ⟨hproper,htext⟩ := words_proper args
  obtain ⟨ws,hws⟩ : ∃ ws, ws = words args := ⟨_,rfl⟩
  rw [← hws] at hproper htext
  have hvalue : (ws.foldl Word.apply .initial).value = fun f => last f ws := funext fun f => foldl_value ws .initial f
  have hlic : (ws.foldl Word.apply .initial).showlic = ws.any (Word.is .license) := (foldl_shows ws .initial).1
  have hhelp : (ws.foldl Word.apply .initial).showhelp = !ws.any Word.acts := (foldl_shows ws .initial).2
  refine ⟨ws,finish host clock (ws.foldl Word.apply .initial),fun ws' => ⟨?_,?_⟩,fun fuel => ?_,?_⟩
  · rintro ⟨h,h'⟩
    rw [hws,← h',words_text h]
  · rintro rfl
    exact ⟨hproper,htext⟩
  · have hscan := scanLoop_words hproper [prog]
      (show (ws.flatMap Word.text).length < args.length + 1 + fuel by rw [htext]; omega)
      .initial
    rw [htext] at hscan
    rw [main]
    exact congrArg (fun c => c.bind fun c => some (finish host clock c)) hscan
  · obtain ⟨hne,hne',herror,hwritten⟩ := checked_obeys host clock fun f => last f ws
    rw [finish,hlic,hhelp,hvalue]
    cases ws.any (Word.is .license) with
    | true => simp
    | false =>
      cases hacts : ws.any Word.acts with
      | true => simp [hne,hne',herror,hwritten]
      | false =>
        have hfmt : last .fmt ws = none := by
          by_contra hf
          exact Bool.false_ne_true (hacts.symm.trans (acts_of_last ws hf))
        simp [hfmt]

end Micron.Mkmfs

import Mathlib.Data.Nat.Digits
import Gpgmepp.Strcmp

/-! The argument handling of the two programs in tests/: `parseCommandLine` of run-createkey.cpp
and `main` of run-genrandom.cpp up to `GpgME::initializeLibrary()`. An argument is a C string
(`Strcmp.CString`), so `!strcmp(arg, s)` compares its bytes with those of the ASCII literal `s`.
Both programs read options in the same `while (argc && last_argc != argc)` loop, and
`show_usage(ex)` ends the program with `exit(ex)`: an exit is the `error` of `Except`, with its
status. -/
namespace CommandLine

open Strcmp

def literal (s : String) : List UInt8 := s.toList.map Char.toUInt8

def endOfOptions : CString := ⟨literal "--", by decide⟩

def helpOption : CString := ⟨literal "--help", by decide⟩

def startsWithDashes (arg : List UInt8) : Bool := arg.take 2 == literal "--"

theorem literal_help_ne : literal "--help" ≠ literal "--" := by decide

section Loop

variable {σ : Type} (option : List UInt8 → Option (σ → σ))

/-- The option loop after `argc--; argv++`: `--` is read and ends it, `--help` exits with 0,
an option of the program changes the state, another argument starting with `--` exits with 1,
and any other argument ends the loop unread, since `argc` then stays at `last_argc`. -/
def optionLoop : σ → List CString → Except ℕ (σ × List CString)
  | s, [] => .ok (s, [])
  | s, arg :: args =>
    if arg.bytes = literal "--" then .ok (s, args)
    else if arg.bytes = literal "--help" then .error 0
    else match option arg.bytes with
      | some act => optionLoop (act s) args
      | none => if startsWithDashes arg.bytes then .error 1 else .ok (s, arg :: args)

def applyOptions (os : List CString) (s : σ) : σ :=
  os.foldl (fun s a => (option a.bytes).getD id s) s

def OptionsNamed : Prop :=
  ∀ a, (option a).isSome → startsWithDashes a = true ∧ a ≠ literal "--" ∧ a ≠ literal "--help"

variable {option}

theorem optionLoop_cons {s : σ} {arg : CString} {args : List CString}
    (h1 : arg.bytes ≠ literal "--") (h2 : arg.bytes ≠ literal "--help") :
    optionLoop option s (arg :: args) = match option arg.bytes with
      | some act => optionLoop option (act s) args
      | none => if startsWithDashes arg.bytes then .error 1 else .ok (s, arg :: args) := by
  rw [optionLoop, if_neg h1, if_neg h2]

theorem optionLoop_append (h : OptionsNamed option) :
    ∀ (os : List CString) (s : σ) (rest : List CString), (∀ a ∈ os, (option a.bytes).isSome) →
      optionLoop option s (os ++ rest) = optionLoop option (applyOptions option os s) rest
  | [], _, _, _ => rfl
  | a :: os, s, rest, hos => by
    obtain ⟨act, hact⟩ := Option.isSome_iff_exists.mp (hos a (List.mem_cons_self a os))
    obtain ⟨-, h1, h2⟩ := h a.bytes (by simp [hact])
    simp only [List.cons_append, optionLoop_cons h1 h2, hact,
      optionLoop_append h os (act s) rest fun b hb => hos b (List.mem_cons_of_mem a hb)]
    simp [applyOptions, hact]

theorem optionLoop_stop (h : OptionsNamed option) (s : σ) {rest : List CString}
    (hrest : ∀ p ∈ rest.head?, startsWithDashes p.bytes = false) :
    optionLoop option s rest = .ok (s, rest) := by
  cases rest with
  | nil => rfl
  | cons p rest =>
    have hp : startsWithDashes p.bytes = false := hrest p rfl
    have hnone : option p.bytes = none := Option.not_isSome_iff_eq_none.mp fun hs => by
      simpa [hp] using (h p.bytes hs).1
    have h1 : p.bytes ≠ literal "--" := fun he => by rw [he] at hp; exact absurd hp (by decide)
    have h2 : p.bytes ≠ literal "--help" := fun he => by rw [he] at hp; exact absurd hp (by decide)
    simp [optionLoop_cons h1 h2, hnone, hp]

theorem optionLoop_eq_ok (h : OptionsNamed option) {s s' : σ} {args rest : List CString} :
    optionLoop option s args = .ok (s', rest) ↔
      ∃ os, (∀ a ∈ os, (option a.bytes).isSome) ∧ s' = applyOptions option os s ∧
        (args = os ++ endOfOptions :: rest ∨
          (args = os ++ rest ∧ ∀ p ∈ rest.head?, startsWithDashes p.bytes = false)) := by
  constructor
  · induction args generalizing s with
    | nil =>
      rintro ⟨⟩
      exact ⟨[], by simp, rfl, .inr ⟨rfl, by simp⟩⟩
    | cons arg args ih =>
      intro hl
      by_cases h1 : arg.bytes = literal "--"
      · simp only [optionLoop, if_pos h1, Except.ok.injEq, Prod.mk.injEq] at hl
        obtain ⟨rfl, rfl⟩ := hl
        have he : arg = endOfOptions := CString.ext h1
        exact ⟨[], by simp, rfl, .inl (by rw [List.nil_append, he])⟩
      by_cases h2 : arg.bytes = literal "--help"
      · simp [optionLoop, h1, h2, literal_help_ne] at hl
      rw [optionLoop_cons h1 h2] at hl
      cases hact : option arg.bytes with
      | some act =>
        rw [hact] at hl
        obtain ⟨os, hos, rfl, hargs⟩ := ih hl
        refine ⟨arg :: os, by simpa [hact] using hos, by simp [applyOptions, hact], ?_⟩
        rcases hargs with rfl | ⟨rfl, hp⟩
        · exact .inl rfl
        · exact .inr ⟨rfl, hp⟩
      | none =>
        by_cases h3 : startsWithDashes arg.bytes <;> simp [hact, h3] at hl
        obtain ⟨rfl, rfl⟩ := hl
        exact ⟨[], by simp, rfl, .inr ⟨rfl, by simpa using h3⟩⟩
  · rintro ⟨os, hos, rfl, hargs⟩
    rcases hargs with rfl | ⟨rfl, hp⟩
    · rw [optionLoop_append h os s _ hos]
      simp [optionLoop, endOfOptions]
    · rw [optionLoop_append h os s _ hos, optionLoop_stop h _ hp]

theorem optionLoop_eq_help (h : OptionsNamed option) {s : σ} {args : List CString} :
    optionLoop option s args = .error 0 ↔
      ∃ os rest, (∀ a ∈ os, (option a.bytes).isSome) ∧ args = os ++ helpOption :: rest := by
  constructor
  · induction args generalizing s with
    | nil => simp [optionLoop]
    | cons arg args ih =>
      intro hl
      by_cases h1 : arg.bytes = literal "--"
      · simp [optionLoop, h1] at hl
      by_cases h2 : arg.bytes = literal "--help"
      · have he : arg = helpOption := CString.ext h2
        exact ⟨[], args, by simp, by rw [List.nil_append, he]⟩
      rw [optionLoop_cons h1 h2] at hl
      cases hact : option arg.bytes with
      | some act =>
        rw [hact] at hl
        obtain ⟨os, rest, hos, rfl⟩ := ih hl
        exact ⟨arg :: os, rest, by simpa [hact] using hos, rfl⟩
      | none => by_cases h3 : startsWithDashes arg.bytes <;> simp [hact, h3] at hl
  · rintro ⟨os, rest, hos, rfl⟩
    rw [optionLoop_append h os s _ hos]
    simp [optionLoop, helpOption, literal_help_ne]

theorem optionLoop_error {s : σ} {args : List CString} {c : ℕ} :
    optionLoop option s args = .error c → c = 0 ∨ c = 1 := by
  induction args generalizing s with
  | nil => simp [optionLoop]
  | cons arg args ih =>
    intro hl
    by_cases h1 : arg.bytes = literal "--"
    · simp [optionLoop, h1] at hl
    by_cases h2 : arg.bytes = literal "--help"
    · simp only [optionLoop, if_neg h1, if_pos h2, Except.error.injEq] at hl
      exact .inl hl.symm
    rw [optionLoop_cons h1 h2] at hl
    cases hact : option arg.bytes with
    | some act => rw [hact] at hl; exact ih hl
    | none =>
      by_cases h3 : startsWithDashes arg.bytes <;> simp [hact, h3] at hl
      exact .inr hl.symm

end Loop

namespace Createkey

inductive Command
  | createKey
  | createSubkey
  deriving DecidableEq, Repr

/-- The values of `Context::CreationFlags` the options name. context.h, which declares them and
the `|=` on them, is not among the sources: `|=` is taken as a bitwise or. -/
structure CreationFlags where
  createUseDefaults : BitVec 32
  createCertify : BitVec 32
  createSign : BitVec 32
  createEncrypt : BitVec 32
  createAuthenticate : BitVec 32
  createGroupKey : BitVec 32
  createNoPassword : BitVec 32
  createForce : BitVec 32

structure Options where
  command : Command
  userid : List UInt8
  fingerprint : List UInt8
  flags : BitVec 32
  deriving DecidableEq

variable (F : CreationFlags)

def Options.init : Options := ⟨.createKey, [], [], F.createUseDefaults⟩

def option (arg : List UInt8) : Option (Options → Options) :=
  if arg = literal "--addkey" then some fun o => { o with command := .createSubkey }
  else if arg = literal "--certify" then some fun o => { o with flags := o.flags ||| F.createCertify }
  else if arg = literal "--sign" then some fun o => { o with flags := o.flags ||| F.createSign }
  else if arg = literal "--encrypt" then some fun o => { o with flags := o.flags ||| F.createEncrypt }
  else if arg = literal "--authenticate" then
    some fun o => { o with flags := o.flags ||| F.createAuthenticate }
  else if arg = literal "--group" then some fun o => { o with flags := o.flags ||| F.createGroupKey }
  else if arg = literal "--unprotected" then
    some fun o => { o with flags := o.flags ||| F.createNoPassword }
  else if arg = literal "--force" then some fun o => { o with flags := o.flags ||| F.createForce }
  else none

def takeArgument (options : Options) (arg : CString) : Options :=
  match options.command with
  | .createKey => { options with userid := arg.bytes }
  | .createSubkey => { options with fingerprint := arg.bytes }

def parseCommandLine (argv : List CString) : Except ℕ Options :=
  match optionLoop (option F) (Options.init F) (argv.drop 1) with
  | .error c => .error c
  | .ok (options, [arg]) => .ok (takeArgument options arg)
  | .ok _ => .error 1

def optionNames : List (List UInt8) :=
  ["--addkey", "--certify", "--sign", "--encrypt", "--authenticate", "--group", "--unprotected",
    "--force"].map literal

def flagOf (arg : List UInt8) : BitVec 32 :=
  if arg = literal "--certify" then F.createCertify
  else if arg = literal "--sign" then F.createSign
  else if arg = literal "--encrypt" then F.createEncrypt
  else if arg = literal "--authenticate" then F.createAuthenticate
  else if arg = literal "--group" then F.createGroupKey
  else if arg = literal "--unprotected" then F.createNoPassword
  else if arg = literal "--force" then F.createForce
  else 0

def requested (os : List CString) (arg : CString) : Options :=
  let flags := os.foldl (fun acc a => acc ||| flagOf F a.bytes) F.createUseDefaults
  if literal "--addkey" ∈ os.map CString.bytes then ⟨.createSubkey, [], arg.bytes, flags⟩
  else ⟨.createKey, arg.bytes, [], flags⟩

variable {F}

theorem isSome_option {a : List UInt8} : (option F a).isSome ↔ a ∈ optionNames := by
  simp only [optionNames, List.map_cons, List.map_nil, List.mem_cons, List.not_mem_nil, or_false]
  constructor
  · intro h
    by_contra ha
    simp only [not_or] at ha
    simp [option, ha] at h
  · rintro (rfl | rfl | rfl | rfl | rfl | rfl | rfl | rfl) <;> rfl

theorem optionsNamed : OptionsNamed (option F) := fun a ha => by
  rw [isSome_option] at ha
  simp only [optionNames, List.map_cons, List.map_nil, List.mem_cons, List.not_mem_nil,
    or_false] at ha
  rcases ha with rfl | rfl | rfl | rfl | rfl | rfl | rfl | rfl <;> decide

theorem getD_option {a : List UInt8} (ha : a ∈ optionNames) (o : Options) :
    (option F a).getD id o =
      { o with command := if a = literal "--addkey" then .createSubkey else o.command,
               flags := o.flags ||| flagOf F a } := by
  simp only [optionNames, List.map_cons, List.map_nil, List.mem_cons, List.not_mem_nil,
    or_false] at ha
  rcases ha with rfl | rfl | rfl | rfl | rfl | rfl | rfl | rfl
  · show { o with command := .createSubkey } =
      { o with command := .createSubkey, flags := o.flags ||| 0#32 }
    rw [BitVec.or_zero]
  all_goals rfl

theorem applyOptions_option :
    ∀ (os : List CString) (o : Options), (∀ a ∈ os, a.bytes ∈ optionNames) →
      applyOptions (option F) os o =
        { o with command := if literal "--addkey" ∈ os.map CString.bytes then .createSubkey
                   else o.command,
                 flags := os.foldl (fun acc a => acc ||| flagOf F a.bytes) o.flags }
  | [], o, _ => by simp [applyOptions]
  | a :: os, o, hos => by
    have ih := applyOptions_option os ((option F a.bytes).getD id o) fun b hb =>
      hos b (List.mem_cons_of_mem _ hb)
    rw [applyOptions, List.foldl_cons, ← applyOptions, ih,
      getD_option (hos a (List.mem_cons_self a os))]
    by_cases ha : a.bytes = literal "--addkey"
    · simp [ha]
    · simp [ha, Ne.symm ha]

theorem takeArgument_applyOptions {os : List CString} (hos : ∀ a ∈ os, a.bytes ∈ optionNames)
    (arg : CString) :
    takeArgument (applyOptions (option F) os (Options.init F)) arg = requested F os arg := by
  rw [applyOptions_option os _ hos]
  by_cases ha : literal "--addkey" ∈ os.map CString.bytes <;>
    simp [takeArgument, requested, ha, Options.init]

theorem applyOptions_perm {os os' : List CString} (hos : ∀ a ∈ os, a.bytes ∈ optionNames)
    (hp : os.Perm os') (o : Options) :
    applyOptions (option F) os o = applyOptions (option F) os' o := by
  have hos' : ∀ a ∈ os', a.bytes ∈ optionNames := fun a ha => hos a (hp.mem_iff.mpr ha)
  have hor : ∀ x ∈ os, ∀ y ∈ os, ∀ z : BitVec 32,
      z ||| flagOf F x.bytes ||| flagOf F y.bytes = z ||| flagOf F y.bytes ||| flagOf F x.bytes :=
    fun x _ y _ z => by rw [BitVec.or_assoc, BitVec.or_comm (flagOf F x.bytes), ← BitVec.or_assoc]
  rw [applyOptions_option os o hos, applyOptions_option os' o hos', hp.foldl_eq' hor]
  simp only [(hp.map CString.bytes).mem_iff]

theorem parseCommandLine_eq_ok {argv : List CString} {o : Options} :
    parseCommandLine F argv = .ok o ↔ ∃ options arg,
      optionLoop (option F) (Options.init F) (argv.drop 1) = .ok (options, [arg]) ∧
        o = takeArgument options arg := by
  constructor
  · intro hp
    rcases hl : optionLoop (option F) (Options.init F) (argv.drop 1) with
      c | ⟨options, _ | ⟨arg, _ | _⟩⟩ <;> rw [parseCommandLine, hl] at hp <;> simp at hp
    exact ⟨options, arg, rfl, hp.symm⟩
  · rintro ⟨options, arg, hl, rfl⟩
    rw [parseCommandLine, hl]

theorem parseCommandLine_error {argv : List CString} {c : ℕ}
    (h : parseCommandLine F argv = .error c) :
    optionLoop (option F) (Options.init F) (argv.drop 1) = .error c ∨ c = 1 := by
  rcases hl : optionLoop (option F) (Options.init F) (argv.drop 1) with
    c' | ⟨options, _ | ⟨arg, _ | _⟩⟩ <;> rw [parseCommandLine, hl] at h <;> simp at h
  · exact .inl (congrArg _ h)
  all_goals exact .inr h.symm

/-- `parseCommandLine` accepts exactly a run of its options followed by one argument, which can
start with `--` only after `--`. The flags are the or of those the options name; `--addkey`
anywhere makes the argument the fingerprint of a new subkey, otherwise it is the user id, and
reordering the options changes nothing. `--help` after a run of options exits with 0, and
every other command line exits with 1. -/
theorem parse_command_line_accepts (argv : List CString) (o : Options) :
    (parseCommandLine F argv = .ok o ↔
      ∃ os arg, (∀ a ∈ os, a.bytes ∈ optionNames) ∧
        (argv.drop 1 = os ++ [endOfOptions, arg] ∨
          (argv.drop 1 = os ++ [arg] ∧ startsWithDashes arg.bytes = false)) ∧
        o = requested F os arg) ∧
    (parseCommandLine F argv = .error 0 ↔
      ∃ os rest, (∀ a ∈ os, a.bytes ∈ optionNames) ∧ argv.drop 1 = os ++ helpOption :: rest) ∧
    (∀ c, parseCommandLine F argv = .error c → c = 0 ∨ c = 1) ∧
    (∀ (prog : CString) (os os' rest : List CString), (∀ a ∈ os, a.bytes ∈ optionNames) →
      os.Perm os' → parseCommandLine F (prog :: os ++ rest) = parseCommandLine F (prog :: os' ++ rest)) := by
  have hnamed : ∀ os : List CString,
      (∀ a ∈ os, a.bytes ∈ optionNames) ↔ ∀ a ∈ os, (option F a.bytes).isSome :=
    fun os => by simp only [isSome_option]
  refine ⟨⟨fun hp => ?_, ?_⟩, ⟨fun h0 => ?_, ?_⟩, fun c hc => ?_, fun prog os os' rest hos hp => ?_⟩
  · obtain ⟨options, arg, hl, rfl⟩ := parseCommandLine_eq_ok.mp hp
    obtain ⟨os, hos, rfl, hargs⟩ := (optionLoop_eq_ok optionsNamed).mp hl
    exact ⟨os, arg, (hnamed os).mpr hos, by simpa using hargs,
      takeArgument_applyOptions ((hnamed os).mpr hos) arg⟩
  · rintro ⟨os, arg, hos, hargs, rfl⟩
    exact parseCommandLine_eq_ok.mpr ⟨_, arg,
      (optionLoop_eq_ok optionsNamed).mpr ⟨os, (hnamed os).mp hos, rfl, by simpa using hargs⟩,
      (takeArgument_applyOptions hos arg).symm⟩
  · rcases parseCommandLine_error h0 with hl | h
    · obtain ⟨os, rest, hos, h⟩ := (optionLoop_eq_help optionsNamed).mp hl
      exact ⟨os, rest, (hnamed os).mpr hos, h⟩
    · cases h
  · rintro ⟨os, rest, hos, h⟩
    rw [parseCommandLine, (optionLoop_eq_help optionsNamed).mpr ⟨os, rest, (hnamed os).mp hos, h⟩]
  · rcases parseCommandLine_error hc with hl | rfl
    · exact optionLoop_error hl
    · exact .inr rfl
  · have hos' : ∀ a ∈ os, (option F a.bytes).isSome := (hnamed os).mp hos
    have hos'' : ∀ a ∈ os', (option F a.bytes).isSome := fun a ha => hos' a (hp.mem_iff.mpr ha)
    simp only [parseCommandLine, List.cons_append, List.drop_succ_cons, List.drop_zero,
      optionLoop_append optionsNamed os _ rest hos', optionLoop_append optionsNamed os' _ rest hos'',
      applyOptions_perm hos hp]

end Createkey

namespace Genrandom

inductive Command
  | none
  | number
  | bytes
  | zBase32
  deriving DecidableEq, Repr

structure State where
  command : Command
  needsNumber : Bool
  deriving DecidableEq

def option (arg : List UInt8) : Option (State → State) :=
  if arg = literal "--number" then some fun _ => ⟨.number, true⟩
  else if arg = literal "--bytes" then some fun _ => ⟨.bytes, true⟩
  else if arg = literal "--zbase32" then some fun _ => ⟨.zBase32, false⟩
  else none

def isDigit (b : UInt8) : Bool := '0'.toUInt8 ≤ b && b ≤ '9'.toUInt8

def decimalValue (digits : List UInt8) : ℕ :=
  digits.foldl (fun v b => 10 * v + (b.toNat - '0'.toNat)) 0

/-- `std::from_chars(first, last, value)` for an `unsigned int` in base 10: the value of the
longest run of digits at the start; an error when there is no digit there (a sign or a blank is
not read) or when the value does not fit. -/
def fromChars (s : List UInt8) : Option UInt32 :=
  let digits := s.takeWhile isDigit
  if digits = [] then none
  else if decimalValue digits < UInt32.size then some (decimalValue digits).toUInt32 else none

def parseNumberArgument (s : List UInt8) : Option UInt32 := fromChars s

def main (argv : List CString) : Except ℕ (Command × UInt32) :=
  match optionLoop option ⟨.none, false⟩ (argv.drop 1) with
  | .error c => .error c
  | .ok (state, args) =>
    if state.command = .none then .error 1
    else match state.needsNumber, args with
      | true, [arg] =>
        match parseNumberArgument arg.bytes with
        | some number => .ok (state.command, number)
        | none => .error 1
      | false, [] => .ok (state.command, 0)
      | _, _ => .error 1

def commandNames : List (List UInt8) := ["--number", "--bytes", "--zbase32"].map literal

def commandOf (arg : List UInt8) : Command :=
  if arg = literal "--number" then .number
  else if arg = literal "--bytes" then .bytes
  else if arg = literal "--zbase32" then .zBase32
  else .none

theorem isSome_option {a : List UInt8} : (option a).isSome ↔ a ∈ commandNames := by
  simp only [commandNames, List.map_cons, List.map_nil, List.mem_cons, List.not_mem_nil, or_false]
  constructor
  · intro h
    by_contra ha
    simp only [not_or] at ha
    simp [option, ha] at h
  · rintro (rfl | rfl | rfl) <;> rfl

theorem optionsNamed : OptionsNamed option := fun a ha => by
  rw [isSome_option] at ha
  simp only [commandNames, List.map_cons, List.map_nil, List.mem_cons, List.not_mem_nil,
    or_false] at ha
  rcases ha with rfl | rfl | rfl <;> decide

theorem applyOptions_concat {os : List CString} {last : CString}
    (h : ∀ a ∈ os ++ [last], a.bytes ∈ commandNames) (s : State) :
    applyOptions option (os ++ [last]) s =
      ⟨commandOf last.bytes, last.bytes != literal "--zbase32"⟩ ∧ commandOf last.bytes ≠ .none := by
  have hlast : last.bytes ∈ commandNames := h last (by simp)
  simp only [commandNames, List.map_cons, List.map_nil, List.mem_cons, List.not_mem_nil,
    or_false] at hlast
  rw [applyOptions, List.foldl_append, List.foldl_cons, List.foldl_nil]
  rcases hlast with hb | hb | hb <;> rw [hb] <;> exact ⟨rfl, by decide⟩

theorem main_of_optionLoop {argv args : List CString} {cmd : Command} {needs : Bool}
    (hcmd : cmd ≠ .none)
    (hl : optionLoop option ⟨.none, false⟩ (argv.drop 1) = .ok (⟨cmd, needs⟩, args))
    (c : Command) (n : UInt32) :
    main argv = .ok (c, n) ↔ c = cmd ∧
      if needs then ∃ arg, args = [arg] ∧ parseNumberArgument arg.bytes = some n
      else args = [] ∧ n = 0 := by
  rw [main, hl]
  cases needs <;> rcases args with _ | ⟨arg, _ | _⟩ <;> simp [hcmd, @eq_comm _ _ c, @eq_comm _ _ n]
  split <;> simp_all [@eq_comm _ _ c]

theorem main_error {argv : List CString} {e : ℕ} (h : main argv = .error e) :
    optionLoop option ⟨.none, false⟩ (argv.drop 1) = .error e ∨ e = 1 := by
  rcases hl : optionLoop option ⟨.none, false⟩ (argv.drop 1) with e' | ⟨state, args⟩ <;>
    rw [main, hl] at h <;> dsimp only at h
  · cases h
    exact .inl rfl
  · split_ifs at h
    · cases h; exact .inr rfl
    · split at h <;> (try split at h) <;> cases h <;> exact .inr rfl

/-- `main` goes on exactly after a run of command options, the last of which decides the
command, followed by the number argument for `--number` and `--bytes` and by nothing for
`--zbase32`; that argument can start with `--` only after `--`. `--help` after a run of command
options exits with 0, and every other command line exits with 1. -/
theorem main_accepts (argv : List CString) (c : Command) (n : UInt32) :
    (main argv = .ok (c, n) ↔
      ∃ os last rest, (∀ a ∈ os ++ [last], a.bytes ∈ commandNames) ∧ c = commandOf last.bytes ∧
        (argv.drop 1 = os ++ last :: endOfOptions :: rest ∨
          (argv.drop 1 = os ++ last :: rest ∧ ∀ p ∈ rest.head?, startsWithDashes p.bytes = false)) ∧
        (if last.bytes = literal "--zbase32" then rest = [] ∧ n = 0
          else ∃ arg, rest = [arg] ∧ parseNumberArgument arg.bytes = some n)) ∧
    (main argv = .error 0 ↔
      ∃ os rest, (∀ a ∈ os, a.bytes ∈ commandNames) ∧ argv.drop 1 = os ++ helpOption :: rest) ∧
    (∀ e, main argv = .error e → e = 0 ∨ e = 1) := by
  have hnamed : ∀ os : List CString,
      (∀ a ∈ os, a.bytes ∈ commandNames) ↔ ∀ a ∈ os, (option a.bytes).isSome :=
    fun os => by simp only [isSome_option]
  have hneeds : ∀ (last : CString) (rest : List CString),
      ((if last.bytes != literal "--zbase32" then
          ∃ arg, rest = [arg] ∧ parseNumberArgument arg.bytes = some n
        else rest = [] ∧ n = 0) ↔
      if last.bytes = literal "--zbase32" then rest = [] ∧ n = 0
        else ∃ arg, rest = [arg] ∧ parseNumberArgument arg.bytes = some n) := fun last rest => by
    by_cases hz : last.bytes = literal "--zbase32" <;> simp [hz]
  refine ⟨⟨fun hm => ?_, ?_⟩, ⟨fun h0 => ?_, ?_⟩, fun e he => ?_⟩
  · rcases hl : optionLoop option ⟨.none, false⟩ (argv.drop 1) with e | ⟨state, args⟩
    · rw [main, hl] at hm
      cases hm
    obtain ⟨os, hos, rfl, hargs⟩ := (optionLoop_eq_ok optionsNamed).mp hl
    rcases os.eq_nil_or_concat with rfl | ⟨os, last, rfl⟩
    · rw [main, hl] at hm
      simp [applyOptions] at hm
    rw [List.concat_eq_append] at hos hargs hl
    have hnames := (hnamed _).mpr hos
    obtain ⟨happ, hcmd⟩ := applyOptions_concat hnames ⟨.none, false⟩
    rw [happ] at hl
    obtain ⟨hc, hn⟩ := (main_of_optionLoop hcmd hl c n).mp hm
    exact ⟨os, last, args, hnames, hc, by simpa using hargs, (hneeds last args).mp hn⟩
  · rintro ⟨os, last, rest, hnames, hc, hargs, hrest⟩
    obtain ⟨happ, hcmd⟩ := applyOptions_concat hnames ⟨.none, false⟩
    have hl : optionLoop option ⟨.none, false⟩ (argv.drop 1) =
        .ok (⟨commandOf last.bytes, last.bytes != literal "--zbase32"⟩, rest) := by
      rw [← happ]
      exact (optionLoop_eq_ok optionsNamed).mpr ⟨_, (hnamed _).mp hnames, rfl, by simpa using hargs⟩
    exact (main_of_optionLoop hcmd hl c n).mpr ⟨hc, (hneeds last rest).mpr hrest⟩
  · rcases main_error h0 with hl | h
    · obtain ⟨os, rest, hos, h⟩ := (optionLoop_eq_help optionsNamed).mp hl
      exact ⟨os, rest, (hnamed os).mpr hos, h⟩
    · cases h
  · rintro ⟨os, rest, hos, h⟩
    rw [main, (optionLoop_eq_help optionsNamed).mpr ⟨os, rest, (hnamed os).mp hos, h⟩]
  · rcases main_error he with hl | rfl
    · exact optionLoop_error hl
    · exact .inr rfl

theorem decimalValue_concat (l : List UInt8) (b : UInt8) :
    decimalValue (l ++ [b]) = 10 * decimalValue l + (b.toNat - '0'.toNat) := by
  rw [decimalValue, List.foldl_append, List.foldl_cons, List.foldl_nil]
  rfl

theorem digitChar_decimal : ∀ k < 10,
    isDigit (Nat.digitChar k).toUInt8 = true ∧ (Nat.digitChar k).toUInt8.toNat - '0'.toNat = k := by
  decide

theorem toDigitsCore_decimal : ∀ (fuel n : ℕ) (ds : List Char), n < fuel →
    ∃ l, Nat.toDigitsCore 10 fuel n ds = l ++ ds ∧ l ≠ [] ∧
      (∀ c ∈ l, isDigit c.toUInt8 = true) ∧ decimalValue (l.map Char.toUInt8) = n
  | 0, n, _, h => absurd h (Nat.not_lt_zero n)
  | fuel + 1, n, ds, h => by
    obtain ⟨hd, hv⟩ := digitChar_decimal (n % 10) (Nat.mod_lt n (by decide))
    rw [Nat.toDigitsCore]
    split_ifs with h0
    · refine ⟨[Nat.digitChar (n % 10)], rfl, List.cons_ne_nil _ _, by simpa using hd, ?_⟩
      rw [List.map_singleton, ← List.nil_append [_], decimalValue_concat, hv]
      simp [decimalValue]
      omega
    · obtain ⟨l, hl, -, hdig, hval⟩ :=
        toDigitsCore_decimal fuel (n / 10) (Nat.digitChar (n % 10) :: ds) (by omega)
      refine ⟨l ++ [Nat.digitChar (n % 10)], by simp [hl], by simp, ?_, ?_⟩
      · simp only [List.mem_append, List.mem_singleton]
        rintro c (hc | rfl)
        exacts [hdig c hc, hd]
      · rw [List.map_append, List.map_singleton, decimalValue_concat, hval, hv]
        omega

theorem takeWhile_isDigit_eq_nil {s : List UInt8} (h : ∀ b ∈ s.head?, isDigit b = false) :
    s.takeWhile isDigit = [] := by
  cases s with
  | nil => rfl
  | cons b s => simp [List.takeWhile_cons, h b rfl]

/-- `parseNumberArgument` reads the decimal text of any `n` followed by bytes that do not start
with a digit: it gives `n` when `n` fits in `unsigned int`, and an error otherwise. Bytes that
do not start with a digit (a sign, a blank, nothing) are an error. -/
theorem parse_number_argument_decimal (n : ℕ) (rest : List UInt8)
    (hrest : ∀ b ∈ rest.head?, isDigit b = false) :
    parseNumberArgument (literal (Nat.repr n) ++ rest) =
      (if n < UInt32.size then some n.toUInt32 else none) ∧
    parseNumberArgument rest = none := by
  have hstop := takeWhile_isDigit_eq_nil hrest
  obtain ⟨l, hl, hne, hdig, hval⟩ := toDigitsCore_decimal (n + 1) n [] (Nat.lt_succ_self n)
  have hdigits : (literal (Nat.repr n) ++ rest).takeWhile isDigit = l.map Char.toUInt8 := by
    show ((Nat.toDigitsCore 10 (n + 1) n []).map Char.toUInt8 ++ rest).takeWhile isDigit = _
    rw [hl, List.append_nil, List.takeWhile_append_of_pos (by simpa using hdig), hstop,
      List.append_nil]
  constructor
  · simp only [parseNumberArgument, fromChars, hdigits, List.map_eq_nil_iff, hne, hval, if_false]
  · simp only [parseNumberArgument, fromChars, hstop, if_true]

theorem parse_number_argument_decimal_trailing :
    (∀ b ∈ (literal "x").head?, isDigit b = false) ∧
      parseNumberArgument (literal (Nat.repr 42) ++ literal "x") = some 42 :=
  ⟨by decide, (parse_number_argument_decimal 42 (literal "x") (by decide)).1⟩

end Genrandom

end CommandLine

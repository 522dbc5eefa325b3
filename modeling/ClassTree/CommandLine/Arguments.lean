/-
# ClassTree.CommandLine.Arguments — the words of a command line

A command line names an action and then, in any order, options and files. The files stand together:
an option may come before or after them, but not between them. Long options may be shortened as long
as one option alone begins that way, short options may be run together, and after `--` every word is
a file. Words are sorted first, one by one; then they are taken from left to right, so that what
stands further left decides.
-/
import ClassTree.Text.Digits

namespace ClassTree.CommandLine

/-! ## What is asked for -/

/-- What to do with the files. -/
inductive Action where
  /-- Class files become tree documents. -/
  | disassemble
  /-- Tree documents become class files. -/
  | assemble
  /-- Class files are taken through the tree and back, and compared. -/
  | check
  deriving DecidableEq, Repr

/-- The word for an action. -/
def Action.name : Action → Text
  | .disassemble => "disassemble"
  | .assemble => "assemble"
  | .check => "check"

/-- The action of a word. -/
def Action.ofName? (t : Text) : Option Action :=
  [.disassemble, .assemble, .check].find? fun a => a.name = t

/-- A complete request. -/
structure Arguments where
  action : Action
  files : List Text := []
  /-- The number of workers, if it is given. -/
  jobs : Option Int := none
  /-- The directory for what is written, if it is given. -/
  output : Option Text := none
  /-- Notes are shown too. -/
  verbose : Bool := false
  /-- The summary is left out. -/
  quiet : Bool := false
  /-- Frames and sizes are computed anew. -/
  verify : Bool := false
  deriving DecidableEq, Repr

/-- Why there is no request. -/
inductive Refusal where
  /-- An action is missing. -/
  | noAction
  /-- Help is asked for. -/
  | help
  /-- The words are no request. -/
  | usage
  deriving DecidableEq, Repr

/-- The exit status of a refusal. -/
def Refusal.exit : Refusal → Nat
  | .help => 0
  | .noAction => 1
  | .usage => 2

/-- How requests look. -/
def usageLines : List Text :=
  ["usage: classtree disassemble [-h] [-j JOBS] [-v] [-q] [-o OUTPUT] FILE ...",
    "       classtree assemble [-h] [-j JOBS] [-v] [-q] [-o OUTPUT] [--verify] FILE ...",
    "       classtree check [-h] [-j JOBS] [-v] [-q] FILE ..."]

/-! ## Options -/

/-- An option. -/
inductive Flag where
  | help
  | jobs
  | verbose
  | quiet
  | output
  | verify
  deriving DecidableEq, Repr

namespace Flag

/-- The long spelling. -/
def long : Flag → Text
  | .help => "--help"
  | .jobs => "--jobs"
  | .verbose => "--verbose"
  | .quiet => "--quiet"
  | .output => "--output"
  | .verify => "--verify"

/-- The letter of the short spelling. -/
def letter? : Flag → Option CodePoint
  | .help => some 0x68
  | .jobs => some 0x6A
  | .verbose => some 0x76
  | .quiet => some 0x71
  | .output => some 0x6F
  | .verify => none

/-- The option is followed by a value. -/
def hasValue : Flag → Bool
  | .jobs | .output => true
  | _ => false

/-- The options of an action. -/
def allowed : Action → List Flag
  | .disassemble => [.help, .jobs, .verbose, .quiet, .output]
  | .assemble => [.help, .jobs, .verbose, .quiet, .output, .verify]
  | .check => [.help, .jobs, .verbose, .quiet]

/-- The option of a letter. -/
def ofLetter? (flags : List Flag) (letter : CodePoint) : Option Flag :=
  flags.find? fun f => f.letter? = some letter

/-- The options that begin with some text in their long spelling; a complete spelling stands for
itself alone. -/
def ofLong (flags : List Flag) (start : Text) : List Flag :=
  match flags.find? fun f => f.long = start with
  | some f => [f]
  | none => flags.filter fun f => start.isPrefixOf f.long

end Flag

/-! ## Sorting words -/

/-- The mark in front of options. -/
def dash : CodePoint := 0x2D

/-- The mark in front of the value of an option. -/
def equals : CodePoint := 0x3D

/-- A word of a command line, sorted. -/
inductive Word where
  /-- A file or the value of an option. -/
  | plain (word : Text)
  /-- The word `--` that ends the options. -/
  | divider
  /-- A long option with the value behind its `=`. -/
  | long (flag : Flag) (value : Option Text)
  /-- A short option with what is run together with it. -/
  | short (flag : Flag) (rest : Text)
  /-- An option that is not known. -/
  | unknown
  deriving DecidableEq, Repr

/-- A word such as `-1` or `-.5`: it is a number, not an option. -/
def isNegativeNumber (t : Text) : Bool :=
  match t with
  | [] => false
  | sign :: digits =>
    let isDigit (c : CodePoint) : Bool := (Text.digitValue? c).isSome
    let digits := if digits.getLast? = some 0x0A then digits.dropLast else digits
    let fraction := digits.dropWhile isDigit
    sign = dash && match fraction with
      | [] => !digits.isEmpty
      | point :: fraction => point = 0x2E && !fraction.isEmpty && fraction.all isDigit

/-- A word that looks like an option but is none of these is plain after all if it is a negative
number or holds a space. -/
def sortUnknown (t : Text) : Word :=
  if isNegativeNumber t || t.contains 0x20 then .plain t else .unknown

/-- A text cut at its first `=`. -/
def cutAtEquals (t : Text) : Text × Option Text :=
  match t.dropWhile (· ≠ equals) with
  | [] => (t, none)
  | _ :: value => (t.takeWhile (· ≠ equals), some value)

/-- Sorts one word that stands in front of any `--`. A long option must not be ambiguous. -/
def Word.ofText (flags : List Flag) (t : Text) : Except Refusal Word :=
  match t with
  | [] => .ok (.plain t)
  | [_] => .ok (.plain t)
  | first :: second :: rest =>
    if first ≠ dash then .ok (.plain t)
    else if second = dash then
      let (start, value) := cutAtEquals t
      match Flag.ofLong flags start with
      | [f] => .ok (.long f value)
      | [] => .ok (sortUnknown t)
      | _ => .error .usage
    else match Flag.ofLetter? flags second with
      | some f => .ok (.short f rest)
      | none => .ok (sortUnknown t)

/-- Sorts all words. Behind a `--` every word is plain. -/
def sortWords (flags : List Flag) : List Text → Except Refusal (List Word)
  | [] => .ok []
  | t :: rest =>
    if t = ("--" : Text) then .ok (.divider :: rest.map .plain)
    else do
      let w ← Word.ofText flags t
      return w :: (← sortWords flags rest)

/-! ## Taking words in order -/

/-- What has been taken so far. -/
structure Progress where
  arguments : Arguments
  /-- Something was found that no request holds; options to its right are looked at all the same. -/
  spoilt : Bool := false

/-- Takes an option without a value. -/
def Progress.switch (p : Progress) : Flag → Progress
  | .verbose => { p with arguments := { p.arguments with verbose := true } }
  | .quiet => { p with arguments := { p.arguments with quiet := true } }
  | .verify => { p with arguments := { p.arguments with verify := true } }
  | _ => p

/-- Takes an option with a value. -/
def Progress.value (p : Progress) (f : Flag) (value : Text) : Except Refusal Progress :=
  match f with
  | .jobs => match Text.toInt? value with
    | some n => .ok { p with arguments := { p.arguments with jobs := some n } }
    | none => .error .usage
  | .output => .ok { p with arguments := { p.arguments with output := some value } }
  | _ => .error .usage

/-- Options that were written together. -/
structure Run where
  flags : List Flag
  /-- The value that was written together with the last option. -/
  value : Option Text := none
  /-- Something that is no option was written together with them. -/
  spoilt : Bool := false

/-- The run of an option and the letters behind it. What stands behind an option with a value is its
value, with or without a `=` between them; behind any other option stands another one. -/
def Run.ofLetters (flags : List Flag) (f : Flag) : Text → Except Refusal Run
  | [] => .ok { flags := [f] }
  | letter :: rest =>
    if f.hasValue then
      .ok { flags := [f], value := some (if letter = equals then rest else letter :: rest) }
    else if letter = equals || letter = dash then .error .usage
    else match Flag.ofLetter? flags letter with
      | some next => do
        let run ← ofLetters flags next rest
        return { run with flags := f :: run.flags }
      | none => .ok { flags := [f], spoilt := true }

/-- The run of a word: a long option stands alone. A long option without a value is not given one.
-/
def Run.ofWord (flags : List Flag) : Word → Except Refusal Run
  | .long f value =>
    if value.isSome && !f.hasValue then .error .usage else .ok { flags := [f], value }
  | .short f letters => ofLetters flags f letters
  | _ => .ok { flags := [], spoilt := true }

/-- The last option of a run needs a value, and brings none along. -/
def Run.needsValue (run : Run) : Bool :=
  !run.spoilt && run.value.isNone && run.flags.getLast?.any Flag.hasValue

/-- Takes the options of a run in order; `value` is the one for the last of them. -/
def Progress.takeFlags (p : Progress) (value : Text) : List Flag → Except Refusal Progress
  | [] => .ok p
  | f :: rest =>
    if f = .help then .error .help
    else if f.hasValue then do (← p.value f value).takeFlags value rest
    else (p.switch f).takeFlags value rest

/-- Takes the option at the front of the words, and the word behind it if that is its value. A value
that is missing is noticed before any option of the run has its effect. -/
def Progress.option (p : Progress) (flags : List Flag) (w : Word) (rest : List Word) :
    Except Refusal (Progress × List Word) := do
  let run ← Run.ofWord flags w
  let p := { p with spoilt := p.spoilt || run.spoilt }
  if run.needsValue then
    match rest with
    | .plain value :: rest => return (← p.takeFlags value run.flags, rest)
    | _ => throw .usage
  else return (← p.takeFlags (run.value.getD []) run.flags, rest)

/-- The words of a stretch of files; a `--` among them is left out. -/
def plainWords (words : List Word) : List Text :=
  words.filterMap fun
    | .plain t => some t
    | _ => none

/-- A file, a value or the end of the options. -/
def Word.isPlain : Word → Bool
  | .plain _ | .divider => true
  | _ => false

/-- Takes a stretch of files. There is one such stretch, and it holds at least one file. -/
def Progress.stretch (p : Progress) (words : List Word) : Progress :=
  let files := plainWords words
  if p.arguments.files.isEmpty && !files.isEmpty then
    { p with arguments := { p.arguments with files } }
  else { p with spoilt := true }

/-- Takes all words. Every step takes at least one, so as many steps as there are words suffice. -/
def Progress.take (flags : List Flag) : Nat → Progress → List Word → Except Refusal Progress
  | 0, p, _ => .ok p
  | _ + 1, p, [] => .ok p
  | fuel + 1, p, w :: rest =>
    if w.isPlain then
      let words := w :: rest
      (p.stretch (words.takeWhile Word.isPlain)).take flags fuel (words.dropWhile Word.isPlain)
    else do
      let (p, rest) ← p.option flags w rest
      p.take flags fuel rest

/-! ## Requests -/

/-- The request that follows the word of an action. -/
def Arguments.ofWords (action : Action) (spoilt : Bool) (words : List Text) :
    Except Refusal Arguments := do
  let flags := Flag.allowed action
  let sorted ← sortWords flags words
  let p ← Progress.take flags sorted.length { arguments := { action }, spoilt } sorted
  if p.spoilt || p.arguments.files.isEmpty then throw .usage
  return p.arguments

/-- Looks for the action. Help may be asked for in front of it; any other option there spoils the
request, which shows only after the words behind it were taken. -/
def Arguments.find (spoilt : Bool) : List Text → Except Refusal Arguments
  | [] => .error (if spoilt then .usage else .noAction)
  | t :: rest => do
    if t = ("--" : Text) then throw .usage
    match ← Word.ofText [.help] t with
    | .plain t => match Action.ofName? t with
      | some action => ofWords action spoilt rest
      | none => throw .usage
    | w =>
      let run ← Run.ofWord [.help] w
      if run.flags.isEmpty then find true rest else throw .help

/-- The request of a command line. -/
def Arguments.parse (words : List Text) : Except Refusal Arguments := Arguments.find false words

end ClassTree.CommandLine

/-
# ClassTree.CommandLine.Run — carrying a request out

A request is carried out file by file. Every file succeeds or fails on its own, and what one file
leaves behind is there for the next one. Afterwards the failures are listed in the order of the
files, and the summary counts them. Files and notes are values that are threaded through, so that a
run is a function from the files there were to the files there are.
-/
import ClassTree.Batch
import ClassTree.CommandLine.Arguments
import ClassTree.CommandLine.Failure

namespace ClassTree.CommandLine

/-! ## Jobs -/

/-- What a run has done so far: the files there are, and the notes in their order. -/
structure Session where
  files : Files
  notes : List Text := []

/-- Work on one file. A failure keeps what was done before it. -/
abbrev Job := ExceptT Failure (StateM Session)

namespace Job

variable {α : Type}

/-- A failure is one of the job. -/
def ofExcept (r : Except Failure α) : Job α := ExceptT.mk (pure r)

/-- A failure of the library is one of the job. -/
def ofResult (r : Result α) : Job α :=
  ofExcept (r.mapError .refused)

/-- Reads a file. -/
def read (p : Path) : Job Bytes := do
  match (← getThe Session).files.read p with
  | .ok data => return data
  | .error fault => throw (.file fault)

/-- Lets something happen to the files. -/
def change (f : Files → Except Files.Fault Files) : Job Unit := do
  match f (← getThe Session).files with
  | .ok files => modifyThe Session fun s => { s with files }
  | .error fault => throw (.file fault)

/-- Writes a file, in a directory that is made where it is missing. -/
def write (p : Path) (data : Bytes) : Job Unit := do
  change fun fs => fs.makeDirectory p.parent
  change fun fs => fs.write p data

/-- Leaves a note. -/
def note (line : Text) : Job Unit := modifyThe Session fun s => { s with notes := s.notes ++ [line] }

/-- The outcome of a job for each of some files, one after another. -/
def each (job : Text → Job α) : List Text → Session → List (Text × Except Failure α) × Session
  | [], s => ([], s)
  | file :: rest, s =>
    let (outcome, s) := (job file).run.run s
    let (outcomes, s) := each job rest s
    ((file, outcome) :: outcomes, s)

end Job

/-! ## Actions -/

/-- The ending of tree documents. -/
def documentEnding : Text := ".jeo"

/-- The ending of class files. -/
def classEnding : Text := ".class"

/-- Writes a file that is named after a class. -/
def deliver (directory : Path) (name ending : Text) (data : Bytes) : Job Unit := do
  let target := directory.child (name ++ ending)
  Job.write target data
  Job.note ("Wrote " ++ target.toText)

/-- Writes the tree of a class file as a document. -/
def disassemble (directory : Path) (file : Text) : Job Unit := do
  let c ← Job.ofResult (Class.ofBytes (← Job.read (Path.ofText file)))
  let text ← Job.ofResult c.toText
  let data ← Job.ofExcept (storedDocument text)
  deliver directory c.name documentEnding data

/-- Writes the class of a tree document as a class file. -/
def assemble (directory : Path) (verify : Bool) (file : Text) : Job Unit := do
  let data ← Job.read (Path.ofText file)
  let text ← Job.ofExcept (documentOf data)
  let c ← Job.ofResult (Class.ofText text)
  let bytes ← Job.ofResult (c.toBytes verify)
  deliver directory c.name classEnding bytes

/-- Finds out whether a class file is the same after a way through the class, and its tree after a
way through the text. -/
def check (file : Text) : Job Bool := do
  let data ← Job.read (Path.ofText file)
  let c ← Job.ofResult (Class.ofBytes data)
  if (← Job.ofResult (c.toBytes false)) ≠ data then
    Job.note (file ++ ": model round trip differs")
    return false
  let tree ← Job.ofResult c.toTree
  let back ← Job.ofResult (Class.ofText tree.render)
  if (← Job.ofResult back.toTree).same tree then return true
  else
    Job.note (file ++ ": tree round trip differs")
    return false

/-! ## Reports -/

/-- What a run leaves behind. -/
structure Report where
  exit : Nat
  stdout : Text
  stderr : Text
  files : Files

/-- Lines, each with its end. -/
def lines (ls : List Text) : Text := (ls.map (· ++ [0x0A])).flatten

/-- The lines about files that failed. -/
def failureLines {α : Type} (doing : Text) (outcomes : List (Text × Except Failure α)) :
    List Text :=
  outcomes.filterMap fun
    | (file, .error f) => some (Text.concat ["Error ", doing, " ", file, ": ", f.message])
    | (_, .ok _) => none

/-- The notes, where they are asked for. -/
def Arguments.shownNotes (a : Arguments) (s : Session) : List Text :=
  if a.verbose then s.notes else []

/-- The summary, where it is not declined. -/
def Arguments.summary (a : Arguments) (words : List Text) : List Text :=
  if a.quiet then [] else [Text.concat words]

/-- A run fails if a file does. -/
def exitOf (failures : Nat) : Nat := if failures = 0 then 0 else 1

/-- The report about files that were converted. -/
def Arguments.converted (a : Arguments) (done doing : Text)
    (outcomes : List (Text × Except Failure Unit)) (s : Session) : Report :=
  let failed := failureLines doing outcomes
  { exit := exitOf failed.length
    stdout := lines (a.summary [done, " ", Text.ofNat (outcomes.length - failed.length), " of ",
      Text.ofNat outcomes.length, " file(s)"])
    stderr := lines (a.shownNotes s ++ failed)
    files := s.files }

/-- The report about files that were checked. -/
def Arguments.checked (a : Arguments) (outcomes : List (Text × Except Failure Bool))
    (s : Session) : Report :=
  let failed := failureLines "checking" outcomes
  let having (found : Bool) (words : Text) : List Text := outcomes.filterMap fun
    | (file, .ok same) => if same = found then some (file ++ words) else none
    | (_, .error _) => none
  let different := having false ": round trip differs"
  let failures := failed.length + different.length
  { exit := exitOf failures
    stdout := lines ((if a.verbose then having true ": ok" else [])
      ++ a.summary ["Checked ", Text.ofNat outcomes.length, " file(s), ", Text.ofNat failures,
        " failed"])
    stderr := lines (a.shownNotes s ++ failed ++ different)
    files := s.files }

/-! ## Runs -/

/-- The directory to write to: the working directory unless another one is named. -/
def Arguments.directory (a : Arguments) : Path := Path.ofText (a.output.getD [])

/-- The session at the start of a conversion: the directory to write to exists. -/
def Arguments.prepare (a : Arguments) (fs : Files) : Except Failure Session :=
  match fs.makeDirectory a.directory with
  | .ok files => .ok { files }
  | .error fault => .error (.file fault)

/-- There are workers for the files. -/
def Arguments.checkJobs (a : Arguments) : Except Failure Unit :=
  (Batch.checkWorkers a.jobs).mapError .refused

/-- Carries a request out. -/
def Arguments.run (a : Arguments) (fs : Files) : Except Failure Report :=
  match a.action with
  | .disassemble => do
    let start ← a.prepare fs
    a.checkJobs
    let (outcomes, s) := Job.each (disassemble a.directory) a.files start
    return a.converted "Disassembled" "disassembling" outcomes s
  | .assemble => do
    let start ← a.prepare fs
    a.checkJobs
    let (outcomes, s) := Job.each (assemble a.directory a.verify) a.files start
    return a.converted "Assembled" "assembling" outcomes s
  | .check => do
    a.checkJobs
    let (outcomes, s) := Job.each check a.files { files := fs }
    return a.checked outcomes s

end ClassTree.CommandLine

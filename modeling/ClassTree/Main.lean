/-
# ClassTree.Main — the program

The outermost layer: it loads the files that a request names, carries the request out, and stores
and prints what the run leaves behind. All decisions are made in `ClassTree.CommandLine`.
-/
import ClassTree.CommandLine.Run

namespace ClassTree.CommandLine

/-- The characters of a text. -/
def shown (t : Text) : String := String.ofList (t.filterMap CodePoint.toChar?)

/-- The spelling of a location; a root stands directly before the first part. -/
def spelling (l : Location) : String :=
  match l with
  | root :: parts =>
    if root.all (· = slash) then shown (root ++ Text.join [slash] parts)
    else shown (Text.join [slash] l)
  | [] => "."

/-- Puts the file, or the directory, that a word names beside the ones that were loaded. What cannot
be loaded is left out. -/
def load (fs : Files) (word : Text) : IO Files := do
  let p := Path.ofText word
  let name := shown p.toText
  try
    let data ← IO.FS.readBinFile name
    return fs.put p.location data.toList
  catch _ =>
    try
      let _ ← IO.FS.realPath name
      return { fs with directories := fs.directories ++ Files.ways p.location }
    catch _ => return fs

/-- Stores a file, in a directory that is made where it is missing. -/
def store (l : Location) (data : Bytes) : IO Unit := do
  IO.FS.createDirAll (spelling l.dropLast)
  IO.FS.writeBinFile (spelling l) ⟨data.toArray⟩

/-- Carries out the request of a command line. -/
def execute (words : List Text) : IO UInt32 := do
  match Arguments.parse words with
  | .error refusal =>
    IO.eprint (shown (lines usageLines))
    return UInt32.ofNat refusal.exit
  | .ok a =>
    let before ← a.files.foldlM load {}
    match a.run before with
    | .error failure =>
      IO.eprintln (shown failure.message)
      return 1
    | .ok report =>
      for (l, data) in before.changed report.files do store l data
      IO.print (shown report.stdout)
      IO.eprint (shown report.stderr)
      return UInt32.ofNat report.exit

end ClassTree.CommandLine

/-- The program. -/
def main (words : List String) : IO UInt32 :=
  ClassTree.CommandLine.execute (words.map ClassTree.Text.ofString)

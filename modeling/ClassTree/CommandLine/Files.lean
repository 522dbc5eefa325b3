/-
# ClassTree.CommandLine.Files — paths, files and directories as values

A path is a start and the parts that lead from there to a file. Empty parts and `.` lead nowhere and
are left out, so that a path has one spelling. A part `..` leads back; it is kept in the spelling
and only resolved in the location that a path leads to.

The files that a run can see are a value that reading looks into and writing changes. A directory
exists if it was made or if a file lies in it. Writing makes the directories that lead to a file.
-/
import ClassTree.Bytes
import ClassTree.Text.Utf8

namespace ClassTree.CommandLine

/-! ## Paths -/

/-- The mark between the parts of a path. -/
def slash : CodePoint := 0x2F

/-- A path. The root is empty for a path that starts in the working directory. -/
structure Path where
  root : Text := []
  parts : List Text := []
  deriving DecidableEq, Repr

/-- The place that a path leads to: the parts on the way there, a root counting as one. -/
abbrev Location := List Text

namespace Path

/-- The root of a text: two slashes are a root of their own, any other number counts as one. -/
def rootOf : Text → Text
  | a :: b :: c :: _ =>
    if a ≠ slash then [] else if b = slash ∧ c ≠ slash then [slash, slash] else [slash]
  | [a, b] => if a ≠ slash then [] else if b = slash then [slash, slash] else [slash]
  | [a] => if a = slash then [slash] else []
  | [] => []

/-- The part leads somewhere. -/
def isPart (t : Text) : Bool := !t.isEmpty && t ≠ ("." : Text)

/-- The path of a text. -/
def ofText (t : Text) : Path := ⟨rootOf t, (Text.splitOn slash t).filter isPart⟩

/-- The spelling of a path. -/
def toText (p : Path) : Text :=
  if p.root.isEmpty && p.parts.isEmpty then "." else p.root ++ Text.join [slash] p.parts

/-- The path that leads on from a directory; one with a root starts anew. -/
def child (directory : Path) (t : Text) : Path :=
  let p := ofText t
  if p.root.isEmpty then { directory with parts := directory.parts ++ p.parts } else p

/-- The directory that a path leads through last. -/
def parent (p : Path) : Path := { p with parts := p.parts.dropLast }

/-- The location of a path: `..` takes the part before it back, unless there is none. -/
def location (p : Path) : Location :=
  let back (found : List Text) (part : Text) : List Text :=
    if part ≠ ("..": Text) then part :: found
    else match found with
      | [] => [part]
      | last :: before => if last = part then part :: found else before
  let way := (p.parts.foldl back []).reverse
  if p.root.isEmpty then way else p.root :: way

/-- Every part of a path that is read leads somewhere. -/
theorem isPart_of_mem_parts {t : Text} {part : Text} (h : part ∈ (ofText t).parts) :
    isPart part = true := (List.mem_filter.1 h).2

end Path

/-! ## Files -/

/-- Files by their location, and directories that were made. -/
structure Files where
  contents : List (Location × Bytes) := []
  directories : List Location := []

namespace Files

/-! ## Faults -/

/-- Why a path cannot be used. -/
inductive Cause where
  | missing
  | exists_
  | notDirectory
  | isDirectory
  /-- A path with a zero character is no path. -/
  | zero
  /-- A path with surrogates that stand for no byte is no path. -/
  | surrogates (found : Surrogates)
  deriving DecidableEq, Repr

/-- The path that cannot be used, and why. -/
structure Fault where
  cause : Cause
  path : Path
  deriving DecidableEq, Repr

/-! ## What there is -/

/-- The content of the file at a location. -/
def content? (fs : Files) (l : Location) : Option Bytes := (fs.contents.find? (·.1 = l)).map (·.2)

/-- A file is at a location. -/
def isFile (fs : Files) (l : Location) : Bool := (fs.content? l).isSome

/-- The locations on the way to a location, itself included. -/
def ways (l : Location) : List Location := (List.range l.length).map fun n => l.take (n + 1)

/-- The way to a location from outside: a root, or steps back. -/
def isOutside (part : Text) : Bool := part = ("..": Text) || part.all (· = slash)

/-- A directory is at a location: the working directory, one around it, one that was made or one
that a file lies in. -/
def isDirectory (fs : Files) (l : Location) : Bool :=
  l.all isOutside || fs.directories.contains l
    || fs.contents.any fun (k, _) => l.isPrefixOf k && l.length < k.length

/-- On the way to a location stands a file where a directory is needed. -/
def isBlocked (fs : Files) (l : Location) : Bool := (ways l.dropLast).any fs.isFile

/-- The surrogates `0xDC80 … 0xDCFF` stand for bytes of a path that are no text. -/
def isByte (c : CodePoint) : Bool := 0xDC80 ≤ c.val && c.val ≤ 0xDCFF

/-- A path that can be one: without surrogates, unless they stand for bytes, and without a zero
character. -/
def check (p : Path) : Except Fault Unit :=
  match Surrogates.find? (fun c => !isByte c) p.toText with
  | some found => .error ⟨.surrogates found, p⟩
  | none => if p.parts.any fun part => part.contains 0 then .error ⟨.zero, p⟩ else .ok ()

/-! ## Reading and writing -/

/-- The content of the file that a path leads to. -/
def read (fs : Files) (p : Path) : Except Fault Bytes := do
  check p
  match fs.content? p.location with
  | some data => return data
  | none =>
    if fs.isDirectory p.location then throw ⟨.isDirectory, p⟩
    else if fs.isBlocked p.location then throw ⟨.notDirectory, p⟩
    else throw ⟨.missing, p⟩

/-- Makes the directory that a path leads to, and those on the way, where they do not exist. -/
def makeDirectory (fs : Files) (p : Path) : Except Fault Files := do
  check p
  let l := p.location
  if fs.isDirectory l then return fs
  else if fs.isFile l then throw ⟨.exists_, p⟩
  else if fs.isBlocked l then throw ⟨.notDirectory, p⟩
  else return { fs with directories := fs.directories ++ ways l }

/-- Puts a content at a location, in place of what was there. -/
def put (fs : Files) (l : Location) (data : Bytes) : Files :=
  { fs with contents := fs.contents.filter (·.1 ≠ l) ++ [(l, data)] }

/-- Puts a content where a path leads to; its directory has to exist. -/
def write (fs : Files) (p : Path) (data : Bytes) : Except Fault Files := do
  check p
  if fs.isDirectory p.location then throw ⟨.isDirectory, p⟩
  else return fs.put p.location data

/-- Puts files into nothing. -/
def ofList (files : List (Path × Bytes)) : Files :=
  files.foldl (fun fs (p, data) => fs.put p.location data) {}

/-! ## Comparing -/

/-- The files that were not there before, or had another content. -/
def changed (before after : Files) : List (Location × Bytes) :=
  after.contents.filter fun (l, data) => before.content? l ≠ some data

/-- The files below the working directory that were not there before. -/
def created (before after : Files) : List (Location × Bytes) :=
  after.contents.filter fun (l, _) => !before.isFile l && !(l.take 1).any isOutside

/-! ## Small laws -/

theorem content?_put_self (fs : Files) (l : Location) (data : Bytes) :
    (fs.put l data).content? l = some data := by
  have nothing : ∀ xs : List (Location × Bytes), xs.find? (fun _ => false) = none := by
    intro xs
    induction xs <;> simp_all
  simp [content?, put, List.find?_append, List.find?_filter, nothing]

/-- Putting a content leaves all other locations as they are. -/
theorem content?_put_of_ne (fs : Files) {l k : Location} (data : Bytes) (h : k ≠ l) :
    (fs.put l data).content? k = fs.content? k := by
  have keep : ∀ x : Location × Bytes, (x.1 ≠ l ∧ x.1 = k) ↔ x.1 = k := by
    intro x
    constructor
    · exact And.right
    · intro hx
      exact ⟨fun hl => h (hx.symm.trans hl), hx⟩
  simp [content?, put, List.find?_append, List.find?_filter, h.symm, keep]

end Files

end ClassTree.CommandLine

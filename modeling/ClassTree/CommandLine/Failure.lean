/-
# ClassTree.CommandLine.Failure — why a file was not dealt with

A file is dealt with if it can be read, if the class in it has the other form, and if that can be
written. The words for each way to fail are here, those for a class being the library's own.
-/
import ClassTree.CommandLine.Files
import ClassTree.Error
import ClassTree.Text.Utf8

namespace ClassTree

/-! ## Text that is stored -/

namespace Text

/-- Line ends of all three kinds become line feeds; `acc` holds the reversed text so far. -/
def lineFeedsOnto : Text → Text → Text
  | [], acc => acc.reverse
  | [c], acc => ((if c.val = 0x0D then 0x0A else c) :: acc).reverse
  | c :: d :: rest, acc =>
    if c.val = 0x0D then
      if d.val = 0x0A then lineFeedsOnto rest (0x0A :: acc)
      else lineFeedsOnto (d :: rest) (0x0A :: acc)
    else lineFeedsOnto (d :: rest) (c :: acc)

/-- The text with every line end — a carriage return, a line feed, or one after the other — as a
line feed. -/
def lineFeeds (t : Text) : Text := lineFeedsOnto t []

end Text

namespace CommandLine

/-! ## Failures -/

/-- Why a file was not dealt with. -/
inductive Failure where
  /-- The library refuses what is in the file. -/
  | refused (cause : Error)
  /-- A path cannot be used. -/
  | file (fault : Files.Fault)
  /-- A document is not UTF-8; `first` is the first byte to blame. -/
  | decoding (first : UInt8) (fault : Utf8.Fault)
  /-- A document holds surrogates, which have no place in UTF-8. -/
  | encoding (fault : Surrogates)
  deriving DecidableEq, Repr

/-! ## Words -/

/-- A stretch of places from the first to the last. -/
def stretchWords (position length : Nat) : Text :=
  Text.concat [Text.ofNat position, "-", Text.ofNat (position + length - 1)]

/-- The words for a text with surrogates. -/
def encodingMessage (s : Surrogates) : Text :=
  let place : Text := if s.length = 1
    then Text.concat ["character '\\u", Hex.lower 4 s.first.val, "' in position ",
      Text.ofNat s.position]
    else Text.concat ["characters in position ", stretchWords s.position s.length]
  Text.concat ["'utf-8' codec can't encode ", place, ": surrogates not allowed"]

/-- The words for a path that cannot be used. -/
def Files.Fault.message (f : Files.Fault) : Text :=
  let numbered (number : Nat) (words : Text) : Text := Text.concat
    ["[Errno ", Text.ofNat number, "] ", words, ": ", Text.quoted f.path.toText]
  match f.cause with
  | .missing => numbered 2 "No such file or directory"
  | .exists_ => numbered 17 "File exists"
  | .notDirectory => numbered 20 "Not a directory"
  | .isDirectory => numbered 21 "Is a directory"
  | .zero => "embedded null byte"
  | .surrogates s => encodingMessage s

/-- The words for the reason why bytes are not UTF-8. -/
def reasonWords : Utf8.Reason → Text
  | .start => "invalid start byte"
  | .continuation => "invalid continuation byte"
  | .truncated => "unexpected end of data"

/-- The words for bytes that are not UTF-8. -/
def decodingMessage (first : UInt8) (f : Utf8.Fault) : Text :=
  let place : Text := if f.length = 1
    then Text.concat ["byte ", showByte first, " in position ", Text.ofNat f.position]
    else Text.concat ["bytes in position ", stretchWords f.position f.length]
  Text.concat ["'utf-8' codec can't decode ", place, ": ", reasonWords f.reason]

/-- The words for a failure. -/
def Failure.message : Failure → Text
  | .refused cause => cause.message
  | .file fault => fault.message
  | .decoding first fault => decodingMessage first fault
  | .encoding fault => encodingMessage fault

/-! ## Documents -/

/-- The text of a stored document. -/
def documentOf (data : Bytes) : Except Failure Text :=
  match Utf8.decode data with
  | .ok t => .ok t.lineFeeds
  | .error fault => .error (.decoding (data[fault.position]?.getD 0) fault)

/-- The bytes to store for a document. -/
def storedDocument (t : Text) : Except Failure Bytes :=
  match Surrogates.find? (fun _ => true) t with
  | none => .ok (Utf8.encode t)
  | some fault => .error (.encoding fault)

end CommandLine

end ClassTree

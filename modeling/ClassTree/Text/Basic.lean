/-
# ClassTree.Text.Basic — text over all code points

Names in a class file are UTF-16, and UTF-16 may hold a surrogate without its partner. The text
type of this library therefore ranges over **all** code points, the surrogates included: a `Text`
is a list of numbers below `0x110000`. A string literal stands for the text of its characters
through the coercion below, so that a name can be compared with `"Code"` directly.
-/

namespace ClassTree

/-- A Unicode code point; the surrogates `0xD800 … 0xDFFF` are code points too. -/
abbrev CodePoint := Fin 0x110000

/-- There are code points, so that a numeral stands for one. -/
instance instNeZeroCodePoint : @NeZero Nat Zero.ofOfNat0 0x110000 := ⟨by decide⟩

/-- A finite sequence of code points. -/
abbrev Text := List CodePoint

namespace CodePoint

/-- The code point of a character. A character is never a surrogate, so not every code point
arises. -/
def ofChar (c : Char) : CodePoint :=
  ⟨c.val.toNat, by
    have := c.valid
    simp only [UInt32.isValidChar, Nat.isValidChar] at this
    omega⟩

/-- The first halves of surrogate pairs. -/
def isHighSurrogate (c : CodePoint) : Bool := 0xD800 ≤ c.val && c.val < 0xDC00

/-- The second halves of surrogate pairs. -/
def isLowSurrogate (c : CodePoint) : Bool := 0xDC00 ≤ c.val && c.val < 0xE000

/-- Either half of a surrogate pair. -/
def isSurrogate (c : CodePoint) : Bool := 0xD800 ≤ c.val && c.val < 0xE000

/-- The character of a code point, if it is not a surrogate. -/
def toChar? (c : CodePoint) : Option Char :=
  if h : c.val.isValidChar then some (Char.ofNatAux c.val h) else none

end CodePoint

namespace Text

/-- The text of a string. -/
def ofString (s : String) : Text := s.toList.map CodePoint.ofChar

/-- A string literal stands for its text. -/
instance : Coe String Text := ⟨ofString⟩

/-- Pieces one after another; the way messages are put together. -/
def concat (pieces : List Text) : Text := pieces.flatten

/-- Texts one after another with `separator` between neighbours. -/
def join (separator : Text) (texts : List Text) : Text := (texts.intersperse separator).flatten

/-- The decimal numeral of a natural number. -/
def ofNat (n : Nat) : Text := (Nat.toDigits 10 n).map CodePoint.ofChar

/-- The decimal numeral of an integer, with `-` in front of a negative one. -/
def ofInt : Int → Text
  | .ofNat n => ofNat n
  | .negSucc n => CodePoint.ofChar '-' :: ofNat (n + 1)

/-- No code point is a surrogate, so the text is a sequence of characters. -/
def isScalar (t : Text) : Bool := t.all fun c => !c.isSurrogate

/-- The parts of a text between the occurrences of a separator; there is always one more part than
there are separators. -/
def splitOn (separator : CodePoint) (t : Text) : List Text :=
  let (last, parts) := t.foldr
    (fun c (part, parts) => if c = separator then ([], part :: parts) else (c :: part, parts))
    ([], [])
  last :: parts

/-- Every occurrence of `old` replaced by `new`. -/
def replace (old new : CodePoint) (t : Text) : Text := t.map fun c => if c = old then new else c

end Text

end ClassTree

/-
# ClassTree.Text.Utf8 — UTF-8, with or without surrogates

UTF-8 assigns every code point one to four bytes. The standard form leaves the surrogates out; the
wide form gives them the three bytes that their number calls for, so that every `Text` has an
encoding. Encoding is always wide. Decoding takes the choice as an argument, and its faults say
where the input stopped being UTF-8 and how many bytes are to blame.

A text that is to be stored in the standard form is looked through for the first stretch of
surrogates ahead of that; the sort of surrogates that is in the way is the caller's to say.
-/
import ClassTree.Bytes
import ClassTree.Text.Basic

namespace ClassTree.Utf8

/-! ## Encoding -/

/-- The bytes of one code point. -/
def encodeOne (c : CodePoint) : Bytes :=
  let n := c.val
  if n < 0x80 then [UInt8.ofNat n]
  else if n < 0x800 then [UInt8.ofNat (0xC0 + n / 0x40), UInt8.ofNat (0x80 + n % 0x40)]
  else if n < 0x10000 then
    [UInt8.ofNat (0xE0 + n / 0x1000), UInt8.ofNat (0x80 + n / 0x40 % 0x40),
      UInt8.ofNat (0x80 + n % 0x40)]
  else
    [UInt8.ofNat (0xF0 + n / 0x40000), UInt8.ofNat (0x80 + n / 0x1000 % 0x40),
      UInt8.ofNat (0x80 + n / 0x40 % 0x40), UInt8.ofNat (0x80 + n % 0x40)]

/-- The bytes of a text. -/
def encode (t : Text) : Bytes := t.flatMap encodeOne

/-! ## Decoding -/

/-- Why bytes are not UTF-8. -/
inductive Reason where
  /-- No code point starts with this byte. -/
  | start
  /-- The byte that should carry the code point on does not. -/
  | continuation
  /-- The bytes end inside a code point. -/
  | truncated
  deriving DecidableEq, Repr

/-- The bytes to blame: `length` of them from `position` on. -/
structure Fault where
  position : Nat
  length : Nat
  reason : Reason
  deriving DecidableEq, Repr

/-- The range of the second byte after a given first byte. It excludes the longer spellings of
smaller code points, everything above `0x10FFFF` and, unless they are allowed, the surrogates. -/
def second (surrogates : Bool) (first : Nat) : Nat × Nat :=
  if first = 0xE0 then (0xA0, 0xBF)
  else if first = 0xED && !surrogates then (0x80, 0x9F)
  else if first = 0xF0 then (0x90, 0xBF)
  else if first = 0xF4 then (0x80, 0x8F)
  else (0x80, 0xBF)

/-- A byte `0x80 … 0xBF`. -/
def isTail (b : Nat) : Bool := 0x80 ≤ b && b < 0xC0

/-- Decodes onto the reversed code points `acc` read so far; `position` counts the bytes read. -/
def decodeFrom (surrogates : Bool) : Bytes → Nat → Text → Except Fault Text
  | [], _, acc => .ok acc.reverse
  | a :: rest, position, acc =>
    let a := a.toNat
    if a < 0x80 then decodeFrom surrogates rest (position + 1) (Fin.ofNat _ a :: acc)
    else if a < 0xC2 || 0xF4 < a then .error ⟨position, 1, .start⟩
    else match rest with
    | [] => .error ⟨position, 1, .truncated⟩
    | b :: rest =>
      let b := b.toNat
      let (low, high) := second surrogates a
      if b < low || high < b then .error ⟨position, 1, .continuation⟩
      else if a < 0xE0 then
        decodeFrom surrogates rest (position + 2)
          (Fin.ofNat _ ((a - 0xC0) * 0x40 + (b - 0x80)) :: acc)
      else match rest with
      | [] => .error ⟨position, 2, .truncated⟩
      | c :: rest =>
        let c := c.toNat
        if !isTail c then .error ⟨position, 2, .continuation⟩
        else if a < 0xF0 then
          decodeFrom surrogates rest (position + 3)
            (Fin.ofNat _ ((a - 0xE0) * 0x1000 + (b - 0x80) * 0x40 + (c - 0x80)) :: acc)
        else match rest with
        | [] => .error ⟨position, 3, .truncated⟩
        | d :: rest =>
          let d := d.toNat
          if !isTail d then .error ⟨position, 3, .continuation⟩
          else
            decodeFrom surrogates rest (position + 4)
              (Fin.ofNat _ ((a - 0xF0) * 0x40000 + (b - 0x80) * 0x1000 + (c - 0x80) * 0x40
                + (d - 0x80)) :: acc)

/-- Decodes the wide form: surrogates are code points like all others. -/
def decodeWide (bytes : Bytes) : Except Fault Text := decodeFrom true bytes 0 []

/-- Decodes the standard form, which has no surrogates. -/
def decode (bytes : Bytes) : Except Fault Text := decodeFrom false bytes 0 []

end ClassTree.Utf8

namespace ClassTree

/-! ## Surrogates in the way -/

/-- A stretch of surrogates in a text. -/
structure Surrogates where
  first : CodePoint
  position : Nat
  length : Nat
  deriving DecidableEq, Repr

namespace Surrogates

/-- The stretch from the first surrogate of a sort on, if there is any. -/
def find? (refused : CodePoint → Bool) (t : Text) : Option Surrogates :=
  let isFine (c : CodePoint) : Bool := !(c.isSurrogate && refused c)
  match t.dropWhile isFine with
  | [] => none
  | c :: rest =>
    some ⟨c, (t.takeWhile isFine).length, (rest.takeWhile CodePoint.isSurrogate).length + 1⟩

end Surrogates

end ClassTree

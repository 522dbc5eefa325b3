/-
# ClassTree.Text.Digits — bytes in digits

Text carries bytes in one of two bases.

* `Hex`: bytes are written as two upper-case digits each, with one space between bytes. Reading
  accepts either case and any white space between bytes, and refuses a group that is not exactly two
  digits.
* `Base64`: three bytes are written as four digits of base 64; one or two bytes left over as two or
  three digits and padding up to four places. Reading is strict: digits, then padding, and nothing
  else. A remainder of two digits needs exactly two pads, one of three digits exactly one, one of
  one digit is refused. After complete groups of four any padding is let through.

An integer is read from decimal digits of any script, with an optional sign in front and white
space around it, of which the information separators are no part. A single underscore may stand
between two digits. Longer than 4300 digits, leading zeros included, a numeral is refused.
-/
import ClassTree.Bytes
import ClassTree.Text.Range

/-! ## Two digits a byte -/

namespace ClassTree.Hex

/-- The upper-case digit of a number below sixteen. -/
def digit (n : Nat) : CodePoint :=
  if n < 10 then Fin.ofNat _ (0x30 + n) else Fin.ofNat _ (0x41 + (n - 10))

/-- The lower-case digit of a number below sixteen. -/
def lowerDigit (n : Nat) : CodePoint :=
  if n < 10 then Fin.ofNat _ (0x30 + n) else Fin.ofNat _ (0x61 + (n - 10))

/-- The two upper-case digits of a byte. -/
def ofByte (b : UInt8) : Text := [digit (b.toNat / 16), digit (b.toNat % 16)]

/-- The upper-case digits of the bytes, with a space between bytes. -/
def render (bytes : Bytes) : Text := Text.join " " (bytes.map ofByte)

/-- A number in lower-case digits, with zeros in front up to `width` of them. -/
def lower (width n : Nat) : Text :=
  let digits := (Nat.toDigits 16 n).map CodePoint.ofChar
  List.replicate (width - digits.length) 0x30 ++ digits

/-- The value of a hexadecimal digit of either case. -/
def digitValue? (c : CodePoint) : Option Nat :=
  let n := c.val
  if 0x30 ≤ n ∧ n ≤ 0x39 then some (n - 0x30)
  else if 0x41 ≤ n ∧ n ≤ 0x46 then some (n - 0x41 + 10)
  else if 0x61 ≤ n ∧ n ≤ 0x66 then some (n - 0x61 + 10)
  else none

/-- The byte of a group of two digits; any other group is the fault. -/
def byteOf (group : Text) : Except Text UInt8 :=
  match group with
  | [high, low] =>
    match digitValue? high, digitValue? low with
    | some h, some l => .ok (UInt8.ofNat (h * 16 + l))
    | _, _ => .error group
  | _ => .error group

/-- The bytes of hexadecimal text, or the first group that is not a byte. -/
def read (t : Text) : Except Text Bytes := (Text.words t).mapM byteOf

end ClassTree.Hex

/-! ## Four digits for three bytes -/

namespace ClassTree.Base64

/-- The digit of a number below sixty-four. -/
def digit (n : Nat) : CodePoint :=
  if n < 26 then Fin.ofNat _ (0x41 + n)
  else if n < 52 then Fin.ofNat _ (0x61 + (n - 26))
  else if n < 62 then Fin.ofNat _ (0x30 + (n - 52))
  else if n = 62 then 0x2B
  else 0x2F

/-- The value of a digit. -/
def digitValue? (c : CodePoint) : Option Nat :=
  let n := c.val
  if 0x41 ≤ n ∧ n ≤ 0x5A then some (n - 0x41)
  else if 0x61 ≤ n ∧ n ≤ 0x7A then some (n - 0x61 + 26)
  else if 0x30 ≤ n ∧ n ≤ 0x39 then some (n - 0x30 + 52)
  else if n = 0x2B then some 62
  else if n = 0x2F then some 63
  else none

/-- The padding sign. -/
def pad : CodePoint := 0x3D

/-- The base64 text of bytes, onto the reversed text `acc`. -/
def renderFrom : Bytes → Text → Text
  | a :: b :: c :: rest, acc =>
    let n := a.toNat * 0x10000 + b.toNat * 0x100 + c.toNat
    renderFrom rest
      (digit (n % 64) :: digit (n / 64 % 64) :: digit (n / 4096 % 64) :: digit (n / 262144) :: acc)
  | [a, b], acc =>
    let n := a.toNat * 0x100 + b.toNat
    (pad :: digit (n * 4 % 64) :: digit (n / 16 % 64) :: digit (n / 1024) :: acc).reverse
  | [a], acc =>
    let n := a.toNat
    (pad :: pad :: digit (n * 16 % 64) :: digit (n / 4) :: acc).reverse
  | [], acc => acc.reverse

/-- The base64 text of bytes. -/
def render (bytes : Bytes) : Text := renderFrom bytes []

/-- The bytes of a list of digit values, onto the reversed bytes `acc`. The bits of an incomplete
group that fill no byte are dropped. -/
def bytesFrom : List Nat → Bytes → Bytes
  | a :: b :: c :: d :: rest, acc =>
    bytesFrom rest
      (UInt8.ofNat (c % 4 * 64 + d) :: UInt8.ofNat (b % 16 * 16 + c / 4)
        :: UInt8.ofNat (a * 4 + b / 16) :: acc)
  | [a, b, c], acc =>
    (UInt8.ofNat (b % 16 * 16 + c / 4) :: UInt8.ofNat (a * 4 + b / 16) :: acc).reverse
  | [a, b], acc => (UInt8.ofNat (a * 4 + b / 16) :: acc).reverse
  | _, acc => acc.reverse

/-- The padding that `digits` digits need or allow. -/
def padded (digits pads : Nat) : Bool :=
  match digits % 4 with
  | 0 => pads = 0 || digits ≠ 0
  | 2 => pads = 2
  | 3 => pads = 1
  | _ => false

/-- The bytes of base64 text. -/
def read? (t : Text) : Option Bytes :=
  let digits := t.takeWhile (· ≠ pad)
  let pads := t.dropWhile (· ≠ pad)
  if pads.all (· = pad) && padded digits.length pads.length then
    (digits.mapM digitValue?).map (bytesFrom · [])
  else none

end ClassTree.Base64

namespace ClassTree.Text

/-- The most digits that a numeral may have. -/
def maxNumeralLength : Nat := 4300

/-- The number of an unsigned numeral. -/
def toNat? (t : Text) : Option Nat := do
  let parts := splitOn 0x5F t
  if parts.any List.isEmpty then none
  let digits ← parts.flatten.mapM digitValue?
  if digits.length > maxNumeralLength then none
  return digits.foldl (fun n d => n * 10 + d) 0

/-- The number of a numeral with an optional sign, white space around it ignored. -/
def toInt? (t : Text) : Option Int :=
  match strip (fun c => isBlank c && !isSeparator c) t with
  | [] => none
  | c :: rest =>
    if c = 0x2B then (toNat? rest).map Int.ofNat
    else if c = 0x2D then (toNat? rest).map fun n => -Int.ofNat n
    else (toNat? (c :: rest)).map Int.ofNat

end ClassTree.Text

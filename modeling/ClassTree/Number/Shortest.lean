/-
# ClassTree.Number.Shortest — the fewest decimal digits that read back

A double precision number is shown by the shortest decimal that rounds to it, and among those of
that length by the nearest one; of two equally near ones, by the one with the even last digit. The
search is exact: the reals that round to the number form an interval with known ends, the ends
included iff the significand is even, and on each decimal grid only the two neighbours of the number
need to be tried.
-/
import ClassTree.Number.Binary
import ClassTree.Text.Basic

namespace ClassTree.Number

/-! ## Digits -/

/-- A decimal `digits · 10 ^ exponent`. -/
structure Decimal where
  digits : Nat
  exponent : Int
  deriving DecidableEq, Repr

namespace Shortest

/-- A positive number `m · 2 ^ q` with the interval that rounds to it, all in quarters of `2 ^ q`:
the number is `4 m`, and the ends lie half a step away, a quarter step below a power of two. -/
structure Target where
  low : Nat
  value : Nat
  high : Nat
  /-- The exponent of a quarter. -/
  exponent : Int
  /-- The ends themselves round to the number. -/
  closed : Bool

/-- The interval of a positive double precision number. -/
def target (m : Nat) (q : Int) : Target :=
  let narrow := m = 2 ^ (Format.double.precision - 1) && Format.double.leastExponent < q
  { low := 4 * m - (if narrow then 1 else 2), value := 4 * m, high := 4 * m + 2,
    exponent := q - 2, closed := m % 2 = 0 }

/-- The factors `(a, b)` with `x · 2 ^ t.exponent` compared to `d · 10 ^ e` as `x · a` to `d · b`.
-/
def Target.scales (t : Target) (e : Int) : Nat × Nat :=
  (2 ^ t.exponent.toNat * 10 ^ (-e).toNat, 2 ^ (-t.exponent).toNat * 10 ^ e.toNat)

/-- The `e` with `10 ^ e ≤ value < 10 ^ (e + 1)`. The estimate from the binary length is off by at
most one. -/
def Target.magnitude (t : Target) : Int :=
  let estimate := ((t.value.log2 + t.exponent) * 1233).fdiv 4096
  let reaches (e : Int) : Bool := let (a, b) := t.scales e; b ≤ t.value * a
  if !reaches estimate then estimate - 1
  else if reaches (estimate + 1) then estimate + 1
  else estimate

/-- The decimal with the exponent `e` that rounds to the number, if there is one: of the neighbours
below and above, the one inside the interval, and of two the nearer. -/
def Target.on (t : Target) (e : Int) : Option Decimal :=
  let (a, b) := t.scales e
  let inside (d : Nat) : Bool :=
    if t.closed then t.low * a ≤ d * b && d * b ≤ t.high * a
    else t.low * a < d * b && d * b < t.high * a
  let below := t.value * a / b
  let above := below + 1
  let down := t.value * a - below * b
  let up := above * b - t.value * a
  let nearer := if down < up || (down = up && below % 2 = 0) then below else above
  let other := if nearer = below then above else below
  if inside nearer then some ⟨nearer, e⟩ else if inside other then some ⟨other, e⟩ else none

/-- The shortest decimal of a positive number. Seventeen digits always suffice. -/
def ofFinite (m : Nat) (q : Int) : Decimal :=
  let t := target m q
  let magnitude := t.magnitude
  let found := (List.range 17).findSome? fun (k : Nat) => t.on (magnitude - k)
  found.getD ⟨0, 0⟩

end Shortest

/-! ## Layout -/

/-- How a decimal is written. -/
structure Layout where
  /-- The least decimal exponent of the first digit that is written positionally. -/
  positionalFrom : Int
  /-- The least one above it that is not. -/
  positionalBelow : Int
  /-- The least number of digits of a written exponent. -/
  exponentDigits : Nat
  infinity : Text
  notANumber : Text

/-- Numbers in messages: positional from `0.0001` up to sixteen digits before the point, where a
whole number keeps `.0`; otherwise one digit, a point if more follow, and a signed exponent of at
least two digits. -/
def Layout.message : Layout :=
  { positionalFrom := -4, positionalBelow := 16, exponentDigits := 2,
    infinity := "inf", notANumber := "nan" }

namespace Layout

/-- Writes the digits of a decimal whose first digit stands for `10 ^ first`. -/
def place (layout : Layout) (digits : Text) (first : Int) : Text :=
  if layout.positionalFrom ≤ first && first < layout.positionalBelow then
    if first < 0 then
      Text.concat ["0.", List.replicate (-first - 1).toNat 0x30, digits]
    else
      let whole := first.toNat + 1
      if digits.length ≤ whole then
        Text.concat [digits, List.replicate (whole - digits.length) 0x30, ".0"]
      else Text.concat [digits.take whole, ".", digits.drop whole]
  else
    let exponent := Text.ofNat first.natAbs
    let fraction : Text := if digits.length ≤ 1 then [] else 0x2E :: digits.drop 1
    Text.concat [digits.take 1, fraction, if first < 0 then "e-" else "e+",
      List.replicate (layout.exponentDigits - exponent.length) 0x30, exponent]

/-- A magnitude: zero as one digit, any other by its shortest digits without the zeros at their
end. -/
def magnitude (layout : Layout) (m : Nat) (q : Int) : Text :=
  if m = 0 then layout.place "0" 0
  else
    let decimal := Shortest.ofFinite m q
    let digits := Text.ofNat decimal.digits
    let first := decimal.exponent + digits.length - 1
    layout.place (digits.reverse.dropWhile (· = 0x30)).reverse first

/-- The text of a number. A negative one has a minus in front, negative zero too. -/
def render (layout : Layout) (x : Double) : Text :=
  let sign (negative : Bool) : Text := if negative then "-" else ""
  match x.decode with
  | .finite negative m q => sign negative ++ layout.magnitude m q
  | .infinite negative => sign negative ++ layout.infinity
  | .nan _ _ => layout.notANumber

end Layout

end ClassTree.Number

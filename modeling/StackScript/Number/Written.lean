/-!
# Numbers and their texts

A finite double is a whole number times a power of two; everything exact that is said about doubles
is said about that pair. A double is written as the shortest decimal that reads back: among the
decimals that round to it, those with the fewest digits, and of these the one nearest to the double.

The grammar of numbers in strings: an optional sign; then digits, with a point and an exponent
where the number is a double, or one of the words for infinity and for a NaN. Nothing may stand
around them.

## Main definitions

* `Magnitude`, `magnitude`, `isNegative`: a double apart from its sign, and the sign, of zero too
* `truncateToInt64`: the whole part, clamped to 64 bits
* `Interval`: a positive fraction and the fractions that round to it
* `Decimal`, `shortest`: the shortest decimal of a double's magnitude
* `DecimalLayout`: the choices that a format makes about the shortest digits of a double
* `DecimalLayout.write`: a double in that format
* `shown`, `described`, `exchanged`: the formats of output, of messages and of JSON
* `readInt64?`: a whole number within 64 bits
* `readDouble?`: a double, correctly rounded
-/

namespace StackScript.Number

/-! ## Doubles as binary fractions -/

/-- A double apart from its sign. A finite one is `mantissa · 2 ^ exponent`; `narrowBelow` says
that the next smaller double is only half as far away as the next larger one. -/
inductive Magnitude where
  | finite (mantissa : Nat) (exponent : Int) (narrowBelow : Bool)
  | infinite
  | nan
  deriving Repr, DecidableEq

def isNegative (d : Float) : Bool := d.toBits.toNat / Nat.pow 2 63 == 1

/-- The fields of the binary64 format, read. -/
def magnitude (d : Float) : Magnitude :=
  let bits := d.toBits.toNat
  let fraction : Nat := bits % Nat.pow 2 52
  let biased : Nat := bits / Nat.pow 2 52 % Nat.pow 2 11
  if biased = 2047 then (if fraction = 0 then .infinite else .nan)
  else if biased = 0 then .finite fraction (-1074) false
  else .finite (Nat.pow 2 52 + fraction) ((biased : Int) - 1075) (fraction == 0 && biased > 1)

/-- A whole number with a sign, clamped to the range of 64-bit integers. -/
def clampToInt64 (negative : Bool) (n : Nat) : Int64 :=
  if negative then
    (if n ≤ Nat.pow 2 63 then Int64.ofInt (-(n : Int)) else Int64.minValue)
  else if n < Nat.pow 2 63 then Int64.ofInt n else Int64.maxValue

/-- The whole part of a double, toward zero: clamped to 64 bits, and 0 for a NaN. -/
def truncateToInt64 (d : Float) : Int64 :=
  match magnitude d with
  | .nan => 0
  | .infinite => if isNegative d then Int64.minValue else Int64.maxValue
  | .finite m e _ =>
    clampToInt64 (isNegative d)
      (if 0 ≤ e then m * Nat.pow 2 e.toNat else m / Nat.pow 2 (-e).toNat)

/-! ## The shortest decimal -/

/-- Which of two equally near decimals is taken. -/
inductive Tie where
  | up
  | even
  deriving Repr, DecidableEq

/-- The fraction `value / unit` and the bounds `low / unit`, `high / unit` of the fractions that
round to it; the bounds themselves count if `closed`. -/
structure Interval where
  low : Nat
  value : Nat
  high : Nat
  unit : Nat
  closed : Bool
  deriving Repr

/-- The interval of the double `m · 2 ^ e`: half the gap to each neighbour, bounds included if the
mantissa is even. -/
def Interval.ofDouble (m : Nat) (e : Int) (narrowBelow : Bool) : Interval :=
  let scale := Nat.pow 2 (e - 2).toNat
  { low := (4 * m - (if narrowBelow then 1 else 2)) * scale
    value := 4 * m * scale
    high := (4 * m + 2) * scale
    unit := Nat.pow 2 (2 - e).toNat
    closed := m % 2 == 0 }

/-- The fraction `num / den` rounds to the interval's value. -/
def Interval.holds (i : Interval) (num den : Nat) : Bool :=
  if i.closed then i.low * den ≤ num * i.unit && num * i.unit ≤ i.high * den
  else i.low * den < num * i.unit && num * i.unit < i.high * den

def digitCount (n : Nat) : Nat := (Nat.toDigits 10 n).length

/-- The `p` with `10 ^ p ≤ num / den < 10 ^ (p + 1)`, for a positive fraction. -/
def leadingExponent (num den : Nat) : Int :=
  if den ≤ num then (digitCount (num / den) : Int) - 1 else -(digitCount ((den - 1) / num) : Int)

/-- The decimal `digits · 10 ^ exponent`. -/
structure Decimal where
  digits : Nat
  exponent : Int
  deriving Repr, DecidableEq

/-- The decimals next to the value on the grid of multiples of `10 ^ exponent` are tried, and the
nearer one of those that round to the value is taken. -/
def Interval.onGrid? (i : Interval) (tie : Tie) (exponent : Int) : Option Decimal :=
  let up := Nat.pow 10 exponent.toNat
  let down := Nat.pow 10 (-exponent).toNat
  let below := i.value * down / (i.unit * up)
  let above := below + 1
  let twice := 2 * (i.value * down)
  let middle := (below + above) * (i.unit * up)
  let lower := i.holds (below * up) down
  let upper := i.holds (above * up) down
  let takeUpper :=
    upper && (!lower || middle < twice ||
      (middle == twice && (tie == .up || above % 2 == 0)))
  if takeUpper then some ⟨above, exponent⟩
  else if lower then some ⟨below, exponent⟩
  else none

/-- The shortest decimal of the positive double `m · 2 ^ e`: the first grid, from one digit on,
that has a decimal rounding to the double. Seventeen digits always suffice. -/
def shortest (tie : Tie) (m : Nat) (e : Int) (narrowBelow : Bool) : Decimal :=
  let i := Interval.ofDouble m e narrowBelow
  let lead := leadingExponent i.value i.unit
  ((List.range 17).findSome? fun (n : Nat) => i.onGrid? tie (lead - (n : Int))).getD ⟨0, 0⟩

/-! ## Formats -/

/-- A format for doubles. The position of the point is the `p` for which the number is
`0.d₁d₂… · 10 ^ p`. -/
structure DecimalLayout where
  /-- Which of two equally near shortest decimals is written. -/
  tie : Tie
  /-- The positions, first excluded and last included, written without an exponent; all if none
  are named. -/
  plain : Option (Int × Int)
  /-- A whole number keeps a fraction of one zero when written without an exponent. -/
  wholeFraction : Bool
  /-- A positive exponent has its sign. -/
  exponentPlus : Bool
  deriving Repr, DecidableEq

/-- The digits of the number without zeros at the end. -/
def significantDigits (n : Nat) : List Char :=
  ((Nat.toDigits 10 n).reverse.dropWhile (· == '0')).reverse

namespace DecimalLayout

/-- The position is written without an exponent. -/
def isPlain (layout : DecimalLayout) (point : Int) : Bool :=
  match layout.plain with
  | none => true
  | some (low, high) => low < point && point ≤ high

/-- Digits with the point at a position, zeros filled in on either side. -/
def writePlain (layout : DecimalLayout) (digits : List Char) (point : Int) : List Char :=
  let whole := digits.take point.toNat
  let wholeZeros := List.replicate (point.toNat - digits.length) '0'
  let fractionZeros := List.replicate (-point).toNat '0'
  let fraction := digits.drop point.toNat
  let left := if point ≤ 0 then ['0'] else whole ++ wholeZeros
  if fraction.isEmpty then left ++ (if layout.wholeFraction then ['.', '0'] else [])
  else left ++ '.' :: (fractionZeros ++ fraction)

/-- Digits with the point behind the first one and an exponent. -/
def writeScientific (layout : DecimalLayout) (digits : List Char) (point : Int) : List Char :=
  let exponent := point - 1
  let sign := if exponent < 0 then ['-'] else if layout.exponentPlus then ['+'] else []
  let fraction := digits.drop 1
  digits.take 1 ++ (if fraction.isEmpty then [] else '.' :: fraction) ++
    'e' :: (sign ++ Nat.toDigits 10 exponent.natAbs)

/-- A double as text. -/
def write (layout : DecimalLayout) (d : Float) : String :=
  let sign := if isNegative d then ['-'] else []
  match magnitude d with
  | .nan => "NaN"
  | .infinite => String.ofList (sign ++ ['i', 'n', 'f'])
  | .finite m e narrowBelow =>
    if m = 0 then String.ofList (sign ++ '0' :: (if layout.wholeFraction then ['.', '0'] else []))
    else
      let decimal := shortest layout.tie m e narrowBelow
      let digits := significantDigits decimal.digits
      let point := (digitCount decimal.digits : Int) + decimal.exponent
      String.ofList (sign ++
        if layout.isPlain point then layout.writePlain digits point
        else layout.writeScientific digits point)

end DecimalLayout

/-- The format of output: never an exponent, whole numbers without a fraction, a tie away from
zero. -/
def shown : DecimalLayout := ⟨.up, none, false, false⟩

/-- The format of messages: an exponent from `1e16` on and below `1e-4`, whole numbers with a
fraction, a tie away from zero. -/
def described : DecimalLayout := ⟨.up, some (-4, 16), true, false⟩

/-- The format of JSON documents: an exponent, always signed, from `1e+16` on and below `1e-5`,
whole numbers with a fraction, a tie to the even digit. -/
def exchanged : DecimalLayout := ⟨.even, some (-5, 16), true, true⟩

/-! ## Numbers read from text -/

/-- The value of a list of decimal digits. -/
def ofDigits (cs : List Char) : Nat := cs.foldl (fun n c => 10 * n + (c.toNat - '0'.toNat)) 0

/-- The sign in front of a number, and the rest. -/
def splitSign : List Char → Bool × List Char
  | '-' :: rest => (true, rest)
  | '+' :: rest => (false, rest)
  | cs => (false, cs)

/-- The digits in front, and the rest. -/
def splitDigits (cs : List Char) : List Char × List Char :=
  (cs.takeWhile Char.isDigit, cs.dropWhile Char.isDigit)

/-- A whole number within 64 bits: an optional sign and at least one digit. -/
def readInt64? (s : String) : Option Int64 :=
  let (negative, rest) := splitSign s.toList
  let (digits, left) := splitDigits rest
  if digits.isEmpty || !left.isEmpty then none
  else
    let n := ofDigits digits
    if negative then (if n ≤ Nat.pow 2 63 then some (Int64.ofInt (-(n : Int))) else none)
    else if n < Nat.pow 2 63 then some (Int64.ofInt n) else none

/-- The exponent part of a number, `0` if it is missing; nothing may follow it. -/
def readExponent? : List Char → Option Int
  | [] => some 0
  | c :: rest =>
    if c = 'e' ∨ c = 'E' then
      let (negative, rest) := splitSign rest
      let (digits, left) := splitDigits rest
      if digits.isEmpty || !left.isEmpty then none
      else some (if negative then -(ofDigits digits : Int) else ofDigits digits)
    else none

/-- Digits, a point, more digits and an exponent; one of the two groups of digits is there. -/
def readDecimal? (cs : List Char) : Option Decimal := do
  let (whole, rest) := splitDigits cs
  let (fraction, rest) := match rest with
    | '.' :: rest => splitDigits rest
    | rest => ([], rest)
  if whole.isEmpty && fraction.isEmpty then none
  else
    let exponent ← readExponent? rest
    some ⟨ofDigits (whole ++ fraction), exponent - fraction.length⟩

namespace Decimal

/-- The double nearest to a decimal, a tie to the even mantissa. Decimals beyond the range of
doubles are cut off first, so that no huge power of ten is computed. -/
def toDouble (d : Decimal) : Float :=
  let lead := (digitCount d.digits : Int) + d.exponent
  if d.digits = 0 || lead < -330 then 0.0
  else if 330 < lead then 1.0 / 0.0
  else Float.ofScientific d.digits (d.exponent < 0) d.exponent.natAbs

end Decimal

/-- An unsigned number or the word for infinity or a NaN, in any case of its letters. -/
def readUnsigned? (cs : List Char) : Option Float :=
  let word := String.ofList (cs.map Char.toLower)
  if word = "inf" ∨ word = "infinity" then some (1.0 / 0.0)
  else if word = "nan" then some (0.0 / 0.0)
  else (readDecimal? cs).map Decimal.toDouble

/-- A double: an optional sign and an unsigned number. -/
def readDouble? (s : String) : Option Float :=
  let (negative, rest) := splitSign s.toList
  (readUnsigned? rest).map fun d => if negative then -d else d

end StackScript.Number

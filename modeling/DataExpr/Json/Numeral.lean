import DataExpr.Number.Read

/-!
# Numbers of JSON texts

A numeral without point and exponent is an integer as far as it fits in 64 bits,
with or without sign.  Any other numeral is a float: its leading digits, as many
as fit in 64 bits, are converted to a float and scaled by a power of ten, and each
of these steps rounds.
-/

namespace DataExpr.Json

/-- The parts of a numeral. -/
structure Numeral where
  negative : Bool
  whole : List Char
  /-- Digits after the point; none without a point. -/
  places : List Char
  /-- Sign and digits of the exponent. -/
  exponent : Option (Bool × List Char)

namespace Numeral

/-- A point and at least one digit, or nothing. -/
def splitPlaces : List Char → Option (List Char × List Char)
  | '.' :: rest =>
    let places := rest.takeWhile Char.isDigit
    if places.isEmpty then none else some (places, rest.dropWhile Char.isDigit)
  | rest => some ([], rest)

/-- An exponent mark with at least one digit, or nothing at all. -/
def readExponent : List Char → Option (Option (Bool × List Char))
  | [] => some none
  | mark :: rest =>
    if mark = 'e' || mark = 'E' then
      let (negative, digits) := Read.sign rest
      if digits.isEmpty || !digits.all Char.isDigit then none else some (some (negative, digits))
    else none

/-- Reads a whole word as a numeral: no superfluous leading zero, and digits on both
    sides of a point. -/
def ofChars? (word : List Char) : Option Numeral := do
  let (negative, body) := match word with
    | '-' :: rest => (true, rest)
    | rest => (false, rest)
  let whole := body.takeWhile Char.isDigit
  let afterWhole := body.dropWhile Char.isDigit
  let valid := match whole with
    | [] => false
    | c :: rest => c != '0' || rest.isEmpty
  if !valid then none
  else
    let (places, rest) ← splitPlaces afterWhole
    let exponent ← readExponent rest
    some ⟨negative, whole, places, exponent⟩

/-- The largest significand that is kept exactly. -/
def limit : Nat := 0xffffffffffffffff

def digit (c : Char) : Nat := c.toNat - '0'.toNat

/-- Takes digits into a significand as long as it stays within the limit, and gives
    the digits that are left. -/
def gather (significand : Nat) : List Char → Nat × List Char
  | [] => (significand, [])
  | c :: rest =>
    let next := significand * 10 + digit c
    if next ≤ limit then gather next rest else (significand, c :: rest)

/-- The value of an exponent's digits, unless it needs more than 32 bits. -/
def boundedExponent? (digits : List Char) : Option Nat :=
  let n := Read.valueUpTo 0x80000000 digits
  if n < 0x80000000 then some n else none

/-- A float times a power of ten, rounded at each step.  A huge factor is out of range. -/
def scale (x : Float) (exponent : Int) : Nat → Option Float
  | 0 => some 0.0
  | fuel + 1 =>
    if exponent.natAbs ≤ 308 then
      let power := Float.ofScientific 1 false exponent.natAbs
      if 0 ≤ exponent then
        let y := x * power
        if y.isInf then none else some y
      else some (x / power)
    else if x == 0.0 then some x
    else if 0 ≤ exponent then none
    else scale (x / 1e308) (exponent + 308) fuel

/-- Keeps an exponent within 32 bits. -/
def saturate (n : Int) : Int := max (-0x80000000) (min 0x7fffffff n)

/-- The float of a significand and a decimal exponent, together with the exponent that
    the numeral itself states. -/
def toFloat? (n : Numeral) (significand : Nat) (shift : Int) : Option Float :=
  let magnitude := match n.exponent with
    | none => scale significand.toUInt64.toFloat shift 8
    | some (negative, digits) =>
      match boundedExponent? digits with
      | some e =>
        scale significand.toUInt64.toFloat
          (saturate (if negative then shift - e else shift + e)) 8
      | none => if significand != 0 && !negative then none else some 0.0
  magnitude.map fun m => if n.negative then -m else m

/-- The number that a numeral stands for; `none` is out of range. -/
def value? (n : Numeral) : Option (Int ⊕ Float) :=
  let (wholePart, dropped) := gather 0 n.whole
  if dropped.isEmpty && n.places.isEmpty && n.exponent.isNone then
    if !n.negative then some (.inl wholePart)
    else if 0 < wholePart && wholePart ≤ 0x8000000000000000 then some (.inl (-(wholePart : Int)))
    else some (.inr (-wholePart.toUInt64.toFloat))
  else
    let (significand, left) := gather wholePart n.places
    let used := n.places.length - left.length
    (n.toFloat? significand ((dropped.length : Int) - used)).map .inr

end Numeral
end DataExpr.Json

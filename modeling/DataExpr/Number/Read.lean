import DataExpr.Number.Double

/-!
# Reading numbers

Texts of integers and of decimal fractions.  A decimal fraction is rounded once,
to the nearest double.  An exponent is read only until it reaches 65536; what follows
then does not count.
-/

namespace DataExpr.Read

/-- The value of a run of decimal digits. -/
def digitsValue (digits : List Char) : Nat :=
  digits.foldl (fun n c => n * 10 + (c.toNat - '0'.toNat)) 0

/-- The value of the least number of leading digits that reach the limit, or of all digits
    if their value stays below it. -/
def valueUpTo (limit : Nat) (digits : List Char) : Nat :=
  digits.foldl (fun n c => if n < limit then n * 10 + (c.toNat - '0'.toNat) else n) 0

/-- A leading sign, and the rest of the text. -/
def sign : List Char → Bool × List Char
  | '-' :: rest => (true, rest)
  | '+' :: rest => (false, rest)
  | text => (false, text)

/-- An integer: an optional sign and at least one decimal digit, nothing else.  Its
    magnitude is read up to a limit. -/
def integerUpTo? (limit : Nat) (text : List Char) : Option Int :=
  let (negative, digits) := sign text
  if digits.isEmpty || !digits.all Char.isDigit then none
  else
    let magnitude : Int := valueUpTo limit digits
    some (if negative then -magnitude else magnitude)

/-- An integer, which is exact if its magnitude has at most 64 bits.  Of a greater one as
    much is read as takes more bits. -/
def integer? (text : List Char) : Option Int := integerUpTo? 0x10000000000000000 text

/-- The digits after an exponent mark, with their sign; no mark means zero. -/
def exponent? : List Char → Option Int
  | [] => some 0
  | c :: rest => if c = 'e' || c = 'E' then integerUpTo? 0x10000 rest else none

/-- The magnitude that a text of a real number states. -/
inductive Magnitude where
  /-- The number `coefficient * 10 ^ exponent`. -/
  | decimal (coefficient : Nat) (exponent : Int)
  | infinity
  | nan

/-- The first 800 significant digits and the number of those after them.  Of the others it
    matters only whether all are zero, because a number half way between two floats has
    fewer digits; a one stands for them if not. -/
def significant (digits : List Char) : List Char × Nat :=
  let (kept, others) := (digits.dropWhile (· == '0')).splitAt 800
  if others.all (· == '0') then (kept, others.length) else (kept ++ ['1'], others.length - 1)

/-- A decimal fraction without sign: digits on at least one side of an optional
    point, then an optional exponent. -/
def decimal? (text : List Char) : Option Magnitude :=
  let whole := text.takeWhile Char.isDigit
  let afterWhole := text.dropWhile Char.isDigit
  let (places, rest) := match afterWhole with
    | '.' :: tail => (tail.takeWhile Char.isDigit, tail.dropWhile Char.isDigit)
    | other => ([], other)
  let digits := whole ++ places
  if digits.isEmpty then none
  else
    let (kept, omitted) := significant digits
    (exponent? rest).map fun e => .decimal (digitsValue kept) (e - places.length + omitted)

/-- A decimal fraction, or one of the words for infinity and NaN in any case. -/
def magnitude? (text : List Char) : Option Magnitude :=
  let word := String.ofList (text.map Char.toLower)
  if word = "inf" || word = "infinity" then some .infinity
  else if word = "nan" then some .nan
  else decimal? text

/-- An exponent far outside the range of floats is decided by the magnitude alone. -/
def clamp : Magnitude → Magnitude
  | .decimal coefficient exponent =>
    let size := (Nat.toDigits 10 coefficient).length + exponent
    if coefficient = 0 || size < -400 then .decimal 0 0
    else if 400 < size then .infinity
    else .decimal coefficient exponent
  | other => other

/-- The nearest double. -/
def Magnitude.toFloat (m : Magnitude) : Float :=
  match clamp m with
  | .decimal coefficient exponent =>
    Float.ofScientific coefficient (exponent < 0) exponent.natAbs
  | .infinity => 1.0 / 0.0
  | .nan => 0.0 / 0.0

/-- The nearest number of single precision. -/
def Magnitude.toFloat32 (m : Magnitude) : Float32 :=
  match clamp m with
  | .decimal coefficient exponent =>
    Float32.ofScientific coefficient (exponent < 0) exponent.natAbs
  | .infinity => 1.0 / 0.0
  | .nan => 0.0 / 0.0

/-- A signed real number, rounded to the nearest double. -/
def float? (text : List Char) : Option Float :=
  let (negative, body) := sign text
  (magnitude? body).map fun m => if negative then -m.toFloat else m.toFloat

/-- A signed real number, rounded to the nearest number of single precision. -/
def float32? (text : List Char) : Option Float32 :=
  let (negative, body) := sign text
  (magnitude? body).map fun m => if negative then -m.toFloat32 else m.toFloat32

end DataExpr.Read

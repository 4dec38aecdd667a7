import DataExpr.Error

/-!
# Arithmetic on values

Integer arithmetic is exact and fails when the result does not fit in 64 bits.
As soon as one operand is a float, both are promoted and the result is a float.
Division always gives a float; the floored quotient and the modulo follow the
sign of the divisor.
-/

namespace DataExpr

/-- A number as arithmetic sees it. -/
inductive Number where
  | int (n : Int64)
  | float (x : Double)

namespace Number

def toDouble : Number → Double
  | .int n => Value.promote n
  | .float x => x

def toFloat (n : Number) : Float := n.toDouble.toFloat

end Number

/-- The integer as a value, when it fits in 64 bits. -/
def Value.ofInt? (n : Int) : Option Value :=
  if -0x8000000000000000 ≤ n ∧ n < 0x8000000000000000 then some (.int (Int64.ofInt n)) else none

/-- The integer as a value, or an overflow of the operation. -/
def Value.checked (operation : String) (n : Int) : Except Error Value :=
  match Value.ofInt? n with
  | some v => .ok v
  | none => .error (.overflow operation)

/-- A power with a natural exponent, when it fits in 64 bits.  Beyond 64 factors of
    a magnitude above one it never does. -/
def boundedPow? (base : Int) (exponent : Nat) : Option Int :=
  if base = 0 then some (if exponent = 0 then 1 else 0)
  else if base = 1 then some 1
  else if base = -1 then some (if exponent % 2 = 0 then 1 else -1)
  else if 64 ≤ exponent then none
  else some (Int.pow base exponent)

namespace Value

def number? : Value → Option Number
  | .int n => some (.int n)
  | .float x => some (.float x)
  | _ => none

/-- Both operands as numbers, or a type mismatch of the operation. -/
def numbers (operation : String) (a b : Value) : Except Error (Number × Number) :=
  match a.number?, b.number? with
  | some x, some y => .ok (x, y)
  | _, _ => .error (.ofOperands operation [a, b])

def add (a b : Value) : Except Error Value :=
  match a, b with
  | .str s, .str t => .ok (.str (s ++ t))
  | .list xs, .list ys => .ok (.list (xs ++ ys))
  | .tuple xs, .tuple ys => .ok (.tuple (xs ++ ys))
  | a, b => do
    match ← numbers "+" a b with
    | (.int m, .int n) => checked "+" (m.toInt + n.toInt)
    | (x, y) => .ok (ofFloat (x.toFloat + y.toFloat))

def sub (a b : Value) : Except Error Value := do
  match ← numbers "-" a b with
  | (.int m, .int n) => checked "-" (m.toInt - n.toInt)
  | (x, y) => .ok (ofFloat (x.toFloat - y.toFloat))

def mul (a b : Value) : Except Error Value := do
  match ← numbers "*" a b with
  | (.int m, .int n) => checked "*" (m.toInt * n.toInt)
  | (x, y) => .ok (ofFloat (x.toFloat * y.toFloat))

/-- The quotient, always a float. -/
def div (a b : Value) : Except Error Value := do
  let (x, y) ← numbers "/" a b
  if y.toDouble.isZero then .error .divisionByZero
  else .ok (ofFloat (x.toFloat / y.toFloat))

/-- The largest whole number that is not above the quotient. -/
def floorDiv (a b : Value) : Except Error Value := do
  match ← numbers "//" a b with
  | (.int m, .int n) =>
    if n = 0 then .error .divisionByZero else checked "//" (m.toInt.fdiv n.toInt)
  | (x, y) =>
    if y.toDouble.isZero then .error .divisionByZero
    else
      match Double.ofFloat? (x.toFloat / y.toFloat) with
      | some q => .ok (.float q.floor)
      | none => .ok .null

/-- The remainder that goes with the floored quotient; it has the sign of the divisor.
    The least integer has no remainder by minus one. -/
def rem (a b : Value) : Except Error Value := do
  match ← numbers "%" a b with
  | (.int m, .int n) =>
    if n = 0 then .error .divisionByZero
    else if m.toInt = -0x8000000000000000 ∧ n.toInt = -1 then .error (.overflow "%")
    else .ok (.int (Int64.ofInt (m.toInt.fmod n.toInt)))
  | (x, y) =>
    let divisor := y.toDouble
    if divisor.isZero then .error .divisionByZero
    else
      match x.toDouble.rem? divisor with
      | none => .ok .null
      | some r =>
        if !r.isZero && r.isNegative != divisor.isNegative then
          .ok (ofFloat (r.toFloat + divisor.toFloat))
        else .ok (.float r)

/-- The power.  Between integers it is exact for exponents of 32 bits that are not
    negative, and a larger exponent overflows. -/
def pow (a b : Value) : Except Error Value := do
  match ← numbers "**" a b with
  | (.int m, .int n) =>
    if 0 ≤ n then
      if 0x100000000 ≤ n.toInt then .error (.overflow "**")
      else
        match boundedPow? m.toInt n.toInt.toNat with
        | some p => checked "**" p
        | none => .error (.overflow "**")
    else .ok (ofFloat (Float.pow (promote m).toFloat (promote n).toFloat))
  | (x, y) => .ok (ofFloat (Float.pow x.toFloat y.toFloat))

def neg : Value → Except Error Value
  | .int n => checked "unary -" (-n.toInt)
  | .float x => .ok (.float x.neg)
  | v => .error (.ofOperands "unary -" [v])

end Value
end DataExpr

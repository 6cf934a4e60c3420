import TypedBlocks.Decimal.Shortest

/-!
# Writing and reading decimals

How a double is laid out is one record, `Format`. The two layouts of this library are `Format.plain`
for values that a program shows and `Format.json` for numbers inside a JSON text. `Decimal.read?`
reads both, and everything else that is a decimal number.
-/
namespace TypedBlocks.Decimal

structure Format where
  tie : TieRule
  /-- The decimal point may stand this many digits before the first significant one. -/
  mostLeadingZeros : Int
  /-- The point stands at most this many digits after the first significant one. -/
  mostWholeDigits : Int
  /-- What stands before the digits of an exponent that is not negative. -/
  exponentPlus : String
  notANumber : String
  infinity : String
  negativeInfinity : String

/-- Positional from a ten-thousandth up to `10 ^ 16`, with a digit on both sides of the point. -/
def Format.plain : Format := ⟨.up, 3, 16, "", "NaN", "inf", "-inf"⟩

/-- As `plain`, but positional from a hundred-thousandth, and a tie goes to the even digit. An
exponent always has a sign, and what is not finite is `null`. -/
def Format.json : Format := ⟨.toEven, 4, 16, "+", "null", "null", "null"⟩

/-- The exponent of a decimal after its mark. -/
def Format.exponentText (f : Format) (e : Int) : String :=
  if 0 ≤ e then f.exponentPlus ++ toString e else toString e

def zeros (n : Nat) : String := String.ofList (List.replicate n '0')

/-- Lay out a positive decimal. -/
def Format.layout (f : Format) (s : Scaled) : String :=
  let digits := Nat.toDigits 10 s.significand
  let count := digits.length
  let point : Int := s.exponent + count
  if point ≤ f.mostWholeDigits && -f.mostLeadingZeros ≤ point then
    if 0 ≤ s.exponent then String.ofList digits ++ zeros s.exponent.toNat ++ ".0"
    else if 0 < point then
      String.ofList (digits.take point.toNat) ++ "." ++ String.ofList (digits.drop point.toNat)
    else "0." ++ zeros (-point).toNat ++ String.ofList digits
  else
    let tail := digits.drop 1
    let fraction := if tail.isEmpty then "" else "." ++ String.ofList tail
    String.ofList (digits.take 1) ++ fraction ++ "e" ++ f.exponentText (point - 1)

/-- The text of a double. -/
def Format.text (f : Format) (x : Float) : String :=
  if x.isNaN then f.notANumber
  else if x.isInf then if Binary64.isNegative x then f.negativeInfinity else f.infinity
  else
    let magnitude := if x == 0 then "0.0" else f.layout (shortest f.tie x)
    if Binary64.isNegative x then "-" ++ magnitude else magnitude

/-- The value of a run of decimal digits. -/
def natOfDigits (ds : List Char) : Nat :=
  ds.foldl (fun n c => 10 * n + (c.toNat - '0'.toNat)) 0

/-- The double closest to `significand * 10 ^ exponent`. -/
def toFloat (negative : Bool) (s : Scaled) : Float :=
  if 0 ≤ s.exponent then Binary64.nearest negative (s.significand * Nat.pow 10 s.exponent.toNat) 1
  else Binary64.nearest negative s.significand (Nat.pow 10 (-s.exponent).toNat)

/-- An exponent, or its absence at the end of the text. Only so many of its digits matter that every
significand of the given length over- or underflows. -/
def readExponent? (cs : List Char) : Option Int :=
  match cs with
  | [] => some 0
  | e :: rest =>
    if e == 'e' || e == 'E' then
      let (negative, ds) := match rest with
        | '-' :: ds => (true, ds)
        | '+' :: ds => (false, ds)
        | ds => (false, ds)
      if !ds.isEmpty && ds.all Char.isDigit then
        let n : Int := natOfDigits ds
        some (if negative then -n else n)
      else none
    else none

/-- Cut an exponent to the range beyond which every number of the given length is zero or
infinite. -/
def clampExponent (digits : Nat) (e : Int) : Int :=
  max (-(400 + digits : Int)) (min (400 + digits) e)

/-- Read digits with an optional point and an optional exponent. -/
def readMagnitude? (negative : Bool) (cs : List Char) : Option Float :=
  let whole := cs.takeWhile Char.isDigit
  let rest := cs.dropWhile Char.isDigit
  let (fraction, rest) := match rest with
    | '.' :: rest => (rest.takeWhile Char.isDigit, rest.dropWhile Char.isDigit)
    | rest => ([], rest)
  let digits := whole ++ fraction
  if digits.isEmpty then none
  else (readExponent? rest).map fun e =>
    toFloat negative ⟨natOfDigits digits, clampExponent digits.length (e - fraction.length)⟩

/-- Read a decimal number, or one of the words for what is not a number or not finite. -/
def read? (text : String) : Option Float :=
  let (negative, cs) := match text.toList with
    | '-' :: cs => (true, cs)
    | '+' :: cs => (false, cs)
    | cs => (false, cs)
  let sign : Nat := if negative then Binary64.signBit else 0
  match String.ofList (cs.map Char.toLower) with
  | "nan" => some (Float.ofBits (UInt64.ofNat (0x7ff8000000000000 + sign)))
  | "inf" | "infinity" => some (Float.ofBits (UInt64.ofNat (0x7ff0000000000000 + sign)))
  | _ => readMagnitude? negative cs

end TypedBlocks.Decimal

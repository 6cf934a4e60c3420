/-!
# Double precision numbers as exact fractions

A finite double is a natural number of units, a unit being a power of two. `Binary64.parts` reads
that form off the bits; `Binary64.nearest` goes the other way and rounds a fraction of natural
numbers to the closest double, a half to the even neighbour.
-/
namespace TypedBlocks.Binary64

/-- The magnitude `units * 2 ^ exponent` of a finite double. -/
structure Parts where
  units : Nat
  exponent : Int
  deriving DecidableEq, Repr

/-- Exponent of the smallest positive double, and of the unit of every number near zero. -/
def leastExponent : Int := -1074

/-- A normal number counts at least this many units. -/
def leastNormal : Nat := Nat.pow 2 52

/-- The bit that is set in negative numbers. -/
def signBit : Nat := Nat.pow 2 63

def isNegative (x : Float) : Bool := x.toBits.toNat / signBit == 1

/-- Units and exponent of a finite double; the bits of the sign do not matter. -/
def parts (x : Float) : Parts :=
  let bits := x.toBits.toNat
  let fraction : Nat := bits % leastNormal
  let field : Nat := bits / leastNormal % 2048
  if field == 0 then ⟨fraction, leastExponent⟩
  else ⟨leastNormal + fraction, leastExponent + (field - 1 : Nat)⟩

/-- Quotient of naturals rounded to the nearest natural, a half to the even one. -/
def divNearest (num den : Nat) : Nat :=
  let q := num / den
  let r := num % den
  if 2 * r < den || (2 * r == den && q % 2 == 0) then q else q + 1

/-- `n * 2 ^ e` as numerator and denominator of a fraction over `den`. -/
def scale (num den : Nat) (e : Int) : Nat × Nat :=
  if 0 ≤ e then (num * Nat.pow 2 e.toNat, den)
  else (num, den * Nat.pow 2 (-e).toNat)

/-- Bits of the double with the given number of units, which may just have reached the next
binade. -/
def bitsOf (units : Nat) (exponent : Int) : Nat :=
  let field := if units < leastNormal then 0 else (exponent - leastExponent).toNat + 1
  let bits := if units < leastNormal then units else field * leastNormal + (units - leastNormal)
  min bits (2047 * leastNormal)

/-- Bits of the double closest to `num / den`; what is too large becomes infinity. -/
def nearestBits (num den : Nat) : Nat :=
  if num == 0 then 0
  else
    let guess : Int := (num.log2 : Int) - (den.log2 : Int) - 52
    let fits (e : Int) : Bool :=
      let (n, d) := scale num den (-e)
      decide (n < 2 * leastNormal * d)
    let e := if fits (guess - 1) then guess - 1 else if fits guess then guess else guess + 1
    let e := max e leastExponent
    let (n, d) := scale num den (-e)
    bitsOf (divNearest n d) e

/-- The double closest to `num / den`, negated if asked. -/
def nearest (negative : Bool) (num den : Nat) : Float :=
  Float.ofBits (UInt64.ofNat (nearestBits num den + if negative then signBit else 0))

/-- Remainder of a division that cuts toward zero. It is exact and has the sign of the dividend. -/
def remainder (x y : Float) : Float :=
  if x.isNaN || y.isNaN || x.isInf || y == 0 then Float.ofBits 0x7ff8000000000000
  else if y.isInf || x == 0 then x
  else
    let a := parts x
    let b := parts y
    let e := min a.exponent b.exponent
    let n := a.units * Nat.pow 2 (a.exponent - e).toNat
    let d := b.units * Nat.pow 2 (b.exponent - e).toNat
    let (num, den) := scale (n % d) 1 e
    nearest (isNegative x) num den

end TypedBlocks.Binary64

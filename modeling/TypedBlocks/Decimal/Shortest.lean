import TypedBlocks.Decimal.Binary64

/-!
# Shortest decimals

The decimal numbers that read back as a given double fill an interval around it. `Shortest.digits`
picks one with the fewest digits, and of those the closest to the double; which of two equally close
ones it takes is the caller's choice.
-/
namespace TypedBlocks.Decimal

/-- The number `significand * 10 ^ exponent`. -/
structure Scaled where
  significand : Nat
  exponent : Int
  deriving DecidableEq, Repr

/-- Which of two equally close decimals is taken. -/
inductive TieRule where
  | up | toEven
  deriving DecidableEq, Repr

namespace Shortest

/-- A positive double and its neighbourhood over one denominator: the number itself and the two ends
of the interval of reals that round to it. -/
structure Interval where
  low : Nat
  value : Nat
  high : Nat
  denominator : Nat
  closed : Bool
  deriving DecidableEq, Repr

/-- The reals that round to `units * 2 ^ exponent`. Below a power of two the doubles lie twice as
close, and the ends belong to the interval exactly when the number of units is even. -/
def interval (p : Binary64.Parts) : Interval :=
  let (unit, den) := Binary64.scale 1 4 p.exponent
  let narrow := p.units == Binary64.leastNormal && p.exponent != Binary64.leastExponent
  ⟨(4 * p.units - if narrow then 1 else 2) * unit, 4 * p.units * unit, (4 * p.units + 2) * unit,
    den, p.units % 2 == 0⟩

/-- The interval measured in steps of `10 ^ k`. -/
def Interval.rescale (i : Interval) (k : Int) : Interval :=
  if 0 ≤ k then { i with denominator := i.denominator * Nat.pow 10 k.toNat }
  else
    let f := Nat.pow 10 (-k).toNat
    { i with low := i.low * f, value := i.value * f, high := i.high * f }

/-- The natural number `c` lies in the interval. -/
def Interval.admits (i : Interval) (c : Nat) : Bool :=
  let x := c * i.denominator
  if i.closed then i.low ≤ x && x ≤ i.high else i.low < x && x < i.high

/-- Of the two natural numbers around the value the one to take, if either lies in the interval. -/
def Interval.pick (tie : TieRule) (i : Interval) : Option Nat :=
  let below := i.value / i.denominator
  let above := below + 1
  match i.admits below, i.admits above with
  | false, false => none
  | true, false => some below
  | false, true => some above
  | true, true =>
    let down := i.value - below * i.denominator
    let up := above * i.denominator - i.value
    let takeAbove := up < down || (up == down && (tie == .up || below % 2 == 1))
    some (if takeAbove then above else below)

/-- The least `k` with `value < 10 ^ k`, searched upward from `k` for as long as the fuel lasts. -/
def magnitude (i : Interval) : Nat → Int → Int
  | 0, k => k
  | fuel + 1, k =>
    let j := i.rescale k
    if j.value < j.denominator then k else magnitude i fuel (k + 1)

/-- A power of ten that lies below the value by at most two. -/
def magnitudeGuess (i : Interval) : Int :=
  let log := (i.value.log2 : Int) - (i.denominator.log2 : Int) - 1
  Int.fdiv (log * 30103) 100000 - 1

/-- The first grid of `n`, `n + 1`, … digits on which a decimal falls into the interval. -/
def search (tie : TieRule) (i : Interval) (top : Int) : Nat → Nat → Scaled
  | 0, _ => ⟨0, 0⟩
  | fuel + 1, n =>
    let k := top - n
    match (i.rescale k).pick tie with
    | some c => ⟨c, k⟩
    | none => search tie i top fuel (n + 1)

/-- Seventeen digits always suffice to tell doubles apart. -/
def mostDigits : Nat := 17

/-- Drop the zeros at the end of the significand. -/
def trim : Nat → Scaled → Scaled
  | 0, s => s
  | fuel + 1, s =>
    if s.significand != 0 && s.significand % 10 == 0 then
      trim fuel ⟨s.significand / 10, s.exponent + 1⟩
    else s

end Shortest

/-- The shortest decimal that reads back as the finite, non-zero double `x`, without its sign. -/
def shortest (tie : TieRule) (x : Float) : Scaled :=
  let i := Shortest.interval (Binary64.parts x)
  let top := Shortest.magnitude i 8 (Shortest.magnitudeGuess i)
  Shortest.trim 18 (Shortest.search tie i top Shortest.mostDigits 1)

end TypedBlocks.Decimal

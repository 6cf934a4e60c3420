import TypedBlocks.Evaluation.Fault

/-!
# Running primitive operations

Integers wrap around; division and remainder cut toward zero and fail when the result does not exist
or does not fit. As soon as a float is among the operands, the operation is one on floats.
-/
namespace TypedBlocks.Primitive

/-- An operation on two integers; none if it divides by zero or the quotient does not fit. -/
def onInts? (p : Primitive) (a b : Int64) : Option Int64 :=
  let divisible := b != 0 && !(a == Int64.minValue && b == -1)
  match p with
  | add => some (a + b)
  | sub => some (a - b)
  | mul => some (a * b)
  | div => if divisible then some (a / b) else none
  | _ => if divisible then some (a % b) else none

def onFloats (p : Primitive) (a b : Float) : Float :=
  match p with
  | add => a + b
  | sub => a - b
  | mul => a * b
  | div => a / b
  | _ => Binary64.remainder a b

def compareInts (p : Primitive) (a b : Int64) : Bool :=
  match p with
  | lt => a < b
  | le => a ≤ b
  | gt => a > b
  | _ => a ≥ b

def compareFloats (p : Primitive) (a b : Float) : Bool :=
  match p with
  | lt => a < b
  | le => a ≤ b
  | gt => a > b
  | _ => a ≥ b

def operandFault (p : Primitive) (receiver : Value) (arguments : List Value) : Fault :=
  .invalidOperands p ((receiver :: arguments).map Value.className)

/-- Arithmetic on two numbers; none if one of the values is no number. -/
def arithmetic? (p : Primitive) : Value → Value → Option (Except Fault Value)
  | .int a, .int b =>
    match p.onInts? a b with
    | some n => some (.ok (.int n))
    | none => some (.error .divisionByZero)
  | v, w =>
    match v.toFloat?, w.toFloat? with
    | some a, some b => some (.ok (.float (p.onFloats a b)))
    | _, _ => none

def comparison? (p : Primitive) : Value → Value → Option Bool
  | .int a, .int b => some (p.compareInts a b)
  | v, w =>
    match v.toFloat?, w.toFloat? with
    | some a, some b => some (p.compareFloats a b)
    | _, _ => none

/-- The result of an operation; arguments beyond the first do not matter. -/
def apply (p : Primitive) (receiver : Value) (arguments : List Value) : Except Fault Value :=
  let fail := Except.error (p.operandFault receiver arguments)
  match p, arguments.head? with
  | add, some v | sub, some v | mul, some v | div, some v | mod, some v =>
    (p.arithmetic? receiver v).getD fail
  | neg, _ =>
    match receiver with
    | .int n => .ok (.int (-n))
    | .float x => .ok (.float (-x))
    | _ => fail
  | lt, some v | le, some v | gt, some v | ge, some v =>
    match p.comparison? receiver v with
    | some b => .ok (.bool b)
    | none => fail
  | eq, some v => .ok (.bool (v == receiver))
  | eq, none => .ok (.bool false)
  | ne, some v => .ok (.bool (v != receiver))
  | ne, none => .ok (.bool true)
  | isNil, _ =>
    match receiver with
    | .nil => .ok (.bool true)
    | _ => .ok (.bool false)
  | toInt, _ =>
    match receiver with
    | .int n => .ok (.int n)
    | .float x => .ok (.int x.toInt64)
    | .nil => .ok (.int 0)
    | _ => fail
  | toFloat, _ =>
    match receiver.toFloat? with
    | some x => .ok (.float x)
    | none => fail
  | concat, some v =>
    match receiver, v with
    | .string s, .string t => .ok (.string (s ++ t))
    | _, _ => fail
  | _, _ => fail

end TypedBlocks.Primitive

import TypedBlocks.Ty.Basic

/-!
# Primitive operations

The methods that numbers, strings, nil and all values have without a definition: which operation a
name stands for, given the types of receiver and arguments, and the type of its result.
-/
namespace TypedBlocks

inductive Primitive where
  | add | sub | mul | div | mod | neg
  | lt | le | gt | ge | eq | ne
  | toInt | toFloat | isNil | concat
  deriving DecidableEq, Repr

/-- A class of operand types. -/
inductive OperandKind where
  | any | numeric | nil | string
  deriving DecidableEq, Repr

def OperandKind.admits (k : OperandKind) (t : Ty) : Bool :=
  match k with
  | any => true
  | numeric => t.className? == some "Int" || t.className? == some "Float"
  | nil => t.isNil
  | string => t.className? == some "String"

namespace Primitive

/-- The name of an operation in messages and in written programs. -/
def text : Primitive → String
  | add => "Add"
  | sub => "Sub"
  | mul => "Mul"
  | div => "Div"
  | mod => "Mod"
  | neg => "Neg"
  | lt => "Lt"
  | le => "Le"
  | gt => "Gt"
  | ge => "Ge"
  | eq => "Eq"
  | ne => "Ne"
  | toInt => "ToI"
  | toFloat => "ToF"
  | isNil => "IsNil"
  | concat => "Concat"

structure Signature where
  name : String
  operation : Primitive
  receiver : OperandKind
  parameters : List OperandKind
  deriving DecidableEq, Repr

def signatures : List Signature :=
  [⟨"+", add, .numeric, [.numeric]⟩,
    ⟨"-", sub, .numeric, [.numeric]⟩,
    ⟨"*", mul, .numeric, [.numeric]⟩,
    ⟨"/", div, .numeric, [.numeric]⟩,
    ⟨"%", mod, .numeric, [.numeric]⟩,
    ⟨"-", neg, .numeric, []⟩,
    ⟨"<", lt, .numeric, [.numeric]⟩,
    ⟨"<=", le, .numeric, [.numeric]⟩,
    ⟨">", gt, .numeric, [.numeric]⟩,
    ⟨">=", ge, .numeric, [.numeric]⟩,
    ⟨"to_i", toInt, .numeric, []⟩,
    ⟨"to_i", toInt, .nil, []⟩,
    ⟨"to_f", toFloat, .numeric, []⟩,
    ⟨"+", concat, .string, [.string]⟩,
    ⟨"==", eq, .any, [.any]⟩,
    ⟨"!=", ne, .any, [.any]⟩,
    ⟨"nil?", isNil, .any, []⟩]

/-- Each argument is admitted by its parameter, and none is left over. -/
def admitsAll : List OperandKind → List Ty → Bool
  | [], [] => true
  | k :: ks, t :: ts => k.admits t && admitsAll ks ts
  | _, _ => false

def Signature.admits (s : Signature) (receiver : Ty) (name : String) (arguments : List Ty) : Bool :=
  s.name == name && s.receiver.admits receiver && admitsAll s.parameters arguments

/-- The operation that a name stands for; the first signature that fits decides. -/
def resolve? (receiver : Ty) (name : String) (arguments : List Ty) : Option Primitive :=
  (signatures.find? fun s => s.admits receiver name arguments).map (·.operation)

/-- Type of the result. Arithmetic gives a float as soon as one operand is one. -/
def resultTy (p : Primitive) (receiver : Ty) (arguments : List Ty) : Ty :=
  match p with
  | add | sub | mul | div | mod | neg =>
    if (receiver :: arguments).any fun t => t.className? == some "Float" then Ty.float else Ty.int
  | lt | le | gt | ge | eq | ne | isNil => Ty.bool
  | toInt => Ty.int
  | toFloat => Ty.float
  | concat => Ty.string

end Primitive

end TypedBlocks

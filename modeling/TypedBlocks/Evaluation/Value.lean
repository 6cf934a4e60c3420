import TypedBlocks.Decimal.Format
import TypedBlocks.Ty.Basic

/-!
# Values

What expressions evaluate to. Objects are compared by identity, numbers by what they stand for; an
integer and a float are equal if the integer converts to the float.
-/
namespace TypedBlocks

/-- An object: its place in the heap and the class it was made from, which never changes. -/
structure ObjectRef where
  index : Nat
  className : String
  deriving DecidableEq, Repr

inductive Value where
  | nil
  | int (value : Int64)
  | float (value : Float)
  | bool (value : Bool)
  | char (value : Char)
  | string (value : String)
  | object (ref : ObjectRef)
  /-- A class, as the receiver of `new`. -/
  | classObject (name : String)
  | main
  deriving Repr

namespace Value

instance : Inhabited Value := ⟨nil⟩

/-- Everything counts as true but nil and false. -/
def countsAsTrue : Value → Bool
  | nil => false
  | bool b => b
  | _ => true

/-- The class that dispatch looks at. -/
def className : Value → String
  | nil => "Nil"
  | int _ => "Int"
  | float _ => "Float"
  | bool _ => "Bool"
  | char _ => "Char"
  | string _ => "String"
  | object r => r.className
  | classObject _ => "Class"
  | main => "Main"

def toInt? : Value → Option Int64
  | int n => some n
  | _ => none

/-- The number as a float. -/
def toFloat? : Value → Option Float
  | int n => some n.toFloat
  | float x => some x
  | _ => none

protected def same : Value → Value → Bool
  | nil, nil => true
  | main, main => true
  | int a, int b => a == b
  | float a, float b => a == b
  | int a, float b => a.toFloat == b
  | float a, int b => b.toFloat == a
  | bool a, bool b => a == b
  | char a, char b => a == b
  | string a, string b => a == b
  | object a, object b => a.index == b.index
  | classObject a, classObject b => a == b
  | _, _ => false

instance : BEq Value := ⟨Value.same⟩

def text : Value → String
  | nil => "nil"
  | int n => toString n.toInt
  | float x => Decimal.Format.plain.text x
  | bool b => if b then "true" else "false"
  | char c => "'" ++ String.singleton c ++ "'"
  | string s => s
  | object r => "#<" ++ r.className ++ ">"
  | classObject name => name
  | main => "main"

/-- The value is an instance of a type that is no union. An object of a class that shares its name
with a simple type counts as an instance of that type. -/
def isInstanceOf (v : Value) (t : Ty) : Bool :=
  match t, v with
  | .simple (.classOf name), .classObject c => name == c
  | .object name _, .object r => name == r.className
  | .simple s, v => s.className == v.className
  | _, _ => false

end Value

/-- The bindings of instance variables, globals or constants. -/
abbrev Bindings := List (String × Value)

namespace Bindings

def set (name : String) (v : Value) : Bindings → Bindings
  | [] => [(name, v)]
  | (n, w) :: bs => if n == name then (n, v) :: bs else (n, w) :: set name v bs

end Bindings

end TypedBlocks

/-!
# Types

A type is a simple type, an object type with the types of its instance variables, or a union. Two
types are the same when they have the same members: a union of one member is that member, and
neither the order of members nor that of variables counts. `Ty.union` keeps members flat and
without repetition; every type is built through it, `Ty.object` and `Ty.withVar`.
-/
namespace TypedBlocks

/-- A type without parts. -/
inductive SimpleTy where
  | nil | bool | int | float | char | string
  /-- The object that `self` is outside of every class. -/
  | main
  /-- A class itself, the receiver of `new`. -/
  | classOf (name : String)
  deriving DecidableEq, Repr

inductive Ty where
  | simple (type : SimpleTy)
  | object (name : String) (vars : List (String × Ty))
  | union (members : List Ty)
  deriving Repr

namespace SimpleTy

/-- The class that dispatch starts from. -/
def className : SimpleTy → String
  | nil => "Nil"
  | bool => "Bool"
  | int => "Int"
  | float => "Float"
  | char => "Char"
  | string => "String"
  | main => "Main"
  | classOf _ => "Class"

def text : SimpleTy → String
  | classOf name => name ++ ":Class"
  | t => t.className

end SimpleTy

namespace Ty

instance : Inhabited Ty := ⟨.simple .nil⟩

def nil : Ty := .simple .nil

def bool : Ty := .simple .bool

def int : Ty := .simple .int

def float : Ty := .simple .float

def char : Ty := .simple .char

def string : Ty := .simple .string

def main : Ty := .simple .main

def classOf (name : String) : Ty := .simple (.classOf name)

/-- An object of the class, without a word about its variables. -/
def instanceOf (name : String) : Ty := .object name []

/-- The types that are no unions and together make up the type. -/
def members : Ty → List Ty
  | .union ms => ms
  | t => [t]

/-- The type itself, or the only member of a union; none for any other union. -/
def only? : Ty → Option Ty
  | .union [t] => some t
  | .union _ => none
  | t => some t

/-- A union of one member stands for that member. -/
def collapse : Ty → Ty
  | .union [t] => t
  | t => t

def isUnion (t : Ty) : Bool := t.members.length > 1

def isNil (t : Ty) : Bool :=
  match t.only? with
  | some (.simple .nil) => true
  | _ => false

/-- Name of the class of a type that is no union. -/
def className? (t : Ty) : Option String :=
  match t.only? with
  | some (.simple s) => some s.className
  | some (.object name _) => some name
  | _ => none

mutual

/-- The two types have the same members. -/
def same : Ty → Ty → Bool
  | .simple s, u =>
    match u.collapse with
    | .simple s' => s == s'
    | _ => false
  | .object name vs, u =>
    match u.collapse with
    | .object name' ws => name == name' && vs.length == ws.length && sameVars vs ws
    | _ => false
  | .union [t], u => t.same u
  | .union ts, u =>
    match u.collapse with
    | .union us => ts.length == us.length && sameMembers ts us
    | _ => false

/-- Every variable of the first list is bound to the same type in the second. -/
def sameVars : List (String × Ty) → List (String × Ty) → Bool
  | [], _ => true
  | (name, t) :: vs, ws =>
    (match ws.lookup name with
      | some u => t.same u
      | none => false) && sameVars vs ws

/-- Every type of the first list is the same as one of the second. -/
def sameMembers : List Ty → List Ty → Bool
  | [], _ => true
  | t :: ts, us => us.any (fun u => t.same u) && sameMembers ts us

end

instance : BEq Ty := ⟨same⟩

/-- Add a type to a list unless the list holds it already. -/
def insertNew (ts : List Ty) (t : Ty) : List Ty := if ts.any (· == t) then ts else ts ++ [t]

/-- The types without repetition, in the order of their first occurrence. -/
def distinct (ts : List Ty) : List Ty := ts.foldl insertNew []

/-- The members of all types, each once. -/
def distinctMembers (ts : List Ty) : List Ty := distinct (ts.flatMap members)

/-- The union of types, which stays one with no or one member. -/
def unionOf (ts : List Ty) : Ty := .union (distinctMembers ts)

/-- The smallest type that covers both. -/
def join (t u : Ty) : Ty := (unionOf [t, u]).collapse

/-- The smallest type that covers all, or none if they have no members. -/
def merge? (ts : List Ty) : Option Ty :=
  if (distinctMembers ts).isEmpty then none else some (unionOf ts).collapse

/-- Join what two paths produce, where a path may produce nothing. -/
def mergeOption : Option Ty → Option Ty → Option Ty
  | some t, some u => some (t.join u)
  | some t, none => some t
  | none, u => u

/-- Bind a variable in a list, in place if it is bound there already. -/
def bindVar (name : String) (t : Ty) : List (String × Ty) → List (String × Ty)
  | [] => [(name, t)]
  | (n, u) :: vs => if n == name then (n, t) :: vs else (n, u) :: bindVar name t vs

/-- The object type with a variable bound; any other type stays as it is. -/
def withVar (t : Ty) (name : String) (u : Ty) : Ty :=
  match t with
  | .object n vs => .object n (bindVar name u vs)
  | t => t

/-- The type of an instance variable. -/
def var? (t : Ty) (name : String) : Option Ty :=
  match t with
  | .object _ vs => vs.lookup name
  | _ => none

mutual

def text : Ty → String
  | .simple s => s.text
  | .object name [] => name
  | .object name (v :: vs) => name ++ "(" ++ varText v ++ varsText vs ++ ")"
  | .union [] => ""
  | .union (t :: ts) => t.text ++ membersText ts

def varText : String × Ty → String
  | (name, t) => name ++ " : " ++ t.text

def varsText : List (String × Ty) → String
  | [] => ""
  | v :: vs => ", " ++ varText v ++ varsText vs

def membersText : List Ty → String
  | [] => ""
  | t :: ts => " | " ++ t.text ++ membersText ts

end

instance : ToString Ty := ⟨text⟩

end Ty

end TypedBlocks

import TypedBlocks.Program.Definitions
import TypedBlocks.Ty.Completion

/-!
# Inferred types

What inference learns in a pass: the types of variables by scope, of method results by receiver and
arguments, of instance variables by class, and of globals and constants. All keys that hold types
are compared up to sameness of types. An entry only ever grows by union with another type.
-/
namespace TypedBlocks.Inference

/-- Types that are the same, one by one. -/
def sameTypes : List Ty → List Ty → Bool
  | [], [] => true
  | t :: ts, u :: us => t == u && sameTypes ts us
  | _, _ => false

/-- A method for one choice of receiver and argument types. -/
structure Instantiation where
  method : MethodId
  selfType : Ty
  arguments : List Ty

instance : BEq Instantiation :=
  ⟨fun k l => k.method == l.method && k.selfType == l.selfType && sameTypes k.arguments l.arguments⟩

/-- One level of nesting, by text or by expansion. -/
inductive ScopeLevel where
  | main
  | instance (key : Instantiation)
  /-- A method expanded at a call. -/
  | inline (site : NodeId) (key : Instantiation)
  | block (id : NodeId)

instance : BEq ScopeLevel :=
  ⟨fun
    | .main, .main => true
    | .instance k, .instance l => k == l
    | .inline s k, .inline t l => s == t && k == l
    | .block b, .block c => b == c
    | _, _ => false⟩

/-- The nesting of a scope, the innermost level first. Every expansion of a method has scopes of its
own. -/
abbrev ScopeChain := List ScopeLevel

def samePath : ScopeChain → ScopeChain → Bool
  | [], [] => true
  | s :: p, t :: q => s == t && samePath p q
  | _, _ => false

/-- The scope is `outer` or nested in it. -/
def isWithin (path outer : ScopeChain) : Bool :=
  outer.length ≤ path.length && samePath (path.drop (path.length - outer.length)) outer

/-- A variable of a scope. -/
structure ScopeVar where
  path : ScopeChain
  name : String

instance : BEq ScopeVar := ⟨fun k l => k.name == l.name && samePath k.path l.path⟩

structure Tables where
  vars : List (ScopeVar × Ty)
  /-- Result types; none where no call is known to return. -/
  methods : List (Instantiation × Option Ty)
  /-- Types of instance variables by class. Classes in them are bare names. -/
  layouts : List (String × List (String × Ty))
  globals : List (String × Ty)
  constants : List (String × Ty)

/-- The type reduced to class names: its objects lose what is known about their variables. -/
def bare (t : Ty) : Ty :=
  (Ty.merge? (t.members.map fun
    | .object name _ => Ty.instanceOf name
    | u => u)).getD t

namespace Tables

def empty : Tables := ⟨[], [], [], [], []⟩

def var? (ts : Tables) (key : ScopeVar) : Option Ty := ts.vars.lookup key

def extendVar (ts : Tables) (key : ScopeVar) (t : Ty) : Tables :=
  { ts with vars := extendAt key t ts.vars }

def extendGlobal (ts : Tables) (name : String) (t : Ty) : Tables :=
  { ts with globals := extendAt name t ts.globals }

def extendConstant (ts : Tables) (name : String) (t : Ty) : Tables :=
  { ts with constants := extendAt name t ts.constants }

/-- The result type of a method, as far as it is known. -/
def result? (ts : Tables) (key : Instantiation) : Option Ty := (ts.methods.lookup key).join

/-- Join a result type to the entry of a method. -/
def extendResultIn (key : Instantiation) (t : Option Ty) :
    List (Instantiation × Option Ty) → List (Instantiation × Option Ty)
  | [] => [(key, t)]
  | (k, u) :: entries =>
    if k == key then (k, Ty.mergeOption u t) :: entries else (k, u) :: extendResultIn key t entries

def extendResult (ts : Tables) (key : Instantiation) (t : Option Ty) : Tables :=
  { ts with methods := extendResultIn key t ts.methods }

/-- The present type of a class's objects; classes inside it are bare names. -/
def objectTy (ts : Tables) (className : String) : Ty :=
  .object className ((ts.layouts.lookup className).getD [])

/-- The type with the present layout put in for every object. -/
def withLayouts (ts : Tables) (t : Ty) : Ty :=
  (Ty.merge? (t.members.map fun
    | .object name _ => ts.objectTy name
    | u => u)).getD t

def instanceVar? (ts : Tables) (className name : String) : Option Ty :=
  (ts.layouts.lookup className).bind fun vars => vars.lookup name

/-- Join a type to an instance variable. -/
def extendVarsOf (name : String) (t : Ty) (vars : List (String × Ty)) : List (String × Ty) :=
  match vars.lookup name with
  | some u =>
    let merged := u.join t
    if u == merged then vars else Ty.bindVar name merged vars
  | none => Ty.bindVar name t vars

def extendLayoutIn (className name : String) (t : Ty) :
    List (String × List (String × Ty)) → List (String × List (String × Ty))
  | [] => [(className, extendVarsOf name t [])]
  | (c, vars) :: layouts =>
    if c == className then (c, extendVarsOf name t vars) :: layouts
    else (c, vars) :: extendLayoutIn className name t layouts

def extendLayout (ts : Tables) (className name : String) (t : Ty) : Tables :=
  { ts with layouts := extendLayoutIn className name (bare t) ts.layouts }

/-- The tables with nothing but the layouts left. -/
def layoutsOnly (ts : Tables) : Tables := { empty with layouts := ts.layouts }

/-- Both have the same layouts. Entries keep their order as they grow, so it is enough to compare
place by place. -/
def sameLayouts (ts us : Tables) : Bool :=
  ts.layouts.length == us.layouts.length &&
    (ts.layouts.zip us.layouts).all fun ((c, vars), (d, vars')) =>
      Ty.object c vars == Ty.object d vars'

def sameResults : List (Instantiation × Option Ty) → List (Instantiation × Option Ty) → Bool
  | [], [] => true
  | (k, t) :: es, (l, u) :: fs => k == l && t == u && sameResults es fs
  | _, _ => false

/-- Both hold the same types at the same keys. -/
protected def same (ts us : Tables) : Bool :=
  ts.sameLayouts us && sameEntries ts.vars us.vars && sameResults ts.methods us.methods &&
    sameEntries ts.globals us.globals && sameEntries ts.constants us.constants

end Tables

end TypedBlocks.Inference

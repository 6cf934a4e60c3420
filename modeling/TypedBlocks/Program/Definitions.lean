import TypedBlocks.StaticError
import TypedBlocks.Syntax.Basic
import TypedBlocks.Ty.Basic

/-!
# Definitions of a program

The classes, methods, library functions and constants that stand at the top level of a program's
modules, together with the builtin classes. A class may be opened several times; its first opening
decides its superclass, and builtin classes keep theirs.
-/
namespace TypedBlocks

/-- Number of a method definition, in the order of the text. -/
structure MethodId where
  val : Nat
  deriving DecidableEq, Repr, Inhabited

structure ClassEntry where
  name : String
  superclass : Option String
  methods : List MethodId
  builtin : Bool
  deriving DecidableEq, Repr

structure MethodEntry where
  id : MethodId
  /-- The class of the method; none for a function of the top level. -/
  owner : Option String
  definition : MethodDef
  yields : Bool

namespace MethodEntry

def name (m : MethodEntry) : String := m.definition.name

def parameters (m : MethodEntry) : List Parameter := m.definition.parameters

def arity (m : MethodEntry) : Nat := m.parameters.length

def fullName (m : MethodEntry) : String :=
  match m.owner with
  | some c => c ++ "#" ++ m.name
  | none => m.name

end MethodEntry

structure ForeignEntry where
  lib : String
  name : String
  arity : Nat
  returnType : Option String
  deriving DecidableEq, Repr

namespace ForeignEntry

/-- The function is declared never to come back. -/
def neverReturns (f : ForeignEntry) : Bool := f.returnType == some "NoReturn"

/-- Type of the result; none if the function never comes back. -/
def resultTy? (f : ForeignEntry) : Option Ty :=
  match f.returnType with
  | none | some "Nil" | some "Void" => some Ty.nil
  | some "NoReturn" => none
  | some "Int" => some Ty.int
  | some "Float" => some Ty.float
  | some "Bool" => some Ty.bool
  | some "Char" => some Ty.char
  | some "String" => some Ty.string
  | some c => some (Ty.instanceOf c)

end ForeignEntry

structure Definitions where
  classes : List ClassEntry
  /-- The method with number `n` stands at index `n`. -/
  methods : Array MethodEntry
  /-- The functions of the top level. -/
  globals : List MethodId
  /-- The latest declaration first. -/
  foreigns : List ForeignEntry
  libs : List String
  constants : List String

namespace Definitions

def builtinClasses : List (String × Option String) :=
  [("Object", none), ("Value", some "Object"), ("Number", some "Value"), ("Int", some "Number"),
    ("Float", some "Number"), ("Char", some "Value"), ("Bool", some "Value"), ("Nil", some "Value"),
    ("Reference", some "Object"), ("String", some "Reference"), ("Main", some "Object"),
    ("Class", some "Object")]

/-- Superclass of a class that names none. -/
def defaultSuperclass : String := "Reference"

def builtin : Definitions :=
  ⟨builtinClasses.map fun (name, superclass) => ⟨name, superclass, [], true⟩, #[], [], [], [], []⟩

def class? (d : Definitions) (name : String) : Option ClassEntry :=
  d.classes.find? (·.name == name)

def isClass (d : Definitions) (name : String) : Bool := (d.class? name).isSome

def method? (d : Definitions) (id : MethodId) : Option MethodEntry := d.methods[id.val]?

def globalMethods (d : Definitions) : List MethodEntry := d.globals.filterMap d.method?

def isLib (d : Definitions) (name : String) : Bool := d.libs.contains name

def foreign? (d : Definitions) (lib name : String) : Option ForeignEntry :=
  d.foreigns.find? fun f => f.lib == lib && f.name == name

def isConstant (d : Definitions) (name : String) : Bool := d.constants.contains name

/-- Enter the first opening of a class; later ones change nothing. -/
def openClass (d : Definitions) (c : ClassDef) : Definitions :=
  if d.isClass c.name then d
  else
    let entry : ClassEntry := ⟨c.name, some (c.superclass.getD defaultSuperclass), [], false⟩
    { d with classes := d.classes ++ [entry] }

/-- Enter a method, at the end of its class if it has one. -/
def enterMethod (d : Definitions) (owner : Option String) (m : MethodDef) : Definitions :=
  let id : MethodId := ⟨d.methods.size⟩
  { d with
    methods := d.methods.push ⟨id, owner, m, m.yields⟩
    classes := d.classes.map fun c =>
      if owner == some c.name then { c with methods := c.methods ++ [id] } else c
    globals := if owner.isNone then d.globals ++ [id] else d.globals }

def enterLib (d : Definitions) (l : LibDef) : Definitions :=
  { d with
    libs := l.name :: d.libs
    foreigns := l.functions.foldl
      (fun fs f => ⟨l.name, f.name, f.parameters.length, f.returnType⟩ :: fs) d.foreigns }

/-- Enter what a statement of the top level defines. -/
def enterStatement (d : Definitions) (e : Expr) : Definitions :=
  match e.form with
  | .defMethod m => d.enterMethod none m
  | .defClass c => c.methods.foldl (fun d m => d.enterMethod (some c.name) m) (d.openClass c)
  | .defLib l => d.enterLib l
  | .assign ⟨.constant, name⟩ _ _ => { d with constants := name :: d.constants }
  | _ => d

/-- The superclass that a statement declares, with the class and the place of its name. -/
def declaredSuperclass? (e : Expr) : Option (String × String × Span) :=
  match e.form with
  | .defClass c => c.superclass.map fun s => (c.name, s, c.nameSpan)
  | _ => none

/-- Collect the definitions of a list of bodies. Every superclass that a class declares must exist
somewhere among them. -/
def ofBodies (bodies : List (List Expr)) : Except (List StaticError) Definitions :=
  let statements := bodies.flatten
  let d := statements.foldl enterStatement builtin
  let unknown := (statements.filterMap declaredSuperclass?).filterMap fun (c, s, span) =>
    if d.isClass s then none else some (StaticError.unknownSuperclass c s span)
  if unknown.isEmpty then .ok d else .error unknown

/-- Follow the superclasses until there is none, or one that has been met before. -/
def ancestorsFrom (d : Definitions) : Nat → List String → Option String → List String
  | 0, met, _ => met
  | _ + 1, met, none => met
  | fuel + 1, met, some name =>
    match d.class? name with
    | none => met
    | some c => if met.contains c.name then met else
        ancestorsFrom d fuel (met ++ [c.name]) c.superclass

/-- A class followed by its superclasses. No chain without repetition is longer than the list of all
classes. -/
def ancestors (d : Definitions) (name : String) : List String :=
  ancestorsFrom d (d.classes.length + 1) [] (some name)

def descendsFrom (d : Definitions) (name ancestor : String) : Bool :=
  (d.ancestors name).contains ancestor

end Definitions

end TypedBlocks

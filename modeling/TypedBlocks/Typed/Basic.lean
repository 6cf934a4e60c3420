import TypedBlocks.Program.Primitive
import TypedBlocks.Scope.Capture
import TypedBlocks.Ty.Completion

/-!
# Typed programs

Programs in which every expression carries its type, none if it never ends normally, and every exit
names the frame, call or loop that it leaves. A method is present once for each receiver type and
argument types it is called with; a call of a method that yields is expanded in place.
-/
namespace TypedBlocks.Typed

/-- Number of a method for one choice of types. -/
structure InstanceId where
  val : Nat
  deriving DecidableEq, Repr, Inhabited

/-- The number of the top-level body, which no other method has. -/
def InstanceId.main : InstanceId := ⟨4294967295⟩

/-- Index of a variable in the frame of the method around it. -/
structure SlotId where
  val : Nat
  deriving DecidableEq, Repr, Inhabited

mutual

structure Expr where
  ty : Option Ty
  node : Node

inductive Node where
  | literal (value : Literal)
  | slot (slot : SlotId)
  | assign (slot : SlotId) (value : Expr)
  | instanceVar (object : SlotId) (name : String)
  | assignInstanceVar (object : SlotId) (name : String) (value : Expr)
  | global (name : String)
  | assignGlobal (name : String) (value : Expr)
  | constant (name : String)
  | assignConstant (name : String) (value : Expr)
  | classRef (name : String)
  | mainObject
  | sequence (parts : List Expr)
  | conditional (condition consequent alternative : Expr)
  | while (id : LoopId) (condition body : Expr)
  | and (left right : Expr)
  | or (left right : Expr)
  | not (operand : Expr)
  | call (method : InstanceId) (receiver : Expr) (arguments : List Expr)
  | primitive (operation : Primitive) (receiver : Expr) (arguments : List Expr)
  | construct (className : String) (initializer : Option InstanceId) (arguments : List Expr)
  | foreign (lib name : String) (arguments : List Expr)
  | inline (call : ExpandedCall)
  /-- Run a block: empty its `locals`, bind its `parameters` to the arguments, missing ones to nil,
  and evaluate its body. -/
  | yield (parameters locals : List SlotId) (arguments : List Expr) (body : Expr)
  /-- Put the scrutinees into the temporary slots and run the first arm whose types fit them. -/
  | dispatch (scrutinees : List Expr) (temps : List SlotId) (arms : List Arm)
  | return (target : FrameId) (value : Expr)
  | break (target : BreakTarget) (value : Expr)

/-- A call of a method that yields, expanded at its site. -/
structure ExpandedCall where
  site : SiteId
  frame : FrameId
  name : String
  selfSlot : SlotId
  receiver : Expr
  parameters : List SlotId
  /-- Slots of the method's own variables, emptied whenever the expansion is entered. -/
  locals : List SlotId
  arguments : List Expr
  body : Expr
  /-- Merged type of the breaks out of this call. -/
  breakType : Option Ty
  /-- Merged type of the returns from the expanded method. -/
  returnType : Option Ty

structure Arm where
  types : List Ty
  body : Expr

end

/-- A variable of a method. -/
structure Slot where
  id : SlotId
  name : String
  ty : Option Ty
  /-- A block captures the variable and needs storage for it that outlives the block. -/
  captured : Bool

structure Method where
  id : InstanceId
  name : String
  owner : Option String
  selfType : Ty
  selfSlot : SlotId
  parameters : List SlotId
  locals : List Slot
  body : Expr
  returnType : Option Ty
  frame : FrameId

/-- The types of an object's variables, by class. -/
structure Layout where
  className : String
  vars : List (String × Ty)

structure Program where
  main : Method
  methods : Array Method
  captures : List BlockScope
  layouts : List Layout

namespace Expr

def nil : Expr := ⟨some Ty.nil, .literal .nil⟩

def ofSlot (slot : SlotId) (ty : Option Ty) : Expr := ⟨ty, .slot slot⟩

/-- Expressions in order; a single one stands for itself, with the type of the sequence. -/
def ofParts (parts : List Expr) (ty : Option Ty) : Expr :=
  match parts with
  | [only] => { only with ty := ty }
  | parts => ⟨ty, .sequence parts⟩

instance : Inhabited Expr := ⟨nil⟩

end Expr

/-- The first slot of a name. -/
def Method.local? (m : Method) (name : String) : Option Slot := m.locals.find? (·.name == name)

def Layout.toTy (l : Layout) : Ty := .object l.className l.vars

namespace Program

/-- The method of a number, which normally stands at the index of the number. -/
def method? (p : Program) (id : InstanceId) : Option Method :=
  match p.methods[id.val]? with
  | some m => if m.id == id then some m else p.methods.find? (·.id == id)
  | none => p.methods.find? (·.id == id)

def resultTy? (p : Program) : Option Ty := p.main.returnType

end Program

end TypedBlocks.Typed

import TypedBlocks.Evaluation.Primitive

/-!
# Evaluating typed programs

An expression is evaluated against the slots of the method around it, a heap of objects, and the
globals and constants. It yields a value, an exit that has yet to reach its target, or a fault.
Running out of fuel is an outcome of its own; a run that ends does so with any larger amount of fuel
as well.
-/
namespace TypedBlocks

open Typed (InstanceId SlotId)

/-- Control on its way to a frame, call or loop. -/
inductive Exit where
  | return (frame : FrameId) (value : Value)
  | break (target : BreakTarget) (value : Value)
  deriving Repr

/-- Why an evaluation gave no value. -/
inductive Stop where
  | exit (e : Exit)
  | fault (f : Fault)
  | outOfFuel
  deriving Repr

structure Machine where
  /-- The variables of the running method. -/
  slots : Array Value
  /-- The instance variables of every object. -/
  heap : Array Bindings
  globals : Bindings
  constants : Bindings

namespace Machine

def empty : Machine := ⟨#[], #[], [], []⟩

/-- The value of a slot; what was never set is nil. -/
def slot (m : Machine) (s : SlotId) : Value := m.slots.getD s.val .nil

/-- Slots with one of them set, and others appended as far as needed. -/
def setAt (slots : Array Value) (i : Nat) (v : Value) : Array Value :=
  if i < slots.size then slots.setIfInBounds i v
  else (slots ++ Array.replicate (i - slots.size) Value.nil).push v

def setSlot (m : Machine) (s : SlotId) (v : Value) : Machine :=
  { m with slots := setAt m.slots s.val v }

/-- Set each slot of a list to nil. -/
def clearSlots (m : Machine) (ss : List SlotId) : Machine :=
  ss.foldl (fun m s => m.setSlot s .nil) m

/-- Bind slots to values; slots without a value stay as they are. -/
def bindSlots (m : Machine) : List SlotId → List Value → Machine
  | s :: ss, v :: vs => (m.setSlot s v).bindSlots ss vs
  | _, _ => m

/-- Bind slots to values; slots without a value become nil. -/
def bindOrClear (m : Machine) : List SlotId → List Value → Machine
  | [], _ => m
  | s :: ss, [] => (m.setSlot s .nil).bindOrClear ss []
  | s :: ss, v :: vs => (m.setSlot s v).bindOrClear ss vs

def instanceVar (m : Machine) (object : Value) (name : String) : Value :=
  match object with
  | .object r => ((m.heap.getD r.index []).lookup name).getD .nil
  | _ => .nil

/-- Set a variable of an object; what is no object has none. -/
def setInstanceVar (m : Machine) (object : Value) (name : String) (v : Value) : Machine :=
  match object with
  | .object r => { m with heap := m.heap.modify r.index (Bindings.set name v) }
  | _ => m

def global (m : Machine) (name : String) : Value := (m.globals.lookup name).getD .nil

def setGlobal (m : Machine) (name : String) (v : Value) : Machine :=
  { m with globals := Bindings.set name v m.globals }

def constant (m : Machine) (name : String) : Value := (m.constants.lookup name).getD .nil

def setConstant (m : Machine) (name : String) (v : Value) : Machine :=
  { m with constants := Bindings.set name v m.constants }

/-- A new object without variables. -/
def allocate (m : Machine) (className : String) : Value × Machine :=
  (.object ⟨m.heap.size, className⟩, { m with heap := m.heap.push [] })

end Machine

abbrev Eval := EStateM Stop Machine

namespace Eval

def fault {α : Type} (f : Fault) : Eval α := throw (.fault f)

def ofExcept {α : Type} : Except Fault α → Eval α
  | .ok a => pure a
  | .error f => fault f

/-- Turn the exits that `land` accepts into values. -/
def landing (land : Exit → Option Value) (x : Eval Value) : Eval Value := fun m =>
  match x m with
  | .error (.exit e) m' =>
    match land e with
    | some v => .ok v m'
    | none => .error (.exit e) m'
  | r => r

/-- Evaluate with slots of one's own, and come back to the present ones however it ends. -/
def withSlots {α : Type} (slots : Array Value) (x : Eval α) : Eval α := fun m =>
  let outer := m.slots
  match x { m with slots := slots } with
  | .ok a m' => .ok a { m' with slots := outer }
  | .error e m' => .error e { m' with slots := outer }

end Eval

/-- Returns from a frame land there. -/
def Exit.landInFrame (frame : FrameId) : Exit → Option Value
  | .return f v => if f == frame then some v else none
  | .break _ _ => none

/-- Returns from an expanded method and breaks out of its call land at the call. -/
def Exit.landAtCall (frame : FrameId) (site : SiteId) : Exit → Option Value
  | .return f v => if f == frame then some v else none
  | .break (.call s) v => if s == site then some v else none
  | .break (.loop _) _ => none

def Literal.toValue : Literal → Value
  | .integer n => .int n
  | .float x => .float x
  | .string s => .string s
  | .char c => .char c
  | .boolean b => .bool b
  | .nil => .nil

namespace Typed

/-- The slots with which a method starts. -/
def Method.entrySlots (m : Method) (receiver : Value) (arguments : List Value) : Array Value :=
  let blank : Machine := ⟨Array.replicate m.locals.length .nil, #[], [], []⟩
  ((blank.setSlot m.selfSlot receiver).bindSlots m.parameters arguments).slots

/-- Run a method with a way to evaluate its body. -/
def Method.invoke (m : Method) (run : Expr → Eval Value) (receiver : Value)
    (arguments : List Value) : Eval Value :=
  Eval.withSlots (m.entrySlots receiver arguments)
    (Eval.landing (Exit.landInFrame m.frame) (run m.body))

def Program.methodOrFault (p : Program) (id : InstanceId) : Eval Method :=
  match p.method? id with
  | some m => pure m
  | none => Eval.fault (.unknownMethod id)

/-- Every type of the arm has the value at its place as an instance. -/
def Arm.fits (values : List Value) (arm : Arm) : Bool :=
  (arm.types.zip values).all fun (t, v) => v.isInstanceOf t

/-- Evaluate one expression after another and keep the last value. -/
def evalSequence (run : Expr → Eval Value) : Value → List Expr → Eval Value
  | last, [] => pure last
  | _, e :: es => do
    let v ← run e
    evalSequence run v es

/-- Evaluate an expression of a program, with a way to evaluate others. A loop runs itself again
for its next round. -/
def Program.evalNode (p : Program) (run : Expr → Eval Value) (e : Expr) : Eval Value :=
  match e.node with
  | .literal l => pure l.toValue
  | .slot s => do return (← get).slot s
  | .assign s value => do
    let v ← run value
    modify (·.setSlot s v)
    return v
  | .instanceVar object name => do
    let m ← get
    return m.instanceVar (m.slot object) name
  | .assignInstanceVar object name value => do
    let v ← run value
    modify fun m => m.setInstanceVar (m.slot object) name v
    return v
  | .global name => do return (← get).global name
  | .assignGlobal name value => do
    let v ← run value
    modify (·.setGlobal name v)
    return v
  | .constant name => do return (← get).constant name
  | .assignConstant name value => do
    let v ← run value
    modify (·.setConstant name v)
    return v
  | .classRef name => pure (.classObject name)
  | .mainObject => pure .main
  | .sequence parts => evalSequence run .nil parts
  | .conditional condition consequent alternative => do
    if (← run condition).countsAsTrue then run consequent else run alternative
  | .while id condition body => fun m =>
    match run condition m with
    | .error stop m => .error stop m
    | .ok c m =>
      if c.countsAsTrue then
        match run body m with
        | .ok _ m => run e m
        | .error (.exit (.break (.loop l) v)) m =>
          if l == id then .ok v m else .error (.exit (.break (.loop l) v)) m
        | .error stop m => .error stop m
      else .ok .nil m
  | .and left right => do
    let v ← run left
    if v.countsAsTrue then run right else return v
  | .or left right => do
    let v ← run left
    if v.countsAsTrue then return v else run right
  | .not operand => do return .bool !(← run operand).countsAsTrue
  | .call method receiver arguments => do
    let r ← run receiver
    let vs ← arguments.mapM run
    let m ← p.methodOrFault method
    m.invoke run r vs
  | .primitive operation receiver arguments => do
    let r ← run receiver
    let vs ← arguments.mapM run
    Eval.ofExcept (operation.apply r vs)
  | .construct className initializer arguments => do
    let vs ← arguments.mapM run
    let object ← modifyGet (·.allocate className)
    match initializer with
    | some id =>
      let m ← p.methodOrFault id
      let _ ← m.invoke run object vs
      return object
    | none => return object
  | .foreign lib name arguments => do
    let _ ← arguments.mapM run
    Eval.fault (.foreignCall lib name)
  | .inline call => do
    let r ← run call.receiver
    let vs ← call.arguments.mapM run
    modify fun m =>
      ((m.clearSlots call.locals).setSlot call.selfSlot r).bindSlots call.parameters vs
    Eval.landing (Exit.landAtCall call.frame call.site) (run call.body)
  | .yield parameters locals arguments body => do
    let vs ← arguments.mapM run
    modify fun m => (m.clearSlots locals).bindOrClear parameters vs
    run body
  | .dispatch scrutinees temps arms => do
    let vs ← scrutinees.mapM run
    modify (·.bindSlots temps vs)
    match arms.find? (Arm.fits vs) with
    | some arm => run arm.body
    | none => Eval.fault (.noMatchingArm (vs.map Value.className))
  | .return target value => do
    let v ← run value
    throw (.exit (.return target v))
  | .break target value => do
    let v ← run value
    throw (.exit (.break target v))

/-- Evaluate an expression of a program. Each nesting of evaluations and each round of a loop takes
one unit of fuel. -/
def Program.eval (p : Program) : Nat → Expr → Eval Value
  | 0, _ => throw .outOfFuel
  | fuel + 1, e => p.evalNode (p.eval fuel) e

/-- How a whole run ends. -/
inductive Answer where
  | value (v : Value)
  | fault (f : Fault)
  | outOfFuel
  deriving Repr

/-- Run the top-level body on a machine with globals, constants and objects from earlier runs. -/
def Program.runFrom (p : Program) (fuel : Nat) (m : Machine) : Answer × Machine :=
  match p.main.invoke (p.eval fuel) .main [] m with
  | .ok v m => (.value v, m)
  | .error (.exit (.return _ _)) m => (.fault .escapedReturn, m)
  | .error (.exit (.break _ _)) m => (.fault .escapedBreak, m)
  | .error (.fault f) m => (.fault f, m)
  | .error .outOfFuel m => (.outOfFuel, m)

def Program.run (p : Program) (fuel : Nat) : Answer × Machine := p.runFrom fuel Machine.empty

/-- More fuel than any run of practical length takes. -/
def ampleFuel : Nat := Nat.pow 10 18

end Typed

end TypedBlocks

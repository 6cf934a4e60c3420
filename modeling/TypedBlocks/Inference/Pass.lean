import TypedBlocks.Inference.Tables
import TypedBlocks.Program.Dispatch
import TypedBlocks.Scope.Exit
import TypedBlocks.Typed.Basic

/-!
# Passes of inference

A pass elaborates a program into its typed form and collects types on the way. Here is what it knows
about the place it is at, and what it keeps: the tables, the variables of the method at hand, the
methods present so far, and which variables have been assigned on every path that leads here.
-/
namespace TypedBlocks.Inference

open Typed (InstanceId SlotId Slot)

structure Limits where
  maxPasses : Nat
  maxInlineDepth : Nat
  maxArms : Nat
  deriving DecidableEq, Repr

def Limits.standard : Limits := ⟨32, 64, 64⟩

/-- The program that is elaborated. -/
structure Setting where
  definitions : Definitions
  exits : ExitTable
  captures : CaptureTable
  limits : Limits

/-- Where an exit goes when it runs. -/
inductive RunTarget where
  | frame (id : FrameId)
  | break (target : BreakTarget)
  deriving DecidableEq, Repr

mutual

/-- A body in the course of elaboration. -/
structure BodyContext where
  path : ScopeChain
  methodName : String
  selfType : Ty
  selfSlot : SlotId
  /-- Targets that exits of this body can have, the innermost first. -/
  targets : List (ExitTarget × RunTarget)
  origin : Origin

/-- How a body came to be elaborated. -/
inductive Origin where
  /-- The top level, or a method that does not yield. -/
  | body
  /-- A method expanded for a call, with the block given there and the body the block stands in. -/
  | expansion (block : Block) (site : SiteId) (definer : BodyContext)
  /-- A block, with the body that it stands in. -/
  | block (id : NodeId) (definer : BodyContext)

end

namespace BodyContext

/-- The run-time target of an exit, sought in this body and in the bodies around a block. -/
def target? (exit : ExitTarget) : BodyContext → Option RunTarget
  | ⟨_, _, _, _, targets, .block _ definer⟩ => (targets.lookup exit).or (definer.target? exit)
  | ⟨_, _, _, _, targets, _⟩ => targets.lookup exit

/-- The body of the method that a block stands in, or the body itself. -/
def methodBody : BodyContext → BodyContext
  | ⟨_, _, _, _, _, .block _ definer⟩ => definer.methodBody
  | a => a

/-- The scope that a name belongs to, and whether a block on the way needs a cell for it. A name
that a block captures belongs to the body the block stands in. -/
def scopeOf (captures : CaptureTable) (name : String) : BodyContext → ScopeChain × Bool
  | ⟨path, _, _, _, _, .block id definer⟩ =>
    match captures.block? id with
    | none => (path, false)
    | some b =>
      match b.capture? name with
      | none => (path, false)
      | some c =>
        if b.parameters.contains name || b.locals.contains name then (path, false)
        else
          let (scope, captured) := definer.scopeOf captures name
          (scope, captured || c.needsCell)
  | ⟨path, _, _, _, _, _⟩ => (path, false)

/-- The class of `self`, if it is an object that can hold instance variables. -/
def objectClass? (a : BodyContext) : Option String :=
  match a.selfType.only? with
  | some (.object name _) => some name
  | _ => none

def withTarget (a : BodyContext) (exit : ExitTarget) (run : RunTarget) : BodyContext :=
  { a with targets := (exit, run) :: a.targets }

end BodyContext

/-- The place of an expression: the body it is elaborated in, and the number of expansions around
it. -/
structure Place where
  activation : BodyContext
  depth : Nat

/-- The variables of a method as far as they are known; temporary ones have no key. -/
structure FrameSlots where
  slots : List (Slot × Option ScopeVar)
  temps : Nat

namespace FrameSlots

def empty : FrameSlots := ⟨[], 0⟩

def find? (f : FrameSlots) (key : ScopeVar) : Option SlotId :=
  (f.slots.find? fun (_, k) => k == some key).map fun (s, _) => s.id

/-- The slot of a variable, a new one if it has none. -/
def slotFor (f : FrameSlots) (key : ScopeVar) : SlotId × FrameSlots :=
  match f.find? key with
  | some id => (id, f)
  | none =>
    let id : SlotId := ⟨f.slots.length⟩
    (id, { f with slots := f.slots ++ [(⟨id, key.name, none, false⟩, some key)] })

/-- A new slot for the value of an operand. -/
def tempSlot (f : FrameSlots) (t : Ty) : SlotId × FrameSlots :=
  let id : SlotId := ⟨f.slots.length⟩
  (id, ⟨f.slots ++ [(⟨id, "%tmp" ++ toString f.temps, some t, false⟩, none)], f.temps + 1⟩)

def update (f : FrameSlots) (id : SlotId) (change : Slot → Slot) : FrameSlots :=
  { f with slots := f.slots.map fun (s, k) => if s.id == id then (change s, k) else (s, k) }

/-- The slots of all variables of a scope and of the scopes nested in it. -/
def slotsWithin (f : FrameSlots) (outer : ScopeChain) : List SlotId :=
  (f.slots.filter fun (_, k) => k.any fun key => isWithin key.path outer).map fun (s, _) => s.id

/-- The finished slots, with the types that the tables have for them. -/
def typedSlots (f : FrameSlots) (ts : Tables) : List Slot :=
  f.slots.map fun (s, k) =>
    match k.bind ts.var? with
    | some t => { s with ty := some t }
    | none => s

end FrameSlots

structure PassState where
  tables : Tables
  frame : FrameSlots
  /-- The methods met in this pass. -/
  instances : List (Instantiation × InstanceId)
  /-- The elaborated methods; one that is still being elaborated is missing. -/
  methods : Array (Option Typed.Method)
  nextFrame : Nat
  nextSite : Nat
  nextLoop : Nat
  /-- Variables assigned on every path to the present place. -/
  assigned : List ScopeVar
  errors : List StaticError

def PassState.start (ts : Tables) : PassState :=
  ⟨ts, FrameSlots.empty, [], #[], 0, 0, 0, [], []⟩

/-- Steps of a pass; without fuel there is no result. -/
abbrev Pass := StateT PassState Option

/-- An elaborated expression and the ways in which it can end. -/
structure Elaborated where
  code : Typed.Expr
  ends : Completions

namespace Elaborated

/-- A node whose type is that of its normal end. -/
def ofNode (node : Typed.Node) (ends : Completions) : Elaborated := ⟨⟨ends.normal, node⟩, ends⟩

def nil : Elaborated := ⟨Typed.Expr.nil, Completions.ofNormal Ty.nil⟩

end Elaborated

namespace Pass

def outOfFuel {α : Type} : Pass α := fun _ => none

/-- Note an error, and stand in for the expression with one that never ends. -/
def fail (e : StaticError) : Pass Elaborated := do
  modify fun s => { s with errors := s.errors ++ [e] }
  return ⟨⟨none, .sequence []⟩, Completions.never⟩

def newFrame : Pass FrameId := do
  modifyGet fun s => (⟨s.nextFrame⟩, { s with nextFrame := s.nextFrame + 1 })

def newSite : Pass SiteId := do
  modifyGet fun s => (⟨s.nextSite⟩, { s with nextSite := s.nextSite + 1 })

def newLoop : Pass LoopId := do
  modifyGet fun s => (⟨s.nextLoop⟩, { s with nextLoop := s.nextLoop + 1 })

def tables : Pass Tables := do return (← get).tables

def updateTables (change : Tables → Tables) : Pass Unit :=
  modify fun s => { s with tables := change s.tables }

def slotFor (key : ScopeVar) : Pass SlotId :=
  modifyGet fun s =>
    let (id, f) := s.frame.slotFor key
    (id, { s with frame := f })

def tempSlot (t : Ty) : Pass SlotId :=
  modifyGet fun s =>
    let (id, f) := s.frame.tempSlot t
    (id, { s with frame := f })

def updateSlot (id : SlotId) (change : Slot → Slot) : Pass Unit :=
  modify fun s => { s with frame := s.frame.update id change }

def slotsWithin (outer : ScopeChain) : Pass (List SlotId) := do
  return (← get).frame.slotsWithin outer

def assigned : Pass (List ScopeVar) := do return (← get).assigned

def setAssigned (keys : List ScopeVar) : Pass Unit := modify fun s => { s with assigned := keys }

def isAssigned (key : ScopeVar) : Pass Bool := do return (← assigned).any (· == key)

def markAssigned (key : ScopeVar) : Pass Unit :=
  modify fun s =>
    { s with assigned := if s.assigned.any (· == key) then s.assigned else key :: s.assigned }

/-- The variables of a scope are unassigned whenever it is entered. -/
def unassign (outer : ScopeChain) : Pass Unit :=
  modify fun s => { s with assigned := s.assigned.filter fun k => !isWithin k.path outer }

/-- The slot of `self` in a scope. -/
def bindSelf (path : ScopeChain) (t : Ty) : Pass SlotId := do
  let id ← slotFor ⟨path, "self"⟩
  updateSlot id fun s => { s with ty := some t }
  return id

/-- Give a variable a value of the type at the entry of its scope. -/
def bindVar (path : ScopeChain) (name : String) (t : Ty) : Pass SlotId := do
  let key : ScopeVar := ⟨path, name⟩
  updateTables (·.extendVar key t)
  markAssigned key
  slotFor key

def bindVars (path : ScopeChain) : List Parameter → List Ty → Pass (List SlotId)
  | p :: ps, t :: ts => do
    let id ← bindVar path p.name t
    return id :: (← bindVars path ps ts)
  | _, _ => return []

/-- The slot and the key of a local variable seen from a place. -/
def localVar (captures : CaptureTable) (a : BodyContext) (name : String) :
    Pass (SlotId × ScopeVar) := do
  let (path, captured) := a.scopeOf captures name
  let key : ScopeVar := ⟨path, name⟩
  let id ← slotFor key
  if captured then updateSlot id fun s => { s with captured := true }
  return (id, key)

end Pass

/-- The variables assigned on every alternative that falls through; if none does, what follows is
unreachable, and `before` stands. -/
def assignedAfter (before : List ScopeVar) (paths : List (Bool × List ScopeVar)) : List ScopeVar :=
  match (paths.filter (·.1)).map (·.2) with
  | [] => before
  | first :: rest =>
    rest.foldl (fun all keys => all.filter fun k => keys.any (· == k)) first

end TypedBlocks.Inference

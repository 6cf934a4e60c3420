import TypedBlocks.StaticError
import TypedBlocks.Syntax.Basic

/-!
# Targets of exits

Which construct every `return`, `break` and `yield` belongs to, by lexical nesting alone. A return
leaves the method around it, through blocks and loops; a break leaves the innermost block or loop
body; a yield belongs to the method around it. A definition hides what stands around it.
-/
namespace TypedBlocks

/-- The construct that an exit leaves. -/
inductive ExitTarget where
  | program
  | method (id : NodeId)
  | block (id : NodeId)
  | loop (id : NodeId)
  deriving DecidableEq, Repr

/-- What stands around an expression: its method, or none at the top level, and the innermost block
or loop body within it. -/
structure Nesting where
  method : Option NodeId
  breakable : Option ExitTarget
  deriving DecidableEq, Repr

namespace Nesting

def topLevel : Nesting := ⟨none, none⟩

def inMethod (id : NodeId) : Nesting := ⟨some id, none⟩

def inBlock (n : Nesting) (id : NodeId) : Nesting := { n with breakable := some (.block id) }

def inLoop (n : Nesting) (id : NodeId) : Nesting := { n with breakable := some (.loop id) }

def returnTarget (n : Nesting) : ExitTarget :=
  match n.method with
  | some id => .method id
  | none => .program

end Nesting

/-- The verdict on one exit. -/
inductive ExitFinding where
  | resolved (node : NodeId) (target : ExitTarget)
  | unresolved (error : StaticError)
  deriving DecidableEq, Repr

/-- The verdict on an expression itself, which is empty unless it is an exit. -/
def Form.ownExit (n : Nesting) (id : NodeId) (span : Span) : Form → List ExitFinding
  | .return _ => [.resolved id n.returnTarget]
  | .break _ =>
    match n.breakable with
    | some target => [.resolved id target]
    | none => [.unresolved (.unresolvedExit "break" span)]
  | .yield _ =>
    match n.method with
    | some m => [.resolved id (.method m)]
    | none => [.unresolved (.yieldOutsideMethod span)]
  | _ => []

mutual

/-- The verdicts on all exits of an expression: its own before those inside it. -/
def Expr.exits (n : Nesting) : Expr → List ExitFinding
  | ⟨id, span, form⟩ => form.ownExit n id span ++ form.innerExits n id

/-- The verdicts on the exits inside a form, in the order of the text. The body of a loop is nested
in the loop, its condition is not. -/
def Form.innerExits (n : Nesting) (id : NodeId) : Form → List ExitFinding
  | .literal _ | .read _ | .self | .defLib _ => []
  | .assign _ _ value => value.exits n
  | .call receiver _ _ arguments block =>
    optionExits n receiver ++ listExits n arguments ++ blockExits n block
  | .yield arguments => listExits n arguments
  | .return value | .break value => optionExits n value
  | .conditional _ condition consequent alternative =>
    condition.exits n ++ listExits n consequent ++ bodyExits n alternative
  | .while condition body => condition.exits n ++ listExits (n.inLoop id) body
  | .logical _ left right => left.exits n ++ right.exits n
  | .not operand => operand.exits n
  | .defMethod m => m.exits
  | .defClass ⟨_, _, _, _, methods⟩ => methodsExits methods

def MethodDef.exits : MethodDef → List ExitFinding
  | ⟨id, _, _, _, body⟩ => listExits (Nesting.inMethod id) body

def methodsExits : List MethodDef → List ExitFinding
  | [] => []
  | m :: ms => m.exits ++ methodsExits ms

def listExits (n : Nesting) : List Expr → List ExitFinding
  | [] => []
  | e :: es => e.exits n ++ listExits n es

def optionExits (n : Nesting) : Option Expr → List ExitFinding
  | none => []
  | some e => e.exits n

def bodyExits (n : Nesting) : Option (List Expr) → List ExitFinding
  | none => []
  | some es => listExits n es

def blockExits (n : Nesting) : Option Block → List ExitFinding
  | none => []
  | some ⟨id, _, _, body⟩ => listExits (n.inBlock id) body

end

/-- The targets of all exits of a program. -/
structure ExitTable where
  entries : List (NodeId × ExitTarget)
  deriving Repr

namespace ExitTable

def target? (t : ExitTable) (node : NodeId) : Option ExitTarget := t.entries.lookup node

def size (t : ExitTable) : Nat := t.entries.length

def isEmpty (t : ExitTable) : Bool := t.entries.isEmpty

/-- The entries by ascending node number. -/
def sorted (t : ExitTable) : List (NodeId × ExitTarget) :=
  t.entries.mergeSort fun a b => a.1.val ≤ b.1.val

end ExitTable

def ExitFinding.entry? : ExitFinding → Option (NodeId × ExitTarget)
  | .resolved node target => some (node, target)
  | .unresolved _ => none

def ExitFinding.error? : ExitFinding → Option StaticError
  | .resolved _ _ => none
  | .unresolved e => some e

/-- Find the target of every exit in a list of bodies, or list the exits that have none. -/
def resolveExits (bodies : List (List Expr)) : Except (List StaticError) ExitTable :=
  let findings := bodies.flatMap (listExits Nesting.topLevel)
  match findings.filterMap ExitFinding.error? with
  | [] => .ok ⟨findings.filterMap ExitFinding.entry?⟩
  | errors => .error errors

end TypedBlocks

import TypedBlocks.Program.Definitions
import TypedBlocks.Program.Primitive

/-!
# Dispatch

What a message to a receiver of known type runs. Methods are sought class by class along the chain
of superclasses, primitives come after them, and functions of the top level last. Where types are
unions, the message is expanded into one arm for each choice of members.
-/
namespace TypedBlocks

/-- What a call runs. -/
inductive Callee where
  | method (id : MethodId)
  | primitive (operation : Primitive)
  /-- Make an object of the class and initialize it. -/
  | construct (className : String)
  | foreign (lib name : String)
  deriving DecidableEq, Repr

/-- A call as dispatch sees it; no type is a union of several members. -/
structure Message where
  receiver : Ty
  name : String
  arguments : List Ty
  hasBlock : Bool
  /-- No receiver is written. -/
  toSelf : Bool

namespace Definitions

/-- The class that a parameter demands. A restriction that names no class, such as a type parameter,
demands nothing. -/
def restriction? (d : Definitions) (p : Parameter) : Option String :=
  p.restriction.filter d.isClass

def acceptsArgument (d : Definitions) (p : Parameter) (argument : Ty) : Bool :=
  match d.restriction? p with
  | none => true
  | some c => argument.className?.any fun name => d.descendsFrom name c

def accepts (d : Definitions) (m : MethodEntry) (arguments : List Ty) : Bool :=
  (m.parameters.zip arguments).all fun (p, t) => d.acceptsArgument p t

/-- The method can answer the message, blocks left aside. -/
def isApplicable (d : Definitions) (msg : Message) (m : MethodEntry) : Bool :=
  m.name == msg.name && m.arity == msg.arguments.length && d.accepts m msg.arguments

def parameterRefines (d : Definitions) (p q : Parameter) : Bool :=
  match d.restriction? p, d.restriction? q with
  | _, none => true
  | none, some _ => false
  | some c, some e => d.descendsFrom c e

def refines (d : Definitions) (m n : MethodEntry) : Bool :=
  (m.parameters.zip n.parameters).all fun (p, q) => d.parameterRefines p q

def strictlyRefines (d : Definitions) (m n : MethodEntry) : Bool :=
  d.refines m n && !d.refines n m

/-- The applicable candidates that yield just when a block is given, or all if there are none. -/
def pool (d : Definitions) (msg : Message) (candidates : List MethodEntry) : List MethodEntry :=
  let applicable := candidates.filter (d.isApplicable msg)
  let matching := applicable.filter fun m => m.yields == msg.hasBlock
  if matching.isEmpty then applicable else matching

/-- The last candidate that no earlier choice is strictly more specific than. -/
def mostSpecific? (d : Definitions) (candidates : List MethodEntry) : Option MethodEntry :=
  candidates.foldl (fun best m =>
    match best with
    | some b => if d.strictlyRefines b m then some b else some m
    | none => some m) none

def choose? (d : Definitions) (msg : Message) (candidates : List MethodEntry) : Option MethodId :=
  (d.mostSpecific? (d.pool msg candidates)).map (·.id)

/-- The methods that the class itself defines, in all its openings. -/
def methodsOf (d : Definitions) (className : String) : List MethodEntry :=
  match d.class? className with
  | some c => c.methods.filterMap d.method?
  | none => []

/-- The method that answers the message on the nearest class with one. -/
def methodInChain? (d : Definitions) (msg : Message) : Option MethodId :=
  msg.receiver.className?.bind fun c =>
    (d.ancestors c).findSome? fun ancestor => d.choose? msg (d.methodsOf ancestor)

/-- What a message to a class itself runs: making an object, or a library function of that name. -/
def classMessage? (d : Definitions) (msg : Message) : Option Callee :=
  match msg.receiver with
  | .simple (.classOf c) =>
    if msg.name == "new" && d.isClass c then some (.construct c)
    else
      match d.foreign? c msg.name with
      | some f => if f.arity == msg.arguments.length then some (.foreign f.lib f.name) else none
      | none => none
  | _ => none

def dispatch? (d : Definitions) (msg : Message) : Option Callee :=
  (d.classMessage? msg).or <|
    ((d.methodInChain? msg).map Callee.method).or <|
      ((Primitive.resolve? msg.receiver msg.name msg.arguments).map Callee.primitive).or <|
        if msg.toSelf then (d.choose? msg d.globalMethods).map Callee.method else none

end Definitions

/-- The largest count of arms that is told apart. -/
def mostArms : Nat := Nat.pow 2 64 - 1

/-- The number of arms that a list of types expands into. -/
def countArms (ts : List Ty) : Nat :=
  ts.foldl (fun n t => min mostArms (n * t.members.length)) 1

/-- All choices of one element from each list, in lexicographic order. -/
def choices : List (List Ty) → List (List Ty)
  | [] => [[]]
  | ts :: rest => ts.flatMap fun t => (choices rest).map (t :: ·)

/-- The arms of a list of types, or their number if it exceeds the limit. -/
def armsWithin (limit : Nat) (ts : List Ty) : Except Nat (List (List Ty)) :=
  if countArms ts > limit then .error (countArms ts) else .ok (choices (ts.map Ty.members))

end TypedBlocks

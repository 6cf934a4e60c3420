import TypedBlocks.Syntax.Basic

/-!
# Captured variables

Which variables a block takes from the scopes around it. Bodies are walked in the order of
evaluation; a name belongs to the innermost scope that has it, up to the body of the method, and an
assignment to a name that no scope has declares it in the innermost one. A captured variable needs a
cell if it can change after the block has been made, or changes inside it.
-/
namespace TypedBlocks

structure Capture where
  name : String
  mutatedInside : Bool
  mutatedAfter : Bool
  deriving DecidableEq, Repr

/-- The variable has to outlive the block's own frame. -/
def Capture.needsCell (c : Capture) : Bool := c.mutatedInside || c.mutatedAfter

/-- What a block literal declares and what it takes from outside. -/
structure BlockScope where
  block : NodeId
  span : Span
  parameters : List String
  /-- Variables of the block that are no parameters, in the order of their names. -/
  locals : List String
  captures : List Capture
  capturesSelf : Bool
  deriving DecidableEq, Repr

namespace BlockScope

def capture? (b : BlockScope) (name : String) : Option Capture :=
  b.captures.find? (·.name == name)

/-- Note the use of an outer variable. -/
def recordCapture (name : String) (mutated : Bool) : List Capture → List Capture
  | [] => [⟨name, mutated, false⟩]
  | c :: cs =>
    if c.name == name then { c with mutatedInside := c.mutatedInside || mutated } :: cs
    else c :: recordCapture name mutated cs

end BlockScope

/-- A scope while its body is walked: a method body, or a block with what it has captured so far. -/
structure OpenScope where
  names : List String
  block : Option BlockScope
  deriving DecidableEq, Repr

namespace OpenScope

def note (s : OpenScope) (name : String) (mutated : Bool) : OpenScope :=
  { s with block := s.block.map fun b =>
    { b with captures := BlockScope.recordCapture name mutated b.captures } }

def recordSelf (s : OpenScope) : OpenScope :=
  { s with block := s.block.map fun b => { b with capturesSelf := true } }

def declare (s : OpenScope) (name : String) : OpenScope := { s with names := name :: s.names }

end OpenScope

/-- Note a use in every block between the place and the scope that has the name, the innermost scope
first; none if no scope of the method has it. -/
def recordUse? (name : String) (mutated : Bool) : List OpenScope → Option (List OpenScope)
  | [] => none
  | s :: outer =>
    if s.names.contains name then some (s :: outer)
    else if s.block.isNone then none
    else (recordUse? name mutated outer).map (s.note name mutated :: ·)

/-- Note a use of `self` in every block around the place. -/
def recordSelf : List OpenScope → List OpenScope
  | [] => []
  | s :: outer => if s.block.isNone then s :: outer else s.recordSelf :: recordSelf outer

/-- The state of a walk through one method body, or through the top level. -/
structure CaptureState where
  /-- The scopes around the place, the innermost first. -/
  scopes : List OpenScope
  /-- The spans of the loops around the place. -/
  loops : List Span
  /-- All assignments to local variables so far. -/
  assignments : List (String × Span)
  /-- The blocks that are complete but for later mutations, with the loops around each. -/
  pending : List (BlockScope × List Span)
  /-- The blocks of inner definitions. -/
  finished : List BlockScope

namespace CaptureState

/-- The start of a body with the given parameters. -/
def start (parameters : List String) : CaptureState := ⟨[⟨parameters, none⟩], [], [], [], []⟩

def use (s : CaptureState) (name : String) : CaptureState :=
  { s with scopes := (recordUse? name false s.scopes).getD s.scopes }

def useSelf (s : CaptureState) : CaptureState := { s with scopes := recordSelf s.scopes }

def declareInnermost (name : String) : List OpenScope → List OpenScope
  | [] => []
  | s :: outer => s.declare name :: outer

def assignLocal (s : CaptureState) (name : String) (span : Span) : CaptureState :=
  { s with
    assignments := s.assignments ++ [(name, span)]
    scopes := (recordUse? name true s.scopes).getD (declareInnermost name s.scopes) }

def enterLoop (s : CaptureState) (span : Span) : CaptureState := { s with loops := span :: s.loops }

def leaveLoop (s : CaptureState) : CaptureState := { s with loops := s.loops.drop 1 }

def enterBlock (s : CaptureState) (id : NodeId) (span : Span) (parameters : List String) :
    CaptureState :=
  { s with scopes := ⟨parameters, some ⟨id, span, parameters, [], [], false⟩⟩ :: s.scopes }

/-- The names of a scope that are no parameters, sorted. -/
def sortedLocals (parameters names : List String) : List String :=
  (names.filter fun n => !parameters.contains n).eraseDups.mergeSort fun a b => decide (a ≤ b)

def leaveBlock (s : CaptureState) : CaptureState :=
  match s.scopes with
  | ⟨names, some b⟩ :: outer =>
    { s with
      scopes := outer
      pending := s.pending ++ [({ b with locals := sortedLocals b.parameters names }, s.loops)] }
  | _ => s

/-- An assignment can take effect after the block was made: it comes later in the text, or stands in
a loop around the block. -/
def mutatesAfter (b : BlockScope) (loops : List Span) (assigned : String × Span) (name : String) :
    Bool :=
  assigned.1 == name &&
    (assigned.2.isAfter b.span || loops.any fun l => l.contains assigned.2)

/-- All blocks of a body, once all its assignments are known. -/
def blocks (s : CaptureState) : List BlockScope :=
  s.finished ++ s.pending.map fun (b, loops) =>
    { b with captures := b.captures.map fun c =>
      { c with mutatedAfter := s.assignments.any fun a => mutatesAfter b loops a c.name } }

/-- Take over the blocks of a definition that stands inside this body. -/
def absorb (s inner : CaptureState) : CaptureState :=
  { s with finished := s.finished ++ inner.blocks }

end CaptureState

mutual

def Expr.walk (s : CaptureState) : Expr → CaptureState
  | ⟨_, span, form⟩ => form.walk span s

/-- Walk through an expression in the order of evaluation; the target of an assignment comes after
its value. -/
def Form.walk (span : Span) (s : CaptureState) : Form → CaptureState
  | .literal _ | .defLib _ => s
  | .read target =>
    match target.kind with
    | .local => s.use target.name
    | .instanceVar => s.useSelf
    | .global | .constant => s
  | .self => s.useSelf
  | .assign target targetSpan value =>
    let s := value.walk s
    match target.kind with
    | .local => s.assignLocal target.name targetSpan
    | .instanceVar => s.useSelf
    | .global | .constant => s
  | .call receiver _ _ arguments block =>
    blockWalk (listWalk (receiverWalk s receiver) arguments) block
  | .yield arguments => listWalk s arguments
  | .return value | .break value => optionWalk s value
  | .conditional _ condition consequent alternative =>
    bodyWalk (listWalk (condition.walk s) consequent) alternative
  | .while condition body => (listWalk ((condition.walk s).enterLoop span) body).leaveLoop
  | .logical _ left right => right.walk (left.walk s)
  | .not operand => operand.walk s
  | .defMethod m => m.walk s
  | .defClass ⟨_, _, _, _, methods⟩ => methodsWalk s methods

/-- A definition has scopes of its own. -/
def MethodDef.walk (s : CaptureState) : MethodDef → CaptureState
  | ⟨_, _, _, parameters, body⟩ =>
    s.absorb (listWalk (CaptureState.start (parameters.map (·.name))) body)

def methodsWalk (s : CaptureState) : List MethodDef → CaptureState
  | [] => s
  | m :: ms => methodsWalk (m.walk s) ms

def listWalk (s : CaptureState) : List Expr → CaptureState
  | [] => s
  | e :: es => listWalk (e.walk s) es

def optionWalk (s : CaptureState) : Option Expr → CaptureState
  | none => s
  | some e => e.walk s

/-- A call without a receiver is a call on `self`. -/
def receiverWalk (s : CaptureState) : Option Expr → CaptureState
  | none => s.useSelf
  | some e => e.walk s

def bodyWalk (s : CaptureState) : Option (List Expr) → CaptureState
  | none => s
  | some es => listWalk s es

def blockWalk (s : CaptureState) : Option Block → CaptureState
  | none => s
  | some ⟨id, span, parameters, body⟩ =>
    (listWalk (s.enterBlock id span (parameters.map (·.name))) body).leaveBlock

end

/-- The scopes of all blocks of a program. -/
structure CaptureTable where
  entries : List BlockScope
  deriving Repr

namespace CaptureTable

def block? (t : CaptureTable) (id : NodeId) : Option BlockScope :=
  t.entries.find? (·.block == id)

def size (t : CaptureTable) : Nat := t.entries.length

def isEmpty (t : CaptureTable) : Bool := t.entries.isEmpty

/-- The blocks by ascending node number. -/
def sorted (t : CaptureTable) : List BlockScope :=
  t.entries.mergeSort fun a b => a.block.val ≤ b.block.val

end CaptureTable

/-- Find what every block in a list of bodies captures. The bodies share their top level. -/
def bindBlocks (bodies : List (List Expr)) : CaptureTable :=
  ⟨(bodies.foldl listWalk (CaptureState.start [])).blocks⟩

end TypedBlocks

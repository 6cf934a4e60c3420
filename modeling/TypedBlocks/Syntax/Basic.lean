import TypedBlocks.Text.Span

/-!
# Expressions

Every statement of the language is an expression with a node number and a span. Definitions of
methods, classes and libraries are expressions too, but their bodies are not among the parts of
the place where they stand.
-/
namespace TypedBlocks

/-- Number of a syntax node, unique among all modules of a program. -/
structure NodeId where
  val : Nat
  deriving DecidableEq, Repr, Inhabited

inductive Literal where
  | integer (value : Int64)
  | float (value : Float)
  | string (value : String)
  | char (value : Char)
  | boolean (value : Bool)
  | nil
  deriving DecidableEq, Repr

inductive VariableKind where
  | local | instanceVar | global | constant
  deriving DecidableEq, Repr

/-- A variable by its kind and its name, the sigil included. -/
structure Variable where
  kind : VariableKind
  name : String
  deriving DecidableEq, Repr

inductive ConditionKind where
  | if | unless
  deriving DecidableEq, Repr

inductive Connective where
  | and | or
  deriving DecidableEq, Repr

structure BlockParameter where
  name : String
  span : Span
  deriving DecidableEq, Repr

structure Parameter where
  name : String
  span : Span
  /-- Name of the class that arguments must belong to. -/
  restriction : Option String
  deriving DecidableEq, Repr

/-- A function that a library provides and the program only declares. -/
structure ForeignDef where
  name : String
  span : Span
  parameters : List Parameter
  returnType : Option String
  deriving DecidableEq, Repr

structure LibDef where
  name : String
  nameSpan : Span
  functions : List ForeignDef
  deriving DecidableEq, Repr

mutual

structure Expr where
  id : NodeId
  span : Span
  form : Form

inductive Form where
  | literal (value : Literal)
  | read (target : Variable)
  | self
  | assign (target : Variable) (targetSpan : Span) (value : Expr)
  | call (receiver : Option Expr) (name : String) (nameSpan : Span) (arguments : List Expr)
      (block : Option Block)
  | yield (arguments : List Expr)
  | return (value : Option Expr)
  | break (value : Option Expr)
  | conditional (kind : ConditionKind) (condition : Expr) (consequent : List Expr)
      (alternative : Option (List Expr))
  | while (condition : Expr) (body : List Expr)
  | logical (connective : Connective) (left right : Expr)
  | not (operand : Expr)
  | defMethod (definition : MethodDef)
  | defClass (definition : ClassDef)
  | defLib (definition : LibDef)

/-- A block literal that stands after a call. -/
structure Block where
  id : NodeId
  span : Span
  parameters : List BlockParameter
  body : List Expr

structure MethodDef where
  id : NodeId
  name : String
  nameSpan : Span
  parameters : List Parameter
  body : List Expr

structure ClassDef where
  name : String
  nameSpan : Span
  typeParameters : List String
  superclass : Option String
  methods : List MethodDef

end

/-- The statements of one source text. -/
structure Module where
  body : List Expr

/-- The direct parts of an expression, the bodies of its block included and definitions left out. -/
def Form.parts : Form → List Expr
  | .literal _ | .read _ | .self | .defMethod _ | .defClass _ | .defLib _ => []
  | .assign _ _ value => [value]
  | .call receiver _ _ arguments block =>
    receiver.toList ++ arguments ++ (match block with | some b => b.body | none => [])
  | .yield arguments => arguments
  | .return value | .break value => value.toList
  | .conditional _ condition consequent alternative =>
    condition :: consequent ++ alternative.getD []
  | .while condition body => condition :: body
  | .logical _ left right => [left, right]
  | .not operand => [operand]

def Expr.parts (e : Expr) : List Expr := e.form.parts

/-- The literal `true`, which makes a loop endless. -/
def Expr.alwaysTrue (e : Expr) : Bool :=
  match e.form with
  | .literal (.boolean true) => true
  | _ => false

mutual

/-- A `yield` occurs in the expression, blocks included and definitions left out. -/
def Expr.hasYield : Expr → Bool
  | ⟨_, _, form⟩ => form.hasYield

def Form.hasYield : Form → Bool
  | .literal _ | .read _ | .self | .defMethod _ | .defClass _ | .defLib _ => false
  | .assign _ _ value => value.hasYield
  | .call receiver _ _ arguments block =>
    optionContainsYield receiver || listContainsYield arguments || blockContainsYield block
  | .yield _ => true
  | .return value | .break value => optionContainsYield value
  | .conditional _ condition consequent alternative =>
    condition.hasYield || listContainsYield consequent || bodyContainsYield alternative
  | .while condition body => condition.hasYield || listContainsYield body
  | .logical _ left right => left.hasYield || right.hasYield
  | .not operand => operand.hasYield

def listContainsYield : List Expr → Bool
  | [] => false
  | e :: es => e.hasYield || listContainsYield es

def optionContainsYield : Option Expr → Bool
  | none => false
  | some e => e.hasYield

def bodyContainsYield : Option (List Expr) → Bool
  | none => false
  | some es => listContainsYield es

def blockContainsYield : Option Block → Bool
  | none => false
  | some ⟨_, _, _, body⟩ => listContainsYield body

end

/-- A method yields when a `yield` occurs anywhere in its body. -/
def MethodDef.yields (m : MethodDef) : Bool := listContainsYield m.body

end TypedBlocks

import TypedBlocks.Syntax.Basic
import TypedBlocks.Syntax.Error

/-!
# Reading expressions

A parser is a function of the tokens ahead, the next node number and the names that are local at
this place. Binary operators are read by precedence; a bare word is a local variable if it has been
assigned or declared before in the text, and a call otherwise.

The recursion is bounded by fuel. `Parser.statements` supplies more than any list of tokens can use
up, because no sixteen nested calls pass without a token being read.
-/
namespace TypedBlocks

structure ParserState where
  /-- The tokens ahead. -/
  tokens : List Token
  /-- The token that has been passed last. -/
  previous : Option Token
  nextId : NodeId
  /-- Names that are local variables here. -/
  locals : List String

/-- What no reader can do. -/
inductive Misstep where
  /-- Look at a token after the last one. -/
  | pastEnd
  /-- Take the token before the first one. -/
  | beforeStart
  /-- Negate the least integer. -/
  | overflow
  deriving DecidableEq, Repr

/-- Why a reader stopped without a result. -/
inductive ParserStop where
  | unexpected (error : SyntaxError)
  | misstep (what : Misstep)
  | outOfFuel
  deriving DecidableEq, Repr

abbrev Parser := StateT ParserState (Except ParserStop)

namespace Parser

def misstep {α : Type} (what : Misstep) : Parser α := fun _ => .error (.misstep what)

def outOfFuel {α : Type} : Parser α := fun _ => .error .outOfFuel

def ahead : Parser Token := fun s =>
  match s.tokens with
  | [] => misstep .pastEnd s
  | t :: _ => .ok (t, s)

def kindAhead : Parser TokenKind := do
  return (← ahead).kind

/-- Kind of the token after the one ahead. -/
def secondKind : Parser (Option TokenKind) := fun s => .ok ((s.tokens[1]?).map (·.kind), s)

/-- The token ahead, which is passed. An ending stays ahead, and the token before it is taken again. -/
def take : Parser Token := fun s =>
  match s.tokens with
  | [] => misstep .pastEnd s
  | t :: rest =>
    if t.kind == .ending then
      match s.previous with
      | some before => .ok (before, s)
      | none => misstep .beforeStart s
    else .ok (t, { s with tokens := rest, previous := some t })

def pass : Parser Unit := do
  let _ ← take

def unexpected {α : Type} (what : Expectation) : Parser α := do
  throw (.unexpected ⟨what, ← ahead⟩)

/-- Pass a token of the given kind. -/
def expect (kind : TokenKind) (what : Expectation) : Parser Unit := do
  if (← kindAhead) == kind then pass else unexpected what

/-- Pass all tokens of a class. -/
def passWhile (p : TokenKind → Bool) : Parser Unit := fun s =>
  let passed := s.tokens.takeWhile fun t => p t.kind
  match s.tokens.dropWhile fun t => p t.kind with
  | [] => misstep .pastEnd s
  | rest => .ok ((), { s with tokens := rest, previous := passed.getLast?.or s.previous })

def isNewline (k : TokenKind) : Bool := k == .newline

def isSeparator (k : TokenKind) : Bool := k == .newline || k == .mark .semicolon

def passNewlines : Parser Unit := passWhile isNewline

def passSeparators : Parser Unit := passWhile isSeparator

def newId : Parser NodeId := fun s => .ok (s.nextId, { s with nextId := ⟨s.nextId.val + 1⟩ })

def node (span : Span) (form : Form) : Parser Expr := do
  return ⟨← newId, span, form⟩

def declare (name : String) : Parser Unit := fun s =>
  .ok ((), { s with locals := name :: s.locals })

def isVariable (name : String) : Parser Bool := fun s => .ok (s.locals.contains name, s)

/-- Read with other local names, and come back to the present ones. -/
def withLocals {α : Type} (names : List String → List String) (p : Parser α) : Parser α := do
  let outer := (← get).locals
  modify fun s => { s with locals := names outer }
  let a ← p
  modify fun s => { s with locals := outer }
  return a

/-- How tightly a binary operator binds, from the loosest at one. -/
def bindingLevel : TokenKind → Option Nat
  | .mark .doublePipe => some 1
  | .mark .doubleAmpersand => some 2
  | .mark .doubleEqual | .mark .bangEqual => some 3
  | .mark .greater | .mark .greaterEqual | .mark .less | .mark .lessEqual => some 4
  | .mark .plus | .mark .minus => some 5
  | .mark .star | .mark .slash | .mark .percent => some 6
  | _ => none

/-- A token that begins an argument list without parentheses. -/
def beginsArgument : TokenKind → Bool
  | .identifier | .constant | .instanceVar | .global => true
  | .integer _ | .float _ | .string _ | .char _ | .boolean _ => true
  | .keyword .nil | .keyword .self | .keyword .yield => true
  | _ => false

/-- A token that begins the value of a `return` or `break`. -/
def beginsValue (k : TokenKind) : Bool :=
  beginsArgument k || k == .mark .leftParen || k == .mark .bang || k == .mark .minus

def variableKind? : TokenKind → Option VariableKind
  | .identifier => some .local
  | .instanceVar => some .instanceVar
  | .global => some .global
  | .constant => some .constant
  | _ => none

def isAssignment (k : TokenKind) : Bool :=
  k == .mark .equal || k == .mark .plusEqual || k == .mark .minusEqual || k == .mark .starEqual

/-- The operator of a compound assignment. -/
def compoundOperator? : TokenKind → Option String
  | .mark .plusEqual => some "+"
  | .mark .minusEqual => some "-"
  | .mark .starEqual => some "*"
  | _ => none

/-- The variable that is assigned here, if an assignment begins. -/
def assignedVariable? : Parser (Option Variable) := do
  let t ← ahead
  match ← secondKind with
  | some k => return if isAssignment k then (variableKind? t.kind).map (⟨·, t.lexeme⟩) else none
  | none => return none

def literal? : TokenKind → Option Literal
  | .integer n => some (.integer n)
  | .float x => some (.float x)
  | .string s => some (.string s)
  | .char c => some (.char c)
  | .boolean b => some (.boolean b)
  | .keyword .nil => some .nil
  | _ => none

def endsBody (k : TokenKind) : Bool := k == .keyword .end

def endsBranch (k : TokenKind) : Bool :=
  k == .keyword .end || k == .keyword .else || k == .keyword .elsif

def endsBraces (k : TokenKind) : Bool := k == .mark .rightBrace

def endsModule (k : TokenKind) : Bool := k == .ending

/-- A class name, or `nil` for the class of nil. -/
def typeName : Parser String := do
  let t ← ahead
  match t.kind with
  | .constant => pass; return t.lexeme
  | .keyword .nil => pass; return "Nil"
  | _ => unexpected .typeName

/-- A type name after a mark, or nothing where the mark is missing. -/
def typeNameAfter (m : Mark) : Parser (Option String) := do
  if (← kindAhead) == .mark m then
    pass
    return some (← typeName)
  else return none

def parametersTail : Nat → Parser (List Parameter)
  | 0 => outOfFuel
  | fuel + 1 => do
    if (← kindAhead) == .mark .rightParen then return []
    let name ← ahead
    unless name.kind == .identifier do unexpected .parameterName
    pass
    let restriction ← typeNameAfter .colon
    passNewlines
    let k ← kindAhead
    if k == .mark .comma then
      pass
      passNewlines
    else unless k == .mark .rightParen do unexpected .parameterSeparator
    return ⟨name.lexeme, name.span, restriction⟩ :: (← parametersTail fuel)

/-- The parameters of a method or library function; without parentheses there are none. -/
def parameters (fuel : Nat) : Parser (List Parameter) := do
  unless (← kindAhead) == .mark .leftParen do return []
  pass
  passNewlines
  let ps ← parametersTail fuel
  expect (.mark .rightParen) .endOfParameters
  return ps

def typeParametersTail : Nat → Parser (List String)
  | 0 => outOfFuel
  | fuel + 1 => do
    let name ← typeName
    if (← kindAhead) == .mark .comma then
      pass
      return name :: (← typeParametersTail fuel)
    else return [name]

def typeParameters (fuel : Nat) : Parser (List String) := do
  unless (← kindAhead) == .mark .leftParen do return []
  pass
  let names ← typeParametersTail fuel
  expect (.mark .rightParen) .endOfTypeParameters
  return names

/-- The name that a definition gives itself. -/
def definedName (kind : TokenKind) (what : Expectation) : Parser Token := do
  let t ← ahead
  unless t.kind == kind do unexpected what
  take

def foreigns : Nat → Parser (List ForeignDef)
  | 0 => outOfFuel
  | fuel + 1 => do
    passSeparators
    match ← kindAhead with
    | .keyword .end => return []
    | .keyword .fun =>
      pass
      let name ← definedName .identifier .foreignName
      let ps ← parameters fuel
      let returnType ← typeNameAfter .colon
      return ⟨name.lexeme, name.span, ps, returnType⟩ :: (← foreigns fuel)
    | _ => unexpected .libMember

def lib (fuel : Nat) : Parser Expr := do
  let start ← take
  let name ← definedName .constant .libName
  let functions ← foreigns fuel
  let last ← ahead
  expect (.keyword .end) .endOfLib
  node (start.span.union last.span) (.defLib ⟨name.lexeme, name.span, functions⟩)

def requirement : Parser Unit := do
  pass
  match ← kindAhead with
  | .string _ => pass
  | _ => unexpected .requiredFile

def blockParametersTail : Nat → Parser (List BlockParameter)
  | 0 => outOfFuel
  | fuel + 1 => do
    if (← kindAhead) == .mark .pipe then return []
    let name ← definedName .identifier .blockParameterName
    let k ← kindAhead
    if k == .mark .comma then pass
    else unless k == .mark .pipe do unexpected .blockParameterSeparator
    return ⟨name.lexeme, name.span⟩ :: (← blockParametersTail fuel)

def blockParameters (fuel : Nat) : Parser (List BlockParameter) := do
  unless (← kindAhead) == .mark .pipe do return []
  pass
  let ps ← blockParametersTail fuel
  pass
  return ps

/-- The last span of a list joined to `s`. -/
def spanTo (s : Span) (es : List Expr) : Span :=
  match es.getLast? with
  | some e => s.union e.span
  | none => s

/-- Negate a number literal in place; any other operand receives a message. -/
def negation (minus : Span) (operand : Expr) : Parser Form :=
  match operand.form with
  | .literal (.integer n) =>
    if n == Int64.minValue then misstep .overflow else return .literal (.integer (-n))
  | .literal (.float x) => return .literal (.float (-x))
  | _ => return .call (some operand) "-" minus [] none

mutual

/-- Statements up to a token that closes them, or up to the end of the text. -/
def body : Nat → (TokenKind → Bool) → Parser (List Expr)
  | 0, _ => outOfFuel
  | fuel + 1, closes => do
    passSeparators
    let k ← kindAhead
    if k == .ending || closes k then return []
    let first ← if k == .keyword .require then requirement *> pure [] else
      (fun e => [e]) <$> statement fuel
    let k ← kindAhead
    if isSeparator k then pass
    else unless closes k || k == .ending do unexpected .endOfStatement
    return first ++ (← body fuel closes)

/-- A definition or an expression, with modifiers after it. -/
def statement : Nat → Parser Expr
  | 0 => outOfFuel
  | fuel + 1 => do
    let e ← match ← kindAhead with
      | .keyword .define => defExpression fuel
      | .keyword .defineClass => classDefinition fuel
      | .keyword .lib => lib fuel
      | _ => expression fuel
    modifiers fuel e

/-- Conditions that stand after the expression they guard. -/
def modifiers : Nat → Expr → Parser Expr
  | 0, _ => outOfFuel
  | fuel + 1, e => do
    match ← kindAhead with
    | .keyword .if =>
      pass
      let condition ← expression fuel
      modifiers fuel
        (← node (e.span.union condition.span) (.conditional .if condition [e] none))
    | .keyword .unless =>
      pass
      let condition ← expression fuel
      modifiers fuel
        (← node (e.span.union condition.span) (.conditional .unless condition [e] none))
    | _ => return e

def defExpression : Nat → Parser Expr
  | 0 => outOfFuel
  | fuel + 1 => do
    let start ← ahead
    let m ← methodDefinition fuel
    node (start.span.union m.nameSpan) (.defMethod m)

def methodDefinition : Nat → Parser MethodDef
  | 0 => outOfFuel
  | fuel + 1 => do
    expect (.keyword .define) .defKeyword
    let id ← newId
    let name ← definedName .identifier .methodName
    let (ps, statements) ← withLocals (fun _ => []) do
      let ps ← parameters fuel
      ps.forM fun p => declare p.name
      return (ps, ← body fuel endsBody)
    expect (.keyword .end) .endOfMethod
    return ⟨id, name.lexeme, name.span, ps, statements⟩

def methodDefinitions : Nat → Parser (List MethodDef)
  | 0 => outOfFuel
  | fuel + 1 => do
    passSeparators
    match ← kindAhead with
    | .keyword .end => return []
    | .keyword .define =>
      let m ← methodDefinition fuel
      return m :: (← methodDefinitions fuel)
    | _ => unexpected .classMember

def classDefinition : Nat → Parser Expr
  | 0 => outOfFuel
  | fuel + 1 => do
    let start ← take
    let name ← definedName .constant .className
    let types ← typeParameters fuel
    let superclass ← typeNameAfter .less
    let methods ← methodDefinitions fuel
    let last ← ahead
    expect (.keyword .end) .endOfClass
    node (start.span.union last.span)
      (.defClass ⟨name.lexeme, name.span, types, superclass, methods⟩)

/-- An assignment, or an operator expression that may be the condition of a choice. -/
def expression : Nat → Parser Expr
  | 0 => outOfFuel
  | fuel + 1 => do
    match ← assignedVariable? with
    | some target => assignment fuel target
    | none =>
      let condition ← operators fuel 0
      if (← kindAhead) == .mark .question then
        pass
        passNewlines
        let consequent ← expression fuel
        passNewlines
        expect (.mark .colon) .conditionalColon
        passNewlines
        let alternative ← expression fuel
        node (condition.span.union alternative.span)
          (.conditional .if condition [consequent] (some [alternative]))
      else return condition

/-- An assignment; a compound one reads the variable first. The name counts as local already inside
the value. -/
def assignment : Nat → Variable → Parser Expr
  | 0, _ => outOfFuel
  | fuel + 1, target => do
    let targetToken ← take
    let targetSpan := targetToken.span
    let operator ← take
    passNewlines
    if target.kind == .local then declare target.name
    let operand ← expression fuel
    let value ← match compoundOperator? operator.kind with
      | none => pure operand
      | some name => do
        let current ← node targetSpan (.read target)
        node (targetSpan.union operand.span)
          (.call (some current) name operator.span [operand] none)
    node (targetSpan.union value.span) (.assign target targetSpan value)

/-- Operators that bind more tightly than `level`. -/
def operators : Nat → Nat → Parser Expr
  | 0, _ => outOfFuel
  | fuel + 1, level => do
    let left ← unary fuel
    operatorsAfter fuel level left

/-- The operators that follow a first operand, grouped to the left. -/
def operatorsAfter : Nat → Nat → Expr → Parser Expr
  | 0, _, _ => outOfFuel
  | fuel + 1, level, left => do
    match bindingLevel (← kindAhead) with
    | none => return left
    | some next =>
      if next ≤ level then return left
      let operator ← take
      passNewlines
      let right ← operators fuel next
      let span := (left.span.union operator.span).union right.span
      let form : Form :=
        if operator.kind == .mark .doublePipe then .logical .or left right
        else if operator.kind == .mark .doubleAmpersand then .logical .and left right
        else .call (some left) operator.lexeme operator.span [right] none
      operatorsAfter fuel level (← node span form)

def unary : Nat → Parser Expr
  | 0 => outOfFuel
  | fuel + 1 => do
    match ← kindAhead with
    | .mark .bang =>
      let mark ← take
      let operand ← unary fuel
      node (mark.span.union operand.span) (.not operand)
    | .mark .minus =>
      let mark ← take
      let operand ← unary fuel
      node (mark.span.union operand.span) (← negation mark.span operand)
    | _ =>
      let e ← primary fuel
      members fuel e

/-- The calls that follow an expression after a dot. -/
def members : Nat → Expr → Parser Expr
  | 0, _ => outOfFuel
  | fuel + 1, e => do
    if (← kindAhead) == .mark .dot then
      pass
      passNewlines
      let name ← ahead
      unless name.kind == .identifier || name.kind == .constant do unexpected .memberName
      pass
      members fuel (← call fuel (some e) name)
    else return e

/-- A call after its name: arguments and block. -/
def call : Nat → Option Expr → Token → Parser Expr
  | 0, _, _ => outOfFuel
  | fuel + 1, receiver, name => do
    let args ← arguments fuel
    let start := match receiver with
      | some r => r.span.union name.span
      | none => name.span
    let span := spanTo start args
    let k ← kindAhead
    if k == .mark .leftBrace || k == .keyword .do then
      let b ← block fuel
      node (span.union b.span) (.call receiver name.lexeme name.span args (some b))
    else node span (.call receiver name.lexeme name.span args none)

def arguments : Nat → Parser (List Expr)
  | 0 => outOfFuel
  | fuel + 1 => do
    let k ← kindAhead
    if k == .mark .leftParen then
      pass
      passNewlines
      let args ← argumentsTail fuel
      expect (.mark .rightParen) .endOfArguments
      return args
    else if beginsArgument k then commandArguments fuel
    else return []

/-- Arguments up to the closing parenthesis. -/
def argumentsTail : Nat → Parser (List Expr)
  | 0 => outOfFuel
  | fuel + 1 => do
    if (← kindAhead) == .mark .rightParen then return []
    let first ← expression fuel
    passNewlines
    let k ← kindAhead
    if k == .mark .comma then
      pass
      passNewlines
    else unless k == .mark .rightParen do unexpected .argumentSeparator
    return first :: (← argumentsTail fuel)

/-- Arguments without parentheses. -/
def commandArguments : Nat → Parser (List Expr)
  | 0 => outOfFuel
  | fuel + 1 => do
    let first ← expression fuel
    if (← kindAhead) == .mark .comma then
      pass
      passNewlines
      return first :: (← commandArguments fuel)
    else return [first]

/-- A block literal, in which the names around it stay local. -/
def block : Nat → Parser Block
  | 0 => outOfFuel
  | fuel + 1 => do
    let opening ← take
    let braced := opening.kind == .mark .leftBrace
    let id ← newId
    let ps ← blockParameters fuel
    let statements ← withLocals (fun outer => ps.map (·.name) ++ outer)
      (body fuel (if braced then endsBraces else endsBody))
    let closing ← ahead
    if braced then expect (.mark .rightBrace) .closingBrace
    else expect (.keyword .end) .endOfBlock
    return ⟨id, opening.span.union closing.span, ps, statements⟩

def primary : Nat → Parser Expr
  | 0 => outOfFuel
  | fuel + 1 => do
    let t ← ahead
    match literal? t.kind with
    | some l =>
      pass
      node t.span (.literal l)
    | none =>
      match t.kind with
      | .identifier =>
        pass
        if (← isVariable t.lexeme) && (← kindAhead) != .mark .leftParen then
          node t.span (.read ⟨.local, t.lexeme⟩)
        else call fuel none t
      | .constant =>
        pass
        node t.span (.read ⟨.constant, t.lexeme⟩)
      | .instanceVar =>
        pass
        node t.span (.read ⟨.instanceVar, t.lexeme⟩)
      | .global =>
        pass
        node t.span (.read ⟨.global, t.lexeme⟩)
      | .keyword .self =>
        pass
        node t.span .self
      | .mark .leftParen =>
        pass
        passNewlines
        let inner ← expression fuel
        passNewlines
        let closing ← ahead
        expect (.mark .rightParen) .closingParen
        return { inner with span := t.span.union closing.span }
      | .keyword .yield =>
        pass
        let args ← arguments fuel
        node (spanTo t.span args) (.yield args)
      | .keyword .return =>
        pass
        let value ← exitValue fuel
        node (spanTo t.span value.toList) (.return value)
      | .keyword .break =>
        pass
        let value ← exitValue fuel
        node (spanTo t.span value.toList) (.break value)
      | .keyword .if => conditional fuel .if
      | .keyword .unless => conditional fuel .unless
      | .keyword .while => loop fuel
      | _ => unexpected .expression

def exitValue : Nat → Parser (Option Expr)
  | 0 => outOfFuel
  | fuel + 1 => do
    if beginsValue (← kindAhead) then some <$> expression fuel else return none

/-- A conditional; `elsif` opens another one in the place of the alternative, and both share one
`end`. -/
def conditional : Nat → ConditionKind → Parser Expr
  | 0, _ => outOfFuel
  | fuel + 1, kind => do
    let start ← take
    let condition ← expression fuel
    let consequent ← body fuel endsBranch
    let k ← kindAhead
    if k == .keyword .elsif && kind == .if then
      let nested ← conditional fuel .if
      node (start.span.union nested.span)
        (.conditional kind condition consequent (some [nested]))
    else
      let alternative ← if k == .keyword .else then pass *> some <$> body fuel endsBody
        else pure none
      let last ← ahead
      expect (.keyword .end) .endOfConditional
      node (start.span.union last.span) (.conditional kind condition consequent alternative)

def loop : Nat → Parser Expr
  | 0 => outOfFuel
  | fuel + 1 => do
    let start ← take
    let condition ← expression fuel
    let statements ← body fuel endsBody
    let last ← ahead
    expect (.keyword .end) .endOfLoop
    node (start.span.union last.span) (.while condition statements)

end

/-- All statements in a list of tokens, with their nodes numbered from `first`. -/
def statements (first : NodeId) (tokens : List Token) :
    Except ParserStop (List Expr × ParserState) :=
  body (16 * tokens.length + 16) endsModule ⟨tokens, none, first, []⟩

end Parser

/-- Why a list of tokens is no module. -/
inductive ParseFailure where
  | unexpected (error : SyntaxError)
  /-- The reader failed on its own account, which never happens. -/
  | outOfFuel
  deriving DecidableEq, Repr

def ParserStop.failure : ParserStop → ParseFailure
  | .unexpected e => .unexpected e
  | .misstep _ | .outOfFuel => .outOfFuel

/-- The module that a list of tokens stands for, with its nodes numbered from `first`, and the next
free number. -/
def Module.parse (first : NodeId) (tokens : List Token) :
    Except ParseFailure (Module × NodeId) :=
  match Parser.statements first tokens with
  | .ok (statements, s) => .ok (⟨statements⟩, s.nextId)
  | .error stop => .error stop.failure

end TypedBlocks

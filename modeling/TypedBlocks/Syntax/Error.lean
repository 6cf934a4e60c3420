import TypedBlocks.Token.Basic
import TypedBlocks.Diagnostic

/-!
# Syntax errors

A syntax error names what the reader expected and the token it found instead.
-/
namespace TypedBlocks

/-- What may stand at a place where something else was found. -/
inductive Expectation where
  | endOfStatement | requiredFile | defKeyword | methodName | endOfMethod
  | parameterName | parameterSeparator | endOfParameters | typeName
  | className | endOfTypeParameters | classMember | endOfClass
  | libName | foreignName | libMember | endOfLib
  | conditionalColon | memberName | argumentSeparator | endOfArguments
  | blockParameterName | blockParameterSeparator | closingBrace | endOfBlock
  | closingParen | endOfConditional | endOfLoop | expression
  deriving DecidableEq, Repr

namespace Expectation

def text : Expectation → String
  | endOfStatement => "expected newline or ';' after expression"
  | requiredFile => "expected a string after 'require'"
  | defKeyword => "expected 'def'"
  | methodName => "expected method name after 'def'"
  | endOfMethod => "expected 'end' to close method definition"
  | parameterName => "expected parameter name"
  | parameterSeparator => "expected ',' or ')' in parameter list"
  | endOfParameters => "expected ')' after parameters"
  | typeName => "expected a type name"
  | className => "expected class name after 'class'"
  | endOfTypeParameters => "expected ')' after type parameters"
  | classMember => "expected 'def' or 'end' inside class body"
  | endOfClass => "expected 'end' to close class"
  | libName => "expected library name after 'lib'"
  | foreignName => "expected function name after 'fun'"
  | libMember => "expected 'fun' or 'end' inside lib"
  | endOfLib => "expected 'end' to close lib"
  | conditionalColon => "expected ':' in conditional expression"
  | memberName => "expected method name after '.'"
  | argumentSeparator => "expected ',' or ')' in argument list"
  | endOfArguments => "expected ')' after arguments"
  | blockParameterName => "expected block parameter name"
  | blockParameterSeparator => "expected ',' or '|' in block parameters"
  | closingBrace => "expected '\x7d' to close block"
  | endOfBlock => "expected 'end' to close block"
  | closingParen => "expected ')' after expression"
  | endOfConditional => "expected 'end' to close conditional"
  | endOfLoop => "expected 'end' to close loop"
  | expression => "expected an expression"

end Expectation

structure SyntaxError where
  expected : Expectation
  found : Token
  deriving DecidableEq, Repr

namespace SyntaxError

def message (e : SyntaxError) : String :=
  s!"{e.expected.text} at line {e.found.line}, column {e.found.column} (found '{e.found.lexeme}')"

/-- The entry that points at the token. -/
def diagnostic (e : SyntaxError) : Diagnostic := ⟨e.expected.text, some e.found.span⟩

end SyntaxError

end TypedBlocks

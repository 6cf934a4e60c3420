import TypedBlocks.Syntax.Parser
import TypedBlocks.Token.Lexer

/-!
# Reading source texts

From texts to modules. Several texts are read one after another: each is a module with local
variables of its own, and node numbers go on from one to the next.
-/
namespace TypedBlocks

/-- Why a text is no module. -/
inductive ReadError where
  | lexical (error : LexError)
  | syntactic (failure : ParseFailure)
  deriving DecidableEq, Repr

namespace Module

/-- The module in a text, with nodes numbered from `first`, and the next free number. -/
def read (first : NodeId) (text : String) : Except ReadError (Module × NodeId) :=
  match Token.scan text with
  | .error e => .error (.lexical e)
  | .ok tokens =>
    match parse first tokens with
    | .error e => .error (.syntactic e)
    | .ok result => .ok result

/-- The modules in a list of texts, up to the first text that does not read. -/
def readAll (first : NodeId) : List String → Except ReadError (List Module × NodeId)
  | [] => .ok ([], first)
  | text :: texts =>
    match read first text with
    | .error e => .error e
    | .ok (m, next) =>
      match readAll next texts with
      | .error e => .error e
      | .ok (ms, last) => .ok (m :: ms, last)

end Module

end TypedBlocks

import TypedBlocks.Text.Span

/-!
# Tokens

The words and marks of the language. A token carries the characters that it was read from and the
place of the first of them; its value is part of its kind.
-/
namespace TypedBlocks

/-- Words with a meaning of their own, except where a method name is expected. -/
inductive Keyword where
  | define | defineClass | lib | fun | end | if | elsif | else | unless | while | return | break
  | yield | do | self | nil | require
  deriving DecidableEq, Repr

namespace Keyword

def all : List Keyword :=
  [.define, .defineClass, .lib, .fun, .end, .if, .elsif, .else, .unless, .while, .return, .break,
    .yield, .do, .self, .nil, .require]

def text : Keyword → String
  | .define => "def"
  | .defineClass => "class"
  | .lib => "lib"
  | .fun => "fun"
  | .end => "end"
  | .if => "if"
  | .elsif => "elsif"
  | .else => "else"
  | .unless => "unless"
  | .while => "while"
  | .return => "return"
  | .break => "break"
  | .yield => "yield"
  | .do => "do"
  | .self => "self"
  | .nil => "nil"
  | .require => "require"

def ofText? (word : String) : Option Keyword := all.find? (·.text == word)

end Keyword

/-- Punctuation and operators. -/
inductive Mark where
  | leftParen | rightParen | leftBrace | rightBrace
  | comma | dot | colon | semicolon
  | equal | doubleEqual | bang | bangEqual
  | greater | greaterEqual | less | lessEqual
  | plus | plusEqual | minus | minusEqual | star | starEqual | slash | percent
  | pipe | doublePipe | doubleAmpersand | question
  deriving DecidableEq, Repr

inductive TokenKind where
  | identifier | constant | instanceVar | global
  | integer (value : Int64)
  | float (value : Float)
  | string (value : String)
  | char (value : Char)
  | boolean (value : Bool)
  | keyword (word : Keyword)
  | mark (mark : Mark)
  | newline
  /-- The end of the text, which closes every list of tokens. -/
  | ending
  deriving DecidableEq, Repr

structure Token where
  kind : TokenKind
  lexeme : String
  position : Position
  deriving DecidableEq, Repr

namespace Token

def line (t : Token) : Nat := t.position.line

def column (t : Token) : Nat := t.position.column

/-- The places that a token covers, as if it stood on one line; an empty token covers one place. -/
def span (t : Token) : Span :=
  ⟨t.position, ⟨t.line, t.column + max 1 t.lexeme.length - 1⟩⟩

end Token

end TypedBlocks

import TypedBlocks.Text.Glyph
import TypedBlocks.Token.Basic
import TypedBlocks.Decimal.Format

/-!
# Reading tokens

`Token.scan` cuts a text into tokens. At each place the longest word, number or mark is taken;
blanks and comments are passed over, and every end of a line is a token. The place of a token
follows from the glyphs before it alone.
-/
namespace TypedBlocks

/-- Why a text has no tokens. -/
inductive LexError where
  | unexpectedCharacter (char : Char) (place : Position)
  | unterminatedString (start : Position)
  | unterminatedChar (start : Position)
  | emptyChar (start : Position)
  | unterminatedEscape (inString : Bool)
  | missingName (sigil : Char) (start : Position)
  | integerTooLarge (digits : String) (start : Position)
  deriving DecidableEq, Repr

namespace LexError

def placed (what : String) (p : Position) : String := s!"{what} at line {p.line}, column {p.column}"

def message : LexError → String
  | unexpectedCharacter c p => placed s!"Unexpected character '{c}'" p
  | unterminatedString p => placed "Unterminated string literal starting" p
  | unterminatedChar p => placed "Unterminated char literal starting" p
  | emptyChar p => placed "Empty char literal" p
  | unterminatedEscape true => "Unterminated escape sequence in string literal"
  | unterminatedEscape false => "Unterminated escape sequence in char literal"
  | missingName sigil p => placed s!"Expected a name after '{sigil}'" p
  | integerTooLarge digits p => placed s!"Failed to parse integer literal '{digits}'" p

end LexError

namespace Token

/-- What stands at the front of a text: a token of some kind, or nothing that counts, and how many
glyphs it covers beyond the first. -/
structure Piece where
  kind : Option TokenKind
  more : Nat
  deriving DecidableEq, Repr

def isWordChar (c : Char) : Bool := c.isAlphanum || c == '_'

def isNumberChar (c : Char) : Bool := c.isDigit || c == '_'

/-- The longest run of glyphs in a class of characters. -/
def run (p : Char → Bool) (gs : List Glyph) : List Glyph := gs.takeWhile fun g => p g.char

def charsOf (gs : List Glyph) : List Char := gs.map Glyph.char

/-- The character that a backslash and `c` stand for. -/
def unescape (c : Char) : Char :=
  match c with
  | 'n' => '\n'
  | 'r' => '\r'
  | 't' => '\t'
  | '0' => '\x00'
  | c => c

/-- The contents of a string after its opening quote, and the number of glyphs up to and with the
closing one. -/
def stringBody (start : Position) : List Glyph → Except LexError (List Char × Nat)
  | [] => .error (.unterminatedString start)
  | g :: rest =>
    if g.char == '"' then .ok ([], 1)
    else if g.char == '\n' then .error (.unterminatedString start)
    else if g.char == '\\' then
      match rest with
      | [] => .error (.unterminatedEscape true)
      | e :: rest => (stringBody start rest).map fun (cs, n) => (unescape e.char :: cs, n + 2)
    else (stringBody start rest).map fun (cs, n) => (g.char :: cs, n + 1)

/-- A character literal after its opening quote. -/
def charPiece (start : Position) (rest : List Glyph) : Except LexError Piece := do
  let (value, more, rest) ← match rest with
    | g :: rest =>
      if g.char == '\\' then
        match rest with
        | [] => throw (.unterminatedEscape false)
        | e :: rest => pure (unescape e.char, 2, rest)
      else if g.char == '\'' || g.char == '\n' then throw (.emptyChar start)
      else pure (g.char, 1, rest)
    | [] => throw (.emptyChar start)
  match rest with
  | g :: _ =>
    if g.char == '\'' then pure ⟨some (.char value), more + 1⟩ else throw (.unterminatedChar start)
  | [] => throw (.unterminatedChar start)

/-- Digits in groups, and a fraction if a digit follows the point. -/
def numberPiece (start : Position) (first : Glyph) (rest : List Glyph) : Except LexError Piece :=
  let whole := first :: run isNumberChar rest
  let fraction := match rest.drop (whole.length - 1) with
    | point :: digit :: rest =>
      if point.char == '.' && digit.char.isDigit then digit :: run isNumberChar rest else []
    | _ => []
  let digitsOf (gs : List Glyph) := (charsOf gs).filter Char.isDigit
  if fraction.isEmpty then
    let digits := digitsOf whole
    let n := Decimal.natOfDigits digits
    if n < Nat.pow 2 63 then .ok ⟨some (.integer (Int64.ofNat n)), whole.length - 1⟩
    else .error (.integerTooLarge (String.ofList digits) start)
  else
    let decimals := digitsOf fraction
    let value := Decimal.toFloat false
      ⟨Decimal.natOfDigits (digitsOf whole ++ decimals), -(decimals.length : Int)⟩
    .ok ⟨some (.float value), whole.length + fraction.length⟩

/-- The kind of a word that no keyword position overrides. -/
def wordKind (word : String) : TokenKind :=
  match Keyword.ofText? word with
  | some k => .keyword k
  | none =>
    if word == "true" then .boolean true
    else if word == "false" then .boolean false
    else if (word.toList.head?.any Char.isUpper) then .constant
    else .identifier

/-- A word. Where a method name is expected every word is one, and it takes a question or
exclamation mark along unless an equals sign follows. -/
def wordPiece (methodName : Bool) (first : Glyph) (rest : List Glyph) : Piece :=
  let tail := run isWordChar rest
  if methodName then
    let marked : Bool := match rest.drop tail.length with
      | m :: after =>
        (m.char == '?' || m.char == '!') && !(after.head?.any fun g => g.char == '=')
      | [] => false
    ⟨some .identifier, tail.length + if marked then 1 else 0⟩
  else ⟨some (wordKind (String.ofList (charsOf (first :: tail)))), tail.length⟩

/-- The name of an instance variable or of a global. -/
def sigilPiece (kind : TokenKind) (start : Position) (sigil : Char) (rest : List Glyph) :
    Except LexError Piece :=
  match rest with
  | g :: tail =>
    if g.char.isAlpha || g.char == '_' then .ok ⟨some kind, 1 + (run isWordChar tail).length⟩
    else .error (.missingName sigil start)
  | [] => .error (.missingName sigil start)

/-- The mark that a character is by itself, if any. -/
def loneMark? : Char → Option Mark
  | '(' => some .leftParen
  | ')' => some .rightParen
  | '{' => some .leftBrace
  | '}' => some .rightBrace
  | ',' => some .comma
  | ';' => some .semicolon
  | ':' => some .colon
  | '.' => some .dot
  | '/' => some .slash
  | '%' => some .percent
  | '?' => some .question
  | '=' => some .equal
  | '!' => some .bang
  | '>' => some .greater
  | '<' => some .less
  | '+' => some .plus
  | '-' => some .minus
  | '*' => some .star
  | '|' => some .pipe
  | _ => none

/-- The mark that two characters are together, if any. -/
def pairMark? : Char → Char → Option Mark
  | '=', '=' => some .doubleEqual
  | '!', '=' => some .bangEqual
  | '>', '=' => some .greaterEqual
  | '<', '=' => some .lessEqual
  | '+', '=' => some .plusEqual
  | '-', '=' => some .minusEqual
  | '*', '=' => some .starEqual
  | '|', '|' => some .doublePipe
  | '&', '&' => some .doubleAmpersand
  | _, _ => none

/-- A mark, of two characters if possible. -/
def markPiece (start : Position) (first : Char) (rest : List Glyph) : Except LexError Piece :=
  match rest.head?.bind (fun g => pairMark? first g.char) with
  | some m => .ok ⟨some (.mark m), 1⟩
  | none =>
    match loneMark? first with
    | some m => .ok ⟨some (.mark m), 0⟩
    | none => .error (.unexpectedCharacter first start)

/-- The piece that begins with glyph `g` at `start`. -/
def piece (methodName : Bool) (start : Position) (g : Glyph) (rest : List Glyph) :
    Except LexError Piece :=
  let c := g.char
  if c == ' ' || c == '\t' then .ok ⟨none, 0⟩
  else if g.endsLine then .ok ⟨some .newline, 0⟩
  else if c == '#' then .ok ⟨none, (run (· != '\n') rest).length⟩
  else if c == '"' then
    (stringBody start rest).map fun (cs, n) => ⟨some (.string (String.ofList cs)), n⟩
  else if c == '\'' then charPiece start rest
  else if c.isDigit then numberPiece start g rest
  else if c.isAlpha || c == '_' then .ok (wordPiece methodName g rest)
  else if c == '@' then sigilPiece .instanceVar start c rest
  else if c == '$' then sigilPiece .global start c rest
  else markPiece start c rest

/-- A word that follows one of these is a method name. -/
def expectsMethodName (k : TokenKind) : Bool := k == .mark .dot || k == .keyword .define

/-- The token of a piece. The end of a line is written as a line feed and stands at the front of the
line it ends. -/
def ofPiece (kind : TokenKind) (start : Position) (gs : List Glyph) : Token :=
  if kind == .newline then ⟨kind, "\n", ⟨start.line, 1⟩⟩
  else ⟨kind, String.ofList (Glyph.textOf gs), start⟩

/-- The tokens of a text that begins at `start`, after the tokens `before` in reverse. -/
def scanFrom (before : List Token) (start : Position) (gs : List Glyph) :
    Except LexError (List Token) :=
  match gs with
  | [] => .ok (⟨.ending, "", start⟩ :: before).reverse
  | g :: rest =>
    match piece (before.head?.any fun t => expectsMethodName t.kind) start g rest with
    | .error e => .error e
    | .ok p =>
      let covered := g :: rest.take p.more
      let before := match p.kind with
        | some kind => ofPiece kind start covered :: before
        | none => before
      scanFrom before (start.after covered) (rest.drop p.more)
termination_by gs.length
decreasing_by simp only [List.length_drop, List.length_cons]; omega

/-- All tokens of a text, the last of them its ending. -/
def scan (text : String) : Except LexError (List Token) :=
  scanFrom [] Position.start (Glyph.ofChars text.toList)

end Token

end TypedBlocks

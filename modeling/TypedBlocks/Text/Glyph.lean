import TypedBlocks.Text.Span

/-!
# Glyphs

A text as its reader meets it: character by character, except that a carriage return takes the line
feed after it along. Both characters of such a pair together end one line.
-/
namespace TypedBlocks

structure Glyph where
  char : Char
  /-- A line feed follows the carriage return and belongs to it. -/
  paired : Bool := false
  deriving DecidableEq, Repr, Inhabited

namespace Glyph

/-- The characters that the glyph stands for. -/
def text (g : Glyph) : List Char := if g.paired then [g.char, '\n'] else [g.char]

def endsLine (g : Glyph) : Bool := g.char == '\r' || g.char == '\n'

/-- Cut a text into glyphs. -/
def ofChars : List Char → List Glyph
  | [] => []
  | '\r' :: '\n' :: rest => ⟨'\r', true⟩ :: ofChars rest
  | c :: rest => ⟨c, false⟩ :: ofChars rest

/-- The text of a run of glyphs. -/
def textOf (gs : List Glyph) : List Char := gs.flatMap text

theorem textOf_ofChars (cs : List Char) : textOf (ofChars cs) = cs := by
  fun_induction ofChars cs with
  | case1 => rfl
  | case2 rest ih => simpa [textOf, text] using ih
  | case3 c rest _ ih => simpa [textOf, text] using ih

end Glyph

namespace Position

/-- The place after one glyph that stands at `p`. -/
def step (p : Position) (g : Glyph) : Position :=
  if g.endsLine then ⟨p.line + 1, 1⟩ else ⟨p.line, p.column + 1⟩

/-- The place after a run of glyphs that starts at `p`. -/
def after (p : Position) (gs : List Glyph) : Position := gs.foldl step p

end Position

end TypedBlocks

import TypedBlocks.Text.Span

/-!
# Diagnostics

What a compilation has to say about a program. Every diagnostic is an error.
-/
namespace TypedBlocks

structure Diagnostic where
  message : String
  span : Option Span
  deriving DecidableEq, Repr

/-- The line that is shown for a diagnostic. -/
def Diagnostic.text (d : Diagnostic) : String :=
  match d.span with
  | some s => s!"error at line {s.first.line}, column {s.first.column}: {d.message}"
  | none => s!"error: {d.message}"

/-- The diagnostics so far, the earliest first. -/
structure Diagnostics where
  entries : List Diagnostic
  deriving DecidableEq, Repr

namespace Diagnostics

def empty : Diagnostics := ⟨[]⟩

def push (ds : Diagnostics) (message : String) (span : Option Span) : Diagnostics :=
  ⟨ds.entries ++ [⟨message, span⟩]⟩

def append (ds more : Diagnostics) : Diagnostics := ⟨ds.entries ++ more.entries⟩

def isEmpty (ds : Diagnostics) : Bool := ds.entries.isEmpty

def hasErrors (ds : Diagnostics) : Bool := !ds.isEmpty

def messages (ds : Diagnostics) : List String := ds.entries.map (·.message)

end Diagnostics

end TypedBlocks

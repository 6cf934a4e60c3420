import TypedBlocks.Compilation.Prelude
import TypedBlocks.Evaluation.Basic
import TypedBlocks.Inference.Fixpoint
import TypedBlocks.Syntax.Source

/-!
# Compilation

From a text to a typed program. The phases run in a fixed order, and the first that fails ends the
compilation: reading the prelude, reading the text, collecting definitions, resolving exits,
inferring types. What a phase finds wrong goes to the diagnostics, which later texts of a session
keep.
-/
namespace TypedBlocks

/-- A program that has passed all phases. -/
structure Compilation where
  program : Typed.Program
  exits : ExitTable
  captures : CaptureTable

/-- A phase that can reject a program. -/
inductive Phase where
  | lexing
  | parsing
  | exitResolution
  /-- The collection of definitions counts as part of type inference. -/
  | inference
  deriving DecidableEq, Repr

/-- Summary of a failure in the phase. -/
def Phase.failure : Phase → String
  | lexing => "Lexing failed"
  | parsing => "Parsing failed"
  | exitResolution => "Exit target resolution failed"
  | inference => "Type inference failed"

namespace Compilation

/-- Why the modules of a program make no typed program. -/
inductive Rejection where
  | errors (phase : Phase) (es : List StaticError)
  | outOfFuel
  deriving DecidableEq, Repr

/-- Check and elaborate the bodies of a program's modules, the prelude's first. -/
def ofBodies (limits : Inference.Limits) (bodies : List (List Expr)) :
    Except Rejection Compilation :=
  match Definitions.ofBodies bodies with
  | .error es => .error (.errors .inference es)
  | .ok definitions =>
    match resolveExits bodies with
    | .error es => .error (.errors .exitResolution es)
    | .ok exits =>
      let captures := bindBlocks bodies
      match Inference.infer ⟨definitions, exits, captures, limits⟩ Inference.ampleFuel bodies with
      | .error (.errors es) => .error (.errors .inference es)
      | .error .outOfFuel => .error .outOfFuel
      | .ok program => .ok ⟨program, exits, captures⟩

/-- Static type of the whole program; none if it never completes. -/
def resultTy? (c : Compilation) : Option Ty := c.program.resultTy?

/-- Run the program, and give the machine that it leaves behind as well. -/
def evaluate (c : Compilation) : Typed.Answer × Machine := c.program.run Typed.ampleFuel

structure Options where
  includePrelude : Bool
  limits : Inference.Limits
  deriving DecidableEq, Repr

def Options.standard : Options := ⟨true, Inference.Limits.standard⟩

/-- Why a text did not compile; the details are in the diagnostics. -/
inductive Failure where
  | failed (phase : Phase)
  | outOfFuel
  deriving DecidableEq, Repr

end Compilation

/-- A step of a compilation: it may fail, and it keeps its diagnostics even then. -/
abbrev Compile := ExceptT Compilation.Failure (StateM Diagnostics)

namespace Compile

def report (message : String) (span : Option Span) : Compile Unit := modify (·.push message span)

/-- Read one text. A syntax error is reported twice, once at its token and once with the token in
the message. Diagnostics of earlier texts fail this phase too, without a word of its own. -/
def read (first : NodeId) (text : String) : Compile (Module × NodeId) := do
  match Module.read first text with
  | .error (.lexical e) =>
    report e.message none
    throw (.failed .lexing)
  | .error (.syntactic (.unexpected e)) =>
    report e.diagnostic.message e.diagnostic.span
    report e.message none
    throw (.failed .parsing)
  | .error (.syntactic .outOfFuel) => throw .outOfFuel
  | .ok result =>
    if (← getThe Diagnostics).hasErrors then throw (.failed .parsing)
    return result

/-- Read a text and, if the options say so, the prelude before it. -/
def readWithPrelude (options : Compilation.Options) (text : String) : Compile (List Module) := do
  if options.includePrelude then
    let (library, next) ← read ⟨0⟩ preludeText
    let (program, _) ← read next text
    return [library, program]
  else
    let (program, _) ← read ⟨0⟩ text
    return [program]

/-- Compile one text. -/
def compile (options : Compilation.Options) (text : String) : Compile Compilation := do
  let modules ← readWithPrelude options text
  match Compilation.ofBodies options.limits (modules.map (·.body)) with
  | .ok c => return c
  | .error (.errors phase es) =>
    modify (es.foldl Diagnostics.pushStatic)
    throw (.failed phase)
  | .error .outOfFuel => throw .outOfFuel

end Compile

namespace Compilation

/-- Compile a text with the diagnostics of those before it. -/
def ofText (options : Options) (text : String) (ds : Diagnostics) :
    Except Failure Compilation × Diagnostics :=
  (Compile.compile options text).run.run ds

/-- Compile texts in turn; each keeps the diagnostics of those before it. -/
def ofTexts (options : Options) : List String → Diagnostics →
    List (Except Failure Compilation × Diagnostics)
  | [], _ => []
  | text :: texts, ds =>
    let r := ofText options text ds
    r :: ofTexts options texts r.2

end Compilation

end TypedBlocks

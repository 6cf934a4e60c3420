import TypedBlocks.Diagnostic

/-!
# Static errors

What can be wrong with a program that reads well: exits and yields without a target, names without a
definition, and expansions beyond a limit.
-/
namespace TypedBlocks

inductive StaticError where
  | unresolvedExit (keyword : String) (span : Span)
  | yieldOutsideMethod (span : Span)
  | noFixedPoint (passes : Nat)
  | inlineDepthExceeded (name : String) (limit : Nat) (span : Span)
  | undefinedMethod (receiver name : String) (arity : Nat) (span : Span)
  | missingBlock (name : String) (span : Span)
  | undefinedConstant (name : String) (span : Span)
  | instanceVariableOutsideObject (name : String) (span : Span)
  | tooManyArms (name : String) (arms limit : Nat) (span : Span)
  | unknownSuperclass (className superclass : String) (span : Span)
  deriving DecidableEq, Repr

namespace StaticError

def message : StaticError → String
  | unresolvedExit keyword _ => s!"'{keyword}' has no enclosing target it could exit to"
  | yieldOutsideMethod _ => "'yield' can only appear inside a method definition"
  | noFixedPoint passes => s!"type inference did not reach a fixed point after {passes} passes"
  | inlineDepthExceeded name limit _ => s!"inlining '{name}' exceeded the nesting limit of {limit}"
  | undefinedMethod receiver name arity _ =>
    s!"undefined method '{name}' for {receiver} with {arity} argument(s)"
  | missingBlock name _ => s!"'{name}' yields but was called without a block"
  | undefinedConstant name _ => s!"undefined constant '{name}'"
  | instanceVariableOutsideObject name _ =>
    s!"instance variable '{name}' used outside of an object"
  | tooManyArms name arms limit _ =>
    s!"call to '{name}' expands into {arms} dispatch arms (limit {limit})"
  | unknownSuperclass className superclass _ =>
    s!"class '{className}' inherits from unknown class '{superclass}'"

/-- The place of the fault; only the lack of a fixed point has none. -/
def span : StaticError → Option Span
  | noFixedPoint _ => none
  | unresolvedExit _ s | yieldOutsideMethod s | inlineDepthExceeded _ _ s
  | undefinedMethod _ _ _ s | missingBlock _ s | undefinedConstant _ s
  | instanceVariableOutsideObject _ s | tooManyArms _ _ _ s | unknownSuperclass _ _ s => some s

def diagnostic (e : StaticError) : Diagnostic := ⟨e.message, e.span⟩

end StaticError

/-- Add a static error to the diagnostics. -/
def Diagnostics.pushStatic (ds : Diagnostics) (e : StaticError) : Diagnostics :=
  ds.push e.message e.span

end TypedBlocks

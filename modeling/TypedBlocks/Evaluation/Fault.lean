import TypedBlocks.Evaluation.Value
import TypedBlocks.Program.Primitive
import TypedBlocks.Typed.Basic

/-!
# Faults

What can go wrong while a program runs.
-/
namespace TypedBlocks

inductive Fault where
  | foreignCall (lib name : String)
  | noMatchingArm (classes : List String)
  | divisionByZero
  | invalidOperands (operation : Primitive) (classes : List String)
  | escapedReturn
  | escapedBreak
  | unknownMethod (id : Typed.InstanceId)
  deriving DecidableEq, Repr

def Fault.message : Fault → String
  | foreignCall lib name =>
    "external function '" ++ lib ++ "." ++ name ++ "' cannot be called by the evaluator"
  | noMatchingArm classes =>
    "no dispatch arm matches runtime classes (" ++ ", ".intercalate classes ++ ")"
  | divisionByZero => "division by zero"
  | invalidOperands p classes =>
    "invalid operands for " ++ p.text ++ ": " ++ ", ".intercalate classes
  | escapedReturn => "'return' escaped the frame it targets"
  | escapedBreak => "'break' escaped the frame it targets"
  | unknownMethod id => "unknown method instance " ++ toString id.val

end TypedBlocks

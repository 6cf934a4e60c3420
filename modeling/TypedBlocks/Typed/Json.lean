import TypedBlocks.Json.Basic
import TypedBlocks.Typed.Basic

/-!
# Typed programs as data

The JSON form in which a typed program is handed on. Alternatives are tagged by name, alternatives
without parts are plain names, and numbers of frames, slots and the like are bare.
-/
namespace TypedBlocks

open Json (count str list record listOf option tagged)

namespace SimpleTy

def toJson : SimpleTy → Json
  | classOf name => tagged "Class" (str name)
  | t => str t.className

end SimpleTy

namespace Ty

mutual

def toJson : Ty → Json
  | .simple s => tagged "Simple" s.toJson
  | .object name vars =>
    tagged "Object" (record [("name", str name), ("instance_vars", list (varsToJson vars))])
  | .union ms => tagged "Union" (record [("members", list (membersToJson ms))])

def varToJson : String × Ty → Json
  | (name, t) => list [str name, t.toJson]

def varsToJson : List (String × Ty) → List Json
  | [] => []
  | v :: vs => varToJson v :: varsToJson vs

def membersToJson : List Ty → List Json
  | [] => []
  | t :: ts => t.toJson :: membersToJson ts

end

end Ty

def Literal.toJson : Literal → Json
  | .integer n => tagged "Integer" (.integer n)
  | .float x => tagged "Float" (.real x)
  | .string s => tagged "String" (str s)
  | .char c => tagged "Char" (str (String.singleton c))
  | .boolean b => tagged "Boolean" (.bool b)
  | .nil => str "Nil"

def Span.toJson (s : Span) : Json :=
  record [("line", count s.first.line), ("column", count s.first.column),
    ("end_line", count s.last.line), ("end_column", count s.last.column)]

def Capture.toJson (c : Capture) : Json :=
  record [("name", str c.name), ("mutated_inside", .bool c.mutatedInside),
    ("mutated_after", .bool c.mutatedAfter)]

def BlockScope.toJson (b : BlockScope) : Json :=
  record [("block", count b.block.val), ("span", b.span.toJson),
    ("parameters", listOf str b.parameters), ("block_locals", listOf str b.locals),
    ("captures", listOf Capture.toJson b.captures), ("captures_self", .bool b.capturesSelf)]

def BreakTarget.toJson : BreakTarget → Json
  | .call site => tagged "Call" (count site.val)
  | .loop id => tagged "Loop" (count id.val)

namespace Typed

def SlotId.toJson (s : SlotId) : Json := count s.val

def slotsToJson (slots : List SlotId) : Json := listOf SlotId.toJson slots

mutual

def Expr.toJson : Expr → Json
  | ⟨ty, node⟩ => record [("ty", option Ty.toJson ty), ("kind", node.toJson)]

def Node.toJson : Node → Json
  | .literal value => tagged "Literal" value.toJson
  | .slot slot => tagged "Local" slot.toJson
  | .assign slot value =>
    tagged "Assign" (record [("local", slot.toJson), ("value", value.toJson)])
  | .instanceVar object name =>
    tagged "InstanceVar" (record [("object", object.toJson), ("name", str name)])
  | .assignInstanceVar object name value =>
    tagged "AssignInstanceVar"
      (record [("object", object.toJson), ("name", str name), ("value", value.toJson)])
  | .global name => tagged "Global" (str name)
  | .assignGlobal name value =>
    tagged "AssignGlobal" (record [("name", str name), ("value", value.toJson)])
  | .constant name => tagged "Constant" (str name)
  | .assignConstant name value =>
    tagged "AssignConstant" (record [("name", str name), ("value", value.toJson)])
  | .classRef name => tagged "ClassRef" (str name)
  | .mainObject => str "MainObject"
  | .sequence parts => tagged "Sequence" (list (exprsToJson parts))
  | .conditional condition consequent alternative =>
    tagged "If" (record [("condition", condition.toJson), ("then_branch", consequent.toJson),
      ("else_branch", alternative.toJson)])
  | .while id condition body =>
    tagged "While"
      (record [("id", count id.val), ("condition", condition.toJson), ("body", body.toJson)])
  | .and left right => tagged "And" (record [("left", left.toJson), ("right", right.toJson)])
  | .or left right => tagged "Or" (record [("left", left.toJson), ("right", right.toJson)])
  | .not operand => tagged "Not" operand.toJson
  | .call method receiver arguments =>
    tagged "Call" (record [("method", count method.val), ("receiver", receiver.toJson),
      ("arguments", list (exprsToJson arguments))])
  | .primitive operation receiver arguments =>
    tagged "Intrinsic" (record [("op", str operation.text), ("receiver", receiver.toJson),
      ("arguments", list (exprsToJson arguments))])
  | .construct className initializer arguments =>
    tagged "New" (record [("class", str className),
      ("initializer", option (fun id => count id.val) initializer),
      ("arguments", list (exprsToJson arguments))])
  | .foreign lib name arguments =>
    tagged "Extern" (record [("lib", str lib), ("name", str name),
      ("arguments", list (exprsToJson arguments))])
  | .inline call => tagged "Inline" call.toJson
  | .yield parameters locals arguments body =>
    tagged "Yield" (record [("parameters", slotsToJson parameters), ("locals", slotsToJson locals),
      ("arguments", list (exprsToJson arguments)), ("body", body.toJson)])
  | .dispatch scrutinees temps arms =>
    tagged "Dispatch" (record [("scrutinees", list (exprsToJson scrutinees)),
      ("temps", slotsToJson temps), ("arms", list (armsToJson arms))])
  | .return target value =>
    tagged "Return" (record [("target", count target.val), ("value", value.toJson)])
  | .break target value =>
    tagged "Break" (record [("target", target.toJson), ("value", value.toJson)])

def ExpandedCall.toJson : ExpandedCall → Json
  | ⟨site, frame, name, selfSlot, receiver, parameters, locals, arguments, body, breakType,
      returnType⟩ =>
    record [("site", count site.val), ("frame", count frame.val), ("name", str name),
      ("self_local", selfSlot.toJson), ("receiver", receiver.toJson),
      ("parameters", slotsToJson parameters), ("locals", slotsToJson locals),
      ("arguments", list (exprsToJson arguments)), ("body", body.toJson),
      ("break_type", option Ty.toJson breakType), ("return_type", option Ty.toJson returnType)]

def Arm.toJson : Arm → Json
  | ⟨types, body⟩ => record [("types", listOf Ty.toJson types), ("body", body.toJson)]

def exprsToJson : List Expr → List Json
  | [] => []
  | e :: es => e.toJson :: exprsToJson es

def armsToJson : List Arm → List Json
  | [] => []
  | a :: as => a.toJson :: armsToJson as

end

def Slot.toJson (s : Slot) : Json :=
  record [("id", s.id.toJson), ("name", str s.name), ("ty", option Ty.toJson s.ty),
    ("captured", .bool s.captured)]

def Method.toJson (m : Method) : Json :=
  record [("id", count m.id.val), ("name", str m.name), ("owner", option str m.owner),
    ("self_type", m.selfType.toJson), ("self_local", m.selfSlot.toJson),
    ("parameters", slotsToJson m.parameters), ("locals", listOf Slot.toJson m.locals),
    ("body", m.body.toJson), ("return_type", option Ty.toJson m.returnType),
    ("frame", count m.frame.val)]

def Layout.toJson (l : Layout) : Json :=
  record [("name", str l.className), ("instance_vars", list (Ty.varsToJson l.vars))]

def Program.toJson (p : Program) : Json :=
  record [("main", p.main.toJson), ("methods", listOf Method.toJson p.methods.toList),
    ("captures", listOf BlockScope.toJson p.captures), ("layouts", listOf Layout.toJson p.layouts)]

end Typed

end TypedBlocks

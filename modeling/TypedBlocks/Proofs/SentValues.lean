import TypedBlocks.Proofs.MergedTypes
import TypedBlocks.Proofs.TypedPrograms

/-!
# Values that exits send

The returns and breaks inside an expression, in the order in which it is evaluated, with the types of
the values that they send to a target. Annotations of calls and loops are exact if they are merged
from these types alone.
-/
namespace TypedBlocks.Typed

open Inference (RunTarget)

section Expressions

theorem Node.sizeOf_part {n : Node} {d : Expr} (part : d ∈ n.parts) : sizeOf d < sizeOf n := by
  have listed {es : List Expr} (member : d ∈ es) : sizeOf d < sizeOf es :=
    List.sizeOf_lt_of_mem member
  simp only [Node.parts, List.mem_append] at part
  cases n with
  | literal _ | slot _ | instanceVar _ _ | global _ | constant _ | classRef _ | mainObject =>
    rcases part with operand | landing
    · cases operand
    · cases landing
  | inline c =>
    rcases c with ⟨site, frame, name, selfSlot, receiver, parameters, slots, arguments, body, b, r⟩
    simp only [Node.inline.sizeOf_spec, ExpandedCall.mk.sizeOf_spec]
    rcases part with operand | landing
    · rcases List.mem_cons.1 operand with rfl | argument
      · omega
      · have : sizeOf d < sizeOf arguments := listed argument
        omega
    · cases List.mem_singleton.1 landing
      dsimp only
      omega
  | dispatch scrutinees temps arms =>
    simp only [Node.dispatch.sizeOf_spec]
    rcases part with operand | landing
    · rcases List.mem_append.1 operand with scrutinee | arm
      · have := listed scrutinee
        omega
      · obtain ⟨⟨types, body⟩, member, rfl⟩ := List.mem_map.1 arm
        have := List.sizeOf_lt_of_mem member
        simp only [Arm.mk.sizeOf_spec] at this
        dsimp only
        omega
    · cases landing
  | _ =>
    simp only [Node.operands, Node.landing?, List.mem_cons, List.mem_append, List.not_mem_nil,
      or_false, Option.toList, List.map] at part
    grind

namespace Expr

variable {d e f : Expr} {target : RunTarget} {t : Ty}

theorem points_node (e : Expr) : e.points = e.node.points := by
  cases e
  rfl

/-- What is introduced by a part is introduced by the whole. -/
theorem points_of_part {x : Point} (direct : d ∈ e.node.parts) (inside : x ∈ d.points) :
    x ∈ e.points := e.points_node ▸ Node.mem_points direct inside

/-- The expression and all that is inside it, each behind its parts. -/
def nodes (e : Expr) : List Expr := e.node.parts.attach.flatMap (fun d => d.1.nodes) ++ [e]
termination_by sizeOf e
decreasing_by
  have := Node.sizeOf_part d.2
  rcases e with ⟨ty, node⟩
  simp only [Expr.mk.sizeOf_spec] at *
  omega

theorem nodes_eq (e : Expr) : e.nodes = e.node.parts.flatMap nodes ++ [e] := by
  rw [nodes, List.flatMap_subtype fun d _ => rfl, List.unattach_attach]

theorem mem_nodes : d ∈ e.nodes ↔ d.Inside e := by
  constructor
  · intro member
    induction e using nodes.induct with
    | case1 e ih =>
      rw [nodes_eq, List.mem_append, List.mem_flatMap, List.mem_singleton] at member
      rcases member with ⟨part, direct, inside⟩ | rfl
      · exact .part direct (ih ⟨part, direct⟩ inside)
      · exact .self d
  · intro inside
    induction inside with
    | self e =>
      rw [nodes_eq]
      exact List.mem_append_right _ List.mem_cons_self
    | part direct inside ih =>
      rw [nodes_eq]
      exact List.mem_append_left _ (List.mem_flatMap.2 ⟨_, direct, ih⟩)

/-- The type of the value that the node itself sends to the target. -/
def sends? (target : RunTarget) (e : Expr) : Option Ty :=
  match e.node.exit? with
  | some (goal, value) => if goal = target then value.ty else none
  | none => none

/-- The types of the values that are sent to the target from inside the expression. -/
def sent (target : RunTarget) (e : Expr) : List Ty := e.nodes.filterMap (sends? target)

theorem sent_eq (target : RunTarget) (e : Expr) :
    e.sent target = e.node.parts.flatMap (sent target) ++ (e.sends? target).toList := by
  have own : [e].filterMap (sends? target) = (e.sends? target).toList := by
    cases sends : e.sends? target <;> simp [sends]
  rw [sent, nodes_eq, List.filterMap_append, List.filterMap_flatMap, own]
  rfl

theorem sends?_eq_some : e.sends? target = some t ↔
    ∃ value, e.node.exit? = some (target, value) ∧ value.ty = some t := by
  rw [sends?]
  constructor
  · intro sends
    split at sends
    · rename_i goal value exit
      split at sends
      · rename_i same
        exact ⟨value, same ▸ exit, sends⟩
      · cases sends
    · cases sends
  · rintro ⟨value, exit, carried⟩
    simp [exit, carried]

theorem mem_sent : t ∈ e.sent target ↔
    ∃ d value : Expr, d.Inside e ∧ d.node.exit? = some (target, value) ∧ value.ty = some t := by
  simp only [sent, List.mem_filterMap, mem_nodes, sends?_eq_some]
  constructor
  · rintro ⟨d, inside, value, exit, carried⟩
    exact ⟨d, value, inside, exit, carried⟩
  · rintro ⟨d, value, inside, exit, carried⟩
    exact ⟨d, inside, value, exit, carried⟩

/-- What a node sends that is no exit itself is sent by its parts. -/
theorem sent_of_parts (stays : e.node.exit? = none) :
    e.sent target = e.node.parts.flatMap (sent target) := by
  rw [sent_eq, sends?, stays]
  exact List.append_nil _

end Expr

end Expressions

section Annotations

/-- The point at which values for the target arrive. -/
def pointOf : RunTarget → Point
  | .frame id => .frame id
  | .break (.call site) => .site site
  | .break (.loop id) => .loop id

/-- The expression is the literal `true`. -/
def Expr.isTrue (e : Expr) : Bool :=
  match e.node with
  | .literal (.boolean true) => true
  | _ => false

/-- What a loop ends with by itself. -/
def loopEnd (condition : Expr) : List Ty := if condition.isTrue then [] else [Ty.nil]

/-- The types at the node are merged from what is sent to it and from nothing else, as long as its
body does not number the same targets again. -/
def Expr.Exact (e : Expr) : Prop :=
  match e.node with
  | .inline c =>
    (Point.site c.site ∉ c.body.points →
      Ty.Merges c.breakType (c.body.sent (.break (.call c.site)))) ∧
    (Point.frame c.frame ∉ c.body.points → Ty.Merges c.returnType (c.body.sent (.frame c.frame)))
  | .while id condition body =>
    Point.loop id ∉ body.points →
      Ty.Merges e.ty (body.sent (.break (.loop id)) ++ loopEnd condition)
  | _ => True

/-- All nodes inside the expression are exact. -/
def Expr.Annotated (e : Expr) : Prop := ∀ d : Expr, d.Inside e → d.Exact

theorem Expr.Annotated.intro {e : Expr} (own : e.Exact) (parts : ∀ d ∈ e.node.parts, d.Annotated) :
    e.Annotated := by
  intro d inside
  cases inside with
  | self => exact own
  | part direct inside => exact parts _ direct d inside

theorem Expr.Annotated.part {d e : Expr} (annotated : e.Annotated) (direct : d ∈ e.node.parts) :
    d.Annotated := fun f inside => annotated f (.part direct inside)

/-- There are no parts and nothing is sent away. -/
structure Expr.IsLeaf (e : Expr) : Prop where
  parts : e.node.parts = []
  stays : e.node.exit? = none

namespace Expr.IsLeaf

variable {e : Expr} (leaf : e.IsLeaf)

include leaf

theorem sent (target : RunTarget) : e.sent target = [] := by
  rw [sent_eq, leaf.parts, sends?, leaf.stays]
  rfl

theorem points : e.points = [] := by
  have parts := leaf.parts
  rcases e with ⟨ty, node⟩
  cases node <;>
    simp_all [Node.parts, Node.operands, Node.landing?, Expr.points, Node.points, armsPoints]

theorem annotated : e.Annotated := by
  have parts := leaf.parts
  refine .intro ?_ (by simp [parts])
  rcases e with ⟨ty, node⟩
  cases node with
  | inline _ | «while» _ _ _ => simp [Node.parts, Node.operands] at parts
  | _ => trivial

end Expr.IsLeaf

end Annotations

end TypedBlocks.Typed

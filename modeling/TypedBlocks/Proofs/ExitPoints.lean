import TypedBlocks.Typed.Basic

/-!
# Exit points

The frames, calls and loops of a typed program, as they can be left. Each is numbered where it is
introduced: a frame by a method or an expanded call, a call by its expansion, a loop by itself.
-/
namespace TypedBlocks.Typed

inductive Point where
  | frame (id : FrameId)
  | site (id : SiteId)
  | loop (id : LoopId)
  deriving DecidableEq, Repr

mutual

/-- All points that an expression introduces, in the order of the text. -/
def Expr.points : Expr → List Point
  | ⟨_, node⟩ => node.points

def Node.points : Node → List Point
  | .literal _ | .slot _ | .instanceVar _ _ | .global _ | .constant _ | .classRef _
  | .mainObject => []
  | .assign _ value | .assignInstanceVar _ _ value | .assignGlobal _ value
  | .assignConstant _ value | .not value | .return _ value | .break _ value => value.points
  | .sequence parts => listPoints parts
  | .conditional condition consequent alternative =>
    condition.points ++ consequent.points ++ alternative.points
  | .while id condition body => .loop id :: condition.points ++ body.points
  | .and left right | .or left right => left.points ++ right.points
  | .call _ receiver arguments | .primitive _ receiver arguments =>
    receiver.points ++ listPoints arguments
  | .construct _ _ arguments | .foreign _ _ arguments => listPoints arguments
  | .inline call => call.points
  | .yield _ _ arguments body => listPoints arguments ++ body.points
  | .dispatch scrutinees _ arms => listPoints scrutinees ++ armsPoints arms

def ExpandedCall.points : ExpandedCall → List Point
  | ⟨site, frame, _, _, receiver, _, _, arguments, body, _, _⟩ =>
    .frame frame :: .site site :: receiver.points ++ listPoints arguments ++ body.points

def listPoints : List Expr → List Point
  | [] => []
  | e :: es => e.points ++ listPoints es

def armsPoints : List Arm → List Point
  | [] => []
  | ⟨_, body⟩ :: arms => body.points ++ armsPoints arms

end

attribute [grind =] Expr.points Node.points

@[simp] theorem listPoints_nil : listPoints [] = [] := rfl

@[simp] theorem listPoints_cons (e : Expr) (es : List Expr) :
    listPoints (e :: es) = e.points ++ listPoints es := rfl

@[simp] theorem listPoints_append (es fs : List Expr) :
    listPoints (es ++ fs) = listPoints es ++ listPoints fs := by
  induction es with
  | nil => rfl
  | cons e es ih => rw [List.cons_append, listPoints_cons, listPoints_cons, ih, List.append_assoc]

theorem mem_listPoints {x : Point} {es : List Expr} :
    x ∈ listPoints es ↔ ∃ e ∈ es, x ∈ e.points := by
  induction es with
  | nil => simp
  | cons e es ih => simp [ih]

theorem armsPoints_map (arms : List Arm) : armsPoints arms = listPoints (arms.map (·.body)) := by
  induction arms with
  | nil => rfl
  | cons arm arms ih =>
    rcases arm with ⟨types, body⟩
    rw [armsPoints, ih, List.map_cons, listPoints_cons]

theorem ofParts_points (parts : List Expr) (ty : Option Ty) :
    (Expr.ofParts parts ty).points = listPoints parts := by
  unfold Expr.ofParts
  split
  · rename_i only
    rcases only with ⟨t, node⟩
    simp [Expr.points]
  · rfl

def Method.points (m : Method) : List Point := .frame m.frame :: m.body.points

/-- All points of a program, with those of its top level first. -/
def Program.points (p : Program) : List Point :=
  p.main.points ++ p.methods.toList.flatMap Method.points

end TypedBlocks.Typed

import TypedBlocks.Inference.Elaboration
import TypedBlocks.Proofs.TypeUnions

/-!
# Typing rules of typed programs

The annotations of a typed program can be checked without knowing how they were found: against the
types of slots, globals and constants, the layouts of objects, and the results and parameters of
methods. There is one rule for each node, about the types of its direct parts, and an expression is
well typed if the rules hold everywhere in it. An operand whose value is needed must have a type.
-/
namespace TypedBlocks.Typed

open Inference (RunTarget bare literalTy)

/-- What the types of expressions are checked against. -/
structure Signatures where
  method? : InstanceId → Option Method
  /-- The variables of the objects of a class. -/
  vars : String → List (String × Ty)
  globals : List (String × Ty)
  constants : List (String × Ty)

namespace Signatures

variable (σ : Signatures)

def objectTy (className : String) : Ty := .object className (σ.vars className)

/-- The type with the layout of its class put in for every object. -/
def withLayouts (t : Ty) : Ty :=
  (Ty.merge? (t.members.map fun
    | .object name _ => σ.objectTy name
    | u => u)).getD t

/-- The type of an instance variable; one without an entry is nil. -/
def instanceTy (className name : String) : Ty :=
  match (σ.vars className).lookup name with
  | some t => σ.withLayouts t
  | none => Ty.nil

end Signatures

/-- A variable of the text, and neither `self` nor an operand of a call that chooses among arms. -/
def Slot.isSource (s : Slot) : Bool :=
  s.name != "self" && !"%tmp".toList.isPrefixOf s.name.toList

/-- The slots of the method at hand, and the types of `self` and of operands at a place in it. -/
structure Context where
  slots : List Slot
  bound : List (SlotId × Ty)

namespace Context

variable (Γ : Context)

def bind (bound : List (SlotId × Ty)) : Context := { Γ with bound := bound ++ Γ.bound }

def slot? (s : SlotId) : Option Slot := Γ.slots[s.val]?

def slotTy? (s : SlotId) : Option Ty := (Γ.slot? s).bind (·.ty)

/-- A read of a source variable has the type of its slot; `self` and operands have the type that
they are bound to. -/
def Reads (s : SlotId) (t : Ty) : Prop :=
  Γ.slotTy? s = some t ∨ ((s, t) ∈ Γ.bound ∧ ∃ slot, Γ.slot? s = some slot ∧ ¬ slot.isSource)

/-- The slot holds an object of the class. -/
def HoldsObject (s : SlotId) (className : String) : Prop :=
  ∃ t vs, (s, t) ∈ Γ.bound ∧ t.only? = some (.object className vs)

/-- A value that may be missing has a type, and the slot covers it. -/
def Stores (s : SlotId) (ty : Option Ty) : Prop :=
  ∃ t u, ty = some t ∧ Γ.slotTy? s = some u ∧ t ≤ u

/-- Each argument has a type, and the slot of its parameter covers it. -/
structure Binds (parameters : List SlotId) (arguments : List Expr) : Prop where
  typed : ∀ e ∈ arguments, e.ty.isSome
  stores : ∀ b ∈ parameters.zip arguments, Γ.Stores b.1 b.2.ty

/-- As for the arguments of a call, but parameters without an argument get nil. -/
structure BindsOrNil (parameters : List SlotId) (arguments : List Expr) : Prop where
  typed : ∀ e ∈ arguments, e.ty.isSome
  stores : ∀ b ∈ parameters.zip arguments, Γ.Stores b.1 b.2.ty
  missing : ∀ s ∈ parameters.drop arguments.length, Γ.Stores s (some Ty.nil)

end Context

/-- The parts of a node whose exits leave the node as well. -/
def Node.operands : Node → List Expr
  | .literal _ | .slot _ | .instanceVar _ _ | .global _ | .constant _ | .classRef _
  | .mainObject => []
  | .assign _ value | .assignInstanceVar _ _ value | .assignGlobal _ value
  | .assignConstant _ value | .not value | .return _ value | .break _ value => [value]
  | .sequence parts => parts
  | .conditional condition consequent alternative => [condition, consequent, alternative]
  | .while _ condition _ => [condition]
  | .and left right | .or left right => [left, right]
  | .call _ receiver arguments | .primitive _ receiver arguments => receiver :: arguments
  | .construct _ _ arguments | .foreign _ _ arguments => arguments
  | .inline c => c.receiver :: c.arguments
  | .yield _ _ arguments body => arguments ++ [body]
  | .dispatch scrutinees _ arms => scrutinees ++ arms.map (·.body)

/-- The part that some exits do not leave, with the targets of those exits. -/
def Node.landing? : Node → Option (Expr × List RunTarget)
  | .while id _ body => some (body, [.break (.loop id)])
  | .inline c => some (c.body, [.frame c.frame, .break (.call c.site)])
  | _ => none

/-- The direct parts of a node. -/
def Node.parts (n : Node) : List Expr := n.operands ++ n.landing?.toList.map (·.1)

/-- The expression itself or a part of it, at any depth. -/
inductive Expr.Inside : Expr → Expr → Prop
  | self (e : Expr) : Inside e e
  | part {d e f : Expr} (direct : d ∈ f.node.parts) (inside : Inside e d) : Inside e f

theorem Expr.Inside.trans {d e f : Expr} (inner : e.Inside d) (outer : d.Inside f) :
    e.Inside f := by
  induction outer with
  | self => exact inner
  | part direct _ ih => exact .part direct (ih inner)

/-- All types in the expression are of one sort. -/
def Expr.AllTypes (P : Ty → Prop) (e : Expr) : Prop := ∀ d, Inside d e → ∀ t ∈ d.ty, P t

namespace Expr.AllTypes

variable {P : Ty → Prop} {d e : Expr} {ty : Option Ty} {node : Node}

theorem own (all : e.AllTypes P) : ∀ t ∈ e.ty, P t := all e (.self e)

theorem part (all : e.AllTypes P) (direct : d ∈ e.node.parts) : d.AllTypes P :=
  fun f inside => all f (.part direct inside)

theorem intro (own : ∀ t ∈ e.ty, P t) (parts : ∀ d ∈ e.node.parts, d.AllTypes P) :
    e.AllTypes P := by
  intro d inside
  cases inside with
  | self => exact own
  | part direct inside => exact parts _ direct d inside

/-- A sequence of expressions adds a type of its own. -/
theorem ofParts {es : List Expr} (own : ∀ t ∈ ty, P t) (each : ∀ e ∈ es, e.AllTypes P) :
    (Expr.ofParts es ty).AllTypes P := by
  unfold Expr.ofParts
  split
  · rename_i only
    exact intro own fun d direct => (each only List.mem_cons_self).part direct
  · refine intro own fun d direct => each d ?_
    simpa [Node.parts, Node.operands, Node.landing?] using direct

end Expr.AllTypes

/-- Control can leave the expression to a target with a value of the type. -/
inductive Expr.Leaves : Expr → RunTarget → Ty → Prop
  | return {ty : Option Ty} {frame : FrameId} {value : Expr} {t : Ty}
    (carried : value.ty = some t) : Leaves ⟨ty, .return frame value⟩ (.frame frame) t
  | break {ty : Option Ty} {target : BreakTarget} {value : Expr} {t : Ty}
    (carried : value.ty = some t) : Leaves ⟨ty, .break target value⟩ (.break target) t
  | operand {e d : Expr} {target : RunTarget} {t : Ty} (part : d ∈ e.node.operands)
    (leaves : Leaves d target t) : Leaves e target t
  | landing {e d : Expr} {landed : List RunTarget} {target : RunTarget} {t : Ty}
    (part : e.node.landing? = some (d, landed)) (passes : target ∉ landed)
    (leaves : Leaves d target t) : Leaves e target t

/-- The target that a node sends its value to. -/
def Node.exit? : Node → Option (RunTarget × Expr)
  | .return frame value => some (.frame frame, value)
  | .break target value => some (.break target, value)
  | _ => none

/-- An exit leaves an operand, or a body that it does not end, or it is the node itself. -/
theorem Expr.Leaves.source {e : Expr} {target : RunTarget} {t : Ty}
    (leaves : e.Leaves target t) : (∃ d ∈ e.node.operands, d.Leaves target t) ∨
      (∃ d landed, e.node.landing? = some (d, landed) ∧ target ∉ landed ∧ d.Leaves target t) ∨
        ∃ value, e.node.exit? = some (target, value) ∧ value.ty = some t := by
  cases leaves with
  | «return» carried => exact .inr (.inr ⟨_, rfl, carried⟩)
  | «break» carried => exact .inr (.inr ⟨_, rfl, carried⟩)
  | operand part leaves => exact .inl ⟨_, part, leaves⟩
  | landing part passes leaves => exact .inr (.inl ⟨_, _, part, passes, leaves⟩)

/-- Nothing leaves a node without parts but the value of an exit. -/
theorem Expr.not_leaves {e : Expr} (parts : e.node.parts = []) (stays : e.node.exit? = none)
    {target : RunTarget} {t : Ty} : ¬ e.Leaves target t := by
  rw [Node.parts, List.append_eq_nil_iff, List.map_eq_nil_iff, Option.toList_eq_nil_iff] at parts
  intro leaves
  rcases leaves.source with ⟨d, operand, -⟩ | ⟨d, landed, landing, -⟩ | ⟨value, exit, -⟩
  · rw [parts.1] at operand
    cases operand
  · rw [parts.2] at landing
    cases landing
  · rw [stays] at exit
    cases exit

/-- The type covers what leaves the expression to the target. -/
def Expr.Exits (e : Expr) (target : RunTarget) (ty : Option Ty) : Prop :=
  ∀ t, e.Leaves target t → ∃ u, ty = some u ∧ t ≤ u

/-- The direct parts of a node and the contexts that they are checked in. The body of an expanded
method knows the receiver as `self`, and an arm knows the operands at its own types. -/
def Node.partsIn (Γ : Context) : Node → List (Context × Expr)
  | .inline c =>
    (c.receiver :: c.arguments).map (Γ, ·) ++
      [(Γ.bind (c.receiver.ty.toList.map (c.selfSlot, ·)), c.body)]
  | .dispatch scrutinees temps arms =>
    scrutinees.map (Γ, ·) ++ arms.map fun arm => (Γ.bind (temps.zip arm.types), arm.body)
  | n => n.parts.map (Γ, ·)

/-- Every part is checked in some context. -/
theorem Node.mem_partsIn {n : Node} {d : Expr} (part : d ∈ n.parts) (Γ : Context) :
    ∃ Γ', (Γ', d) ∈ n.partsIn Γ := by
  cases n with
  | inline c =>
    rcases List.mem_append.1 part with operand | body
    · exact ⟨Γ, List.mem_append_left _ (List.mem_map_of_mem operand)⟩
    · cases List.mem_singleton.1 body
      exact ⟨_, List.mem_append_right _ List.mem_cons_self⟩
  | dispatch scrutinees temps arms =>
    rcases List.mem_append.1 part with operand | body
    · rcases List.mem_append.1 operand with scrutinee | body
      · exact ⟨Γ, List.mem_append_left _ (List.mem_map_of_mem scrutinee)⟩
      · obtain ⟨arm, member, rfl⟩ := List.mem_map.1 body
        exact ⟨_, List.mem_append_right _ (List.mem_map.2 ⟨arm, member, rfl⟩)⟩
    · cases body
  | _ => exact ⟨Γ, List.mem_map_of_mem part⟩

/-- The parts are those of a sequence with the type: all but the last end normally. -/
def InSequence (parts : List Expr) (ty : Option Ty) : Prop :=
  ∃ before last, parts = before ++ [last] ∧ (∀ e ∈ before, e.ty.isSome) ∧ ty = last.ty

theorem InSequence.typed {parts : List Expr} {ty : Option Ty} (ordered : InSequence parts ty)
    (ends : ty.isSome) : ∀ e ∈ parts, e.ty.isSome := by
  obtain ⟨before, last, rfl, typed, rfl⟩ := ordered
  intro e member
  rcases List.mem_append.1 member with early | only
  · exact typed e early
  · exact List.mem_singleton.1 only ▸ ends

/-- How the type of an expression depends on its node and the types of the direct parts. -/
def Expr.Rule (σ : Signatures) (Γ : Context) : Expr → Prop
  | ⟨ty, node⟩ =>
    match node with
    | .literal l => ty = some (literalTy l)
    | .slot s => ∃ t, ty = some t ∧ Γ.Reads s t
    | .assign s value => ty = value.ty ∧ Γ.Stores s value.ty
    | .instanceVar object name =>
      ∃ c, Γ.HoldsObject object c ∧ ty = some (σ.instanceTy c name)
    | .assignInstanceVar object name value =>
      ty = value.ty ∧ ∃ c t u, Γ.HoldsObject object c ∧ value.ty = some t ∧
        (σ.vars c).lookup name = some u ∧ bare t ≤ u
    | .global name => ty = some ((σ.globals.lookup name).getD Ty.nil)
    | .assignGlobal name value =>
      ty = value.ty ∧ ∃ t u, value.ty = some t ∧ σ.globals.lookup name = some u ∧ t ≤ u
    | .constant name => ty = some ((σ.constants.lookup name).getD Ty.nil)
    | .assignConstant name value =>
      ty = value.ty ∧ ∃ t u, value.ty = some t ∧ σ.constants.lookup name = some u ∧ t ≤ u
    | .classRef name => ty = some (Ty.classOf name)
    | .mainObject => ty = some Ty.main
    | .sequence parts => InSequence parts ty
    | .conditional condition consequent alternative =>
      condition.ty.isSome ∧ ty = Ty.mergeOption consequent.ty alternative.ty
    | .while id condition body =>
      condition.ty.isSome ∧ body.Exits (.break (.loop id)) ty ∧
        (condition.node ≠ .literal (.boolean true) → ∃ u, ty = some u ∧ Ty.nil ≤ u)
    | .and left right | .or left right => left.ty.isSome ∧ ty = Ty.mergeOption right.ty left.ty
    | .not operand => operand.ty.isSome ∧ ty = some Ty.bool
    | .call method receiver arguments =>
      ∃ m, σ.method? method = some m ∧ ty = m.returnType ∧
        (∃ t, receiver.ty = some t ∧ t ≤ m.selfType) ∧
        Context.Binds ⟨m.locals, []⟩ m.parameters arguments
    | .primitive operation receiver arguments =>
      ∃ (name : String) (t : Ty) (ts : List Ty), receiver.ty = some t ∧ arguments.map (·.ty) = ts.map some ∧
        Primitive.resolve? t name ts = some operation ∧ ty = some (operation.resultTy t ts)
    | .construct c none arguments => arguments = [] ∧ ty = some (σ.objectTy c)
    | .construct c (some initializer) arguments =>
      ∃ m, σ.method? initializer = some m ∧ σ.objectTy c ≤ m.selfType ∧
        ty = m.returnType.map (fun _ => σ.objectTy c) ∧
        Context.Binds ⟨m.locals, []⟩ m.parameters arguments
    | .foreign _ _ arguments => ∀ e ∈ arguments, e.ty.isSome
    | .inline call =>
      call.receiver.ty.isSome ∧ Γ.Binds call.parameters call.arguments ∧
        call.body.Exits (.frame call.frame) call.returnType ∧
        call.body.Exits (.break (.call call.site)) call.breakType ∧
        ty = Ty.mergeOption call.body.ty (Ty.mergeOption call.returnType call.breakType)
    | .yield parameters _ arguments body => Γ.BindsOrNil parameters arguments ∧ ty = body.ty
    | .dispatch scrutinees temps arms =>
      temps.length = scrutinees.length ∧
        (∃ ts : List Ty, scrutinees.map (·.ty) = ts.map some ∧
          arms.map (·.types) = choices (ts.map Ty.members)) ∧
        (∀ arm ∈ arms, Ty.OptionLe arm.body.ty ty) ∧ (ty.isSome → ∃ arm ∈ arms, arm.body.ty.isSome)
    | .return _ value | .break _ value => value.ty.isSome ∧ ty = none

/-- The rules hold for the expression and for all parts of it. -/
inductive Expr.WellTyped (σ : Signatures) : Context → Expr → Prop
  | intro {Γ : Context} {e : Expr} (rule : e.Rule σ Γ)
    (parts : ∀ q ∈ e.node.partsIn Γ, WellTyped σ q.1 q.2) : WellTyped σ Γ e

theorem Expr.WellTyped.rule {σ : Signatures} {Γ : Context} {e : Expr} (typed : e.WellTyped σ Γ) :
    e.Rule σ Γ := by
  cases typed
  assumption

/-- The body of the method is well typed, and its return type covers the body and all returns from
the method. -/
structure Method.WellTyped (σ : Signatures) (m : Method) : Prop where
  body : m.body.WellTyped σ ⟨m.locals, [(m.selfSlot, m.selfType)]⟩
  result : Ty.OptionLe m.body.ty m.returnType
  returns : m.body.Exits (.frame m.frame) m.returnType

/-- The methods and layouts of the program, with types for its globals and constants. -/
def Program.signatures (p : Program) (globals constants : List (String × Ty)) : Signatures :=
  ⟨p.method?, fun c => ((p.layouts.find? (·.className == c)).map (·.vars)).getD [], globals,
    constants⟩

/-- All methods of the program and its top level are well typed. -/
structure Program.WellTyped (p : Program) (globals constants : List (String × Ty)) : Prop where
  main : p.main.WellTyped (p.signatures globals constants)
  methods : ∀ m ∈ p.methods, m.WellTyped (p.signatures globals constants)

end TypedBlocks.Typed

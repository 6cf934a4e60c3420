import TypedBlocks.Proofs.ArmChoices
import TypedBlocks.Proofs.DefinitionTables
import TypedBlocks.Proofs.PassSteps

/-!
# Steps of an elaboration

What a successful elaboration of each construct has run through: the elaborations of its parts, in
order, with the states between them. Every property of elaborated code is derived from these
lemmas, so the definitions are opened here only.
-/
namespace TypedBlocks.Inference

open Typed (InstanceId SlotId Slot)
open Pass

variable {cx : Setting} {elaborate : Elaborate} {here : Place} {s s' : PassState} {l : Elaborated}

section Sequences

variable {ends ends' : Completions} {codes : List Typed.Expr}

theorem elaborateParts_nil_steps
    (h : elaborateParts elaborate here ends [] s = some ((codes, ends'), s')) :
    codes = [] ∧ ends' = ends ∧ s' = s := by
  simp only [elaborateParts, pure_eq_some, Prod.mk.injEq] at h
  obtain ⟨⟨rfl, rfl⟩, rfl⟩ := h
  exact ⟨rfl, rfl, rfl⟩

theorem elaborateParts_cons_steps {e : Expr} {es : List Expr}
    (h : elaborateParts elaborate here ends (e :: es) s = some ((codes, ends'), s')) :
    ∃ first s₁, elaborate here e s = some (first, s₁) ∧
      (((ends.andThen first.ends).fallsThrough = true ∧
          ∃ rest, elaborateParts elaborate here (ends.andThen first.ends) es s₁ =
            some ((rest, ends'), s') ∧ codes = first.code :: rest) ∨
        ((ends.andThen first.ends).fallsThrough = false ∧ codes = [first.code] ∧
          ends' = ends.andThen first.ends ∧ s' = s₁)) := by
  simp only [elaborateParts, bind_eq_some] at h
  obtain ⟨first, s₁, run, h⟩ := h
  refine ⟨first, s₁, run, ?_⟩
  split at h
  · rename_i falls
    obtain ⟨⟨rest, ends₂⟩, s₂, runRest, h⟩ := bind_eq_some.1 h
    obtain ⟨same, rfl⟩ := pure_eq_some.1 h
    obtain ⟨rfl, rfl⟩ := Prod.mk.inj same
    exact .inl ⟨falls, rest, runRest, rfl⟩
  · rename_i stops
    obtain ⟨same, rfl⟩ := pure_eq_some.1 h
    obtain ⟨rfl, rfl⟩ := Prod.mk.inj same
    exact .inr ⟨by simpa using stops, rfl, rfl, rfl⟩

theorem elaborateBody_steps {body : List Expr}
    (h : elaborateBody elaborate here body s = some (l, s')) :
    (body = [] ∧ l = Elaborated.nil ∧ s' = s) ∨
      (body ≠ [] ∧ ∃ parts ends,
        elaborateParts elaborate here (Completions.ofNormal Ty.nil) body s =
          some ((parts, ends), s') ∧
        l = ⟨Typed.Expr.ofParts parts ends.normal, ends⟩) := by
  simp only [elaborateBody] at h
  split at h
  · rename_i empty
    obtain ⟨rfl, rfl⟩ := pure_eq_some.1 h
    exact .inl ⟨by simpa using empty, rfl, rfl⟩
  · rename_i nonempty
    obtain ⟨⟨parts, ends⟩, s₁, run, h⟩ := bind_eq_some.1 h
    obtain ⟨rfl, rfl⟩ := pure_eq_some.1 h
    exact .inr ⟨by simpa using nonempty, parts, ends, run, rfl⟩

theorem withOperands_steps {operands : List Expr}
    {next : List Typed.Expr → Completions → Pass Elaborated}
    (h : withOperands elaborate here operands next s = some (l, s')) :
    ∃ parts ends s₁,
      elaborateParts elaborate here (Completions.ofNormal Ty.nil) operands s =
        some ((parts, ends), s₁) ∧
      ((ends.fallsThrough = true ∧ next parts ends s₁ = some (l, s')) ∨
        (ends.fallsThrough = false ∧ l = ⟨Typed.Expr.ofParts parts none, ends⟩ ∧ s' = s₁)) := by
  simp only [withOperands] at h
  obtain ⟨⟨parts, ends⟩, s₁, run, h⟩ := bind_eq_some.1 h
  refine ⟨parts, ends, s₁, run, ?_⟩
  split at h
  · rename_i falls
    exact .inl ⟨falls, h⟩
  · rename_i stops
    obtain ⟨rfl, rfl⟩ := pure_eq_some.1 h
    exact .inr ⟨by simpa using stops, rfl, rfl⟩

theorem withOperand_steps {operand : Expr} {next : Elaborated → Ty → Pass Elaborated}
    (h : withOperand elaborate here operand next s = some (l, s')) :
    ∃ first s₁, elaborate here operand s = some (first, s₁) ∧
      ((∃ t, first.ends.normal = some t ∧ next first t s₁ = some (l, s')) ∨
        (first.ends.normal = none ∧ l = first ∧ s' = s₁)) := by
  simp only [withOperand] at h
  obtain ⟨first, s₁, run, h⟩ := bind_eq_some.1 h
  refine ⟨first, s₁, run, ?_⟩
  cases normal : first.ends.normal with
  | some t =>
    simp only [normal] at h
    exact .inl ⟨t, rfl, h⟩
  | none =>
    simp only [normal] at h
    obtain ⟨rfl, rfl⟩ := pure_eq_some.1 h
    exact .inr ⟨rfl, rfl, rfl⟩

theorem ofParts_ty (parts : List Typed.Expr) (ty : Option Ty) :
    (Typed.Expr.ofParts parts ty).ty = ty := by
  unfold Typed.Expr.ofParts
  split <;> rfl

theorem filterMap_length {cs : List Typed.Expr} (typed : ∀ c ∈ cs, c.ty.isSome = true) :
    cs.length = (cs.filterMap (·.ty)).length := by
  induction cs with
  | nil => rfl
  | cons c cs ih =>
    obtain ⟨t, known⟩ := Option.isSome_iff_exists.1 (typed c List.mem_cons_self)
    rw [List.filterMap_cons_some known, List.length_cons, List.length_cons,
      ih fun d member => typed d (List.mem_cons_of_mem c member)]

end Sequences

section Leaves

/-- The state after a read of a local variable, which may be unassigned. -/
def readLocal (cx : Setting) (a : BodyContext) (name : String) (s : PassState) : PassState :=
  let scope := a.scopeOf cx.captures name
  let key : ScopeVar := ⟨scope.1, name⟩
  { s with
    frame := lookedUp s.frame key scope.2
    tables := if s.assigned.any (· == key) then s.tables else s.tables.extendVar key Ty.nil }

theorem elaborateLocal_run (name : String) :
    elaborateLocal cx here name s =
      let key : ScopeVar := ⟨(here.activation.scopeOf cx.captures name).1, name⟩
      let s' := readLocal cx here.activation name s
      some (.ofNode (.slot (s.frame.slotFor key).1)
        (.ofNormal ((s'.tables.var? key).getD Ty.nil)), s') := by
  simp only [elaborateLocal, readLocal]
  rw [bind_run (localVar_run _ _ _)]
  simp only []
  rw [bind_run (isAssigned_run _)]
  simp only []
  split <;> rfl

/-- The type of an instance variable, with the present layouts; one that is never assigned is nil. -/
def instanceTy (ts : Tables) (className name : String) : Ty :=
  match ts.instanceVar? className name with
  | some t => ts.withLayouts t
  | none => Ty.nil

/-- What a read of a variable makes; only that of a local variable changes the state. -/
theorem elaborateRead_steps {span : Span} {v : Variable}
    (h : elaborateRead cx here span v s = some (l, s')) :
    (v.kind = .local ∧ s' = readLocal cx here.activation v.name s ∧
        l = .ofNode (.slot (s.frame.slotFor
            ⟨(here.activation.scopeOf cx.captures v.name).1, v.name⟩).1)
          (.ofNormal ((s'.tables.var?
            ⟨(here.activation.scopeOf cx.captures v.name).1, v.name⟩).getD Ty.nil))) ∨
      (∃ e, e.span.isSome ∧ l = Elaborated.failed ∧
        s' = { s with errors := s.errors ++ [e] }) ∨
      (v.kind = .instanceVar ∧ ∃ c, here.activation.objectClass? = some c ∧ s' = s ∧
        l = .ofNode (.instanceVar here.activation.selfSlot v.name)
          (.ofNormal (instanceTy s.tables c v.name))) ∨
      (v.kind = .global ∧ s' = s ∧
        l = .ofNode (.global v.name) (.ofNormal ((s.tables.globals.lookup v.name).getD Ty.nil))) ∨
      (v.kind = .constant ∧ (cx.definitions.isClass v.name || cx.definitions.isLib v.name) = true ∧
        s' = s ∧ l = .ofNode (.classRef v.name) (.ofNormal (Ty.classOf v.name))) ∨
      (v.kind = .constant ∧ s' = s ∧
        l = .ofNode (.constant v.name)
          (.ofNormal ((s.tables.constants.lookup v.name).getD Ty.nil))) := by
  simp only [elaborateRead] at h
  cases kind : v.kind with
  | «local» =>
    simp only [kind, elaborateLocal_run, Option.some.injEq, Prod.mk.injEq] at h
    obtain ⟨rfl, rfl⟩ := h
    exact .inl ⟨rfl, rfl, rfl⟩
  | instanceVar =>
    simp only [kind, elaborateInstanceVar] at h
    cases object : here.activation.objectClass? with
    | none =>
      simp only [object, fail_run, Option.some.injEq, Prod.mk.injEq] at h
      obtain ⟨rfl, rfl⟩ := h
      exact .inr (.inl ⟨_, rfl, rfl, rfl⟩)
    | some c =>
      simp only [object] at h
      rw [bind_run tables_run] at h
      obtain ⟨rfl, rfl⟩ := pure_eq_some.1 h
      exact .inr (.inr (.inl ⟨rfl, c, rfl, rfl, rfl⟩))
  | global =>
    simp only [kind, elaborateGlobal] at h
    rw [bind_run tables_run] at h
    obtain ⟨rfl, rfl⟩ := pure_eq_some.1 h
    exact .inr (.inr (.inr (.inl ⟨rfl, rfl, rfl⟩)))
  | constant =>
    simp only [kind, elaborateConstant] at h
    split at h
    · rename_i named
      obtain ⟨rfl, rfl⟩ := pure_eq_some.1 h
      exact .inr (.inr (.inr (.inr (.inl ⟨rfl, named, rfl, rfl⟩))))
    · split at h
      · rw [bind_run tables_run] at h
        obtain ⟨rfl, rfl⟩ := pure_eq_some.1 h
        exact .inr (.inr (.inr (.inr (.inr ⟨rfl, rfl, rfl⟩))))
      · simp only [fail_run, Option.some.injEq, Prod.mk.injEq] at h
        obtain ⟨rfl, rfl⟩ := h
        exact .inr (.inl ⟨_, rfl, rfl, rfl⟩)

/-- The state after an assignment to a local variable. -/
def assignLocal (cx : Setting) (a : BodyContext) (name : String) (t : Ty) (s : PassState) :
    PassState :=
  let scope := a.scopeOf cx.captures name
  let key : ScopeVar := ⟨scope.1, name⟩
  { s with
    frame := lookedUp s.frame key scope.2
    tables := s.tables.extendVar key t
    assigned := marked s.assigned key }

/-- What follows the value of an assignment. -/
theorem elaborateAssignment_steps {span : Span} {v : Variable} {value : Expr}
    (h : elaborateAssignment cx elaborate here span v value s = some (l, s')) :
    ∃ first s₁, elaborate here value s = some (first, s₁) ∧
      ((first.ends.normal = none ∧ l = first ∧ s' = s₁) ∨
        ∃ t, first.ends.normal = some t ∧
          ((v.kind = .local ∧
              l = .ofNode (.assign (s₁.frame.slotFor
                ⟨(here.activation.scopeOf cx.captures v.name).1, v.name⟩).1 first.code)
                first.ends ∧
              s' = assignLocal cx here.activation v.name t s₁) ∨
            (v.kind = .instanceVar ∧ here.activation.objectClass? = none ∧ l = Elaborated.failed ∧
              s' = { s₁ with
                errors := s₁.errors ++ [.instanceVariableOutsideObject v.name span] }) ∨
            (v.kind = .instanceVar ∧ ∃ c, here.activation.objectClass? = some c ∧
              l = .ofNode (.assignInstanceVar here.activation.selfSlot v.name first.code)
                first.ends ∧
              s' = { s₁ with tables := s₁.tables.extendLayout c v.name t }) ∨
            (v.kind = .global ∧ l = .ofNode (.assignGlobal v.name first.code) first.ends ∧
              s' = { s₁ with tables := s₁.tables.extendGlobal v.name t }) ∨
            (v.kind = .constant ∧ l = .ofNode (.assignConstant v.name first.code) first.ends ∧
              s' = { s₁ with tables := s₁.tables.extendConstant v.name t }))) := by
  obtain ⟨first, s₁, run, h⟩ := withOperand_steps h
  refine ⟨first, s₁, run, ?_⟩
  rcases h with ⟨t, normal, h⟩ | stopped
  · refine .inr ⟨t, normal, ?_⟩
    cases kind : v.kind with
    | «local» =>
      simp only [kind] at h
      rw [bind_run (localVar_run _ _ _)] at h
      obtain ⟨rfl, rfl⟩ := pure_eq_some.1 h
      exact .inl ⟨rfl, rfl, rfl⟩
    | instanceVar =>
      simp only [kind] at h
      cases object : here.activation.objectClass? with
      | none =>
        simp only [object, fail_run, Option.some.injEq, Prod.mk.injEq] at h
        obtain ⟨rfl, rfl⟩ := h
        exact .inr (.inl ⟨rfl, rfl, rfl, rfl⟩)
      | some c =>
        simp only [object] at h
        obtain ⟨rfl, rfl⟩ := pure_eq_some.1 h
        exact .inr (.inr (.inl ⟨rfl, c, rfl, rfl, rfl⟩))
    | global =>
      simp only [kind] at h
      obtain ⟨rfl, rfl⟩ := pure_eq_some.1 h
      exact .inr (.inr (.inr (.inl ⟨rfl, rfl, rfl⟩)))
    | constant =>
      simp only [kind] at h
      obtain ⟨rfl, rfl⟩ := pure_eq_some.1 h
      exact .inr (.inr (.inr (.inr ⟨rfl, rfl, rfl⟩)))
  · exact .inl stopped

end Leaves

section Control

/-- The value of an exit; a missing one is nil. -/
def elaborateValue (elaborate : Elaborate) (here : Place) : Option Expr → Pass Elaborated
  | some e => elaborate here e
  | none => return Elaborated.nil

/-- The run-time target of an exit at a place. -/
def exitTarget? (cx : Setting) (here : Place) (id : NodeId) : Option RunTarget :=
  (cx.exits.target? id).bind fun x => here.activation.target? x

/-- An exit with its value, once it is known where it goes. -/
def leaveTo (first : Elaborated) (t : Ty) (keyword : String) (span : Span) :
    Option RunTarget → Pass Elaborated
  | some (.frame f) =>
    return .ofNode (.return f first.code) (first.ends.dropNormal.add (.return f t))
  | some (.break b) =>
    return .ofNode (.break b first.code) (first.ends.dropNormal.add (.break b t))
  | none => Pass.fail (.unresolvedExit keyword span)

theorem elaborateExit_steps {id : NodeId} {span : Span} {keyword : String} {value : Option Expr}
    (h : elaborateExit cx elaborate here id span keyword value s = some (l, s')) :
    ∃ first s₁, elaborateValue elaborate here value s = some (first, s₁) ∧
      ((first.ends.normal = none ∧ l = first ∧ s' = s₁) ∨
        ∃ t, first.ends.normal = some t ∧
          ((∃ f, exitTarget? cx here id = some (.frame f) ∧ s' = s₁ ∧
              l = .ofNode (.return f first.code) (first.ends.dropNormal.add (.return f t))) ∨
            (∃ b, exitTarget? cx here id = some (.break b) ∧ s' = s₁ ∧
              l = .ofNode (.break b first.code) (first.ends.dropNormal.add (.break b t))) ∨
            (exitTarget? cx here id = none ∧ l = Elaborated.failed ∧
              s' = { s₁ with errors := s₁.errors ++ [.unresolvedExit keyword span] }))) := by
  have leave {first : Elaborated} {s₁ : PassState} {t : Ty}
      (h : leaveTo first t keyword span (exitTarget? cx here id) s₁ = some (l, s')) :
      (∃ f, exitTarget? cx here id = some (.frame f) ∧ s' = s₁ ∧
          l = .ofNode (.return f first.code) (first.ends.dropNormal.add (.return f t))) ∨
        (∃ b, exitTarget? cx here id = some (.break b) ∧ s' = s₁ ∧
          l = .ofNode (.break b first.code) (first.ends.dropNormal.add (.break b t))) ∨
        (exitTarget? cx here id = none ∧ l = Elaborated.failed ∧
          s' = { s₁ with errors := s₁.errors ++ [.unresolvedExit keyword span] }) := by
    cases target : exitTarget? cx here id with
    | none =>
      simp only [leaveTo, target, fail_run, Option.some.injEq, Prod.mk.injEq] at h
      obtain ⟨rfl, rfl⟩ := h
      exact .inr (.inr ⟨rfl, rfl, rfl⟩)
    | some target' =>
      cases target' with
      | frame f =>
        simp only [leaveTo, target] at h
        obtain ⟨rfl, rfl⟩ := pure_eq_some.1 h
        exact .inl ⟨f, rfl, rfl, rfl⟩
      | «break» b =>
        simp only [leaveTo, target] at h
        obtain ⟨rfl, rfl⟩ := pure_eq_some.1 h
        exact .inr (.inl ⟨b, rfl, rfl, rfl⟩)
  cases value with
  | none => exact ⟨Elaborated.nil, s, rfl, .inr ⟨Ty.nil, rfl, leave h⟩⟩
  | some e =>
    obtain ⟨first, s₁, run, h⟩ := withOperand_steps h
    refine ⟨first, s₁, run, ?_⟩
    rcases h with ⟨t, normal, h⟩ | stopped
    · exact .inr ⟨t, normal, leave h⟩
    · exact .inl stopped

theorem elaborateNot_steps {operand : Expr}
    (h : elaborateNot elaborate here operand s = some (l, s')) :
    ∃ first, elaborate here operand s = some (first, s') ∧
      ((first.ends.normal = none ∧ l = first) ∨
        (first.ends.normal.isSome ∧
          l = .ofNode (.not first.code) (first.ends.dropNormal.add (.normal Ty.bool)))) := by
  obtain ⟨first, s₁, run, ⟨t, normal, h⟩ | ⟨normal, rfl, rfl⟩⟩ := withOperand_steps h
  · obtain ⟨rfl, rfl⟩ := pure_eq_some.1 h
    exact ⟨first, run, .inr ⟨by simp [normal], rfl⟩⟩
  · exact ⟨l, run, .inl ⟨normal, rfl⟩⟩

/-- The branches of a conditional as they run: `unless` swaps them. -/
def branches {α : Type} : ConditionKind → α → α → α × α
  | .if, first, second => (first, second)
  | .unless, first, second => (second, first)

theorem elaborateConditional_steps {kind : ConditionKind} {condition : Expr}
    {consequent : List Expr} {alternative : Option (List Expr)}
    (h : elaborateConditional elaborate here kind condition consequent alternative s =
      some (l, s')) :
    ∃ c s₁, elaborate here condition s = some (c, s₁) ∧
      ((c.ends.normal = none ∧ l = c ∧ s' = s₁) ∨
        (c.ends.normal.isSome ∧ ∃ first s₂ second s₃,
          elaborateBody elaborate here consequent s₁ = some (first, s₂) ∧
          elaborateBody elaborate here (alternative.getD [])
            { s₂ with assigned := s₁.assigned } = some (second, s₃) ∧
          s' = { s₃ with
            assigned := assignedAfter s₁.assigned
              [(first.ends.fallsThrough, s₂.assigned),
                (second.ends.fallsThrough, s₃.assigned)] } ∧
          l = .ofNode
            (.conditional c.code (branches kind first second).1.code
              (branches kind first second).2.code)
            ((c.ends.dropNormal.join (branches kind first second).1.ends).join
              (branches kind first second).2.ends))) := by
  obtain ⟨c, s₁, run, ⟨t, normal, h⟩ | stopped⟩ := withOperand_steps h
  · refine ⟨c, s₁, run, .inr ⟨by simp [normal], ?_⟩⟩
    rw [bind_run assigned_run] at h
    obtain ⟨first, s₂, runFirst, h⟩ := bind_eq_some.1 h
    rw [bind_run assigned_run, bind_run (setAssigned_run _)] at h
    cases alternative
    all_goals
      obtain ⟨second, s₃, runSecond, h⟩ := bind_eq_some.1 h
      dsimp only at h
      rw [bind_run assigned_run, bind_run (setAssigned_run _)] at h
      refine ⟨first, s₂, second, s₃, runFirst, runSecond, ?_⟩
      cases kind
      all_goals
        obtain ⟨rfl, rfl⟩ := pure_eq_some.1 h
        exact ⟨rfl, rfl⟩
  · exact ⟨c, s₁, run, .inl stopped⟩

/-- The place of a loop's body. -/
def Place.inLoop (here : Place) (id : NodeId) (loop : LoopId) : Place :=
  { here with activation := here.activation.withTarget (.loop id) (.break (.loop loop)) }

theorem elaborateWhile_steps {id : NodeId} {condition : Expr} {body : List Expr}
    (h : elaborateWhile elaborate here id condition body s = some (l, s')) :
    ∃ c s₁, elaborate here condition s = some (c, s₁) ∧
      ((c.ends.normal = none ∧ l = c ∧ s' = s₁) ∨
        (c.ends.normal.isSome ∧ ∃ b s₂,
          elaborateBody elaborate (here.inLoop id ⟨s₁.nextLoop⟩) body
            { s₁ with nextLoop := s₁.nextLoop + 1 } = some (b, s₂) ∧
          s' = { s₂ with assigned := s₁.assigned } ∧
          l = .ofNode (.while ⟨s₁.nextLoop⟩ c.code b.code)
            (c.ends.dropNormal.join
              (b.ends.throughLoop ⟨s₁.nextLoop⟩ !condition.alwaysTrue)))) := by
  obtain ⟨c, s₁, run, ⟨t, normal, h⟩ | stopped⟩ := withOperand_steps h
  · refine ⟨c, s₁, run, .inr ⟨by simp [normal], ?_⟩⟩
    rw [bind_run assigned_run, bind_run newLoop_run] at h
    obtain ⟨b, s₂, runBody, h⟩ := bind_eq_some.1 h
    rw [bind_run (setAssigned_run _)] at h
    obtain ⟨rfl, rfl⟩ := pure_eq_some.1 h
    exact ⟨b, s₂, runBody, rfl, rfl⟩
  · exact ⟨c, s₁, run, .inl stopped⟩

/-- The node of a short-circuiting operator. -/
def connectiveNode : Connective → Typed.Expr → Typed.Expr → Typed.Node
  | .and, left, right => .and left right
  | .or, left, right => .or left right

theorem elaborateLogical_steps {connective : Connective} {left right : Expr}
    (h : elaborateLogical elaborate here connective left right s = some (l, s')) :
    ∃ first s₁, elaborate here left s = some (first, s₁) ∧
      ((first.ends.normal = none ∧ l = first ∧ s' = s₁) ∨
        ∃ t second s₂, first.ends.normal = some t ∧
          elaborate here right s₁ = some (second, s₂) ∧
          s' = { s₂ with assigned := s₁.assigned } ∧
          l = .ofNode (connectiveNode connective first.code second.code)
            ((first.ends.dropNormal.join second.ends).joinNormal (some t))) := by
  obtain ⟨first, s₁, run, ⟨t, normal, h⟩ | stopped⟩ := withOperand_steps h
  · refine ⟨first, s₁, run, .inr ⟨t, ?_⟩⟩
    rw [bind_run assigned_run] at h
    obtain ⟨second, s₂, runRight, h⟩ := bind_eq_some.1 h
    rw [bind_run (setAssigned_run _)] at h
    obtain ⟨rfl, rfl⟩ := pure_eq_some.1 h
    cases connective <;> exact ⟨second, s₂, normal, runRight, rfl, rfl⟩
  · exact ⟨first, s₁, run, .inl stopped⟩

end Control

section Methods

/-- The state with a number given to a method whose body is still to come. -/
def admitted (key : Instantiation) (s : PassState) : PassState :=
  { s with
    methods := s.methods.push none
    instances := s.instances ++ [(key, ⟨s.methods.size⟩)] }

/-- The slot of `self` and the frame with which a method body starts. -/
def methodSelf (key : Instantiation) : SlotId × FrameSlots :=
  selfBound FrameSlots.empty [.instance key] key.selfType

/-- The state in which the parameters of a method are bound. -/
def enteredMethod (key : Instantiation) (s : PassState) : PassState :=
  { admitted key s with nextFrame := s.nextFrame + 1, frame := (methodSelf key).2 }

/-- The place of a method body whose frame is the next one of the state before. -/
def methodPlace (key : Instantiation) (m : MethodEntry) (depth : Nat) (s : PassState) : Place :=
  ⟨⟨[.instance key], m.fullName, key.selfType, (methodSelf key).1,
    [(.method m.definition.id, .frame ⟨s.nextFrame⟩)], .body⟩, depth⟩

/-- The method made from its elaborated body, between the state before and the one after. -/
def madeMethod (key : Instantiation) (m : MethodEntry) (parameters : List SlotId)
    (body : Elaborated) (s s₂ : PassState) : Typed.Method where
  id := ⟨s.methods.size⟩
  name := m.name
  owner := m.owner
  selfType := key.selfType
  selfSlot := (methodSelf key).1
  parameters := parameters
  locals := s₂.frame.typedSlots s₂.tables
  body := body.code
  returnType := (s₂.tables.extendResult key (body.ends.methodResult ⟨s.nextFrame⟩)).result? key
  frame := ⟨s.nextFrame⟩

/-- The state after a method, with the slots of the caller back in place. -/
def leftMethod (key : Instantiation) (m : MethodEntry) (parameters : List SlotId)
    (body : Elaborated) (s s₂ : PassState) : PassState :=
  { s₂ with
    frame := s.frame
    tables := s₂.tables.extendResult key (body.ends.methodResult ⟨s.nextFrame⟩)
    methods := s₂.methods.setIfInBounds s.methods.size
      (some (madeMethod key m parameters body s s₂)) }

theorem elaborateMethod_steps {depth : Nat} {key : Instantiation} {id : InstanceId}
    (h : elaborateMethod cx elaborate depth key s = some (id, s')) :
    (s.instances.lookup key = some id ∧ s' = s) ∨
      (s.instances.lookup key = none ∧ id = ⟨s.methods.size⟩ ∧
        ((cx.definitions.method? key.method = none ∧ s' = admitted key s) ∨
          ∃ m parameters s₁ body s₂, cx.definitions.method? key.method = some m ∧
            bindVars [.instance key] m.parameters key.arguments (enteredMethod key s) =
              some (parameters, s₁) ∧
            elaborateBody elaborate (methodPlace key m depth s) m.definition.body s₁ =
              some (body, s₂) ∧
            s' = leftMethod key m parameters body s s₂)) := by
  simp only [elaborateMethod] at h
  rw [bind_run get_run] at h
  cases known : s.instances.lookup key with
  | some id' =>
    simp only [known] at h
    obtain ⟨rfl, rfl⟩ := pure_eq_some.1 h
    exact .inl ⟨rfl, rfl⟩
  | none =>
    simp only [known] at h
    rw [bind_run (modify_run _)] at h
    cases found : cx.definitions.method? key.method with
    | none =>
      simp only [found] at h
      obtain ⟨rfl, rfl⟩ := pure_eq_some.1 h
      exact .inr ⟨rfl, rfl, .inl ⟨rfl, rfl⟩⟩
    | some m =>
      simp only [found] at h
      rw [bind_run newFrame_run, bind_run get_run, bind_run (modify_run _),
        bind_run (bindSelf_run _ _)] at h
      obtain ⟨parameters, s₁, bound, h⟩ := bind_eq_some.1 h
      obtain ⟨body, s₂, run, h⟩ := bind_eq_some.1 h
      rw [bind_run get_run, bind_run (set_run _)] at h
      obtain ⟨rfl, rfl⟩ := pure_eq_some.1 h
      exact .inr ⟨rfl, rfl, .inr ⟨m, parameters, s₁, body, s₂, rfl, bound, run, rfl⟩⟩

/-- The scope of a method expanded at a call. -/
def expansionPath (here : Place) (call : CallSyntax) (key : Instantiation) : ScopeChain :=
  .inline call.id key :: here.activation.path

/-- The slot of `self` in an expansion, and the frame with it. -/
def expansionSelf (here : Place) (call : CallSyntax) (key : Instantiation) (s : PassState) :
    SlotId × FrameSlots :=
  selfBound s.frame (expansionPath here call key) key.selfType

/-- The state in which the parameters of an expanded method are bound. -/
def enteredExpansion (here : Place) (call : CallSyntax) (key : Instantiation) (s : PassState) :
    PassState :=
  { s with
    nextSite := s.nextSite + 1
    nextFrame := s.nextFrame + 1
    assigned := s.assigned.filter fun k => !isWithin k.path (expansionPath here call key)
    frame := (expansionSelf here call key s).2 }

/-- The place of the body of an expanded method. -/
def expansionPlace (here : Place) (call : CallSyntax) (m : MethodEntry) (key : Instantiation)
    (block : Block) (s : PassState) : Place :=
  ⟨⟨expansionPath here call key, m.fullName, key.selfType, (expansionSelf here call key s).1,
    [(.method m.definition.id, .frame ⟨s.nextFrame⟩)],
    .expansion block ⟨s.nextSite⟩ here.activation⟩, here.depth + 1⟩

/-- The call made from the elaborated body of the method it expands. -/
def madeExpansion (here : Place) (call : CallSyntax) (m : MethodEntry) (key : Instantiation)
    (receiver : Typed.Expr) (arguments : List Typed.Expr) (parameters : List SlotId)
    (body : Elaborated) (s s₂ : PassState) : Typed.ExpandedCall where
  site := ⟨s.nextSite⟩
  frame := ⟨s.nextFrame⟩
  name := m.fullName
  selfSlot := (expansionSelf here call key s).1
  receiver := receiver
  parameters := parameters
  locals := s₂.frame.slotsWithin (expansionPath here call key)
  arguments := arguments
  body := body.code
  breakType := body.ends.breakTy? (.call ⟨s.nextSite⟩)
  returnType := body.ends.returnTy? ⟨s.nextFrame⟩

/-- Someone leaves the expansion early, by a break of the block or a return of the method. -/
def leavesEarly (body : Elaborated) (s : PassState) : Bool :=
  (body.ends.breakTy? (.call ⟨s.nextSite⟩)).isSome || (body.ends.returnTy? ⟨s.nextFrame⟩).isSome

theorem expandCall_steps {call : CallSyntax} {m : MethodEntry} {key : Instantiation}
    {block : Block} {receiver : Typed.Expr} {arguments : List Typed.Expr}
    (h : expandCall cx elaborate here call m key block receiver arguments s = some (l, s')) :
    (cx.limits.maxInlineDepth ≤ here.depth ∧ l = Elaborated.failed ∧
        s' = { s with errors := s.errors ++
          [.inlineDepthExceeded m.fullName cx.limits.maxInlineDepth call.nameSpan] }) ∨
      (here.depth < cx.limits.maxInlineDepth ∧ ∃ parameters s₁ body s₂,
        bindVars (expansionPath here call key) m.parameters key.arguments
          (enteredExpansion here call key s) = some (parameters, s₁) ∧
        elaborateBody elaborate (expansionPlace here call m key block s) m.definition.body s₁ =
          some (body, s₂) ∧
        s' = { s₂ with assigned := if leavesEarly body s then s.assigned else s₂.assigned } ∧
        l = .ofNode
          (.inline (madeExpansion here call m key receiver arguments parameters body s s₂))
          (body.ends.throughCall ⟨s.nextSite⟩ ⟨s.nextFrame⟩)) := by
  simp only [expandCall] at h
  split at h
  · rename_i deep
    simp only [fail_run, Option.some.injEq, Prod.mk.injEq] at h
    obtain ⟨rfl, rfl⟩ := h
    exact .inl ⟨deep, rfl, rfl⟩
  · rename_i shallow
    rw [bind_run newSite_run, bind_run newFrame_run, bind_run assigned_run,
      bind_run (unassign_run _), bind_run (bindSelf_run _ _)] at h
    obtain ⟨parameters, s₁, bound, h⟩ := bind_eq_some.1 h
    obtain ⟨body, s₂, run, h⟩ := bind_eq_some.1 h
    rw [bind_run (slotsWithin_run _)] at h
    refine .inr ⟨Nat.lt_of_not_le shallow, parameters, s₁, body, s₂, bound, run, ?_⟩
    split at h
    · rename_i early
      rw [bind_run (setAssigned_run _)] at h
      obtain ⟨rfl, rfl⟩ := pure_eq_some.1 h
      exact ⟨by rw [leavesEarly, if_pos early], rfl⟩
    · rename_i through
      obtain ⟨rfl, rfl⟩ := pure_eq_some.1 h
      exact ⟨by rw [leavesEarly, if_neg through], rfl⟩

end Methods

section Calls

variable {call : CallSyntax} {arguments : List Typed.Expr} {types : List Ty}

theorem elaborateConstruct_steps {className : String}
    (h : elaborateConstruct cx elaborate here call className arguments types s = some (l, s')) :
    (∃ id instanceId, initializer? cx (s.tables.objectTy className) types = some id ∧
        elaborateMethod cx elaborate here.depth ⟨id, s.tables.objectTy className, types⟩ s =
          some (instanceId, s') ∧
        l = .ofNode (.construct className (some instanceId) arguments)
          (match s'.tables.result? ⟨id, s.tables.objectTy className, types⟩ with
            | some _ => .ofNormal (s'.tables.objectTy className)
            | none => Completions.never)) ∨
      (initializer? cx (s.tables.objectTy className) types = none ∧
        ((arguments = [] ∧ s' = s ∧
            l = .ofNode (.construct className none arguments)
              (.ofNormal (s.tables.objectTy className))) ∨
          (arguments ≠ [] ∧ l = Elaborated.failed ∧
            s' = { s with errors := s.errors ++ [.undefinedMethod
              (s.tables.objectTy className).text "initialize" arguments.length
              call.nameSpan] }))) := by
  simp only [elaborateConstruct] at h
  rw [bind_run tables_run] at h
  cases chosen : initializer? cx (s.tables.objectTy className) types with
  | some id =>
    simp only [chosen] at h
    obtain ⟨instanceId, s₁, made, h⟩ := bind_eq_some.1 h
    rw [bind_run tables_run] at h
    cases result : s₁.tables.result? ⟨id, s.tables.objectTy className, types⟩ with
    | some t =>
      simp only [result] at h
      rw [bind_run tables_run] at h
      obtain ⟨rfl, rfl⟩ := pure_eq_some.1 h
      exact .inl ⟨id, instanceId, rfl, made, by simp only [result]⟩
    | none =>
      simp only [result] at h
      obtain ⟨rfl, rfl⟩ := pure_eq_some.1 h
      exact .inl ⟨id, instanceId, rfl, made, by simp only [result]⟩
  | none =>
    simp only [chosen] at h
    refine .inr ⟨rfl, ?_⟩
    split at h
    · rename_i empty
      rw [bind_run tables_run] at h
      obtain ⟨rfl, rfl⟩ := pure_eq_some.1 h
      exact .inl ⟨by simpa using empty, rfl, rfl⟩
    · rename_i given
      simp only [fail_run, Option.some.injEq, Prod.mk.injEq] at h
      obtain ⟨rfl, rfl⟩ := h
      exact .inr ⟨by simpa using given, rfl, rfl⟩

/-- An initializer is a method with as many parameters as there are arguments, and does not yield. -/
theorem initializer?_callable (consistent : cx.definitions.Consistent) {object : Ty} {id : MethodId}
    (chosen : initializer? cx object types = some id) :
    ∃ m, cx.definitions.method? id = some m ∧ m.parameters.length = types.length := by
  rw [initializer?] at chosen
  split at chosen
  · rename_i id' dispatched
    split at chosen
    · cases chosen
      obtain ⟨m, found, applicable, -⟩ := Definitions.dispatch?_method consistent dispatched
      exact ⟨m, found, Definitions.arity_of_applicable applicable⟩
    · cases chosen
  · cases chosen

/-- The method and the types that a call runs it with: a function of the top level gets the main
object as `self`. -/
def calledKey (m : MethodEntry) (receiverType : Ty) (types : List Ty) : Instantiation :=
  ⟨m.id, if m.owner.isSome then receiverType else Ty.main, types⟩

/-- The receiver that a method is called with. -/
def calledReceiver (m : MethodEntry) (receiver : Typed.Expr) : Typed.Expr :=
  if m.owner.isSome then receiver else ⟨some Ty.main, .mainObject⟩

theorem elaborateMethodCall_steps {m : MethodEntry} {receiver : Typed.Expr} {receiverType : Ty}
    (h : elaborateMethodCall cx elaborate here call m receiver receiverType arguments types s =
      some (l, s')) :
    (m.yields = true ∧ ∃ block, call.block = some block ∧
        expandCall cx elaborate here call m (calledKey m receiverType types) block
          (calledReceiver m receiver) arguments s = some (l, s')) ∨
      (m.yields = true ∧ call.block = none ∧ l = Elaborated.failed ∧
        s' = { s with errors := s.errors ++ [.missingBlock m.fullName call.nameSpan] }) ∨
      (m.yields = false ∧ ∃ id,
        elaborateMethod cx elaborate here.depth (calledKey m receiverType types) s =
          some (id, s') ∧
        l = .ofNode (.call id (calledReceiver m receiver) arguments)
          (match s'.tables.result? (calledKey m receiverType types) with
            | some t => .ofNormal t
            | none => Completions.never)) := by
  simp only [elaborateMethodCall] at h
  cases owner : m.owner
  all_goals
    simp only [calledKey, calledReceiver, owner, Option.isSome_some, Option.isSome_none, if_true,
      Bool.false_eq_true, if_false] at h ⊢
    split at h
    · rename_i yields
      cases given : call.block with
      | some block =>
        simp only [given] at h
        exact .inl ⟨yields, block, rfl, h⟩
      | none =>
        simp only [given, fail_run, Option.some.injEq, Prod.mk.injEq] at h
        obtain ⟨rfl, rfl⟩ := h
        exact .inr (.inl ⟨yields, rfl, rfl, rfl⟩)
    · rename_i plain
      obtain ⟨id, s₁, made, h⟩ := bind_eq_some.1 h
      rw [bind_run tables_run] at h
      obtain ⟨rfl, rfl⟩ := pure_eq_some.1 h
      exact .inr (.inr ⟨by simpa using plain, id, made, rfl⟩)

/-- What dispatch says about a call whose operands have the given types. -/
def calleeFor? (cx : Setting) (call : CallSyntax) (receiverType : Ty) (argumentTypes : List Ty) :
    Option Callee :=
  cx.definitions.dispatch?
    ⟨receiverType, call.name, argumentTypes, call.block.isSome, call.toSelf⟩

/-- The ways a library function can end, as far as it is declared. -/
def foreignEnds (cx : Setting) (lib name : String) : Completions :=
  match (cx.definitions.foreign? lib name).bind ForeignEntry.resultTy? with
  | some t => .ofNormal t
  | none => Completions.never

theorem elaborateArm_steps {operands : List Typed.Expr}
    (h : elaborateArm cx elaborate here call operands types s = some (l, s')) :
    (∃ e, e.span.isSome ∧ l = Elaborated.failed ∧
        s' = { s with errors := s.errors ++ [e] }) ∨
      ∃ receiverType argumentTypes, types = receiverType :: argumentTypes ∧
        ((∃ p, calleeFor? cx call receiverType argumentTypes = some (.primitive p) ∧ s' = s ∧
            l = .ofNode
              (.primitive p (operands.headD Typed.Expr.nil) (operands.drop 1))
              (.ofNormal (p.resultTy receiverType argumentTypes))) ∨
          (∃ c, calleeFor? cx call receiverType argumentTypes = some (.construct c) ∧
            elaborateConstruct cx elaborate here call c (operands.drop 1) argumentTypes s =
              some (l, s')) ∨
          (∃ lib name, calleeFor? cx call receiverType argumentTypes = some (.foreign lib name) ∧
            s' = s ∧ l = .ofNode (.foreign lib name (operands.drop 1))
              (foreignEnds cx lib name)) ∨
          (∃ id m, calleeFor? cx call receiverType argumentTypes = some (.method id) ∧
            cx.definitions.method? id = some m ∧
            elaborateMethodCall cx elaborate here call m (operands.headD Typed.Expr.nil)
              receiverType (operands.drop 1) argumentTypes s = some (l, s'))) := by
  simp only [elaborateArm] at h
  cases types with
  | nil =>
    simp only [fail_run, Option.some.injEq, Prod.mk.injEq] at h
    obtain ⟨rfl, rfl⟩ := h
    exact .inl ⟨_, rfl, rfl, rfl⟩
  | cons receiverType argumentTypes =>
    dsimp only at h
    cases callee : calleeFor? cx call receiverType argumentTypes with
    | none =>
      rw [calleeFor?] at callee
      simp only [callee, fail_run, Option.some.injEq, Prod.mk.injEq] at h
      obtain ⟨rfl, rfl⟩ := h
      exact .inl ⟨_, rfl, rfl, rfl⟩
    | some target =>
      have dispatched := callee
      rw [calleeFor?] at dispatched
      simp only [dispatched] at h
      cases target with
      | primitive p =>
        obtain ⟨rfl, rfl⟩ := pure_eq_some.1 h
        exact .inr ⟨_, _, rfl, .inl ⟨p, callee, rfl, rfl⟩⟩
      | construct c => exact .inr ⟨_, _, rfl, .inr (.inl ⟨c, callee, h⟩)⟩
      | foreign lib name =>
        obtain ⟨rfl, rfl⟩ := pure_eq_some.1 h
        exact .inr ⟨_, _, rfl, .inr (.inr (.inl ⟨lib, name, callee, rfl, rfl⟩))⟩
      | method id =>
        cases found : cx.definitions.method? id with
        | none =>
          simp only [found, fail_run, Option.some.injEq, Prod.mk.injEq] at h
          obtain ⟨rfl, rfl⟩ := h
          exact .inl ⟨_, rfl, rfl, rfl⟩
        | some m =>
          simp only [found] at h
          exact .inr ⟨_, _, rfl, .inr (.inr (.inr ⟨id, m, callee, found, h⟩))⟩

theorem elaborateArms_nil_steps {temps : List SlotId} {before : List ScopeVar}
    {arms : List (Typed.Arm × Completions × List ScopeVar)}
    (h : elaborateArms cx elaborate here call temps before [] s = some (arms, s')) :
    arms = [] ∧ s' = s := by
  simp only [elaborateArms, pure_eq_some] at h
  obtain ⟨rfl, rfl⟩ := h
  exact ⟨rfl, rfl⟩

/-- The operands of an arm: the temporary slots, with the types of the arm. -/
def armOperands (temps : List SlotId) (types : List Ty) : List Typed.Expr :=
  (temps.zip types).map fun (slot, t) => Typed.Expr.ofSlot slot (some t)

theorem elaborateArms_cons_steps {temps : List SlotId} {before : List ScopeVar}
    {rest : List (List Ty)} {arms : List (Typed.Arm × Completions × List ScopeVar)}
    (h : elaborateArms cx elaborate here call temps before (types :: rest) s = some (arms, s')) :
    ∃ arm s₁ others,
      elaborateArm cx elaborate here call (armOperands temps types) types
        { s with assigned := before } = some (arm, s₁) ∧
      elaborateArms cx elaborate here call temps before rest s₁ = some (others, s') ∧
      arms = (⟨types, arm.code⟩, arm.ends, s₁.assigned) :: others := by
  simp only [elaborateArms] at h
  rw [bind_run (setAssigned_run _)] at h
  obtain ⟨arm, s₁, run, h⟩ := bind_eq_some.1 h
  rw [bind_run assigned_run] at h
  obtain ⟨others, s₂, runRest, h⟩ := bind_eq_some.1 h
  obtain ⟨rfl, rfl⟩ := pure_eq_some.1 h
  exact ⟨arm, s₁, others, run, runRest, rfl⟩

/-- The ends of a call that chooses among arms. -/
def armEnds (arms : List (Typed.Arm × Completions × List ScopeVar)) : Completions :=
  arms.foldl (fun ends arm => ends.join arm.2.1) Completions.never

/-- The variables that are assigned whichever arm has run. -/
def assignedByArms (before : List ScopeVar)
    (arms : List (Typed.Arm × Completions × List ScopeVar)) : List ScopeVar :=
  assignedAfter before (arms.map fun (_, ends, after) => (ends.fallsThrough, after))

theorem elaborateDispatch_steps {operands : List Typed.Expr}
    (h : elaborateDispatch cx elaborate here call operands types s = some (l, s')) :
    (types.any Ty.isUnion = false ∧
        elaborateArm cx elaborate here call operands types s = some (l, s')) ∨
      (types.any Ty.isUnion = true ∧
        ((∃ n, armsWithin cx.limits.maxArms types = .error n ∧ l = Elaborated.failed ∧
            s' = { s with errors := s.errors ++
              [.tooManyArms call.name n cx.limits.maxArms call.nameSpan] }) ∨
          ∃ choices temps s₁ arms s₂, armsWithin cx.limits.maxArms types = .ok choices ∧
            tempSlots types s = some (temps, s₁) ∧
            elaborateArms cx elaborate here call temps s₁.assigned choices s₁ =
              some (arms, s₂) ∧
            s' = { s₂ with assigned := assignedByArms s₁.assigned arms } ∧
            l = .ofNode (.dispatch operands temps (arms.map (·.1))) (armEnds arms))) := by
  simp only [elaborateDispatch] at h
  split at h
  · rename_i union
    refine .inr ⟨union, ?_⟩
    cases expanded : armsWithin cx.limits.maxArms types with
    | error n =>
      simp only [expanded, fail_run, Option.some.injEq, Prod.mk.injEq] at h
      obtain ⟨rfl, rfl⟩ := h
      exact .inl ⟨n, rfl, rfl, rfl⟩
    | ok choices =>
      simp only [expanded] at h
      obtain ⟨temps, s₁, made, h⟩ := bind_eq_some.1 h
      rw [bind_run assigned_run] at h
      obtain ⟨arms, s₂, run, h⟩ := bind_eq_some.1 h
      rw [bind_run (setAssigned_run _)] at h
      obtain ⟨rfl, rfl⟩ := pure_eq_some.1 h
      exact .inr ⟨choices, temps, s₁, arms, s₂, rfl, made, run, rfl, rfl⟩
  · rename_i simple
    exact .inl ⟨by simpa using simple, h⟩

/-- The operands of a call as dispatch sees them: a call without a receiver is sent to `self`. -/
def sentOperands (here : Place) (receiver : Option Expr) (parts : List Typed.Expr) :
    List Typed.Expr :=
  if receiver.isNone then
    Typed.Expr.ofSlot here.activation.selfSlot (some here.activation.selfType) :: parts
  else parts

theorem elaborateCall_steps {id : NodeId} {receiver : Option Expr} {name : String}
    {nameSpan : Span} {written : List Expr} {block : Option Block}
    (h : elaborateCall cx elaborate here id receiver name nameSpan written block s =
      some (l, s')) :
    ∃ parts ends s₁,
      elaborateParts elaborate here (Completions.ofNormal Ty.nil) (receiver.toList ++ written) s =
        some ((parts, ends), s₁) ∧
      ((ends.fallsThrough = false ∧ l = ⟨Typed.Expr.ofParts parts none, ends⟩ ∧ s' = s₁) ∨
        (ends.fallsThrough = true ∧ ∃ sent,
          elaborateDispatch cx elaborate here ⟨id, name, nameSpan, block, receiver.isNone⟩
            (sentOperands here receiver parts)
            ((sentOperands here receiver parts).filterMap (·.ty)) s₁ = some (sent, s') ∧
          l = ⟨sent.code, ends.andThen sent.ends⟩)) := by
  obtain ⟨parts, ends, s₁, run, ⟨falls, h⟩ | ⟨stops, rfl, rfl⟩⟩ := withOperands_steps h
  · obtain ⟨sent, s₂, runSent, h⟩ := bind_eq_some.1 h
    obtain ⟨rfl, rfl⟩ := pure_eq_some.1 h
    exact ⟨parts, ends, s₁, run, .inr ⟨falls, sent, runSent, rfl⟩⟩
  · exact ⟨parts, ends, s', run, .inl ⟨stops, rfl, rfl⟩⟩

/-- The body of a block that runs for a yield, in the scope where the block stands. -/
def blockContext (block : Block) (site : SiteId) (definer : BodyContext) : BodyContext :=
  { definer with
    path := .block block.id :: definer.path
    targets := [(.block block.id, .break (.call site))]
    origin := .block block.id definer }

theorem elaborateYield_steps {span : Span} {written : List Expr}
    (h : elaborateYield elaborate here span written s = some (l, s')) :
    ∃ parts ends s₁,
      elaborateParts elaborate here (Completions.ofNormal Ty.nil) written s =
        some ((parts, ends), s₁) ∧
      ((ends.fallsThrough = false ∧ l = ⟨Typed.Expr.ofParts parts none, ends⟩ ∧ s' = s₁) ∨
        (ends.fallsThrough = true ∧
          ((∃ block site definer parameters s₂ body,
              here.activation.methodBody.origin = .expansion block site definer ∧
              bindYielded (.block block.id :: definer.path) block.parameters parts
                { s₁ with assigned := s₁.assigned.filter fun k =>
                  !isWithin k.path (.block block.id :: definer.path) } =
                some (parameters, s₂) ∧
              elaborateBody elaborate ⟨blockContext block site definer, here.depth⟩ block.body
                s₂ = some (body, s') ∧
              l = .ofNode
                (.yield parameters (s'.frame.slotsWithin (.block block.id :: definer.path)) parts
                  body.code)
                (ends.andThen body.ends)) ∨
            (∃ e, e.span.isSome ∧ l = Elaborated.failed ∧
              s' = { s₁ with errors := s₁.errors ++ [e] })))) := by
  obtain ⟨parts, ends, s₁, run, ⟨falls, h⟩ | ⟨stops, rfl, rfl⟩⟩ := withOperands_steps h
  · refine ⟨parts, ends, s₁, run, .inr ⟨falls, ?_⟩⟩
    cases origin : here.activation.methodBody.origin with
    | expansion block site definer =>
      simp only [origin] at h
      rw [bind_run (unassign_run _)] at h
      obtain ⟨parameters, s₂, bound, h⟩ := bind_eq_some.1 h
      obtain ⟨body, s₃, runBody, h⟩ := bind_eq_some.1 h
      rw [bind_run (slotsWithin_run _)] at h
      obtain ⟨rfl, rfl⟩ := pure_eq_some.1 h
      exact .inl ⟨block, site, definer, parameters, s₂, body, rfl, bound, runBody, rfl⟩
    | body =>
      simp only [origin, fail_run, Option.some.injEq, Prod.mk.injEq] at h
      obtain ⟨rfl, rfl⟩ := h
      exact .inr ⟨_, rfl, rfl, rfl⟩
    | block id definer =>
      simp only [origin, fail_run, Option.some.injEq, Prod.mk.injEq] at h
      obtain ⟨rfl, rfl⟩ := h
      exact .inr ⟨_, rfl, rfl, rfl⟩
  · exact ⟨parts, ends, s', run, .inl ⟨stops, rfl, rfl⟩⟩

end Calls

end TypedBlocks.Inference

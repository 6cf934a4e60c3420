import TypedBlocks.Proofs.MadeCode
import TypedBlocks.Proofs.TypedPrograms

/-!
# Where nodes come from

A node that makes an object or expands a call stands in the code because some call has been elaborated
to it, at a place and in a state that a pass can come to, and a method is in the program because its
definition has been elaborated for some types. What is known of these single elaborations thus holds of
all nodes and methods of a program.
-/
namespace TypedBlocks.Inference

open Typed (InstanceId SlotId)
open Pass

/-- The step has made the node in a pass without errors, which lists all methods that it knew by
then. -/
structure MadeBy (cx : Setting) (listed : List (Instantiation × InstanceId)) (n : Typed.Node)
    (here : Place) (s : PassState) (step : Pass Elaborated) (l : Elaborated) (s' : PassState) :
    Prop where
  place : here.Known cx .all
  known : s.Known cx .all
  run : step s = some (l, s')
  node : l.code.node = n
  sound : s'.errors = []
  listed : s'.instances <+: listed

/-- A call for operands of the types has been elaborated to the node, if it makes an object or expands a
method. -/
def Sourced (cx : Setting) (listed : List (Instantiation × InstanceId)) (n : Typed.Node) : Prop :=
  match n with
  | .construct c _ arguments => ∃ fuel here call types s l s',
      MadeBy cx listed n here s
        (elaborateConstruct cx (elaborateExpr cx fuel) here call c arguments types) l s' ∧
      arguments.map (·.ty) = types.map some ∧ ∀ t ∈ types, t.Known .all
  | .inline c => ∃ fuel here call m key block s l s',
      MadeBy cx listed n here s
        (expandCall cx (elaborateExpr cx fuel) here call m key block c.receiver c.arguments) l s' ∧
      cx.definitions.method? key.method = some m ∧ key.Known cx .all ∧
      c.receiver.ty = some key.selfType ∧ c.arguments.map (·.ty) = key.arguments.map some
  | _ => True

/-- All nodes of the expression are sourced. -/
def SourcedCode (cx : Setting) (listed : List (Instantiation × InstanceId)) (e : Typed.Expr) : Prop :=
  ∀ d : Typed.Expr, d.Inside e → Sourced cx listed d.node

/-- The method was made from a definition for the types of the key: its body is what the body of the
definition has been elaborated to in a scope of its own. -/
structure Implements (cx : Setting) (key : Instantiation) (entry : MethodEntry) (m : Typed.Method) :
    Prop where
  name : m.name = entry.name
  owner : m.owner = entry.owner
  selfType : m.selfType = key.selfType
  parameters : m.parameters.length = entry.arity
  body : ∃ fuel here s l s', here.activation.path = [.instance key] ∧
    here.activation.selfSlot = m.selfSlot ∧
    elaborateBody (elaborateExpr cx fuel) here entry.definition.body s = some (l, s') ∧
    m.body = l.code

/-- The method implements the definition that its key names. -/
def Implemented (cx : Setting) (key : Instantiation) (m : Typed.Method) : Prop :=
  ∃ entry, cx.definitions.method? key.method = some entry ∧ Implements cx key entry m

def SourcedMethod (cx : Setting) : MethodProperty := fun _ listed m => SourcedCode cx listed m.body

section Code

variable {cx : Setting} {listed listed' : List (Instantiation × InstanceId)} {n : Typed.Node}
  {e : Typed.Expr} {ty : Option Ty}

theorem MadeBy.later {here : Place} {s s' : PassState} {step : Pass Elaborated} {l : Elaborated}
    (made : MadeBy cx listed n here s step l s') (longer : listed <+: listed') :
    MadeBy cx listed' n here s step l s' :=
  { made with listed := made.listed.trans longer }

theorem Sourced.later (sourced : Sourced cx listed n) (longer : listed <+: listed') :
    Sourced cx listed' n := by
  cases n with
  | construct c initializer arguments =>
    obtain ⟨fuel, here, call, types, s, l, s', made, rest⟩ := sourced
    exact ⟨fuel, here, call, types, s, l, s', made.later longer, rest⟩
  | inline c =>
    obtain ⟨fuel, here, call, m, key, block, s, l, s', made, rest⟩ := sourced
    exact ⟨fuel, here, call, m, key, block, s, l, s', made.later longer, rest⟩
  | _ => trivial

theorem SourcedCode.later (sourced : SourcedCode cx listed e) (longer : listed <+: listed') :
    SourcedCode cx listed' e := fun d inside => (sourced d inside).later longer

theorem SourcedCode.of_parts (own : Sourced cx listed n)
    (parts : ∀ d ∈ n.parts, SourcedCode cx listed d) : SourcedCode cx listed ⟨ty, n⟩ := by
  intro d inside
  cases inside with
  | self => exact own
  | part direct inside => exact parts _ direct d inside

/-- The type of an expression does not matter. -/
theorem SourcedCode.retyped (sourced : SourcedCode cx listed e) :
    SourcedCode cx listed { e with ty := ty } :=
  .of_parts (sourced e (.self e)) fun _ direct d inside => sourced d (.part direct inside)

theorem sourcedMethod_lasting : (SourcedMethod cx).Lasting :=
  fun _ _ _ _ longer sourced => sourced.later longer

end Code

/-- A run of elaboration has made sourced code, and has finished methods that implement their
definitions. -/
structure Sources (cx : Setting) (s : PassState) (codes : List Typed.Expr) (s' : PassState) :
    Prop where
  grows : s.Grows s'
  finishes : s.Finishes (SourcedMethod cx) (Implemented cx) s'
  code : ∀ c ∈ codes, SourcedCode cx s'.instances c

namespace Sources

variable {cx : Setting} {s s₁ s' : PassState} {codes ds : List Typed.Expr} {n : Typed.Node}
  {ty : Option Ty}

theorem refl (s : PassState) : Sources cx s [] s := ⟨.refl s, .of_same rfl rfl, nofun⟩

theorem append (first : Sources cx s codes s₁) (second : Sources cx s₁ ds s') :
    Sources cx s (codes ++ ds) s' where
  grows := first.grows.trans second.grows
  finishes := first.finishes.trans sourcedMethod_lasting second.finishes second.grows
  code c member := (List.mem_append.1 member).elim
    (fun early => (first.code c early).later second.grows.instances) (second.code c)

/-- A step that touches no methods. -/
theorem of_step (grows : s.Grows s') (methods : s'.methods = s.methods)
    (instances : s'.instances = s.instances) : Sources cx s [] s' :=
  ⟨grows, .of_same methods instances, nofun⟩

theorem after (sources : Sources cx s codes s₁) (step : Sources cx s₁ [] s') :
    Sources cx s codes s' := by simpa using sources.append step

theorem assigned (sources : Sources cx s codes s') (keys : List ScopeVar) :
    Sources cx s codes { s' with assigned := keys } :=
  sources.after (.of_step (grows_assigned s' keys) rfl rfl)

theorem subset (sources : Sources cx s codes s') (fewer : ∀ d ∈ ds, d ∈ codes) :
    Sources cx s ds s' := { sources with code := fun d member => sources.code d (fewer d member) }

/-- A node whose parts are at hand. -/
theorem node (sources : Sources cx s codes s') (own : Sourced cx s'.instances n)
    (parts : ∀ d ∈ n.parts, d ∈ codes) : Sources cx s [⟨ty, n⟩] s' :=
  { sources with
    code := List.forall_mem_singleton.2 (.of_parts own fun d part => sources.code d (parts d part)) }

theorem ofParts (sources : Sources cx s codes s') :
    Sources cx s [Typed.Expr.ofParts codes ty] s' := by
  have sequence : Sources cx s [⟨ty, .sequence codes⟩] s' :=
    sources.node trivial fun d part => by
      simpa [Typed.Node.parts, Typed.Node.operands, Typed.Node.landing?] using part
  unfold Typed.Expr.ofParts
  split
  · rename_i only
    exact { sources with
      code := List.forall_mem_singleton.2 (sources.code only List.mem_cons_self).retyped }
  · exact sequence

/-- A node without parts, made by a step that touches no methods. -/
theorem leaf (grows : s.Grows s') (methods : s'.methods = s.methods)
    (instances : s'.instances = s.instances) (own : Sourced cx s'.instances n)
    (parts : n.parts = []) : Sources cx s [⟨ty, n⟩] s' :=
  (of_step grows methods instances).node own (by simp [parts])

end Sources

/-- Elaborations with the fuel make sourced code in passes without errors. -/
def Sourcing (cx : Setting) (fuel : Nat) : Prop :=
  ∀ here e s l s', here.Known cx .all → s.Known cx .all →
    elaborateExpr cx fuel here e s = some (l, s') → s'.errors = [] → Sources cx s [l.code] s'

section Constructs

variable {cx : Setting} {fuel : Nat} {here : Place} {s s' : PassState} {l : Elaborated}
  (consistent : cx.definitions.Consistent) (sourcing : Sourcing cx fuel)
  (place : here.Known cx .all) (known : s.Known cx .all) (sound : s'.errors = [])

include consistent in
theorem elaborateExpr_known_all (fuel : Nat) : Elaborate.Knowing cx .all (elaborateExpr cx fuel) :=
  elaborateExpr_knowing (Vocabulary.all_covers cx) consistent fuel

include consistent sourcing place known sound

section Sequences

theorem elaborateParts_sources {before ends : Completions} {es : List Expr}
    {codes : List Typed.Expr}
    (h : elaborateParts (elaborateExpr cx fuel) here before es s = some ((codes, ends), s')) :
    Sources cx s codes s' := by
  induction es generalizing before codes s with
  | nil =>
    obtain ⟨rfl, -, rfl⟩ := elaborateParts_nil_steps h
    exact .refl s'
  | cons e es ih =>
    obtain ⟨first, s₁, run, ⟨-, rest, runRest, rfl⟩ | ⟨-, rfl, -, rfl⟩⟩ := elaborateParts_cons_steps h
    · have sound₁ := (elaborateParts_grows (elaborateExpr_grows cx fuel) runRest).no_errors sound
      have known₁ := (elaborateExpr_known_all consistent fuel _ _ _ _ _ trivial place known run).1
      exact (sourcing _ _ _ _ _ place known run sound₁).append (ih known₁ runRest)
    · exact sourcing _ _ _ _ _ place known run sound

theorem elaborateBody_sources {body : List Expr}
    (h : elaborateBody (elaborateExpr cx fuel) here body s = some (l, s')) :
    Sources cx s [l.code] s' := by
  rcases elaborateBody_steps h with ⟨-, rfl, rfl⟩ | ⟨-, parts, ends, run, rfl⟩
  · exact .leaf (.refl _) rfl rfl trivial rfl
  · exact (elaborateParts_sources consistent sourcing place known sound run).ofParts

end Sequences

section Leaves

omit consistent sourcing place known

theorem elaborateRead_sources {span : Span} {v : Variable}
    (h : elaborateRead cx here span v s = some (l, s')) : Sources cx s [l.code] s' := by
  rcases elaborateRead_steps h with ⟨-, rfl, rfl⟩ | ⟨e, -, -, failed⟩ | ⟨-, c, -, rfl, rfl⟩ |
    ⟨-, rfl, rfl⟩ | ⟨-, -, rfl, rfl⟩ | ⟨-, rfl, rfl⟩
  · exact .leaf (readLocal_grows _ _) rfl rfl trivial rfl
  · exact (no_failure sound failed).elim
  all_goals exact .leaf (.refl _) rfl rfl trivial rfl

end Leaves

section Control

section Operands

omit consistent

theorem elaborateAssignment_sources {span : Span} {v : Variable} {value : Expr}
    (h : elaborateAssignment cx (elaborateExpr cx fuel) here span v value s = some (l, s')) :
    Sources cx s [l.code] s' := by
  obtain ⟨first, s₁, run, ⟨-, rfl, rfl⟩ | ⟨t, -, rest⟩⟩ := elaborateAssignment_steps h
  · exact sourcing _ _ _ _ _ place known run sound
  · -- The value is all there is to the code, whatever the assignment enters.
    have assigns {n : Typed.Node} {ty : Option Ty} (grows : s₁.Grows s')
        (methods : s'.methods = s₁.methods) (instances : s'.instances = s₁.instances)
        (own : Sourced cx s'.instances n) (parts : n.parts = [first.code]) :
        Sources cx s [⟨ty, n⟩] s' :=
      ((sourcing _ _ _ _ _ place known run (grows.no_errors sound)).after
        (.of_step grows methods instances)).node own fun d part => parts ▸ part
    rcases rest with ⟨-, rfl, rfl⟩ | ⟨-, -, -, failed⟩ | ⟨-, c, -, rfl, rfl⟩ | ⟨-, rfl, rfl⟩ |
      ⟨-, rfl, rfl⟩
    · exact assigns (assignLocal_grows _ _ _) rfl rfl trivial rfl
    · exact (no_failure sound failed).elim
    · exact assigns (grows_tables _ (.extendLayout _ _ _ _)) rfl rfl trivial rfl
    · exact assigns (grows_tables _ (.extendGlobal _ _ _)) rfl rfl trivial rfl
    · exact assigns (grows_tables _ (.extendConstant _ _ _)) rfl rfl trivial rfl

theorem elaborateExit_sources {number : NodeId} {span : Span} {keyword : String} {value : Option Expr}
    (h : elaborateExit cx (elaborateExpr cx fuel) here number span keyword value s = some (l, s')) :
    Sources cx s [l.code] s' := by
  obtain ⟨first, s₁, run, rest⟩ := elaborateExit_steps h
  have sources (sound : s₁.errors = []) : Sources cx s [first.code] s₁ := by
    cases value with
    | none =>
      obtain ⟨rfl, rfl⟩ := pure_eq_some.1 run
      exact .leaf (.refl _) rfl rfl trivial rfl
    | some e => exact sourcing _ _ _ _ _ place known run sound
  rcases rest with ⟨-, rfl, rfl⟩ | ⟨t, -, ⟨f, -, rfl, rfl⟩ | ⟨b, -, rfl, rfl⟩ | ⟨-, -, failed⟩⟩
  · exact sources sound
  · exact (sources sound).node trivial fun d => id
  · exact (sources sound).node trivial fun d => id
  · exact (no_failure sound failed).elim

theorem elaborateNot_sources {operand : Expr}
    (h : elaborateNot (elaborateExpr cx fuel) here operand s = some (l, s')) :
    Sources cx s [l.code] s' := by
  obtain ⟨first, run, ⟨-, rfl⟩ | ⟨-, rfl⟩⟩ := elaborateNot_steps h
  · exact sourcing _ _ _ _ _ place known run sound
  · exact (sourcing _ _ _ _ _ place known run sound).node trivial fun d => id

end Operands

theorem elaborateConditional_sources {kind : ConditionKind} {condition : Expr}
    {consequent : List Expr} {alternative : Option (List Expr)}
    (h : elaborateConditional (elaborateExpr cx fuel) here kind condition consequent alternative s =
      some (l, s')) : Sources cx s [l.code] s' := by
  have knowing := elaborateExpr_known_all consistent fuel
  have growing := elaborateExpr_grows cx fuel
  obtain ⟨c, s₁, run, ⟨-, rfl, rfl⟩ | ⟨-, first, s₂, second, s₃, runFirst, runSecond, rfl,
    rfl⟩⟩ := elaborateConditional_steps h
  · exact sourcing _ _ _ _ _ place known run sound
  · have sound₃ : s₃.errors = [] := sound
    have sound₂ : s₂.errors = [] := (elaborateBody_grows growing runSecond).no_errors sound₃
    have sound₁ := (elaborateBody_grows growing runFirst).no_errors sound₂
    have known₁ := (knowing _ _ _ _ _ trivial place known run).1
    have known₂ := (elaborateBody_known knowing place known₁ (fun _ _ => trivial) runFirst).1
    have again := known₂.withAssigned known₁.assigned
    have whole := (((sourcing _ _ _ _ _ place known run sound₁).append
      (elaborateBody_sources consistent sourcing place known₁ sound₂ runFirst)).assigned
        s₁.assigned).append (elaborateBody_sources consistent sourcing place again sound₃ runSecond)
    refine (whole.assigned _).node trivial fun d part => ?_
    cases kind
    · simpa [Typed.Node.parts, Typed.Node.operands, Typed.Node.landing?, branches] using part
    · simpa [Typed.Node.parts, Typed.Node.operands, Typed.Node.landing?, branches,
        or_comm (a := d = second.code)] using part

theorem elaborateWhile_sources {id : NodeId} {condition : Expr} {body : List Expr}
    (h : elaborateWhile (elaborateExpr cx fuel) here id condition body s = some (l, s')) :
    Sources cx s [l.code] s' := by
  obtain ⟨c, s₁, run, ⟨-, rfl, rfl⟩ | ⟨-, b, s₂, runBody, rfl, rfl⟩⟩ := elaborateWhile_steps h
  · exact sourcing _ _ _ _ _ place known run sound
  · have sound₂ : s₂.errors = [] := sound
    have sound₁ : s₁.errors = [] :=
      (elaborateBody_grows (elaborateExpr_grows cx fuel) runBody).no_errors sound₂
    have known₁ := (elaborateExpr_known_all consistent fuel _ _ _ _ _ trivial place known run).1
    have counted : PassState.Known cx .all { s₁ with nextLoop := s₁.nextLoop + 1 } := { known₁ with }
    have inner := elaborateBody_sources consistent sourcing (place.inLoop id ⟨s₁.nextLoop⟩) counted sound₂
      runBody
    have whole := ((sourcing _ _ _ _ _ place known run sound₁).after
      (.of_step (grows_loop s₁) rfl rfl)).append inner
    refine (whole.assigned s₁.assigned).node trivial fun d part => ?_
    simpa [Typed.Node.parts, Typed.Node.operands, Typed.Node.landing?] using part

theorem elaborateLogical_sources {connective : Connective} {left right : Expr}
    (h : elaborateLogical (elaborateExpr cx fuel) here connective left right s = some (l, s')) :
    Sources cx s [l.code] s' := by
  obtain ⟨first, s₁, run, ⟨-, rfl, rfl⟩ | ⟨t, second, s₂, -, runRight, rfl, rfl⟩⟩ :=
    elaborateLogical_steps h
  · exact sourcing _ _ _ _ _ place known run sound
  · have sound₁ := (elaborateExpr_grows cx fuel _ _ _ _ _ runRight).no_errors sound
    have known₁ := (elaborateExpr_known_all consistent fuel _ _ _ _ _ trivial place known run).1
    have whole := ((sourcing _ _ _ _ _ place known run sound₁).append
      (sourcing _ _ _ _ _ place known₁ runRight sound)).assigned s₁.assigned
    cases connective <;> exact whole.node trivial fun d part => part

end Control

section Calls

omit consistent sourcing place known sound in
/-- Operands that have types are sent with all of them. -/
theorem sentOperands_ty {receiver : Option Expr} {parts : List Typed.Expr}
    (typed : ∀ c ∈ parts, c.ty.isSome = true) :
    (sentOperands here receiver parts).map (·.ty) =
      ((sentOperands here receiver parts).filterMap (·.ty)).map some := by
  have each : ∀ c ∈ sentOperands here receiver parts, c.ty.isSome = true := by
    rw [sentOperands]
    split
    · exact List.forall_mem_cons.2 ⟨rfl, typed⟩
    · exact typed
  generalize sentOperands here receiver parts = operands at each
  induction operands with
  | nil => rfl
  | cons c cs ih =>
    rw [List.forall_mem_cons] at each
    obtain ⟨t, type⟩ := Option.isSome_iff_exists.1 each.1
    rw [List.map_cons, List.filterMap_cons_some type, List.map_cons, ih each.2, type]

variable {call : CallSyntax} {arguments operands : List Typed.Expr} {types : List Ty}

omit place in
/-- A method that a call makes present implements its definition. -/
theorem elaborateMethod_sources {depth : Nat} (shallow : depth ≤ cx.limits.maxInlineDepth)
    {key : Instantiation} (callee : key.Known cx .all) {id : InstanceId}
    (h : elaborateMethod cx (elaborateExpr cx fuel) depth key s = some (id, s')) :
    Sources cx s [] s' := by
  have grows := elaborateMethod_grows (elaborateExpr_grows cx fuel) h
  rcases elaborateMethod_steps h with ⟨-, rfl⟩ | ⟨absent, -, ⟨missing, -⟩ | ⟨m, parameters, s₁,
    body, s₂, found, bound, run, rfl⟩⟩
  · exact .refl _
  · obtain ⟨m, found, -⟩ := callee.arity
    rw [missing] at found
    cases found
  · have place := methodPlace_known callee m shallow s
    have scope := place.activation.path.mono shallow
    have entered := (enteredMethod_known known callee absent scope).bindVars scope
      (fun _ _ => trivial) callee.arguments bound
    have sound : s₂.errors = [] := sound
    have inner := elaborateBody_sources consistent sourcing place entered sound run
    obtain ⟨methods, instances⟩ := bindVars_keeps bound
    have begun : Sources cx (enteredMethod key s) [] s₁ :=
      .of_step (bindVars_grows bound) methods instances
    have whole := begun.append inner
    have arity : parameters.length = m.parameters.length := by
      obtain ⟨m', found', arity⟩ := callee.arity
      cases found.symm.trans found'
      rw [bindVars_length bound arity, arity]
    refine ⟨grows, .leftMethod whole.grows whole.finishes (whole.code _ List.mem_cons_self)
      ⟨m, found, rfl, rfl, rfl, arity, ?_⟩, nofun⟩
    exact ⟨fuel, _, s₁, body, s₂, rfl, rfl, run, rfl⟩

theorem expandCall_sources {m : MethodEntry} {key : Instantiation} {block : Block}
    {receiver : Typed.Expr} (callee : key.Known cx .all)
    (found : cx.definitions.method? key.method = some m) (receiverTyped : receiver.ty = some key.selfType)
    (typed : arguments.map (·.ty) = key.arguments.map some)
    (given : Sources cx s (receiver :: arguments) s)
    (h : expandCall cx (elaborateExpr cx fuel) here call m key block receiver arguments s =
      some (l, s')) : Sources cx s [l.code] s' := by
  have whole := h
  rcases expandCall_steps h with ⟨-, -, failed⟩ | ⟨shallow, parameters, s₁, body, s₂, bound, run,
    rfl, rfl⟩
  · exact (no_failure sound failed).elim
  · have inside : (expansionPlace here call m key block s).Known cx .all :=
      expansionPlace_known place trivial callee
        ⟨trivial, fun _ _ => trivial, fun _ _ => trivial⟩ shallow m s
    have scope := inside.activation.path.mono inside.depth
    have entered := (enteredExpansion_known known scope).bindVars scope (fun _ _ => trivial)
      callee.arguments bound
    have sound₂ : s₂.errors = [] := sound
    have inner := elaborateBody_sources consistent sourcing inside entered sound₂ run
    obtain ⟨methods, instances⟩ := bindVars_keeps bound
    have begun : Sources cx s [] s₁ :=
      .of_step ((enteredExpansion_grows here call key s).trans (bindVars_grows bound)) methods instances
    refine (((given.after begun).append inner).assigned _).node ?_ fun d part => ?_
    · exact ⟨fuel, here, call, m, key, block, s, _, _, ⟨place, known, whole, rfl, sound, List.prefix_refl _⟩,
        found, callee, receiverTyped, typed⟩
    · simpa [Typed.Node.parts, Typed.Node.operands, Typed.Node.landing?, madeExpansion, or_assoc]
        using part

theorem elaborateConstruct_sources {c : String} (types_known : ∀ t ∈ types, t.Known .all)
    (typed : arguments.map (·.ty) = types.map some) (given : Sources cx s arguments s)
    (h : elaborateConstruct cx (elaborateExpr cx fuel) here call c arguments types s =
      some (l, s')) : Sources cx s [l.code] s' := by
  have whole := h
  have parts (initializer : Option InstanceId) :
      ∀ d ∈ (Typed.Node.construct c initializer arguments).parts, d ∈ arguments := by
    simp [Typed.Node.parts, Typed.Node.operands, Typed.Node.landing?]
  rcases elaborateConstruct_steps h with ⟨id, instanceId, chosen, made, rfl⟩ |
    ⟨-, ⟨-, rfl, rfl⟩ | ⟨-, -, failed⟩⟩
  · have callee : Instantiation.Known cx .all ⟨id, s.tables.objectTy c, types⟩ :=
      ⟨known.tables.objectTy trivial, types_known, initializer?_callable consistent chosen⟩
    exact (given.after (elaborateMethod_sources consistent sourcing known sound place.depth callee made)).node
      ⟨fuel, here, call, types, s, _, s', ⟨place, known, whole, rfl, sound, List.prefix_refl _⟩, typed,
        types_known⟩ (parts _)
  · exact given.node
      ⟨fuel, here, call, types, s', _, s', ⟨place, known, whole, rfl, sound, List.prefix_refl _⟩, typed,
        types_known⟩ (parts _)
  · exact (no_failure sound failed).elim

theorem elaborateMethodCall_sources {m : MethodEntry} {receiver : Typed.Expr} {receiverType : Ty}
    (callee : (calledKey m receiverType types).Known cx .all)
    (found : cx.definitions.method? m.id = some m) (receiverTyped : receiver.ty = some receiverType)
    (typed : arguments.map (·.ty) = types.map some)
    (given : Sources cx s (receiver :: arguments) s)
    (h : elaborateMethodCall cx (elaborateExpr cx fuel) here call m receiver receiverType arguments
      types s = some (l, s')) : Sources cx s [l.code] s' := by
  have sent : Sources cx s (calledReceiver m receiver :: arguments) s := by
    rw [calledReceiver]
    split
    · exact given
    · have main : Sources cx s [⟨some Ty.main, .mainObject⟩] s := .leaf (.refl s) rfl rfl trivial rfl
      exact main.append (given.subset fun c member => List.mem_cons_of_mem _ member)
  rcases elaborateMethodCall_steps h with ⟨-, block, -, expanded⟩ | ⟨-, -, -, failed⟩ |
    ⟨-, id, made, rfl⟩
  · refine expandCall_sources consistent sourcing place known sound callee found ?_ typed sent expanded
    rw [calledReceiver, calledKey]
    split
    · exact receiverTyped
    · rfl
  · exact (no_failure sound failed).elim
  · have made := elaborateMethod_sources consistent sourcing known sound place.depth callee made
    refine (sent.after made).node trivial fun d part => ?_
    simpa [Typed.Node.parts, Typed.Node.operands, Typed.Node.landing?] using part

theorem elaborateArm_sources (types_known : ∀ t ∈ types, t.Known .all)
    (typed : operands.map (·.ty) = types.map some) (given : Sources cx s operands s)
    (h : elaborateArm cx (elaborateExpr cx fuel) here call operands types s = some (l, s')) :
    Sources cx s [l.code] s' := by
  rcases elaborateArm_steps h with ⟨e, -, -, failed⟩ | ⟨receiverType, argumentTypes, rfl, rest⟩
  · exact (no_failure sound failed).elim
  · cases operands with
    | nil => cases typed
    | cons receiver arguments =>
      rw [List.map_cons, List.map_cons, List.cons.injEq] at typed
      have behind := given.subset fun c member => List.mem_cons_of_mem receiver member
      simp only [List.headD_cons, List.drop_one, List.tail_cons] at rest
      rcases rest with ⟨p, -, rfl, rfl⟩ | ⟨c, -, made⟩ | ⟨lib, name, -, rfl, rfl⟩ |
        ⟨id, m, callee, found, called⟩
      · exact given.node trivial fun d part => by
          simpa [Typed.Node.parts, Typed.Node.operands, Typed.Node.landing?] using part
      · exact elaborateConstruct_sources consistent sourcing place known sound
          (fun t member => types_known t (List.mem_cons_of_mem _ member)) typed.2 behind made
      · exact behind.node trivial fun d part => by
          simpa [Typed.Node.parts, Typed.Node.operands, Typed.Node.landing?] using part
      · obtain ⟨itself, key⟩ := calledKey_known consistent types_known callee found
        exact elaborateMethodCall_sources consistent sourcing place known sound key itself typed.1 typed.2
          given called

theorem elaborateArms_sources {temps : List SlotId} {before : List ScopeVar} {chosen : List (List Ty)}
    {arms : List (Typed.Arm × Completions × List ScopeVar)}
    (start : ∀ k ∈ before, k.Known cx .all) (chosen_known : ∀ ts ∈ chosen, ∀ t ∈ ts, t.Known .all)
    (lengths : ∀ ts ∈ chosen, ts.length = temps.length)
    (h : elaborateArms cx (elaborateExpr cx fuel) here call temps before chosen s = some (arms, s')) :
    Sources cx s (arms.map (·.1.body)) s' := by
  induction chosen generalizing s arms with
  | nil =>
    obtain ⟨rfl, rfl⟩ := elaborateArms_nil_steps h
    exact .refl s'
  | cons types rest ih =>
    obtain ⟨arm, s₁, others, run, runRest, rfl⟩ := elaborateArms_cons_steps h
    rw [List.forall_mem_cons] at chosen_known lengths
    have sound₁ := (elaborateArms_grows (elaborateExpr_grows cx fuel) runRest).no_errors sound
    have begun := known.withAssigned start
    have operands : Sources cx { s with assigned := before } (armOperands temps types)
        { s with assigned := before } := by
      refine { Sources.refl _ with code := List.forall_mem_map.2 fun b member => ?_ }
      exact .of_parts trivial nofun
    have typed := armOperands_ty lengths.1
    have sources := elaborateArm_sources consistent sourcing place begun sound₁ chosen_known.1 typed
      operands run
    have known₁ := (elaborateArm_known (Vocabulary.all_covers cx)
      (elaborateExpr_known_all consistent fuel) place begun consistent trivial
      (fun b _ => ⟨trivial, fun _ _ => trivial, fun _ _ => trivial⟩) chosen_known.1
      (armOperands_known chosen_known.1) run).1
    have entered : Sources cx s [] { s with assigned := before } :=
      .of_step (grows_assigned s before) rfl rfl
    exact (entered.append sources).append (ih known₁ chosen_known.2 lengths.2 runRest)

theorem elaborateDispatch_sources (types_known : ∀ t ∈ types, t.Known .all)
    (typed : operands.map (·.ty) = types.map some) (given : Sources cx s operands s)
    (h : elaborateDispatch cx (elaborateExpr cx fuel) here call operands types s = some (l, s')) :
    Sources cx s [l.code] s' := by
  rcases elaborateDispatch_steps h with ⟨-, single⟩ | ⟨-, ⟨n, -, -, failed⟩ | ⟨chosen, temps, s₁,
    arms, s₂, expanded, made, run, rfl, rfl⟩⟩
  · exact elaborateArm_sources consistent sourcing place known sound types_known typed given single
  · exact (no_failure sound failed).elim
  · obtain ⟨methods, instances⟩ := tempSlots_keeps made
    have begun : Sources cx s [] s₁ := .of_step (tempSlots_grows made) methods instances
    have known₁ := known.tempSlots made
    have sound : s₂.errors = [] := sound
    have lengths : ∀ ts ∈ chosen, ts.length = temps.length := fun ts member => by
      rw [armsWithin_length expanded ts member, tempSlots_length made]
    have sources := elaborateArms_sources consistent sourcing place known₁ sound known₁.assigned
      (armsWithin_known types_known expanded) lengths run
    refine (((given.after begun).append sources).assigned _).node trivial fun d part => ?_
    simpa [Typed.Node.parts, Typed.Node.operands, Typed.Node.landing?] using part

theorem elaborateCall_sources {id : NodeId} {receiver : Option Expr} {name : String}
    {nameSpan : Span} {written : List Expr} {block : Option Block}
    (h : elaborateCall cx (elaborateExpr cx fuel) here id receiver name nameSpan written block s =
      some (l, s')) : Sources cx s [l.code] s' := by
  obtain ⟨parts, ends, s₁, run, ⟨-, rfl, rfl⟩ | ⟨falls, sent, runSent, rfl⟩⟩ := elaborateCall_steps h
  · exact (elaborateParts_sources consistent sourcing place known sound run).ofParts
  · have sound₁ := (elaborateDispatch_grows (elaborateExpr_grows cx fuel) runSent).no_errors sound
    have sources := elaborateParts_sources consistent sourcing place known sound₁ run
    obtain ⟨known₁, -, types⟩ := elaborateParts_known (elaborateExpr_known_all consistent fuel) place
      known (Completions.ofNormal_all .nil) (fun _ _ => trivial) run
    have operands : Sources cx s₁ (sentOperands here receiver parts) s₁ := by
      refine { Sources.refl _ with code := ?_ }
      rw [sentOperands]
      split
      · exact List.forall_mem_cons.2
          ⟨.of_parts trivial fun d there => absurd there List.not_mem_nil, sources.code⟩
      · exact sources.code
    have sentKnown : ∀ c ∈ sentOperands here receiver parts, c.AllTypes (Ty.Known .all) :=
      sentOperands_known place types
    have typed := (elaborateParts_typed (fun e _ => elaborateExpr_typed cx fuel here e) rfl run falls).2
    have sent := elaborateDispatch_sources consistent sourcing place known₁ sound
      (fun t member => by
        obtain ⟨c, there, type⟩ := List.mem_filterMap.1 member
        exact (sentKnown c there).own t type)
      (sentOperands_ty typed) operands runSent
    have start : Sources cx s [] s₁ := sources.subset fun d there => absurd there List.not_mem_nil
    have whole := start.append sent
    exact { whole with code := whole.code }

theorem elaborateYield_sources {span : Span} {written : List Expr}
    (h : elaborateYield (elaborateExpr cx fuel) here span written s = some (l, s')) :
    Sources cx s [l.code] s' := by
  have growing := elaborateExpr_grows cx fuel
  obtain ⟨parts, ends, s₁, run, ⟨-, rfl, rfl⟩ | ⟨-, ⟨block, site, definer, parameters, s₂, body,
    origin, bound, runBody, rfl⟩ | ⟨e, -, -, failed⟩⟩⟩ := elaborateYield_steps h
  · exact (elaborateParts_sources consistent sourcing place known sound run).ofParts
  · have sound₂ := (elaborateBody_grows growing runBody).no_errors sound
    have sound₁ : s₁.errors = [] := (bindYielded_grows bound).no_errors sound₂
    have given := elaborateParts_sources consistent sourcing place known sound₁ run
    obtain ⟨known₁, -, types⟩ := elaborateParts_known (elaborateExpr_known_all consistent fuel) place
      known (Completions.ofNormal_all .nil) (fun _ _ => trivial) run
    obtain ⟨-, standing⟩ := place.activation.yielded origin
    have inside : Place.Known cx .all ⟨blockContext block site definer, here.depth⟩ :=
      ⟨standing, place.depth⟩
    have known₂ := (known₁.withoutAssigned _).bindYielded (standing.path.mono place.depth)
      (fun _ _ => trivial) (fun c member => (types c member).own) bound
    have inner := elaborateBody_sources consistent sourcing inside known₂ sound runBody
    obtain ⟨methods, instances⟩ := bindYielded_keeps bound
    have begun : Sources cx s₁ [] s₂ :=
      .of_step ((grows_assigned s₁ _).trans (bindYielded_grows bound)) methods instances
    refine ((given.after begun).append inner).node trivial fun d part => ?_
    simpa [Typed.Node.parts, Typed.Node.operands, Typed.Node.landing?] using part
  · exact (no_failure sound failed).elim

end Calls

omit sourcing place known sound in
/-- Each construct makes sourced code, given that its parts do. -/
theorem elaborateForm_sources (sourcing : Sourcing cx fuel) : Sourcing cx (fuel + 1) := by
  intro here e s l s' place known h sound
  rw [elaborateExpr] at h
  cases form : e.form with
  | literal _ | self | defMethod _ | defClass _ | defLib _ =>
    simp only [elaborateForm, form] at h
    obtain ⟨rfl, rfl⟩ := pure_eq_some.1 h
    exact .leaf (.refl _) rfl rfl trivial rfl
  | read v =>
    simp only [elaborateForm, form] at h
    exact elaborateRead_sources sound h
  | assign v _ value =>
    simp only [elaborateForm, form] at h
    exact elaborateAssignment_sources sourcing place known sound h
  | call receiver name nameSpan arguments block =>
    simp only [elaborateForm, form] at h
    exact elaborateCall_sources consistent sourcing place known sound h
  | yield arguments =>
    simp only [elaborateForm, form] at h
    exact elaborateYield_sources consistent sourcing place known sound h
  | «return» value | «break» value =>
    simp only [elaborateForm, form] at h
    exact elaborateExit_sources sourcing place known sound h
  | conditional kind condition consequent alternative =>
    simp only [elaborateForm, form] at h
    exact elaborateConditional_sources consistent sourcing place known sound h
  | «while» condition body =>
    simp only [elaborateForm, form] at h
    exact elaborateWhile_sources consistent sourcing place known sound h
  | logical connective left right =>
    simp only [elaborateForm, form] at h
    exact elaborateLogical_sources consistent sourcing place known sound h
  | not operand =>
    simp only [elaborateForm, form] at h
    exact elaborateNot_sources sourcing place known sound h

omit sourcing place known sound in
theorem elaborateExpr_sources (fuel : Nat) : Sourcing cx fuel := by
  induction fuel with
  | zero => exact fun _ _ _ _ _ _ _ => nofun
  | succ fuel ih => exact elaborateForm_sources consistent ih

end Constructs

/-- All nodes of a program that a pass without errors has made are sourced, and all methods that it lists
are there and implement their definitions. -/
theorem madeProgram_sources {cx : Setting} {fuel : Nat} {statements : List Expr} {ts : Tables}
    {body : Elaborated} {s : PassState} (consistent : cx.definitions.Consistent)
    (known : ts.Known cx .all) (sound : s.errors = [])
    (run : elaborateBody (elaborateExpr cx fuel) mainPlace statements (enteredMain ts) =
      some (body, s)) :
    (∀ e, (madeProgram cx body s).Within e → Sourced cx s.instances e.node) ∧
      ∀ key id, (key, id) ∈ s.instances →
        ∃ m, (madeProgram cx body s).method? id = some m ∧ Implemented cx key m := by
  have sources := elaborateBody_sources consistent (elaborateExpr_sources consistent fuel)
    mainPlace_known (enteredMain_known known) sound run
  constructor
  · rintro e ⟨m, member, inside⟩
    rcases List.mem_cons.1 member with rfl | listed
    · exact sources.code body.code List.mem_cons_self e inside
    · obtain ⟨i, code⟩ := madeProgram_methods sources.finishes m (Array.mem_toList_iff.1 listed)
      exact code e inside
  · intro key id member
    have numbered : (enteredMain ts).frame.Numbered := FrameSlots.Numbered.empty.selfBound _ _
    obtain ⟨placed, -⟩ := elaborateBody_placed (elaborateExpr_placing consistent fuel) numbered run
    rcases sources.finishes.present key id member with earlier | ⟨m, found, implemented⟩
    · simp [enteredMain, PassState.start] at earlier
    · exact ⟨m, madeProgram_method? placed.completes found, implemented⟩

end TypedBlocks.Inference

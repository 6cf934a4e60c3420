import TypedBlocks.Evaluation.Basic
import TypedBlocks.Proofs.Completions
import TypedBlocks.Proofs.DefinitionTables
import TypedBlocks.Proofs.FrameSlots

/-!
# Operands of calls

A node of the typed program that stands for a call is a list of operands and an action that holds
none of them. Evaluation runs the operands, each once and from left to right, and only then the
action. An elaborated call keeps every operand that was written, with one exception: making an
object and calling a library function drop the receiver.
-/
namespace TypedBlocks.Typed

/-- What a call does once its operands are values. -/
inductive Action where
  | invoke (method : InstanceId)
  | operate (operation : Primitive)
  | construct (className : String) (initializer : Option InstanceId)
  | foreign (lib name : String)
  | expand (site : SiteId) (frame : FrameId) (selfSlot : SlotId) (parameters locals : List SlotId)
      (body : Expr)
  | runBlock (parameters locals : List SlotId) (body : Expr)
  | choose (temps : List SlotId) (arms : List Arm)

/-- The operands of a call and the action on their values; none for any other node. -/
def Node.sent? : Node → Option (List Expr × Action)
  | .call method receiver arguments => some (receiver :: arguments, .invoke method)
  | .primitive operation receiver arguments => some (receiver :: arguments, .operate operation)
  | .construct c initializer arguments => some (arguments, .construct c initializer)
  | .foreign lib name arguments => some (arguments, .foreign lib name)
  | .inline c => some (c.receiver :: c.arguments,
      .expand c.site c.frame c.selfSlot c.parameters c.locals c.body)
  | .yield parameters locals arguments body => some (arguments, .runBlock parameters locals body)
  | .dispatch scrutinees temps arms => some (scrutinees, .choose temps arms)
  | _ => none

/-- Perform an action on the values of the operands. A receiver is the first of them. -/
def Program.perform (p : Program) (run : Expr → Eval Value) : Action → List Value → Eval Value
  | .invoke method, vs => do
    let m ← p.methodOrFault method
    m.invoke run (vs.headD .nil) (vs.drop 1)
  | .operate operation, vs => Eval.ofExcept (operation.apply (vs.headD .nil) (vs.drop 1))
  | .construct className initializer, vs => do
    let object ← modifyGet (·.allocate className)
    match initializer with
    | some id =>
      let m ← p.methodOrFault id
      let _ ← m.invoke run object vs
      return object
    | none => return object
  | .foreign lib name, _ => Eval.fault (.foreignCall lib name)
  | .expand site frame selfSlot parameters locals body, vs => do
    modify fun m =>
      ((m.clearSlots locals).setSlot selfSlot (vs.headD .nil)).bindSlots parameters (vs.drop 1)
    Eval.landing (Exit.landAtCall frame site) (run body)
  | .runBlock parameters locals body, vs => do
    modify fun m => (m.clearSlots locals).bindOrClear parameters vs
    run body
  | .choose temps arms, vs => do
    modify (·.bindSlots temps vs)
    match arms.find? (Arm.fits vs) with
    | some arm => run arm.body
    | none => Eval.fault (.noMatchingArm (vs.map Value.className))

/-- A call evaluates its operands in order, each once, and then performs its action. -/
theorem Program.evalNode_sent (p : Program) (run : Expr → Eval Value) (e : Expr)
    {operands : List Expr} {action : Action} (sent : e.node.sent? = some (operands, action)) :
    p.evalNode run e = (do
      let vs ← operands.mapM run
      p.perform run action vs) := by
  rcases e with ⟨ty, node⟩
  cases node with
  | construct _ _ _ | foreign _ _ _ | yield _ _ _ _ | dispatch _ _ _ =>
    simp only [Node.sent?, Option.some.injEq, Prod.mk.injEq] at sent
    obtain ⟨rfl, rfl⟩ := sent
    rfl
  | call _ _ _ | primitive _ _ _ | inline _ =>
    -- The receiver is an operand like the arguments, so the two evaluations become one list.
    simp only [Node.sent?, Option.some.injEq, Prod.mk.injEq] at sent
    obtain ⟨rfl, rfl⟩ := sent
    simp only [Program.evalNode, Program.perform, List.mapM_cons, bind_assoc, pure_bind,
      List.headD_cons, List.drop_one, List.tail_cons]
  | _ => cases sent

end TypedBlocks.Typed

namespace TypedBlocks.Inference

open Typed (Action SlotId)
open Pass

/-- Expressions elaborated one after another, each once and to a normal end. -/
inductive PartsRun (elaborate : Elaborate) (here : Place) :
    List Expr → PassState → List Typed.Expr → PassState → Prop where
  | nil (s : PassState) : PartsRun elaborate here [] s [] s
  | cons {e : Expr} {es : List Expr} {s s₁ s' : PassState} {first : Elaborated}
      {codes : List Typed.Expr} (run : elaborate here e s = some (first, s₁))
      (falls : first.ends.fallsThrough = true) (rest : PartsRun elaborate here es s₁ codes s') :
      PartsRun elaborate here (e :: es) s (first.code :: codes) s'

/-- Operands that all end normally are all kept. -/
theorem elaborateParts_of_run {elaborate : Elaborate} {here : Place} {es : List Expr}
    {s s' : PassState} {codes : List Typed.Expr} (run : PartsRun elaborate here es s codes s')
    {ends : Completions} (falls : ends.fallsThrough = true) :
    ∃ ends', elaborateParts elaborate here ends es s = some ((codes, ends'), s') ∧
      ends'.fallsThrough = true := by
  induction run generalizing ends with
  | nil s => exact ⟨ends, rfl, falls⟩
  | @cons e es s s₁ s' first codes run fallsFirst rest ih =>
    have fallsOn : (ends.andThen first.ends).fallsThrough = true := by
      rw [Completions.fallsThrough, Completions.andThen_normal _ falls]
      exact fallsFirst
    obtain ⟨ends', runRest, fallsRest⟩ := ih fallsOn
    refine ⟨ends', ?_, fallsRest⟩
    rw [elaborateParts, bind_run run]
    dsimp only
    rw [if_pos fallsOn, bind_run runRest]
    rfl

/-- Making an object and calling a library function drop the receiver. -/
def dropsReceiver : Action → Bool
  | .construct _ _ | .foreign _ _ => true
  | _ => false

/-- The code of a call for which one callee is known. It keeps the operands, but for a receiver that
is dropped; a function of the top level gets the main object in the place of `self`. -/
inductive Sends (toSelf : Bool) (operands : List Typed.Expr) (code : Typed.Expr) : Prop where
  | all {action : Action} (sent : code.node.sent? = some (operands, action))
      (keeps : dropsReceiver action = false) (single : ∀ temps arms, action ≠ .choose temps arms)
  | toMain {action : Action} (sent : code.node.sent? =
      some (⟨some Ty.main, .mainObject⟩ :: operands.drop 1, action))
      (keeps : dropsReceiver action = false) (single : ∀ temps arms, action ≠ .choose temps arms)
      (implicit : toSelf = true)
  | dropped {action : Action} (sent : code.node.sent? = some (operands.drop 1, action))
      (drops : dropsReceiver action = true)

section Calls

variable {cx : Setting} {elaborate : Elaborate} {here : Place} {s s' : PassState} {l : Elaborated}
  {call : CallSyntax} {types : List Ty} {operands : List Typed.Expr}

/-- The receiver that a method is called with is the one at hand, or the main object. -/
theorem calledReceiver_sends {m : MethodEntry} {receiver : Typed.Expr}
    {arguments : List Typed.Expr} {code : Typed.Expr} {action : Action} {toSelf : Bool}
    (owned : m.owner = none → toSelf = true)
    (sent : code.node.sent? = some (calledReceiver m receiver :: arguments, action))
    (keeps : dropsReceiver action = false) (single : ∀ temps arms, action ≠ .choose temps arms) :
    Sends toSelf (receiver :: arguments) code := by
  cases owner : m.owner with
  | some c =>
    rw [calledReceiver, owner] at sent
    exact .all sent keeps single
  | none =>
    rw [calledReceiver, owner] at sent
    exact .toMain sent keeps single (owned owner)

theorem elaborateMethodCall_sends {m : MethodEntry} {receiver : Typed.Expr} {receiverType : Ty}
    {arguments : List Typed.Expr}
    (h : elaborateMethodCall cx elaborate here call m receiver receiverType arguments types s =
      some (l, s'))
    (owned : m.owner = none → call.toSelf = true) (sound : s'.errors = []) :
    Sends call.toSelf (receiver :: arguments) l.code := by
  rcases elaborateMethodCall_steps h with ⟨-, block, -, expanded⟩ | ⟨-, -, -, rfl⟩ |
    ⟨-, id, -, rfl⟩
  · rcases expandCall_steps expanded with ⟨-, -, rfl⟩ | ⟨-, parameters, s₁, body, s₂, -, -, -, rfl⟩
    · simp at sound
    · exact calledReceiver_sends owned rfl rfl (fun _ _ => nofun)
  · simp at sound
  · exact calledReceiver_sends owned rfl rfl (fun _ _ => nofun)

theorem elaborateArm_sends (consistent : cx.definitions.Consistent)
    (h : elaborateArm cx elaborate here call operands types s = some (l, s'))
    (given : operands ≠ []) (sound : s'.errors = []) : Sends call.toSelf operands l.code := by
  have whole : operands.headD Typed.Expr.nil :: operands.drop 1 = operands := by
    cases operands with
    | nil => exact absurd rfl given
    | cons o os => rfl
  rcases elaborateArm_steps h with ⟨e, -, -, rfl⟩ | ⟨receiverType, argumentTypes, -,
    ⟨p, -, rfl, rfl⟩ | ⟨c, -, made⟩ | ⟨lib, name, -, rfl, rfl⟩ | ⟨id, m, callee, found, called⟩⟩
  · simp at sound
  · have sent : (Typed.Node.primitive p (operands.headD Typed.Expr.nil) (operands.drop 1)).sent? =
        some (operands, .operate p) := by
      rw [Typed.Node.sent?, whole]
    exact .all sent rfl (fun _ _ => nofun)
  · rcases elaborateConstruct_steps made with ⟨id, instanceId, -, -, rfl⟩ |
      ⟨-, ⟨-, -, rfl⟩ | ⟨-, -, rfl⟩⟩
    · exact .dropped rfl rfl
    · exact .dropped rfl rfl
    · simp at sound
  · exact .dropped rfl rfl
  · obtain ⟨m', found', -, owned⟩ := Definitions.dispatch?_method consistent callee
    obtain rfl := Option.some.inj (found.symm.trans found')
    rw [← whole]
    exact elaborateMethodCall_sends called owned sound

/-- An arm reads temporary slots only, so it evaluates no operand again. -/
def ReadsTemps (temps : List SlotId) (arm : Typed.Arm) : Prop :=
  ∃ operands action, arm.body.node.sent? = some (operands, action) ∧
    ∀ o ∈ operands, o.node = .mainObject ∨ ∃ t ∈ temps, o.node = .slot t

theorem elaborateArm_readsTemps (consistent : cx.definitions.Consistent) {temps : List SlotId}
    (h : elaborateArm cx elaborate here call (armOperands temps types) types s = some (l, s'))
    (given : armOperands temps types ≠ []) (sound : s'.errors = []) :
    ReadsTemps temps ⟨types, l.code⟩ := by
  have reads : ∀ o ∈ armOperands temps types, ∃ t ∈ temps, o.node = .slot t := by
    intro o member
    obtain ⟨⟨t, u⟩, zipped, rfl⟩ := List.mem_map.1 member
    exact ⟨t, (List.of_mem_zip zipped).1, rfl⟩
  rcases elaborateArm_sends consistent h given sound with ⟨sent, -, -⟩ | ⟨sent, -, -, -⟩ |
    ⟨sent, -⟩
  · exact ⟨_, _, sent, fun o member => .inr (reads o member)⟩
  · refine ⟨_, _, sent, fun o member => ?_⟩
    rcases List.mem_cons.1 member with rfl | member
    · exact .inl rfl
    · exact .inr (reads o (List.mem_of_mem_drop member))
  · exact ⟨_, _, sent, fun o member => .inr (reads o (List.mem_of_mem_drop member))⟩

theorem elaborateArms_readTemps (growing : elaborate.Growing)
    (consistent : cx.definitions.Consistent) {temps : List SlotId} {before : List ScopeVar}
    {chosen : List (List Ty)} {arms : List (Typed.Arm × Completions × List ScopeVar)}
    (h : elaborateArms cx elaborate here call temps before chosen s = some (arms, s'))
    (given : ∀ ts ∈ chosen, armOperands temps ts ≠ []) (sound : s'.errors = []) :
    ∀ arm ∈ arms, ReadsTemps temps arm.1 := by
  induction chosen generalizing s arms with
  | nil =>
    obtain ⟨rfl, -⟩ := elaborateArms_nil_steps h
    simp
  | cons types rest ih =>
    obtain ⟨arm, s₁, others, run, runRest, rfl⟩ := elaborateArms_cons_steps h
    have soundFirst := (elaborateArms_grows growing runRest).no_errors sound
    intro a member
    rcases List.mem_cons.1 member with rfl | member
    · exact elaborateArm_readsTemps consistent run (given types List.mem_cons_self) soundFirst
    · exact ih runRest (fun ts later => given ts (List.mem_cons_of_mem types later)) a member

/-- A call with known operands keeps them all, or chooses among arms on their values. -/
theorem elaborateDispatch_sends (growing : elaborate.Growing)
    (consistent : cx.definitions.Consistent)
    (h : elaborateDispatch cx elaborate here call operands types s = some (l, s'))
    (given : operands ≠ []) (sound : s'.errors = []) :
    Sends call.toSelf operands l.code ∨
      ∃ temps arms, l.code.node.sent? = some (operands, .choose temps arms) ∧
        ∀ arm ∈ arms, ReadsTemps temps arm := by
  rcases elaborateDispatch_steps h with ⟨-, single⟩ | ⟨union, ⟨n, -, -, rfl⟩ | ⟨chosen, temps,
    s₁, arms, s₂, expanded, made, run, rfl, rfl⟩⟩
  · exact .inl (elaborateArm_sends consistent single given sound)
  · simp at sound
  · refine .inr ⟨temps, arms.map (·.1), rfl, ?_⟩
    have nonempty : ∀ ts ∈ chosen, armOperands temps ts ≠ [] := by
      intro ts member
      have lengths := armsWithin_length expanded ts member
      have temporaries := tempSlots_length made
      have positive : 0 < types.length := by
        obtain ⟨t, member, -⟩ := List.any_eq_true.1 union
        exact List.length_pos_of_mem member
      apply List.ne_nil_of_length_pos
      simp only [armOperands, List.length_map, List.length_zip]
      omega
    intro arm member
    obtain ⟨a, listed, rfl⟩ := List.mem_map.1 member
    exact elaborateArms_readTemps growing consistent run nonempty sound a listed

end Calls

/-- The receiver and the arguments that a call or yield is written with. -/
def writtenOperands? : Form → Option (Option Expr × List Expr)
  | .call receiver _ _ arguments _ => some (receiver, arguments)
  | .yield arguments => some (none, arguments)
  | _ => none

/-- The operand stands for a receiver that is not written: `self`, or the main object. -/
def IsImplicit (here : Place) (o : Typed.Expr) : Prop :=
  o.node = .mainObject ∨ o.node = .slot here.activation.selfSlot

/-- How the code of a call or yield treats its operands: evaluation runs them all before the action,
the written ones in order and each once, and no arm runs one again. Only a receiver that is written
for making an object or for a library function is missing. -/
structure RunsOperandsFirst (here : Place) (receiver : Option Expr) (parts : List Typed.Expr)
    (code : Typed.Expr) (operands : List Typed.Expr) (action : Action) : Prop where
  sent : code.node.sent? = some (operands, action)
  evaluates : ∀ (p : Typed.Program) (fuel : Nat),
    p.eval (fuel + 1) code = (do
      let vs ← operands.mapM (p.eval fuel)
      p.perform (p.eval fuel) action vs)
  written : ∃ implicit, (∀ o ∈ implicit, receiver = none ∧ IsImplicit here o) ∧
    operands = implicit ++
      (if receiver.isSome && dropsReceiver action then parts.drop 1 else parts)
  arms : ∀ temps arms, action = .choose temps arms → ∀ arm ∈ arms, ReadsTemps temps arm

/-- The code of a call sends the operands that dispatch has seen. -/
theorem Sends.runsOperandsFirst {here : Place} {receiver : Option Expr} {parts : List Typed.Expr}
    {code : Typed.Expr} (sends : Sends receiver.isNone (sentOperands here receiver parts) code) :
    ∃ operands action, RunsOperandsFirst here receiver parts code operands action := by
  rcases sends with ⟨sent, keeps, single⟩ | ⟨sent, keeps, single, implicit⟩ | ⟨sent, drops⟩
  · refine ⟨_, _, sent, fun p fuel => p.evalNode_sent _ code sent, ?_,
      fun temps arms same => absurd same (single temps arms)⟩
    cases receiver with
    | some r => exact ⟨[], by simp, by simp [sentOperands, keeps]⟩
    | none =>
      exact ⟨[Typed.Expr.ofSlot here.activation.selfSlot (some here.activation.selfType)],
        by simp [IsImplicit, Typed.Expr.ofSlot], by simp [sentOperands]⟩
  · refine ⟨_, _, sent, fun p fuel => p.evalNode_sent _ code sent, ?_,
      fun temps arms same => absurd same (single temps arms)⟩
    cases receiver with
    | some r => simp at implicit
    | none =>
      exact ⟨[⟨some Ty.main, .mainObject⟩], by simp [IsImplicit], by simp [sentOperands]⟩
  · refine ⟨_, _, sent, fun p fuel => p.evalNode_sent _ code sent, ⟨[], by simp, ?_⟩, ?_⟩
    · cases receiver with
      | some r => simp [sentOperands, drops]
      | none => simp [sentOperands]
    · rintro temps arms rfl
      cases drops

/-- The code of a call or yield whose operands all end normally evaluates the written receiver and
then every argument, each once and from left to right, before the callee starts, whatever dispatch
has chosen. The receiver of `new` and of a library function is lost, but within a choice of arms. -/
theorem elaborated_call_runs_operands_first {bodies : List (List Expr)} {cx : Setting}
    {fuel : Nat} {here : Place} {e : Expr} {s s₁ s' : PassState} {l : Elaborated}
    {receiver : Option Expr} {arguments : List Expr} {parts : List Typed.Expr}
    (collected : Definitions.ofBodies bodies = .ok cx.definitions)
    (elaborated : elaborateExpr cx (fuel + 1) here e s = some (l, s'))
    (sound : s'.errors = [])
    (form : writtenOperands? e.form = some (receiver, arguments))
    (lowered : PartsRun (elaborateExpr cx fuel) here (receiver.toList ++ arguments) s parts s₁) :
    ∃ operands action, RunsOperandsFirst here receiver parts l.code operands action := by
  have consistent := Definitions.ofBodies_consistent collected
  have growing := elaborateExpr_grows cx fuel
  obtain ⟨ends, runParts, falls⟩ := elaborateParts_of_run lowered
    (show (Completions.ofNormal Ty.nil).fallsThrough = true from rfl)
  simp only [elaborateExpr, elaborateForm] at elaborated
  cases shape : e.form with
  | call receiver' name nameSpan arguments' block =>
    simp only [shape, writtenOperands?, Option.some.injEq, Prod.mk.injEq] at form elaborated
    obtain ⟨rfl, rfl⟩ := form
    obtain ⟨parts', ends', s₂, run, ⟨stops, -, -⟩ | ⟨-, sent, runSent, rfl⟩⟩ :=
      elaborateCall_steps elaborated
    · rw [runParts] at run
      cases run
      rw [falls] at stops
      cases stops
    · rw [runParts] at run
      cases run
      have given : sentOperands here receiver' parts ≠ [] := by
        cases receiver' with
        | none => simp [sentOperands]
        | some r =>
          cases lowered
          simp [sentOperands]
      rcases elaborateDispatch_sends growing consistent runSent given sound with
        sends | ⟨temps, arms, sends, reads⟩
      · exact sends.runsOperandsFirst
      · refine ⟨_, _, sends, fun p fuel => p.evalNode_sent _ sent.code sends, ?_, ?_⟩
        · cases receiver' with
          | some r => exact ⟨[], by simp, by simp [sentOperands, dropsReceiver]⟩
          | none =>
            exact ⟨[Typed.Expr.ofSlot here.activation.selfSlot (some here.activation.selfType)],
              by simp [IsImplicit, Typed.Expr.ofSlot], by simp [sentOperands]⟩
        · intro temps' arms' same
          cases same
          exact reads
  | yield arguments' =>
    simp only [shape, writtenOperands?, Option.some.injEq, Prod.mk.injEq] at form elaborated
    obtain ⟨rfl, rfl⟩ := form
    obtain ⟨parts', ends', s₂, run, ⟨stops, -, -⟩ | ⟨-, ⟨block, site, definer, parameters, s₃,
      body, -, -, -, rfl⟩ | ⟨error, -, rfl, rfl⟩⟩⟩ := elaborateYield_steps elaborated
    · rw [Option.toList_none, List.nil_append] at runParts
      rw [runParts] at run
      cases run
      rw [falls] at stops
      cases stops
    · rw [Option.toList_none, List.nil_append] at runParts
      rw [runParts] at run
      cases run
      refine ⟨_, _, rfl, fun p fuel => p.evalNode_sent _ _ rfl, ⟨[], by simp, by simp⟩, ?_⟩
      intro temps arms same
      cases same
    · simp at sound
  | _ => simp [shape, writtenOperands?] at form

/-- The top level of a program without definitions. -/
def bareSetting : Setting := ⟨Definitions.builtin, ⟨[]⟩, ⟨[]⟩, Limits.standard⟩

def topLevel : Place := ⟨⟨[.main], "main", Ty.main, ⟨0⟩, [], .body⟩, 0⟩

private def noSpan : Span := ⟨Position.start, Position.start⟩

private def globalAssigned (value : Form) : Expr :=
  ⟨⟨1⟩, noSpan, .assign ⟨.global, "$g"⟩ noSpan ⟨⟨2⟩, noSpan, value⟩⟩

private def two : Expr := ⟨⟨3⟩, noSpan, .literal (.integer 2)⟩

/-- The message `name` to an assignment. -/
private def sentToAssigned (value : Form) (name : String) (arguments : List Expr) : Expr :=
  ⟨⟨4⟩, noSpan, .call (some (globalAssigned value)) name noSpan arguments none⟩

private def one : Form := .literal (.integer 1)

private def integerCode (node : Typed.Node) : Elaborated :=
  ⟨⟨some Ty.int, node⟩, Completions.ofNormal Ty.int⟩

private def assignedOne : Elaborated :=
  integerCode (.assignGlobal "$g" (integerCode (.literal (.integer 1))).code)

private def sumCode : Elaborated :=
  integerCode (.primitive .add assignedOne.code [(integerCode (.literal (.integer 2))).code])

private def afterAssignment : PassState :=
  { PassState.start Tables.empty with tables := Tables.empty.extendGlobal "$g" Ty.int }

/-- `($g = 1) + 2` assigns before it adds. -/
theorem sum_of_assignment_runs_operands_first :
    ∃ operands action, RunsOperandsFirst topLevel (some (globalAssigned one))
      [assignedOne.code, (integerCode (.literal (.integer 2))).code] sumCode.code operands
      action :=
  have first : elaborateExpr bareSetting 2 topLevel (globalAssigned one)
      (PassState.start Tables.empty) = some (assignedOne, afterAssignment) := rfl
  have second : elaborateExpr bareSetting 2 topLevel two afterAssignment =
      some (integerCode (.literal (.integer 2)), afterAssignment) := rfl
  have sum : elaborateExpr bareSetting 3 topLevel (sentToAssigned one "+" [two])
      (PassState.start Tables.empty) = some (sumCode, afterAssignment) := rfl
  elaborated_call_runs_operands_first (show Definitions.ofBodies [] = .ok _ from rfl) sum rfl rfl
    (.cons first rfl (.cons second rfl (.nil _)))

/-- `($g = Object).new` loses the assignment. -/
theorem new_drops_written_receiver :
    (elaborateExpr bareSetting 3 topLevel
      (sentToAssigned (.read ⟨.constant, "Object"⟩) "new" []) (PassState.start Tables.empty)).map
      (fun r => (r.1.code.node.sent?, r.2.errors)) =
        some (some ([], .construct "Object" none), []) := rfl

end TypedBlocks.Inference

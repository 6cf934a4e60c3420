import TypedBlocks.Proofs.EvaluationSteps
import TypedBlocks.Proofs.Operations

/-!
# Scopes of exits

What may be named at a place of a typed program: the frames, calls and loops that stand around the
place and can be left from there, the slots of the method, and the methods with the number of their
parameters. A program that names nothing else never lets an exit escape, and never misses a method.
-/
namespace TypedBlocks.Typed

/-- What may be named at a place. -/
structure Scope where
  frames : List FrameId
  sites : List SiteId
  loops : List LoopId
  /-- The number of slots of the method. -/
  slots : Nat
  /-- The number of parameters of a method that is present. -/
  arity : InstanceId → Option Nat

namespace Scope

def inLoop (σ : Scope) (id : LoopId) : Scope := { σ with loops := id :: σ.loops }

/-- The scope of the body of an expanded method. -/
def inExpansion (σ : Scope) (frame : FrameId) (site : SiteId) : Scope :=
  { σ with frames := frame :: σ.frames, sites := site :: σ.sites }

/-- The target of a break stands around the place. -/
def Encloses (σ : Scope) : BreakTarget → Prop
  | .call site => site ∈ σ.sites
  | .loop id => id ∈ σ.loops

def HasSlot (σ : Scope) (s : SlotId) : Prop := s.val < σ.slots

def HasSlots (σ : Scope) (ss : List SlotId) : Prop := ∀ s ∈ ss, σ.HasSlot s

end Scope

mutual

/-- The expression names only what the scope has. The body of a loop may leave the loop, its
condition may not; the body of an expanded method may leave the call, its operands may not. -/
def Expr.Scoped (σ : Scope) : Expr → Prop
  | ⟨_, node⟩ => node.Scoped σ

def Node.Scoped (σ : Scope) : Node → Prop
  | .literal _ | .global _ | .constant _ | .classRef _ | .mainObject => True
  | .slot s | .instanceVar s _ => σ.HasSlot s
  | .assign s value | .assignInstanceVar s _ value => σ.HasSlot s ∧ value.Scoped σ
  | .assignGlobal _ value | .assignConstant _ value | .not value => value.Scoped σ
  | .sequence parts => ListScoped σ parts
  | .conditional condition consequent alternative =>
    condition.Scoped σ ∧ consequent.Scoped σ ∧ alternative.Scoped σ
  | .while id condition body => condition.Scoped σ ∧ body.Scoped (σ.inLoop id)
  | .and left right | .or left right => left.Scoped σ ∧ right.Scoped σ
  | .call method receiver arguments =>
    σ.arity method = some arguments.length ∧ receiver.Scoped σ ∧ ListScoped σ arguments
  | .primitive _ receiver arguments => receiver.Scoped σ ∧ ListScoped σ arguments
  | .construct _ initializer arguments =>
    (∀ id ∈ initializer, σ.arity id = some arguments.length) ∧ ListScoped σ arguments
  | .foreign _ _ arguments => ListScoped σ arguments
  | .inline call => call.Scoped σ
  | .yield parameters locals arguments body =>
    σ.HasSlots parameters ∧ σ.HasSlots locals ∧ ListScoped σ arguments ∧ body.Scoped σ
  | .dispatch scrutinees temps arms =>
    σ.HasSlots temps ∧ ListScoped σ scrutinees ∧ ArmsScoped σ arms
  | .return target value => target ∈ σ.frames ∧ value.Scoped σ
  | .break target value => σ.Encloses target ∧ value.Scoped σ

def ExpandedCall.Scoped (σ : Scope) : ExpandedCall → Prop
  | ⟨site, frame, _, selfSlot, receiver, parameters, locals, arguments, body, _, _⟩ =>
    σ.HasSlot selfSlot ∧ σ.HasSlots parameters ∧ σ.HasSlots locals ∧ receiver.Scoped σ ∧
      ListScoped σ arguments ∧ body.Scoped (σ.inExpansion frame site)

def ListScoped (σ : Scope) : List Expr → Prop
  | [] => True
  | e :: es => e.Scoped σ ∧ ListScoped σ es

def ArmsScoped (σ : Scope) : List Arm → Prop
  | [] => True
  | ⟨_, body⟩ :: arms => body.Scoped σ ∧ ArmsScoped σ arms

end

theorem listScoped_iff {σ : Scope} {es : List Expr} : ListScoped σ es ↔ ∀ e ∈ es, e.Scoped σ := by
  induction es with
  | nil => simp [ListScoped]
  | cons e es ih => simp [ListScoped, ih]

theorem armsScoped_iff {σ : Scope} {arms : List Arm} :
    ArmsScoped σ arms ↔ ∀ arm ∈ arms, arm.body.Scoped σ := by
  induction arms with
  | nil => simp [ArmsScoped]
  | cons arm arms ih =>
    rcases arm with ⟨types, body⟩
    simp [ArmsScoped, ih]

/-- The scope of a method's body, in a program with the given methods. -/
def Method.scope (m : Method) (arity : InstanceId → Option Nat) : Scope :=
  ⟨[m.frame], [], [], m.locals.length, arity⟩

/-- Every slot that a method names is one of its own, at the index of its number, and every exit in
it leaves something around the place of the exit, at most the method itself. -/
structure Method.Scoped (m : Method) (arity : InstanceId → Option Nat) : Prop where
  numbered : ∀ (i : Nat) (slot : Slot), m.locals[i]? = some slot → slot.id = ⟨i⟩
  selfSlot : (m.scope arity).HasSlot m.selfSlot
  parameters : (m.scope arity).HasSlots m.parameters
  body : m.body.Scoped (m.scope arity)

/-- The number of parameters of the method with a number. -/
def Program.arity (p : Program) (id : InstanceId) : Option Nat :=
  (p.method? id).map (·.parameters.length)

/-- All exits of the program are in scope, and so are all slots and methods that it names. -/
structure Program.Scoped (p : Program) : Prop where
  main : p.main.Scoped p.arity
  methods : ∀ m ∈ p.methods, m.Scoped p.arity

section Evaluation

/-- The stop goes to a target in the scope, or is a fault other than a lost exit or method. -/
def Scope.Allows (σ : Scope) : Stop → Prop
  | .exit (.return frame _) => frame ∈ σ.frames
  | .exit (.break target _) => σ.Encloses target
  | .fault .escapedReturn | .fault .escapedBreak | .fault (.unknownMethod _) => False
  | .fault _ | .outOfFuel => True

/-- No scope plays a part in a stop that is no exit. -/
theorem Scope.Allows.elsewhere {σ τ : Scope} {stop : Stop} (allowed : τ.Allows stop)
    (other : ∀ e, stop ≠ .exit e) : σ.Allows stop := by
  cases stop with
  | exit e => exact absurd rfl (other e)
  | fault f => cases f <;> exact allowed
  | outOfFuel => trivial

/-- However the evaluation stops, the scope allows it. -/
def Confined {α : Type} (σ : Scope) (x : Eval α) : Prop :=
  ∀ m stop m', x m = .error stop m' → σ.Allows stop

variable {α β : Type} {σ : Scope}

theorem confined_pure (a : α) : Confined σ (pure a : Eval α) := by
  intro m stop m' h
  cases h

theorem confined_bind {x : Eval α} {f : α → Eval β} (first : Confined σ x)
    (next : ∀ a, Confined σ (f a)) : Confined σ (x >>= f) := by
  intro m stop m' h
  rcases bind_eq_error.1 h with stopped | ⟨a, m₁, -, rest⟩
  · exact first m stop m' stopped
  · exact next a m₁ stop m' rest

theorem confined_get : Confined σ (get : Eval Machine) := by
  intro m stop m' h
  cases h

theorem confined_modify (f : Machine → Machine) : Confined σ (modify f : Eval PUnit) := by
  intro m stop m' h
  cases h

theorem confined_modifyGet (f : Machine → α × Machine) :
    Confined σ (modifyGet f : Eval α) := by
  intro m stop m' h
  cases h

theorem confined_throw {stop : Stop} (allowed : σ.Allows stop) :
    Confined σ (throw stop : Eval α) := by
  intro m stop' m' h
  cases h
  exact allowed

theorem confined_mapM {run : Expr → Eval Value} {es : List Expr}
    (each : ∀ e ∈ es, Confined σ (run e)) : Confined σ (es.mapM run) := by
  induction es with
  | nil => exact confined_pure _
  | cons e es ih =>
    rw [List.mapM_cons]
    exact confined_bind (each e List.mem_cons_self) fun v =>
      confined_bind (ih fun e member => each e (List.mem_cons_of_mem _ member)) fun vs =>
        confined_pure _

theorem confined_sequence {run : Expr → Eval Value} {es : List Expr} (last : Value)
    (each : ∀ e ∈ es, Confined σ (run e)) : Confined σ (evalSequence run last es) := by
  induction es generalizing last with
  | nil => exact confined_pure _
  | cons e es ih =>
    rw [evalSequence]
    exact confined_bind (each e List.mem_cons_self) fun v =>
      ih v fun e member => each e (List.mem_cons_of_mem _ member)

/-- An expression that lands the exits of an inner scope is confined to the outer one. -/
theorem confined_landing {τ : Scope} {land : Exit → Option Value} {x : Eval Value}
    (inner : Confined τ x)
    (lands : ∀ e, τ.Allows (.exit e) → land e = none → σ.Allows (.exit e)) :
    Confined σ (Eval.landing land x) := by
  intro m stop m' h
  cases Eval.landing_ends h with
  | passes left missed => exact lands _ (inner _ _ _ left) missed
  | stops stopped other => exact (inner _ _ _ stopped).elsewhere other

theorem confined_withSlots {slots : Array Value} {x : Eval α} (inner : Confined σ x) :
    Confined σ (Eval.withSlots slots x) := by
  intro m stop m' h
  obtain ⟨m₁, stopped, -⟩ := Eval.withSlots_eq_error.1 h
  exact inner _ _ _ stopped

theorem Program.method?_mem {p : Program} {id : InstanceId} {m : Method}
    (found : p.method? id = some m) : m ∈ p.methods := by
  rw [Program.method?] at found
  split at found
  · rename_i m' at_index
    split at found
    · cases found
      exact Array.mem_of_getElem? at_index
    · exact Array.mem_of_find?_eq_some found
  · exact Array.mem_of_find?_eq_some found

/-- A method lands all returns from its frame, and no other exit is in its scope. -/
theorem invoke_confined {arity : InstanceId → Option Nat} {m : Method} {run : Expr → Eval Value}
    (inner : Confined (m.scope arity) (run m.body)) (receiver : Value) (arguments : List Value) :
    Confined σ (m.invoke run receiver arguments) := by
  refine confined_withSlots (confined_landing inner ?_)
  intro e allowed missed
  cases e with
  | «return» frame v =>
    have own : frame = m.frame := by simpa [Scope.Allows, Method.scope] using allowed
    simp [Exit.landInFrame, own] at missed
  | «break» target v =>
    cases target <;> simp [Scope.Allows, Scope.Encloses, Method.scope] at allowed

variable {p : Program} {run : Expr → Eval Value}

/-- A method that the scope knows is present, and calling it lets no exit escape. -/
theorem known_method_confined (whole : p.Scoped)
    (inner : ∀ (τ : Scope) (e : Expr), τ.arity = p.arity → e.Scoped τ → Confined τ (run e))
    {id : InstanceId} {n : Nat} (known : p.arity id = some n) :
    ∃ m, p.methodOrFault id = pure m ∧
      ∀ receiver arguments, Confined σ (m.invoke run receiver arguments) := by
  obtain ⟨m, found, -⟩ := Option.map_eq_some_iff.1 known
  refine ⟨m, by rw [Program.methodOrFault, found], fun receiver arguments => ?_⟩
  exact invoke_confined
    (inner _ _ rfl (whole.methods m (Program.method?_mem found)).body) receiver arguments

/-- Breaks out of a loop stay in it, and all else that stops its body is allowed around it. -/
theorem confined_while {ty : Option Ty} {id : LoopId} {condition body : Expr}
    (tested : Confined σ (run condition)) (ran : Confined (σ.inLoop id) (run body))
    (again : Confined σ (run ⟨ty, .while id condition body⟩)) :
    Confined σ (p.evalNode run ⟨ty, .while id condition body⟩) := by
  intro m stop m' h
  cases Program.while_ends h with
  | untested stopped => exact tested _ _ _ stopped
  | round _ _ _ goes => exact again _ _ _ goes
  | stops _ _ stopped other =>
    have allowed := ran _ _ _ stopped
    cases stop with
    | exit e =>
      cases e with
      | «return» frame v => exact allowed
      | «break» target v =>
        cases target with
        | call site => exact allowed
        | loop l =>
          have different : l ≠ id := by
            rintro rfl
            exact other v rfl
          simpa [Scope.Allows, Scope.Encloses, Scope.inLoop, different] using allowed
    | fault f => exact allowed.elsewhere nofun
    | outOfFuel => trivial

/-- Exits that an expanded method does not land are allowed around it. -/
theorem allows_outside {frame : FrameId} {site : SiteId} {e : Exit}
    (allowed : (σ.inExpansion frame site).Allows (.exit e))
    (missed : e.landAtCall frame site = none) : σ.Allows (.exit e) := by
  cases e with
  | «return» target v =>
    have other : target ≠ frame := by simpa [Exit.landAtCall] using missed
    simpa [Scope.Allows, Scope.inExpansion, other] using allowed
  | «break» target v =>
    cases target with
    | call left =>
      have other : left ≠ site := by simpa [Exit.landAtCall] using missed
      simpa [Scope.Allows, Scope.Encloses, Scope.inExpansion, other] using allowed
    | loop id => exact allowed

/-- One step of evaluation keeps to the scope if the evaluation of the parts does. -/
theorem evalNode_confined (whole : p.Scoped)
    (inner : ∀ (τ : Scope) (e : Expr), τ.arity = p.arity → e.Scoped τ → Confined τ (run e))
    {e : Expr} (same : σ.arity = p.arity) (inScope : e.Scoped σ) :
    Confined σ (p.evalNode run e) := by
  have each {es : List Expr} (all : ListScoped σ es) : Confined σ (es.mapM run) :=
    confined_mapM fun e member => inner σ e same (listScoped_iff.1 all e member)
  rcases e with ⟨ty, node⟩
  cases node with
  | literal _ | classRef _ | mainObject => exact confined_pure _
  | slot _ | instanceVar _ _ | global _ | constant _ =>
    exact confined_bind confined_get fun m => confined_pure _
  | assign _ value | assignInstanceVar _ _ value =>
    exact confined_bind (inner σ value same inScope.2) fun v =>
      confined_bind (confined_modify _) fun _ => confined_pure _
  | assignGlobal _ value | assignConstant _ value =>
    exact confined_bind (inner σ value same inScope) fun v =>
      confined_bind (confined_modify _) fun _ => confined_pure _
  | sequence parts =>
    exact confined_sequence _ fun e member =>
      inner σ e same (listScoped_iff.1 inScope e member)
  | conditional condition consequent alternative =>
    obtain ⟨conditionIn, consequentIn, alternativeIn⟩ := inScope
    refine confined_bind (inner σ condition same conditionIn) fun v => ?_
    split
    · exact inner σ consequent same consequentIn
    · exact inner σ alternative same alternativeIn
  | «while» id condition body =>
    exact confined_while (inner σ condition same inScope.1) (inner (σ.inLoop id) body same inScope.2)
      (inner σ _ same inScope)
  | and left right =>
    refine confined_bind (inner σ left same inScope.1) fun v => ?_
    split
    · exact inner σ right same inScope.2
    · exact confined_pure _
  | or left right =>
    refine confined_bind (inner σ left same inScope.1) fun v => ?_
    split
    · exact confined_pure _
    · exact inner σ right same inScope.2
  | not operand =>
    exact confined_bind (inner σ operand same inScope) fun v => confined_pure _
  | call method receiver arguments =>
    obtain ⟨known, receiverIn, argumentsIn⟩ := inScope
    rw [same] at known
    obtain ⟨m, present, called⟩ := known_method_confined whole inner known
    refine confined_bind (inner σ receiver same receiverIn) fun r =>
      confined_bind (each argumentsIn) fun vs => ?_
    rw [present, pure_bind]
    exact called r vs
  | primitive operation receiver arguments =>
    refine confined_bind (inner σ receiver same inScope.1) fun r =>
      confined_bind (each inScope.2) fun vs => ?_
    cases result : operation.apply r vs with
    | ok v => exact confined_pure v
    | error f =>
      rcases Primitive.apply_fault result with rfl | rfl
      · exact confined_throw trivial
      · exact confined_throw trivial
  | construct className initializer arguments =>
    obtain ⟨known, argumentsIn⟩ := inScope
    refine confined_bind (each argumentsIn) fun vs =>
      confined_bind (confined_modifyGet _) fun object => ?_
    cases initializer with
    | none => exact confined_pure _
    | some id =>
      have hasArity : p.arity id = some arguments.length := same ▸ known id rfl
      obtain ⟨m, present, called⟩ := known_method_confined whole inner hasArity
      dsimp only
      rw [present, pure_bind]
      exact confined_bind (called object vs) fun _ => confined_pure _
  | foreign lib name arguments =>
    exact confined_bind (each inScope) fun vs => confined_throw trivial
  | inline call =>
    rcases call with ⟨site, frame, name, selfSlot, receiver, parameters, slots, arguments, body,
      breakType, returnType⟩
    obtain ⟨-, -, -, receiverIn, argumentsIn, bodyIn⟩ := inScope
    exact confined_bind (inner σ receiver same receiverIn) fun r =>
      confined_bind (each argumentsIn) fun vs => confined_bind (confined_modify _) fun _ =>
        confined_landing (inner (σ.inExpansion frame site) body same bodyIn) fun _ => allows_outside
  | yield parameters locals arguments body =>
    obtain ⟨-, -, argumentsIn, bodyIn⟩ := inScope
    exact confined_bind (each argumentsIn) fun vs =>
      confined_bind (confined_modify _) fun _ => inner σ body same bodyIn
  | dispatch scrutinees temps arms =>
    obtain ⟨-, scrutineesIn, armsIn⟩ := inScope
    refine confined_bind (each scrutineesIn) fun vs =>
      confined_bind (confined_modify _) fun _ => ?_
    split
    · rename_i arm found
      exact inner σ arm.body same (armsScoped_iff.1 armsIn arm (List.mem_of_find?_eq_some found))
    · exact confined_throw trivial
  | «return» target value =>
    exact confined_bind (inner σ value same inScope.2) fun v => confined_throw inScope.1
  | «break» target value =>
    exact confined_bind (inner σ value same inScope.2) fun v => confined_throw inScope.1

/-- Evaluation keeps to the scope of what it evaluates. -/
theorem eval_confined (whole : p.Scoped) (fuel : Nat) {e : Expr} (same : σ.arity = p.arity)
    (inScope : e.Scoped σ) : Confined σ (p.eval fuel e) := by
  induction fuel generalizing σ e with
  | zero => exact confined_throw trivial
  | succ fuel ih => exact evalNode_confined whole (fun τ e same inScope => ih same inScope) same inScope

/-- No run of a program whose exits are in scope ends in an exit without a target, or for lack of a
method, however long it runs and whatever earlier runs have left behind. -/
theorem Program.Scoped.runFrom_fault (whole : p.Scoped) (fuel : Nat) (m : Machine) :
    (p.runFrom fuel m).1 ≠ .fault .escapedReturn ∧ (p.runFrom fuel m).1 ≠ .fault .escapedBreak ∧
      ∀ id, (p.runFrom fuel m).1 ≠ .fault (.unknownMethod id) := by
  have nothing : Confined ⟨[], [], [], 0, p.arity⟩ (p.main.invoke (p.eval fuel) .main []) :=
    invoke_confined (eval_confined whole fuel rfl whole.main.body) _ _
  have allowed := nothing m
  rw [Program.runFrom]
  cases run : p.main.invoke (p.eval fuel) .main [] m with
  | ok v m' => simp
  | error stop m' =>
    have inScope := allowed stop m' run
    cases stop with
    | exit e =>
      cases e with
      | «return» frame v => simp [Scope.Allows] at inScope
      | «break» target v => cases target <;> simp [Scope.Allows, Scope.Encloses] at inScope
    | fault f => cases f <;> simp_all [Scope.Allows]
    | outOfFuel => simp

end Evaluation

end TypedBlocks.Typed

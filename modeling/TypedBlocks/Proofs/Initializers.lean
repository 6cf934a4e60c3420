import TypedBlocks.Proofs.ComparedPasses
import TypedBlocks.Proofs.NodeOrigins
import TypedBlocks.Proofs.Overloads

/-!
# Initializers

An object that is made with arguments is initialized by the `initialize` that answers for their types on
the nearest class, or else the program is rejected. An object that is made without arguments is
initialized if there is an `initialize` for none; where all want arguments or a block, nothing is said
and none of them runs.
-/
namespace TypedBlocks

namespace Definitions

variable {d : Definitions} {c : String} {types : List Ty}

/-- The message by which an object of the class is initialized. -/
def initializing (c : String) (types : List Ty) : Message :=
  ⟨Ty.instanceOf c, "initialize", types, false, false⟩

/-- The method is the `initialize` that answers for arguments of the types, on the nearest class of the
chain that has one which accepts them. -/
def Initializes (d : Definitions) (c : String) (types : List Ty) (m : MethodEntry) : Prop :=
  ∃ before owner after, d.ancestors c = before ++ owner :: after ∧
    (∀ e ∈ before, ∀ n ∈ d.methodsOf e, d.isApplicable (initializing c types) n = false) ∧
    d.Chosen (initializing c types) (d.methodsOf owner) m

/-- There is no other way to initialize an object than by a method on its chain. -/
theorem dispatch?_initialize (d : Definitions) (c : String) (vars : List (String × Ty))
    (types : List Ty) : d.dispatch? ⟨.object c vars, "initialize", types, false, false⟩ =
      (d.methodInChain? (initializing c types)).map .method := by
  have unnamed : ∀ s ∈ Primitive.signatures, s.name ≠ "initialize" := by decide
  have primitive : Primitive.resolve? (.object c vars) "initialize" types = none := by
    rw [Primitive.resolve?, Option.map_eq_none_iff, List.find?_eq_none]
    intro s member admits
    rw [Primitive.Signature.admits, Bool.and_eq_true, Bool.and_eq_true, beq_iff_eq] at admits
    exact unnamed s member admits.1.1
  have chain : d.methodInChain? ⟨.object c vars, "initialize", types, false, false⟩ =
      d.methodInChain? (initializing c types) := rfl
  simp [dispatch?, classMessage?, primitive, chain]

theorem initializes_of_chain (consistent : d.Consistent) (ordered : d.Ordered) {id : MethodId}
    (chosen : d.methodInChain? (initializing c types) = some id) :
    ∃ m, d.method? id = some m ∧ d.Initializes c types m := by
  rw [methodInChain?, Option.bind_eq_some_iff] at chosen
  obtain ⟨_, ⟨⟩, chosen⟩ := chosen
  obtain ⟨before, owner, after, chain, chosen, nearer⟩ := List.findSome?_eq_some_iff.1 chosen
  obtain ⟨m, rfl, best⟩ := choose?_chosen (methodsOf_sorted consistent ordered owner) chosen
  have level : d.Level (initializing c types) (d.methodsOf owner) :=
    .inClass rfl chain fun e member => choose?_eq_none (nearer e member)
  exact ⟨m, mem_level_method? consistent level best.eligible.listed, before, owner, after, chain,
    fun e member => choose?_eq_none (nearer e member), best⟩

/-- The methods that can initialize an object stand on one class. -/
theorem Initializes.same_level {m n : MethodEntry} (first : d.Initializes c types m)
    (second : d.Initializes c types n) :
    ∃ level, d.Chosen (initializing c types) level m ∧ d.Chosen (initializing c types) level n := by
  obtain ⟨before, owner, after, chain, nearer, chosen⟩ := first
  obtain ⟨before', owner', after', chain', nearer', chosen'⟩ := second
  have one : owner = owner' := by
    rcases List.append_eq_append_iff.1 (chain.symm.trans chain') with ⟨rest, split, tail⟩ |
      ⟨rest, split, tail⟩
    all_goals
      cases rest with
      | nil => cases tail; rfl
      | cons e rest => ?_
    · cases tail
      have passed := nearer' owner (by simp [split]) m chosen.eligible.listed
      rw [chosen.eligible.applicable] at passed
      cases passed
    · cases tail
      have passed := nearer owner' (by simp [split]) n chosen'.eligible.listed
      rw [chosen'.eligible.applicable] at passed
      cases passed
  exact ⟨d.methodsOf owner, chosen, one ▸ chosen'⟩

/-- Whether the method that answers yields does not depend on which one that is. -/
theorem Initializes.yields_eq {m n : MethodEntry} (first : d.Initializes c types m)
    (second : d.Initializes c types n) : m.yields = n.yields := by
  obtain ⟨level, left, right⟩ := first.same_level second
  have silent {a b : MethodEntry} (here : d.Chosen (initializing c types) level a)
      (there : d.Chosen (initializing c types) level b) (none : a.yields = false) : b.yields = false :=
    there.eligible.block ⟨a, here.eligible.listed, here.eligible.applicable, none⟩
  cases yields : m.yields with
  | false => exact (silent left right yields).symm
  | true =>
    cases yields' : n.yields with
    | true => rfl
    | false => exact absurd (silent right left yields') (by simp [yields])

end Definitions

namespace Inference

open Typed (InstanceId SlotId)
open Pass

section Choice

variable {cx : Setting} {c : String} {vars : List (String × Ty)} {types : List Ty}

theorem initializer?_eq (cx : Setting) (c : String) (vars : List (String × Ty)) (types : List Ty) :
    initializer? cx (.object c vars) types =
      (cx.definitions.methodInChain? (Definitions.initializing c types)).filter fun id =>
        (cx.definitions.method? id).any fun m => !m.yields := by
  rw [initializer?, Definitions.dispatch?_initialize]
  cases cx.definitions.methodInChain? (Definitions.initializing c types) with
  | none => rfl
  | some id => rfl

variable (consistent : cx.definitions.Consistent) (ordered : cx.definitions.Ordered)

include consistent ordered

theorem initializer?_initializes {id : MethodId}
    (chosen : initializer? cx (.object c vars) types = some id) :
    ∃ m, cx.definitions.method? id = some m ∧ cx.definitions.Initializes c types m ∧
      m.yields = false := by
  rw [initializer?_eq, Option.filter_eq_some_iff] at chosen
  obtain ⟨inChain, silent⟩ := chosen
  obtain ⟨m, found, initializes⟩ := Definitions.initializes_of_chain consistent ordered inChain
  exact ⟨m, found, initializes, by simpa [found] using silent⟩

theorem initializer?_eq_none (none : initializer? cx (.object c vars) types = none) {m : MethodEntry}
    (initializes : cx.definitions.Initializes c types m) : m.yields = true := by
  rw [initializer?_eq, Option.filter_eq_none_iff] at none
  cases chain : cx.definitions.methodInChain? (Definitions.initializing c types) with
  | none =>
    obtain ⟨before, owner, after, split, -, chosen⟩ := initializes
    have nobody := Definitions.methodInChain?_eq_none chain rfl owner (by simp [split]) m
      chosen.eligible.listed
    rw [chosen.eligible.applicable] at nobody
    cases nobody
  | some id =>
    obtain ⟨n, found, other⟩ := Definitions.initializes_of_chain consistent ordered chain
    rw [initializes.yields_eq other]
    simpa [found] using none id chain

theorem initializer?_isSome_iff : (initializer? cx (.object c vars) types).isSome = true ↔
    ∃ m, cx.definitions.Initializes c types m ∧ m.yields = false := by
  constructor
  · intro chosen
    obtain ⟨id, chosen⟩ := Option.isSome_iff_exists.1 chosen
    obtain ⟨m, -, initializes, silent⟩ := initializer?_initializes consistent ordered chosen
    exact ⟨m, initializes, silent⟩
  · rintro ⟨m, initializes, silent⟩
    by_contra nobody
    have yields := initializer?_eq_none consistent ordered (Option.not_isSome_iff_eq_none.1 nobody)
      initializes
    rw [silent] at yields
    cases yields

end Choice

/-- The choices of operand types that a call is elaborated for. -/
def callArms (types : List Ty) : List (List Ty) :=
  if types.any Ty.isUnion then choices (types.map Ty.members) else [types]

/-- For no choice of operand types is the call to make an object with arguments that no initializer
accepts. -/
def Setting.accepts (cx : Setting) (call : CallSyntax) (types : List Ty) : Bool :=
  (callArms types).all fun ts =>
    match calleeFor? cx call (ts.headD Ty.nil) (ts.drop 1) with
    | some (.construct c) => (ts.drop 1).isEmpty || (initializer? cx (Ty.instanceOf c) (ts.drop 1)).isSome
    | _ => true

/-- Elaborate a call unless it makes an object with arguments that no initializer accepts. -/
def elaborateAcceptedCall (cx : Setting) (elaborate : Elaborate) (here : Place) (id : NodeId)
    (receiver : Option Expr) (name : String) (nameSpan : Span) (arguments : List Expr)
    (block : Option Block) : Pass Elaborated :=
  withOperands elaborate here (receiver.toList ++ arguments) fun parts ends => do
    let operands := sentOperands here receiver parts
    let types := operands.filterMap (·.ty)
    let call : CallSyntax := ⟨id, name, nameSpan, block, receiver.isNone⟩
    if cx.accepts call types then
      let l ← elaborateDispatch cx elaborate here call operands types
      return ⟨l.code, ends.andThen l.ends⟩
    else Pass.outOfFuel

def elaborateAcceptedForm (cx : Setting) (elaborate : Elaborate) (here : Place) (e : Expr) :
    Pass Elaborated :=
  match e.form with
  | .call receiver name nameSpan arguments block =>
    elaborateAcceptedCall cx elaborate here e.id receiver name nameSpan arguments block
  | _ => elaborateForm cx elaborate here e

def elaborateAccepted (cx : Setting) : Nat → Elaborate
  | 0, _, _ => Pass.outOfFuel
  | fuel + 1, here, e => elaborateAcceptedForm cx (elaborateAccepted cx fuel) here e

section Acceptance

variable {cx : Setting} {elaborate : Elaborate} {here : Place} {call : CallSyntax}
  {operands : List Typed.Expr} {types : List Ty} {l : Elaborated} {s s' : PassState}

/-- An arm that is elaborated without errors does not make an object that is not accepted. -/
theorem elaborateArm_accepts (typed : operands.map (·.ty) = types.map some)
    (h : elaborateArm cx elaborate here call operands types s = some (l, s')) (sound : s'.errors = [])
    {c : String} (callee : calleeFor? cx call (types.headD Ty.nil) (types.drop 1) = some (.construct c)) :
    types.drop 1 = [] ∨ (initializer? cx (Ty.instanceOf c) (types.drop 1)).isSome = true := by
  rcases elaborateArm_steps h with ⟨e, -, -, failed⟩ | ⟨receiverType, argumentTypes, rfl, rest⟩
  · exact (no_failure sound failed).elim
  · have callee : calleeFor? cx call receiverType argumentTypes = some (.construct c) := callee
    rcases rest with ⟨p, other, -⟩ | ⟨c', same, made⟩ | ⟨lib, name, other, -⟩ | ⟨id, m, other, -⟩
    · cases callee.symm.trans other
    · cases callee.symm.trans same
      rcases elaborateConstruct_steps made with ⟨id, instanceId, chosen, -⟩ |
        ⟨-, ⟨empty, -⟩ | ⟨-, -, failed⟩⟩
      · refine .inr (Option.isSome_iff_exists.2 ⟨id, ?_⟩)
        exact (initializer?_eq cx c _ _).trans ((initializer?_eq cx c _ _).symm.trans chosen)
      · cases operands with
        | nil => cases typed
        | cons receiver arguments =>
          have empty : arguments = [] := empty
          rw [empty, List.map_cons, List.map_cons, List.cons.injEq] at typed
          exact .inl (List.map_eq_nil_iff.1 typed.2.symm)
      · exact (no_failure sound failed).elim
    · cases callee.symm.trans other
    · cases callee.symm.trans other

theorem elaborateArms_accepts (growing : elaborate.Growing) {temps : List SlotId}
    {before : List ScopeVar} {chosen : List (List Ty)}
    {arms : List (Typed.Arm × Completions × List ScopeVar)}
    (lengths : ∀ ts ∈ chosen, ts.length = temps.length)
    (h : elaborateArms cx elaborate here call temps before chosen s = some (arms, s'))
    (sound : s'.errors = []) :
    ∀ ts ∈ chosen, ∃ operands l s s', operands.map (·.ty) = ts.map some ∧
      elaborateArm cx elaborate here call operands ts s = some (l, s') ∧ s'.errors = [] := by
  induction chosen generalizing s arms with
  | nil => nofun
  | cons types rest ih =>
    obtain ⟨arm, s₁, others, run, runRest, rfl⟩ := elaborateArms_cons_steps h
    rw [List.forall_mem_cons] at lengths
    refine List.forall_mem_cons.2 ⟨?_, ih lengths.2 runRest⟩
    exact ⟨_, arm, _, s₁, armOperands_ty lengths.1, run,
      (elaborateArms_grows growing runRest).no_errors sound⟩

/-- A call that is elaborated without errors is accepted. -/
theorem elaborateDispatch_accepts (growing : elaborate.Growing)
    (typed : operands.map (·.ty) = types.map some)
    (h : elaborateDispatch cx elaborate here call operands types s = some (l, s'))
    (sound : s'.errors = []) : cx.accepts call types = true := by
  have arms : ∀ ts ∈ callArms types, ∃ operands l s s', operands.map (·.ty) = ts.map some ∧
      elaborateArm cx elaborate here call operands ts s = some (l, s') ∧ s'.errors = [] := by
    rw [callArms]
    rcases elaborateDispatch_steps h with ⟨plain, single⟩ | ⟨union, ⟨n, -, -, failed⟩ | ⟨chosen, temps,
      s₁, arms, s₂, expanded, made, run, rfl, rfl⟩⟩
    · rw [plain]
      exact List.forall_mem_singleton.2 ⟨operands, l, s, s', typed, single, sound⟩
    · exact (no_failure sound failed).elim
    · have sound : s₂.errors = [] := sound
      have each := elaborateArms_accepts growing (fun ts member => by
        rw [armsWithin_length expanded ts member, tempSlots_length made]) run sound
      rwa [if_pos union, ← armsWithin_ok expanded]
  rw [Setting.accepts, List.all_eq_true]
  intro ts member
  obtain ⟨operands, l, s, s', typed, run, sound⟩ := arms ts member
  split
  · rename_i c callee
    rw [Bool.or_eq_true, List.isEmpty_iff]
    exact elaborateArm_accepts typed run sound callee
  · rfl

/-- A second elaboration for passes without errors, with the same count of expansions. -/
def Recount.sound (limit : Nat) : Recount limit limit where
  depths n n' := n = n'
  error e := e
  spared _ := True
  next same := congrArg _ same
  other _ := rfl
  within same := fun less => same ▸ less
  beyond _ _ _ _ := .inl trivial

theorem Recount.sound_state (limit : Nat) (s : PassState) : (Recount.sound limit).state s = s := by
  simp [Recount.state, Recount.sound]

theorem elaborateCall_accepted {other : Elaborate} (growing : elaborate.Growing)
    (typing : ∀ here e, (elaborate here e).Typed)
    (followed : elaborate.Followed (.sound cx.limits.maxInlineDepth) other) (a : BodyContext) (n : Nat)
    (id : NodeId) (receiver : Option Expr) (name : String) (nameSpan : Span) (arguments : List Expr)
    (block : Option Block) :
    Pass.Followed (.sound cx.limits.maxInlineDepth)
      (elaborateCall cx elaborate ⟨a, n⟩ id receiver name nameSpan arguments block)
      (elaborateAcceptedCall cx other ⟨a, n⟩ id receiver name nameSpan arguments block) := by
  intro s l s' h
  obtain ⟨parts, ends, s₁, run, rest⟩ := elaborateCall_steps h
  obtain ⟨kept, same⟩ := elaborateParts_followed followed rfl _ _ s _ s₁ run
  rw [elaborateAcceptedCall, withOperands]
  rcases rest with ⟨stops, rfl, rfl⟩ | ⟨falls, sent, runSent, rfl⟩
  · refine ⟨kept, fun clear => bind_eq_some.2 ⟨_, _, same clear, ?_⟩⟩
    dsimp only
    rw [if_neg (by simp [stops])]
    rfl
  · obtain ⟨keptSent, sameSent⟩ := elaborateDispatch_followed followed rfl s₁ _ s' runSent
    refine ⟨kept.trans keptSent, fun clear => bind_eq_some.2
      ⟨_, _, same fun e member => clear e (keptSent.subset member), ?_⟩⟩
    have sound : s'.errors = [] :=
      List.eq_nil_iff_forall_not_mem.2 fun e member => clear e member trivial
    have typed := (elaborateParts_typed (fun e _ => typing _ e) rfl run falls).2
    have accepted := elaborateDispatch_accepts growing (sentOperands_ty typed) runSent sound
    dsimp only
    rw [if_pos falls, if_pos accepted]
    exact bind_eq_some.2 ⟨_, _, sameSent clear, rfl⟩

/-- A pass without errors accepts all initializations. -/
theorem elaborateExpr_accepted (cx : Setting) (fuel : Nat) :
    (elaborateExpr cx fuel).Followed (.sound cx.limits.maxInlineDepth) (elaborateAccepted cx fuel) := by
  induction fuel with
  | zero => exact fun _ _ _ _ _ _ _ _ => nofun
  | succ fuel ih =>
    rintro a n _ e rfl
    have plain : Pass.Followed _ (elaborateForm cx (elaborateExpr cx fuel) ⟨a, n⟩ e) _ :=
      elaborateForm_followed ih rfl e
    rw [elaborateAccepted, elaborateAcceptedForm]
    split
    · rename_i receiver name nameSpan arguments block form
      simp only [elaborateExpr, elaborateForm, form]
      exact elaborateCall_accepted (elaborateExpr_grows cx fuel) (elaborateExpr_typed cx fuel) ih a n e.id
        receiver name nameSpan arguments block
    · exact plain

end Acceptance

/-- How an object of the class is made from arguments, and the number of its initializer. -/
inductive Initialization (cx : Setting) (p : Typed.Program) (e : Typed.Expr) (c : String)
    (arguments : List Typed.Expr) : Option InstanceId → Prop
  /-- There are no arguments, and no `initialize` answers for none or it yields: the object is left as it
  has been allocated. -/
  | bare (given : arguments = [])
    (nobody : ∀ m, cx.definitions.Initializes c [] m → m.yields = true)
    (runs : ∀ fuel, p.eval (fuel + 1) e = modifyGet (·.allocate c)) : Initialization cx p e c arguments none
  /-- The `initialize` that answers for the types of the arguments does not yield. It is there in the
  program for these types, and runs once on the new object with the values of the arguments. -/
  | initialized {id : InstanceId} {types : List Ty} {vars : List (String × Ty)} {m : MethodEntry}
    {key : Instantiation} {made : Typed.Method} (typed : arguments.map (·.ty) = types.map some)
    (initializes : cx.definitions.Initializes c types m) (silent : m.yields = false)
    (found : p.method? id = some made) (implements : Implements cx key m made)
    (same : ((⟨m.id, .object c vars, types⟩ : Instantiation) == key) = true)
    (runs : ∀ fuel, p.eval (fuel + 1) e = do
      let values ← arguments.mapM (p.eval fuel)
      let object ← modifyGet (·.allocate c)
      let _ ← made.invoke (p.eval fuel) object values
      return object) : Initialization cx p e c arguments (some id)

section Programs

variable {cx : Setting} {p : Typed.Program} {listed : List (Instantiation × InstanceId)}
  {e : Typed.Expr} {c : String} {arguments : List Typed.Expr} {initializer : Option InstanceId}

/-- Every object is made as its call was elaborated. -/
theorem initialization_of_sourced (consistent : cx.definitions.Consistent)
    (ordered : cx.definitions.Ordered) (node : e.node = .construct c initializer arguments)
    (sourced : Sourced cx listed e.node)
    (present : ∀ key id, (key, id) ∈ listed → ∃ m, p.method? id = some m ∧ Implemented cx key m) :
    Initialization cx p e c arguments initializer := by
  rw [node] at sourced
  obtain ⟨fuel, here, call, types, s, l, s', made, typed, known⟩ := sourced
  have same := made.node
  rcases elaborateConstruct_steps made.run with ⟨id, instanceId, chosen, run, rfl⟩ |
    ⟨nobody, ⟨empty, rfl, rfl⟩ | ⟨-, -, failed⟩⟩
  · cases same
    obtain ⟨m, entry, initializes, silent⟩ := initializer?_initializes consistent ordered chosen
    have callee : Instantiation.Known cx .all ⟨id, s.tables.objectTy c, types⟩ :=
      ⟨made.known.tables.objectTy trivial, known, initializer?_callable consistent chosen⟩
    obtain ⟨key, member, match_⟩ := elaborateMethod_listed (elaborateExpr_grows cx fuel) run
    have like : ((⟨id, s.tables.objectTy c, types⟩ : Instantiation) == key) = true := by
      rcases match_ with rfl | like
      · exact callee.beq_self
      · exact like
    obtain ⟨tm, found, entry', entered, implements⟩ := present key _ (made.listed.subset member)
    have method : id = key.method := by
      have parts : (id == key.method && s.tables.objectTy c == key.selfType &&
        sameTypes types key.arguments) = true := like
      simp only [Bool.and_eq_true, beq_iff_eq] at parts
      exact parts.1.1
    rw [← method, entry] at entered
    cases entered
    refine .initialized typed initializes silent found implements
      (consistent.method?_id entry ▸ like) fun fuel => ?_
    funext machine
    simp [Typed.Program.eval, Typed.Program.evalNode, node, Typed.Program.methodOrFault, found]
  · cases same
    subst empty
    have none : types = [] := List.map_eq_nil_iff.1 typed.symm
    rw [none] at nobody
    refine .bare rfl (fun m => initializer?_eq_none consistent ordered nobody) fun fuel => ?_
    funext machine
    simp [Typed.Program.eval, Typed.Program.evalNode, node]
  · exact (no_failure made.sound failed).elim

end Programs

end Inference

namespace Compilation

open Inference

/-- An object is initialized by the `initialize` that answers for the types of its arguments on the
nearest class, if that does not yield; it runs once, on the new object with the values of the arguments.
Without such a method, a call that gives arguments is not accepted, and the program does not compile: the
last pass is the same where only accepted calls have a result. But a call that gives none is accepted,
and makes an object on which nothing has run, although its class may have other initializers. -/
theorem compiled_objects_initialized {options : Options} {text : String} {ds ds' : Diagnostics}
    {c : Compilation} (compiled : ofText options text ds = (.ok c, ds')) :
    ∃ modules ds₁ definitions,
      (Compile.readWithPrelude options text).run.run ds = (.ok modules, ds₁) ∧
      Definitions.ofBodies (modules.map (·.body)) = .ok definitions ∧
      let cx : Setting := ⟨definitions, c.exits, c.captures, options.limits⟩
      (∀ cls types, (initializer? cx (Ty.instanceOf cls) types).isSome = true ↔
        ∃ m, definitions.Initializes cls types m ∧ m.yields = false) ∧
      (∃ body s, elaborateBody (elaborateAccepted cx ampleFuel) mainPlace
          (modules.map (·.body)).flatten (enteredMain s.tables) = some (body, s) ∧
        c.program = madeProgram cx body s) ∧
      ∀ e, c.program.Within e → ∀ cls initializer arguments,
        e.node = .construct cls initializer arguments →
          Initialization cx c.program e cls arguments initializer := by
  obtain ⟨modules, ds₁, read, compiled⟩ := ofText_steps compiled
  obtain ⟨definitions, collected, -, -, body, s, run, made, known, sound, -⟩ := ofBodies_last compiled
  have consistent := Definitions.ofBodies_consistent collected
  have ordered := Definitions.ofBodies_ordered collected
  refine ⟨modules, ds₁, definitions, read, collected,
    fun _ _ => initializer?_isSome_iff consistent ordered, ⟨body, s, ?_, made⟩, ?_⟩
  · have same := (elaborateBody_followed (elaborateExpr_accepted _ ampleFuel) rfl _ _ body s run).2
      fun e member => by simp [sound] at member
    rwa [Recount.sound_state, Recount.sound_state] at same
  · intro e within cls initializer arguments node
    obtain ⟨sourced, present⟩ := madeProgram_sources consistent known.tables sound run
    rw [← made] at sourced present
    exact initialization_of_sourced consistent ordered node (sourced e within) present

/-- The class of the object that the node makes, and whether it is initialized. -/
def madeObject? : Typed.Node → Option (String × Bool)
  | .construct c initializer _ => some (c, initializer.isSome)
  | _ => none

/-- Objects of one class with and without arguments, where `initialize` wants one. -/
def skippingText : String :=
  "class Foo\n  def initialize(x)\n    @x = x\n  end\nend\nFoo.new(1)\nFoo.new\n"

/-- The class has an `initialize`, which runs on the first object and is skipped on the second. -/
theorem skippingText_initializations : ∃ c ds cx e e' arguments id,
    ofText ⟨false, Limits.standard⟩ skippingText Diagnostics.empty = (.ok c, ds) ∧
      Initialization cx c.program e "Foo" arguments (some id) ∧
      Initialization cx c.program e' "Foo" [] none := by
  obtain ⟨c, ds, result, holds⟩ := exists_compiled ⟨false, Limits.standard⟩ skippingText
    (fun c => [true, false].all fun b => c.program.main.body.node.parts.any fun e =>
      madeObject? e.node == some ("Foo", b))
    (by decide +kernel)
  obtain ⟨modules, ds₁, definitions, -, -, -, -, each⟩ := compiled_objects_initialized result
  have found (b : Bool) (member : b ∈ [true, false]) : ∃ e, c.program.Within e ∧
      madeObject? e.node = some ("Foo", b) := by
    obtain ⟨e, part, made⟩ := List.any_eq_true.1 (List.all_eq_true.1 holds b member)
    exact ⟨e, .part ⟨c.program.main, List.mem_cons_self, .self _⟩ part, beq_iff_eq.1 made⟩
  have made (b : Bool) (member : b ∈ [true, false]) : ∃ e arguments initializer,
      initializer.isSome = b ∧ Initialization ⟨definitions, c.exits, c.captures, Limits.standard⟩
        c.program e "Foo" arguments initializer := by
    obtain ⟨⟨ty, n⟩, within, object⟩ := found b member
    cases n with
    | construct cls initializer arguments =>
      cases object
      exact ⟨_, _, _, rfl, each _ within _ _ _ rfl⟩
    | _ => cases object
  obtain ⟨e, arguments, initializer, runs, first⟩ := made true (by simp)
  obtain ⟨id, rfl⟩ := Option.isSome_iff_exists.1 runs
  obtain ⟨e', given, initializer, bare, second⟩ := made false (by simp)
  obtain rfl : initializer = none := by simpa using bare
  have empty : given = [] := by cases second; assumption
  exact ⟨c, ds, _, e, e', arguments, id, result, first, empty ▸ second⟩

end Compilation

end TypedBlocks

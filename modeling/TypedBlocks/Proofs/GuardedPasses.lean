import TypedBlocks.Proofs.CompilationSteps
import TypedBlocks.Proofs.ElaboratedScope
import TypedBlocks.Proofs.ExitNesting
import TypedBlocks.Proofs.MadeCode

/-!
# Guarded passes

Exits are resolved by their nesting in the text, while elaboration finds their run-time targets in
the bodies that are open at the place. An elaboration has an answer where the two do not fit: for an
exit without a target, for a yield without a block and for operands without a type. Here is an
elaboration without these answers. On a program whose exits are resolved, every pass is the same with
it.
-/
namespace TypedBlocks.Inference

open Typed (SlotId)
open Pass

/-- The block that a yield at a place runs, the call it was given to, and the body it stands in. -/
def BodyContext.block? (a : BodyContext) : Option (Block × SiteId × BodyContext) :=
  match a.methodBody.origin with
  | .expansion block site definer => some (block, site, definer)
  | _ => none

/-- An exit has a target at run time, and a yield has a block to run. -/
def Place.grounds (cx : Setting) (here : Place) (e : Expr) : Bool :=
  match e.form with
  | .return _ | .break _ => (exitTarget? cx here e.id).isSome
  | .yield _ => here.activation.block?.isSome
  | _ => true

/-- Elaborate a call if, with the receiver first, as many operand types are known as there are
operands. -/
def elaborateGuardedCall (cx : Setting) (elaborate : Elaborate) (here : Place) (id : NodeId)
    (receiver : Option Expr) (name : String) (nameSpan : Span) (arguments : List Expr)
    (block : Option Block) : Pass Elaborated :=
  withOperands elaborate here (receiver.toList ++ arguments) fun parts ends => do
    let operands := sentOperands here receiver parts
    let types := operands.filterMap (·.ty)
    if operands.length = arguments.length + 1 ∧ types.length = operands.length then
      let l ← elaborateDispatch cx elaborate here ⟨id, name, nameSpan, block, receiver.isNone⟩
        operands types
      return ⟨l.code, ends.andThen l.ends⟩
    else Pass.outOfFuel

def elaborateGuardedForm (cx : Setting) (elaborate : Elaborate) (here : Place) (e : Expr) :
    Pass Elaborated :=
  match e.form with
  | .call receiver name nameSpan arguments block =>
    elaborateGuardedCall cx elaborate here e.id receiver name nameSpan arguments block
  | _ => elaborateForm cx elaborate here e

def elaborateGuarded (cx : Setting) : Nat → Elaborate
  | 0, _, _ => Pass.outOfFuel
  | fuel + 1, here, e =>
    if here.grounds cx e then elaborateGuardedForm cx (elaborateGuarded cx fuel) here e
    else Pass.outOfFuel

section Bodies

variable {bodies : List (List Expr)} {around : List ExitTarget} {a : BodyContext}

/-- A body serves for a place in the text: what exits can belong to there has a target at run time,
and if yields belong to the method, there is a block for them. The body in which that block stands
serves for the place of the block. -/
inductive BodyContext.Serves (bodies : List (List Expr)) : List ExitTarget → BodyContext → Prop
  | intro {around : List ExitTarget} {a : BodyContext} (outer : List ExitTarget)
    (returns : (a.target? ((methodAround around).elim .program .method)).isSome)
    (breaks : ∀ t, leavableAround around = some t → (a.target? t).isSome)
    (yields : ∀ o ∈ programOccurrences bodies, o.IsYield →
      methodAround o.around = methodAround around → a.block?.isSome)
    (statements : ∀ block site definer, a.block? = some (block, site, definer) →
      ∀ e ∈ block.body, ⟨.block block.id :: outer, e⟩ ∈ programOccurrences bodies)
    (definer : ∀ block site definer, a.block? = some (block, site, definer) →
      Serves bodies outer definer) :
    Serves bodies around a

theorem BodyContext.block?_withTarget (a : BodyContext) (exit : ExitTarget) (run : RunTarget) :
    (a.withTarget exit run).block? = a.block? := by
  rcases a with ⟨_, _, _, _, _, _ | _ | _⟩ <;> rfl

theorem BodyContext.target?_withTarget_self (a : BodyContext) (exit : ExitTarget)
    (run : RunTarget) : (a.withTarget exit run).target? exit = some run := by
  rcases a with ⟨_, _, _, _, _, _ | _ | _⟩ <;> simp [withTarget, target?]

theorem BodyContext.target?_withTarget {exit other : ExitTarget} {run : RunTarget}
    (apart : other ≠ exit) : (a.withTarget exit run).target? other = a.target? other := by
  have differs : (other == exit) = false := by simpa using apart
  rcases a with ⟨_, _, _, _, _, _ | _ | _⟩ <;> simp [withTarget, target?, List.lookup_cons, differs]

theorem elim_ne_loop {method : Option NodeId} {id : NodeId} :
    method.elim ExitTarget.program .method ≠ .loop id := by
  cases method <;> nofun

theorem elim_ne_block {method : Option NodeId} {id : NodeId} :
    method.elim ExitTarget.program .method ≠ .block id := by
  cases method <;> nofun

namespace BodyContext.Serves

/-- The body of a loop adds a target for its breaks. -/
theorem inLoop (serves : a.Serves bodies around) (id : NodeId) (run : RunTarget) :
    (a.withTarget (.loop id) run).Serves bodies (.loop id :: around) := by
  obtain ⟨outer, returns, breaks, yields, statements, definer⟩ := serves
  refine ⟨outer, ?_, ?_, ?_, ?_, ?_⟩
  · change (BodyContext.target? ((methodAround around).elim .program .method) _).isSome
    rw [target?_withTarget elim_ne_loop]
    exact returns
  · rintro t ⟨⟩
    rw [target?_withTarget_self]
    rfl
  · rw [block?_withTarget]
    exact yields
  · rw [block?_withTarget]
    exact statements
  · rw [block?_withTarget]
    exact definer

/-- The body of a block serves where the block stands. -/
theorem inBlock (serves : a.Serves bodies around) (block : Block) (site : SiteId) :
    (blockContext block site a).Serves bodies (.block block.id :: around) := by
  obtain ⟨outer, returns, breaks, yields, statements, definer⟩ := serves
  have differs {method : Option NodeId} :
      (method.elim ExitTarget.program .method == .block block.id) = false := by
    simpa using elim_ne_block
  refine ⟨outer, ?_, ?_, yields, statements, definer⟩
  · change (Option.or _ (BodyContext.target? ((methodAround around).elim .program .method) a)).isSome
    simp only [List.lookup_cons, List.lookup_nil, differs, Option.none_or]
    exact returns
  · rintro t ⟨⟩
    simp [blockContext, target?]

/-- The body of a method that is expanded for a call with a block. -/
theorem expansion (serves : a.Serves bodies around) {path : ScopeChain} {name : String}
    {selfType : Ty} {selfSlot : SlotId} {id : NodeId} {run : RunTarget} {block : Block} {site : SiteId}
    (statements : ∀ e ∈ block.body, ⟨.block block.id :: around, e⟩ ∈ programOccurrences bodies) :
    BodyContext.Serves bodies [.method id]
      ⟨path, name, selfType, selfSlot, [(.method id, run)], .expansion block site a⟩ := by
  refine ⟨around, ?_, nofun, fun _ _ _ _ => rfl, ?_, ?_⟩
  · simp [methodAround, target?]
  · rintro _ _ _ ⟨⟩
    exact statements
  · rintro _ _ _ ⟨⟩
    exact serves

/-- The body of a method to which no yield belongs, or the top level. -/
theorem body {path : ScopeChain} {name : String} {selfType : Ty} {selfSlot : SlotId}
    {run : RunTarget} (outermost : leavableAround around = none)
    (silent : ∀ o ∈ programOccurrences bodies, o.IsYield →
      methodAround o.around ≠ methodAround around) :
    BodyContext.Serves bodies around ⟨path, name, selfType, selfSlot,
      [((methodAround around).elim .program .method, run)], .body⟩ := by
  refine ⟨[], ?_, ?_, fun o member yield same => absurd same (silent o member yield),
    fun _ _ _ given => (by simp [block?, methodBody] at given),
    fun _ _ _ given => (by simp [block?, methodBody] at given)⟩
  · simp [target?]
  · rw [outermost]
    rintro _ ⟨⟩

end BodyContext.Serves

end Bodies

section Typed

variable {cx : Setting} {elaborate : Elaborate} {here : Place} {s s' : PassState}

/-- Where operands know their types, the guard of a call lets it through. -/
theorem elaborateGuardedCall_eq {id : NodeId} {receiver : Option Expr} {name : String}
    {nameSpan : Span} {arguments : List Expr} {block : Option Block}
    (typed : ∀ e ∈ receiver.toList ++ arguments, (elaborate here e).Typed) :
    elaborateGuardedCall cx elaborate here id receiver name nameSpan arguments block =
      elaborateCall cx elaborate here id receiver name nameSpan arguments block := by
  funext s
  simp only [elaborateGuardedCall, elaborateCall, withOperands]
  change Option.bind _ _ = Option.bind _ _
  cases run : elaborateParts elaborate here (Completions.ofNormal Ty.nil)
      (receiver.toList ++ arguments) s with
  | none => rfl
  | some result =>
    obtain ⟨⟨parts, ends⟩, s₁⟩ := result
    by_cases through : ends.fallsThrough = true
    · obtain ⟨lengths, each⟩ := elaborateParts_typed typed rfl run through
      have count : (sentOperands here receiver parts).length = arguments.length + 1 := by
        cases receiver <;> simp_all [sentOperands]
      have known : ∀ c ∈ sentOperands here receiver parts, c.ty.isSome = true := by
        cases receiver <;> simp_all [sentOperands, Typed.Expr.ofSlot]
      have guard := And.intro count (filterMap_length known).symm
      simp only [Option.bind_some, through, if_true, if_pos guard]
      rfl
    · simp only [Option.bind_some, through, Bool.false_eq_true, if_false]

end Typed

theorem initializer?_silent {cx : Setting} {object : Ty} {types : List Ty} {id : MethodId}
    (chosen : initializer? cx object types = some id) {m : MethodEntry}
    (found : cx.definitions.method? id = some m) : m.yields = false := by
  rw [initializer?] at chosen
  split at chosen
  · split at chosen
    · rename_i plain
      cases chosen
      simpa [found] using plain
    · cases chosen
  · cases chosen

section Agreement

/-- Two elaborations do the same wherever a body serves for an expression of the program. -/
def Elaborate.Agrees (bodies : List (List Expr)) (elaborate other : Elaborate) : Prop :=
  ∀ here around e, here.activation.Serves bodies around →
    ⟨around, e⟩ ∈ programOccurrences bodies → elaborate here e = other here e

variable {elaborate other : Elaborate} {here : Place}

theorem elaborateParts_congr {ends : Completions} {es : List Expr}
    (same : ∀ e ∈ es, elaborate here e = other here e) :
    elaborateParts elaborate here ends es = elaborateParts other here ends es := by
  induction es generalizing ends with
  | nil => rfl
  | cons e es ih =>
    rw [List.forall_mem_cons] at same
    simp only [elaborateParts, same.1, ih same.2]

theorem elaborateBody_congr {body : List Expr}
    (same : ∀ e ∈ body, elaborate here e = other here e) :
    elaborateBody elaborate here body = elaborateBody other here body := by
  simp only [elaborateBody, elaborateParts_congr same]

theorem withOperand_congr {operand : Expr} {next next' : Elaborated → Ty → Pass Elaborated}
    (same : elaborate here operand = other here operand) (rest : ∀ l t, next l t = next' l t) :
    withOperand elaborate here operand next = withOperand other here operand next' := by
  simp only [withOperand, same, rest]

theorem withOperands_congr {operands : List Expr}
    {next next' : List Typed.Expr → Completions → Pass Elaborated}
    (same : ∀ e ∈ operands, elaborate here e = other here e)
    (rest : ∀ parts ends, next parts ends = next' parts ends) :
    withOperands elaborate here operands next = withOperands other here operands next' := by
  simp only [withOperands, elaborateParts_congr same, rest]

variable {bodies : List (List Expr)} {cx : Setting} {around : List ExitTarget}

/-- What is directly inside an expression at the place is elaborated the same. -/
theorem Elaborate.Agrees.within (agrees : elaborate.Agrees bodies other)
    (serves : here.activation.Serves bodies around) {e part : Expr}
    (member : ⟨around, e⟩ ∈ programOccurrences bodies)
    (inside : ⟨around, part⟩ ∈ e.form.within e.id around) :
    elaborate here part = other here part :=
  agrees here around part serves (mem_program_of_within member inside)

theorem operand_within {id : NodeId} {receiver : Option Expr} {name : String} {nameSpan : Span}
    {arguments : List Expr} {block : Option Block} {part : Expr}
    (operand : part ∈ receiver.toList ++ arguments) :
    ⟨around, part⟩ ∈ (Form.call receiver name nameSpan arguments block).within id around :=
  List.mem_append_left _ (List.mem_map_of_mem operand)

variable (agrees : elaborate.Agrees bodies other)

include agrees

/-- A yield runs a block that stands where the body around it serves. -/
theorem elaborateYield_congr (serves : here.activation.Serves bodies around) {span : Span}
    {arguments : List Expr}
    (same : ∀ e ∈ arguments, elaborate here e = other here e) :
    elaborateYield elaborate here span arguments = elaborateYield other here span arguments := by
  refine withOperands_congr same fun parts ends => ?_
  dsimp only
  cases origin : here.activation.methodBody.origin with
  | body => rfl
  | block id definer => rfl
  | expansion block site definer =>
    have given : here.activation.block? = some (block, site, definer) := by
      simp only [BodyContext.block?, origin]
    obtain ⟨outer, -, -, -, statements, definers⟩ := serves
    have body : elaborateBody elaborate ⟨blockContext block site definer, here.depth⟩ block.body =
        elaborateBody other ⟨blockContext block site definer, here.depth⟩ block.body :=
      elaborateBody_congr fun e statement =>
        agrees _ _ e ((definers block site definer given).inBlock block site)
          (statements block site definer given e statement)
    simp only [blockContext] at body
    simp only [body]

variable (collected : Definitions.ofBodies bodies = .ok cx.definitions)

include collected

/-- A method is expanded for a block that stands at the place. -/
theorem expandCall_congr (serves : here.activation.Serves bodies around) {call : CallSyntax}
    {m : MethodEntry} (member : m ∈ cx.definitions.methods) {key : Instantiation} {block : Block}
    (statements : ∀ e ∈ block.body, ⟨.block block.id :: around, e⟩ ∈ programOccurrences bodies)
    {receiver : Typed.Expr} {arguments : List Typed.Expr} :
    expandCall cx elaborate here call m key block receiver arguments =
      expandCall cx other here call m key block receiver arguments := by
  have body (site : SiteId) (frame : FrameId) (self : SlotId) :
      let inner : Place := ⟨⟨.inline call.id key :: here.activation.path, m.fullName, key.selfType,
        self, [(.method m.definition.id, .frame frame)], .expansion block site here.activation⟩,
        here.depth + 1⟩
      elaborateBody elaborate inner m.definition.body =
        elaborateBody other inner m.definition.body :=
    elaborateBody_congr fun e statement =>
      agrees _ [.method m.definition.id] e (serves.expansion statements)
        (method_statement collected member statement)
  simp only [expandCall, body]

variable (distinct : (listIds bodies.flatten).Nodup)

include distinct

/-- The body of a collected method that does not yield. -/
theorem elaborateMethod_congr (depth : Nat) {key : Instantiation}
    (silent : ∀ m, cx.definitions.method? key.method = some m → m.yields = false) :
    elaborateMethod cx elaborate depth key = elaborateMethod cx other depth key := by
  simp only [elaborateMethod]
  refine bind_congr fun s => ?_
  cases s.instances.lookup key with
  | some id => rfl
  | none =>
    refine bind_congr fun _ => ?_
    cases found : cx.definitions.method? key.method with
    | none => rfl
    | some m =>
      have member := Array.mem_of_getElem? found
      have unused : ¬ m.yields = true := by simp [silent m found]
      rw [yielding_iff distinct collected member] at unused
      have body (frame : FrameId) (self : SlotId) :
          let inner : Place := ⟨⟨[.instance key], m.fullName, key.selfType, self,
            [(.method m.definition.id, .frame frame)], .body⟩, depth⟩
          elaborateBody elaborate inner m.definition.body =
            elaborateBody other inner m.definition.body :=
        elaborateBody_congr fun e statement => agrees _ [.method m.definition.id] e
          (.body rfl fun o occurs yield same => unused ⟨o, occurs, yield, same⟩)
          (method_statement collected member statement)
      simp only [body]

variable {call : CallSyntax}

theorem elaborateConstruct_congr {className : String} {arguments : List Typed.Expr}
    {types : List Ty} :
    elaborateConstruct cx elaborate here call className arguments types =
      elaborateConstruct cx other here call className arguments types := by
  refine bind_congr fun ts => ?_
  dsimp only
  cases chosen : initializer? cx (ts.objectTy className) types with
  | none => rfl
  | some id =>
    dsimp only
    rw [elaborateMethod_congr agrees collected distinct here.depth fun m found =>
      initializer?_silent chosen found]

variable (serves : here.activation.Serves bodies around)
  (statements : ∀ b ∈ call.block, ∀ e ∈ b.body,
    ⟨.block b.id :: around, e⟩ ∈ programOccurrences bodies)

include serves statements

theorem elaborateMethodCall_congr {m : MethodEntry} (found : cx.definitions.method? m.id = some m)
    {receiver : Typed.Expr} {receiverType : Ty} {arguments : List Typed.Expr} {types : List Ty} :
    elaborateMethodCall cx elaborate here call m receiver receiverType arguments types =
      elaborateMethodCall cx other here call m receiver receiverType arguments types := by
  have expanded (key : Instantiation) (block : Block) (given : call.block = some block)
      (receiver : Typed.Expr) : expandCall cx elaborate here call m key block receiver arguments =
        expandCall cx other here call m key block receiver arguments :=
    expandCall_congr agrees collected serves (Array.mem_of_getElem? found) (statements block given)
  simp only [elaborateMethodCall]
  split
  · cases given : call.block with
    | none => rfl
    | some block => simp only [expanded _ block given]
  · rename_i plain
    rw [elaborateMethod_congr agrees collected distinct]
    intro m' found'
    cases found.symm.trans found'
    simpa using plain

theorem elaborateArm_congr {operands : List Typed.Expr} {types : List Ty} :
    elaborateArm cx elaborate here call operands types =
      elaborateArm cx other here call operands types := by
  have consistent := Definitions.ofBodies_consistent collected
  simp only [elaborateArm]
  cases types with
  | nil => rfl
  | cons receiverType argumentTypes =>
    dsimp only
    split
    · rfl
    · rfl
    · exact elaborateConstruct_congr agrees collected distinct
    · rfl
    · split
      · rfl
      · rename_i m found
        rw [← consistent.method?_id found] at found
        exact elaborateMethodCall_congr agrees collected distinct serves statements found

theorem elaborateArms_congr {temps : List SlotId} {before : List ScopeVar}
    {choices : List (List Ty)} :
    elaborateArms cx elaborate here call temps before choices =
      elaborateArms cx other here call temps before choices := by
  induction choices with
  | nil => rfl
  | cons types rest ih =>
    simp only [elaborateArms, ih,
      elaborateArm_congr agrees collected distinct serves statements]

theorem elaborateDispatch_congr {operands : List Typed.Expr} {types : List Ty} :
    elaborateDispatch cx elaborate here call operands types =
      elaborateDispatch cx other here call operands types := by
  simp only [elaborateDispatch, elaborateArm_congr agrees collected distinct serves statements,
    elaborateArms_congr agrees collected distinct serves statements]

omit statements

theorem elaborateCall_congr {e : Expr} (member : ⟨around, e⟩ ∈ programOccurrences bodies)
    {receiver : Option Expr} {name : String} {nameSpan : Span} {arguments : List Expr}
    {block : Option Block} (form : e.form = .call receiver name nameSpan arguments block) :
    elaborateCall cx elaborate here e.id receiver name nameSpan arguments block =
      elaborateCall cx other here e.id receiver name nameSpan arguments block := by
  have statements (b : Block) (given : b ∈ block) (s : Expr) (statement : s ∈ b.body) :
      ⟨.block b.id :: around, s⟩ ∈ programOccurrences bodies := by
    refine mem_program_of_within member ?_
    rw [form]
    exact List.mem_append_right _ (List.mem_flatMap.2
      ⟨b, Option.mem_toList.2 given, List.mem_map_of_mem statement⟩)
  refine withOperands_congr (fun part operand => ?_) fun parts ends => ?_
  · refine agrees.within serves member ?_
    rw [form]
    exact operand_within operand
  · dsimp only
    rw [elaborateDispatch_congr agrees collected distinct serves statements]

theorem elaborateForm_congr {e : Expr} (member : ⟨around, e⟩ ∈ programOccurrences bodies) :
    elaborateForm cx elaborate here e = elaborateForm cx other here e := by
  have inside {part : Expr} (inside : ⟨around, part⟩ ∈ e.form.within e.id around) :=
    agrees.within serves member inside
  simp only [elaborateForm]
  cases form : e.form with
  | literal _ | read _ | self | defMethod _ | defClass _ | defLib _ => rfl
  | assign v span value =>
    rw [form] at inside
    exact withOperand_congr (inside List.mem_cons_self) fun _ _ => rfl
  | call receiver name nameSpan arguments block =>
    exact elaborateCall_congr agrees collected distinct serves member form
  | yield arguments =>
    rw [form] at inside
    exact elaborateYield_congr agrees serves fun part written =>
      inside (List.mem_map_of_mem written)
  | «return» value | «break» value =>
    rw [form] at inside
    cases value with
    | none => rfl
    | some value => exact withOperand_congr (inside List.mem_cons_self) fun _ _ => rfl
  | conditional kind condition consequent alternative =>
    rw [form] at inside
    have statement {s : Expr} (written : s ∈ consequent ++ alternative.getD []) :
        elaborate here s = other here s :=
      inside (List.mem_map_of_mem (List.mem_cons_of_mem condition written))
    have first : elaborateBody elaborate here consequent = elaborateBody other here consequent :=
      elaborateBody_congr fun s written => statement (List.mem_append_left _ written)
    refine withOperand_congr (inside List.mem_cons_self) fun c _ => ?_
    cases alternative with
    | none => simp only [first]
    | some body =>
      have second : elaborateBody elaborate here body = elaborateBody other here body :=
        elaborateBody_congr fun s written => statement (List.mem_append_right _ written)
      simp only [first, second]
  | «while» condition body =>
    rw [form] at inside
    refine withOperand_congr (inside List.mem_cons_self) fun c _ => ?_
    have repeated (loop : LoopId) : elaborateBody elaborate (here.inLoop e.id loop) body =
        elaborateBody other (here.inLoop e.id loop) body := elaborateBody_congr fun s written =>
        agrees _ (.loop e.id :: around) s (serves.inLoop e.id _) <| mem_program_of_within member <| by
          rw [form]
          exact List.mem_cons_of_mem _ (List.mem_map_of_mem written)
    simp only [Place.inLoop] at repeated
    simp only [repeated]
  | logical connective left right =>
    rw [form] at inside
    have second : elaborate here right = other here right :=
      inside (List.mem_cons_of_mem _ List.mem_cons_self)
    refine withOperand_congr (inside List.mem_cons_self) fun l t => ?_
    simp only [second]
  | not operand =>
    rw [form] at inside
    exact withOperand_congr (inside List.mem_cons_self) fun _ _ => rfl

end Agreement

section Passes

variable {bodies : List (List Expr)} {cx : Setting} (distinct : (listIds bodies.flatten).Nodup)
  (collected : Definitions.ofBodies bodies = .ok cx.definitions)
  (resolved : resolveExits bodies = .ok cx.exits)

include distinct resolved

/-- Where a body serves, the exits and yields at the place have what they need. -/
theorem BodyContext.Serves.grounds {here : Place} {around : List ExitTarget}
    (serves : here.activation.Serves bodies around) {e : Expr}
    (member : ⟨around, e⟩ ∈ programOccurrences bodies) : here.grounds cx e = true := by
  have lexical := (exits_follow_nesting distinct).2.1 cx.exits resolved
  obtain ⟨outer, returns, breaks, yields, -, -⟩ := serves
  simp only [Place.grounds]
  cases form : e.form with
  | «return» value =>
    simp only [exitTarget?, lexical.returns _ member value form, Option.bind_some]
    exact returns
  | «break» value =>
    obtain ⟨target, leaves, found⟩ := lexical.breaks _ member value form
    simp only [exitTarget?, found, Option.bind_some]
    exact breaks target leaves
  | yield arguments => exact yields _ member ⟨arguments, form⟩ rfl
  | _ => rfl

theorem mainPlace_serves : mainPlace.activation.Serves bodies [] := by
  have lexical := (exits_follow_nesting distinct).2.1 cx.exits resolved
  refine .body rfl fun o member yield outside => ?_
  obtain ⟨id, inMethod, -⟩ := lexical.yields o member yield
  rw [inMethod] at outside
  cases outside

include collected

theorem elaborateGuarded_agrees (fuel : Nat) :
    Elaborate.Agrees bodies (elaborateGuarded cx fuel) (elaborateExpr cx fuel) := by
  induction fuel with
  | zero => exact fun _ _ _ _ _ => rfl
  | succ fuel ih =>
    intro here around e serves member
    have same := elaborateForm_congr ih collected distinct serves member
    rw [elaborateGuarded, if_pos (serves.grounds distinct resolved member), elaborateExpr, ← same,
      elaborateGuardedForm]
    split
    · rename_i receiver name nameSpan arguments block form
      simp only [elaborateForm, form]
      refine elaborateGuardedCall_eq fun part operand => ?_
      rw [ih.within serves member (by rw [form]; exact operand_within operand)]
      exact elaborateExpr_typed cx fuel here part
    · rfl

/-- In every pass over a program whose exits are resolved, each return and break that is elaborated
has a target at run time, each yield has a block, and each call knows the types of all its operands:
the pass is the same under the guards. Every method that dispatch finds is one of the program. -/
theorem passes_guarded :
    (∀ msg id, cx.definitions.dispatch? msg = some (.method id) →
        ∃ m, cx.definitions.method? id = some m) ∧
      ∀ fuel ts,
        elaborateBody (elaborateGuarded cx fuel) mainPlace bodies.flatten (enteredMain ts) =
            elaborateBody (elaborateExpr cx fuel) mainPlace bodies.flatten (enteredMain ts) ∧
          ∀ p s, elaborateProgram cx fuel bodies.flatten (PassState.start ts) = some (p, s) →
            ∃ body, elaborateBody (elaborateGuarded cx fuel) mainPlace bodies.flatten
              (enteredMain ts) = some (body, s) ∧ p = madeProgram cx body s := by
  refine ⟨fun msg id dispatched => ?_, fun fuel ts => ?_⟩
  · obtain ⟨m, found, -⟩ := Definitions.dispatch?_method
      (Definitions.ofBodies_consistent collected) dispatched
    exact ⟨m, found⟩
  · have same : elaborateBody (elaborateGuarded cx fuel) mainPlace bodies.flatten =
        elaborateBody (elaborateExpr cx fuel) mainPlace bodies.flatten :=
      elaborateBody_congr fun e statement => elaborateGuarded_agrees distinct collected resolved
        fuel _ [] e (mainPlace_serves distinct resolved) (mem_program_of_statement statement)
    refine ⟨congrFun same _, fun p s run => ?_⟩
    obtain ⟨body, runBody, made⟩ := elaborateProgram_steps run
    exact ⟨body, by rw [same, runBody], made⟩

end Passes

/-- A loop that yields, a block that is left, and a method that returns out of a block. -/
def countdownText : String :=
  "def each(n)\n  while n > 0\n    yield n\n    n = n - 1\n  end\n  return n\nend\n" ++
    "def find(n)\n  each(n) { |k| return k if k < 3 }\n  0\nend\n" ++
    "each(find(5)) do |k|\n  break k if k > 1\nend\n"

theorem countdownText_guarded : ∃ ms next exits definitions,
    Module.readAll ⟨0⟩ [countdownText] = .ok (ms, next) ∧
      resolveExits (ms.map (·.body)) = .ok exits ∧
      Definitions.ofBodies (ms.map (·.body)) = .ok definitions ∧
      let cx : Setting := ⟨definitions, exits, bindBlocks (ms.map (·.body)), Limits.standard⟩
      (∀ msg id, cx.definitions.dispatch? msg = some (.method id) →
          ∃ m, cx.definitions.method? id = some m) ∧
        ∀ fuel ts,
          elaborateBody (elaborateGuarded cx fuel) mainPlace (ms.map (·.body)).flatten
              (enteredMain ts) =
            elaborateBody (elaborateExpr cx fuel) mainPlace (ms.map (·.body)).flatten
              (enteredMain ts) ∧
            ∀ p s, elaborateProgram cx fuel (ms.map (·.body)).flatten (PassState.start ts) =
                some (p, s) →
              ∃ body, elaborateBody (elaborateGuarded cx fuel) mainPlace
                (ms.map (·.body)).flatten (enteredMain ts) = some (body, s) ∧
                  p = madeProgram cx body s := by
  obtain ⟨⟨ms, next⟩, read, sound⟩ := exists_value (Module.readAll ⟨0⟩ [countdownText])
    (fun r => (resolveExits (r.1.map (·.body))).isOk &&
      (Definitions.ofBodies (r.1.map (·.body))).isOk) (by decide +kernel)
  have distinct := (Module.readAll_ids read).1
  obtain ⟨resolves, collects⟩ := Bool.and_eq_true_iff.1 sound
  obtain ⟨exits, resolved⟩ := exists_ok _ resolves
  obtain ⟨definitions, collected⟩ := exists_ok _ collects
  exact ⟨ms, next, exits, definitions, read, resolved, collected,
    passes_guarded distinct collected resolved⟩

end TypedBlocks.Inference

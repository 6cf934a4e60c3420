import TypedBlocks.Proofs.ExitNesting

/-!
# Numbers of nodes and of their parts

A node gets its number when all its parts have been read, so it has a greater number than any of them.
Together with the counts of numbers this gives the law of numbers over a list of texts.
-/
namespace TypedBlocks

/-- Every node in the expression has got its number after its direct parts, in the methods that it
defines, too. -/
inductive Expr.AfterParts : Expr → Prop
  | intro {e : Expr} (own : ∀ d ∈ e.parts, d.id.val < e.id.val) (parts : ∀ d ∈ e.parts, AfterParts d)
      (bodies : ∀ m ∈ e.form.methods, ∀ d ∈ m.body, AfterParts d) : AfterParts e

/-- The expression is numbered so, itself with a number below `n`. -/
structure Expr.Below (n : Nat) (e : Expr) : Prop where
  afterParts : e.AfterParts
  id : e.id.val < n

/-- The form can get the number `n` or a later one. -/
structure Form.Below (n : Nat) (f : Form) : Prop where
  parts : ∀ d ∈ f.parts, d.Below n
  bodies : ∀ m ∈ f.methods, ∀ d ∈ m.body, d.AfterParts

section Numbers

variable {n n' : Nat} {e : Expr} {es : List Expr} {f : Form} {span : Span}

theorem Expr.Below.mono (below : e.Below n) (le : n ≤ n') : e.Below n' :=
  ⟨below.afterParts, Nat.lt_of_lt_of_le below.id le⟩

/-- A number is given to a form that can have it. -/
theorem Form.Below.node (below : f.Below n) (le : n ≤ n') : Expr.Below (n' + 1) ⟨⟨n'⟩, span, f⟩ where
  afterParts := .intro (fun d part => Nat.lt_of_lt_of_le (below.parts d part).id le)
    (fun d part => (below.parts d part).afterParts) below.bodies
  id := Nat.lt_succ_self n'

/-- A form that defines no methods. -/
theorem Form.Below.plain (parts : ∀ d ∈ f.parts, d.Below n) (methods : f.methods = []) : f.Below n :=
  ⟨parts, by simp [methods]⟩

/-- A form without anything inside. -/
theorem Form.Below.leaf (parts : f.parts = []) (methods : f.methods = []) : f.Below n :=
  .plain (by simp [parts]) methods

end Numbers

namespace Parser

variable {α β : Type} {p : Parser α} {f : α → Parser β} {n : Nat} {old : List Nat}
  {ids : α → List Nat} {good : Nat → α → Prop} {good' : Nat → β → Prop}

/-- Where all numbers below `n` have been given out, what the reader gives is good for the next number
that it leaves. -/
def Climbs (p : Parser α) (n : Nat) (good : Nat → α → Prop) : Prop :=
  ∀ s a s', n ≤ s.nextId.val → p s = .ok (a, s') →
    s.nextId.val ≤ s'.nextId.val ∧ good s'.nextId.val a

section Rules

theorem Climbs.bind (first : p.Climbs n good)
    (rest : ∀ n' a, n ≤ n' → good n' a → (f a).Climbs n' good') : (p >>= f).Climbs n good' := by
  intro s b s' le run
  obtain ⟨a, mid, one, two⟩ := bind_ok run
  obtain ⟨up, holds⟩ := first s a mid le one
  obtain ⟨up', holds'⟩ := rest _ a (Nat.le_trans le up) holds mid b s' (Nat.le_refl _) two
  exact ⟨Nat.le_trans up up', holds'⟩

/-- A reader of which only counts matter. -/
theorem Numbers.past (first : p.Numbers old ids) (rest : ∀ a, (f a).Climbs n good') :
    (p >>= f).Climbs n good' := by
  intro s b s' le run
  obtain ⟨a, mid, one, two⟩ := bind_ok run
  have up := (first s a mid one).1
  obtain ⟨up', holds⟩ := rest a mid b s' (Nat.le_trans le up) two
  exact ⟨Nat.le_trans up up', holds⟩

theorem Climbs.pure {a : α} (holds : ∀ n', n ≤ n' → good n' a) :
    (Pure.pure a : Parser α).Climbs n good := by
  intro s b s' le run
  cases run
  exact ⟨Nat.le_refl _, holds _ le⟩

theorem Climbs.map {g : α → β} (climbs : p.Climbs n good) (done : ∀ n' a, good n' a → good' n' (g a)) :
    (g <$> p).Climbs n good' := by
  intro s b s' le run
  obtain ⟨a, one, rfl⟩ := map_ok run
  obtain ⟨up, holds⟩ := climbs s a s' le one
  exact ⟨up, done _ a holds⟩

theorem Climbs.withLocals {names : List String → List String} (climbs : p.Climbs n good) :
    (withLocals names p).Climbs n good := by
  intro s a s' le run
  obtain ⟨mid, inside, rfl⟩ := withLocals_ok run
  exact climbs { s with locals := names s.locals } a mid le inside

theorem Climbs.fails (fails : ∀ s r, p s ≠ .ok r) : p.Climbs n good :=
  fun s a s' _ run => absurd run (fails s (a, s'))

theorem outOfFuel_climbs : (outOfFuel : Parser α).Climbs n good := .fails fun _ => outOfFuel_fails

theorem unexpected_climbs (what : Expectation) : (unexpected what : Parser α).Climbs n good :=
  .fails fun _ => unexpected_fails what

theorem unexpected_bind_climbs (what : Expectation) : (unexpected what >>= f).Climbs n good' :=
  .fails fun _ => unexpected_bind_fails what

theorem node_climbs {span : Span} {form : Form} (below : form.Below n) :
    (node span form).Climbs n Expr.Below := by
  intro s e s' le run
  cases run
  exact ⟨Nat.le_succ _, below.node le⟩

end Rules

/-- Nodes of a list are numbered after their parts and below `n`. -/
def AllBelow (n : Nat) (es : List Expr) : Prop := ∀ e ∈ es, e.Below n

theorem AllBelow.mono {n' : Nat} {es : List Expr} (below : AllBelow n es) (le : n ≤ n') :
    AllBelow n' es := fun e member => (below e member).mono le

/-- All nodes of a method are numbered after their parts. -/
def BodyAfterParts (_ : Nat) (m : MethodDef) : Prop := ∀ e ∈ m.body, e.AfterParts

/-- How the readers that call one another climb, as far as some fuel lets them read. -/
structure Climbing (fuel : Nat) : Prop where
  body : ∀ closes n, (body fuel closes).Climbs n AllBelow
  statement : ∀ n, (statement fuel).Climbs n Expr.Below
  modifiers : ∀ n e, e.Below n → (modifiers fuel e).Climbs n Expr.Below
  defExpression : ∀ n, (defExpression fuel).Climbs n Expr.Below
  methodDefinition : ∀ n, (methodDefinition fuel).Climbs n BodyAfterParts
  methodDefinitions : ∀ n, (methodDefinitions fuel).Climbs n fun n ms => ∀ m ∈ ms, BodyAfterParts n m
  classDefinition : ∀ n, (classDefinition fuel).Climbs n Expr.Below
  expression : ∀ n, (expression fuel).Climbs n Expr.Below
  assignment : ∀ target n, (assignment fuel target).Climbs n Expr.Below
  operators : ∀ level n, (operators fuel level).Climbs n Expr.Below
  operatorsAfter : ∀ level n left, left.Below n → (operatorsAfter fuel level left).Climbs n Expr.Below
  unary : ∀ n, (unary fuel).Climbs n Expr.Below
  members : ∀ n e, e.Below n → (members fuel e).Climbs n Expr.Below
  call : ∀ n receiver name, (∀ e ∈ receiver, e.Below n) → (call fuel receiver name).Climbs n Expr.Below
  arguments : ∀ n, (arguments fuel).Climbs n AllBelow
  argumentsTail : ∀ n, (argumentsTail fuel).Climbs n AllBelow
  commandArguments : ∀ n, (commandArguments fuel).Climbs n AllBelow
  block : ∀ n, (block fuel).Climbs n fun n b => AllBelow n b.body
  primary : ∀ n, (primary fuel).Climbs n Expr.Below
  exitValue : ∀ n, (exitValue fuel).Climbs n fun n value => AllBelow n value.toList
  conditional : ∀ kind n, (conditional fuel kind).Climbs n Expr.Below
  loop : ∀ n, (loop fuel).Climbs n Expr.Below

theorem Climbing.none : Climbing 0 := by
  constructor <;> intros <;> exact outOfFuel_climbs

section Steps

variable {fuel : Nat} (inner : Climbing fuel)
include inner

theorem statementAt_climbs (k : TokenKind) : (statementAt fuel k).Climbs n AllBelow := by
  unfold statementAt
  split
  · exact requirement_silent.past fun _ => .pure fun _ _ => List.forall_mem_nil _
  · exact (inner.statement n).map fun _ e below => List.forall_mem_singleton.2 below

theorem body_climbs (closes : TokenKind → Bool) : (body (fuel + 1) closes).Climbs n AllBelow := by
  rw [body_eq]
  refine passSeparators_silent.past fun _ => kindAhead_silent.past fun k => ?_
  split
  · exact .pure fun _ _ => List.forall_mem_nil _
  refine (statementAt_climbs inner k).bind fun n₁ first _ below => ?_
  refine (statementEnd_silent closes).past fun _ => ?_
  exact (inner.body closes n₁).bind fun n₂ others le after => .pure fun n₃ le' =>
    List.forall_mem_append.2 ⟨below.mono (Nat.le_trans le le'), after.mono le'⟩

theorem statement_climbs : (statement (fuel + 1)).Climbs n Expr.Below := by
  unfold statement
  refine kindAhead_silent.past fun k => ?_
  dsimp only
  have libs : (lib fuel).Climbs n Expr.Below := by
    unfold lib
    refine take_silent.past fun _ => (definedName_silent _ _).past fun _ => ?_
    refine (foreigns_silent fuel).past fun _ => ahead_silent.past fun _ => ?_
    exact (expect_silent _ _).past fun _ => node_climbs (.leaf rfl rfl)
  split
  · exact (inner.defExpression n).bind fun n₁ e _ => inner.modifiers n₁ e
  · exact (inner.classDefinition n).bind fun n₁ e _ => inner.modifiers n₁ e
  · exact libs.bind fun n₁ e _ => inner.modifiers n₁ e
  · exact (inner.expression n).bind fun n₁ e _ => inner.modifiers n₁ e

theorem guarded_climbs (kind : ConditionKind) {e : Expr} (below : e.Below n) :
    (guarded fuel kind e).Climbs n Expr.Below := by
  refine pass_silent.past fun _ => (inner.expression n).bind fun n₁ condition le tested => ?_
  have form : (Form.conditional kind condition [e] none).Below n₁ :=
    .plain (by simp [Form.parts, tested, below.mono le]) rfl
  exact (node_climbs form).bind fun n₂ guarded _ => inner.modifiers n₂ guarded

theorem modifiers_climbs {e : Expr} (below : e.Below n) :
    (modifiers (fuel + 1) e).Climbs n Expr.Below := by
  rw [modifiers_eq]
  refine kindAhead_silent.past fun k => ?_
  split
  · exact guarded_climbs inner .if below
  · exact guarded_climbs inner .unless below
  · exact .pure fun _ => below.mono

theorem defExpression_climbs : (defExpression (fuel + 1)).Climbs n Expr.Below := by
  unfold defExpression
  refine ahead_silent.past fun start => (inner.methodDefinition n).bind fun n₁ m _ body => ?_
  exact node_climbs ⟨List.forall_mem_nil _, List.forall_mem_singleton.2 body⟩

theorem methodParts_climbs : (methodParts fuel).Climbs n fun n r => AllBelow n r.2 := by
  refine (parameters_silent fuel).past fun ps => (declareAll_silent ps).past fun _ => ?_
  exact (inner.body _ n).bind fun n₁ statements _ after => .pure fun _ => after.mono

theorem methodDefinition_climbs : (methodDefinition (fuel + 1)).Climbs n BodyAfterParts := by
  rw [methodDefinition_eq]
  refine (expect_silent _ _).past fun _ => newId_numbers.past fun id => ?_
  refine (definedName_silent _ _).past fun name => ?_
  refine (methodParts_climbs inner).withLocals.bind fun n₁ r _ after => ?_
  exact (expect_silent _ _).past fun _ => .pure fun _ _ e member => (after e member).afterParts

theorem methodDefinitions_climbs : (methodDefinitions (fuel + 1)).Climbs n
    fun n ms => ∀ m ∈ ms, BodyAfterParts n m := by
  unfold methodDefinitions
  refine passSeparators_silent.past fun _ => kindAhead_silent.past fun k => ?_
  split
  · exact .pure fun _ _ => List.forall_mem_nil _
  · refine (inner.methodDefinition n).bind fun n₁ m _ body => ?_
    refine (inner.methodDefinitions n₁).bind fun n₂ ms _ bodies => ?_
    exact .pure fun _ _ => List.forall_mem_cons.2 ⟨body, bodies⟩
  · exact unexpected_climbs _

theorem classDefinition_climbs : (classDefinition (fuel + 1)).Climbs n Expr.Below := by
  unfold classDefinition
  refine take_silent.past fun _ => (definedName_silent _ _).past fun _ => ?_
  refine (typeParameters_silent _).past fun _ => (typeNameAfter_silent _).past fun _ => ?_
  refine (inner.methodDefinitions n).bind fun n₁ ms _ bodies => ahead_silent.past fun _ => ?_
  exact (expect_silent _ _).past fun _ => node_climbs ⟨List.forall_mem_nil _, bodies⟩

theorem expression_climbs : (expression (fuel + 1)).Climbs n Expr.Below := by
  unfold expression
  refine assignedVariable?_silent.past fun target => ?_
  split
  · exact inner.assignment _ n
  refine (inner.operators 0 n).bind fun n₁ condition _ tested => kindAhead_silent.past fun _ => ?_
  split
  · refine pass_silent.past fun _ => passNewlines_silent.past fun _ => ?_
    refine (inner.expression n₁).bind fun n₂ consequent le yes => passNewlines_silent.past fun _ => ?_
    refine (expect_silent _ _).past fun _ => passNewlines_silent.past fun _ => ?_
    refine (inner.expression n₂).bind fun n₃ alternative le' no => node_climbs (.plain ?_ rfl)
    simp [Form.parts, tested.mono (Nat.le_trans le le'), yes.mono le', no]
  · exact .pure fun _ => tested.mono

theorem assignedValue_climbs (target : Variable) (targetSpan : Span) (operator : Token) :
    (assignedValue fuel target targetSpan operator).Climbs n Expr.Below := by
  refine (inner.expression n).bind fun n₁ operand _ below => ?_
  split
  · exact .pure fun _ => below.mono
  · have read : (Form.read target).Below n₁ := .leaf rfl rfl
    refine (node_climbs read).bind fun n₂ current le before => node_climbs (.plain ?_ rfl)
    simp [Form.parts, before, below.mono le]

theorem assignment_climbs (target : Variable) :
    (assignment (fuel + 1) target).Climbs n Expr.Below := by
  rw [assignment_eq]
  refine take_silent.past fun targetToken => take_silent.past fun operator => ?_
  refine passNewlines_silent.past fun _ => (declareTarget_silent target).past fun _ => ?_
  exact (assignedValue_climbs inner target _ operator).bind fun n₁ value _ below =>
    node_climbs (.plain (List.forall_mem_singleton.2 below) rfl)

theorem operators_climbs (level : Nat) : (operators (fuel + 1) level).Climbs n Expr.Below := by
  unfold operators
  exact (inner.unary n).bind fun n₁ left _ => inner.operatorsAfter level n₁ left

theorem operatorsAfter_climbs (level : Nat) {left : Expr} (below : left.Below n) :
    (operatorsAfter (fuel + 1) level left).Climbs n Expr.Below := by
  unfold operatorsAfter
  refine kindAhead_silent.past fun k => ?_
  split
  · exact .pure fun _ => below.mono
  dsimp only
  split
  · exact .pure fun _ => below.mono
  refine take_silent.past fun operator => passNewlines_silent.past fun _ => ?_
  refine (inner.operators _ n).bind fun n₁ right le after => ?_
  refine (node_climbs ?_).bind fun n₂ e _ => inner.operatorsAfter level n₂ e
  have before := below.mono le
  split
  · exact .plain (by simp [Form.parts, before, after]) rfl
  split
  · exact .plain (by simp [Form.parts, before, after]) rfl
  · exact .plain (by simp [Form.parts, before, after]) rfl

theorem unary_climbs : (unary (fuel + 1)).Climbs n Expr.Below := by
  unfold unary
  refine kindAhead_silent.past fun k => ?_
  split
  · refine take_silent.past fun mark => (inner.unary n).bind fun n₁ operand _ below => ?_
    exact node_climbs (.plain (List.forall_mem_singleton.2 below) rfl)
  · refine take_silent.past fun mark => (inner.unary n).bind fun n₁ operand _ below => ?_
    have negated : (negation mark.span operand).Climbs n₁ Form.Below := by
      unfold negation
      split
      · split
        · exact .fails fun _ _ run => by cases run
        · exact .pure fun _ _ => .leaf rfl rfl
      · exact .pure fun _ _ => .leaf rfl rfl
      · exact .pure fun _ le => .plain (List.forall_mem_singleton.2 (below.mono le)) rfl
    exact negated.bind fun n₂ form _ => node_climbs
  · exact (inner.primary n).bind fun n₁ e _ => inner.members n₁ e

theorem members_climbs {e : Expr} (below : e.Below n) :
    (members (fuel + 1) e).Climbs n Expr.Below := by
  unfold members
  refine kindAhead_silent.past fun k => ?_
  split
  · refine pass_silent.past fun _ => passNewlines_silent.past fun _ => ?_
    refine ahead_silent.past fun name => ?_
    dsimp only
    split
    · refine pass_silent.past fun _ => (inner.call n (some e) name ?_).bind
        fun n₁ sent _ => inner.members n₁ sent
      simp [below]
    · exact unexpected_bind_climbs _
  · exact .pure fun _ => below.mono

theorem callWith_climbs {receiver : Option Expr} {args : List Expr} (name : Token)
    (below : AllBelow n (receiver.toList ++ args)) :
    (callWith fuel receiver name args).Climbs n Expr.Below := by
  refine kindAhead_silent.past fun k => ?_
  split
  · refine (inner.block n).bind fun n₁ b le inside => node_climbs (.plain ?_ rfl)
    exact List.forall_mem_append.2 ⟨below.mono le, inside⟩
  · refine node_climbs (.plain ?_ rfl)
    exact List.forall_mem_append.2 ⟨below, List.forall_mem_nil _⟩

theorem call_climbs {receiver : Option Expr} (name : Token) (below : ∀ e ∈ receiver, e.Below n) :
    (call (fuel + 1) receiver name).Climbs n Expr.Below := by
  rw [call_eq]
  refine (inner.arguments n).bind fun n₁ args le sent => callWith_climbs inner name ?_
  exact List.forall_mem_append.2
    ⟨fun e member => (below e (Option.mem_toList.1 member)).mono le, sent⟩

theorem arguments_climbs : (arguments (fuel + 1)).Climbs n AllBelow := by
  unfold arguments
  refine kindAhead_silent.past fun k => ?_
  split
  · refine pass_silent.past fun _ => passNewlines_silent.past fun _ => ?_
    refine (inner.argumentsTail n).bind fun n₁ args _ below => (expect_silent _ _).past fun _ => ?_
    exact .pure fun _ => below.mono
  split
  · exact inner.commandArguments n
  · exact .pure fun _ _ => List.forall_mem_nil _

theorem argumentsTail_climbs : (argumentsTail (fuel + 1)).Climbs n AllBelow := by
  rw [argumentsTail_eq]
  refine kindAhead_silent.past fun k => ?_
  split
  · exact .pure fun _ _ => List.forall_mem_nil _
  refine (inner.expression n).bind fun n₁ first _ below => passNewlines_silent.past fun _ => ?_
  refine (separator_silent looseComma_silent _ _).past fun _ => ?_
  exact (inner.argumentsTail n₁).bind fun n₂ others le after => .pure fun n₃ le' =>
    List.forall_mem_cons.2 ⟨below.mono (Nat.le_trans le le'), after.mono le'⟩

theorem commandArguments_climbs : (commandArguments (fuel + 1)).Climbs n AllBelow := by
  unfold commandArguments
  refine (inner.expression n).bind fun n₁ first _ below => kindAhead_silent.past fun k => ?_
  split
  · refine pass_silent.past fun _ => passNewlines_silent.past fun _ => ?_
    exact (inner.commandArguments n₁).bind fun n₂ others le after => .pure fun n₃ le' =>
      List.forall_mem_cons.2 ⟨below.mono (Nat.le_trans le le'), after.mono le'⟩
  · exact .pure fun _ le => List.forall_mem_singleton.2 (below.mono le)

theorem block_climbs : (block (fuel + 1)).Climbs n fun n b => AllBelow n b.body := by
  unfold block
  refine take_silent.past fun opening => newId_numbers.past fun id => ?_
  refine (blockParameters_silent fuel).past fun ps => ?_
  refine (inner.body _ n).withLocals.bind fun n₁ statements _ after => ahead_silent.past fun closing => ?_
  dsimp only
  split
  · exact (expect_silent _ _).past fun _ => .pure fun _ => after.mono
  · exact (expect_silent _ _).past fun _ => .pure fun _ => after.mono

theorem primary_climbs : (primary (fuel + 1)).Climbs n Expr.Below := by
  unfold primary
  refine ahead_silent.past fun t => ?_
  have leaf (form : Form) (parts : form.parts = []) (methods : form.methods = []) :
      (pass >>= fun _ => node t.span form).Climbs n Expr.Below :=
    pass_silent.past fun _ => node_climbs (.leaf parts methods)
  split
  · exact leaf _ rfl rfl
  split
  · refine pass_silent.past fun _ => (isVariable_silent _).past fun _ => ?_
    refine kindAhead_silent.past fun _ => ?_
    split
    · exact node_climbs (.leaf rfl rfl)
    · exact inner.call n none t (by simp)
  · exact leaf _ rfl rfl
  · exact leaf _ rfl rfl
  · exact leaf _ rfl rfl
  · exact leaf _ rfl rfl
  · refine pass_silent.past fun _ => passNewlines_silent.past fun _ => ?_
    refine (inner.expression n).bind fun n₁ e _ below => passNewlines_silent.past fun _ => ?_
    refine ahead_silent.past fun _ => (expect_silent _ _).past fun _ => ?_
    -- Parentheses change the span of the node that they enclose, and neither its number nor its parts.
    refine .pure fun _ le => ⟨?_, Nat.lt_of_lt_of_le below.id le⟩
    obtain ⟨own, parts, bodies⟩ := below.afterParts
    exact .intro own parts bodies
  · refine pass_silent.past fun _ => (inner.arguments n).bind fun n₁ args _ below => ?_
    exact node_climbs (.plain below rfl)
  · refine pass_silent.past fun _ => (inner.exitValue n).bind fun n₁ value _ below => ?_
    exact node_climbs (.plain below rfl)
  · refine pass_silent.past fun _ => (inner.exitValue n).bind fun n₁ value _ below => ?_
    exact node_climbs (.plain below rfl)
  · exact inner.conditional .if n
  · exact inner.conditional .unless n
  · exact inner.loop n
  · exact unexpected_climbs _

theorem exitValue_climbs : (exitValue (fuel + 1)).Climbs n fun n value => AllBelow n value.toList := by
  unfold exitValue
  refine kindAhead_silent.past fun k => ?_
  split
  · exact (inner.expression n).map fun _ e below => List.forall_mem_singleton.2 below
  · exact .pure fun _ _ => List.forall_mem_nil _

theorem elseBranch_climbs (k : TokenKind) :
    (elseBranch fuel k).Climbs n fun n other => AllBelow n (other.getD []) := by
  unfold elseBranch
  split
  · exact pass_silent.past fun _ => (inner.body _ n).map fun _ es below => below
  · exact .pure fun _ _ => List.forall_mem_nil _

theorem conditional_climbs (kind : ConditionKind) :
    (conditional (fuel + 1) kind).Climbs n Expr.Below := by
  rw [conditional_eq]
  refine take_silent.past fun start => (inner.expression n).bind fun n₁ condition _ tested => ?_
  refine (inner.body _ n₁).bind fun n₂ consequent le yes => kindAhead_silent.past fun k => ?_
  have before : AllBelow n₂ (condition :: consequent) :=
    List.forall_mem_cons.2 ⟨tested.mono le, yes⟩
  split
  · refine (inner.conditional .if n₂).bind fun n₃ nested le' below => node_climbs (.plain ?_ rfl)
    exact List.forall_mem_append.2 ⟨before.mono le', List.forall_mem_singleton.2 below⟩
  · refine (elseBranch_climbs inner k).bind fun n₃ other le' no => ahead_silent.past fun last => ?_
    refine (expect_silent _ _).past fun _ => node_climbs (.plain ?_ rfl)
    exact List.forall_mem_append.2 ⟨before.mono le', no⟩

theorem loop_climbs : (loop (fuel + 1)).Climbs n Expr.Below := by
  unfold loop
  refine take_silent.past fun start => (inner.expression n).bind fun n₁ condition _ tested => ?_
  refine (inner.body _ n₁).bind fun n₂ statements le after => ahead_silent.past fun last => ?_
  refine (expect_silent _ _).past fun _ => node_climbs (.plain ?_ rfl)
  exact List.forall_mem_cons.2 ⟨tested.mono le, after⟩

end Steps

theorem climbing (fuel : Nat) : Climbing fuel := by
  induction fuel with
  | zero => exact .none
  | succ fuel inner => exact
    { body := fun closes _ => body_climbs inner closes
      statement := fun _ => statement_climbs inner
      modifiers := fun _ _ => modifiers_climbs inner
      defExpression := fun _ => defExpression_climbs inner
      methodDefinition := fun _ => methodDefinition_climbs inner
      methodDefinitions := fun _ => methodDefinitions_climbs inner
      classDefinition := fun _ => classDefinition_climbs inner
      expression := fun _ => expression_climbs inner
      assignment := fun target _ => assignment_climbs inner target
      operators := fun level _ => operators_climbs inner level
      operatorsAfter := fun level _ _ => operatorsAfter_climbs inner level
      unary := fun _ => unary_climbs inner
      members := fun _ _ => members_climbs inner
      call := fun _ _ name => call_climbs inner name
      arguments := fun _ => arguments_climbs inner
      argumentsTail := fun _ => argumentsTail_climbs inner
      commandArguments := fun _ => commandArguments_climbs inner
      block := fun _ => block_climbs inner
      primary := fun _ => primary_climbs inner
      exitValue := fun _ => exitValue_climbs inner
      conditional := fun kind _ => conditional_climbs inner kind
      loop := fun _ => loop_climbs inner }

end Parser

namespace Module

/-- The modules of texts that are read one after another, each from the first number that the one before
leaves free: a module has its numbers between that number and the one that it leaves free itself. -/
inductive NumberedInTurn : NodeId → List String → List Module → NodeId → Prop
  | nil {first : NodeId} : NumberedInTurn first [] [] first
  | cons {first mid next : NodeId} {text : String} {texts : List String} {m : Module} {ms : List Module}
      (reads : read first text = .ok (m, mid))
      (between : ∀ i ∈ listIds m.body, first.val ≤ i ∧ i < mid.val)
      (rest : NumberedInTurn mid texts ms next) : NumberedInTurn first (text :: texts) (m :: ms) next

theorem parse_between {first next : NodeId} {tokens : List Token} {m : Module}
    (parsed : parse first tokens = .ok (m, next)) :
    ∀ i ∈ listIds m.body, first.val ≤ i ∧ i < next.val := by
  intro i member
  have once := Nat.lt_of_lt_of_le (List.count_pos_iff.2 member) ((parse_numbers parsed).2 i)
  exact Parser.between_of_fresh once

theorem parse_afterParts {first next : NodeId} {tokens : List Token} {m : Module}
    (parsed : parse first tokens = .ok (m, next)) : ∀ e ∈ m.body, e.AfterParts := by
  obtain ⟨s, run, -⟩ := parse_ok parsed
  have below := ((Parser.climbing _).body _ _ _ _ _ (Nat.le_refl _) run).2
  exact fun e member => (below e member).afterParts

theorem readAll_inTurn {first next : NodeId} {texts : List String} {ms : List Module}
    (read : readAll first texts = .ok (ms, next)) :
    NumberedInTurn first texts ms next ∧ ∀ m ∈ ms, ∀ e ∈ m.body, e.AfterParts := by
  induction texts generalizing first ms with
  | nil =>
    cases read
    exact ⟨.nil, List.forall_mem_nil _⟩
  | cons text texts ih =>
    obtain ⟨m, mid, others, one, rest, rfl⟩ := readAll_cons read
    obtain ⟨tokens, -, parsed⟩ := read_ok one
    obtain ⟨turn, nodes⟩ := ih rest
    have own := parse_afterParts parsed
    exact ⟨.cons one (parse_between parsed) turn, List.forall_mem_cons.2 ⟨own, nodes⟩⟩

/-- The expressions, blocks and methods in texts that are read one after another have numbers of their
own, which are none that 32 bits cut off as long as the next free one is not; a module has the numbers
between that which it is read from and that which it leaves free; and an expression has a greater
number than its direct parts. -/
theorem readAll_numbers_nodes {first next : NodeId} {texts : List String} {ms : List Module}
    (read : readAll first texts = .ok (ms, next)) :
    (listIds (ms.map (·.body)).flatten).Nodup ∧
    (next.val < UInt32.size → ∀ i ∈ listIds (ms.map (·.body)).flatten, (UInt32.ofNat i).toNat = i) ∧
    NumberedInTurn first texts ms next ∧ ∀ m ∈ ms, ∀ e ∈ m.body, e.AfterParts := by
  obtain ⟨once, between⟩ := readAll_ids read
  refine ⟨once, fun fits i member => ?_, readAll_inTurn read⟩
  have below := (between i member).2
  exact UInt32.toNat_ofNat_of_lt' (Nat.lt_trans below fits)

/-- Methods of a class, nested definitions, an inner expression, a negated number, a compound
assignment, another condition, modifiers, and blocks in blocks. -/
def numberedText : String :=
  "class A\n def f(x)\n  def g\n   yield 1\n  end\n  x += -(2)\n end\nend\n" ++
  "if a then_do \x7b |y| b do\n y\n end \x7d\nelsif c\n 1\nend if 2 unless 3"

theorem numberedText_numbers : ∃ ms next,
    readAll ⟨0⟩ [numberedText, "x = (1)", numberedText] = .ok (ms, next) ∧
    next.val < UInt32.size ∧ (listIds (ms.map (·.body)).flatten).Nodup ∧
    (∀ i ∈ listIds (ms.map (·.body)).flatten, (UInt32.ofNat i).toNat = i) ∧
    NumberedInTurn ⟨0⟩ [numberedText, "x = (1)", numberedText] ms next ∧
    ∀ m ∈ ms, ∀ e ∈ m.body, e.AfterParts := by
  obtain ⟨⟨ms, next⟩, read, fits⟩ :=
    exists_value (readAll ⟨0⟩ [numberedText, "x = (1)", numberedText])
      (fun r => r.2.val < UInt32.size) (by decide +kernel)
  have fits : next.val < UInt32.size := of_decide_eq_true fits
  obtain ⟨once, words, turn, nodes⟩ := readAll_numbers_nodes read
  exact ⟨ms, next, read, fits, once, words fits, turn, nodes⟩

end Module

end TypedBlocks

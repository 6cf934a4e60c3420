import TypedBlocks.Proofs.ReaderSteps

/-!
# Numbers of nodes

The numbers that a reader gives to expressions, blocks and methods are all different, and lie between
the first number it may use and the next free one.
-/
namespace TypedBlocks

mutual

/-- The numbers of an expression and of all nodes in it, definitions included. -/
def Expr.ids : Expr → List Nat
  | ⟨id, _, form⟩ => id.val :: form.ids

def Form.ids : Form → List Nat
  | .literal _ | .read _ | .self | .defLib _ => []
  | .assign _ _ value => value.ids
  | .call receiver _ _ arguments block => optionIds receiver ++ listIds arguments ++ blockIds block
  | .yield arguments => listIds arguments
  | .return value | .break value => optionIds value
  | .conditional _ condition consequent alternative =>
    condition.ids ++ listIds consequent ++ bodyIds alternative
  | .while condition body => condition.ids ++ listIds body
  | .logical _ left right => left.ids ++ right.ids
  | .not operand => operand.ids
  | .defMethod m => m.ids
  | .defClass ⟨_, _, _, _, methods⟩ => methodsIds methods

def MethodDef.ids : MethodDef → List Nat
  | ⟨id, _, _, _, body⟩ => id.val :: listIds body

def methodsIds : List MethodDef → List Nat
  | [] => []
  | m :: ms => m.ids ++ methodsIds ms

def listIds : List Expr → List Nat
  | [] => []
  | e :: es => e.ids ++ listIds es

def optionIds : Option Expr → List Nat
  | none => []
  | some e => e.ids

def bodyIds : Option (List Expr) → List Nat
  | none => []
  | some es => listIds es

def blockIds : Option Block → List Nat
  | none => []
  | some ⟨id, _, _, body⟩ => id.val :: listIds body

end

def Block.ids (b : Block) : List Nat := blockIds (some b)

@[simp] theorem listIds_append (es fs : List Expr) : listIds (es ++ fs) = listIds es ++ listIds fs := by
  induction es with
  | nil => rfl
  | cons e es ih => simp only [List.cons_append, listIds, ih, List.append_assoc]

namespace Parser

variable {α β : Type} {old : List Nat} {ids : α → List Nat} {ids' : β → List Nat}

/-- One for the numbers given out between two states. -/
def fresh (first next i : Nat) : Nat := if first ≤ i ∧ i < next then 1 else 0

theorem between_of_fresh {first next i : Nat} (given : 0 < fresh first next i) : first ≤ i ∧ i < next := by
  unfold fresh at given
  split at given
  · assumption
  · omega

theorem fresh_add {first mid next : Nat} (start : first ≤ mid) (rest : mid ≤ next) (i : Nat) :
    fresh first mid i + fresh mid next i = fresh first next i := by
  unfold fresh
  by_cases before : i < mid
  · simp only [before, show ¬ mid ≤ i by omega, show i < next by omega, false_and, if_false]
    simp
  · simp only [before, show mid ≤ i by omega, show first ≤ i by omega, and_false, if_false]
    simp

/-- Every number in a result is in `old` or new, and a new one occurs once. -/
def Numbers (old : List Nat) (ids : α → List Nat) (p : Parser α) : Prop :=
  ∀ s a s', p s = .ok (a, s') → s.nextId.val ≤ s'.nextId.val ∧
    ∀ i, (ids a).count i ≤ old.count i + fresh s.nextId.val s'.nextId.val i

/-- A reader whose result has no nodes. -/
def Silent (p : Parser α) : Prop := p.Numbers [] fun _ => []

theorem Numbers.andThen {p : Parser α} {f : α → Parser β} (first : p.Numbers old ids)
    (rest : ∀ a, (f a).Numbers (ids a) ids') : (p >>= f).Numbers old ids' := by
  intro s b s' run
  obtain ⟨a, mid, run_first, run_rest⟩ := bind_ok run
  obtain ⟨le_first, count_first⟩ := first s a mid run_first
  obtain ⟨le_rest, count_rest⟩ := rest a mid b s' run_rest
  refine ⟨Nat.le_trans le_first le_rest, fun i => ?_⟩
  have all := fresh_add le_first le_rest i
  have earlier := count_first i
  have later := count_rest i
  omega

theorem Numbers.frame {p : Parser α} (numbers : p.Numbers [] ids) :
    p.Numbers old fun a => old ++ ids a := by
  intro s a s' run
  obtain ⟨le_next, count⟩ := numbers s a s' run
  refine ⟨le_next, fun i => ?_⟩
  have new := count i
  rw [List.count_nil, Nat.zero_add] at new
  rw [List.count_append]
  exact Nat.add_le_add_left new _

theorem Numbers.bind {p : Parser α} {f : α → Parser β} (first : p.Numbers [] ids)
    (rest : ∀ a, (f a).Numbers (old ++ ids a) ids') : (p >>= f).Numbers old ids' :=
  first.frame.andThen rest

theorem Silent.bind {p : Parser α} {f : α → Parser β} (first : p.Silent)
    (rest : ∀ a, (f a).Numbers old ids') : (p >>= f).Numbers old ids' :=
  Numbers.bind first fun a => by
    rw [List.append_nil]
    exact rest a

theorem Numbers.pure {a : α} (known : ∀ i, (ids a).count i ≤ old.count i) :
    (pure a : Parser α).Numbers old ids := by
  intro s b s' run
  cases run
  exact ⟨Nat.le_refl _, fun i => Nat.le_add_right_of_le (known i)⟩

theorem Numbers.map {p : Parser α} {f : α → β} (numbers : p.Numbers old ids)
    (same : ∀ a, ids' (f a) = ids a) : (f <$> p).Numbers old ids' := by
  intro s b s' run
  obtain ⟨a, first, rfl⟩ := map_ok run
  rw [same]
  exact numbers s a s' first

theorem Numbers.withLocals {p : Parser α} (names : List String → List String)
    (numbers : p.Numbers old ids) : (withLocals names p).Numbers old ids := by
  intro s a s' run
  obtain ⟨mid, inside, rfl⟩ := withLocals_ok run
  exact numbers { s with locals := names s.locals } a mid inside

theorem Numbers.fails {p : Parser α} (fails : ∀ s r, p s ≠ .ok r) : p.Numbers old ids :=
  fun s a s' run => absurd run (fails s (a, s'))

theorem outOfFuel_numbers : (outOfFuel : Parser α).Numbers old ids :=
  Numbers.fails fun _ => outOfFuel_fails

theorem unexpected_numbers (what : Expectation) : (unexpected what : Parser α).Numbers old ids :=
  Numbers.fails fun _ => unexpected_fails what

/-- After an error nothing is read. -/
theorem unexpected_bind_numbers (what : Expectation) (f : α → Parser β) :
    (unexpected what >>= f).Numbers old ids' :=
  Numbers.fails fun _ => unexpected_bind_fails what

theorem Silent.of_same {p : Parser α} (same : ∀ s a s', p s = .ok (a, s') → s'.nextId = s.nextId) :
    p.Silent := by
  intro s a s' run
  rw [same s a s' run]
  exact ⟨Nat.le_refl _, fun i => Nat.zero_le _⟩

theorem Silent.pure (a : α) : (Pure.pure a : Parser α).Silent := Numbers.pure fun _ => Nat.le_refl _

theorem ahead_silent : ahead.Silent := Silent.of_same fun _ _ _ run => by
  rw [(ahead_ok run).2]

theorem kindAhead_silent : kindAhead.Silent := ahead_silent.bind fun _ => Silent.pure _

theorem secondKind_silent : secondKind.Silent := Silent.of_same fun _ _ _ run => by cases run; rfl

theorem take_silent : take.Silent := Silent.of_same fun _ _ _ run => by
  obtain ⟨_, _, -, ⟨-, rfl⟩ | ⟨-, -, rfl⟩⟩ := take_ok run <;> rfl

theorem pass_silent : pass.Silent := take_silent.bind fun _ => Silent.pure _

theorem expect_silent (kind : TokenKind) (what : Expectation) : (expect kind what).Silent := by
  refine kindAhead_silent.bind fun k => ?_
  split
  · exact pass_silent
  · exact unexpected_numbers what

theorem passWhile_silent (p : TokenKind → Bool) : (passWhile p).Silent :=
  Silent.of_same fun _ _ _ run => (passWhile_ok run).2.1

theorem passNewlines_silent : passNewlines.Silent := passWhile_silent _

theorem passSeparators_silent : passSeparators.Silent := passWhile_silent _

theorem declare_silent (name : String) : (declare name).Silent :=
  Silent.of_same fun _ _ _ run => by cases run; rfl

theorem declareAll_silent (ps : List Parameter) : (ps.forM fun p => declare p.name).Silent := by
  induction ps with
  | nil => exact Silent.pure _
  | cons p ps ih => exact (declare_silent p.name).bind fun _ => ih

theorem isVariable_silent (name : String) : (isVariable name).Silent :=
  Silent.of_same fun _ _ _ run => by cases run; rfl

theorem separator_silent {comma : Parser Unit} (silent : comma.Silent) (closing : Mark)
    (what : Expectation) : (separator comma closing what).Silent := by
  refine kindAhead_silent.bind fun k => ?_
  split
  · exact silent
  split
  · exact Silent.pure _
  · exact unexpected_numbers what

theorem looseComma_silent : looseComma.Silent := pass_silent.bind fun _ => passNewlines_silent

theorem statementEnd_silent (closes : TokenKind → Bool) : (statementEnd closes).Silent := by
  refine kindAhead_silent.bind fun k => ?_
  split
  · exact pass_silent
  split
  · exact Silent.pure _
  · exact unexpected_numbers _

theorem declareTarget_silent (target : Variable) : (declareTarget target).Silent := by
  unfold declareTarget
  split
  · exact declare_silent _
  · exact Silent.pure _

theorem newId_numbers : newId.Numbers [] fun id => [id.val] := by
  intro s id s' run
  cases run
  refine ⟨Nat.le_succ _, fun i => ?_⟩
  rw [List.count_nil, Nat.zero_add, List.count_singleton]
  unfold fresh
  by_cases same : s.nextId.val = i
  · simp [same]
  · simp [same]

theorem node_numbers {span : Span} {form : Form}
    (known : ∀ i, form.ids.count i ≤ old.count i) : (node span form).Numbers old Expr.ids := by
  refine newId_numbers.bind fun id => Numbers.pure fun i => ?_
  have inner := known i
  rw [Expr.ids, List.count_append, List.count_cons, List.count_singleton]
  simp only [beq_iff_eq] at *
  omega

theorem typeName_silent : typeName.Silent := by
  unfold typeName
  refine ahead_silent.bind fun t => ?_
  split
  · exact pass_silent.bind fun _ => Silent.pure _
  · exact pass_silent.bind fun _ => Silent.pure _
  · exact unexpected_numbers _

theorem typeNameAfter_silent (m : Mark) : (typeNameAfter m).Silent := by
  unfold typeNameAfter
  refine kindAhead_silent.bind fun k => ?_
  split
  · exact pass_silent.bind fun _ => typeName_silent.bind fun _ => Silent.pure _
  · exact Silent.pure _

theorem definedName_silent (kind : TokenKind) (what : Expectation) :
    (definedName kind what).Silent := by
  unfold definedName
  refine ahead_silent.bind fun t => ?_
  dsimp only
  split
  · exact take_silent
  · exact unexpected_bind_numbers _ _

theorem parametersTail_silent (fuel : Nat) : (parametersTail fuel).Silent := by
  induction fuel with
  | zero => exact outOfFuel_numbers
  | succ fuel ih =>
    rw [parametersTail_eq]
    refine kindAhead_silent.bind fun k => ?_
    split
    · exact Silent.pure _
    refine ahead_silent.bind fun name => ?_
    dsimp only
    split
    · refine pass_silent.bind fun _ => (typeNameAfter_silent _).bind fun _ => ?_
      refine passNewlines_silent.bind fun _ => ?_
      exact (separator_silent looseComma_silent _ _).bind fun _ => ih.bind fun _ => Silent.pure _
    · exact unexpected_bind_numbers _ _

theorem parameters_silent (fuel : Nat) : (parameters fuel).Silent := by
  unfold parameters
  refine kindAhead_silent.bind fun k => ?_
  split
  · refine pass_silent.bind fun _ => passNewlines_silent.bind fun _ => ?_
    exact (parametersTail_silent fuel).bind fun _ =>
      (expect_silent _ _).bind fun _ => Silent.pure _
  · exact Silent.pure _

theorem typeParametersTail_silent (fuel : Nat) : (typeParametersTail fuel).Silent := by
  induction fuel with
  | zero => exact outOfFuel_numbers
  | succ fuel ih =>
    unfold typeParametersTail
    refine typeName_silent.bind fun _ => kindAhead_silent.bind fun _ => ?_
    split
    · exact pass_silent.bind fun _ => ih.bind fun _ => Silent.pure _
    · exact Silent.pure _

theorem typeParameters_silent (fuel : Nat) : (typeParameters fuel).Silent := by
  unfold typeParameters
  refine kindAhead_silent.bind fun k => ?_
  split
  · refine pass_silent.bind fun _ => (typeParametersTail_silent fuel).bind fun _ => ?_
    exact (expect_silent _ _).bind fun _ => Silent.pure _
  · exact Silent.pure _

theorem foreigns_silent (fuel : Nat) : (foreigns fuel).Silent := by
  induction fuel with
  | zero => exact outOfFuel_numbers
  | succ fuel ih =>
    unfold foreigns
    refine passSeparators_silent.bind fun _ => kindAhead_silent.bind fun k => ?_
    split
    · exact Silent.pure _
    · refine pass_silent.bind fun _ => (definedName_silent _ _).bind fun _ => ?_
      refine (parameters_silent fuel).bind fun _ => (typeNameAfter_silent _).bind fun _ => ?_
      exact ih.bind fun _ => Silent.pure _
    · exact unexpected_numbers _

theorem lib_numbers (fuel : Nat) : (lib fuel).Numbers [] Expr.ids := by
  unfold lib
  refine take_silent.bind fun _ => (definedName_silent _ _).bind fun _ => ?_
  refine (foreigns_silent fuel).bind fun _ => ahead_silent.bind fun _ => ?_
  exact (expect_silent _ _).bind fun _ => node_numbers fun _ => Nat.le_refl _

theorem requirement_silent : requirement.Silent := by
  unfold requirement
  refine pass_silent.bind fun _ => kindAhead_silent.bind fun k => ?_
  split
  · exact pass_silent
  · exact unexpected_numbers _

theorem blockParametersTail_silent (fuel : Nat) : (blockParametersTail fuel).Silent := by
  induction fuel with
  | zero => exact outOfFuel_numbers
  | succ fuel ih =>
    rw [blockParametersTail_eq]
    refine kindAhead_silent.bind fun k => ?_
    split
    · exact Silent.pure _
    refine (definedName_silent _ _).bind fun name => ?_
    exact (separator_silent pass_silent _ _).bind fun _ => ih.bind fun _ => Silent.pure _

theorem blockParameters_silent (fuel : Nat) : (blockParameters fuel).Silent := by
  unfold blockParameters
  refine kindAhead_silent.bind fun k => ?_
  split
  · refine pass_silent.bind fun _ => (blockParametersTail_silent fuel).bind fun _ => ?_
    exact pass_silent.bind fun _ => Silent.pure _
  · exact Silent.pure _

theorem assignedVariable?_silent : assignedVariable?.Silent := by
  unfold assignedVariable?
  refine ahead_silent.bind fun t => secondKind_silent.bind fun k => ?_
  split
  · exact Silent.pure _
  · exact Silent.pure _

theorem negation_numbers (minus : Span) (operand : Expr) :
    (negation minus operand).Numbers operand.ids Form.ids := by
  unfold negation
  split
  · split
    · exact Numbers.fails fun _ _ run => by cases run
    · exact Numbers.pure fun i => Nat.zero_le _
  · exact Numbers.pure fun i => Nat.zero_le _
  · exact Numbers.pure fun i => by simp [Form.ids, optionIds, listIds, blockIds]

/-- What the readers that call one another number, as far as some fuel lets them read. -/
structure Numbering (fuel : Nat) : Prop where
  body : ∀ closes, (body fuel closes).Numbers [] listIds
  statement : (statement fuel).Numbers [] Expr.ids
  modifiers : ∀ e, (modifiers fuel e).Numbers e.ids Expr.ids
  defExpression : (defExpression fuel).Numbers [] Expr.ids
  methodDefinition : (methodDefinition fuel).Numbers [] MethodDef.ids
  methodDefinitions : (methodDefinitions fuel).Numbers [] methodsIds
  classDefinition : (classDefinition fuel).Numbers [] Expr.ids
  expression : (expression fuel).Numbers [] Expr.ids
  assignment : ∀ target, (assignment fuel target).Numbers [] Expr.ids
  operators : ∀ level, (operators fuel level).Numbers [] Expr.ids
  operatorsAfter : ∀ level left, (operatorsAfter fuel level left).Numbers left.ids Expr.ids
  unary : (unary fuel).Numbers [] Expr.ids
  members : ∀ e, (members fuel e).Numbers e.ids Expr.ids
  call : ∀ receiver name, (call fuel receiver name).Numbers (optionIds receiver) Expr.ids
  arguments : (arguments fuel).Numbers [] listIds
  argumentsTail : (argumentsTail fuel).Numbers [] listIds
  commandArguments : (commandArguments fuel).Numbers [] listIds
  block : (block fuel).Numbers [] Block.ids
  primary : (primary fuel).Numbers [] Expr.ids
  exitValue : (exitValue fuel).Numbers [] optionIds
  conditional : ∀ kind, (conditional fuel kind).Numbers [] Expr.ids
  loop : (loop fuel).Numbers [] Expr.ids

theorem Numbering.none : Numbering 0 := by
  constructor <;> intros <;> exact outOfFuel_numbers

section Steps

variable {fuel : Nat} (inner : Numbering fuel)
include inner

theorem statementAt_numbers (k : TokenKind) : (statementAt fuel k).Numbers [] listIds := by
  unfold statementAt
  split
  · exact requirement_silent.bind fun _ => Numbers.pure fun _ => Nat.le_refl _
  · exact inner.statement.map fun e => List.append_nil e.ids

theorem body_numbers (closes : TokenKind → Bool) : (body (fuel + 1) closes).Numbers [] listIds := by
  rw [body_eq]
  refine passSeparators_silent.bind fun _ => kindAhead_silent.bind fun k => ?_
  split
  · exact Numbers.pure fun _ => Nat.le_refl _
  refine (statementAt_numbers inner k).bind fun first => (statementEnd_silent closes).bind fun _ => ?_
  exact (inner.body closes).bind fun rest => Numbers.pure fun i => by
    simp only [listIds_append, List.nil_append, Nat.le_refl]

theorem statement_numbers : (statement (fuel + 1)).Numbers [] Expr.ids := by
  unfold statement
  refine kindAhead_silent.bind fun k => ?_
  dsimp only
  split
  · exact inner.defExpression.bind inner.modifiers
  · exact inner.classDefinition.bind inner.modifiers
  · exact (lib_numbers fuel).bind inner.modifiers
  · exact inner.expression.bind inner.modifiers

theorem guarded_numbers (kind : ConditionKind) (e : Expr) :
    (guarded fuel kind e).Numbers e.ids Expr.ids := by
  refine pass_silent.bind fun _ => inner.expression.bind fun condition => ?_
  refine (node_numbers fun i => ?_).andThen inner.modifiers
  simp only [Form.ids, listIds, bodyIds, List.count_append, List.count_nil]
  omega

theorem modifiers_numbers (e : Expr) : (modifiers (fuel + 1) e).Numbers e.ids Expr.ids := by
  rw [modifiers_eq]
  refine kindAhead_silent.bind fun k => ?_
  split
  · exact guarded_numbers inner .if e
  · exact guarded_numbers inner .unless e
  · exact Numbers.pure fun _ => Nat.le_refl _

theorem defExpression_numbers : (defExpression (fuel + 1)).Numbers [] Expr.ids := by
  unfold defExpression
  refine ahead_silent.bind fun start => inner.methodDefinition.bind fun m => ?_
  exact node_numbers fun _ => Nat.le_refl _

theorem methodParts_numbers : (methodParts fuel).Numbers [] fun r => listIds r.2 := by
  refine (parameters_silent fuel).bind fun ps => (declareAll_silent ps).bind fun _ => ?_
  exact (inner.body _).bind fun statements => Numbers.pure fun _ => Nat.le_refl _

theorem methodDefinition_numbers : (methodDefinition (fuel + 1)).Numbers [] MethodDef.ids := by
  rw [methodDefinition_eq]
  refine (expect_silent _ _).bind fun _ => newId_numbers.bind fun id => ?_
  refine (definedName_silent _ _).bind fun name => ?_
  refine ((methodParts_numbers inner).withLocals _).bind fun r => (expect_silent _ _).bind fun _ => ?_
  exact Numbers.pure fun _ => Nat.le_refl _

theorem methodDefinitions_numbers : (methodDefinitions (fuel + 1)).Numbers [] methodsIds := by
  unfold methodDefinitions
  refine passSeparators_silent.bind fun _ => kindAhead_silent.bind fun k => ?_
  split
  · exact Numbers.pure fun _ => Nat.le_refl _
  · refine inner.methodDefinition.bind fun m => inner.methodDefinitions.bind fun ms => ?_
    exact Numbers.pure fun _ => Nat.le_refl _
  · exact unexpected_numbers _

theorem classDefinition_numbers : (classDefinition (fuel + 1)).Numbers [] Expr.ids := by
  unfold classDefinition
  refine take_silent.bind fun _ => (definedName_silent _ _).bind fun _ => ?_
  refine (typeParameters_silent _).bind fun _ => (typeNameAfter_silent _).bind fun _ => ?_
  refine inner.methodDefinitions.bind fun ms => ahead_silent.bind fun _ => ?_
  exact (expect_silent _ _).bind fun _ => node_numbers fun _ => Nat.le_refl _

theorem expression_numbers : (expression (fuel + 1)).Numbers [] Expr.ids := by
  unfold expression
  refine assignedVariable?_silent.bind fun target => ?_
  split
  · exact inner.assignment _
  refine (inner.operators 0).bind fun condition => kindAhead_silent.bind fun _ => ?_
  split
  · refine pass_silent.bind fun _ => passNewlines_silent.bind fun _ => ?_
    refine inner.expression.bind fun consequent => passNewlines_silent.bind fun _ => ?_
    refine (expect_silent _ _).bind fun _ => passNewlines_silent.bind fun _ => ?_
    refine inner.expression.bind fun alternative => node_numbers fun i => ?_
    simp [Form.ids, listIds, bodyIds]
  · exact Numbers.pure fun _ => Nat.le_refl _

theorem assignedValue_numbers (target : Variable) (targetSpan : Span) (operator : Token) :
    (assignedValue fuel target targetSpan operator).Numbers [] Expr.ids := by
  refine inner.expression.bind fun operand => ?_
  split
  · exact Numbers.pure fun _ => Nat.le_refl _
  · have current : (node targetSpan (.read target)).Numbers [] Expr.ids :=
      node_numbers fun _ => Nat.le_refl _
    refine current.bind fun read => node_numbers fun i => ?_
    simp [Form.ids, optionIds, listIds, blockIds, Nat.add_comm]

theorem assignment_numbers (target : Variable) :
    (assignment (fuel + 1) target).Numbers [] Expr.ids := by
  rw [assignment_eq]
  refine take_silent.bind fun targetToken => take_silent.bind fun operator => ?_
  refine passNewlines_silent.bind fun _ => (declareTarget_silent target).bind fun _ => ?_
  exact (assignedValue_numbers inner target _ operator).bind fun value =>
    node_numbers fun _ => Nat.le_refl _

theorem operators_numbers (level : Nat) : (operators (fuel + 1) level).Numbers [] Expr.ids := by
  unfold operators
  exact inner.unary.bind (inner.operatorsAfter level)

theorem operatorsAfter_numbers (level : Nat) (left : Expr) :
    (operatorsAfter (fuel + 1) level left).Numbers left.ids Expr.ids := by
  unfold operatorsAfter
  refine kindAhead_silent.bind fun k => ?_
  split
  · exact Numbers.pure fun _ => Nat.le_refl _
  dsimp only
  split
  · exact Numbers.pure fun _ => Nat.le_refl _
  refine take_silent.bind fun operator => passNewlines_silent.bind fun _ => ?_
  refine (inner.operators _).bind fun right => ?_
  refine (node_numbers fun i => ?_).andThen (inner.operatorsAfter level)
  split
  · exact Nat.le_refl _
  split
  · exact Nat.le_refl _
  · simp [Form.ids, optionIds, listIds, blockIds]

theorem unary_numbers : (unary (fuel + 1)).Numbers [] Expr.ids := by
  unfold unary
  refine kindAhead_silent.bind fun k => ?_
  split
  · refine take_silent.bind fun mark => inner.unary.bind fun operand => ?_
    exact node_numbers fun _ => Nat.le_refl _
  · refine take_silent.bind fun mark => inner.unary.bind fun operand => ?_
    exact (negation_numbers _ operand).andThen fun form => node_numbers fun _ => Nat.le_refl _
  · exact inner.primary.bind inner.members

theorem members_numbers (e : Expr) : (members (fuel + 1) e).Numbers e.ids Expr.ids := by
  unfold members
  refine kindAhead_silent.bind fun k => ?_
  split
  · refine pass_silent.bind fun _ => passNewlines_silent.bind fun _ => ?_
    refine ahead_silent.bind fun name => ?_
    dsimp only
    split
    · exact pass_silent.bind fun _ => (inner.call (some e) name).andThen inner.members
    · exact unexpected_bind_numbers _ _
  · exact Numbers.pure fun _ => Nat.le_refl _

theorem callWith_numbers (receiver : Option Expr) (name : Token) (args : List Expr) :
    (callWith fuel receiver name args).Numbers (optionIds receiver ++ listIds args) Expr.ids := by
  refine kindAhead_silent.bind fun k => ?_
  split
  · exact inner.block.bind fun b => node_numbers fun _ => Nat.le_refl _
  · exact node_numbers fun i => by simp [Form.ids, blockIds]

theorem call_numbers (receiver : Option Expr) (name : Token) :
    (call (fuel + 1) receiver name).Numbers (optionIds receiver) Expr.ids := by
  rw [call_eq]
  exact inner.arguments.bind (callWith_numbers inner receiver name)

theorem arguments_numbers : (arguments (fuel + 1)).Numbers [] listIds := by
  unfold arguments
  refine kindAhead_silent.bind fun k => ?_
  split
  · refine pass_silent.bind fun _ => passNewlines_silent.bind fun _ => ?_
    refine inner.argumentsTail.bind fun args => (expect_silent _ _).bind fun _ => ?_
    exact Numbers.pure fun _ => Nat.le_refl _
  split
  · exact inner.commandArguments
  · exact Numbers.pure fun _ => Nat.le_refl _

theorem argumentsTail_numbers : (argumentsTail (fuel + 1)).Numbers [] listIds := by
  rw [argumentsTail_eq]
  refine kindAhead_silent.bind fun k => ?_
  split
  · exact Numbers.pure fun _ => Nat.le_refl _
  refine inner.expression.bind fun first => passNewlines_silent.bind fun _ => ?_
  refine (separator_silent looseComma_silent _ _).bind fun _ => ?_
  exact inner.argumentsTail.bind fun _ => Numbers.pure fun _ => Nat.le_refl _

theorem commandArguments_numbers : (commandArguments (fuel + 1)).Numbers [] listIds := by
  unfold commandArguments
  refine inner.expression.bind fun first => kindAhead_silent.bind fun k => ?_
  split
  · refine pass_silent.bind fun _ => passNewlines_silent.bind fun _ => ?_
    exact inner.commandArguments.bind fun _ => Numbers.pure fun _ => Nat.le_refl _
  · exact Numbers.pure fun i => by simp [listIds]

theorem block_numbers : (block (fuel + 1)).Numbers [] Block.ids := by
  unfold block
  refine take_silent.bind fun opening => newId_numbers.bind fun id => ?_
  refine (blockParameters_silent fuel).bind fun ps => ?_
  refine ((inner.body _).withLocals _).bind fun statements => ahead_silent.bind fun closing => ?_
  dsimp only
  split
  · exact (expect_silent _ _).bind fun _ => Numbers.pure fun _ => Nat.le_refl _
  · exact (expect_silent _ _).bind fun _ => Numbers.pure fun _ => Nat.le_refl _

theorem primary_numbers : (primary (fuel + 1)).Numbers [] Expr.ids := by
  unfold primary
  refine ahead_silent.bind fun t => ?_
  have leaf (form : Form) (none_inside : form.ids = []) :
      (pass >>= fun _ => node t.span form).Numbers [] Expr.ids :=
    pass_silent.bind fun _ => node_numbers fun i => by
      simp only [none_inside, Nat.le_refl]
  split
  · exact leaf _ rfl
  split
  · refine pass_silent.bind fun _ => (isVariable_silent _).bind fun _ => ?_
    refine kindAhead_silent.bind fun _ => ?_
    split
    · exact node_numbers fun _ => Nat.le_refl _
    · exact inner.call none t
  · exact leaf _ rfl
  · exact leaf _ rfl
  · exact leaf _ rfl
  · exact leaf _ rfl
  · refine pass_silent.bind fun _ => passNewlines_silent.bind fun _ => ?_
    refine inner.expression.bind fun e => passNewlines_silent.bind fun _ => ?_
    refine ahead_silent.bind fun _ => (expect_silent _ _).bind fun _ => ?_
    exact Numbers.pure fun _ => by
      cases e
      exact Nat.le_refl _
  · refine pass_silent.bind fun _ => inner.arguments.bind fun args => ?_
    exact node_numbers fun _ => Nat.le_refl _
  · refine pass_silent.bind fun _ => inner.exitValue.bind fun value => ?_
    exact node_numbers fun _ => Nat.le_refl _
  · refine pass_silent.bind fun _ => inner.exitValue.bind fun value => ?_
    exact node_numbers fun _ => Nat.le_refl _
  · exact inner.conditional .if
  · exact inner.conditional .unless
  · exact inner.loop
  · exact unexpected_numbers _

theorem exitValue_numbers : (exitValue (fuel + 1)).Numbers [] optionIds := by
  unfold exitValue
  refine kindAhead_silent.bind fun k => ?_
  split
  · exact inner.expression.map fun _ => rfl
  · exact Numbers.pure fun _ => Nat.le_refl _

theorem elseBranch_numbers (k : TokenKind) : (elseBranch fuel k).Numbers [] bodyIds := by
  unfold elseBranch
  split
  · exact pass_silent.bind fun _ => (inner.body _).map fun _ => rfl
  · exact Numbers.pure fun _ => Nat.le_refl _

theorem conditional_numbers (kind : ConditionKind) :
    (conditional (fuel + 1) kind).Numbers [] Expr.ids := by
  rw [conditional_eq]
  refine take_silent.bind fun start => inner.expression.bind fun condition => ?_
  refine (inner.body _).bind fun consequent => kindAhead_silent.bind fun k => ?_
  split
  · refine (inner.conditional .if).bind fun nested => node_numbers fun i => ?_
    simp [Form.ids, listIds, bodyIds]
  · refine (elseBranch_numbers inner k).bind fun other => ahead_silent.bind fun last => ?_
    exact (expect_silent _ _).bind fun _ => node_numbers fun _ => Nat.le_refl _

theorem loop_numbers : (loop (fuel + 1)).Numbers [] Expr.ids := by
  unfold loop
  refine take_silent.bind fun start => inner.expression.bind fun condition => ?_
  refine (inner.body _).bind fun statements => ahead_silent.bind fun last => ?_
  exact (expect_silent _ _).bind fun _ => node_numbers fun _ => Nat.le_refl _

end Steps

theorem numbering (fuel : Nat) : Numbering fuel := by
  induction fuel with
  | zero => exact Numbering.none
  | succ fuel inner =>
    exact {
      body := body_numbers inner
      statement := statement_numbers inner
      modifiers := modifiers_numbers inner
      defExpression := defExpression_numbers inner
      methodDefinition := methodDefinition_numbers inner
      methodDefinitions := methodDefinitions_numbers inner
      classDefinition := classDefinition_numbers inner
      expression := expression_numbers inner
      assignment := assignment_numbers inner
      operators := operators_numbers inner
      operatorsAfter := operatorsAfter_numbers inner
      unary := unary_numbers inner
      members := members_numbers inner
      call := call_numbers inner
      arguments := arguments_numbers inner
      argumentsTail := argumentsTail_numbers inner
      commandArguments := commandArguments_numbers inner
      block := block_numbers inner
      primary := primary_numbers inner
      exitValue := exitValue_numbers inner
      conditional := conditional_numbers inner
      loop := loop_numbers inner }

end Parser

namespace Module

open TypedBlocks.Parser (fresh fresh_add between_of_fresh)

section Runs

variable {first next : NodeId} {tokens : List Token} {text : String} {texts : List String} {m : Module}
  {ms : List Module}

theorem parse_ok (parsed : parse first tokens = .ok (m, next)) :
    ∃ s, Parser.statements first tokens = .ok (m.body, s) ∧ s.nextId = next := by
  unfold parse at parsed
  split at parsed
  · rename_i statements s run
    cases parsed
    exact ⟨s, run, rfl⟩
  · cases parsed

theorem read_ok (done : read first text = .ok (m, next)) :
    ∃ tokens, Token.scan text = .ok tokens ∧ parse first tokens = .ok (m, next) := by
  unfold read at done
  split at done
  · cases done
  rename_i tokens scanned
  split at done
  · cases done
  rename_i parsed
  cases done
  exact ⟨tokens, scanned, parsed⟩

/-- A list of texts is read text by text. -/
theorem readAll_cons (done : readAll first (text :: texts) = .ok (ms, next)) : ∃ m mid others,
    read first text = .ok (m, mid) ∧ readAll mid texts = .ok (others, next) ∧ ms = m :: others := by
  unfold readAll at done
  split at done
  · cases done
  rename_i m mid one
  split at done
  · cases done
  rename_i others last rest
  cases done
  exact ⟨m, mid, others, one, rest, rfl⟩

end Runs

theorem parse_numbers {first next : NodeId} {tokens : List Token} {m : Module}
    (parsed : parse first tokens = .ok (m, next)) : first.val ≤ next.val ∧
      ∀ i, (listIds m.body).count i ≤ fresh first.val next.val i := by
  obtain ⟨s, run, rfl⟩ := parse_ok parsed
  obtain ⟨le_next, count⟩ := (Parser.numbering _).body _ _ _ _ run
  refine ⟨le_next, fun i => ?_⟩
  have known := count i
  rw [List.count_nil, Nat.zero_add] at known
  exact known

theorem readAll_numbers {first next : NodeId} {texts : List String} {ms : List Module}
    (read : readAll first texts = .ok (ms, next)) : first.val ≤ next.val ∧
      ∀ i, (listIds (ms.map (·.body)).flatten).count i ≤ fresh first.val next.val i := by
  induction texts generalizing first ms with
  | nil =>
    cases read
    exact ⟨Nat.le_refl _, fun i => Nat.zero_le _⟩
  | cons text texts ih =>
    obtain ⟨m, mid, others, one, rest, rfl⟩ := readAll_cons read
    obtain ⟨tokens, -, parsed⟩ := read_ok one
    obtain ⟨le_mid, count_first⟩ := parse_numbers parsed
    obtain ⟨le_last, count_rest⟩ := ih rest
    refine ⟨Nat.le_trans le_mid le_last, fun i => ?_⟩
    have all := fresh_add le_mid le_last i
    have here := count_first i
    have later := count_rest i
    rw [List.map_cons, List.flatten_cons, listIds_append, List.count_append]
    omega

/-- All nodes of the modules in a list of texts have numbers of their own, which lie between the
first number and the next free one. -/
theorem readAll_ids {first next : NodeId} {texts : List String} {ms : List Module}
    (read : readAll first texts = .ok (ms, next)) :
    (listIds (ms.map (·.body)).flatten).Nodup ∧
      ∀ i ∈ listIds (ms.map (·.body)).flatten, first.val ≤ i ∧ i < next.val := by
  obtain ⟨-, count⟩ := readAll_numbers read
  refine ⟨List.nodup_iff_count.2 fun i => Nat.le_trans (count i) ?_, fun i member => ?_⟩
  · unfold fresh
    split <;> omega
  · have once := Nat.lt_of_lt_of_le (List.count_pos_iff.2 member) (count i)
    exact between_of_fresh once

end Module

end TypedBlocks

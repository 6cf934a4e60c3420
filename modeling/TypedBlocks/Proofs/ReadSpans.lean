import TypedBlocks.Proofs.SpanNesting

/-!
# The spans that are read

Every node that the parser gives for tokens in order fits into its span. A reader is told what stands
ahead where it takes a token for the end of a span, so that the token is one that it passes.
-/
namespace TypedBlocks

open Token (Ordered)

section Forms

variable {f : Form} {span outer : Span} {ts ts' : List Token} {id : NodeId}

theorem Form.Lays.widen (lays : f.Lays span) (within : outer.contains span = true) : f.Lays outer := by
  cases f with
  | assign target place value => exact Span.contains_trans within lays
  | call receiver name place arguments block =>
    cases block with
    | none => exact trivial
    | some b => exact ⟨Span.contains_trans within lays.1, lays.2⟩
  | «while» condition body => exact lays
  | _ => exact trivial

/-- What fits into a span fits into a larger one. -/
theorem Form.Fits.widen (fits : f.Fits span) (within : outer.contains span = true)
    (proper : outer.Proper) : f.Fits outer :=
  ⟨proper, fits.named, fun e part => Span.contains_trans within (fits.parts e part),
    fits.lays.widen within⟩

/-- A node of parts that have been read, where no method is defined. -/
theorem Expr.Placed.node (lies : Lies ts ts' span) (named : ∀ s ∈ f.namedSpans, s.Proper)
    (nested : ∀ e ∈ f.parts, e.Nested) (parts : ∀ e ∈ f.parts, span.contains e.span = true)
    (lays : f.Lays span) (methods : f.methods = []) : Expr.Placed ts ⟨id, span, f⟩ ts' :=
  ⟨.intro ⟨lies.proper, named, parts, lays⟩ nested (by
    rw [methods]
    exact List.forall_mem_nil _), lies⟩

/-- A node without parts. -/
theorem Expr.Placed.leaf (lies : Lies ts ts' span) (named : f.namedSpans = []) (parts : f.parts = [])
    (lays : f.Lays span) (methods : f.methods = []) : Expr.Placed ts ⟨id, span, f⟩ ts' := by
  refine .node lies ?_ ?_ ?_ lays methods
  · rw [named]
    exact List.forall_mem_nil _
  · rw [parts]
    exact List.forall_mem_nil _
  · rw [parts]
    exact List.forall_mem_nil _

end Forms

/-- What stands in front is neither the end of a line nor that of the text. -/
def Plain (ts : List Token) : Prop := ∀ t, Sees ts t → t.kind ≠ .newline ∧ t.kind ≠ .ending

theorem Sees.plain {ts : List Token} {t : Token} {kind : TokenKind} (sees : Sees ts t)
    (same : t.kind = kind) (other : kind ≠ .newline) (goes : kind ≠ .ending) : Plain ts := by
  obtain ⟨rest, rfl⟩ := sees
  rintro u ⟨others, front⟩
  cases front
  rw [same]
  exact ⟨other, goes⟩

theorem Sees.plain_beq {ts : List Token} {t : Token} {kind : TokenKind} (sees : Sees ts t)
    (same : (t.kind == kind) = true) (other : kind ≠ .newline) (goes : kind ≠ .ending) : Plain ts :=
  sees.plain (beq_iff_eq.1 same) other goes

namespace Parser

variable {α β : Type} {s s' : ParserState} {p : Parser α} {f : α → Parser β} {fuel : Nat}
  {good : α → List Token → Prop} {good' : β → List Token → Prop} {t : Token}

/-- Where the tokens ahead are in order, the reader leaves some of them ahead, and what it gives and
leaves is good. -/
def Spans (p : Parser α) (s : ParserState) (good : α → List Token → Prop) : Prop :=
  Ordered s.tokens → ∀ a s', p s = .ok (a, s') → s'.tokens <:+ s.tokens ∧ good a s'.tokens

/-- Nothing is asked of a result. -/
def unasked (_ : α) (_ : List Token) : Prop := True

section Rules

theorem Spans.pure {a : α} (holds : good a s.tokens) : Spans (Pure.pure a) s good := by
  intro _ b s' run
  cases run
  exact ⟨List.suffix_rfl, holds⟩

theorem Spans.bind (first : Spans p s good)
    (rest : ∀ a s', s'.tokens <:+ s.tokens → good a s'.tokens → Spans (f a) s' good') :
    Spans (p >>= f) s good' := by
  intro ordered b s' run
  obtain ⟨a, mid, one, two⟩ := bind_ok run
  obtain ⟨past, holds⟩ := first ordered a mid one
  obtain ⟨past', holds'⟩ := rest a mid past holds (ordered.suffix past) b s' two
  exact ⟨past'.trans past, holds'⟩

theorem Spans.last {good'' : α → List Token → Prop} (last : Spans p s good)
    (done : ∀ a ts, ts <:+ s.tokens → good a ts → good'' a ts) : Spans p s good'' := by
  intro ordered a s' run
  obtain ⟨past, holds⟩ := last ordered a s' run
  exact ⟨past, done a _ past holds⟩

theorem Spans.map {g : α → β} (spans : Spans p s good)
    (done : ∀ a ts, good a ts → good' (g a) ts) : Spans (g <$> p) s good' :=
  spans.bind (f := fun a => Pure.pure (g a)) fun a _ _ holds => .pure (done a _ holds)

theorem Spans.fails (fails : ∀ r, p s ≠ .ok r) : Spans p s good :=
  fun _ a s' run => absurd run (fails (a, s'))

/-- A reader that leaves the tokens as they are. -/
theorem Spans.of_same (same : ∀ a s', p s = .ok (a, s') → s'.tokens = s.tokens) :
    Spans p s unasked := by
  intro _ a s' run
  rw [same a s' run]
  exact ⟨List.suffix_rfl, trivial⟩

end Rules

section Primitives

theorem outOfFuel_spans : Spans (outOfFuel : Parser α) s good := .fails outOfFuel_fails

theorem unexpected_spans (what : Expectation) : Spans (unexpected what : Parser α) s good :=
  .fails (unexpected_fails what)

theorem unexpected_bind_spans (what : Expectation) : Spans (unexpected what >>= f) s good' :=
  .fails (unexpected_bind_fails what)

theorem ahead_spans {f : Token → Parser β} (rest : ∀ t, Sees s.tokens t → Spans (f t) s good') :
    Spans (ahead >>= f) s good' := by
  intro ordered b s' run
  obtain ⟨t, mid, first, run⟩ := bind_ok run
  obtain ⟨sees, rfl⟩ := ahead_ok first
  exact rest t sees ordered b s' run

theorem kindAhead_spans {f : TokenKind → Parser β}
    (rest : ∀ t, Sees s.tokens t → Spans (f t.kind) s good') : Spans (kindAhead >>= f) s good' := by
  intro ordered b s' run
  obtain ⟨k, mid, first, run⟩ := bind_ok run
  obtain ⟨t, sees, rfl, rfl⟩ := kindAhead_ok first
  exact rest t sees ordered b s' run

/-- The token ahead is taken. -/
theorem take_spans (plain : Plain s.tokens) :
    Spans take s fun t ts => s.tokens = t :: ts ∧ Lies s.tokens ts t.span := by
  intro ordered t s' run
  obtain ⟨u, us, same, ⟨ending, -⟩ | ⟨-, rfl, rfl⟩⟩ := take_ok run
  · exact absurd ending (plain u ⟨us, same⟩).2
  · rw [same] at ordered ⊢
    exact ⟨List.suffix_cons _ _, rfl, .token ordered (plain t ⟨us, same⟩).1⟩

/-- The token that is known to be ahead is passed. -/
theorem pass_spans (sees : Sees s.tokens t) (plain : Plain s.tokens) :
    Spans pass s fun _ ts => Lies s.tokens ts t.span := by
  refine (take_spans plain).bind fun u s₁ _ taken => .pure ?_
  obtain ⟨rest, same⟩ := sees
  have front := same.symm.trans taken.1
  cases front
  exact taken.2

/-- Whatever is ahead, tokens are only passed. -/
theorem pass_past : Spans pass s unasked := by
  intro _ a s' run
  refine ⟨?_, trivial⟩
  obtain ⟨t, taken⟩ := pass_ok run
  obtain ⟨u, us, same, ⟨-, rfl⟩ | ⟨-, -, rfl⟩⟩ := take_ok taken
  · exact List.suffix_rfl
  · rw [same]
    exact List.suffix_cons _ _

theorem passWhile_past {q : TokenKind → Bool} : Spans (passWhile q) s unasked := by
  intro _ a s' run
  rw [(passWhile_ok run).1]
  exact ⟨List.dropWhile_suffix _, trivial⟩

theorem passNewlines_past : Spans passNewlines s unasked := passWhile_past

theorem passSeparators_past : Spans passSeparators s unasked := passWhile_past

/-- A token of the kind is ahead, and it is passed. -/
theorem expect_spans (sees : Sees s.tokens t) {kind : TokenKind} (other : kind ≠ .newline)
    (goes : kind ≠ .ending) (what : Expectation) :
    Spans (expect kind what) s fun _ ts => Lies s.tokens ts t.span := by
  refine kindAhead_spans fun u front => ?_
  split
  · rename_i same
    exact pass_spans sees (front.plain_beq same other goes)
  · exact unexpected_spans what

theorem expect_past {kind : TokenKind} (what : Expectation) : Spans (expect kind what) s unasked := by
  refine kindAhead_spans fun u front => ?_
  split
  · exact pass_past
  · exact unexpected_spans what

theorem separator_past {comma : Parser Unit} {closing : Mark} {what : Expectation}
    (passes : ∀ s, Spans comma s unasked) : Spans (separator comma closing what) s unasked := by
  refine kindAhead_spans fun t sees => ?_
  split
  · exact passes s
  split
  · exact .pure trivial
  · exact unexpected_spans what

theorem looseComma_past : Spans looseComma s unasked := pass_past.bind fun _ _ _ _ => passNewlines_past

theorem statementEnd_past {closes : TokenKind → Bool} : Spans (statementEnd closes) s unasked := by
  refine kindAhead_spans fun t sees => ?_
  split
  · exact pass_past
  split
  · exact .pure trivial
  · exact unexpected_spans _

theorem newId_past : Spans newId s unasked := .of_same fun _ _ run => by
  cases run
  rfl

theorem node_spans {span : Span} {form : Form} {good : Expr → List Token → Prop}
    (holds : ∀ id, good ⟨id, span, form⟩ s.tokens) : Spans (node span form) s good := by
  intro _ e s' run
  obtain ⟨id, mid, given, same⟩ := bind_ok run
  cases given
  cases same
  exact ⟨List.suffix_rfl, holds _⟩

theorem declare_past (name : String) : Spans (declare name) s unasked := .of_same fun _ _ run => by
  cases run
  rfl

theorem declareTarget_past (target : Variable) : Spans (declareTarget target) s unasked := by
  unfold declareTarget
  split
  · exact declare_past _
  · exact .pure trivial

theorem declareAll_past (ps : List Parameter) :
    Spans (ps.forM fun p => declare p.name) s unasked := by
  induction ps generalizing s with
  | nil => exact .pure trivial
  | cons p ps ih => exact (declare_past p.name).bind fun _ _ _ _ => ih

theorem withLocals_spans {names : List String → List String}
    (inner : Spans p { s with locals := names s.locals } good) : Spans (withLocals names p) s good := by
  intro ordered a s' run
  obtain ⟨mid, inside, rfl⟩ := withLocals_ok run
  exact inner ordered a mid inside

theorem assignedVariable?_spans {f : Option Variable → Parser β} (absent : Spans (f none) s good')
    (present : ∀ target, Assigns s.tokens → Spans (f (some target)) s good') :
    Spans (assignedVariable? >>= f) s good' := by
  intro ordered b s' run
  obtain ⟨target, mid, found, run⟩ := bind_ok run
  obtain ⟨rfl, known⟩ := assignedVariable?_known found
  cases target with
  | none => exact absent ordered b s' run
  | some v =>
    obtain ⟨t, -, -, -, assigns⟩ := known v rfl
    exact present v assigns ordered b s' run

end Primitives

section Lists

theorem typeName_past : Spans typeName s unasked := by
  refine ahead_spans fun t sees => ?_
  split
  · exact pass_past.bind fun _ _ _ _ => .pure trivial
  · exact pass_past.bind fun _ _ _ _ => .pure trivial
  · exact unexpected_spans _

theorem typeNameAfter_past (m : Mark) : Spans (typeNameAfter m) s unasked := by
  refine kindAhead_spans fun t sees => ?_
  split
  · refine pass_past.bind fun _ _ _ _ => ?_
    exact typeName_past.bind fun _ _ _ _ => .pure trivial
  · exact .pure trivial

theorem definedName_spans {kind : TokenKind} (other : kind ≠ .newline) (goes : kind ≠ .ending)
    (what : Expectation) : Spans (definedName kind what) s fun t ts => Lies s.tokens ts t.span := by
  refine ahead_spans fun t sees => ?_
  dsimp only
  split
  · rename_i same
    exact (take_spans (sees.plain_beq same other goes)).last fun u ts _ taken => taken.2
  · exact unexpected_bind_spans what

theorem requirement_past : Spans requirement s unasked := by
  refine pass_past.bind fun _ _ _ _ => ?_
  refine kindAhead_spans fun t sees => ?_
  split
  · exact pass_past
  · exact unexpected_spans _

theorem parametersTail_spans :
    Spans (parametersTail fuel) s fun ps _ => ∀ p ∈ ps, p.span.Proper := by
  induction fuel generalizing s with
  | zero => exact outOfFuel_spans
  | succ fuel ih =>
    rw [parametersTail_eq]
    refine kindAhead_spans fun t sees => ?_
    split
    · exact .pure (List.forall_mem_nil _)
    refine ahead_spans fun name sees => ?_
    dsimp only
    split
    · refine pass_past.bind fun _ s₁ _ _ => ?_
      refine (typeNameAfter_past _).bind fun restriction s₂ _ _ => ?_
      refine passNewlines_past.bind fun _ s₃ _ _ => ?_
      refine (separator_past fun _ => looseComma_past).bind fun _ s₄ _ _ => ?_
      exact ih.bind fun _ _ _ others => .pure (List.forall_mem_cons.2 ⟨name.span_proper, others⟩)
    · exact unexpected_bind_spans _

theorem parameters_spans : Spans (parameters fuel) s fun ps _ => ∀ p ∈ ps, p.span.Proper := by
  unfold parameters
  refine kindAhead_spans fun t sees => ?_
  split
  · refine pass_past.bind fun _ s₁ _ _ => ?_
    refine passNewlines_past.bind fun _ s₂ _ _ => ?_
    refine parametersTail_spans.bind fun ps s₃ _ proper => ?_
    exact (expect_past _).bind fun _ _ _ _ => .pure proper
  · exact .pure (List.forall_mem_nil _)

theorem typeParametersTail_past : Spans (typeParametersTail fuel) s unasked := by
  induction fuel generalizing s with
  | zero => exact outOfFuel_spans
  | succ fuel ih =>
    unfold typeParametersTail
    refine typeName_past.bind fun name s₁ _ _ => ?_
    refine kindAhead_spans fun t sees => ?_
    split
    · refine pass_past.bind fun _ s₂ _ _ => ?_
      exact ih.bind fun _ _ _ _ => .pure trivial
    · exact .pure trivial

theorem typeParameters_past : Spans (typeParameters fuel) s unasked := by
  unfold typeParameters
  refine kindAhead_spans fun t sees => ?_
  split
  · refine pass_past.bind fun _ s₁ _ _ => ?_
    refine typeParametersTail_past.bind fun _ s₂ _ _ => ?_
    exact (expect_past _).bind fun _ _ _ _ => .pure trivial
  · exact .pure trivial

theorem foreigns_spans : Spans (foreigns fuel) s fun functions _ =>
    ∀ f ∈ functions, ∀ span ∈ f.namedSpans, span.Proper := by
  induction fuel generalizing s with
  | zero => exact outOfFuel_spans
  | succ fuel ih =>
    unfold foreigns
    refine passSeparators_past.bind fun _ s₁ _ _ => ?_
    refine kindAhead_spans fun t sees => ?_
    split
    · exact .pure (List.forall_mem_nil _)
    · refine pass_past.bind fun _ s₂ _ _ => ?_
      refine (definedName_spans (by decide) (by decide) _).bind fun name s₃ _ _ => ?_
      refine parameters_spans.bind fun ps s₄ _ proper => ?_
      refine (typeNameAfter_past _).bind fun type s₅ _ _ => ?_
      refine ih.bind fun _ s₆ _ others => .pure (List.forall_mem_cons.2 ⟨?_, others⟩)
      exact List.forall_mem_cons.2 ⟨name.span_proper, List.forall_mem_map.2 proper⟩
    · exact unexpected_spans _

theorem lib_spans (plain : Plain s.tokens) : Spans (lib fuel) s (Expr.Placed s.tokens) := by
  unfold lib
  refine (take_spans plain).bind fun start s₁ past₁ front => ?_
  refine (definedName_spans (by decide) (by decide) _).bind fun name s₂ past₂ named => ?_
  refine foreigns_spans.bind fun functions s₃ past₃ proper => ?_
  refine ahead_spans fun last sees => ?_
  refine (expect_spans sees (by decide) (by decide) _).bind fun _ s₄ past₄ back => ?_
  refine node_spans fun id => .node ?_ ?_ (List.forall_mem_nil _) (List.forall_mem_nil _) trivial rfl
  · exact (front.2.later (past₄.trans (past₃.trans past₂))).union
      (back.earlier (past₃.trans (past₂.trans past₁)))
  · refine List.forall_mem_cons.2 ⟨named.proper, fun span member => ?_⟩
    obtain ⟨function, declared, inner⟩ := List.mem_flatMap.1 member
    exact proper function declared span inner

theorem blockParametersTail_spans :
    Spans (blockParametersTail fuel) s fun ps _ => ∀ p ∈ ps, p.span.Proper := by
  induction fuel generalizing s with
  | zero => exact outOfFuel_spans
  | succ fuel ih =>
    rw [blockParametersTail_eq]
    refine kindAhead_spans fun t sees => ?_
    split
    · exact .pure (List.forall_mem_nil _)
    refine (definedName_spans (by decide) (by decide) _).bind fun name s₁ _ named => ?_
    refine (separator_past fun _ => pass_past).bind fun _ s₂ _ _ => ?_
    exact ih.bind fun _ _ _ others => .pure (List.forall_mem_cons.2 ⟨named.proper, others⟩)

theorem blockParameters_spans :
    Spans (blockParameters fuel) s fun ps _ => ∀ p ∈ ps, p.span.Proper := by
  unfold blockParameters
  refine kindAhead_spans fun t sees => ?_
  split
  · refine pass_past.bind fun _ s₁ _ _ => ?_
    refine blockParametersTail_spans.bind fun ps s₂ _ proper => ?_
    exact pass_past.bind fun _ _ _ _ => .pure proper
  · exact .pure (List.forall_mem_nil _)

end Lists

/-- Where the nodes stand that the readers that call one another give. A reader that goes on from what
has been read before is told where that began. -/
structure Spanning (fuel : Nat) : Prop where
  body : ∀ closes s, Spans (body fuel closes) s (Row s.tokens)
  statement : ∀ s, Spans (statement fuel) s (Expr.Placed s.tokens)
  modifiers : ∀ ts e s, s.tokens <:+ ts → Expr.Placed ts e s.tokens →
    Spans (modifiers fuel e) s (Expr.Placed ts)
  defExpression : ∀ s, Spans (defExpression fuel) s (Expr.Placed s.tokens)
  methodDefinition : ∀ s, Spans (methodDefinition fuel) s fun m ts => m.Nested ∧
    ∀ t, Sees s.tokens t → Lies s.tokens ts (t.span.union m.nameSpan)
  methodDefinitions : ∀ s, Spans (methodDefinitions fuel) s fun ms _ => ∀ m ∈ ms, m.Nested
  classDefinition : ∀ s, Plain s.tokens → Spans (classDefinition fuel) s (Expr.Placed s.tokens)
  expression : ∀ s, Spans (expression fuel) s (Expr.Placed s.tokens)
  assignment : ∀ target s, Assigns s.tokens →
    Spans (assignment fuel target) s (Expr.Placed s.tokens)
  operators : ∀ level s, Spans (operators fuel level) s (Expr.Placed s.tokens)
  operatorsAfter : ∀ ts level left s, s.tokens <:+ ts → Expr.Placed ts left s.tokens →
    Spans (operatorsAfter fuel level left) s (Expr.Placed ts)
  unary : ∀ s, Spans (unary fuel) s (Expr.Placed s.tokens)
  members : ∀ ts e s, s.tokens <:+ ts → Expr.Placed ts e s.tokens →
    Spans (members fuel e) s (Expr.Placed ts)
  call : ∀ ts receiver name s, s.tokens <:+ ts → Lies ts s.tokens (Token.span name) →
    (∀ e ∈ receiver, Expr.Placed ts e s.tokens) → Spans (call fuel receiver name) s (Expr.Placed ts)
  arguments : ∀ s, Spans (arguments fuel) s (Row s.tokens)
  argumentsTail : ∀ s, Spans (argumentsTail fuel) s (Row s.tokens)
  commandArguments : ∀ s, Spans (commandArguments fuel) s (Row s.tokens)
  block : ∀ s, Plain s.tokens →
    Spans (block fuel) s fun b ts => b.Nested ∧ Lies s.tokens ts b.span
  primary : ∀ s, Spans (primary fuel) s (Expr.Placed s.tokens)
  exitValue : ∀ s, Spans (exitValue fuel) s fun value => Row s.tokens value.toList
  conditional : ∀ kind s, Plain s.tokens → Spans (conditional fuel kind) s (Expr.Placed s.tokens)
  loop : ∀ s, Plain s.tokens → Spans (loop fuel) s (Expr.Placed s.tokens)

theorem Spanning.none : Spanning 0 := by
  constructor <;> intros <;> exact outOfFuel_spans

section Steps

variable (inner : Spanning fuel) {ts : List Token}
include inner

theorem statementAt_spans (k : TokenKind) : Spans (statementAt fuel k) s (Row s.tokens) := by
  unfold statementAt
  split
  · exact requirement_past.bind fun _ _ _ _ => .pure .nil
  · exact (inner.statement s).map fun e ts placed => .single placed

theorem body_spans {closes : TokenKind → Bool} :
    Spans (body (fuel + 1) closes) s (Row s.tokens) := by
  rw [body_eq]
  refine passSeparators_past.bind fun _ s₁ past₁ _ => ?_
  refine kindAhead_spans fun t sees => ?_
  split
  · exact .pure .nil
  refine (statementAt_spans inner t.kind).bind fun first s₂ past₂ row => ?_
  refine statementEnd_past.bind fun _ s₃ past₃ _ => ?_
  refine (inner.body closes s₃).bind fun others s₄ past₄ rows => .pure ?_
  exact (row.widen past₁ past₃).append rows (past₃.trans (past₂.trans past₁)) past₄

theorem statement_spans : Spans (statement (fuel + 1)) s (Expr.Placed s.tokens) := by
  have modified {p : Parser Expr} (spans : Spans p s (Expr.Placed s.tokens)) :
      Spans (p >>= modifiers fuel) s (Expr.Placed s.tokens) :=
    spans.bind fun e s₁ past₁ placed => inner.modifiers s.tokens e s₁ past₁ placed
  unfold statement
  refine kindAhead_spans fun t sees => ?_
  dsimp only
  split
  · exact modified (inner.defExpression s)
  · rename_i kind
    exact modified (inner.classDefinition s (sees.plain kind (by decide) (by decide)))
  · rename_i kind
    exact modified (lib_spans (sees.plain kind (by decide) (by decide)))
  · exact modified (inner.expression s)

/-- The condition of a modifier stands after what it guards. -/
theorem guarded_spans (kind : ConditionKind) {e : Expr} (past : s.tokens <:+ ts)
    (placed : Expr.Placed ts e s.tokens) : Spans (guarded fuel kind e) s (Expr.Placed ts) := by
  refine pass_past.bind fun _ s₁ past₁ _ => ?_
  refine (inner.expression s₁).bind fun condition s₂ past₂ tested => ?_
  have first := placed.lies.later (past₂.trans past₁)
  have second := tested.lies.earlier (past₁.trans past)
  obtain ⟨holds, holds'⟩ := first.contains_union second
  have whole : Spans (node (e.span.union condition.span) (.conditional kind condition [e] none)) s₂
      (Expr.Placed ts) := by
    refine node_spans fun id =>
      .node (first.union second) (List.forall_mem_nil _) ?_ ?_ trivial rfl
    · simpa [Form.parts] using ⟨tested.nested, placed.nested⟩
    · simpa [Form.parts] using ⟨holds', holds⟩
  exact whole.bind fun e' s₃ past₃ placed' =>
    inner.modifiers ts e' s₃ (past₃.trans (past₂.trans (past₁.trans past))) placed'

theorem modifiers_spans {e : Expr} (past : s.tokens <:+ ts) (placed : Expr.Placed ts e s.tokens) :
    Spans (modifiers (fuel + 1) e) s (Expr.Placed ts) := by
  rw [modifiers_eq]
  refine kindAhead_spans fun t sees => ?_
  split
  · exact guarded_spans inner .if past placed
  · exact guarded_spans inner .unless past placed
  · exact .pure placed

theorem defExpression_spans : Spans (defExpression (fuel + 1)) s (Expr.Placed s.tokens) := by
  unfold defExpression
  refine ahead_spans fun start sees => ?_
  refine (inner.methodDefinition s).bind fun m s₁ past₁ read => node_spans fun id => ?_
  have lies := read.2 start sees
  refine ⟨.intro ⟨lies.proper, read.1.named, List.forall_mem_nil _, trivial⟩ (List.forall_mem_nil _) ?_,
    lies⟩
  exact List.forall_mem_singleton.2 read.1.body

theorem methodParts_spans : Spans (methodParts fuel) s fun r _ =>
    (∀ p ∈ r.1, p.span.Proper) ∧ ∀ e ∈ r.2, e.Nested := by
  refine parameters_spans.bind fun ps s₁ _ proper => ?_
  refine (declareAll_past ps).bind fun _ s₂ _ _ => ?_
  exact (inner.body _ s₂).bind fun es s₃ _ row =>
    .pure ⟨proper, fun e member => (row.placed e member).nested⟩

theorem methodDefinition_spans : Spans (methodDefinition (fuel + 1)) s fun m ts => m.Nested ∧
    ∀ t, Sees s.tokens t → Lies s.tokens ts (t.span.union m.nameSpan) := by
  rw [methodDefinition_eq]
  -- The keyword is the token ahead, whichever token that is.
  have keyword : Spans (expect (.keyword .define) .defKeyword) s fun _ ts =>
      ∀ t, Sees s.tokens t → Lies s.tokens ts t.span := by
    intro ordered a s' run
    refine ⟨(expect_past _ ordered a s' run).1, fun t sees => ?_⟩
    exact (expect_spans sees (by decide) (by decide) _ ordered a s' run).2
  refine keyword.bind fun _ s₁ past₁ front => ?_
  refine newId_past.bind fun id s₂ past₂ _ => ?_
  refine (definedName_spans (by decide) (by decide) _).bind fun name s₃ past₃ named => ?_
  refine (withLocals_spans (methodParts_spans inner)).bind fun r s₄ past₄ made => ?_
  refine (expect_past _).bind fun _ s₅ past₅ _ => .pure ⟨⟨?_, made.2⟩, fun t sees => ?_⟩
  · exact List.forall_mem_cons.2 ⟨named.proper, List.forall_mem_map.2 made.1⟩
  · exact ((front t sees).later (past₅.trans (past₄.trans (past₃.trans past₂)))).union
      ((named.later (past₅.trans past₄)).earlier (past₂.trans past₁))

theorem methodDefinitions_spans :
    Spans (methodDefinitions (fuel + 1)) s fun ms _ => ∀ m ∈ ms, m.Nested := by
  unfold methodDefinitions
  refine passSeparators_past.bind fun _ s₁ _ _ => ?_
  refine kindAhead_spans fun t sees => ?_
  split
  · exact .pure (List.forall_mem_nil _)
  · refine (inner.methodDefinition s₁).bind fun m s₂ _ read => ?_
    exact (inner.methodDefinitions s₂).bind fun ms s₃ _ others =>
      .pure (List.forall_mem_cons.2 ⟨read.1, others⟩)
  · exact unexpected_spans _

theorem classDefinition_spans (plain : Plain s.tokens) :
    Spans (classDefinition (fuel + 1)) s (Expr.Placed s.tokens) := by
  unfold classDefinition
  refine (take_spans plain).bind fun start s₁ past₁ front => ?_
  refine (definedName_spans (by decide) (by decide) _).bind fun name s₂ past₂ named => ?_
  refine typeParameters_past.bind fun types s₃ past₃ _ => ?_
  refine (typeNameAfter_past _).bind fun superclass s₄ past₄ _ => ?_
  refine (inner.methodDefinitions s₄).bind fun ms s₅ past₅ nested => ?_
  refine ahead_spans fun last sees => ?_
  refine (expect_spans sees (by decide) (by decide) _).bind fun _ s₆ past₆ back => ?_
  have past : s₅.tokens <:+ s₁.tokens := past₅.trans (past₄.trans (past₃.trans past₂))
  have lies := (front.2.later (past₆.trans past)).union (back.earlier (past.trans past₁))
  refine node_spans fun id => ⟨.intro ⟨lies.proper, ?_, List.forall_mem_nil _, trivial⟩
    (List.forall_mem_nil _) fun m member => (nested m member).body, lies⟩
  refine List.forall_mem_cons.2 ⟨named.proper, fun span member => ?_⟩
  obtain ⟨m, defined, within⟩ := List.mem_flatMap.1 member
  exact (nested m defined).named span within

theorem expression_spans : Spans (expression (fuel + 1)) s (Expr.Placed s.tokens) := by
  unfold expression
  refine assignedVariable?_spans ?_ fun target assigns => inner.assignment target s assigns
  refine (inner.operators 0 s).bind fun condition s₁ past₁ tested => ?_
  refine kindAhead_spans fun t sees => ?_
  split
  · refine pass_past.bind fun _ s₂ past₂ _ => ?_
    refine passNewlines_past.bind fun _ s₃ past₃ _ => ?_
    refine (inner.expression s₃).bind fun consequent s₄ past₄ yes => ?_
    refine passNewlines_past.bind fun _ s₅ past₅ _ => ?_
    refine (expect_past _).bind fun _ s₆ past₆ _ => ?_
    refine passNewlines_past.bind fun _ s₇ past₇ _ => ?_
    refine (inner.expression s₇).bind fun alternative s₈ past₈ no => ?_
    have before : s₃.tokens <:+ s₁.tokens := past₃.trans past₂
    have after : s₇.tokens <:+ s₄.tokens := past₇.trans (past₆.trans past₅)
    have later := tested.lies.later ((past₈.trans after).trans (past₄.trans before))
    have earlier := no.lies.earlier (after.trans (past₄.trans (before.trans past₁)))
    obtain ⟨holds, holds'⟩ := later.contains_union earlier
    refine node_spans fun id =>
      .node (later.union earlier) (List.forall_mem_nil _) ?_ ?_ trivial rfl
    · simpa [Form.parts] using ⟨tested.nested, yes.nested, no.nested⟩
    · have between := tested.lies.between (yes.lies.earlier before) (no.lies.earlier after)
      simpa [Form.parts] using ⟨holds, between, holds'⟩
  · exact .pure tested

/-- The value of a compound assignment begins with the variable once more. -/
theorem assignedValue_spans (target : Variable) {targetSpan : Span} {operator : Token}
    (past : s.tokens <:+ ts) (named : Lies ts s.tokens targetSpan) (sign : operator.span.Proper) :
    Spans (assignedValue fuel target targetSpan operator) s (Expr.Placed ts) := by
  refine (inner.expression s).bind fun operand s₁ past₁ placed => ?_
  split
  · exact .pure (placed.widen past List.suffix_rfl)
  · have reading : Spans (node targetSpan (.read target)) s₁ fun e us =>
        e.span = targetSpan ∧ Expr.Placed ts e us :=
      node_spans fun id => ⟨rfl, .leaf (named.later past₁) rfl rfl trivial rfl⟩
    refine reading.bind fun current s₂ past₂ read => ?_
    have front := named.later (past₂.trans past₁)
    have back := (placed.lies.later past₂).earlier past
    obtain ⟨holds, holds'⟩ := front.contains_union back
    refine node_spans fun id => .node (front.union back) (List.forall_mem_singleton.2 sign) ?_ ?_
      trivial rfl
    · simpa [Form.parts] using ⟨read.2.nested, placed.nested⟩
    · simpa [Form.parts, read.1] using ⟨holds, holds'⟩

theorem assignment_spans (target : Variable) (assigns : Assigns s.tokens) :
    Spans (assignment (fuel + 1) target) s (Expr.Placed s.tokens) := by
  obtain ⟨t, u, rest, same, first, second⟩ := assigns
  have plain : t.kind ≠ .newline ∧ t.kind ≠ .ending := by
    constructor <;> intro kind <;> rw [kind] at first <;> cases first
  have plain' : u.kind ≠ .newline ∧ u.kind ≠ .ending := by
    constructor <;> intro kind <;> rw [kind] at second <;> cases second
  rw [assignment_eq]
  refine (take_spans ?_).bind fun targetToken s₁ past₁ front => ?_
  · rintro v ⟨others, ahead⟩
    cases same.symm.trans ahead
    exact plain
  have next : s₁.tokens = u :: rest := (List.cons.inj (front.1.symm.trans same)).2
  refine (take_spans ?_).bind fun operator s₂ past₂ sign => ?_
  · rintro v ⟨others, ahead⟩
    cases next.symm.trans ahead
    exact plain'
  refine passNewlines_past.bind fun _ s₃ past₃ _ => ?_
  refine (declareTarget_past target).bind fun _ s₄ past₄ _ => ?_
  have past : s₄.tokens <:+ s₁.tokens := past₄.trans (past₃.trans past₂)
  refine (assignedValue_spans inner target (past.trans past₁) (front.2.later past) sign.2.proper).bind
    fun value s₅ past₅ placed => ?_
  have named := front.2.later (past₅.trans past)
  exact node_spans fun id => .node (named.union placed.lies)
    (List.forall_mem_singleton.2 named.proper) (List.forall_mem_singleton.2 placed.nested)
    (List.forall_mem_singleton.2 (named.contains_union placed.lies).2)
    (named.contains_union placed.lies).1 rfl

theorem operators_spans (level : Nat) :
    Spans (operators (fuel + 1) level) s (Expr.Placed s.tokens) := by
  unfold operators
  exact (inner.unary s).bind fun left s₁ past₁ placed =>
    inner.operatorsAfter s.tokens level left s₁ past₁ placed

theorem operatorsAfter_spans (level : Nat) {left : Expr} (past : s.tokens <:+ ts)
    (placed : Expr.Placed ts left s.tokens) :
    Spans (operatorsAfter (fuel + 1) level left) s (Expr.Placed ts) := by
  unfold operatorsAfter
  refine kindAhead_spans fun t sees => ?_
  split
  · exact .pure placed
  · rename_i next binds
    have plain : Plain s.tokens := by
      refine sees.plain rfl ?_ ?_ <;> intro kind <;> rw [kind] at binds <;> cases binds
    split
    · exact .pure placed
    refine (take_spans plain).bind fun operator s₁ past₁ mark => ?_
    refine passNewlines_past.bind fun _ s₂ past₂ _ => ?_
    refine (inner.operators next s₂).bind fun right s₃ past₃ other => ?_
    have before : s₂.tokens <:+ s.tokens := past₂.trans past₁
    have first := placed.lies.later (past₃.trans before)
    have second := (mark.2.later (past₃.trans past₂)).earlier past
    have third := other.lies.earlier (before.trans past)
    have lies := (first.union second).union third
    have holds := Span.contains_trans ((first.union second).contains_union third).1
      (first.contains_union second).1
    have holds' := ((first.union second).contains_union third).2
    have whole {form : Form} (parts : form.parts = [left, right])
        (named : ∀ span ∈ form.namedSpans, span.Proper) (lays : ∀ span, form.Lays span)
        (methods : form.methods = []) :
        Spans (node ((left.span.union operator.span).union right.span) form) s₃ (Expr.Placed ts) := by
      refine node_spans fun id => .node lies named ?_ ?_ (lays _) methods
      · rw [parts]
        simpa using ⟨placed.nested, other.nested⟩
      · rw [parts]
        simpa using ⟨holds, holds'⟩
    have goes {p : Parser Expr} (spans : Spans p s₃ (Expr.Placed ts)) :
        Spans (p >>= operatorsAfter fuel level) s₃ (Expr.Placed ts) :=
      spans.bind fun e s₄ past₄ placed' => inner.operatorsAfter ts level e s₄
        (past₄.trans (past₃.trans (before.trans past))) placed'
    refine goes ?_
    split
    · exact whole rfl (List.forall_mem_nil _) (fun _ => trivial) rfl
    split
    · exact whole rfl (List.forall_mem_nil _) (fun _ => trivial) rfl
    · exact whole rfl (List.forall_mem_singleton.2 mark.2.proper) (fun _ => trivial) rfl

theorem unary_spans : Spans (unary (fuel + 1)) s (Expr.Placed s.tokens) := by
  unfold unary
  refine kindAhead_spans fun t sees => ?_
  split
  · rename_i kind
    refine (take_spans (sees.plain kind (by decide) (by decide))).bind fun mark s₁ past₁ front => ?_
    refine (inner.unary s₁).bind fun operand s₂ past₂ placed => ?_
    have first := front.2.later past₂
    have second := placed.lies.earlier past₁
    exact node_spans fun id => .node (first.union second) (List.forall_mem_nil _)
      (List.forall_mem_singleton.2 placed.nested)
      (List.forall_mem_singleton.2 (first.contains_union second).2) trivial rfl
  · rename_i kind
    refine (take_spans (sees.plain kind (by decide) (by decide))).bind fun mark s₁ past₁ front => ?_
    refine (inner.unary s₁).bind fun operand s₂ past₂ placed => ?_
    have first := front.2.later past₂
    have second := placed.lies.earlier past₁
    have lies := first.union second
    have negated : Spans (negation mark.span operand) s₂ fun form ts => ∀ id,
        Expr.Placed s.tokens ⟨id, mark.span.union operand.span, form⟩ ts := by
      unfold negation
      split
      · split
        · exact .fails fun _ run => by cases run
        · exact .pure fun id => .leaf lies rfl rfl trivial rfl
      · exact .pure fun id => .leaf lies rfl rfl trivial rfl
      · exact .pure fun id => .node lies (List.forall_mem_singleton.2 first.proper)
          (List.forall_mem_singleton.2 placed.nested)
          (List.forall_mem_singleton.2 (first.contains_union second).2) trivial rfl
    exact negated.bind fun form s₃ past₃ good => node_spans good
  · exact (inner.primary s).bind fun e s₁ past₁ placed => inner.members s.tokens e s₁ past₁ placed

theorem members_spans {e : Expr} (past : s.tokens <:+ ts) (placed : Expr.Placed ts e s.tokens) :
    Spans (members (fuel + 1) e) s (Expr.Placed ts) := by
  unfold members
  refine kindAhead_spans fun t sees => ?_
  split
  · refine pass_past.bind fun _ s₁ past₁ _ => ?_
    refine passNewlines_past.bind fun _ s₂ past₂ _ => ?_
    refine ahead_spans fun name sees => ?_
    dsimp only
    split
    · rename_i kind
      have plain : Plain s₂.tokens := by
        rcases Bool.or_eq_true_iff.1 kind with same | same
        · exact sees.plain_beq same (by decide) (by decide)
        · exact sees.plain_beq same (by decide) (by decide)
      refine (pass_spans sees plain).bind fun _ s₃ past₃ named => ?_
      have before : s₂.tokens <:+ s.tokens := past₂.trans past₁
      have sent : Spans (call fuel (some e) name) s₃ (Expr.Placed ts) := by
        refine inner.call ts (some e) name s₃ (past₃.trans (before.trans past))
          (named.earlier (before.trans past)) ?_
        rintro _ ⟨⟩
        exact placed.widen List.suffix_rfl (past₃.trans before)
      exact sent.bind fun e' s₄ past₄ placed' =>
        inner.members ts e' s₄ (past₄.trans (past₃.trans (before.trans past))) placed'
    · exact unexpected_bind_spans _
  · exact .pure placed

theorem callWith_spans {receiver : Option Expr} {name : Token} {args : List Expr} {us : List Token}
    (past : s.tokens <:+ us) (before : us <:+ ts) (named : Lies ts us name.span)
    (sent : ∀ e ∈ receiver, Expr.Placed ts e us) (row : Row us args s.tokens) :
    Spans (callWith fuel receiver name args) s (Expr.Placed ts) := by
  obtain ⟨front, holds⟩ : Lies ts us (callStart receiver name) ∧
      ∀ e ∈ receiver, (callStart receiver name).contains e.span = true := by
    cases receiver with
    | none => exact ⟨named, fun _ member => absurd member (Option.not_mem_none _)⟩
    | some r =>
      have first := (sent r rfl).lies
      refine ⟨first.union named, ?_⟩
      rintro _ ⟨⟩
      exact (first.contains_union named).1
  obtain ⟨lies, begins, covers⟩ := row.spanTo front before past
  have operands : ∀ e ∈ receiver.toList ++ args,
      e.Nested ∧ (spanTo (callStart receiver name) args).contains e.span = true := by
    refine List.forall_mem_append.2 ⟨fun e member => ?_, fun e member => ?_⟩
    · have there := Option.mem_toList.1 member
      exact ⟨(sent e there).nested, Span.contains_trans begins (holds e there)⟩
    · exact ⟨(row.placed e member).nested, covers e member⟩
  refine kindAhead_spans fun t sees => ?_
  split
  · rename_i opening
    have plain : Plain s.tokens := by
      rcases Bool.or_eq_true_iff.1 opening with same | same
      · exact sees.plain_beq same (by decide) (by decide)
      · exact sees.plain_beq same (by decide) (by decide)
    refine (inner.block s plain).bind fun b s₁ past₁ made => ?_
    have first := lies.later past₁
    have second := made.2.earlier (past.trans before)
    obtain ⟨left, right⟩ := first.contains_union second
    refine node_spans fun id => .node (first.union second) ?_ ?_ ?_ ⟨right, made.1.inside⟩ rfl
    · refine List.forall_mem_cons.2 ⟨named.proper, List.forall_mem_cons.2 ⟨second.proper, ?_⟩⟩
      exact List.forall_mem_map.2 made.1.parameters
    · exact List.forall_mem_append.2 ⟨fun e member => (operands e member).1, made.1.body⟩
    · exact List.forall_mem_append.2
        ⟨fun e member => Span.contains_trans left (operands e member).2,
          fun e member => Span.contains_trans right (made.1.inside e member)⟩
  · refine node_spans fun id => .node lies (List.forall_mem_singleton.2 named.proper) ?_ ?_ trivial rfl
    · exact List.forall_mem_append.2 ⟨fun e member => (operands e member).1, List.forall_mem_nil _⟩
    · exact List.forall_mem_append.2 ⟨fun e member => (operands e member).2, List.forall_mem_nil _⟩

theorem call_spans {receiver : Option Expr} {name : Token} (past : s.tokens <:+ ts)
    (named : Lies ts s.tokens name.span) (sent : ∀ e ∈ receiver, Expr.Placed ts e s.tokens) :
    Spans (call (fuel + 1) receiver name) s (Expr.Placed ts) := by
  rw [call_eq]
  exact (inner.arguments s).bind fun args s₁ past₁ row =>
    callWith_spans inner past₁ past named sent row

theorem arguments_spans : Spans (arguments (fuel + 1)) s (Row s.tokens) := by
  unfold arguments
  refine kindAhead_spans fun t sees => ?_
  split
  · refine pass_past.bind fun _ s₁ past₁ _ => ?_
    refine passNewlines_past.bind fun _ s₂ past₂ _ => ?_
    refine (inner.argumentsTail s₂).bind fun args s₃ past₃ row => ?_
    exact (expect_past _).bind fun _ s₄ past₄ _ =>
      .pure (row.widen (past₂.trans past₁) past₄)
  split
  · exact inner.commandArguments s
  · exact .pure .nil

theorem argumentsTail_spans : Spans (argumentsTail (fuel + 1)) s (Row s.tokens) := by
  rw [argumentsTail_eq]
  refine kindAhead_spans fun t sees => ?_
  split
  · exact .pure .nil
  refine (inner.expression s).bind fun first s₁ past₁ placed => ?_
  refine passNewlines_past.bind fun _ s₂ past₂ _ => ?_
  refine (separator_past fun _ => looseComma_past).bind fun _ s₃ past₃ _ => ?_
  refine (inner.argumentsTail s₃).bind fun others s₄ past₄ row => .pure ?_
  have past := past₃.trans past₂
  exact .cons (placed.widen List.suffix_rfl past) row (past.trans past₁) past₄

theorem commandArguments_spans : Spans (commandArguments (fuel + 1)) s (Row s.tokens) := by
  unfold commandArguments
  refine (inner.expression s).bind fun first s₁ past₁ placed => ?_
  refine kindAhead_spans fun t sees => ?_
  split
  · refine pass_past.bind fun _ s₂ past₂ _ => ?_
    refine passNewlines_past.bind fun _ s₃ past₃ _ => ?_
    refine (inner.commandArguments s₃).bind fun others s₄ past₄ row => .pure ?_
    have past := past₃.trans past₂
    exact .cons (placed.widen List.suffix_rfl past) row (past.trans past₁) past₄
  · exact .pure (.single placed)

theorem block_spans (plain : Plain s.tokens) :
    Spans (block (fuel + 1)) s fun b ts => b.Nested ∧ Lies s.tokens ts b.span := by
  unfold block
  refine (take_spans plain).bind fun opening s₁ past₁ front => ?_
  refine newId_past.bind fun id s₂ past₂ _ => ?_
  refine blockParameters_spans.bind fun ps s₃ past₃ proper => ?_
  refine (withLocals_spans (inner.body _ _)).bind fun statements s₄ past₄ row => ?_
  refine ahead_spans fun closing sees => ?_
  have before : s₃.tokens <:+ s₁.tokens := past₃.trans past₂
  have row : Row s₁.tokens statements s₄.tokens := row.widen before List.suffix_rfl
  have made {s₅ : ParserState} (past₅ : s₅.tokens <:+ s₄.tokens)
      (back : Lies s₄.tokens s₅.tokens closing.span) :
      Block.Nested ⟨id, opening.span.union closing.span, ps, statements⟩ ∧
        Lies s.tokens s₅.tokens (opening.span.union closing.span) := by
    have past : s₄.tokens <:+ s₁.tokens := past₄.trans before
    refine ⟨⟨proper, fun e member => (row.placed e member).nested, fun e member => ?_⟩, ?_⟩
    · exact front.2.between (row.placed e member).lies back
    · exact (front.2.later (past₅.trans past)).union (back.earlier (past.trans past₁))
  dsimp only
  split
  · exact (expect_spans sees (by decide) (by decide) _).bind fun _ s₅ past₅ back =>
      .pure (made past₅ back)
  · exact (expect_spans sees (by decide) (by decide) _).bind fun _ s₅ past₅ back =>
      .pure (made past₅ back)

omit inner in
/-- A literal is no end. -/
theorem literal?_plain {kind : TokenKind} {l : Literal} (literal : literal? kind = some l) :
    kind ≠ .newline ∧ kind ≠ .ending := by
  constructor <;> rintro rfl <;> cases literal

theorem primary_spans : Spans (primary (fuel + 1)) s (Expr.Placed s.tokens) := by
  unfold primary
  refine ahead_spans fun t sees => ?_
  have leaf {form : Form} (named : form.namedSpans = []) (parts : form.parts = [])
      (lays : form.Lays t.span) (methods : form.methods = []) (plain : Plain s.tokens) :
      Spans (pass >>= fun _ => node t.span form) s (Expr.Placed s.tokens) :=
    (pass_spans sees plain).bind fun _ _ _ lies => node_spans fun id => .leaf lies named parts lays methods
  -- An exit or a `yield` ends with the last of its values.
  have valued {values : List Expr} {form : Form} {s₁ s₂ : ParserState}
      (front : Lies s.tokens s₁.tokens t.span) (past₁ : s₁.tokens <:+ s.tokens)
      (past₂ : s₂.tokens <:+ s₁.tokens) (row : Row s₁.tokens values s₂.tokens)
      (named : form.namedSpans = []) (parts : form.parts = values) (lays : ∀ span, form.Lays span)
      (methods : form.methods = []) :
      Spans (node (spanTo t.span values) form) s₂ (Expr.Placed s.tokens) := by
    obtain ⟨lies, -, covers⟩ := row.spanTo front past₁ past₂
    refine node_spans fun id => .node lies ?_ ?_ ?_ (lays _) methods
    · rw [named]
      exact List.forall_mem_nil _
    · rw [parts]
      exact fun e member => (row.placed e member).nested
    · rw [parts]
      exact covers
  split
  · rename_i l literal
    have plain := literal?_plain literal
    exact leaf rfl rfl trivial rfl (sees.plain rfl plain.1 plain.2)
  split
  · rename_i kind
    refine (pass_spans sees (sees.plain kind (by decide) (by decide))).bind
      fun _ s₁ past₁ lies => ?_
    have asked : Spans (isVariable t.lexeme) s₁ unasked := .of_same fun _ _ run => by
      cases run
      rfl
    refine asked.bind fun known s₂ past₂ _ => ?_
    refine kindAhead_spans fun _ _ => ?_
    split
    · exact node_spans fun id => .leaf (lies.later past₂) rfl rfl trivial rfl
    · refine inner.call s.tokens none t s₂ (past₂.trans past₁) (lies.later past₂) ?_
      exact fun _ member => absurd member (Option.not_mem_none _)
  · rename_i kind
    exact leaf rfl rfl trivial rfl (sees.plain kind (by decide) (by decide))
  · rename_i kind
    exact leaf rfl rfl trivial rfl (sees.plain kind (by decide) (by decide))
  · rename_i kind
    exact leaf rfl rfl trivial rfl (sees.plain kind (by decide) (by decide))
  · rename_i kind
    exact leaf rfl rfl trivial rfl (sees.plain kind (by decide) (by decide))
  · rename_i kind
    refine (pass_spans sees (sees.plain kind (by decide) (by decide))).bind
      fun _ s₁ past₁ front => ?_
    refine passNewlines_past.bind fun _ s₂ past₂ _ => ?_
    refine (inner.expression s₂).bind fun e s₃ past₃ placed => ?_
    refine passNewlines_past.bind fun _ s₄ past₄ _ => ?_
    refine ahead_spans fun closing sees' => ?_
    refine (expect_spans sees' (by decide) (by decide) _).bind fun _ s₅ past₅ back => .pure ?_
    have past : s₄.tokens <:+ s₁.tokens := past₄.trans (past₃.trans past₂)
    have holds := front.between (placed.lies.widen past₂ past₄) back
    have lies := (front.later (past₅.trans past)).union (back.earlier (past.trans past₁))
    obtain ⟨own, parts, bodies⟩ := placed.nested
    exact ⟨.intro (own.widen holds lies.proper) parts bodies, lies⟩
  · rename_i kind
    refine (pass_spans sees (sees.plain kind (by decide) (by decide))).bind
      fun _ s₁ past₁ front => ?_
    refine (inner.arguments s₁).bind fun args s₂ past₂ row => ?_
    exact valued front past₁ past₂ row rfl rfl (fun _ => trivial) rfl
  · rename_i kind
    refine (pass_spans sees (sees.plain kind (by decide) (by decide))).bind
      fun _ s₁ past₁ front => ?_
    refine (inner.exitValue s₁).bind fun value s₂ past₂ row => ?_
    exact valued front past₁ past₂ row rfl rfl (fun _ => trivial) rfl
  · rename_i kind
    refine (pass_spans sees (sees.plain kind (by decide) (by decide))).bind
      fun _ s₁ past₁ front => ?_
    refine (inner.exitValue s₁).bind fun value s₂ past₂ row => ?_
    exact valued front past₁ past₂ row rfl rfl (fun _ => trivial) rfl
  · rename_i kind
    exact inner.conditional .if s (sees.plain kind (by decide) (by decide))
  · rename_i kind
    exact inner.conditional .unless s (sees.plain kind (by decide) (by decide))
  · rename_i kind
    exact inner.loop s (sees.plain kind (by decide) (by decide))
  · exact unexpected_spans _

theorem exitValue_spans : Spans (exitValue (fuel + 1)) s fun value => Row s.tokens value.toList := by
  unfold exitValue
  refine kindAhead_spans fun t sees => ?_
  split
  · exact (inner.expression s).map fun e _ placed => .single placed
  · exact .pure .nil

theorem elseBranch_spans (k : TokenKind) : Spans (elseBranch fuel k) s fun other us =>
    ∀ es ∈ other, Row s.tokens es us := by
  unfold elseBranch
  split
  · refine pass_past.bind fun _ s₁ past₁ _ => (inner.body _ s₁).map fun es ts row => ?_
    rintro _ ⟨⟩
    exact row.widen past₁ List.suffix_rfl
  · exact .pure fun _ member => absurd member (Option.not_mem_none _)

theorem conditional_spans {kind : ConditionKind} (plain : Plain s.tokens) :
    Spans (conditional (fuel + 1) kind) s (Expr.Placed s.tokens) := by
  rw [conditional_eq]
  refine (take_spans plain).bind fun start s₁ past₁ front => ?_
  refine (inner.expression s₁).bind fun condition s₂ past₂ tested => ?_
  refine (inner.body _ s₂).bind fun consequent s₃ past₃ yes => ?_
  have before : s₃.tokens <:+ s₁.tokens := past₃.trans past₂
  -- Whatever ends the conditional comes after the alternative, if there is one.
  have whole {alternative : Option (List Expr)} {last : Span} {s₄ s₅ : ParserState}
      (no : ∀ es ∈ alternative, ∀ e ∈ es, e.Nested ∧ (start.span.union last).contains e.span = true)
      (past₄ : s₄.tokens <:+ s₃.tokens) (past₅ : s₅.tokens <:+ s₄.tokens)
      (back : Lies s₄.tokens s₅.tokens last) : Spans (node (start.span.union last)
        (.conditional kind condition consequent alternative)) s₅ (Expr.Placed s.tokens) := by
    have past := past₄.trans before
    have lies := (front.2.later (past₅.trans past)).union (back.earlier (past.trans past₁))
    have inside : ∀ e ∈ condition :: consequent ++ alternative.getD [],
        e.Nested ∧ (start.span.union last).contains e.span = true := by
      refine List.forall_mem_append.2 ⟨List.forall_mem_cons.2 ⟨⟨tested.nested, ?_⟩,
        fun e member => ⟨(yes.placed e member).nested, ?_⟩⟩, ?_⟩
      · exact front.2.between tested.lies (back.earlier (past₄.trans past₃))
      · exact front.2.between ((yes.placed e member).lies.earlier past₂) (back.earlier past₄)
      · cases alternative with
        | none => exact List.forall_mem_nil _
        | some es => exact no es rfl
    exact node_spans fun id => .node lies (List.forall_mem_nil _) (fun e part => (inside e part).1)
      (fun e part => (inside e part).2) trivial rfl
  refine kindAhead_spans fun t sees => ?_
  split
  · rename_i another
    have plain' := sees.plain_beq (Bool.and_eq_true_iff.1 another).1 (by decide) (by decide)
    refine (inner.conditional .if s₃ plain').bind fun nested s₄ past₄ placed =>
      whole ?_ List.suffix_rfl past₄ placed.lies
    rintro _ ⟨⟩
    exact List.forall_mem_singleton.2 ⟨placed.nested, (front.2.contains_union placed.lies).2⟩
  · refine (elseBranch_spans inner t.kind).bind fun other s₄ past₄ no => ?_
    refine ahead_spans fun last sees => ?_
    refine (expect_spans sees (by decide) (by decide) _).bind fun _ s₅ past₅ back =>
      whole (fun es there e member => ?_) past₄ past₅ back
    have placed := (no es there).placed e member
    exact ⟨placed.nested, front.2.between (placed.lies.earlier before) back⟩

theorem loop_spans (plain : Plain s.tokens) : Spans (loop (fuel + 1)) s (Expr.Placed s.tokens) := by
  unfold loop
  refine (take_spans plain).bind fun start s₁ past₁ front => ?_
  refine (inner.expression s₁).bind fun condition s₂ past₂ tested => ?_
  refine (inner.body _ s₂).bind fun statements s₃ past₃ row => ?_
  refine ahead_spans fun last sees => ?_
  refine (expect_spans sees (by decide) (by decide) _).bind fun _ s₄ past₄ back => ?_
  have past : s₃.tokens <:+ s₁.tokens := past₃.trans past₂
  have lies := (front.2.later (past₄.trans past)).union (back.earlier (past.trans past₁))
  refine node_spans fun id => .node lies (List.forall_mem_nil _) (List.forall_mem_cons.2
    ⟨tested.nested, fun e member => (row.placed e member).nested⟩) (List.forall_mem_cons.2 ⟨?_, ?_⟩)
    (fun e member => tested.lies.after (row.placed e member).lies) rfl
  · exact front.2.between tested.lies (back.earlier past₃)
  · exact fun e member => front.2.between ((row.placed e member).lies.earlier past₂) back

end Steps

theorem spanning (fuel : Nat) : Spanning fuel := by
  induction fuel with
  | zero => exact .none
  | succ fuel inner => exact
    { body := fun _ _ => body_spans inner
      statement := fun _ => statement_spans inner
      modifiers := fun _ _ _ => modifiers_spans inner
      defExpression := fun _ => defExpression_spans inner
      methodDefinition := fun _ => methodDefinition_spans inner
      methodDefinitions := fun _ => methodDefinitions_spans inner
      classDefinition := fun _ => classDefinition_spans inner
      expression := fun _ => expression_spans inner
      assignment := fun target _ => assignment_spans inner target
      operators := fun level _ => operators_spans inner level
      operatorsAfter := fun _ level _ _ => operatorsAfter_spans inner level
      unary := fun _ => unary_spans inner
      members := fun _ _ _ => members_spans inner
      call := fun _ _ _ _ => call_spans inner
      arguments := fun _ => arguments_spans inner
      argumentsTail := fun _ => argumentsTail_spans inner
      commandArguments := fun _ => commandArguments_spans inner
      block := fun _ => block_spans inner
      primary := fun _ => primary_spans inner
      exitValue := fun _ => exitValue_spans inner
      conditional := fun _ _ => conditional_spans inner
      loop := fun _ => loop_spans inner }

end Parser

namespace Module

/-- In a text that has been read, every node fits into its span. -/
theorem read_nested {first next : NodeId} {text : String} {m : Module}
    (read : Module.read first text = .ok (m, next)) : ∀ e ∈ m.body, e.Nested := by
  obtain ⟨tokens, scanned, parsed⟩ := read_ok read
  obtain ⟨s, run, -⟩ := parse_ok parsed
  have row := ((Parser.spanning _).body _ _ (Token.scan_ordered scanned) _ _ run).2
  exact fun e member => (row.placed e member).nested

theorem readAll_nested {first next : NodeId} {texts : List String} {ms : List Module}
    (read : readAll first texts = .ok (ms, next)) : ∀ m ∈ ms, ∀ e ∈ m.body, e.Nested := by
  induction texts generalizing first ms next with
  | nil =>
    cases read
    exact List.forall_mem_nil _
  | cons text texts ih =>
    obtain ⟨m, mid, others, one, rest, rfl⟩ := readAll_cons read
    exact List.forall_mem_cons.2 ⟨read_nested one, ih rest⟩

/-- In a text that has been read every span begins no later than it ends, and the spans of nodes,
blocks and targets nest as these do. The spans are joined to the least one around them. -/
theorem read_spans_nest {first next : NodeId} {text : String} {m : Module}
    (read : Module.read first text = .ok (m, next)) :
    (∀ e ∈ m.body, e.Nested) ∧
    ∀ a b : Span, 1 ≤ a.first.line → 1 ≤ b.first.line →
      (a.union b).contains a = true ∧ (a.union b).contains b = true ∧
        ∀ c : Span, c.contains a = true → c.contains b = true → c.contains (a.union b) = true := by
  refine ⟨read_nested read, fun a b here there => ?_⟩
  obtain ⟨left, right⟩ := Span.contains_union here there
  exact ⟨left, right, fun c => Span.union_contained here there⟩

/-- A string with the end of a line in it, arguments and an inner expression over two lines, a block
behind a call without parentheses, a compound assignment and modifiers. -/
def spanningText : String := "x = \"a\r\nb\"\nx += (y\n)\nfoo.bar 1,\n 2 { |z| z + x } if x unless y\n"

theorem spanningText_nests : ∃ m next, Module.read ⟨0⟩ spanningText = .ok (m, next) ∧
    m.body.length = 3 ∧ ∀ e ∈ m.body, e.Nested := by
  obtain ⟨⟨m, next⟩, read, count⟩ := exists_value (Module.read ⟨0⟩ spanningText)
    (fun r => r.1.body.length == 3) (by decide +kernel)
  exact ⟨m, next, read, beq_iff_eq.1 count, (read_spans_nest read).1⟩

end Module

end TypedBlocks

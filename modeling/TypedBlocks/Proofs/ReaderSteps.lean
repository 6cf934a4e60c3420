import TypedBlocks.Syntax.Source

/-!
# Steps of readers

How each step of a reader runs, and what a run that has succeeded says of it: the token that was
ahead, the state that is left, and the shorter runs that a run is made of. Longer readers are put
together from named parts, so what is to be known of a reader is known of its parts first.
-/
namespace TypedBlocks.Parser

variable {α β : Type} {s s' : ParserState} {p : Parser α} {f : α → Parser β}

section Sequences

theorem bind_run {a : α} (run : p s = .ok (a, s')) : (p >>= f) s = f a s' := by
  simp only [Bind.bind, StateT.bind, run, Except.bind]

theorem bind_stop {stop : ParserStop} (run : p s = .error stop) : (p >>= f) s = .error stop := by
  simp only [Bind.bind, StateT.bind, run, Except.bind]

theorem bind_ok {b : β} (run : (p >>= f) s = .ok (b, s')) :
    ∃ a mid, p s = .ok (a, mid) ∧ f a mid = .ok (b, s') := by
  cases first : p s with
  | error e =>
    rw [bind_stop first] at run
    cases run
  | ok result =>
    obtain ⟨a, mid⟩ := result
    rw [bind_run first] at run
    exact ⟨a, mid, rfl, run⟩

theorem map_ok {g : α → β} {b : β} (run : (g <$> p) s = .ok (b, s')) :
    ∃ a, p s = .ok (a, s') ∧ g a = b := by
  obtain ⟨a, mid, first, rest⟩ := bind_ok (f := fun a => Pure.pure (g a)) run
  cases rest
  exact ⟨a, first, rfl⟩

end Sequences

section Tokens

variable {t : Token} {ts : List Token}

theorem ahead_run (tokens : s.tokens = t :: ts) : ahead s = .ok (t, s) := by
  rw [ahead, tokens]

theorem kindAhead_run (tokens : s.tokens = t :: ts) : kindAhead s = .ok (t.kind, s) := by
  rw [kindAhead, bind_run (ahead_run tokens)]
  rfl

theorem ahead_ok (run : ahead s = .ok (t, s')) : (∃ ts, s.tokens = t :: ts) ∧ s = s' := by
  unfold ahead at run
  split at run
  · cases run
  · rename_i u us tokens
    cases run
    exact ⟨⟨us, tokens⟩, rfl⟩

theorem kindAhead_ok {k : TokenKind} (run : kindAhead s = .ok (k, s')) :
    ∃ t, (∃ ts, s.tokens = t :: ts) ∧ t.kind = k ∧ s = s' := by
  obtain ⟨t, mid, front, same⟩ := bind_ok run
  obtain ⟨sees, rfl⟩ := ahead_ok front
  cases same
  exact ⟨t, sees, rfl, rfl⟩

theorem take_run (tokens : s.tokens = t :: ts) (goes : t.kind ≠ .ending) :
    take s = .ok (t, { s with tokens := ts, previous := some t }) := by
  rw [take, tokens]
  exact if_neg (by simpa using goes)

/-- An ending stays ahead, and any other token is the one that is taken. -/
theorem take_ok (run : take s = .ok (t, s')) : ∃ u us, s.tokens = u :: us ∧
    (u.kind = .ending ∧ s' = s ∨
      u.kind ≠ .ending ∧ t = u ∧ s' = { s with tokens := us, previous := some u }) := by
  unfold take at run
  split at run
  · cases run
  rename_i u us tokens
  refine ⟨u, us, tokens, ?_⟩
  split at run
  · rename_i ending
    split at run <;> cases run
    exact .inl ⟨beq_iff_eq.1 ending, rfl⟩
  · rename_i goes
    cases run
    exact .inr ⟨fun ending => goes (beq_iff_eq.2 ending), rfl, rfl⟩

/-- Passing a token is taking it. -/
theorem pass_ok {a : Unit} (run : pass s = .ok (a, s')) : ∃ t, take s = .ok (t, s') := by
  obtain ⟨t, mid, taken, same⟩ := bind_ok run
  cases same
  exact ⟨t, taken⟩

theorem passWhile_run {q : TokenKind → Bool} (left : s.tokens.dropWhile (fun t => q t.kind) = t :: ts) :
    passWhile q s = .ok ((), { s with
      tokens := t :: ts
      previous := (s.tokens.takeWhile fun t => q t.kind).getLast?.or s.previous }) := by
  rw [passWhile, left]

theorem passWhile_ok {q : TokenKind → Bool} {a : Unit} (run : passWhile q s = .ok (a, s')) :
    s'.tokens = s.tokens.dropWhile (fun t => q t.kind) ∧ s'.nextId = s.nextId ∧
      s'.locals = s.locals := by
  unfold passWhile at run
  dsimp only at run
  split at run <;> cases run
  exact ⟨rfl, rfl, rfl⟩

end Tokens

/-- Inside, the local names are others; everything else that happens there stays. -/
theorem withLocals_ok {names : List String → List String} {a : α}
    (run : withLocals names p s = .ok (a, s')) :
    ∃ mid, p { s with locals := names s.locals } = .ok (a, mid) ∧
      s' = { mid with locals := s.locals } := by
  unfold withLocals at run
  obtain ⟨outer, _, got, run⟩ := bind_ok run
  cases got
  obtain ⟨_, _, changed, run⟩ := bind_ok run
  cases changed
  obtain ⟨b, mid, inside, run⟩ := bind_ok run
  obtain ⟨_, _, restored, run⟩ := bind_ok run
  cases restored
  cases run
  exact ⟨mid, inside, rfl⟩

section Refusals

theorem outOfFuel_fails (r : α × ParserState) : (outOfFuel : Parser α) s ≠ .ok r := nofun

theorem unexpected_fails (what : Expectation) (r : α × ParserState) :
    (unexpected what : Parser α) s ≠ .ok r := fun run => by
  obtain ⟨_, _, -, refused⟩ := bind_ok run
  cases refused

/-- After a refused token nothing is read. -/
theorem unexpected_bind_fails (what : Expectation) (r : β × ParserState) :
    (unexpected what >>= f) s ≠ .ok r := fun run => by
  obtain ⟨_, _, refused, -⟩ := bind_ok run
  exact unexpected_fails what _ refused

end Refusals

section Pieces

/-- What stands between two members of a list: a comma, with which `comma` goes on, or nothing in front
of the mark that closes the list. -/
def separator (comma : Parser Unit) (closing : Mark) (what : Expectation) : Parser Unit := do
  let k ← kindAhead
  if k == .mark .comma then comma
  else unless k == .mark closing do unexpected what

/-- A comma at which the line may end. -/
def looseComma : Parser Unit := do
  pass
  passNewlines

/-- The end of a statement: a separator, or nothing in front of what closes the body. -/
def statementEnd (closes : TokenKind → Bool) : Parser Unit := do
  let k ← kindAhead
  if isSeparator k then pass
  else unless closes k || k == .ending do unexpected .endOfStatement

/-- A statement that begins with a token of the kind; where another text is required there is none. -/
def statementAt (fuel : Nat) (k : TokenKind) : Parser (List Expr) :=
  if k == .keyword .require then requirement *> pure [] else (fun e => [e]) <$> statement fuel

/-- An expression with the condition that stands after it, and more of them. -/
def guarded (fuel : Nat) (kind : ConditionKind) (e : Expr) : Parser Expr := do
  pass
  let condition ← expression fuel
  modifiers fuel (← node (e.span.union condition.span) (.conditional kind condition [e] none))

/-- The parameters and the body of a method, in which the parameters are local. -/
def methodParts (fuel : Nat) : Parser (List Parameter × List Expr) := do
  let ps ← parameters fuel
  ps.forM fun p => declare p.name
  return (ps, ← body fuel endsBody)

/-- A local variable that is assigned is declared. -/
def declareTarget (target : Variable) : Parser Unit := do
  if target.kind == .local then declare target.name

/-- What is assigned: the operand, or what the operator makes of it and the variable. -/
def assignedValue (fuel : Nat) (target : Variable) (targetSpan : Span) (operator : Token) :
    Parser Expr := do
  let operand ← expression fuel
  match compoundOperator? operator.kind with
  | none => return operand
  | some name =>
    let current ← node targetSpan (.read target)
    node (targetSpan.union operand.span) (.call (some current) name operator.span [operand] none)

/-- Where a call begins: at the receiver, or at the name where there is none. -/
def callStart (receiver : Option Expr) (name : Token) : Span :=
  match receiver with
  | some r => r.span.union name.span
  | none => name.span

/-- A call whose arguments have been read, with the block that may follow them. -/
def callWith (fuel : Nat) (receiver : Option Expr) (name : Token) (args : List Expr) : Parser Expr := do
  let span := spanTo (callStart receiver name) args
  let k ← kindAhead
  if k == .mark .leftBrace || k == .keyword .do then
    let b ← block fuel
    node (span.union b.span) (.call receiver name.lexeme name.span args (some b))
  else node span (.call receiver name.lexeme name.span args none)

/-- The branch of a conditional that a token of the kind begins, if it is `else`. -/
def elseBranch (fuel : Nat) (k : TokenKind) : Parser (Option (List Expr)) :=
  if k == .keyword .else then pass *> some <$> body fuel endsBody else pure none

theorem ite_bind {c : Prop} [Decidable c] {p q : Parser α} {f : α → Parser β} :
    (if c then p else q) >>= f = if c then p >>= f else q >>= f := by
  split <;> rfl

variable (fuel : Nat)

theorem parametersTail_eq : parametersTail (fuel + 1) = (do
    if (← kindAhead) == .mark .rightParen then return []
    let name ← ahead
    unless name.kind == .identifier do unexpected .parameterName
    pass
    let restriction ← typeNameAfter .colon
    passNewlines
    separator looseComma .rightParen .parameterSeparator
    return ⟨name.lexeme, name.span, restriction⟩ :: (← parametersTail fuel)) := by
  rw [parametersTail]
  simp only [separator, looseComma, bind_assoc, pure_bind, ite_bind]

theorem blockParametersTail_eq : blockParametersTail (fuel + 1) = (do
    if (← kindAhead) == .mark .pipe then return []
    let name ← definedName .identifier .blockParameterName
    separator pass .pipe .blockParameterSeparator
    return ⟨name.lexeme, name.span⟩ :: (← blockParametersTail fuel)) := by
  rw [blockParametersTail]
  simp only [separator, bind_assoc, pure_bind, ite_bind]

theorem argumentsTail_eq : argumentsTail (fuel + 1) = (do
    if (← kindAhead) == .mark .rightParen then return []
    let first ← expression fuel
    passNewlines
    separator looseComma .rightParen .argumentSeparator
    return first :: (← argumentsTail fuel)) := by
  rw [argumentsTail]
  simp only [separator, looseComma, bind_assoc, pure_bind, ite_bind]

theorem body_eq (closes : TokenKind → Bool) : body (fuel + 1) closes = (do
    passSeparators
    let k ← kindAhead
    if k == .ending || closes k then return []
    let first ← statementAt fuel k
    statementEnd closes
    return first ++ (← body fuel closes)) := by
  rw [body]
  simp only [statementAt, statementEnd, bind_assoc, pure_bind, ite_bind]

theorem modifiers_eq (e : Expr) : modifiers (fuel + 1) e = (do
    match ← kindAhead with
    | .keyword .if => guarded fuel .if e
    | .keyword .unless => guarded fuel .unless e
    | _ => return e) := by
  rw [modifiers]
  rfl

theorem methodDefinition_eq : methodDefinition (fuel + 1) = (do
    expect (.keyword .define) .defKeyword
    let id ← newId
    let name ← definedName .identifier .methodName
    let (ps, statements) ← withLocals (fun _ => []) (methodParts fuel)
    expect (.keyword .end) .endOfMethod
    return ⟨id, name.lexeme, name.span, ps, statements⟩) := by
  rw [methodDefinition]
  rfl

theorem assignedValue_bind (target : Variable) (targetSpan : Span) (operator : Token)
    (f : Expr → Parser α) : assignedValue fuel target targetSpan operator >>= f = (do
    let operand ← expression fuel
    match compoundOperator? operator.kind with
    | none => f operand
    | some name =>
      let current ← node targetSpan (.read target)
      let value ← node (targetSpan.union operand.span)
        (.call (some current) name operator.span [operand] none)
      f value) := by
  rw [assignedValue, bind_assoc]
  congr 1
  funext operand
  split <;> simp only [pure_bind, bind_assoc]

theorem assignment_eq (target : Variable) : assignment (fuel + 1) target = (do
    let targetToken ← take
    let operator ← take
    passNewlines
    declareTarget target
    let value ← assignedValue fuel target targetToken.span operator
    node (targetToken.span.union value.span) (.assign target targetToken.span value)) := by
  rw [assignment]
  simp only [declareTarget, assignedValue_bind, pure_bind, ite_bind] <;> rfl

theorem call_eq (receiver : Option Expr) (name : Token) :
    call (fuel + 1) receiver name = arguments fuel >>= callWith fuel receiver name := by
  unfold call
  cases receiver <;> rfl

theorem conditional_eq (kind : ConditionKind) : conditional (fuel + 1) kind = (do
    let start ← take
    let condition ← expression fuel
    let consequent ← body fuel endsBranch
    let k ← kindAhead
    if k == .keyword .elsif && kind == .if then
      let nested ← conditional fuel .if
      node (start.span.union nested.span) (.conditional kind condition consequent (some [nested]))
    else
      let other ← elseBranch fuel k
      let last ← ahead
      expect (.keyword .end) .endOfConditional
      node (start.span.union last.span) (.conditional kind condition consequent other)) := by
  rw [conditional]
  simp only [elseBranch, pure_bind, ite_bind]

end Pieces

end TypedBlocks.Parser

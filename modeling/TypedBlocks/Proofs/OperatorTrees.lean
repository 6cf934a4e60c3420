import TypedBlocks.Proofs.PrintedOperators

/-!
# Operators read by precedence

Reading the text of an operator tree gives the tree back. An operand is read by the reader for the level
of the operator on its left: where the operator on its right binds more tightly, that reader goes on, and
otherwise it hands back what it has. So it is enough to follow one reader through the lexemes of a tree at
one level, up to a lexeme with which no operand goes on there.
-/
namespace TypedBlocks

/-- The form that the operator makes of its operands. -/
def Operator.form (o : Operator) (left : Expr) (span : Span) (right : Expr) : Form :=
  match o with
  | .or => .logical .or left right
  | .and => .logical .and left right
  | o => .call (some left) o.text span [right] none

namespace OperatorTree

/-- The expression is the tree, up to the numbers and the spans of nodes. -/
def Shapes : OperatorTree → Expr → Prop
  | .read name, e => e.form = .read ⟨.local, name⟩
  | .literal value, e => e.form = .literal (.integer (Int64.ofNat value))
  | .not t, e => ∃ d, e.form = .not d ∧ t.Shapes d
  | .negative t, e => ∃ d span, e.form = .call (some d) "-" span [] none ∧ t.Shapes d
  | .binary o l r, e => ∃ a span b, e.form = o.form a span b ∧ l.Shapes a ∧ r.Shapes b

section Shapes

variable {names : List String} {t u l r : OperatorTree} {o : Operator} {e d : Expr}

theorem Shapes.of_form (same : d.form = e.form) (shapes : t.Shapes e) : t.Shapes d := by
  cases t <;> simpa only [Shapes, same] using shapes

/-- An operator and its operands can be told from the form that it makes of them. -/
theorem form_inj {p : Operator} {a b a' b' : Expr} {span span' : Span}
    (same : o.form a span b = p.form a' span' b') : o = p ∧ a = a' ∧ b = b' := by
  cases o <;> cases p <;> simp_all [Operator.form, Operator.text]

theorem literal_inj {n m : Nat} (left : n < Nat.pow 2 63) (right : m < Nat.pow 2 63)
    (same : Int64.ofNat n = Int64.ofNat m) : n = m := by
  have same := congrArg Int64.toNatClampNeg same
  rwa [Int64.toNatClampNeg_ofNat_of_lt left, Int64.toNatClampNeg_ofNat_of_lt right] at same

/-- What an operator makes of its operands is no other tree. -/
theorem Shapes.parts (shapes : u.Shapes e) (whole : (binary o l r).Shapes e) :
    ∃ a b l' r', u = .binary o l' r' ∧ (l.Shapes a ∧ l'.Shapes a) ∧ r.Shapes b ∧ r'.Shapes b := by
  obtain ⟨a, span, b, form, left, right⟩ := whole
  cases u with
  | binary p l' r' =>
    obtain ⟨a', span', b', form', left', right'⟩ := shapes
    obtain ⟨rfl, rfl, rfl⟩ := form_inj (form.symm.trans form')
    exact ⟨a, b, l', r', rfl, ⟨left, left'⟩, right, right'⟩
  | _ =>
    simp only [Shapes, form] at shapes
    cases o <;> simp [Operator.form] at shapes

theorem Shapes.not_binary (shapes : t.Shapes e) (other : ∀ o l r, t ≠ .binary o l r) :
    ¬ (binary o l r).Shapes e := by
  intro whole
  obtain ⟨_, _, l', r', same, -⟩ := shapes.parts whole
  exact other o l' r' same

/-- An expression is only one tree. -/
theorem Shapes.unique (shapes : t.Shapes e) (legal : t.Over names) (shapes' : u.Shapes e)
    (legal' : u.Over names) : t = u := by
  induction t generalizing u e with
  | binary o l r left right =>
    obtain ⟨a, b, l', r', rfl, ⟨first, first'⟩, second, second'⟩ := shapes'.parts shapes
    rw [left first legal.1 first' legal'.1, right second legal.2 second' legal'.2]
  | read name =>
    cases u with
    | binary => exact absurd shapes' (shapes.not_binary nofun)
    | _ => simp_all [Shapes]
  | literal value =>
    cases u with
    | binary => exact absurd shapes' (shapes.not_binary nofun)
    | literal value' =>
      rw [Shapes] at shapes shapes'
      rw [shapes, Form.literal.injEq, Literal.integer.injEq] at shapes'
      rw [literal_inj legal legal' shapes']
    | _ => simp_all [Shapes]
  | not t ih =>
    cases u with
    | binary => exact absurd shapes' (shapes.not_binary nofun)
    | not u =>
      obtain ⟨d, form, inner⟩ := shapes
      obtain ⟨d', form', inner'⟩ := shapes'
      cases form.symm.trans form'
      rw [ih inner legal inner' legal']
    | _ =>
      obtain ⟨d, form, -⟩ := shapes
      simp_all [Shapes]
  | negative t ih =>
    cases u with
    | binary => exact absurd shapes' (shapes.not_binary nofun)
    | negative u =>
      obtain ⟨d, span, form, inner⟩ := shapes
      obtain ⟨d', span', form', inner'⟩ := shapes'
      cases form.symm.trans form'
      rw [ih inner legal.1 inner' legal'.1]
    | _ =>
      obtain ⟨d, span, form, -⟩ := shapes
      simp_all [Shapes]

end Shapes

/-- A lexeme that the reader of an expression neither passes over nor takes for an assignment, nor for the
end or the beginning of a statement. -/
inductive Ordinary : TokenKind → Prop
  | word : Ordinary .identifier
  | number (value : Int64) : Ordinary (.integer value)
  | mark {m : Mark} (plain : Parser.isAssignment (.mark m) = false) (other : m ≠ .semicolon) :
    Ordinary (.mark m)

namespace Ordinary

variable {k : TokenKind}

theorem isNewline (ordinary : Ordinary k) : Parser.isNewline k = false := by cases ordinary <;> rfl

theorem isSeparator (ordinary : Ordinary k) : Parser.isSeparator k = false := by
  cases ordinary with
  | mark plain other => simpa [Parser.isSeparator] using other
  | _ => rfl

theorem isAssignment (ordinary : Ordinary k) : Parser.isAssignment k = false := by
  cases ordinary with
  | mark plain => exact plain
  | _ => rfl

end Ordinary

theorem lexemes_ordinary (t : OperatorTree) (n : Nat) : ∀ x ∈ t.lexemes n, Ordinary x.1 := by
  induction t generalizing n with
  | read name => exact List.forall_mem_singleton.2 .word
  | literal value => exact List.forall_mem_singleton.2 (.number _)
  | not t ih => exact List.forall_mem_cons.2 ⟨.mark rfl nofun, ih 7⟩
  | negative t ih => exact List.forall_mem_cons.2 ⟨.mark rfl nofun, ih 7⟩
  | binary o l r left right =>
    have operator : Ordinary (.mark o.mark) := by cases o <;> exact .mark rfl nofun
    have bare : ∀ x ∈ l.lexemes o.level ++ o.lexeme :: r.lexemes (o.level + 1), Ordinary x.1 :=
      List.forall_mem_append.2 ⟨left _, List.forall_mem_cons.2 ⟨operator, right _⟩⟩
    rcases Nat.lt_or_ge o.level n with tight | stands
    · rw [lexemes_enclosed tight, lexemes_bare o.level_pos, List.forall_mem_append,
        List.forall_mem_cons, List.forall_mem_singleton]
      exact ⟨⟨.mark rfl nofun, bare⟩, .mark rfl nofun⟩
    · rw [lexemes_bare stands]
      exact bare

end OperatorTree

/-- The tokens ahead without their places. -/
def ParserState.view (s : ParserState) : List (TokenKind × String) := s.tokens.map Token.content

namespace Parser

open OperatorTree (Shapes)

variable {α : Type} {s : ParserState} {k : TokenKind} {text : String} {xs rest : List (TokenKind × String)}

section Steps

theorem ahead_view (view : s.view = (k, text) :: xs) :
    ∃ t, ahead s = .ok (t, s) ∧ t.kind = k ∧ t.lexeme = text := by
  obtain ⟨t, ts, tokens, content, -⟩ := List.map_eq_cons_iff.1 view
  cases content
  exact ⟨t, ahead_run tokens, rfl, rfl⟩

theorem kindAhead_view (view : s.view = (k, text) :: xs) : kindAhead s = .ok (k, s) := by
  obtain ⟨t, ts, tokens, content, -⟩ := List.map_eq_cons_iff.1 view
  cases content
  exact kindAhead_run tokens

theorem secondKind_view {x : TokenKind × String} (view : s.view = x :: (k, text) :: xs) :
    secondKind s = .ok (some k, s) := by
  obtain ⟨t, ts, tokens, -, after⟩ := List.map_eq_cons_iff.1 view
  obtain ⟨u, us, rfl, content, -⟩ := List.map_eq_cons_iff.1 after
  cases content
  rw [secondKind, tokens]
  rfl

/-- The state behind the token ahead. -/
theorem take_view (view : s.view = (k, text) :: xs) (goes : k ≠ .ending) :
    ∃ t s', take s = .ok (t, s') ∧ (t.kind = k ∧ t.lexeme = text) ∧
      s'.view = xs ∧ s'.locals = s.locals := by
  obtain ⟨t, ts, tokens, content, after⟩ := List.map_eq_cons_iff.1 view
  cases content
  exact ⟨t, _, take_run tokens goes, ⟨rfl, rfl⟩, after, rfl⟩

theorem pass_view (view : s.view = (k, text) :: xs) (goes : k ≠ .ending) :
    ∃ s', pass s = .ok ((), s') ∧ s'.view = xs ∧ s'.locals = s.locals := by
  obtain ⟨t, s', run, -, after⟩ := take_view view goes
  refine ⟨s', ?_, after⟩
  rw [pass, bind_run run]
  rfl

theorem expect_view (what : Expectation) (view : s.view = (k, text) :: xs) (goes : k ≠ .ending) :
    ∃ s', expect k what s = .ok ((), s') ∧ s'.view = xs ∧ s'.locals = s.locals := by
  obtain ⟨s', run, after⟩ := pass_view view goes
  refine ⟨s', ?_, after⟩
  rw [expect, bind_run (kindAhead_view view), if_pos (beq_self_eq_true k), run]

theorem passWhile_view {p : TokenKind → Bool} (view : s.view = (k, text) :: xs) (stays : p k = false) :
    passWhile p s = .ok ((), s) := by
  obtain ⟨t, ts, tokens, content, -⟩ := List.map_eq_cons_iff.1 view
  cases content
  have stays : p t.kind = false := stays
  obtain ⟨_, _, _, _⟩ := s
  subst tokens
  simp [passWhile, stays]

/-- No newline stands in front of a tree. -/
theorem passNewlines_lexemes {t : OperatorTree} {n : Nat} (view : s.view = t.lexemes n ++ rest) :
    passNewlines s = .ok ((), s) := by
  obtain ⟨⟨k, text⟩, xs, front⟩ := t.lexemes_cons n
  have ordinary := t.lexemes_ordinary n (k, text) (by simp [front])
  rw [front] at view
  exact passWhile_view view ordinary.isNewline

theorem node_run (span : Span) (form : Form) :
    ∃ e s', node span form s = .ok (e, s') ∧ e.form = form ∧ s'.view = s.view ∧ s'.locals = s.locals :=
  ⟨_, _, rfl, rfl, rfl, rfl⟩

end Steps

/-- With the first of the lexemes no operand goes on, and no operator does that binds more tightly than at
level `n`. -/
def EndsAt (n : Nat) (rest : List (TokenKind × String)) : Prop :=
  ∃ x xs, rest = x :: xs ∧ (x.1 ≠ .mark .dot ∧ x.1 ≠ .mark .leftParen ∧ x.1 ≠ .mark .question) ∧
    isAssignment x.1 = false ∧ ∀ m, bindingLevel x.1 = some m → m ≤ n

/-- The reader gives the tree, and leaves the lexemes `rest` ahead and the names as local variables. -/
def Restores (p : Parser Expr) (s : ParserState) (t : OperatorTree) (names : List String)
    (rest : List (TokenKind × String)) : Prop :=
  ∃ e s', p s = .ok (e, s') ∧ t.Shapes e ∧ s'.view = rest ∧ s'.locals = names

section Rules

variable {f : α → Parser Expr} {t u : OperatorTree} {e : Expr} {names names' : List String}
  {mid : List (TokenKind × String)} {n fuel : Nat}

theorem Restores.of_run {p : Parser α} {a : α} {s' : ParserState} (run : p s = .ok (a, s'))
    (more : Restores (f a) s' t names rest) : Restores (p >>= f) s t names rest := by
  rwa [Restores, bind_run run]

theorem Restores.bind {p : Parser Expr} {f : Expr → Parser Expr} (first : Restores p s u names' mid)
    (more : ∀ e s', u.Shapes e → s'.view = mid → s'.locals = names' → Restores (f e) s' t names rest) :
    Restores (p >>= f) s t names rest := by
  obtain ⟨e, s', run, shapes, view, locals⟩ := first
  exact .of_run run (more e s' shapes view locals)

theorem Restores.pure (shapes : t.Shapes e) (view : s.view = rest) (locals : s.locals = names) :
    Restores (Pure.pure e) s t names rest := ⟨e, s, rfl, shapes, view, locals⟩

theorem node_restores {span : Span} {form : Form} (shapes : ∀ e : Expr, e.form = form → t.Shapes e)
    (view : s.view = rest) (locals : s.locals = names) : Restores (node span form) s t names rest :=
  ⟨_, _, rfl, shapes _ rfl, view, locals⟩

theorem kindAhead_restores {f : TokenKind → Parser Expr} (view : s.view = (k, text) :: xs)
    (more : Restores (f k) s t names rest) : Restores (kindAhead >>= f) s t names rest :=
  .of_run (kindAhead_view view) more

theorem pass_restores {f : Unit → Parser Expr} (view : s.view = (k, text) :: xs) (goes : k ≠ .ending)
    (more : ∀ s', s'.view = xs → s'.locals = s.locals → Restores (f ()) s' t names rest) :
    Restores (pass >>= f) s t names rest := by
  obtain ⟨s', run, after, locals⟩ := pass_view view goes
  exact .of_run run (more s' after locals)

theorem take_restores {f : Token → Parser Expr} (view : s.view = (k, text) :: xs) (goes : k ≠ .ending)
    (more : ∀ t' s', s'.view = xs → s'.locals = s.locals → Restores (f t') s' t names rest) :
    Restores (take >>= f) s t names rest := by
  obtain ⟨t', s', run, -, after, locals⟩ := take_view view goes
  exact .of_run run (more t' s' after locals)

theorem passNewlines_restores {f : Unit → Parser Expr} (view : s.view = (k, text) :: xs)
    (other : isNewline k = false) (more : Restores (f ()) s t names rest) :
    Restores (passNewlines >>= f) s t names rest := .of_run (passWhile_view view other) more

theorem members_restores (shapes : t.Shapes e) (ends : EndsAt n s.view) :
    Restores (members (fuel + 1) e) s t s.locals s.view := by
  obtain ⟨⟨k, text⟩, xs, view, ⟨dot, -, -⟩, -⟩ := ends
  refine kindAhead_restores view ?_
  rw [if_neg (by simpa using dot)]
  exact .pure shapes rfl rfl

end Rules

section Operands

variable {t : OperatorTree} {names : List String} {n fuel level : Nat} {e : Expr}

theorem operatorsAfter_stop (ends : EndsAt n s.view) (le : n ≤ level) :
    operatorsAfter (fuel + 1) level e s = .ok (e, s) := by
  obtain ⟨⟨k, text⟩, xs, view, -, -, binds⟩ := ends
  rw [operatorsAfter, bind_run (kindAhead_view view)]
  cases next : bindingLevel k with
  | none => rfl
  | some m =>
    dsimp only
    rw [if_pos (Nat.le_trans (binds m next) le)]
    rfl

theorem unary_of_primary (view : s.view = (k, text) :: xs) (bang : k ≠ .mark .bang)
    (minus : k ≠ .mark .minus) (ends : EndsAt n rest)
    (primary : Restores (primary (fuel + 1)) s t names rest) :
    Restores (unary (fuel + 2)) s t names rest := by
  refine kindAhead_restores view ?_
  split
  · exact absurd rfl bang
  · exact absurd rfl minus
  · refine .bind primary fun e s' shapes view' locals' => ?_
    rw [← view'] at ends ⊢
    rw [← locals']
    exact members_restores shapes ends

theorem primary_read {name : String} (view : s.view = (.identifier, name) :: rest) (ends : EndsAt n rest)
    (known : name ∈ s.locals) : Restores (primary (fuel + 1)) s (.read name) s.locals rest := by
  obtain ⟨t, run, kind, lexeme⟩ := ahead_view view
  obtain ⟨⟨k, text⟩, xs, rfl, ⟨-, paren, -⟩, -⟩ := ends
  refine .of_run run ?_
  rw [kind, lexeme]
  refine pass_restores view nofun fun s₁ view₁ locals₁ => ?_
  refine .of_run (a := s₁.locals.contains name) rfl (kindAhead_restores view₁ ?_)
  rw [locals₁, List.contains_iff_mem.2 known, if_pos (by simpa using paren)]
  exact node_restores (fun _ form => form) view₁ locals₁

theorem primary_literal {value : Nat} (view : s.view = (.integer (Int64.ofNat value), text) :: rest) :
    Restores (primary (fuel + 1)) s (.literal value) s.locals rest := by
  obtain ⟨t, run, kind, -⟩ := ahead_view view
  refine .of_run run ?_
  rw [kind]
  refine pass_restores view nofun fun s₁ view₁ locals₁ => ?_
  exact node_restores (fun _ form => form) view₁ locals₁

/-- Parentheses change the span of what they enclose, and nothing else. -/
theorem primary_parens (view : s.view = OperatorTree.opening :: (k, text) :: xs)
    (other : isNewline k = false)
    (inner : ∀ s', s'.view = (k, text) :: xs → s'.locals = s.locals →
      Restores (expression fuel) s' t s.locals (OperatorTree.closing :: rest)) :
    Restores (primary (fuel + 1)) s t s.locals rest := by
  obtain ⟨open', run, kind, -⟩ := ahead_view view
  refine .of_run run ?_
  rw [kind]
  refine pass_restores view nofun fun s₁ view₁ locals₁ => ?_
  refine passNewlines_restores view₁ other ?_
  refine .bind (inner s₁ view₁ locals₁) fun e s₂ shapes view₂ locals₂ => ?_
  refine passNewlines_restores view₂ rfl ?_
  obtain ⟨close, run₂, -⟩ := ahead_view view₂
  obtain ⟨s₃, run₃, view₃, locals₃⟩ := expect_view .closingParen view₂ nofun
  refine .of_run run₂ (.of_run run₃ (
    .pure (Shapes.of_form (e := e) rfl shapes) view₃ (locals₃.trans locals₂)))

/-- With enough fuel, the lexemes of the tree behind a mark are read as one operand. -/
def UnaryReads (t : OperatorTree) : Prop :=
  ∀ (fuel : Nat) {s : ParserState} {rest : List (TokenKind × String)}, s.view = t.lexemes 7 ++ rest →
    EndsAt 7 rest → t.Over s.locals → 8 * (t.lexemes 7).length ≤ fuel + 1 →
    Restores (unary fuel) s t s.locals rest

/-- With enough fuel, the lexemes of the tree are read as an operand at any level at which its operators
go on, and there the reader looks for further operators. -/
def OperatorsRead (t : OperatorTree) (n : Nat) : Prop :=
  ∀ (fuel : Nat) {level : Nat} {s : ParserState} {rest : List (TokenKind × String)}, level < n →
    s.view = t.lexemes n ++ rest → EndsAt n rest → t.Over s.locals → 8 * (t.lexemes n).length ≤ fuel →
    ∃ fuel' e s', operators fuel level s = operatorsAfter fuel' level e s' ∧
      fuel ≤ fuel' + 8 * (t.lexemes n).length ∧ t.Shapes e ∧ s'.view = rest ∧ s'.locals = s.locals

/-- With enough fuel, the lexemes of the tree are read as an expression. -/
def ExpressionReads (t : OperatorTree) : Prop :=
  ∀ (fuel : Nat) {s : ParserState} {rest : List (TokenKind × String)}, s.view = t.lexemes 1 ++ rest →
    EndsAt 0 rest → t.Over s.locals → 8 * (t.lexemes 1).length + 2 ≤ fuel →
    Restores (expression fuel) s t s.locals rest

theorem unary_read (name : String) : UnaryReads (.read name) := by
  intro fuel s rest view ends legal enough
  match fuel, enough with
  | fuel + 2, _ => exact unary_of_primary view nofun nofun ends (primary_read view ends legal)

theorem unary_literal (value : Nat) : UnaryReads (.literal value) := by
  intro fuel s rest view ends legal enough
  match fuel, enough with
  | fuel + 2, _ => exact unary_of_primary view nofun nofun ends (primary_literal view)

theorem unary_not (operand : UnaryReads t) : UnaryReads (.not t) := by
  intro fuel s rest view ends legal enough
  have enough : 8 * ((t.lexemes 7).length + 1) ≤ fuel + 1 := enough
  match fuel, enough with
  | fuel + 1, enough =>
  refine kindAhead_restores view (take_restores view nofun fun mark s₁ view₁ locals₁ => ?_)
  refine .bind (operand fuel view₁ ends (locals₁ ▸ legal) (by omega)) fun d s₂ shapes view₂ locals₂ => ?_
  exact node_restores (fun _ form => ⟨d, form, shapes⟩) view₂ (locals₂.trans locals₁)

/-- What is no literal is not negated in place. -/
theorem negation_run {mark : Span} {d : Expr} (shapes : t.Shapes d) (other : ∀ n, t ≠ .literal n) :
    negation mark d s = .ok (.call (some d) "-" mark [] none, s) := by
  cases t with
  | literal value => exact absurd rfl (other value)
  | read name =>
    rw [Shapes] at shapes
    rw [negation, shapes]
    rfl
  | not t =>
    obtain ⟨a, form, -⟩ := shapes
    rw [negation, form]
    rfl
  | negative t =>
    obtain ⟨a, span, form, -⟩ := shapes
    rw [negation, form]
    rfl
  | binary o l r =>
    obtain ⟨a, span, b, form, -⟩ := shapes
    rw [negation, form]
    cases o <;> rfl

theorem unary_negative (operand : UnaryReads t) : UnaryReads (.negative t) := by
  intro fuel s rest view ends legal enough
  have enough : 8 * ((t.lexemes 7).length + 1) ≤ fuel + 1 := enough
  match fuel, enough with
  | fuel + 1, enough =>
  refine kindAhead_restores view (take_restores view nofun fun mark s₁ view₁ locals₁ => ?_)
  refine .bind (operand fuel view₁ ends (locals₁ ▸ legal.1) (by omega)) fun d s₂ shapes view₂ locals₂ => ?_
  refine .of_run (negation_run shapes legal.2) ?_
  exact node_restores (fun _ form => ⟨d, mark.span, form, shapes⟩) view₂ (locals₂.trans locals₁)

theorem EndsAt.mono {m : Nat} (ends : EndsAt n rest) (le : n ≤ m) : EndsAt m rest := by
  obtain ⟨x, xs, same, marks, other, binds⟩ := ends
  exact ⟨x, xs, same, marks, other, fun i level => Nat.le_trans (binds i level) le⟩

/-- What is one operand anyway is read as one at every level. -/
theorem operators_of_unary (operand : UnaryReads t) (same : t.lexemes n = t.lexemes 7) (le : n ≤ 7) :
    OperatorsRead t n := by
  intro fuel level s rest _ view ends legal enough
  rw [same] at view enough ⊢
  obtain ⟨x, xs, front⟩ := t.lexemes_cons 7
  have some : 0 < (t.lexemes 7).length := by simp [front]
  match fuel, enough with
  | 0, enough => omega
  | fuel + 1, enough =>
    obtain ⟨e, s', run, shapes, view', locals'⟩ := operand fuel view (ends.mono le) legal (by omega)
    exact ⟨fuel, e, s', by rw [operators, bind_run run], by omega, shapes, view', locals'⟩

theorem bindingLevel_operator (o : Operator) : bindingLevel (.mark o.mark) = some o.level := by
  cases o <;> rfl

/-- With an operator every operand ends that binds as tightly. -/
theorem endsAt_operator (o : Operator) (le : o.level ≤ n) (xs : List (TokenKind × String)) :
    EndsAt n (o.lexeme :: xs) := by
  refine ⟨o.lexeme, xs, rfl, ?_, ?_, fun m binds => ?_⟩
  · cases o <;> exact ⟨nofun, nofun, nofun⟩
  · cases o <;> rfl
  · rw [Operator.lexeme, bindingLevel_operator, Option.some.injEq] at binds
    exact binds ▸ le

theorem operator_form {o : Operator} {operator : Token} {a b : Expr}
    (kind : operator.kind = .mark o.mark) (lexeme : operator.lexeme = o.text) :
    (if operator.kind == .mark .doublePipe then Form.logical .or a b
      else if operator.kind == .mark .doubleAmpersand then .logical .and a b
      else .call (some a) operator.lexeme operator.span [b] none) = o.form a operator.span b := by
  rw [kind, lexeme]
  cases o <;> rfl

/-- At the level of an operator, or a looser one, the reader takes its left operand, goes on with it, and
has its right operand read at the level of the operator, where one of that level ends it. -/
theorem operators_binary {o : Operator} {l r : OperatorTree} (left : OperatorsRead l o.level)
    (right : OperatorsRead r (o.level + 1)) (bare : n ≤ o.level) : OperatorsRead (.binary o l r) n := by
  intro fuel level s rest less view ends legal enough
  rw [OperatorTree.lexemes_bare bare] at view enough ⊢
  simp only [List.append_assoc, List.cons_append, List.length_append, List.length_cons] at view enough ⊢
  obtain ⟨fuel₁, a, s₁, run₁, used₁, first, view₁, locals₁⟩ :=
    left fuel (Nat.lt_of_lt_of_le less bare) view (endsAt_operator o (Nat.le_refl _) _) legal.1 (by omega)
  match fuel₁, used₁ with
  | 0, used₁ => omega
  | fuel₁ + 1, used₁ =>
  obtain ⟨operator, s₂, taken, ⟨kind, lexeme⟩, view₂, locals₂⟩ := take_view view₁ nofun
  have skipped := passNewlines_lexemes view₂
  have legal₂ : r.Over s₂.locals := by rw [locals₂, locals₁]; exact legal.2
  obtain ⟨fuel₂, b, s₃, run₃, used₃, second, view₃, locals₃⟩ :=
    right fuel₁ (Nat.lt_succ_self o.level) view₂ (ends.mono (by omega)) legal₂ (by omega)
  match fuel₂, used₃ with
  | 0, used₃ => omega
  | fuel₂ + 1, used₃ =>
  rw [operatorsAfter_stop (view₃ ▸ ends) bare] at run₃
  obtain ⟨e, s₄, made, form, view₄, locals₄⟩ :=
    node_run (s := s₃) ((a.span.union operator.span).union b.span) (o.form a operator.span b)
  refine ⟨fuel₁, e, s₄, ?_, by omega, ⟨a, operator.span, b, form, first, second⟩, view₄.trans view₃,
    locals₄.trans (locals₃.trans (locals₂.trans locals₁))⟩
  rw [run₁, operatorsAfter, bind_run (kindAhead_view view₁), bindingLevel_operator]
  dsimp only
  rw [if_neg (by omega), bind_run taken, bind_run skipped, bind_run run₃, operator_form kind lexeme,
    bind_run made]

theorem assignedVariable?_none {x : TokenKind × String} (view : s.view = x :: (k, text) :: xs)
    (other : isAssignment k = false) : assignedVariable? s = .ok (none, s) := by
  obtain ⟨t, run, -⟩ := ahead_view view
  rw [assignedVariable?, bind_run run, bind_run (secondKind_view view)]
  dsimp only
  rw [if_neg (by simp [other])]
  rfl

/-- Behind an expression comes no operator, so that the reader stops. -/
theorem expression_of_operators (operators : OperatorsRead t 1) : ExpressionReads t := by
  intro fuel s rest view ends legal enough
  match fuel, enough with
  | fuel + 1, enough =>
  obtain ⟨fuel', e, s', run, used, shapes, view', locals'⟩ :=
    operators fuel Nat.one_pos view (ends.mono (by decide)) legal (by omega)
  match fuel', used with
  | 0, used => omega
  | fuel' + 1, used =>
  rw [operatorsAfter_stop (view' ▸ ends) (Nat.le_refl 0)] at run
  obtain ⟨⟨k, text⟩, ys, rfl, ⟨-, -, question⟩, assigns, -⟩ := ends
  have noAssignment : assignedVariable? s = .ok (none, s) := by
    obtain ⟨x, xs, front⟩ := t.lexemes_cons 1
    have ordinary := t.lexemes_ordinary 1
    rw [front] at view ordinary
    cases xs with
    | nil => exact assignedVariable?_none view assigns
    | cons y xs => exact assignedVariable?_none view (ordinary y (by simp)).isAssignment
  refine .of_run noAssignment (.of_run run (kindAhead_restores view' ?_))
  rw [if_neg (by simpa using question)]
  exact .pure shapes view' locals'

theorem endsAt_closing : EndsAt 0 (OperatorTree.closing :: rest) :=
  ⟨_, _, rfl, ⟨nofun, nofun, nofun⟩, rfl, nofun⟩

theorem unary_parens {o : Operator} {l r : OperatorTree} (inner : ExpressionReads (.binary o l r)) :
    UnaryReads (.binary o l r) := by
  intro fuel s rest view ends legal enough
  rw [OperatorTree.lexemes_enclosed (Nat.lt_succ_of_le o.level_le)] at view enough
  simp only [List.cons_append, List.append_assoc, List.length_cons, List.length_append, List.length_nil,
    List.nil_append] at view enough
  match fuel, enough with
  | fuel + 2, enough =>
  obtain ⟨⟨k, text⟩, xs, front⟩ := (OperatorTree.binary o l r).lexemes_cons 1
  have ordinary := (OperatorTree.binary o l r).lexemes_ordinary 1 (k, text) (by simp [front])
  refine unary_of_primary view nofun nofun ends ?_
  refine primary_parens (by rw [view, front]; rfl) ordinary.isNewline fun s' view' locals' => ?_
  have within : s'.view = (OperatorTree.binary o l r).lexemes 1 ++ OperatorTree.closing :: rest := by
    rw [view', front]
    rfl
  have restores := inner fuel within endsAt_closing (locals' ▸ legal) (by omega)
  rwa [locals'] at restores

theorem tree_reads (t : OperatorTree) : UnaryReads t ∧ ∀ n ≤ 7, OperatorsRead t n := by
  induction t with
  | read name => exact ⟨unary_read name, fun n => operators_of_unary (unary_read name) rfl⟩
  | literal value => exact ⟨unary_literal value, fun n => operators_of_unary (unary_literal value) rfl⟩
  | not t ih => exact ⟨unary_not ih.1, fun n => operators_of_unary (unary_not ih.1) rfl⟩
  | negative t ih => exact ⟨unary_negative ih.1, fun n => operators_of_unary (unary_negative ih.1) rfl⟩
  | binary o l r left right =>
    have loose := o.level_le
    have bare {n : Nat} (le : n ≤ o.level) : OperatorsRead (.binary o l r) n :=
      operators_binary (left.2 o.level (by omega)) (right.2 (o.level + 1) (by omega)) le
    have unary := unary_parens (expression_of_operators (bare o.level_pos))
    refine ⟨unary, fun n le => ?_⟩
    by_cases stands : n ≤ o.level
    · exact bare stands
    · -- Here the operator stands in parentheses, as it does behind a mark.
      have tight : o.level < n := Nat.lt_of_not_le stands
      have same := OperatorTree.lexemes_enclosed (l := l) (r := r) tight
      rw [← OperatorTree.lexemes_enclosed (Nat.lt_succ_of_le o.level_le)] at same
      exact operators_of_unary unary same le

/-- The lexemes of an operator tree are read as an expression, which is the tree. -/
theorem expression_reads (t : OperatorTree) : ExpressionReads t :=
  expression_of_operators ((tree_reads t).2 1 (by decide))

end Operands

section Texts

variable {t : OperatorTree} {fuel : Nat} {e : Expr} {s' : ParserState} {k' : TokenKind}

theorem endsAt_newline : EndsAt 0 ((.newline, text) :: rest) :=
  ⟨_, _, rfl, ⟨nofun, nofun, nofun⟩, rfl, nofun⟩

theorem endsAt_ending : EndsAt 0 ((.ending, text) :: rest) :=
  ⟨_, _, rfl, ⟨nofun, nofun, nofun⟩, rfl, nofun⟩

/-- After an assignment its variable is a local one. -/
theorem expression_assignment (fuel : Nat) {name : String}
    (view : s.view = (.identifier, name) :: (.mark .equal, "=") ::
      (t.lexemes 1 ++ (.newline, text) :: rest)) (legal : t.Over (name :: s.locals))
    (enough : 8 * (t.lexemes 1).length + 4 ≤ fuel) : ∃ e s', expression fuel s = .ok (e, s') ∧
      s'.view = (.newline, text) :: rest ∧ s'.locals = name :: s.locals := by
  match fuel, enough with
  | fuel + 2, enough =>
  obtain ⟨target, run, kind, lexeme⟩ := ahead_view view
  have assigned : assignedVariable? s = .ok (some ⟨.local, name⟩, s) := by
    rw [assignedVariable?, bind_run run, bind_run (secondKind_view view), kind, lexeme]
    rfl
  obtain ⟨first, s₁, taken, -, view₁, locals₁⟩ := take_view view nofun
  obtain ⟨operator, s₂, taken₂, ⟨kind₂, -⟩, view₂, locals₂⟩ := take_view view₁ nofun
  have skipped := passNewlines_lexemes view₂
  let s₃ : ParserState := { s₂ with locals := name :: s₂.locals }
  have legal₃ : t.Over s₃.locals := by
    change t.Over (name :: s₂.locals)
    rw [locals₂, locals₁]
    exact legal
  obtain ⟨value, s₄, read, -, view₄, locals₄⟩ :=
    expression_reads t fuel (s := s₃) view₂ endsAt_newline legal₃ (by omega)
  obtain ⟨e, s₅, made, -, view₅, locals₅⟩ :=
    node_run (s := s₄) (first.span.union value.span) (.assign ⟨.local, name⟩ first.span value)
  refine ⟨e, s₅, ?_, view₅.trans view₄, ?_⟩
  · rw [expression, bind_run assigned]
    dsimp only
    rw [assignment, bind_run taken, bind_run taken₂, bind_run skipped]
    have declares : declare name s₂ = .ok ((), s₃) := rfl
    rw [if_pos (beq_self_eq_true VariableKind.local), bind_run declares]
    dsimp only
    rw [bind_run read, kind₂]
    exact made
  · rw [locals₅, locals₄]
    change name :: s₂.locals = _
    rw [locals₂, locals₁]

/-- An expression of ordinary lexemes is a statement of a line of its own. -/
theorem statement_of_expression (view : s.view = (k, text) :: xs) (ordinary : OperatorTree.Ordinary k)
    (read : expression (fuel + 1) s = .ok (e, s')) {text' : String} (view' : s'.view = (k', text') :: rest)
    (ends : k' = .newline ∨ k' = .ending) : statement (fuel + 2) s = .ok (e, s') := by
  have unguarded : modifiers (fuel + 1) e s' = .ok (e, s') := by
    rw [modifiers, bind_run (kindAhead_view view')]
    rcases ends with rfl | rfl <;> rfl
  rw [statement, bind_run (kindAhead_view view)]
  cases ordinary <;>
    · dsimp only
      rw [bind_run read, unguarded]

theorem body_ending (closes : TokenKind → Bool) (view : s.view = (.ending, text) :: xs) :
    body (fuel + 1) closes s = .ok ([], s) := by
  rw [body, bind_run (show passSeparators s = .ok ((), s) from passWhile_view view rfl),
    bind_run (kindAhead_view view)]
  rfl

/-- A line is read, and then the lines behind it. -/
theorem body_line {s₁ s₂ : ParserState} {es : List Expr} (view : s.view = (k, text) :: xs)
    (ordinary : OperatorTree.Ordinary k) (read : statement fuel s = .ok (e, s₁))
    (more : (∃ text' ys s', s₁.view = (.newline, text') :: ys ∧ pass s₁ = .ok ((), s') ∧
        body fuel endsModule s' = .ok (es, s₂)) ∨
      ∃ text' ys, s₁.view = (.ending, text') :: ys ∧ body fuel endsModule s₁ = .ok (es, s₂)) :
    body (fuel + 1) endsModule s = .ok (e :: es, s₂) := by
  have passed : passSeparators s = .ok ((), s) := passWhile_view view ordinary.isSeparator
  have first : ((fun e => [e]) <$> statement fuel) s = .ok ([e], s₁) :=
    bind_run (f := fun e => Pure.pure [e]) read
  have goes : (k == .ending || endsModule k) = false := by cases ordinary <;> rfl
  have required : (k == .keyword .require) = false := by cases ordinary <;> rfl
  rw [body, bind_run passed, bind_run (kindAhead_view view), if_neg (by simp [goes])]
  dsimp only
  rw [if_neg (by simp [required]), bind_run first]
  rcases more with ⟨text', ys, s', view', pass', rest⟩ | ⟨text', ys, view', rest⟩
  · rw [bind_run (kindAhead_view view'), if_pos (by decide), bind_run pass',
      bind_run rest]
    rfl
  · rw [bind_run (kindAhead_view view'), if_neg (by decide), if_pos (by decide),
      bind_run rest]
    rfl

/-- An operator tree on the last line is read as the last statement. -/
theorem body_tree (fuel : Nat) (view : s.view = t.lexemes 1 ++ [(.ending, "")])
    (legal : t.Over s.locals) (enough : 8 * (t.lexemes 1).length + 16 ≤ fuel) :
    ∃ e s', body fuel endsModule s = .ok ([e], s') ∧ t.Shapes e := by
  match fuel, enough with
  | fuel + 4, enough =>
  obtain ⟨⟨k, text⟩, xs, front⟩ := t.lexemes_cons 1
  have ordinary := t.lexemes_ordinary 1 (k, text) (by simp [front])
  obtain ⟨e, s₁, read, shapes, view₁, -⟩ :=
    expression_reads t (fuel + 2) view endsAt_ending legal (by omega)
  have view : s.view = (k, text) :: (xs ++ [(.ending, "")]) := by rw [view, front]; rfl
  have stated := statement_of_expression view ordinary read view₁ (.inr rfl)
  have ended : body (fuel + 3) endsModule s₁ = .ok ([], s₁) := body_ending endsModule view₁
  exact ⟨e, s₁, body_line view ordinary stated (.inr ⟨_, _, view₁, ended⟩), shapes⟩

/-- Lines that declare variables and an operator tree behind them are read as so many assignments and
the tree. -/
theorem body_declared (names : List String) (t : OperatorTree) (fuel : Nat) {s : ParserState}
    (view : s.view = OperatorTree.declared names ++ (t.lexemes 1 ++ [(.ending, "")]))
    (legal : t.Over (names ++ s.locals))
    (enough : 8 * (t.lexemes 1).length + names.length + 16 ≤ fuel) :
    ∃ es e s', body fuel endsModule s = .ok (es ++ [e], s') ∧ es.length = names.length ∧ t.Shapes e := by
  induction names generalizing fuel s with
  | nil =>
    obtain ⟨e, s', read, shapes⟩ := body_tree fuel view legal (by omega)
    exact ⟨[], e, s', read, rfl, shapes⟩
  | cons name names ih =>
    rw [List.length_cons] at enough
    match fuel, enough with
    | fuel + 16, enough =>
    have line := view.trans (OperatorTree.declared_cons name names _)
    have zero : (OperatorTree.literal 0).Over (name :: s.locals) := Nat.two_pow_pos 63
    have alone : ((OperatorTree.literal 0).lexemes 1).length = 1 := rfl
    obtain ⟨e, s₁, read, view₁, locals₁⟩ := expression_assignment (fuel + 14) line zero (by omega)
    have stated := statement_of_expression line .word read view₁ (.inl rfl)
    obtain ⟨s₂, passed, view₂, locals₂⟩ := pass_view view₁ nofun
    have legal₂ : t.Over (names ++ s₂.locals) := by
      refine legal.mono fun x member => ?_
      rw [locals₂, locals₁]
      simp only [List.mem_append, List.mem_cons] at member ⊢
      tauto
    obtain ⟨es, last, s₃, rest, count, shapes⟩ := ih (fuel + 15) view₂ legal₂ (by omega)
    refine ⟨e :: es, last, s₃, ?_, congrArg (· + 1) count, shapes⟩
    exact body_line line .word stated (.inl ⟨_, _, s₂, view₁, passed, rest⟩)

end Texts

end Parser

namespace OperatorTree

open Token (CutsInto content scan)

section Texts

variable {names : List String} {t : OperatorTree} {gap : Nat → String}

theorem exists_scan {text : String} {xs : List (TokenKind × String)} (cuts : CutsInto text.toList xs) :
    ∃ tokens, scan text = .ok tokens ∧ tokens.map content = xs := by
  obtain ⟨tokens, cut, contents⟩ := cuts Position.start
  exact ⟨tokens, Token.scan_eq_ok_iff.2 cut, contents⟩

/-- The tokens of a printed tree are read as an expression wherever one is read and the variables are
local ones. -/
theorem scan_print (named : ∀ x ∈ names, IsLocalName x) (legal : t.Over names) (blank : Blank gap) :
    ∃ ts last, scan (t.print gap) = .ok (ts ++ [last]) ∧ last.kind = .ending ∧
      ∀ fuel s rest, s.tokens = ts ++ rest → Parser.EndsAt 0 (rest.map content) →
        (∀ x ∈ names, x ∈ s.locals) → 8 * ts.length + 2 ≤ fuel →
        Parser.Restores (Parser.expression fuel) s t s.locals (rest.map content) := by
  obtain ⟨tokens, scans, contents⟩ := exists_scan (cutsInto_print named legal blank)
  obtain ⟨ts, behind, rfl, same, ending⟩ := List.map_eq_append_iff.1 contents
  obtain ⟨last, rfl, kind⟩ := List.map_eq_singleton_iff.1 ending
  refine ⟨ts, last, scans, congrArg Prod.fst kind, fun fuel s rest tokens ends known enough => ?_⟩
  have view : s.view = t.lexemes 1 ++ rest.map content := by
    rw [ParserState.view, tokens, List.map_append, same]
  refine Parser.expression_reads t fuel view ends (legal.mono known) ?_
  rwa [← same, List.length_map]

/-- A printed tree is the last expression of a text that declares its variables in front of it. -/
theorem read_print (named : ∀ x ∈ names, IsLocalName x) (legal : t.Over names) (blank : Blank gap)
    (first : NodeId) : ∃ es e next, Module.read first (declarations names ++ t.print gap) =
      .ok (⟨es ++ [e]⟩, next) ∧ es.length = names.length ∧ t.Shapes e := by
  have cuts := cutsInto_declarations named (cutsInto_print named legal blank)
  rw [← String.toList_append] at cuts
  obtain ⟨tokens, scans, contents⟩ := exists_scan cuts
  have size := congrArg List.length contents
  simp only [List.length_map, List.length_append, List.length_singleton, length_declared] at size
  obtain ⟨es, e, s, run, count, shapes⟩ := Parser.body_declared names t (16 * tokens.length + 16)
    (s := ⟨tokens, none, first, []⟩) contents (by simpa using legal) (by omega)
  refine ⟨es, e, s.nextId, ?_, count, shapes⟩
  have parsed : Module.parse first tokens = .ok (⟨es ++ [e]⟩, s.nextId) := by
    rw [Module.parse, Parser.statements, run]
  rw [Module.read, scans]
  dsimp only
  rw [parsed]

/-- Printed trees are read back. With any blanks between its lexemes the text of a tree is read as the
tree, at each place where its variables are local ones, and so behind lines that declare them; and it is
the text of no other tree. -/
theorem print_reads_back (named : ∀ x ∈ names, IsLocalName x) (legal : t.Over names) (blank : Blank gap) :
    (∃ ts last, scan (t.print gap) = .ok (ts ++ [last]) ∧ last.kind = .ending ∧
      ∀ fuel s rest, s.tokens = ts ++ rest → Parser.EndsAt 0 (rest.map content) →
        (∀ x ∈ names, x ∈ s.locals) → 8 * ts.length + 2 ≤ fuel →
        Parser.Restores (Parser.expression fuel) s t s.locals (rest.map content)) ∧
    (∀ first, ∃ es e next, Module.read first (declarations names ++ t.print gap) =
      .ok (⟨es ++ [e]⟩, next) ∧ es.length = names.length ∧ t.Shapes e) ∧
    ∀ u gap', u.Over names → Blank gap' → u.print gap' = t.print gap → u = t := by
  refine ⟨scan_print named legal blank, read_print named legal blank, fun u gap' legal' blank' same => ?_⟩
  obtain ⟨es, e, next, read, -, shapes⟩ := read_print named legal blank ⟨0⟩
  obtain ⟨es', e', next', read', -, shapes'⟩ := read_print named legal' blank' ⟨0⟩
  -- One text is read in one way only.
  rw [same, read, Except.ok.injEq, Prod.mk.injEq, Module.mk.injEq] at read'
  have last : e = e' := (List.append_inj' read'.1 rfl).2 |> List.singleton_inj.1
  exact shapes'.unique legal' (last ▸ shapes) legal

end Texts

/-- Operators of different levels and of equal ones on both sides, and marks on marks. -/
def nestedTree : OperatorTree :=
  .binary .or (.binary .sub (.read "a") (.binary .sub (.read "b_1") (.literal 10)))
    (.binary .eq (.not (.not (.binary .lt (.read "a") (.negative (.negative (.read "a"))))))
      (.binary .mul (.binary .rem (.literal 2) (.read "b_1")) (.binary .add (.literal 0) (.read "a"))))

theorem nestedTree_reads_back :
    nestedTree.print (fun _ => "") = "a-(b_1-10)||!!(a<--a)==2%b_1*(0+a)" ∧
    (∀ first, ∃ es e next,
      Module.read first ("a = 0\nb_1 = 0\n" ++ "a-(b_1-10)||!!(a<--a)==2%b_1*(0+a)") =
        .ok (⟨es ++ [e]⟩, next) ∧ es.length = 2 ∧ nestedTree.Shapes e) ∧
    ∀ u gap, u.Over ["a", "b_1"] → Blank gap → u.print gap = nestedTree.print (fun _ => "") →
      u = nestedTree := by
  have named : ∀ x ∈ ["a", "b_1"], IsLocalName x := by
    rw [List.forall_mem_cons, List.forall_mem_singleton]
    exact ⟨⟨⟨'a', [], rfl, rfl, rfl⟩, by decide⟩, ⟨⟨'b', ['_', '1'], rfl, rfl, rfl⟩, by decide⟩⟩
  have legal : nestedTree.Over ["a", "b_1"] := by simp [nestedTree, Over]
  have blank : Blank fun _ => "" := fun _ _ => nofun
  obtain ⟨-, reads, only⟩ := print_reads_back named legal blank
  have text : nestedTree.print (fun _ => "") = "a-(b_1-10)||!!(a<--a)==2%b_1*(0+a)" := by decide
  rw [text] at reads
  exact ⟨text, reads, only⟩

end OperatorTree

end TypedBlocks

import TypedBlocks.Proofs.SourceNames
import TypedBlocks.Proofs.TokenOrder

/-!
# Nested spans

A reader covers a stretch of the tokens in order, and what it gives begins and ends with tokens of
that stretch. So the spans of the nodes nest as the nodes do, and what is read later stands later.
-/
namespace TypedBlocks

namespace Position

variable {p q r : Position}

theorem earlier_cases (p q : Position) : p.earlier q = p ∨ p.earlier q = q := by
  unfold earlier
  split
  · exact .inl rfl
  · exact .inr rfl

theorem later_cases (p q : Position) : p.later q = p ∨ p.later q = q := by
  unfold later
  split
  · exact .inl rfl
  · exact .inr rfl

theorem earlier_le (p q : Position) : p.earlier q ≤ p ∧ p.earlier q ≤ q := by
  unfold earlier
  split
  · exact ⟨p.le_refl, ‹_›⟩
  · exact ⟨(p.le_total q).resolve_left ‹_›, q.le_refl⟩

theorem le_later (p q : Position) : p ≤ p.later q ∧ q ≤ p.later q := by
  unfold later
  split
  · exact ⟨p.le_refl, ‹_›⟩
  · exact ⟨(p.le_total q).resolve_right ‹_›, q.le_refl⟩

end Position

namespace Span

variable {a b c d : Span}

/-- The span begins no later than it ends. -/
def Proper (s : Span) : Prop := s.first ≤ s.last

theorem contains_iff : a.contains b = true ↔ a.first ≤ b.first ∧ b.last ≤ a.last :=
  decide_eq_true_iff

theorem contains_refl (s : Span) : s.contains s = true :=
  contains_iff.2 ⟨s.first.le_refl, s.last.le_refl⟩

theorem contains_trans (outer : a.contains b = true) (inner : b.contains c = true) :
    a.contains c = true := by
  rw [contains_iff] at *
  exact ⟨Position.le_trans outer.1 inner.1, Position.le_trans inner.2 outer.2⟩

theorem isAfter_iff : a.isAfter b = true ↔ b.last.Before a.first := by
  rw [isAfter, decide_eq_true_iff, Position.before_iff]

/-- What stands inside later spans is later, too. -/
theorem isAfter_inside (after : a.isAfter b = true) (later : a.contains c = true)
    (earlier : b.contains d = true) : c.isAfter d = true := by
  rw [contains_iff] at later earlier
  rw [isAfter_iff] at after ⊢
  exact Position.Before.of_le earlier.2 (after.trans_le later.1)

theorem union_eq (first : 1 ≤ a.first.line) (second : 1 ≤ b.first.line) :
    a.union b = ⟨a.first.earlier b.first, a.last.later b.last⟩ := by
  have there {s : Span} (line : 1 ≤ s.first.line) : ¬ s.isNowhere = true := by
    rw [isNowhere, beq_iff_eq]
    omega
  rw [union, if_neg (there first), if_neg (there second)]

/-- The span around two spans of texts holds both. -/
theorem contains_union (first : 1 ≤ a.first.line) (second : 1 ≤ b.first.line) :
    (a.union b).contains a = true ∧ (a.union b).contains b = true := by
  rw [union_eq first second, contains_iff, contains_iff]
  have front := a.first.earlier_le b.first
  have back := a.last.le_later b.last
  exact ⟨⟨front.1, back.1⟩, front.2, back.2⟩

/-- No span that holds both is smaller than the span around them. -/
theorem union_contained (first : 1 ≤ a.first.line) (second : 1 ≤ b.first.line)
    (left : c.contains a = true) (right : c.contains b = true) : c.contains (a.union b) = true := by
  rw [contains_iff] at left right
  rw [union_eq first second, contains_iff]
  rcases a.first.earlier_cases b.first with front | front <;>
    rcases a.last.later_cases b.last with back | back <;> simp [front, back, left, right]

end Span

section Definitions

/-- The spans that a method names: its own name's and those of its parameters. -/
def MethodDef.namedSpans (m : MethodDef) : List Span := m.nameSpan :: m.parameters.map (·.span)

def ForeignDef.namedSpans (f : ForeignDef) : List Span := f.span :: f.parameters.map (·.span)

/-- The spans that a form names besides those of the nodes in it. -/
def Form.namedSpans : Form → List Span
  | .assign _ target _ => [target]
  | .call _ _ name _ none => [name]
  | .call _ _ name _ (some b) => name :: b.span :: b.parameters.map (·.span)
  | .defMethod m => m.namedSpans
  | .defClass c => c.nameSpan :: c.methods.flatMap MethodDef.namedSpans
  | .defLib l => l.nameSpan :: l.functions.flatMap ForeignDef.namedSpans
  | _ => []

/-- How the spans in a form lie in its own span besides those of its parts. -/
def Form.Lays (span : Span) : Form → Prop
  | .assign _ target _ => span.contains target = true
  | .call _ _ _ _ (some b) =>
    span.contains b.span = true ∧ ∀ e ∈ b.body, b.span.contains e.span = true
  | .while condition body => ∀ e ∈ body, e.span.isAfter condition.span = true
  | _ => True

/-- The span of a node holds the spans in it. -/
structure Form.Fits (span : Span) (f : Form) : Prop where
  proper : span.Proper
  named : ∀ s ∈ f.namedSpans, s.Proper
  parts : ∀ e ∈ f.parts, span.contains e.span = true
  lays : f.Lays span

end Definitions

/-- Every node in the expression fits into its span, in the methods that it defines, too. -/
inductive Expr.Nested : Expr → Prop
  | intro {e : Expr} (own : e.form.Fits e.span) (parts : ∀ d ∈ e.parts, Nested d)
    (bodies : ∀ m ∈ e.form.methods, ∀ d ∈ m.body, Nested d) : Nested e

/-- The same of a method that is defined. -/
structure MethodDef.Nested (m : MethodDef) : Prop where
  named : ∀ s ∈ m.namedSpans, s.Proper
  body : ∀ e ∈ m.body, e.Nested

/-- The same of a block. -/
structure Block.Nested (b : Block) : Prop where
  parameters : ∀ p ∈ b.parameters, p.span.Proper
  body : ∀ e ∈ b.body, e.Nested
  inside : ∀ e ∈ b.body, b.span.contains e.span = true

open Token (Ordered)

section Stretches

variable {ts ts₀ ts₁ ts₂ ts₃ : List Token} {a b c : Span} {p : Position} {t : Token}

/-- All tokens ahead stand after the place. -/
def Ahead (p : Position) (ts : List Token) : Prop :=
  ∀ t ∈ ts, t.kind ≠ .newline → p.Before t.position

/-- The span begins and ends with tokens that the second list has no more. -/
structure Lies (ts ts' : List Token) (s : Span) : Prop where
  proper : s.Proper
  line : 1 ≤ s.first.line
  first : ∀ p, Ahead p ts → p.Before s.first
  last : Ahead s.last ts'

theorem Ahead.suffix (ahead : Ahead p ts) (past : ts₁ <:+ ts) : Ahead p ts₁ :=
  fun t member => ahead t (past.subset member)

namespace Lies

theorem widen (lies : Lies ts ts₁ a) (before : ts <:+ ts₀) (after : ts₂ <:+ ts₁) : Lies ts₀ ts₂ a :=
  ⟨lies.proper, lies.line, fun p ahead => lies.first p (ahead.suffix before), lies.last.suffix after⟩

theorem earlier (lies : Lies ts ts₁ a) (before : ts <:+ ts₀) : Lies ts₀ ts₁ a :=
  lies.widen before List.suffix_rfl

theorem later (lies : Lies ts ts₁ a) (after : ts₂ <:+ ts₁) : Lies ts ts₂ a :=
  lies.widen List.suffix_rfl after

/-- The token ahead. -/
theorem token (ordered : Ordered (t :: ts)) (other : t.kind ≠ .newline) : Lies (t :: ts) ts t.span := by
  have order := List.pairwise_cons.1 ordered.order
  exact ⟨t.span_proper, ordered.lines t List.mem_cons_self,
    fun p ahead => ahead t List.mem_cons_self other, fun u member => order.1 u member other⟩

/-- What is read later stands later. -/
theorem after (first : Lies ts ts₁ a) (second : Lies ts₁ ts₂ b) : b.isAfter a = true :=
  Span.isAfter_iff.2 (second.first _ first.last)

theorem union (first : Lies ts ts₁ a) (second : Lies ts ts₁ b) : Lies ts ts₁ (a.union b) := by
  rw [Span.union_eq first.line second.line]
  have front := a.first.earlier_le b.first
  have back := a.last.le_later b.last
  refine ⟨Position.le_trans front.1 (Position.le_trans first.proper back.1), ?_, fun p ahead => ?_, ?_⟩
  · rcases a.first.earlier_cases b.first with same | same <;> dsimp only <;> rw [same]
    · exact first.line
    · exact second.line
  · rcases a.first.earlier_cases b.first with same | same <;> dsimp only <;> rw [same]
    · exact first.first p ahead
    · exact second.first p ahead
  · rcases a.last.later_cases b.last with same | same <;> dsimp only <;> rw [same]
    · exact first.last
    · exact second.last

theorem contains_union (first : Lies ts ts₁ a) (second : Lies ts₂ ts₃ b) :
    (a.union b).contains a = true ∧ (a.union b).contains b = true :=
  Span.contains_union first.line second.line

/-- The span around two spans holds what has been read between them. -/
theorem between (first : Lies ts ts₁ a) (inner : Lies ts₁ ts₂ c) (second : Lies ts₂ ts₃ b) :
    (a.union b).contains c = true := by
  obtain ⟨left, right⟩ := first.contains_union second
  rw [Span.contains_iff] at left right ⊢
  have before : a.first ≤ c.first :=
    Position.le_trans first.proper (inner.first _ first.last).le
  have after : c.last ≤ b.last := Position.le_trans (second.first _ inner.last).le second.proper
  exact ⟨Position.le_trans left.1 before, Position.le_trans after right.2⟩

end Lies

/-- A node that has been read between the two lists. -/
structure Expr.Placed (ts : List Token) (e : Expr) (ts' : List Token) : Prop where
  nested : e.Nested
  lies : Lies ts ts' e.span

theorem Expr.Placed.widen {e : Expr} (placed : Expr.Placed ts e ts₁) (before : ts <:+ ts₀)
    (after : ts₂ <:+ ts₁) : Expr.Placed ts₀ e ts₂ := ⟨placed.nested, placed.lies.widen before after⟩

/-- Nodes that have been read one after another between the two lists. -/
structure Row (ts : List Token) (es : List Expr) (ts' : List Token) : Prop where
  placed : ∀ e ∈ es, Expr.Placed ts e ts'
  order : es.Pairwise fun d e => e.span.isAfter d.span = true

namespace Row

variable {es : List Expr} {e : Expr}

theorem nil : Row ts [] ts₁ := ⟨List.forall_mem_nil _, .nil⟩

theorem single (placed : Expr.Placed ts e ts₁) : Row ts [e] ts₁ :=
  ⟨List.forall_mem_singleton.2 placed, List.pairwise_singleton _ _⟩

theorem widen (row : Row ts es ts₁) (before : ts <:+ ts₀) (after : ts₂ <:+ ts₁) : Row ts₀ es ts₂ :=
  ⟨fun e member => (row.placed e member).widen before after, row.order⟩

theorem append {first rest : List Expr} (row : Row ts first ts₁) (others : Row ts₁ rest ts₂)
    (past : ts₁ <:+ ts) (past' : ts₂ <:+ ts₁) : Row ts (first ++ rest) ts₂ := by
  refine ⟨List.forall_mem_append.2 ⟨fun e member => ?_, fun e member => ?_⟩,
    List.pairwise_append.2 ⟨row.order, others.order, fun d one e two => ?_⟩⟩
  · exact (row.placed e member).widen List.suffix_rfl past'
  · exact (others.placed e member).widen past List.suffix_rfl
  · exact (row.placed d one).lies.after (others.placed e two).lies

theorem cons (placed : Expr.Placed ts e ts₁) (others : Row ts₁ es ts₂) (past : ts₁ <:+ ts)
    (past' : ts₂ <:+ ts₁) : Row ts (e :: es) ts₂ := (single placed).append others past past'

/-- The last node of a row ends it. -/
theorem le_last (row : Row ts es ts₁) {last : Expr} (ends : es.getLast? = some last) (member : e ∈ es) :
    e.span.last ≤ last.span.last := by
  obtain ⟨front, rfl⟩ := List.getLast?_eq_some_iff.1 ends
  rcases List.mem_append.1 member with earlier | same
  · have after := (List.pairwise_append.1 row.order).2.2 e earlier last (List.mem_singleton.2 rfl)
    have proper := (row.placed last (List.mem_append_right _ (List.mem_singleton.2 rfl))).lies.proper
    exact Position.le_trans (Span.isAfter_iff.1 after).le proper
  · rw [List.mem_singleton.1 same]
    exact last.span.last.le_refl

/-- The span from a place in front of a row to its last node holds all of it. -/
theorem spanTo (row : Row ts₁ es ts₂) (start : Lies ts ts₁ a) (past : ts₁ <:+ ts) (past' : ts₂ <:+ ts₁) :
    Lies ts ts₂ (Parser.spanTo a es) ∧ (Parser.spanTo a es).contains a = true ∧
      ∀ e ∈ es, (Parser.spanTo a es).contains e.span = true := by
  unfold Parser.spanTo
  cases ends : es.getLast? with
  | none =>
    rw [List.getLast?_eq_none_iff.1 ends]
    exact ⟨start.later past', a.contains_refl, List.forall_mem_nil _⟩
  | some last =>
    have placed := row.placed last (List.mem_of_getLast? ends)
    obtain ⟨left, right⟩ := start.contains_union placed.lies
    refine ⟨(start.later past').union (placed.lies.earlier past), left, fun e member => ?_⟩
    have inner := (row.placed e member).lies
    have before := Position.le_trans start.proper (inner.first _ start.last).le
    have after := row.le_last ends member
    rw [Span.contains_iff] at left right ⊢
    exact ⟨Position.le_trans left.1 before, Position.le_trans after right.2⟩

end Row

end Stretches

end TypedBlocks

/-!
# Positions and spans

Places in a text and the stretches between them. Lines and columns count from one; a span names its
first and its last place, and the span that belongs to no text has line zero. `Span.union` is the
least span that contains both of its arguments.
-/
namespace TypedBlocks

structure Position where
  line : Nat
  column : Nat
  deriving DecidableEq, Repr, Inhabited

namespace Position

/-- The first place of every text. -/
def start : Position := ⟨1, 1⟩

/-- Reading order: by line, then by column. -/
protected def le (p q : Position) : Prop :=
  p.line < q.line ∨ (p.line = q.line ∧ p.column ≤ q.column)

instance : LE Position := ⟨Position.le⟩

instance (p q : Position) : Decidable (p ≤ q) :=
  inferInstanceAs (Decidable (p.line < q.line ∨ (p.line = q.line ∧ p.column ≤ q.column)))

theorem le_iff {p q : Position} :
    p ≤ q ↔ p.line < q.line ∨ (p.line = q.line ∧ p.column ≤ q.column) := Iff.rfl

protected theorem le_refl (p : Position) : p ≤ p := Or.inr ⟨rfl, Nat.le_refl _⟩

protected theorem le_trans {p q r : Position} (hpq : p ≤ q) (hqr : q ≤ r) : p ≤ r := by
  rw [le_iff] at *; omega

protected theorem le_total (p q : Position) : p ≤ q ∨ q ≤ p := by
  rw [le_iff, le_iff]; omega

/-- The earlier of two places. -/
def earlier (p q : Position) : Position := if p ≤ q then p else q

/-- The later of two places. -/
def later (p q : Position) : Position := if q ≤ p then p else q

end Position

structure Span where
  first : Position
  last : Position
  deriving DecidableEq, Repr, Inhabited

namespace Span

/-- The span with the given line, column, last line and last column. -/
def ofCounts (line column endLine endColumn : Nat) : Span := ⟨⟨line, column⟩, ⟨endLine, endColumn⟩⟩

/-- The span of a single place. -/
def point (line column : Nat) : Span := ofCounts line column line column

/-- The span of things that no text holds. -/
def nowhere : Span := point 0 0

def isNowhere (s : Span) : Bool := s.first.line == 0

/-- The least span around both, where a span outside every text adds nothing. -/
def union (a b : Span) : Span :=
  if a.isNowhere then b
  else if b.isNowhere then a
  else ⟨a.first.earlier b.first, a.last.later b.last⟩

/-- Every place of `a` comes after every place of `b`. -/
def isAfter (a b : Span) : Bool := decide (¬ a.first ≤ b.last)

def contains (a b : Span) : Bool := decide (a.first ≤ b.first ∧ b.last ≤ a.last)

end Span

end TypedBlocks

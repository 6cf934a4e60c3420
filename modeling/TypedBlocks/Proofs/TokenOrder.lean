import TypedBlocks.Proofs.TokenCuts

/-!
# Tokens in order

The tokens of a text stand one after another: each begins after the last place of every token in
front of it. Only the end of a line is told at the front of the line that it ends.
-/
namespace TypedBlocks

namespace Position

variable {p q r : Position}

/-- The place comes earlier in the order of reading. -/
def Before (p q : Position) : Prop := p.line < q.line ∨ (p.line = q.line ∧ p.column < q.column)

theorem before_iff : p.Before q ↔ ¬ q ≤ p := by
  rw [Before, le_iff]
  omega

theorem Before.le (before : p.Before q) : p ≤ q := by
  rw [Before] at before
  rw [le_iff]
  omega

theorem Before.trans_le (before : p.Before q) (le : q ≤ r) : p.Before r := by
  rw [Before] at before ⊢
  rw [le_iff] at le
  omega

theorem Before.of_le (le : p ≤ q) (before : q.Before r) : p.Before r := by
  rw [Before] at before ⊢
  rw [le_iff] at le
  omega

theorem line_le (le : p ≤ q) : p.line ≤ q.line := by
  rw [le_iff] at le
  omega

theorem le_step (p : Position) (g : Glyph) : p ≤ p.step g := by
  unfold step
  split <;> rw [le_iff] <;> dsimp only <;> omega

theorem le_after (p : Position) (gs : List Glyph) : p ≤ p.after gs := by
  induction gs generalizing p with
  | nil => exact p.le_refl
  | cons g gs ih => exact Position.le_trans (p.le_step g) (ih (p.step g))

/-- Glyphs that end no line are passed column by column. -/
theorem after_line {gs : List Glyph} (inside : ∀ g ∈ gs, g.endsLine = false) (p : Position) :
    p.after gs = ⟨p.line, p.column + gs.length⟩ := by
  induction gs generalizing p with
  | nil => rfl
  | cons g gs ih =>
    rw [List.forall_mem_cons] at inside
    change (p.step g).after gs = _
    rw [ih inside.2, step, inside.1, if_neg (by decide), List.length_cons]
    exact congrArg (Position.mk p.line) (by dsimp only; omega)

/-- The end of a line leads to a later line. -/
theorem line_lt_after {gs : List Glyph} {g : Glyph} (member : g ∈ gs) (ends : g.endsLine = true)
    (p : Position) : p.line < (p.after gs).line := by
  induction gs generalizing p with
  | nil => cases member
  | cons h gs ih =>
    change p.line < ((p.step h).after gs).line
    rcases List.mem_cons.1 member with rfl | member
    · have next := line_le ((p.step g).le_after gs)
      rw [step, if_pos ends] at next ⊢
      exact next
    · exact Nat.lt_of_le_of_lt (line_le (p.le_step h)) (ih member (p.step h))

end Position

namespace Glyph

/-- A line feed that has been taken along belongs to a carriage return. -/
def Whole (g : Glyph) : Prop := g.paired = true → g.endsLine = true

theorem whole_of_mem_ofChars {cs : List Char} : ∀ g ∈ ofChars cs, g.Whole := by
  fun_induction ofChars cs with
  | case1 => exact List.forall_mem_nil _
  | case2 rest ih => exact List.forall_mem_cons.2 ⟨fun _ => rfl, ih⟩
  | case3 c rest single ih =>
    exact List.forall_mem_cons.2 ⟨fun paired => absurd paired Bool.false_ne_true, ih⟩

theorem length_textOf {gs : List Glyph} (whole : ∀ g ∈ gs, g.Whole)
    (inside : ∀ g ∈ gs, g.endsLine = false) : (textOf gs).length = gs.length := by
  induction gs with
  | nil => rfl
  | cons g gs ih =>
    rw [List.forall_mem_cons] at whole inside
    have alone : g.paired = false := by
      rw [← Bool.not_eq_true]
      intro paired
      rw [whole.1 paired] at inside
      cases inside.1
    rw [textOf, List.flatMap_cons, List.length_append, text, alone, if_neg (by decide),
      List.length_singleton, List.length_cons, Nat.add_comm, ← ih whole.2 inside.2]
    rfl

end Glyph

namespace Token

open Glyph Position

/-- Of two tokens that are no ends of lines, the first is over where the second begins. -/
def Before (t u : Token) : Prop :=
  t.kind ≠ .newline → u.kind ≠ .newline → t.span.last.Before u.position

/-- Tokens in the order of a text. -/
structure Ordered (ts : List Token) : Prop where
  order : ts.Pairwise Before
  lines : ∀ t ∈ ts, 1 ≤ t.position.line

theorem Ordered.suffix {ts us : List Token} (ordered : Ordered ts) (past : us <:+ ts) : Ordered us :=
  ⟨ordered.order.sublist past.sublist, fun t member => ordered.lines t (past.subset member)⟩

theorem span_proper (t : Token) : t.span.first ≤ t.span.last :=
  .inr ⟨rfl, by dsimp only [span, column]; omega⟩

/-- A token is over where what it covers is. -/
theorem ofPiece_before {kind : TokenKind} {g : Glyph} {gs : List Glyph}
    (whole : ∀ x ∈ g :: gs, x.Whole) (start : Position) (other : kind ≠ .newline) :
    (ofPiece kind start (g :: gs)).span.last.Before (start.after (g :: gs)) := by
  rw [ofPiece, if_neg (by simpa using other)]
  by_cases inside : ∀ x ∈ g :: gs, x.endsLine = false
  · refine .inr ?_
    rw [after_line inside]
    refine ⟨rfl, ?_⟩
    dsimp only [span, column]
    rw [String.length_ofList, length_textOf whole inside, List.length_cons]
    omega
  · simp only [Bool.not_eq_false, not_forall] at inside
    obtain ⟨x, member, ends⟩ := inside
    exact .inl (line_lt_after member ends start)

theorem Cut.ordered {methodName : Bool} {start : Position} {gs : List Glyph} {ts : List Token}
    (cut : Cut methodName start gs ts) (whole : ∀ g ∈ gs, g.Whole) (line : 1 ≤ start.line) :
    Ordered ts ∧ ∀ t ∈ ts, t.kind ≠ .newline → start ≤ t.position := by
  induction cut with
  | @ending _ start =>
    refine ⟨⟨List.pairwise_singleton _ _, ?_⟩, ?_⟩
    · exact List.forall_mem_singleton.2 line
    · exact List.forall_mem_singleton.2 fun _ => start.le_refl
  | @gap _ start g rest more ts reads after ih =>
    have passed := start.le_after (g :: rest.take more)
    obtain ⟨ordered, later⟩ := ih
      (fun x member => whole x (List.mem_cons_of_mem _ (List.mem_of_mem_drop member)))
      (Nat.le_trans line (line_le passed))
    exact ⟨ordered, fun t member other => Position.le_trans passed (later t member other)⟩
  | @token _ start g rest kind more ts reads after ih =>
    have passed := start.le_after (g :: rest.take more)
    obtain ⟨ordered, later⟩ := ih
      (fun x member => whole x (List.mem_cons_of_mem _ (List.mem_of_mem_drop member)))
      (Nat.le_trans line (line_le passed))
    have covers : ∀ x ∈ g :: rest.take more, x.Whole := List.forall_mem_cons.2
      ⟨whole g List.mem_cons_self,
        fun x member => whole x (List.mem_cons_of_mem _ (List.mem_of_mem_take member))⟩
    refine ⟨⟨List.pairwise_cons.2 ⟨fun u member first second => ?_, ordered.order⟩, ?_⟩, ?_⟩
    · rw [ofPiece_kind] at first
      exact (ofPiece_before covers start first).trans_le (later u member second)
    · refine List.forall_mem_cons.2 ⟨?_, ordered.lines⟩
      unfold ofPiece
      split <;> exact line
    · refine List.forall_mem_cons.2 ⟨fun other => ?_, fun t member other => ?_⟩
      · rw [ofPiece_kind] at other
        rw [ofPiece, if_neg (by simpa using other)]
        exact start.le_refl
      · exact Position.le_trans passed (later t member other)

/-- The tokens of every text that is scanned are in order. -/
theorem scan_ordered {text : String} {tokens : List Token} (scans : scan text = .ok tokens) :
    Ordered tokens :=
  ((scan_eq_ok_iff.1 scans).ordered whole_of_mem_ofChars (Nat.le_refl 1)).1

end Token

end TypedBlocks

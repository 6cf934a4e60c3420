import TypedBlocks.Proofs.TotalReading

/-!
# How a text is cut

Scanning seen from the front: glyph by glyph a text is cut into gaps and tokens, and of what came
before a cut only the place counts, and whether a method name is expected. A gap is a blank or a
comment.
-/
namespace TypedBlocks.Token

open Glyph

/-- The tokens into which the glyphs from `start` on are cut. -/
inductive Cut : (methodName : Bool) → (start : Position) → List Glyph → List Token → Prop
  | ending {methodName : Bool} {start : Position} : Cut methodName start [] [⟨.ending, "", start⟩]
  | gap {methodName : Bool} {start : Position} {g : Glyph} {rest : List Glyph} {more : Nat}
      {ts : List Token} (reads : piece methodName start g rest = .ok ⟨none, more⟩)
      (after : Cut methodName (start.after (g :: rest.take more)) (rest.drop more) ts) :
      Cut methodName start (g :: rest) ts
  | token {methodName : Bool} {start : Position} {g : Glyph} {rest : List Glyph} {kind : TokenKind}
      {more : Nat} {ts : List Token} (reads : piece methodName start g rest = .ok ⟨some kind, more⟩)
      (after : Cut (expectsMethodName kind) (start.after (g :: rest.take more)) (rest.drop more) ts) :
      Cut methodName start (g :: rest) (ofPiece kind start (g :: rest.take more) :: ts)

/-- A method name is expected after these tokens, the last of them first. -/
def expectsNameAfter (before : List Token) : Bool := before.head?.any fun t => expectsMethodName t.kind

theorem Cut.of_scanFrom {before tokens : List Token} {start : Position} {gs : List Glyph}
    (scans : scanFrom before start gs = .ok tokens) :
    ∃ ts, tokens = before.reverse ++ ts ∧ Cut (expectsNameAfter before) start gs ts := by
  fun_induction scanFrom before start gs with
  | case1 before start =>
    cases scans
    exact ⟨_, List.reverse_cons, .ending⟩
  | case2 before start g rest e fails => cases scans
  | case3 before start g rest p reads covered before' ih =>
    obtain ⟨ts, rfl, after⟩ := ih scans
    obtain ⟨kind, more⟩ := p
    cases kind with
    | none => exact ⟨ts, rfl, .gap reads after⟩
    | some kind =>
      refine ⟨_, ?_, .token reads (by simpa [before', expectsNameAfter, ofPiece_kind] using after)⟩
      simp only [before', List.reverse_cons, List.append_assoc]
      rfl

theorem Cut.scanFrom {start : Position} {gs : List Glyph} {methodName : Bool} {ts : List Token}
    (cut : Cut methodName start gs ts) {before : List Token}
    (expected : expectsNameAfter before = methodName) :
    scanFrom before start gs = .ok (before.reverse ++ ts) := by
  induction cut generalizing before with
  | ending => rw [Token.scanFrom, List.reverse_cons]
  | gap reads after ih =>
    subst expected
    rw [scanFrom_cons reads]
    exact ih rfl
  | @token _ start g rest kind more ts reads after ih =>
    subst expected
    rw [scanFrom_cons reads]
    refine (ih (by simp [afterPiece, expectsNameAfter, ofPiece_kind])).trans ?_
    simp [afterPiece]

/-- The tokens of a text are those into which its glyphs are cut. -/
theorem scan_eq_ok_iff {text : String} {tokens : List Token} :
    scan text = .ok tokens ↔ Cut false Position.start (ofChars text.toList) tokens := by
  constructor
  · intro scans
    obtain ⟨ts, rfl, cut⟩ := Cut.of_scanFrom scans
    exact cut
  · exact fun cut => cut.scanFrom rfl

section Pieces

variable {methodName : Bool} {start : Position} {g : Glyph} {rest : List Glyph} {p : Piece} {more : Nat}

/-- What a piece is read as when it is neither blank nor a comment nor the end of a line. -/
theorem piece_cases (reads : piece methodName start g rest = .ok p) :
    ((g.char = ' ' ∨ g.char = '\t') ∧ p = ⟨none, 0⟩) ∨
      (g.char = '#' ∧ p = ⟨none, (run (· != '\n') rest).length⟩) ∨
      (g.endsLine = true ∧ p = ⟨some .newline, 0⟩) ∨
      ∃ kind, p.kind = some kind ∧ kind ≠ .newline := by
  obtain ⟨form, reading⟩ := exists_form g
  rw [reading] at reads
  cases form with
  | blank space =>
    cases reads
    exact .inl ⟨space, rfl⟩
  | comment hash =>
    cases reads
    exact .inr (.inl ⟨hash, rfl⟩)
  | lineEnd ends =>
    cases reads
    exact .inr (.inr (.inl ⟨ends, rfl⟩))
  | string _ =>
    obtain ⟨_, -, rfl⟩ := map_eq_ok.1 reads
    exact .inr (.inr (.inr ⟨_, rfl, nofun⟩))
  | char _ =>
    obtain ⟨c, kind⟩ := charPiece_kind reads
    exact .inr (.inr (.inr ⟨_, kind, nofun⟩))
  | number _ =>
    rcases numberPiece_kind reads with ⟨n, -, kind⟩ | ⟨x, kind⟩
    all_goals exact .inr (.inr (.inr ⟨_, kind, nofun⟩))
  | word _ =>
    cases reads
    obtain ⟨k, kind, named⟩ := wordPiece_kind methodName g rest
    refine .inr (.inr (.inr ⟨k, kind, ?_⟩))
    rcases named with ⟨w, rfl⟩ | ⟨b, rfl⟩ | rfl | rfl <;> nofun
  | instanceVar _ | global _ => exact .inr (.inr (.inr ⟨_, sigilPiece_kind reads, nofun⟩))
  | mark =>
    obtain ⟨m, kind⟩ := markPiece_kind reads
    exact .inr (.inr (.inr ⟨_, kind, nofun⟩))

/-- What is passed over is a blank or a comment. -/
theorem piece_gap (reads : piece methodName start g rest = .ok ⟨none, more⟩) :
    ((g.char = ' ' ∨ g.char = '\t') ∧ more = 0) ∨
      (g.char = '#' ∧ more = (run (· != '\n') rest).length) := by
  rcases piece_cases reads with ⟨space, same⟩ | ⟨hash, same⟩ | ⟨-, same⟩ | ⟨kind, same, -⟩
  · exact .inl ⟨space, congrArg Piece.more same⟩
  · exact .inr ⟨hash, congrArg Piece.more same⟩
  · cases same
  · cases same

/-- Only the end of a line is read as one. -/
theorem piece_newline (reads : piece methodName start g rest = .ok ⟨some .newline, more⟩) :
    g.endsLine = true ∧ more = 0 := by
  rcases piece_cases reads with ⟨-, same⟩ | ⟨-, same⟩ | ⟨ends, same⟩ | ⟨kind, same, other⟩
  · cases same
  · cases same
  · exact ⟨ends, congrArg Piece.more same⟩
  · exact absurd (Option.some.inj same.symm) other

end Pieces

end TypedBlocks.Token

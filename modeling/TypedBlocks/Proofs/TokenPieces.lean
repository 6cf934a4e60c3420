import TypedBlocks.Proofs.Outcomes
import TypedBlocks.Token.Lexer

/-!
# Pieces of a text

Which of the ways of reading a piece is taken depends on its first glyph alone. What is read tells the
kinds of the token, and for a string how its contents come from the glyphs behind the quote.
-/
namespace TypedBlocks.Token

open Glyph

/-- A way of reading a piece, with what it asks for of the first glyph. -/
inductive PieceForm (g : Glyph) where
  | blank (space : g.char = ' ' ∨ g.char = '\t')
  | lineEnd (ends : g.endsLine = true)
  | comment (hash : g.char = '#')
  | string (quote : g.char = '"')
  | char (quote : g.char = '\'')
  | number (digit : g.char.isDigit = true)
  | word (letter : (g.char.isAlpha || g.char == '_') = true)
  | instanceVar (sigil : g.char = '@')
  | global (sigil : g.char = '$')
  | mark

/-- Read the piece from the glyphs behind the first one. -/
def PieceForm.read {g : Glyph} (form : PieceForm g) (methodName : Bool) (start : Position)
    (rest : List Glyph) : Except LexError Piece :=
  match form with
  | .blank _ => .ok ⟨none, 0⟩
  | .lineEnd _ => .ok ⟨some .newline, 0⟩
  | .comment _ => .ok ⟨none, (run (· != '\n') rest).length⟩
  | .string _ => (stringBody start rest).map fun (cs, n) => ⟨some (.string (String.ofList cs)), n⟩
  | .char _ => charPiece start rest
  | .number _ => numberPiece start g rest
  | .word _ => .ok (wordPiece methodName g rest)
  | .instanceVar _ => sigilPiece .instanceVar start g.char rest
  | .global _ => sigilPiece .global start g.char rest
  | .mark => markPiece start g.char rest

theorem exists_form (g : Glyph) : ∃ form : PieceForm g, ∀ methodName start rest,
    piece methodName start g rest = form.read methodName start rest := by
  by_cases space : (g.char == ' ' || g.char == '\t') = true
  · exact ⟨.blank (by simpa using space), fun _ _ _ => by rw [piece, if_pos space]; rfl⟩
  by_cases ends : g.endsLine = true
  · exact ⟨.lineEnd ends, fun _ _ _ => by rw [piece, if_neg space, if_pos ends]; rfl⟩
  by_cases hash : (g.char == '#') = true
  · exact ⟨.comment (beq_iff_eq.1 hash), fun _ _ _ => by
      rw [piece, if_neg space, if_neg ends, if_pos hash]; rfl⟩
  by_cases quote : (g.char == '"') = true
  · exact ⟨.string (beq_iff_eq.1 quote), fun _ _ _ => by
      rw [piece, if_neg space, if_neg ends, if_neg hash, if_pos quote]; rfl⟩
  by_cases single : (g.char == '\'') = true
  · exact ⟨.char (beq_iff_eq.1 single), fun _ _ _ => by
      rw [piece, if_neg space, if_neg ends, if_neg hash, if_neg quote, if_pos single]; rfl⟩
  by_cases digit : g.char.isDigit = true
  · exact ⟨.number digit, fun _ _ _ => by
      rw [piece, if_neg space, if_neg ends, if_neg hash, if_neg quote, if_neg single, if_pos digit]
      rfl⟩
  by_cases letter : (g.char.isAlpha || g.char == '_') = true
  · exact ⟨.word letter, fun _ _ _ => by
      rw [piece, if_neg space, if_neg ends, if_neg hash, if_neg quote, if_neg single, if_neg digit,
        if_pos letter]
      rfl⟩
  by_cases own : (g.char == '@') = true
  · exact ⟨.instanceVar (beq_iff_eq.1 own), fun _ _ _ => by
      rw [piece, if_neg space, if_neg ends, if_neg hash, if_neg quote, if_neg single, if_neg digit,
        if_neg letter, if_pos own]
      rfl⟩
  by_cases common : (g.char == '$') = true
  · exact ⟨.global (beq_iff_eq.1 common), fun _ _ _ => by
      rw [piece, if_neg space, if_neg ends, if_neg hash, if_neg quote, if_neg single, if_neg digit,
        if_neg letter, if_neg own, if_pos common]
      rfl⟩
  · exact ⟨.mark, fun _ _ _ => by
      rw [piece, if_neg space, if_neg ends, if_neg hash, if_neg quote, if_neg single, if_neg digit,
        if_neg letter, if_neg own, if_neg common]
      rfl⟩

section Strings

variable {start : Position} {rest : List Glyph} {cs : List Char} {n : Nat}

/-- The glyphs hold the contents of a string and its closing quote, which is the last of the glyphs
that are counted. -/
inductive Quoted : List Glyph → List Char → Nat → Prop
  | close {g : Glyph} {rest : List Glyph} (quote : g.char = '"') : Quoted (g :: rest) [] 1
  | escape {g e : Glyph} {rest : List Glyph} {cs : List Char} {n : Nat} (slash : g.char = '\\')
      (inner : Quoted rest cs n) : Quoted (g :: e :: rest) (unescape e.char :: cs) (n + 2)
  | plain {g : Glyph} {rest : List Glyph} {cs : List Char} {n : Nat} (open' : g.char ≠ '"')
      (line : g.char ≠ '\n') (other : g.char ≠ '\\') (inner : Quoted rest cs n) :
      Quoted (g :: rest) (g.char :: cs) (n + 1)

theorem stringBody_eq_ok : stringBody start rest = .ok (cs, n) ↔ Quoted rest cs n := by
  constructor
  · intro reads
    fun_induction stringBody start rest generalizing cs n with
    | case1 => cases reads
    | case2 g rest quote =>
      cases reads
      exact .close (beq_iff_eq.1 quote)
    | case3 g rest quote line => cases reads
    | case4 => cases reads
    | case5 g quote line slash e rest ih =>
      obtain ⟨⟨ds, k⟩, inner, same⟩ := map_eq_ok.1 reads
      cases same
      exact .escape (beq_iff_eq.1 slash) (ih inner)
    | case6 g rest quote line slash ih =>
      obtain ⟨⟨ds, k⟩, inner, same⟩ := map_eq_ok.1 reads
      cases same
      simp only [beq_iff_eq] at quote line slash
      exact .plain quote line slash (ih inner)
  · intro quoted
    induction quoted with
    | @close g rest quote => cases rest <;> simp [stringBody, quote]
    | escape slash _ ih => simp [stringBody, slash, ih, Except.map]
    | @plain g rest cs n quote line other _ ih =>
      cases rest with
      | nil => simp [stringBody] at ih
      | cons e rest => simp [stringBody, quote, line, other, ih, Except.map]

end Strings

section Kinds

variable {start : Position} {g : Glyph} {rest : List Glyph} {p : Piece}

theorem numberPiece_kind (reads : numberPiece start g rest = .ok p) :
    (∃ n : Nat, n < Nat.pow 2 63 ∧ p.kind = some (.integer (Int64.ofNat n))) ∨
      ∃ x, p.kind = some (.float x) := by
  unfold numberPiece at reads
  extract_lets whole fraction digitsOf digits n decimals value at reads
  clear_value fraction
  split at reads
  · split at reads
    · rename_i small
      cases reads
      exact .inl ⟨_, small, rfl⟩
    · cases reads
  · cases reads
    exact .inr ⟨_, rfl⟩

/-- A word is a keyword, a truth value or a name. -/
theorem wordKind_cases (word : String) :
    (∃ k, wordKind word = .keyword k) ∨ (∃ b, wordKind word = .boolean b) ∨
      wordKind word = .constant ∨ wordKind word = .identifier := by
  unfold wordKind
  split
  · exact .inl ⟨_, rfl⟩
  split
  · exact .inr (.inl ⟨_, rfl⟩)
  split
  · exact .inr (.inl ⟨_, rfl⟩)
  split
  · exact .inr (.inr (.inl rfl))
  · exact .inr (.inr (.inr rfl))

theorem wordPiece_kind (methodName : Bool) (g : Glyph) (rest : List Glyph) :
    ∃ k, (wordPiece methodName g rest).kind = some k ∧
      ((∃ w, k = .keyword w) ∨ (∃ b, k = .boolean b) ∨ k = .constant ∨ k = .identifier) := by
  unfold wordPiece
  dsimp only
  split
  · exact ⟨_, rfl, .inr (.inr (.inr rfl))⟩
  · exact ⟨_, rfl, wordKind_cases _⟩

theorem sigilPiece_kind {kind : TokenKind} {sigil : Char}
    (reads : sigilPiece kind start sigil rest = .ok p) : p.kind = some kind := by
  unfold sigilPiece at reads
  split at reads
  · split at reads <;> cases reads
    rfl
  · cases reads

theorem markPiece_kind {first : Char} (reads : markPiece start first rest = .ok p) :
    ∃ m, p.kind = some (.mark m) := by
  unfold markPiece at reads
  split at reads
  · cases reads
    exact ⟨_, rfl⟩
  · split at reads <;> cases reads
    exact ⟨_, rfl⟩

end Kinds

end TypedBlocks.Token

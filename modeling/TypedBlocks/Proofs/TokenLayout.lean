import TypedBlocks.Proofs.TokenCuts

/-!
# Where tokens stand

A text without carriage returns is put together from the lexemes of its tokens and from gaps of blanks
and comments before them, and every token knows its line, and its column unless it ends the line.
-/
namespace TypedBlocks

/-- The place behind some characters without carriage returns: a line further for each line feed, and
a column further for each character since the last of these. -/
def Position.behind (before : List Char) : Position :=
  ⟨1 + before.count '\n', 1 + (before.reverse.takeWhile (· != '\n')).length⟩

namespace Token

/-- What stands between tokens: spaces and tabs, and a comment that runs up to a line feed or to the
end of the text. -/
inductive Gap (after : List Char) : List Char → Prop
  | nil : Gap after []
  | blank {c : Char} {gap : List Char} (blank : c = ' ' ∨ c = '\t') (more : Gap after gap) :
      Gap after (c :: gap)
  | comment {cs : List Char} (inside : '\n' ∉ cs) (ends : ∀ c ∈ after.head?, c = '\n') :
      Gap after ('#' :: cs)

/-- The token stands behind the characters: it has the line of its first character, or that it ends,
and the column of its first character. -/
structure StandsBehind (t : Token) (before : List Char) : Prop where
  line : t.line = (Position.behind before).line
  column : t.kind ≠ .newline → t.column = (Position.behind before).column

/-- A text is put together from gaps and the lexemes of tokens, which stand where they stand in it; it
ends with the last gap and the ending. -/
inductive Laid : (before text : List Char) → List Token → Prop
  | ending {before gap : List Char} {t : Token} (between : Gap [] gap) (kind : t.kind = .ending)
      (lexeme : t.lexeme = "") (stands : t.StandsBehind (before ++ gap)) : Laid before gap [t]
  | token {before gap rest : List Char} {t : Token} {ts : List Token}
      (between : Gap (t.lexeme.toList ++ rest) gap) (kind : t.kind ≠ .ending)
      (stands : t.StandsBehind (before ++ gap))
      (more : Laid (before ++ gap ++ t.lexeme.toList) rest ts) :
      Laid before (gap ++ (t.lexeme.toList ++ rest)) (t :: ts)

end Token

namespace Glyph

/-- The glyph is a character, and no carriage return. -/
def Plain (g : Glyph) : Prop := g.paired = false ∧ g.char ≠ '\r'

theorem Plain.text_eq {g : Glyph} (plain : g.Plain) : g.text = [g.char] := by
  simp [text, plain.1]

theorem plain_of_mem_ofChars {cs : List Char} (plain : '\r' ∉ cs) : ∀ g ∈ ofChars cs, g.Plain := by
  induction cs with
  | nil => exact List.forall_mem_nil _
  | cons c cs ih =>
    rw [List.mem_cons, not_or] at plain
    rw [ofChars_cons (Ne.symm plain.1), List.forall_mem_cons]
    exact ⟨⟨rfl, Ne.symm plain.1⟩, ih plain.2⟩

theorem textOf_eq {gs : List Glyph} (plain : ∀ g ∈ gs, g.Plain) : textOf gs = gs.map char := by
  induction gs with
  | nil => rfl
  | cons g gs ih =>
    rw [List.forall_mem_cons] at plain
    rw [textOf, List.flatMap_cons, plain.1.text_eq, List.map_cons, ← ih plain.2]
    rfl

theorem textOf_append (gs hs : List Glyph) : textOf (gs ++ hs) = textOf gs ++ textOf hs :=
  List.flatMap_append

theorem endsLine_plain {g : Glyph} (plain : g.Plain) : g.endsLine = (g.char == '\n') := by
  simp [endsLine, plain.2]

end Glyph

namespace Position

theorem step_behind {g : Glyph} (plain : g.Plain) (before : List Char) :
    (behind before).step g = behind (before ++ [g.char]) := by
  rw [step, Glyph.endsLine_plain plain]
  by_cases line : g.char = '\n' <;> simp [behind, line, Nat.add_comm]

theorem after_behind {gs : List Glyph} (plain : ∀ g ∈ gs, g.Plain) (before : List Char) :
    (behind before).after gs = behind (before ++ Glyph.textOf gs) := by
  induction gs generalizing before with
  | nil => simp [after, Glyph.textOf]
  | cons g gs ih =>
    rw [List.forall_mem_cons] at plain
    change ((behind before).step g).after gs = _
    rw [step_behind plain.1, ih plain.2, List.append_assoc, ← plain.1.text_eq]
    rfl

end Position

namespace Token

open Glyph Position

section Gaps

variable {before rest after gap : List Char} {ts : List Token}

theorem Gap.eq_nil_of_line (between : Gap after gap) (line : ∀ c ∈ gap.head?, c = '\n') : gap = [] := by
  cases between with
  | nil => rfl
  | blank blank more =>
    rcases blank with rfl | rfl <;> cases line _ rfl
  | comment inside ends => cases line _ rfl

theorem Laid.blank {c : Char} (blank : c = ' ' ∨ c = '\t') (laid : Laid (before ++ [c]) rest ts) :
    Laid before (c :: rest) ts := by
  have shift (gap : List Char) : before ++ [c] ++ gap = before ++ c :: gap := by simp
  cases laid with
  | ending between kind lexeme stands =>
    rw [shift] at stands
    exact .ending (.blank blank between) kind lexeme stands
  | token between kind stands more =>
    rw [shift] at stands more
    exact .token (.blank blank between) kind stands more

theorem Laid.comment {cs : List Char} (inside : '\n' ∉ cs) (line : ∀ c ∈ rest.head?, c = '\n')
    (laid : Laid (before ++ '#' :: cs) rest ts) : Laid before ('#' :: cs ++ rest) ts := by
  cases laid with
  | ending between kind lexeme stands =>
    cases between.eq_nil_of_line line
    rw [List.append_nil] at stands ⊢
    exact .ending (.comment inside nofun) kind lexeme stands
  | @token _ gap rest t ts between kind stands more =>
    have none : gap = [] := between.eq_nil_of_line fun c member => line c (by
      cases gap with
      | nil => cases member
      | cons => exact member)
    subst none
    rw [List.append_nil] at stands more
    exact .token (.comment inside line) kind stands more

end Gaps

section Cuts

variable {methodName : Bool} {start : Position} {g : Glyph} {rest : List Glyph}

/-- The lexeme of a token is what it covers. -/
theorem lexeme_ofPiece {kind : TokenKind} {more : Nat} (plain : ∀ x ∈ g :: rest, x.Plain)
    (reads : piece methodName start g rest = .ok ⟨some kind, more⟩) :
    (ofPiece kind start (g :: rest.take more)).lexeme.toList = textOf (g :: rest.take more) := by
  unfold ofPiece
  split
  · rename_i newline
    rw [beq_iff_eq] at newline
    subst newline
    obtain ⟨ends, rfl⟩ := piece_newline reads
    have first := plain g List.mem_cons_self
    rw [endsLine_plain first, beq_iff_eq] at ends
    simp [textOf, first.text_eq, ends]
  · exact String.toList_ofList

theorem ofPiece_stands (kind : TokenKind) (before : List Char) (gs : List Glyph) :
    (ofPiece kind (behind before) gs).StandsBehind before := by
  unfold ofPiece
  split
  · rename_i newline
    exact ⟨rfl, fun other => absurd (beq_iff_eq.1 newline) other⟩
  · exact ⟨rfl, fun _ => rfl⟩

theorem textOf_split (g : Glyph) (rest : List Glyph) (more : Nat) :
    textOf (g :: rest) = textOf (g :: rest.take more) ++ textOf (rest.drop more) := by
  rw [← textOf_append, List.cons_append, List.take_append_drop]

/-- Behind a comment comes a line feed, or nothing. -/
theorem head_drop_comment (rest : List Glyph) :
    ∀ g ∈ (rest.drop (run (· != '\n') rest).length).head?, g.char = '\n' := by
  induction rest with
  | nil => nofun
  | cons g rest ih =>
    unfold run at ih ⊢
    rw [List.takeWhile_cons]
    split
    · exact ih
    · rename_i line
      intro x member
      cases member
      simpa using line

/-- Where plain glyphs are cut, their text is laid out. -/
theorem Cut.laid {gs : List Glyph} {ts : List Token} (cut : Cut methodName start gs ts)
    (plain : ∀ g ∈ gs, g.Plain) {before : List Char} (same : start = behind before) :
    Laid before (textOf gs) ts := by
  induction cut generalizing before with
  | ending =>
    subst same
    refine .ending .nil rfl rfl ?_
    rw [textOf, List.flatMap_nil, List.append_nil]
    exact ⟨rfl, fun _ => rfl⟩
  | @gap methodName start g rest more ts reads after ih =>
    subst same
    have covers : ∀ x ∈ g :: rest.take more, x.Plain := List.forall_mem_cons.2
      ⟨plain g List.mem_cons_self,
        fun x member => plain x (List.mem_cons_of_mem _ (List.mem_of_mem_take member))⟩
    have behind : ∀ x ∈ rest.drop more, x.Plain :=
      fun x member => plain x (List.mem_cons_of_mem _ (List.mem_of_mem_drop member))
    have laid := ih behind (after_behind covers before)
    rw [textOf_split g rest more]
    rw [textOf_eq covers, List.map_cons] at laid ⊢
    rcases piece_gap reads with ⟨blank, rfl⟩ | ⟨comment, rfl⟩
    · exact laid.blank blank
    · rw [comment] at laid ⊢
      refine laid.comment ?_ ?_
      · rw [take_run, List.mem_map]
        rintro ⟨x, member, line⟩
        exact run_unbroken rfl member line
      · have line := head_drop_comment rest
        rw [textOf_eq behind]
        intro c member
        rw [List.head?_map] at member
        obtain ⟨x, first, rfl⟩ := Option.map_eq_some_iff.1 member
        exact line x first
  | @token methodName start g rest kind more ts reads after ih =>
    subst same
    have covers : ∀ x ∈ g :: rest.take more, x.Plain := List.forall_mem_cons.2
      ⟨plain g List.mem_cons_self,
        fun x member => plain x (List.mem_cons_of_mem _ (List.mem_of_mem_take member))⟩
    have lexeme := lexeme_ofPiece plain reads
    have laid := ih (fun x member => plain x (List.mem_cons_of_mem _ (List.mem_of_mem_drop member)))
      (after_behind covers before)
    rw [textOf_split g rest more, ← lexeme]
    rw [← lexeme] at laid
    have stands := ofPiece_stands kind before (g :: rest.take more)
    refine .token (.nil : Gap _ []) ?_ ?_ ?_
    · rw [ofPiece_kind]
      exact (piece_inner reads rfl).ne_ending
    · rwa [List.append_nil]
    · rwa [List.append_nil]

end Cuts

/-- Of every text without carriage returns that is scanned, the tokens' lexemes and gaps between them
make up the text, and every token stands where its lexeme stands in it. -/
theorem scan_laid {text : String} (plain : '\r' ∉ text.toList) {tokens : List Token}
    (scans : scan text = .ok tokens) : Laid [] text.toList tokens := by
  have cut := scan_eq_ok_iff.1 scans
  have front : Position.start = behind [] := rfl
  have laid := cut.laid (plain_of_mem_ofChars plain) front
  rwa [textOf_ofChars] at laid

/-- A string with a line feed in it, a comment, a method name with its mark, and a character of four
bytes. -/
def spreadText : String := "\ta = \"x\\\ny😀\"# b\n\nb.c? 1_0.5 '\\''"

theorem spreadText_laid : '\r' ∉ spreadText.toList ∧
    ∃ tokens, scan spreadText = .ok tokens ∧ Laid [] spreadText.toList tokens := by
  have plain : '\r' ∉ spreadText.toList := by decide
  obtain ⟨tokens, scans⟩ := exists_ok (scan spreadText) (by decide +kernel)
  exact ⟨plain, tokens, scans, scan_laid plain scans⟩

end Token

end TypedBlocks

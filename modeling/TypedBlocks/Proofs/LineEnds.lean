import Mathlib.Data.List.TakeWhile
import TypedBlocks.Compilation.Basic
import TypedBlocks.Proofs.TokenPieces

/-!
# Line ends

A text may end its lines with line feeds or with pairs of carriage return and line feed. Its tokens
are the same either way as long as its line ends stand between tokens: a comment runs to a line feed
that has no carriage return before it, and in a literal the first character of a pair counts. So a
text has the same tokens either way exactly if no line end follows a comment and none is met in a
literal.
-/
namespace TypedBlocks

/-- The text with a pair of carriage return and line feed for every line feed. -/
def withCarriageReturns (text : String) : String :=
  String.ofList (text.toList.flatMap fun c => if c = '\n' then ['\r', '\n'] else [c])

namespace Glyph

/-- What a glyph becomes when its line feed gets a carriage return. -/
def returned (g : Glyph) : Glyph := if g.char = '\n' then ⟨'\r', true⟩ else g

variable {g : Glyph}

theorem returned_of_ne (other : g.char ≠ '\n') : g.returned = g := if_neg other

theorem returned_char (g : Glyph) : g.returned.char = if g.char = '\n' then '\r' else g.char := by
  unfold returned
  split <;> rfl

theorem returned_ne (g : Glyph) : g.returned.char ≠ '\n' := by
  rw [returned_char]
  split
  · decide
  · assumption

/-- No class of characters that has no line ends tells the two apart. -/
theorem returned_class {p : Char → Bool} (feed : p '\n' = false) (carriage : p '\r' = false)
    (g : Glyph) : p g.returned.char = p g.char := by
  rw [returned_char]
  split
  · rename_i line
    rw [line, feed, carriage]
  · rfl

theorem map_returned {gs : List Glyph} (broken : ∀ g ∈ gs, g.char ≠ '\n') :
    gs.map returned = gs :=
  (List.map_congr_left fun g member => returned_of_ne (broken g member)).trans (List.map_id gs)

theorem ofChars_cons {c : Char} (other : c ≠ '\r') (cs : List Char) :
    ofChars (c :: cs) = ⟨c, false⟩ :: ofChars cs := by
  rw [ofChars]
  rintro rest same -
  exact other same

theorem ofChars_withCarriageReturns {cs : List Char} (plain : '\r' ∉ cs) :
    ofChars (cs.flatMap fun c => if c = '\n' then ['\r', '\n'] else [c]) =
      (ofChars cs).map returned := by
  induction cs with
  | nil => rfl
  | cons c cs ih =>
    rw [List.mem_cons, not_or] at plain
    rw [ofChars_cons (Ne.symm plain.1), List.map_cons, ← ih plain.2, List.flatMap_cons]
    unfold returned
    dsimp only
    split
    · rfl
    · exact ofChars_cons (Ne.symm plain.1) _

end Glyph

namespace Token

open Glyph

/-- The glyphs of a string behind its opening quote, as far as they are read. -/
def stringReach : List Glyph → List Glyph
  | [] => []
  | g :: rest =>
    if g.char == '"' || g.char == '\n' then [g]
    else if g.char == '\\' then
      match rest with
      | [] => [g]
      | e :: rest => g :: e :: stringReach rest
    else g :: stringReach rest

/-- The glyphs of a character literal behind its opening quote, up to the character it stands for. -/
def charReach (rest : List Glyph) : List Glyph :=
  rest.take (if rest.head?.any (·.char == '\\') then 2 else 1)

/-- The glyphs behind the first one of a comment or literal at which a line end makes a difference. -/
def reach (g : Glyph) (rest : List Glyph) : List Glyph :=
  if g.char = '#' then rest
  else if g.char = '"' then stringReach rest
  else if g.char = '\'' then charReach rest
  else []

/-- The tokens so far, in reverse, after a piece that covers the glyphs. -/
def afterPiece (before : List Token) (start : Position) (covered : List Glyph) (p : Piece) :
    List Token :=
  match p.kind with
  | some kind => ofPiece kind start covered :: before
  | none => before

/-- No line end stands in the reach of a comment or literal of a text that begins at `start`, after
the tokens `before` in reverse. -/
def linesApartFrom (before : List Token) (start : Position) (gs : List Glyph) : Bool :=
  match gs with
  | [] => true
  | g :: rest =>
    (reach g rest).all (·.char != '\n') &&
      match piece (before.head?.any fun t => expectsMethodName t.kind) start g rest with
      | .error _ => true
      | .ok p =>
        let covered := g :: rest.take p.more
        linesApartFrom (afterPiece before start covered p) (start.after covered) (rest.drop p.more)
termination_by gs.length
decreasing_by simp only [List.length_drop, List.length_cons]; omega

/-- Line ends of the text stand between its tokens: none follows a comment, and none is met in a
literal. -/
def linesApart (text : String) : Bool :=
  linesApartFrom [] Position.start (Glyph.ofChars text.toList)

section Pieces

variable {start : Position} {rest : List Glyph}

theorem run_returned {p : Char → Bool} (feed : p '\n' = false) (carriage : p '\r' = false)
    (gs : List Glyph) : run p (gs.map returned) = run p gs := by
  induction gs with
  | nil => rfl
  | cons g gs ih =>
    unfold run at ih ⊢
    rw [List.map_cons, List.takeWhile_cons, List.takeWhile_cons, returned_class feed carriage]
    split
    · rename_i member
      rw [ih, returned_of_ne]
      rintro line
      rw [line, feed] at member
      cases member
    · rfl

section Strings

variable {g : Glyph} {inner : List Glyph}

theorem stringBody_quote (quote : g.char = '"') : stringBody start (g :: inner) = .ok ([], 1) := by
  cases inner <;> simp [stringBody, quote]

theorem stringBody_escape (escape : g.char = '\\') (e : Glyph) :
    stringBody start (g :: e :: inner) =
      (stringBody start inner).map fun (cs, n) => (unescape e.char :: cs, n + 2) := by
  simp [stringBody, escape]

theorem stringBody_plain (other : ¬ (g.char == '"' || g.char == '\n') = true)
    (plain : ¬ (g.char == '\\') = true) : stringBody start (g :: inner) =
      (stringBody start inner).map fun (cs, n) => (g.char :: cs, n + 1) := by
  simp only [Bool.or_eq_true, beq_iff_eq, not_or] at other plain
  cases inner <;> simp [stringBody, other, plain]

end Strings

theorem stringBody_returned (calm : ∀ x ∈ stringReach rest, x.char ≠ '\n') :
    stringBody start (rest.map returned) = stringBody start rest := by
  fun_induction stringReach rest with
  | case1 => rfl
  | case2 g rest ends =>
    rw [List.map_cons, returned_of_ne (calm g List.mem_cons_self)]
    have quote : g.char = '"' := by simpa [calm g List.mem_cons_self] using ends
    rw [stringBody_quote quote, stringBody_quote quote]
  | case3 g inner escape =>
    rw [List.map_cons, returned_of_ne (calm g List.mem_cons_self)]
    rfl
  | case4 g inner escape e rest ih =>
    rw [List.forall_mem_cons, List.forall_mem_cons] at calm
    have escape : g.char = '\\' := by simpa using escape
    rw [List.map_cons, List.map_cons, returned_of_ne calm.1, returned_of_ne calm.2.1,
      stringBody_escape escape, stringBody_escape escape, ih calm.2.2]
  | case5 g rest inner plain ih =>
    rw [List.forall_mem_cons] at calm
    rw [List.map_cons, returned_of_ne calm.1, stringBody_plain inner plain,
      stringBody_plain inner plain, ih calm.2]

/-- A string covers just what is read of it. -/
theorem stringBody_covers {cs : List Char} {n : Nat} (reads : stringBody start rest = .ok (cs, n)) :
    rest.take n = stringReach rest := by
  induction stringBody_eq_ok.1 reads with
  | @close g rest quote => cases rest <;> simp [stringReach, quote]
  | escape slash inner ih => simp [stringReach, slash, ih (stringBody_eq_ok.2 inner)]
  | @plain g rest _ _ quote line other inner ih =>
    cases rest <;> simp [stringReach, quote, line, other, ih (stringBody_eq_ok.2 inner)]

theorem head_mem_stringReach (g : Glyph) (inner : List Glyph) : g ∈ stringReach (g :: inner) := by
  cases inner <;> simp only [stringReach] <;> split <;> try split
  all_goals exact List.mem_cons_self

/-- With carriage returns a string is read at least as far. -/
theorem returned_mem_stringReach {x : Glyph} (member : x ∈ stringReach rest) :
    x.returned ∈ stringReach (rest.map returned) := by
  fun_induction stringReach rest with
  | case1 => cases member
  | case2 g rest ends =>
    rw [List.mem_singleton.1 member]
    exact head_mem_stringReach _ _
  | case3 g inner escape =>
    rw [List.mem_singleton.1 member]
    exact head_mem_stringReach _ _
  | case4 g inner escape e rest ih =>
    have escape : g.char = '\\' := by simpa using escape
    have same : g.returned = g := returned_of_ne (by simp [escape])
    rw [List.map_cons, List.map_cons, same, stringReach, if_neg inner, if_pos (by simp [escape])]
    rcases List.mem_cons.1 member with rfl | member
    · rw [same]
      exact List.mem_cons_self
    · rcases List.mem_cons.1 member with rfl | member
      · exact List.mem_cons_of_mem _ List.mem_cons_self
      · exact List.mem_cons_of_mem _ (List.mem_cons_of_mem _ (ih member))
  | case5 g rest inner plain ih =>
    have same : g.returned = g := returned_of_ne fun line => by simp [line] at inner
    rw [List.map_cons, same, stringReach.eq_def]
    dsimp only
    rw [if_neg inner, if_neg plain]
    rcases List.mem_cons.1 member with rfl | member
    · rw [same]
      exact List.mem_cons_self
    · exact List.mem_cons_of_mem _ (ih member)

theorem charPiece_plain {g : Glyph} (plain : g.char ≠ '\\') (inner : List Glyph) :
    charPiece start (g :: inner) =
      if g.char = '\'' ∨ g.char = '\n' then .error (.emptyChar start)
      else match inner with
        | [] => .error (.unterminatedChar start)
        | q :: _ =>
          if q.char = '\'' then .ok ⟨some (.char g.char), 2⟩ else .error (.unterminatedChar start) := by
  simp only [charPiece, beq_iff_eq, plain, if_false, Bool.or_eq_true]
  split
  · rfl
  · cases inner <;> rfl

theorem charPiece_escape {g : Glyph} (escape : g.char = '\\') (e : Glyph) (inner : List Glyph) :
    charPiece start (g :: e :: inner) = match inner with
        | [] => .error (.unterminatedChar start)
        | q :: _ =>
          if q.char = '\'' then .ok ⟨some (.char (unescape e.char)), 3⟩
          else .error (.unterminatedChar start) := by
  simp only [charPiece, beq_iff_eq, escape, if_true]
  cases inner <;> rfl

theorem charReach_plain {g : Glyph} (plain : g.char ≠ '\\') (inner : List Glyph) :
    charReach (g :: inner) = [g] := by
  simp [charReach, plain]

theorem charReach_escape {g : Glyph} (escape : g.char = '\\') (e : Glyph) (inner : List Glyph) :
    charReach (g :: e :: inner) = [g, e] := by
  simp [charReach, escape]

theorem charPiece_returned (calm : ∀ x ∈ charReach rest, x.char ≠ '\n') :
    charPiece start (rest.map returned) = charPiece start rest := by
  have quote (q : Glyph) : q.returned.char = '\'' ↔ q.char = '\'' := by
    have same := returned_class (p := (· == '\'')) rfl rfl q
    rw [Bool.eq_iff_iff, beq_iff_eq, beq_iff_eq] at same
    exact same
  rcases rest with _ | ⟨g, inner⟩
  · rfl
  · by_cases escape : g.char = '\\'
    · rcases inner with _ | ⟨e, inner⟩
      · rw [List.map_cons, returned_of_ne (by simp [escape])]
        rfl
      · rw [charReach_escape escape] at calm
        rw [List.map_cons, List.map_cons, returned_of_ne (calm g (by simp)),
          returned_of_ne (calm e (by simp)), charPiece_escape escape, charPiece_escape escape]
        cases inner <;> simp [quote]
    · rw [charReach_plain escape] at calm
      rw [List.map_cons, returned_of_ne (calm g (by simp)), charPiece_plain escape,
        charPiece_plain escape]
      cases inner <;> simp [quote]

/-- A character literal covers what it is read from, and its closing quote. -/
theorem charPiece_covers {p : Piece} (reads : charPiece start rest = .ok p) :
    ∃ c q, p.kind = some (.char c) ∧ q.char = '\'' ∧ rest.take p.more = charReach rest ++ [q] := by
  rcases rest with _ | ⟨g, inner⟩
  · cases reads
  · by_cases escape : g.char = '\\'
    · rcases inner with _ | ⟨e, inner⟩
      · simp [charPiece, escape] at reads
        cases reads
      · rw [charPiece_escape escape] at reads
        rw [charReach_escape escape]
        rcases inner with _ | ⟨q, inner⟩
        · cases reads
        · dsimp only at reads
          split at reads
          · cases reads
            exact ⟨_, q, rfl, ‹_›, rfl⟩
          · cases reads
    · rw [charPiece_plain escape] at reads
      rw [charReach_plain escape]
      split at reads
      · cases reads
      · rcases inner with _ | ⟨q, inner⟩
        · cases reads
        · dsimp only at reads
          split at reads
          · cases reads
            exact ⟨_, q, rfl, ‹_›, rfl⟩
          · cases reads

/-- With carriage returns a character literal is read as far. -/
theorem returned_mem_charReach {x : Glyph} (member : x ∈ charReach rest) :
    x.returned ∈ charReach (rest.map returned) := by
  have head : (rest.map returned).head?.any (·.char == '\\') = rest.head?.any (·.char == '\\') := by
    cases rest with
    | nil => rfl
    | cons g inner => exact returned_class (p := (· == '\\')) rfl rfl g
  unfold charReach at member ⊢
  rw [head, ← List.map_take]
  exact List.mem_map_of_mem member

theorem run_unbroken {p : Char → Bool} (feed : p '\n' = false) {x : Glyph} (member : x ∈ run p rest) :
    x.char ≠ '\n' := by
  intro line
  have inside : p x.char = true := List.all_eq_true.1 List.all_takeWhile x member
  rw [line, feed] at inside
  cases inside

/-- The digits behind a point, if there are any. -/
def fractionOf (rest : List Glyph) : List Glyph :=
  match rest with
  | point :: digit :: rest =>
    if point.char == '.' && digit.char.isDigit then digit :: run isNumberChar rest else []
  | _ => []

theorem fractionOf_returned : fractionOf (rest.map returned) = fractionOf rest := by
  have mark (x : Glyph) := returned_class (p := (· == '.')) rfl rfl x
  have digit (x : Glyph) := returned_class (p := Char.isDigit) rfl rfl x
  rcases rest with _ | ⟨a, _ | ⟨d, inner⟩⟩
  · rfl
  · rfl
  · simp only [List.map_cons, fractionOf, mark, digit]
    split
    · rename_i fraction
      rw [run_returned rfl rfl, returned_of_ne]
      intro line
      simp [line] at fraction
    · rfl

theorem numberPiece_eq (first : Glyph) (rest : List Glyph) :
    numberPiece start first rest =
      let whole := first :: run isNumberChar rest
      let fraction := fractionOf (rest.drop (run isNumberChar rest).length)
      let digitsOf (gs : List Glyph) := (charsOf gs).filter Char.isDigit
      if fraction.isEmpty then
        let digits := digitsOf whole
        let n := Decimal.natOfDigits digits
        if n < Nat.pow 2 63 then .ok ⟨some (.integer (Int64.ofNat n)), (run isNumberChar rest).length⟩
        else .error (.integerTooLarge (String.ofList digits) start)
      else
        let decimals := digitsOf fraction
        let value := Decimal.toFloat false
          ⟨Decimal.natOfDigits (digitsOf whole ++ decimals), -(decimals.length : Int)⟩
        .ok ⟨some (.float value), whole.length + fraction.length⟩ := rfl

theorem numberPiece_returned (first : Glyph) :
    numberPiece start first (rest.map returned) = numberPiece start first rest := by
  rw [numberPiece_eq, numberPiece_eq, run_returned rfl rfl, ← List.map_drop, fractionOf_returned]

/-- What a run of a class covers. -/
theorem take_run (p : Char → Bool) (gs : List Glyph) : gs.take (run p gs).length = run p gs :=
  List.prefix_iff_eq_take.1 (List.takeWhile_prefix _) |>.symm

/-- A fraction is covered with the point before it. -/
theorem fractionOf_unbroken (there : (fractionOf rest).isEmpty = false) :
    ∀ x ∈ rest.take ((fractionOf rest).length + 1), x.char ≠ '\n' := by
  rcases rest with _ | ⟨point, _ | ⟨digit, inner⟩⟩
  · cases there
  · cases there
  · unfold fractionOf at there ⊢
    dsimp only at there ⊢
    split at there
    · rename_i fraction
      rw [if_pos fraction, List.length_cons, List.take_succ_cons, List.take_succ_cons, take_run,
        List.forall_mem_cons, List.forall_mem_cons]
      refine ⟨?_, ?_, fun x member => run_unbroken rfl member⟩
      · intro line
        simp [line] at fraction
      · intro line
        simp [line] at fraction
    · cases there

theorem unbroken_append {n k : Nat} (first : ∀ x ∈ rest.take n, x.char ≠ '\n')
    (second : ∀ x ∈ (rest.drop n).take k, x.char ≠ '\n') : ∀ x ∈ rest.take (n + k), x.char ≠ '\n' := by
  rw [List.take_add]
  exact List.forall_mem_append.2 ⟨first, second⟩

theorem run_covers {p : Char → Bool} (feed : p '\n' = false) :
    ∀ x ∈ rest.take (run p rest).length, x.char ≠ '\n' := by
  rw [take_run]
  exact fun x member => run_unbroken feed member

/-- A number covers digits, and a point with the digits behind it. -/
theorem numberPiece_unbroken {first : Glyph} {p : Piece} (reads : numberPiece start first rest = .ok p) :
    ∀ x ∈ rest.take p.more, x.char ≠ '\n' := by
  rw [numberPiece_eq] at reads
  dsimp only at reads
  split at reads
  · split at reads
    · cases reads
      exact run_covers rfl
    · cases reads
  · rename_i there
    cases reads
    rw [List.length_cons, Nat.add_assoc, Nat.add_comm 1]
    exact unbroken_append (run_covers rfl) (fractionOf_unbroken (by simpa using there))

/-- A mark follows a method name that belongs to it. -/
def markedBy (rest : List Glyph) : Bool :=
  match rest with
  | m :: after => (m.char == '?' || m.char == '!') && !(after.head?.any fun g => g.char == '=')
  | [] => false

theorem markedBy_returned : markedBy (rest.map returned) = markedBy rest := by
  rcases rest with _ | ⟨m, after⟩
  · rfl
  · have equals : (after.map returned).head?.any (fun g => g.char == '=') =
        after.head?.any fun g => g.char == '=' := by
      cases after with
      | nil => rfl
      | cons g inner => exact returned_class (p := (· == '=')) rfl rfl g
    have mark := returned_class (p := fun c => c == '?' || c == '!') rfl rfl m
    simp only [List.map_cons, markedBy, mark, equals]

theorem wordPiece_eq (methodName : Bool) (first : Glyph) (rest : List Glyph) :
    wordPiece methodName first rest =
      let tail := run isWordChar rest
      if methodName then
        ⟨some .identifier, tail.length + if markedBy (rest.drop tail.length) then 1 else 0⟩
      else ⟨some (wordKind (String.ofList (charsOf (first :: tail)))), tail.length⟩ := rfl

theorem wordPiece_returned (methodName : Bool) (first : Glyph) :
    wordPiece methodName first (rest.map returned) = wordPiece methodName first rest := by
  rw [wordPiece_eq, wordPiece_eq, run_returned rfl rfl]
  dsimp only
  rw [← List.map_drop, markedBy_returned]

theorem wordPiece_unbroken (methodName : Bool) (first : Glyph) :
    ∀ x ∈ rest.take (wordPiece methodName first rest).more, x.char ≠ '\n' := by
  rw [wordPiece_eq]
  dsimp only
  split
  · apply unbroken_append (run_covers rfl)
    intro x member line
    split at member
    · rename_i marked
      rcases after : rest.drop (run isWordChar rest).length with _ | ⟨m, inner⟩
      · rw [after] at member
        cases member
      · rw [after] at member marked
        cases List.mem_singleton.1 member
        simp [markedBy, line] at marked
    · cases member
  · exact run_covers rfl

theorem sigilPiece_returned (kind : TokenKind) (sigil : Char) :
    sigilPiece kind start sigil (rest.map returned) = sigilPiece kind start sigil rest := by
  rcases rest with _ | ⟨g, tail⟩
  · rfl
  · have named := returned_class (p := fun c => c.isAlpha || c == '_') rfl rfl g
    have word : run isWordChar (tail.map returned) = run isWordChar tail := run_returned rfl rfl tail
    simp only [List.map_cons, sigilPiece, named, word]

theorem sigilPiece_unbroken {kind : TokenKind} {sigil : Char} {p : Piece}
    (reads : sigilPiece kind start sigil rest = .ok p) : ∀ x ∈ rest.take p.more, x.char ≠ '\n' := by
  rcases rest with _ | ⟨g, tail⟩
  · cases reads
  · unfold sigilPiece at reads
    dsimp only at reads
    split at reads
    · rename_i named
      cases reads
      rw [Nat.add_comm, List.take_succ_cons, List.forall_mem_cons]
      refine ⟨?_, run_covers rfl⟩
      intro line
      simp [line] at named
    · cases reads

theorem pairMark?_lineEnd (first : Char) : pairMark? first '\n' = none ∧ pairMark? first '\r' = none := by
  constructor
  · unfold pairMark?
    split <;> simp_all
  · unfold pairMark?
    split <;> simp_all

theorem markPiece_returned (first : Char) :
    markPiece start first (rest.map returned) = markPiece start first rest := by
  have pair : ((rest.map returned).head?.bind fun g => pairMark? first g.char) =
      rest.head?.bind fun g => pairMark? first g.char := by
    rcases rest with _ | ⟨g, tail⟩
    · rfl
    · change pairMark? first g.returned.char = pairMark? first g.char
      rw [returned_char]
      split
      · rename_i line
        rw [line, (pairMark?_lineEnd first).1, (pairMark?_lineEnd first).2]
      · rfl
  unfold markPiece
  rw [pair]

theorem markPiece_unbroken {first : Char} {p : Piece} (reads : markPiece start first rest = .ok p) :
    ∀ x ∈ rest.take p.more, x.char ≠ '\n' := by
  unfold markPiece at reads
  split at reads
  · rename_i m pair
    cases reads
    rcases rest with _ | ⟨g, tail⟩
    · cases pair
    · intro x member line
      cases List.mem_singleton.1 member
      change pairMark? first g.char = some m at pair
      rw [line, (pairMark?_lineEnd first).1] at pair
      cases pair
  · split at reads
    · cases reads
      exact fun x member => nomatch member
    · cases reads

end Pieces

section Scanning

variable {start : Position} {g : Glyph} {rest : List Glyph} {methodName : Bool}

theorem reach_comment (comment : g.char = '#') : reach g rest = rest := if_pos comment

theorem reach_string (quote : g.char = '"') : reach g rest = stringReach rest := by
  simp [reach, quote]

theorem reach_char (quote : g.char = '\'') : reach g rest = charReach rest := by
  simp [reach, quote]

theorem piece_lineEnd (ends : g.endsLine = true) :
    piece methodName start g rest = .ok ⟨some .newline, 0⟩ := by
  have blank : (g.char == ' ' || g.char == '\t') = false := by
    unfold endsLine at ends
    rcases Bool.or_eq_true_iff.1 ends with line | line <;> simp [beq_iff_eq.1 line]
  simp [piece, ends, blank]

theorem returned_endsLine (g : Glyph) : g.returned.endsLine = g.endsLine := by
  unfold endsLine
  rw [returned_char]
  split
  · rename_i line
    rw [line]
    rfl
  · rfl

theorem piece_comment (comment : g.char = '#') :
    piece methodName start g rest = .ok ⟨none, (run (· != '\n') rest).length⟩ := by
  simp [piece, comment, endsLine]

theorem piece_string (quote : g.char = '"') : piece methodName start g rest =
    (stringBody start rest).map fun (cs, n) => ⟨some (.string (String.ofList cs)), n⟩ := by
  simp [piece, quote, endsLine]

theorem piece_char (quote : g.char = '\'') :
    piece methodName start g rest = charPiece start rest := by
  simp [piece, quote, endsLine]

/-- A piece is the same with carriage returns if no line end stands in its reach. -/
theorem piece_returned (calm : ∀ x ∈ reach g rest, x.char ≠ '\n') :
    piece methodName start g.returned (rest.map returned) = piece methodName start g rest := by
  by_cases line : g.char = '\n'
  · have ends : g.endsLine = true := by simp [endsLine, line]
    rw [piece_lineEnd ends, piece_lineEnd ((returned_endsLine g).trans ends)]
  · rw [returned_of_ne line]
    obtain ⟨form, reading⟩ := exists_form g
    rw [reading, reading]
    cases form with
    | blank _ | lineEnd _ => rfl
    | comment hash =>
      rw [reach_comment hash] at calm
      rw [map_returned calm]
    | string quote =>
      rw [reach_string quote] at calm
      rw [PieceForm.read, PieceForm.read, stringBody_returned calm]
    | char quote =>
      rw [reach_char quote] at calm
      exact charPiece_returned calm
    | number _ => exact numberPiece_returned g
    | word _ => rw [PieceForm.read, PieceForm.read, wordPiece_returned]
    | instanceVar _ | global _ => exact sigilPiece_returned _ _
    | mark => exact markPiece_returned _

/-- A piece covers no line end behind its first glyph unless one stands in its reach. -/
theorem piece_unbroken (calm : ∀ x ∈ reach g rest, x.char ≠ '\n') {p : Piece}
    (reads : piece methodName start g rest = .ok p) : ∀ x ∈ rest.take p.more, x.char ≠ '\n' := by
  obtain ⟨form, reading⟩ := exists_form g
  rw [reading] at reads
  cases form with
  | blank _ | lineEnd _ =>
    cases reads
    exact fun x member => nomatch member
  | comment hash =>
    rw [reach_comment hash] at calm
    exact fun x member => calm x (List.mem_of_mem_take member)
  | string quote =>
    rw [reach_string quote] at calm
    obtain ⟨⟨cs, n⟩, body, rfl⟩ := map_eq_ok.1 reads
    rw [stringBody_covers body]
    exact calm
  | char quote =>
    rw [reach_char quote] at calm
    obtain ⟨-, q, -, closing, covers⟩ := charPiece_covers reads
    rw [covers]
    refine List.forall_mem_append.2 ⟨calm, List.forall_mem_singleton.2 ?_⟩
    rw [closing]
    decide
  | number _ => exact numberPiece_unbroken reads
  | word _ =>
    cases reads
    exact wordPiece_unbroken methodName g
  | instanceVar _ | global _ => exact sigilPiece_unbroken reads
  | mark => exact markPiece_unbroken reads

/-- With carriage returns, a literal with a line end in its reach is a token with a carriage return,
unless it is none. -/
theorem piece_broken (literal : g.char ≠ '#') {x : Glyph} (member : x ∈ reach g rest)
    (line : x.char = '\n') {p : Piece}
    (reads : piece methodName start g.returned (rest.map returned) = .ok p) :
    (∃ kind, p.kind = some kind ∧ kind ≠ .newline) ∧
      ∃ y ∈ (rest.map returned).take p.more, y.char = '\r' := by
  have carriage : x.returned.char = '\r' := by rw [returned_char, if_pos line]
  unfold reach at member
  rw [if_neg literal] at member
  split at member
  · rename_i quote
    have same : g.returned = g := returned_of_ne (by simp [quote])
    rw [same, piece_string quote] at reads
    obtain ⟨⟨cs, n⟩, body, rfl⟩ := map_eq_ok.1 reads
    refine ⟨⟨_, rfl, nofun⟩, x.returned, ?_, carriage⟩
    rw [stringBody_covers body]
    exact returned_mem_stringReach member
  · split at member
    · rename_i quote
      have same : g.returned = g := returned_of_ne (by simp [quote])
      rw [same, piece_char quote] at reads
      obtain ⟨c, q, kind, -, covers⟩ := charPiece_covers reads
      refine ⟨⟨_, kind, nofun⟩, x.returned, ?_, carriage⟩
      rw [covers]
      exact List.mem_append_left _ (returned_mem_charReach member)
    · cases member

theorem after_returned (start : Position) (gs : List Glyph) :
    start.after (gs.map returned) = start.after gs := by
  have same (p : Position) (g : Glyph) : p.step g.returned = p.step g := by
    unfold Position.step
    rw [returned_endsLine]
  unfold Position.after
  rw [List.foldl_map]
  simp only [same]

/-- A token is the same with carriage returns if no line end stands in its reach. -/
theorem ofPiece_returned (calm : ∀ x ∈ reach g rest, x.char ≠ '\n') {p : Piece}
    (reads : piece methodName start g rest = .ok p) {kind : TokenKind} (counts : p.kind = some kind) :
    ofPiece kind start (g.returned :: (rest.map returned).take p.more) =
      ofPiece kind start (g :: rest.take p.more) := by
  unfold ofPiece
  by_cases newline : kind = .newline
  · simp [newline]
  · have plain : g.char ≠ '\n' := by
      intro line
      rw [piece_lineEnd (by simp [endsLine, line])] at reads
      cases reads
      cases counts
      exact newline rfl
    rw [← List.map_take, map_returned (piece_unbroken calm reads), returned_of_ne plain]

section Step

variable {before : List Token} {p : Piece}
  (reads : piece (before.head?.any fun t => expectsMethodName t.kind) start g rest = .ok p)
include reads

theorem scanFrom_cons :
    scanFrom before start (g :: rest) =
      scanFrom (afterPiece before start (g :: rest.take p.more) p)
        (start.after (g :: rest.take p.more)) (rest.drop p.more) := by
  rw [scanFrom, reads]
  rfl

theorem linesApartFrom_cons :
    linesApartFrom before start (g :: rest) = ((reach g rest).all (·.char != '\n') &&
      linesApartFrom (afterPiece before start (g :: rest.take p.more) p)
        (start.after (g :: rest.take p.more)) (rest.drop p.more)) := by
  rw [linesApartFrom, reads]

/-- A piece of the text with carriage returns is scanned like that of the text without. -/
theorem scanFrom_cons_returned (calm : ∀ x ∈ reach g rest, x.char ≠ '\n') :
    scanFrom before start ((g :: rest).map returned) =
      scanFrom (afterPiece before start (g :: rest.take p.more) p)
        (start.after (g :: rest.take p.more)) ((rest.drop p.more).map returned) := by
  have covered : start.after (g.returned :: (rest.map returned).take p.more) =
      start.after (g :: rest.take p.more) := by
    rw [← after_returned start (g :: rest.take p.more), List.map_cons, List.map_take]
  have tokens : afterPiece before start (g.returned :: (rest.map returned).take p.more) p =
      afterPiece before start (g :: rest.take p.more) p := by
    unfold afterPiece
    cases counts : p.kind with
    | none => rfl
    | some kind =>
      dsimp only
      rw [ofPiece_returned calm reads counts]
  rw [List.map_cons, scanFrom_cons ((piece_returned calm).trans reads), covered, tokens,
    List.map_drop]

end Step

/-- A text whose line ends stand apart is scanned alike with carriage returns. -/
theorem scanFrom_returned {before : List Token} {gs : List Glyph}
    (apart : linesApartFrom before start gs = true) :
    scanFrom before start (gs.map returned) = scanFrom before start gs := by
  fun_induction scanFrom before start gs with
  | case1 before start => rw [List.map_nil, scanFrom]
  | case2 before start g rest e fails =>
    rw [linesApartFrom, Bool.and_eq_true] at apart
    have calm : ∀ x ∈ reach g rest, x.char ≠ '\n' := by simpa using apart.1
    rw [List.map_cons, scanFrom, piece_returned calm, fails]
  | case3 before start g rest p reads covered before' ih =>
    rw [linesApartFrom_cons reads, Bool.and_eq_true] at apart
    have calm : ∀ x ∈ reach g rest, x.char ≠ '\n' := by simpa using apart.1
    rw [scanFrom_cons_returned reads calm]
    exact ih apart.2

/-- Tokens once read stay, and at least the ending comes after them. -/
theorem scanFrom_keeps {before : List Token} {gs : List Glyph} {ts : List Token}
    (scans : scanFrom before start gs = .ok ts) :
    before ⊆ ts ∧ before.length < ts.length := by
  fun_induction scanFrom before start gs with
  | case1 before start =>
    cases scans
    constructor
    · intro t member
      simp [member]
    · simp
  | case2 before start g rest e fails => cases scans
  | case3 before start g rest p reads covered before' ih =>
    have ⟨inside, shorter⟩ := ih scans
    have grows : before ⊆ before' ∧ before.length ≤ before'.length := by
      unfold before'
      split
      · exact ⟨List.subset_cons_self _ _, Nat.le_succ _⟩
      · exact ⟨List.Subset.refl _, Nat.le_refl _⟩
    exact ⟨List.Subset.trans grows.1 inside, Nat.lt_of_le_of_lt grows.2 shorter⟩

theorem afterPiece_plain {before : List Token} {covered : List Glyph} {p : Piece}
    (old : ∀ t ∈ before, '\r' ∉ t.lexeme.toList) (plain : ∀ g ∈ covered, '\r' ∉ g.text) :
    ∀ t ∈ afterPiece before start covered p, '\r' ∉ t.lexeme.toList := by
  unfold afterPiece
  split
  · rw [List.forall_mem_cons]
    refine ⟨?_, old⟩
    unfold ofPiece
    split
    · change '\r' ∉ "\n".toList
      decide
    · rw [String.toList_ofList, textOf, List.mem_flatMap]
      rintro ⟨g, member, carriage⟩
      exact plain g member carriage
  · exact old

/-- No token of a text without carriage returns has one. -/
theorem scanFrom_plain {before : List Token} {gs : List Glyph} {ts : List Token}
    (old : ∀ t ∈ before, '\r' ∉ t.lexeme.toList) (plain : ∀ g ∈ gs, '\r' ∉ g.text)
    (scans : scanFrom before start gs = .ok ts) : ∀ t ∈ ts, '\r' ∉ t.lexeme.toList := by
  fun_induction scanFrom before start gs with
  | case1 before start =>
    cases scans
    rw [List.reverse_cons, List.forall_mem_append, List.forall_mem_singleton]
    exact ⟨fun t member => old t (List.mem_reverse.1 member), List.not_mem_nil⟩
  | case2 before start g rest e fails => cases scans
  | case3 before start g rest p reads covered before' ih =>
    rw [List.forall_mem_cons] at plain
    have covers : ∀ x ∈ covered, '\r' ∉ x.text :=
      List.forall_mem_cons.2 ⟨plain.1, fun x member => plain.2 x (List.mem_of_mem_take member)⟩
    exact ih (afterPiece_plain old covers) (fun x member => plain.2 x (List.mem_of_mem_drop member))
      scans

/-- A comment that a line end follows takes the rest of the text along with carriage returns. -/
theorem comment_differs {before : List Token} (comment : g.char = '#')
    {x : Glyph} (member : x ∈ rest) (line : x.char = '\n') {ts : List Token}
    (scans : scanFrom before start (g :: rest) = .ok ts) :
    scanFrom before start ((g :: rest).map returned) ≠ .ok ts := by
  -- A line end follows the comment, so its token does.
  have longer : before.length + 1 < ts.length := by
    rw [scanFrom_cons (piece_comment comment)] at scans
    have behind : rest.drop (run (· != '\n') rest).length =
        rest.dropWhile fun g => g.char != '\n' := by
      have parts : run (· != '\n') rest ++ rest.dropWhile (fun g => g.char != '\n') = rest :=
        List.takeWhile_append_dropWhile
      calc rest.drop (run (· != '\n') rest).length
        _ = (run (· != '\n') rest ++ rest.dropWhile fun g => g.char != '\n').drop
              (run (· != '\n') rest).length := by rw [parts]
        _ = rest.dropWhile fun g => g.char != '\n' := List.drop_left
    rw [behind] at scans
    rcases after : rest.dropWhile fun g => g.char != '\n' with _ | ⟨y, inner⟩
    · have := List.dropWhile_eq_nil_iff.1 after x member
      simp [line] at this
    · have ends : y.char = '\n' := by
        have := List.head?_dropWhile_not (fun g : Glyph => g.char != '\n') rest
        simpa [after] using this
      rw [after, scanFrom_cons (piece_lineEnd (by simp [endsLine, ends]))] at scans
      exact (scanFrom_keeps scans).2
  intro same
  have plain : g.returned = g := returned_of_ne (by simp [comment])
  have all : run (· != '\n') (rest.map returned) = rest.map returned := by
    apply List.takeWhile_eq_self_iff.2
    intro y inside
    obtain ⟨z, -, rfl⟩ := List.mem_map.1 inside
    simpa using returned_ne z
  rw [List.map_cons, plain, scanFrom_cons (piece_comment comment), all, List.drop_length,
    scanFrom] at same
  cases same
  simp [afterPiece] at longer

/-- A literal with a line end is no token, or one with a carriage return. -/
theorem literal_differs {before : List Token} (literal : g.char ≠ '#')
    {x : Glyph} (member : x ∈ reach g rest) (line : x.char = '\n') {ts : List Token}
    (plain : ∀ t ∈ ts, '\r' ∉ t.lexeme.toList) :
    scanFrom before start ((g :: rest).map returned) ≠ .ok ts := by
  intro scans
  rw [List.map_cons] at scans
  cases reads : piece (before.head?.any fun t => expectsMethodName t.kind) start g.returned
      (rest.map returned) with
  | error e =>
    rw [scanFrom, reads] at scans
    cases scans
  | ok p =>
    obtain ⟨⟨kind, counts, other⟩, y, covered, carriage⟩ := piece_broken literal member line reads
    rw [scanFrom_cons reads] at scans
    apply plain (ofPiece kind start (g.returned :: (rest.map returned).take p.more))
    · apply (scanFrom_keeps scans).1
      rw [afterPiece, counts]
      exact List.mem_cons_self
    · rw [ofPiece, if_neg (by simpa using other), String.toList_ofList]
      apply List.mem_flatMap.2
      refine ⟨y, List.mem_cons_of_mem _ covered, ?_⟩
      rw [text, carriage]
      split
      · exact List.mem_cons_self
      · exact List.mem_cons_self

/-- A text whose line ends do not all stand apart has other tokens with carriage returns, or none. -/
theorem scanFrom_differs {before : List Token} {gs : List Glyph} {ts : List Token}
    (apart : linesApartFrom before start gs = false)
    (old : ∀ t ∈ before, '\r' ∉ t.lexeme.toList) (plain : ∀ g ∈ gs, '\r' ∉ g.text)
    (scans : scanFrom before start gs = .ok ts) :
    scanFrom before start (gs.map returned) ≠ .ok ts := by
  fun_induction scanFrom before start gs with
  | case1 before start =>
    rw [linesApartFrom] at apart
    cases apart
  | case2 before start g rest e fails => cases scans
  | case3 before start g rest p reads covered before' ih =>
    have whole : scanFrom before start (g :: rest) = .ok ts := (scanFrom_cons reads).trans scans
    rw [linesApartFrom_cons reads, Bool.and_eq_false_iff] at apart
    by_cases calm : ∀ x ∈ reach g rest, x.char ≠ '\n'
    · rw [scanFrom_cons_returned reads calm]
      rw [List.forall_mem_cons] at plain
      apply ih
      · rcases apart with broken | apart
        · simp at broken
          obtain ⟨x, member, line⟩ := broken
          exact absurd line (calm x member)
        · exact apart
      · exact afterPiece_plain old
          (List.forall_mem_cons.2 ⟨plain.1, fun x member => plain.2 x (List.mem_of_mem_take member)⟩)
      · exact fun x member => plain.2 x (List.mem_of_mem_drop member)
      · exact scans
    · have ⟨x, member, line⟩ : ∃ x ∈ reach g rest, x.char = '\n' := by simpa using calm
      by_cases comment : g.char = '#'
      · rw [reach_comment comment] at member
        exact comment_differs comment member line whole
      · exact literal_differs comment member line (scanFrom_plain old plain whole)

end Scanning

variable {text : String}

theorem scan_withCarriageReturns (plain : '\r' ∉ text.toList) : scan (withCarriageReturns text) =
    scanFrom [] Position.start ((Glyph.ofChars text.toList).map returned) := by
  unfold scan withCarriageReturns
  rw [String.toList_ofList, ofChars_withCarriageReturns plain]

/-- A text without carriage returns has the same tokens with a pair for every line feed if its line
ends stand between its tokens. Otherwise it is no text, or it is another one. -/
theorem scan_lineEnds (plain : '\r' ∉ text.toList) :
    (linesApart text = true → scan (withCarriageReturns text) = scan text) ∧
      (linesApart text = false →
        ∀ ts, scan text = .ok ts → scan (withCarriageReturns text) ≠ .ok ts) := by
  rw [scan_withCarriageReturns plain]
  constructor
  · exact scanFrom_returned
  · intro apart ts scans
    apply scanFrom_differs apart (fun t member => nomatch member) _ scans
    intro g member carriage
    apply plain
    rw [← textOf_ofChars text.toList]
    exact List.mem_flatMap.2 ⟨g, member, carriage⟩

end Token

namespace Compilation

variable {text : String}

/-- The tokens of a text are all that its compilation takes from it. -/
theorem ofText_congr {other : String} (same : Token.scan other = Token.scan text) (options : Options)
    (ds : Diagnostics) : ofText options other ds = ofText options text ds := by
  have read (first : NodeId) : Module.read first other = Module.read first text := by
    unfold Module.read
    rw [same]
  unfold ofText Compile.compile Compile.readWithPrelude Compile.read
  simp only [read]

/-- A text that has tokens has the same ones with carriage returns just in case its line ends stand
between them. Then it also compiles alike, whatever was compiled before, and is rejected alike. -/
theorem lineEnds_between_tokens (plain : '\r' ∉ text.toList) :
    (∀ ts, Token.scan text = .ok ts →
        (Token.scan (withCarriageReturns text) = .ok ts ↔ Token.linesApart text = true)) ∧
      (Token.linesApart text = true →
        Token.scan (withCarriageReturns text) = Token.scan text ∧
          ∀ options ds, ofText options (withCarriageReturns text) ds = ofText options text ds) := by
  have ⟨alike, differs⟩ := Token.scan_lineEnds plain
  constructor
  · intro ts scans
    constructor
    · intro same
      cases apart : Token.linesApart text with
      | true => rfl
      | false => exact absurd same (differs apart ts scans)
    · intro apart
      exact (alike apart).trans scans
  · intro apart
    exact ⟨alike apart, ofText_congr (alike apart)⟩

/-- A comment takes the line behind it along, as a line end without one does not. -/
theorem commented_lineEnd_lost :
    ('\r' ∉ "1 # c\n2".toList ∧ ∃ ts, Token.scan "1 # c\n2" = .ok ts ∧
      Token.scan (withCarriageReturns "1 # c\n2") ≠ .ok ts) ∧
    '\r' ∉ "1\n2".toList ∧
      Token.scan (withCarriageReturns "1\n2") = Token.scan "1\n2" := by
  have plain : '\r' ∉ "1 # c\n2".toList := by decide
  have commented : Token.linesApart "1 # c\n2" = false := by decide +kernel
  refine ⟨⟨plain, ?_⟩, by decide, ((lineEnds_between_tokens (by decide)).2 (by decide +kernel)).1⟩
  obtain ⟨ts, scans⟩ := exists_ok (Token.scan "1 # c\n2") (by decide +kernel)
  refine ⟨ts, scans, fun same => ?_⟩
  rw [((lineEnds_between_tokens plain).1 ts scans).1 same] at commented
  cases commented

end Compilation

end TypedBlocks

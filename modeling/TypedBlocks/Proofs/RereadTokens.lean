import TypedBlocks.Proofs.TokenCuts

/-!
# Reading tokens again

A token is read again from its lexeme alone, whatever place it stands at, as long as a space or
nothing follows it and a method name is expected in front of it as before. So the lexemes of a text,
with spaces between them, are cut into the same tokens.
-/
namespace TypedBlocks

namespace Glyph

/-- A text is cut into glyphs piece by piece where a piece does not begin with a line feed. -/
theorem ofChars_append (cs : List Char) {ds : List Char} (apart : ds.head? ≠ some '\n') :
    ofChars (cs ++ ds) = ofChars cs ++ ofChars ds := by
  fun_induction ofChars cs with
  | case1 => rfl
  | case2 rest ih => simpa [ofChars] using ih
  | case3 c rest single ih =>
    rw [List.cons_append, List.cons_append, ofChars, ih]
    intro behind carriage feed
    cases rest with
    | nil => exact apart (by rw [List.nil_append] at feed; rw [feed]; rfl)
    | cons d rest =>
      cases feed
      exact single rest carriage rfl

/-- Each part of the glyphs of a text is the glyphs of its own text. -/
theorem ofChars_split {cs : List Char} (xs ys : List Glyph) (split : ofChars cs = xs ++ ys) :
    ofChars (textOf xs) = xs ∧ ofChars (textOf ys) = ys := by
  fun_induction ofChars cs generalizing xs with
  | case1 =>
    obtain ⟨rfl, rfl⟩ := List.append_eq_nil_iff.1 split.symm
    exact ⟨rfl, rfl⟩
  | case2 rest ih =>
    rcases List.cons_eq_append_iff.1 split with ⟨rfl, rfl⟩ | ⟨xs, rfl, behind⟩
    · exact ⟨rfl, congrArg ofChars (textOf_ofChars ('\r' :: '\n' :: rest))⟩
    · obtain ⟨first, second⟩ := ih xs behind
      refine ⟨?_, second⟩
      change ofChars ('\r' :: '\n' :: textOf xs) = _
      rw [ofChars, first]
  | case3 c rest single ih =>
    rcases List.cons_eq_append_iff.1 split with ⟨rfl, rfl⟩ | ⟨xs, rfl, behind⟩
    · refine ⟨rfl, ?_⟩
      rw [← ofChars.eq_3 c rest single, textOf_ofChars]
    · obtain ⟨first, second⟩ := ih xs behind
      have whole : rest = textOf xs ++ textOf ys := by
        rw [← textOf_ofChars rest, behind]
        exact List.flatMap_append
      refine ⟨?_, second⟩
      change ofChars (c :: textOf xs) = _
      rw [ofChars, first]
      intro inner carriage feed
      rw [feed, List.cons_append] at whole
      exact single _ carriage whole

end Glyph

namespace Token

open Glyph

/-- A space stands in front, or nothing. -/
def Apart (gs : List Glyph) : Prop := ∀ g ∈ gs.head?, g.char = ' '

/-- A piece that a reader gives lies within the glyphs ahead, and is given again, at any place, where
only the glyphs that it covers stand ahead and a space behind them. -/
structure Repeats (reader : Position → List Glyph → Except LexError Piece) (rest : List Glyph)
    (p : Piece) : Prop where
  fits : p.more ≤ rest.length
  again : ∀ start after, Apart after → reader start (rest.take p.more ++ after) = .ok p

section Runs

variable {q : Char → Bool} {gs after : List Glyph}

theorem run_append (stops : ∀ g ∈ after.head?, q g.char = false) :
    run q (run q gs ++ after) = run q gs := by
  unfold run
  rw [List.takeWhile_append_of_pos fun g member => List.all_eq_true.1 List.all_takeWhile g member]
  cases after with
  | nil => rw [List.takeWhile_nil, List.append_nil]
  | cons g after => rw [List.takeWhile_cons, stops g rfl, if_neg (by decide), List.append_nil]

theorem Apart.stops (apart : Apart after) (blank : q ' ' = false) :
    ∀ g ∈ after.head?, q g.char = false := fun g member => by rw [apart g member, blank]

theorem take_run_add (q : Char → Bool) (gs : List Glyph) (n : Nat) :
    gs.take ((run q gs).length + n) = run q gs ++ (gs.drop (run q gs).length).take n := by
  rw [List.take_add, take_run]

theorem length_run_le (q : Char → Bool) (gs : List Glyph) : (run q gs).length ≤ gs.length :=
  (List.takeWhile_prefix _).length_le

end Runs

section Numbers

variable {start : Position} {first : Glyph} {rest : List Glyph} {p : Piece}

theorem fractionOf_apart {after : List Glyph} (apart : Apart after) : fractionOf after = [] := by
  unfold fractionOf
  split
  · rename_i point digit inner
    rw [apart point rfl]
    rfl
  · rfl

/-- A fraction follows a point. -/
theorem fractionOf_cases (there : ¬ (fractionOf rest).isEmpty = true) : ∃ point digit inner,
    rest = point :: digit :: inner ∧ (point.char == '.' && digit.char.isDigit) = true ∧
      fractionOf rest = digit :: run isNumberChar inner := by
  unfold fractionOf at there ⊢
  split at there
  · rename_i point digit inner
    split at there
    · rename_i fraction
      exact ⟨point, digit, inner, rfl, fraction, by rw [if_pos fraction]⟩
    · exact absurd rfl there
  · exact absurd rfl there

/-- A number is told by its digits. -/
theorem numberPiece_again {ahead : List Glyph} (whole : run isNumberChar ahead = run isNumberChar rest)
    (fraction : fractionOf (ahead.drop (run isNumberChar rest).length) =
      fractionOf (rest.drop (run isNumberChar rest).length))
    (reads : numberPiece start first rest = .ok p) (place : Position) :
    numberPiece place first ahead = .ok p := by
  rw [numberPiece_eq] at reads ⊢
  rw [whole, fraction]
  dsimp only at reads ⊢
  split at reads
  · rename_i integral
    rw [if_pos integral]
    split at reads
    · rename_i short
      rw [if_pos short]
      exact reads
    · cases reads
  · rename_i fractional
    rw [if_neg fractional]
    exact reads

theorem numberPiece_more (reads : numberPiece start first rest = .ok p) :
    p.more = (run isNumberChar rest).length +
      if (fractionOf (rest.drop (run isNumberChar rest).length)).isEmpty then 0
      else (fractionOf (rest.drop (run isNumberChar rest).length)).length + 1 := by
  rw [numberPiece_eq] at reads
  dsimp only at reads
  split at reads
  · rename_i integral
    rw [if_pos integral]
    split at reads
    · cases reads
      rfl
    · cases reads
  · rename_i fractional
    rw [if_neg fractional]
    cases reads
    change (first :: run isNumberChar rest).length + _ = _
    rw [List.length_cons, Nat.add_assoc, Nat.add_comm 1]

theorem numberPiece_repeats (reads : numberPiece start first rest = .ok p) :
    Repeats (numberPiece · first) rest p := by
  have more := numberPiece_more reads
  have whole := length_run_le isNumberChar rest
  by_cases integral : (fractionOf (rest.drop (run isNumberChar rest).length)).isEmpty = true
  · rw [if_pos integral, Nat.add_zero] at more
    refine ⟨more ▸ whole, fun start after apart => numberPiece_again ?_ ?_ reads start⟩
    · rw [more, take_run, run_append (apart.stops rfl)]
    · rw [more, take_run, List.drop_left, fractionOf_apart apart, List.isEmpty_iff.1 integral]
  · obtain ⟨point, digit, inner, tail, fraction, digits⟩ := fractionOf_cases integral
    have covered : rest.take p.more =
        run isNumberChar rest ++ point :: digit :: run isNumberChar inner := by
      rw [more, if_neg integral, take_run_add, digits, tail, List.length_cons, List.take_succ_cons,
        List.take_succ_cons, take_run]
    have stops : isNumberChar point.char = false := by
      rw [Bool.and_eq_true, beq_iff_eq] at fraction
      rw [fraction.1]
      rfl
    refine ⟨?_, fun start after apart => numberPiece_again ?_ ?_ reads start⟩
    · rw [more, if_neg integral, digits]
      have behind := congrArg List.length tail
      have digits := length_run_le isNumberChar inner
      simp only [List.length_drop, List.length_cons] at behind ⊢
      omega
    · rw [covered, List.append_assoc]
      refine run_append fun g member => ?_
      cases member
      exact stops
    · rw [covered, List.append_assoc, List.drop_left, digits, List.cons_append, List.cons_append,
        fractionOf, if_pos fraction, run_append (apart.stops rfl)]

end Numbers

section Words

variable {start : Position} {first : Glyph} {rest : List Glyph} {p : Piece}

theorem markedBy_apart {after : List Glyph} (apart : Apart after) : markedBy after = false := by
  cases after with
  | nil => rfl
  | cons g after => simp [markedBy, apart g rfl]

theorem wordPiece_repeats (methodName : Bool) (first : Glyph) (rest : List Glyph) :
    Repeats (fun _ ahead => .ok (wordPiece methodName first ahead)) rest
      (wordPiece methodName first rest) := by
  have whole := length_run_le isWordChar rest
  by_cases marked : (methodName && markedBy (rest.drop (run isWordChar rest).length)) = true
  · rw [Bool.and_eq_true] at marked
    obtain ⟨rfl, marked⟩ := marked
    obtain ⟨m, behind, tail⟩ : ∃ m behind, rest.drop (run isWordChar rest).length = m :: behind := by
      cases tail : rest.drop (run isWordChar rest).length with
      | nil =>
        rw [tail] at marked
        cases marked
      | cons m behind => exact ⟨m, behind, rfl⟩
    have word : wordPiece true first rest =
        ⟨some .identifier, (run isWordChar rest).length + 1⟩ := by
      rw [wordPiece_eq]
      dsimp only
      rw [if_pos rfl, if_pos marked]
    rw [tail, markedBy, Bool.and_eq_true] at marked
    have stops : isWordChar m.char = false := by
      rcases Bool.or_eq_true_iff.1 marked.1 with mark | mark <;> rw [beq_iff_eq.1 mark] <;> rfl
    rw [word]
    refine ⟨?_, fun start after apart => ?_⟩
    · have behind := congrArg List.length tail
      simp only [List.length_drop, List.length_cons] at behind ⊢
      omega
    · have closes : markedBy (m :: after) = true := by
        rw [markedBy, marked.1]
        cases after with
        | nil => rfl
        | cons g after => simp [apart g rfl]
      have same : run isWordChar (run isWordChar rest ++ m :: after) = run isWordChar rest := by
        refine run_append fun g member => ?_
        cases member
        exact stops
      rw [take_run_add, tail, List.take_succ_cons, List.take_zero, List.append_assoc,
        List.singleton_append, wordPiece_eq]
      dsimp only
      rw [same, List.drop_left, if_pos rfl, if_pos closes]
  · have word : wordPiece methodName first rest =
        ⟨if methodName then some .identifier
          else some (wordKind (String.ofList (charsOf (first :: run isWordChar rest)))),
          (run isWordChar rest).length⟩ := by
      rw [wordPiece_eq]
      cases methodName with
      | false => rfl
      | true =>
        rw [Bool.true_and] at marked
        dsimp only
        rw [if_pos rfl, if_neg marked, Nat.add_zero, if_pos rfl]
    rw [word]
    refine ⟨whole, fun start after apart => ?_⟩
    rw [take_run, wordPiece_eq]
    dsimp only
    rw [run_append (apart.stops rfl), List.drop_left, markedBy_apart apart]
    cases methodName <;> rfl

theorem sigilPiece_repeats {kind : TokenKind} {sigil : Char}
    (reads : sigilPiece kind start sigil rest = .ok p) : Repeats (sigilPiece kind · sigil) rest p := by
  cases rest with
  | nil => cases reads
  | cons g tail =>
    unfold sigilPiece at reads
    dsimp only at reads
    split at reads
    · rename_i named
      cases reads
      have whole := length_run_le isWordChar tail
      refine ⟨by rw [List.length_cons]; dsimp only; omega, fun start after apart => ?_⟩
      dsimp only
      rw [Nat.add_comm 1, List.take_succ_cons, take_run, List.cons_append, sigilPiece, if_pos named,
        run_append (apart.stops rfl), Nat.add_comm 1]
    · cases reads

theorem markPiece_repeats {c : Char} (reads : markPiece start c rest = .ok p) :
    Repeats (markPiece · c) rest p := by
  unfold markPiece at reads
  split at reads
  · rename_i m pair
    cases reads
    cases rest with
    | nil => cases pair
    | cons g tail =>
      refine ⟨Nat.succ_le_succ (Nat.zero_le _), fun start after apart => ?_⟩
      have again : ((g :: after).head?.bind fun g => pairMark? c g.char) = some m := pair
      rw [List.take_succ_cons, List.take_zero, List.singleton_append, markPiece, again]
  · split at reads
    · rename_i m lone
      cases reads
      refine ⟨Nat.zero_le _, fun start after apart => ?_⟩
      have single : (after.head?.bind fun g => pairMark? c g.char) = none := by
        cases after with
        | nil => rfl
        | cons g after =>
          change pairMark? c g.char = none
          rw [apart g rfl]
          unfold pairMark?
          split <;> simp_all
      rw [List.take_zero, List.nil_append, markPiece, single]
      dsimp only
      rw [lone]
    · cases reads

end Words

section Literals

variable {start : Position} {rest : List Glyph} {p : Piece}

theorem Quoted.again {cs : List Char} {n : Nat} (quoted : Quoted rest cs n) :
    n ≤ rest.length ∧ ∀ after, Quoted (rest.take n ++ after) cs n := by
  induction quoted with
  | close quote => exact ⟨Nat.succ_le_succ (Nat.zero_le _), fun after => .close quote⟩
  | escape slash _ ih =>
    exact ⟨Nat.succ_le_succ (Nat.succ_le_succ ih.1), fun after => .escape slash (ih.2 after)⟩
  | plain quote line other _ ih =>
    exact ⟨Nat.succ_le_succ ih.1, fun after => .plain quote line other (ih.2 after)⟩

/-- A string is closed by what it covers. -/
theorem stringBody_again {cs : List Char} {n : Nat} (reads : stringBody start rest = .ok (cs, n)) :
    n ≤ rest.length ∧ ∀ place after, stringBody place (rest.take n ++ after) = .ok (cs, n) := by
  obtain ⟨fits, again⟩ := (stringBody_eq_ok.1 reads).again
  exact ⟨fits, fun place after => stringBody_eq_ok.2 (again after)⟩

theorem charPiece_repeats (reads : charPiece start rest = .ok p) : Repeats charPiece rest p := by
  rcases rest with _ | ⟨g, inner⟩
  · cases reads
  by_cases escape : g.char = '\\'
  · rcases inner with _ | ⟨e, _ | ⟨q, inner⟩⟩
    · simp [charPiece, escape] at reads
      cases reads
    · rw [charPiece_escape escape] at reads
      cases reads
    · rw [charPiece_escape escape] at reads
      dsimp only at reads
      split at reads
      · rename_i quote
        cases reads
        refine ⟨by simp, fun start after apart => ?_⟩
        rw [List.take_succ_cons, List.take_succ_cons, List.take_succ_cons, List.take_zero]
        simp [charPiece_escape escape, quote]
      · cases reads
  · rw [charPiece_plain escape] at reads
    split at reads
    · cases reads
    · rename_i other
      rcases inner with _ | ⟨q, inner⟩
      · cases reads
      · dsimp only at reads
        split at reads
        · rename_i quote
          cases reads
          refine ⟨by simp, fun start after apart => ?_⟩
          rw [List.take_succ_cons, List.take_succ_cons, List.take_zero]
          simp [charPiece_plain escape, other, quote]
        · cases reads

end Literals

section Pieces

variable {methodName : Bool} {start : Position} {g : Glyph} {rest : List Glyph} {kind : TokenKind}
  {more : Nat}

/-- Every token but the end of a line is read again from what it covers. -/
theorem piece_repeats (reads : piece methodName start g rest = .ok ⟨some kind, more⟩)
    (other : kind ≠ .newline) : Repeats (piece methodName · g) rest ⟨some kind, more⟩ := by
  obtain ⟨form, reading⟩ := exists_form g
  rw [reading] at reads
  have again : (piece methodName · g) = fun start rest => form.read methodName start rest :=
    funext fun start => funext (reading methodName start)
  rw [again]
  cases form with
  | blank _ | comment _ => cases reads
  | lineEnd _ =>
    cases reads
    exact absurd rfl other
  | string _ =>
    obtain ⟨⟨cs, n⟩, body, same⟩ := map_eq_ok.1 reads
    cases same
    obtain ⟨fits, again⟩ := stringBody_again body
    refine ⟨fits, fun place after apart => ?_⟩
    rw [PieceForm.read, again]
    rfl
  | char _ => exact charPiece_repeats reads
  | number _ => exact numberPiece_repeats reads
  | word _ =>
    rw [← Except.ok.inj reads]
    exact wordPiece_repeats methodName g rest
  | instanceVar _ | global _ => exact sigilPiece_repeats reads
  | mark => exact markPiece_repeats reads

end Pieces

/-- The lexemes of the tokens but the last, with spaces between them. -/
def spaced (tokens : List Token) : String := " ".intercalate (tokens.dropLast.map (·.lexeme))

/-- What a token is apart from its place. -/
def content (t : Token) : TokenKind × String := (t.kind, t.lexeme)

theorem spaced_cons (t : Token) {ts : List Token} (more : ts ≠ []) : ∃ after,
    (spaced (t :: ts)).toList = t.lexeme.toList ++ after ∧
      (after = [] ∧ (spaced ts).toList = [] ∨ after = ' ' :: (spaced ts).toList) := by
  unfold spaced
  rw [List.dropLast_cons_of_ne_nil more, List.map_cons]
  cases ts.dropLast with
  | nil => exact ⟨[], by simp, .inl ⟨rfl, rfl⟩⟩
  | cons u us => exact ⟨_, by simp [String.toList_intercalate], .inr rfl⟩

section Cuts

variable {methodName : Bool} {start : Position} {gs : List Glyph} {ts : List Token}

theorem Cut.ne_nil (cut : Cut methodName start gs ts) : ts ≠ [] := by
  induction cut with
  | ending => nofun
  | gap _ _ ih => exact ih
  | token => nofun

theorem apart_ofChars {cs : List Char} (blank : ∀ c ∈ cs.head?, c = ' ') : Apart (ofChars cs) := by
  cases cs with
  | nil => nofun
  | cons c cs =>
    cases blank c rfl
    rw [ofChars_cons (by decide)]
    intro g first
    cases first
    rfl

/-- A space in front of a cut is passed over. -/
theorem Cut.spaced {cs : List Char} (cut : Cut methodName (start.after [⟨' ', false⟩]) (ofChars cs) ts) :
    Cut methodName start (ofChars (' ' :: cs)) ts := by
  rw [ofChars_cons (by decide)]
  exact .gap rfl cut

/-- A token is cut off again in front of a space or the end. -/
theorem Cut.again {g : Glyph} {rest : List Glyph} {kind : TokenKind} {more : Nat}
    (reads : piece methodName start g rest = .ok ⟨some kind, more⟩)
    (whole : ofChars (textOf (g :: rest.take more)) = g :: rest.take more) {after : List Char}
    (apart : ∀ c ∈ after.head?, c = ' ')
    (cut : ∀ start, ∃ ts', Cut (expectsMethodName kind) start (ofChars after) ts' ∧
      ts'.map content = ts.map content) (place : Position) :
    ∃ ts', Cut methodName place
        (ofChars ((ofPiece kind start (g :: rest.take more)).lexeme.toList ++ after)) ts' ∧
      ts'.map content = (ofPiece kind start (g :: rest.take more) :: ts).map content := by
  by_cases newline : kind = .newline
  · subst newline
    obtain ⟨-, rfl⟩ := piece_newline reads
    obtain ⟨ts', cut, same⟩ := cut (place.after [⟨'\n', false⟩])
    refine ⟨ofPiece .newline place [⟨'\n', false⟩] :: ts', ?_, ?_⟩
    · have lexeme : (ofPiece .newline start (g :: rest.take 0)).lexeme.toList = ['\n'] := by
        simp [ofPiece]
      rw [lexeme, List.singleton_append, ofChars_cons (by decide)]
      exact .token (piece_lineEnd rfl) cut
    · rw [List.map_cons, List.map_cons, same]
      rfl
  · have repeats := piece_repeats reads newline
    have taken : (rest.take more ++ ofChars after).take more = rest.take more := by
      rw [List.take_append_of_le_length (by rw [List.length_take, Nat.min_eq_left repeats.fits]),
        List.take_take, Nat.min_self]
    have dropped : (rest.take more ++ ofChars after).drop more = ofChars after := by
      have length : (rest.take more).length = more := by
        rw [List.length_take, Nat.min_eq_left repeats.fits]
      exact List.drop_left' length
    have token (start : Position) : ofPiece kind start (g :: rest.take more) =
        ⟨kind, String.ofList (textOf (g :: rest.take more)), start⟩ := by
      rw [ofPiece, if_neg (by simpa using newline)]
    obtain ⟨ts', cut, same⟩ := cut (place.after (g :: rest.take more))
    refine ⟨ofPiece kind place (g :: rest.take more) :: ts', ?_, ?_⟩
    · rw [token start, String.toList_ofList, ofChars_append, whole, List.cons_append]
      · have cuts := Cut.token (repeats.again place _ (apart_ofChars apart)) (by
          dsimp only
          rw [taken, dropped]
          exact cut)
        dsimp only at cuts
        rwa [taken] at cuts
      · intro line
        cases after with
        | nil => cases line
        | cons c after =>
          cases line
          exact absurd (apart _ rfl) (by decide)
    · rw [List.map_cons, List.map_cons, same, token, token]
      rfl

/-- The tokens' lexemes are cut into the tokens again. -/
theorem Cut.reread (cut : Cut methodName start gs ts) (whole : ofChars (textOf gs) = gs)
    (place : Position) : ∃ ts', Cut methodName place (ofChars (Token.spaced ts).toList) ts' ∧
      ts'.map content = ts.map content := by
  induction cut generalizing place with
  | ending => exact ⟨_, .ending, rfl⟩
  | @gap methodName start g rest more ts reads after ih =>
    refine ih (ofChars_split (g :: rest.take more) (rest.drop more) (whole.trans ?_)).2 place
    rw [List.cons_append, List.take_append_drop]
  | @token methodName start g rest kind more ts reads after ih =>
    obtain ⟨first, behind⟩ := ofChars_split (g :: rest.take more) (rest.drop more)
      (whole.trans (by rw [List.cons_append, List.take_append_drop]))
    obtain ⟨tail, same, spaces⟩ := spaced_cons (ofPiece kind start (g :: rest.take more)) after.ne_nil
    rw [same]
    rcases spaces with ⟨rfl, none⟩ | rfl
    · rw [none] at ih
      exact Cut.again reads first (by simp) (ih behind) place
    · refine Cut.again reads first (by simp) (fun start => ?_) place
      obtain ⟨ts', cut, same⟩ := ih behind (start.after [⟨' ', false⟩])
      exact ⟨ts', cut.spaced, same⟩

end Cuts

/-- The tokens of every text that is scanned are scanned again from their lexemes with spaces between
them. -/
theorem scan_spaced {text : String} {tokens : List Token} (scans : scan text = .ok tokens) :
    ∃ again, scan (spaced tokens) = .ok again ∧ again.map content = tokens.map content := by
  have whole := congrArg ofChars (textOf_ofChars text.toList)
  obtain ⟨again, cut, same⟩ := (scan_eq_ok_iff.1 scans).reread whole Position.start
  exact ⟨again, scan_eq_ok_iff.2 cut, same⟩

/-- Tokens that stand close, a method name that is a keyword, and a pair that ends a line. -/
def tightText : String := "a.if?(1.5.b,'\\n')&&!c==\"d\r\n e\"# f\r\n"

theorem scan_spaced_tightText : ∃ tokens again, scan tightText = .ok tokens ∧
    scan (spaced tokens) = .ok again ∧ again.map content = tokens.map content := by
  obtain ⟨tokens, scans⟩ := exists_ok (scan tightText) (by decide +kernel)
  obtain ⟨again, same⟩ := scan_spaced scans
  exact ⟨tokens, again, scans, same⟩

end Token

end TypedBlocks

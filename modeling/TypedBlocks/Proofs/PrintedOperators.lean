import Mathlib.Data.List.Chain
import TypedBlocks.Proofs.RereadTokens

/-!
# Printed operators

Trees of operators over local variables and integers, and their texts: an operand stands in parentheses
only where the levels of the operators, or their grouping to the left, ask for them. Whatever blanks
stand between the lexemes of a printed tree, it is cut into these lexemes again, for no lexeme goes on
with the first character of one that may follow it.
-/
namespace TypedBlocks

/-- A binary operator. -/
inductive Operator where
  | or | and | eq | ne | lt | le | gt | ge | add | sub | mul | div | rem
  deriving DecidableEq, Repr

namespace Operator

/-- How tightly the operator binds, from the loosest at one. -/
def level : Operator → Nat
  | or => 1
  | and => 2
  | eq | ne => 3
  | lt | le | gt | ge => 4
  | add | sub => 5
  | mul | div | rem => 6

def mark : Operator → Mark
  | or => .doublePipe
  | and => .doubleAmpersand
  | eq => .doubleEqual
  | ne => .bangEqual
  | lt => .less
  | le => .lessEqual
  | gt => .greater
  | ge => .greaterEqual
  | add => .plus
  | sub => .minus
  | mul => .star
  | div => .slash
  | rem => .percent

def text : Operator → String
  | or => "||"
  | and => "&&"
  | eq => "=="
  | ne => "!="
  | lt => "<"
  | le => "<="
  | gt => ">"
  | ge => ">="
  | add => "+"
  | sub => "-"
  | mul => "*"
  | div => "/"
  | rem => "%"

/-- The operator as a token without a place. -/
def lexeme (o : Operator) : TokenKind × String := (.mark o.mark, o.text)

theorem level_pos (o : Operator) : 1 ≤ o.level := by cases o <;> decide

theorem level_le (o : Operator) : o.level ≤ 6 := by cases o <;> decide

end Operator

/-- An expression of operators over local variables and integers. -/
inductive OperatorTree where
  | read (name : String)
  | literal (value : Nat)
  | not (operand : OperatorTree)
  | negative (operand : OperatorTree)
  | binary (operator : Operator) (left right : OperatorTree)
  deriving DecidableEq, Repr

/-- A word that names a local variable. -/
structure IsLocalName (name : String) : Prop where
  word : ∃ c cs, name.toList = c :: cs ∧ (c.isAlpha || c == '_') = true ∧ cs.all Token.isWordChar = true
  kind : Token.wordKind name = .identifier

namespace OperatorTree

/-- The variables are among the names, the integers are small enough, and no literal is negated: that
would be another literal. -/
def Over (names : List String) : OperatorTree → Prop
  | .read name => name ∈ names
  | .literal value => value < Nat.pow 2 63
  | .not t => t.Over names
  | .negative t => t.Over names ∧ ∀ n, t ≠ .literal n
  | .binary _ l r => l.Over names ∧ r.Over names

theorem Over.mono {names names' : List String} {t : OperatorTree} (known : ∀ x ∈ names, x ∈ names')
    (legal : t.Over names) : t.Over names' := by
  induction t with
  | read name => exact known name legal
  | literal value => exact legal
  | not t ih => exact ih legal
  | negative t ih => exact ⟨ih legal.1, legal.2⟩
  | binary o l r left right => exact ⟨left legal.1, right legal.2⟩

/-- What stands in front of an operand of its own. -/
def bang : TokenKind × String := (.mark .bang, "!")

def minus : TokenKind × String := (.mark .minus, "-")

def opening : TokenKind × String := (.mark .leftParen, "(")

def closing : TokenKind × String := (.mark .rightParen, ")")

/-- The lexemes of a tree at a place where an operator stands bare only if it binds at least as tightly
as `k`. On the right of an operator it must bind more tightly, for equals are grouped to the left; and
behind a mark it never stands bare. -/
def lexemes : OperatorTree → (k : Nat) → List (TokenKind × String)
  | .read name, _ => [(.identifier, name)]
  | .literal value, _ => [(.integer (Int64.ofNat value), value.repr)]
  | .not t, _ => bang :: t.lexemes 7
  | .negative t, _ => minus :: t.lexemes 7
  | .binary o l r, k =>
    let bare := l.lexemes o.level ++ o.lexeme :: r.lexemes (o.level + 1)
    if k ≤ o.level then bare else opening :: bare ++ [closing]

section Lexemes

variable {o : Operator} {l r : OperatorTree} {k : Nat}

theorem lexemes_bare (bare : k ≤ o.level) :
    (binary o l r).lexemes k = l.lexemes o.level ++ o.lexeme :: r.lexemes (o.level + 1) := if_pos bare

theorem lexemes_enclosed (tight : o.level < k) :
    (binary o l r).lexemes k = opening :: (binary o l r).lexemes 1 ++ [closing] := by
  rw [lexemes_bare o.level_pos]
  exact if_neg (Nat.not_le_of_lt tight)

theorem lexemes_cons (t : OperatorTree) (k : Nat) : ∃ x xs, t.lexemes k = x :: xs := by
  refine List.exists_cons_of_ne_nil ?_
  cases t with
  | binary o l r =>
    rw [lexemes]
    split <;> simp
  | _ => nofun

end Lexemes

/-- Lexemes with gaps in front of them, between them and behind them. -/
def spread (gap : Nat → String) : List (TokenKind × String) → String
  | [] => gap 0
  | x :: xs => gap 0 ++ x.2 ++ spread (fun i => gap (i + 1)) xs

/-- The text of a tree with the given gaps. -/
def print (gap : Nat → String) (t : OperatorTree) : String := spread gap (t.lexemes 1)

example : print (fun _ => "") (.binary .sub (.binary .sub (.read "a") (.read "b"))
    (.not (.binary .mul (.negative (.read "a")) (.binary .div (.literal 1) (.literal 20))))) =
      "a-b-!(-a*(1/20))" := by decide

/-- The gaps are spaces and tabs. -/
def Blank (gap : Nat → String) : Prop := ∀ i, ∀ c ∈ (gap i).toList, c = ' ' ∨ c = '\t'

end OperatorTree

namespace Glyph

/-- A character by itself. -/
def lone (c : Char) : Glyph := ⟨c, false⟩

theorem ofChars_lone {cs : List Char} (plain : '\r' ∉ cs) (ds : List Char) :
    ofChars (cs ++ ds) = cs.map lone ++ ofChars ds := by
  induction cs with
  | nil => rfl
  | cons c cs ih =>
    rw [List.mem_cons, not_or] at plain
    rw [List.cons_append, ofChars_cons (Ne.symm plain.1), ih plain.2]
    rfl

theorem textOf_lone (cs : List Char) : textOf (cs.map lone) = cs := by
  induction cs with
  | nil => rfl
  | cons c cs ih => simpa [textOf, text, lone] using ih

theorem charsOf_lone (cs : List Char) : Token.charsOf (cs.map lone) = cs := by
  simp [Token.charsOf, lone, Function.comp_def]

theorem head?_ofChars (cs : List Char) : (ofChars cs).head?.map char = cs.head? := by
  unfold ofChars
  split <;> rfl

end Glyph

namespace Token

open Glyph

/-- The character is none that a lexeme of this kind could go on with. -/
def endsLexeme : TokenKind → Char → Bool
  | .mark .rightParen, _ => true
  | .mark _, c => !(c == '=' || c == '|' || c == '&')
  | _, c => !(isWordChar c || c == '.')

/-- The lexeme is read off the front of each text that goes on with a character that ends it. -/
structure Spelt (x : TokenKind × String) : Prop where
  inner : x.1 ≠ .newline
  plain : expectsMethodName x.1 = false
  reads : ∃ c cs, x.2.toList = c :: cs ∧ '\r' ∉ c :: cs ∧
    ∀ start after, (∀ g ∈ after.head?, endsLexeme x.1 g.char = true) →
      piece false start (lone c) (cs.map lone ++ after) = .ok ⟨some x.1, cs.length⟩

section Pieces

variable {g : Glyph} {c : Char} {cs : List Char} {methodName : Bool} {start : Position} {rest : List Glyph}

theorem isDigit_of_first (first : (c.isAlpha || c == '_') = true) : c.isDigit = false := by
  rw [Bool.or_eq_true, beq_iff_eq] at first
  obtain alpha | rfl := first
  · delta Char.isAlpha Char.isUpper Char.isLower at alpha
    delta Char.isDigit
    grind
  · rfl

theorem differs {p : Char → Bool} (here : p c = true) (d : Char) (other : p d = false) :
    (c == d) = false := by
  refine beq_eq_false_iff_ne.2 fun same => ?_
  rw [same, other] at here
  cases here

theorem piece_word (first : (g.char.isAlpha || g.char == '_') = true) :
    piece methodName start g rest = .ok (wordPiece methodName g rest) := by
  have other := differs (p := fun c => c.isAlpha || c == '_') first
  simp [piece, endsLine, other ' ' rfl, other '\t' rfl, other '\r' rfl, other '\n' rfl, other '#' rfl,
    other '"' rfl, other '\'' rfl, isDigit_of_first first, first]

theorem piece_number (first : g.char.isDigit = true) :
    piece methodName start g rest = numberPiece start g rest := by
  have other := differs first
  simp [piece, endsLine, other ' ' rfl, other '\t' rfl, other '\r' rfl, other '\n' rfl, other '#' rfl,
    other '"' rfl, other '\'' rfl, first]

theorem piece_mark (mark : c ∈ "()=!<>+-*/%|&".toList) :
    piece methodName start (lone c) rest = markPiece start c rest := by
  simp only [String.reduceToList, List.mem_cons, List.not_mem_nil, or_false] at mark
  rcases mark with rfl | rfl | rfl | rfl | rfl | rfl | rfl | rfl | rfl | rfl | rfl | rfl | rfl <;> rfl

theorem run_word {q : Char → Bool} (word : cs.all q = true)
    (stops : ∀ g ∈ rest.head?, q g.char = false) : run q (cs.map lone ++ rest) = cs.map lone := by
  have whole : run q (cs.map lone) = cs.map lone := by
    rw [run, List.takeWhile_eq_self_iff]
    exact List.forall_mem_map.2 (List.all_eq_true.1 word)
  calc run q (cs.map lone ++ rest)
    _ = run q (run q (cs.map lone) ++ rest) := by rw [whole]
    _ = run q (cs.map lone) := run_append stops
    _ = cs.map lone := whole

end Pieces

section Spelling

theorem spelt_local {name : String} (named : IsLocalName name) : Spelt (.identifier, name) where
  inner := nofun
  plain := rfl
  reads := by
    obtain ⟨⟨c, cs, same, first, word⟩, kind⟩ := named
    refine ⟨c, cs, same, ?_, fun start after ends => ?_⟩
    · rw [List.mem_cons, not_or]
      refine ⟨fun carriage => ?_, fun member => absurd (List.all_eq_true.1 word _ member) (by decide)⟩
      rw [← carriage] at first
      exact absurd first (by decide)
    · have stops : ∀ g ∈ after.head?, isWordChar g.char = false := by
        intro g member
        have ends := ends g member
        simp only [endsLexeme, Bool.not_eq_true', Bool.or_eq_false_iff] at ends
        exact ends.1
      have whole : String.ofList (charsOf (lone c :: cs.map lone)) = name := by
        rw [← List.map_cons, charsOf_lone, ← same, String.ofList_toList]
      rw [piece_word first, wordPiece_eq, run_word word stops]
      simp only [Bool.false_eq_true, if_false, whole, kind, List.length_map]

theorem toList_repr_digits (value : Nat) : ∃ c cs, value.repr.toList = c :: cs ∧
    (∀ d ∈ c :: cs, d.isDigit = true) ∧ Decimal.natOfDigits (c :: cs) = value := by
  obtain ⟨c, cs, same⟩ := List.exists_cons_of_ne_nil (Nat.toDigits_ne_nil (b := 10) (n := value))
  refine ⟨c, cs, Nat.toList_repr.trans same, ?_, ?_⟩ <;> rw [← same]
  · exact fun d member => Nat.isDigit_of_mem_toDigits (by decide) (by decide) member
  · exact Nat.ofDigitChars_toDigits (by decide) (by decide)

theorem spelt_literal {value : Nat} (small : value < Nat.pow 2 63) :
    Spelt (.integer (Int64.ofNat value), value.repr) where
  inner := nofun
  plain := rfl
  reads := by
    obtain ⟨c, cs, same, digits, decimal⟩ := toList_repr_digits value
    refine ⟨c, cs, same, fun member => absurd (digits _ member) (by decide), fun start after ends => ?_⟩
    have numbers : cs.all isNumberChar = true := List.all_eq_true.2 fun d member => by
      simp [isNumberChar, digits d (List.mem_cons_of_mem c member)]
    have stops : ∀ g ∈ after.head?, isNumberChar g.char = false ∧ g.char ≠ '.' := by
      intro g member
      have ends := ends g member
      simp only [endsLexeme, isWordChar, Bool.not_eq_true', Bool.or_eq_false_iff, Char.isAlphanum,
        beq_eq_false_iff_ne] at ends
      simp [isNumberChar, ends]
    have integral : fractionOf after = [] := by
      unfold fractionOf
      split
      · simp [(stops _ rfl).2]
      · rfl
    have whole : (charsOf (lone c :: cs.map lone)).filter Char.isDigit = c :: cs := by
      rw [← List.map_cons, charsOf_lone, List.filter_eq_self]
      exact digits
    rw [piece_number (digits c List.mem_cons_self), numberPiece_eq,
      run_word numbers fun g member => (stops g member).1]
    simp only [List.length_map, List.drop_left', integral, List.isEmpty_nil, if_true, whole, decimal]
    exact if_pos small

theorem spelt_pair {c d : Char} {m : Mark} {text : String} (same : text.toList = [c, d])
    (pair : pairMark? c d = some m) (marks : c ∈ "()=!<>+-*/%|&".toList ∧ d ∈ "=|&".toList)
    (other : m ≠ .dot) : Spelt (.mark m, text) where
  inner := nofun
  plain := by simp [expectsMethodName, other]
  reads := by
    refine ⟨c, [d], same, ?_, fun start after _ => ?_⟩
    · rw [List.mem_cons, List.mem_singleton, not_or]
      constructor
      · rintro rfl
        exact absurd marks.1 (by decide)
      · rintro rfl
        exact absurd marks.2 (by decide)
    · have paired : ((([d].map lone) ++ after).head?.bind fun g => pairMark? c g.char) = some m := pair
      rw [piece_mark marks.1, markPiece, paired]
      rfl

theorem spelt_lone {c : Char} {m : Mark} {text : String} (same : text.toList = [c])
    (alone : loneMark? c = some m) (mark : c ∈ "()=!<>+-*/%|&".toList) (other : m ≠ .dot)
    (single : ∀ d, endsLexeme (.mark m) d = true → pairMark? c d = none) : Spelt (.mark m, text) where
  inner := nofun
  plain := by simp [expectsMethodName, other]
  reads := by
    refine ⟨c, [], same, ?_, fun start after ends => ?_⟩
    · rintro member
      rw [← List.mem_singleton.1 member] at mark
      exact absurd mark (by decide)
    · have unpaired : (after.head?.bind fun g => pairMark? c g.char) = none := by
        rw [Option.bind_eq_none_iff]
        exact fun g member => single g.char (ends g member)
      rw [List.map_nil, List.nil_append, piece_mark mark, markPiece, unpaired]
      simp only [alone, List.length_nil]

theorem pairMark?_none {c d : Char} (plain : (!(d == '=' || d == '|' || d == '&')) = true) :
    pairMark? c d = none := by
  unfold pairMark?
  split <;> simp_all

theorem spelt_operator (o : Operator) : Spelt o.lexeme := by
  cases o with
  | or | and | eq | ne | le | ge => exact spelt_pair rfl rfl (by decide) (by decide)
  | lt | gt | add | sub | mul | div | rem =>
    exact spelt_lone rfl rfl (by decide) (by decide) fun _ => pairMark?_none

theorem spelt_bang : Spelt OperatorTree.bang :=
  spelt_lone rfl rfl (by decide) (by decide) fun _ => pairMark?_none

theorem spelt_minus : Spelt OperatorTree.minus :=
  spelt_lone rfl rfl (by decide) (by decide) fun _ => pairMark?_none

theorem spelt_opening : Spelt OperatorTree.opening :=
  spelt_lone rfl rfl (by decide) (by decide) fun _ => pairMark?_none

theorem spelt_closing : Spelt OperatorTree.closing :=
  spelt_lone (c := ')') rfl rfl (by decide) (by decide) fun _ _ => by
    unfold pairMark?
    split <;> simp_all

end Spelling

/-- The second lexeme may stand right behind the first. -/
def Fits (x y : TokenKind × String) : Prop := ∀ c ∈ y.2.toList.head?, endsLexeme x.1 c = true

/-- The lexeme may stand behind every mark, and so at the front of an operand. -/
def Opens (y : TokenKind × String) : Prop := ∀ m text, Fits (.mark m, text) y

/-- Operators and a closing parenthesis may stand behind the lexeme, which can end an operand. -/
def Closes (x : TokenKind × String) : Prop :=
  (∀ o : Operator, Fits x o.lexeme) ∧ Fits x OperatorTree.closing

theorem opens_of_first {k : TokenKind} {text : String} {c : Char} {cs : List Char}
    (same : text.toList = c :: cs) (other : (c == '=' || c == '|' || c == '&') = false) : Opens (k, text) := by
  intro m _ d first
  rw [same] at first
  cases first
  cases m <;> simp [endsLexeme, other]

theorem closes_of_word {k : TokenKind} {text : String}
    (word : ∀ c, endsLexeme k c = !(isWordChar c || c == '.')) : Closes (k, text) := by
  refine ⟨fun o c first => ?_, fun c first => ?_⟩
  · rw [word]
    cases o <;> cases first <;> rfl
  · rw [word]
    cases first
    rfl

theorem opens_local {name : String} (named : IsLocalName name) : Opens (.identifier, name) := by
  obtain ⟨⟨c, cs, same, first, -⟩, -⟩ := named
  refine opens_of_first same ?_
  rw [Bool.eq_false_iff]
  intro operator
  simp only [Bool.or_eq_true, beq_iff_eq] at operator
  rcases operator with (rfl | rfl) | rfl <;> exact absurd first (by decide)

theorem opens_literal (value : Nat) : Opens (.integer (Int64.ofNat value), value.repr) := by
  obtain ⟨c, cs, same, digits, -⟩ := toList_repr_digits value
  refine opens_of_first same ?_
  rw [Bool.eq_false_iff]
  intro operator
  simp only [Bool.or_eq_true, beq_iff_eq] at operator
  rcases operator with (rfl | rfl) | rfl <;> exact absurd (digits _ List.mem_cons_self) (by decide)

theorem opens_bang : Opens OperatorTree.bang := opens_of_first rfl rfl

theorem opens_minus : Opens OperatorTree.minus := opens_of_first rfl rfl

theorem opens_opening : Opens OperatorTree.opening := opens_of_first rfl rfl

/-- Lexemes that can be written side by side, as an operand of an operator. -/
structure Operand (xs : List (TokenKind × String)) : Prop where
  spelt : ∀ x ∈ xs, Spelt x
  chained : xs.IsChain Fits
  opens : ∃ x ∈ xs.head?, Opens x
  closes : ∃ x ∈ xs.getLast?, Closes x

namespace Operand

variable {x : TokenKind × String} {xs ys : List (TokenKind × String)}

theorem single (spelt : Spelt x) (opens : Opens x) (closes : Closes x) : Operand [x] where
  spelt := List.forall_mem_singleton.2 spelt
  chained := .singleton x
  opens := ⟨x, rfl, opens⟩
  closes := ⟨x, rfl, closes⟩

/-- A mark in front of an operand. -/
theorem marked {m : Mark} {text : String} (spelt : Spelt (.mark m, text)) (opens : Opens (.mark m, text))
    (operand : Operand xs) : Operand ((.mark m, text) :: xs) where
  spelt := List.forall_mem_cons.2 ⟨spelt, operand.spelt⟩
  chained := by
    obtain ⟨x, first, fits⟩ := operand.opens
    refine List.isChain_cons.2 ⟨fun y member => ?_, operand.chained⟩
    cases Option.mem_unique first member
    exact fits m text
  opens := ⟨_, rfl, opens⟩
  closes := by
    obtain ⟨x, last, closes⟩ := operand.closes
    exact ⟨x, List.mem_getLast?_cons last, closes⟩

/-- Two operands with an operator in between. -/
theorem joined (o : Operator) (left : Operand xs) (right : Operand ys) : Operand (xs ++ o.lexeme :: ys) where
  spelt := List.forall_mem_append.2 ⟨left.spelt, List.forall_mem_cons.2 ⟨spelt_operator o, right.spelt⟩⟩
  chained := by
    obtain ⟨x, last, closes⟩ := left.closes
    obtain ⟨y, first, opens⟩ := right.opens
    refine List.isChain_append.2 ⟨left.chained, List.isChain_cons.2 ⟨?_, right.chained⟩, ?_⟩
    · intro z member
      cases Option.mem_unique first member
      exact opens _ _
    · intro z member w operator
      cases Option.mem_unique last member
      cases operator
      exact closes.1 o
  opens := by
    obtain ⟨x, first, opens⟩ := left.opens
    exact ⟨x, List.mem_head?_append_of_mem_head? first, opens⟩
  closes := by
    obtain ⟨y, last, closes⟩ := right.closes
    exact ⟨y, List.mem_getLast?_append_of_mem_getLast? (List.mem_getLast?_cons last), closes⟩

/-- An operand in parentheses. -/
theorem enclosed (operand : Operand xs) : Operand (OperatorTree.opening :: xs ++ [OperatorTree.closing]) where
  spelt := by
    rw [List.forall_mem_append, List.forall_mem_cons, List.forall_mem_singleton]
    exact ⟨⟨spelt_opening, operand.spelt⟩, spelt_closing⟩
  chained := by
    have marked := marked spelt_opening opens_opening operand
    obtain ⟨x, last, closes⟩ := marked.closes
    refine List.isChain_append.2 ⟨marked.chained, .singleton _, fun z member w right => ?_⟩
    cases Option.mem_unique last member
    cases right
    exact closes.2
  opens := ⟨_, rfl, opens_opening⟩
  closes := by
    refine ⟨OperatorTree.closing, List.mem_getLast?_append_of_mem_getLast? rfl, fun o => ?_, ?_⟩ <;>
      exact fun _ _ => rfl

end Operand

theorem lexemes_operand {names : List String} (named : ∀ x ∈ names, IsLocalName x) {t : OperatorTree}
    (legal : t.Over names) (k : Nat) : Operand (t.lexemes k) := by
  induction t generalizing k with
  | read name =>
    have named := named name legal
    exact .single (spelt_local named) (opens_local named) (closes_of_word fun _ => rfl)
  | literal value => exact .single (spelt_literal legal) (opens_literal value) (closes_of_word fun _ => rfl)
  | not t ih => exact .marked spelt_bang opens_bang (ih legal 7)
  | negative t ih => exact .marked spelt_minus opens_minus (ih legal.1 7)
  | binary o l r left right =>
    have bare := Operand.joined o (left legal.1 o.level) (right legal.2 (o.level + 1))
    rw [OperatorTree.lexemes]
    split
    · exact bare
    · exact bare.enclosed

/-- From every place on the text is cut into tokens with these kinds and lexemes. -/
def CutsInto (cs : List Char) (xs : List (TokenKind × String)) : Prop :=
  ∀ start, ∃ ts, Cut false start (ofChars cs) ts ∧ ts.map content = xs

namespace CutsInto

variable {x : TokenKind × String} {xs : List (TokenKind × String)} {c : Char} {cs : List Char}

theorem nil : CutsInto [] [(.ending, "")] := fun _ => ⟨_, .ending, rfl⟩

theorem blank (blank : c = ' ' ∨ c = '\t') (cuts : CutsInto cs xs) : CutsInto (c :: cs) xs := by
  intro start
  obtain ⟨ts, cut, same⟩ := cuts (start.after [lone c])
  refine ⟨ts, ?_, same⟩
  rcases blank with rfl | rfl
  · rw [ofChars_cons (by decide)]
    exact .gap rfl cut
  · rw [ofChars_cons (by decide)]
    exact .gap rfl cut

theorem blanks {gap : List Char} (blank : ∀ c ∈ gap, c = ' ' ∨ c = '\t') (cuts : CutsInto cs xs) :
    CutsInto (gap ++ cs) xs := by
  induction gap with
  | nil => exact cuts
  | cons c gap ih =>
    rw [List.forall_mem_cons] at blank
    exact (ih blank.2).blank blank.1

theorem newline (cuts : CutsInto cs xs) : CutsInto ('\n' :: cs) ((.newline, "\n") :: xs) := by
  intro start
  obtain ⟨ts, cut, same⟩ := cuts (start.after [lone '\n'])
  refine ⟨ofPiece .newline start [lone '\n'] :: ts, ?_, ?_⟩
  · rw [ofChars_cons (by decide)]
    exact .token (piece_lineEnd rfl) cut
  · rw [List.map_cons, same]
    rfl

theorem lexeme (spelt : Spelt x) (ends : ∀ c ∈ cs.head?, endsLexeme x.1 c = true)
    (cuts : CutsInto cs xs) : CutsInto (x.2.toList ++ cs) (x :: xs) := by
  intro start
  obtain ⟨c, ds, same, plain, reads⟩ := spelt.reads
  obtain ⟨ts, cut, contents⟩ := cuts (start.after ((c :: ds).map lone))
  have ends : ∀ g ∈ (ofChars cs).head?, endsLexeme x.1 g.char = true := fun g first =>
    ends g.char (by rw [← head?_ofChars]; exact Option.mem_map_of_mem char first)
  have token := reads start (ofChars cs) ends
  refine ⟨ofPiece x.1 start ((c :: ds).map lone) :: ts, ?_, ?_⟩
  · have covered : (ds.map lone ++ ofChars cs).take ds.length = ds.map lone := List.take_left' (by simp)
    have behind : (ds.map lone ++ ofChars cs).drop ds.length = ofChars cs := List.drop_left' (by simp)
    rw [same, ofChars_lone plain, List.map_cons, List.cons_append]
    have cuts := Cut.token token (by rw [covered, behind, spelt.plain]; exact cut)
    rwa [covered] at cuts
  · rw [List.map_cons, contents, content, ofPiece_kind, ofPiece, if_neg (by simpa using spelt.inner)]
    simp only [textOf_lone, ← same, String.ofList_toList]

end CutsInto

theorem endsLexeme_blank (k : TokenKind) {c : Char} (blank : c = ' ' ∨ c = '\t') :
    endsLexeme k c = true := by
  unfold endsLexeme
  rcases blank with rfl | rfl <;> split <;> rfl

/-- Whatever ends a lexeme may be put off by a gap. -/
theorem fits_spread {gap : Nat → String} (blank : OperatorTree.Blank gap) {x : TokenKind × String}
    {xs : List (TokenKind × String)} (fits : ∀ y ∈ xs.head?, y.2.toList ≠ [] ∧ Fits x y) :
    ∀ c ∈ (OperatorTree.spread gap xs).toList.head?, endsLexeme x.1 c = true := by
  have first : ∀ c ∈ (gap 0).toList.head?, endsLexeme x.1 c = true := fun c member =>
    endsLexeme_blank x.1 (blank 0 c (List.mem_of_mem_head? member))
  cases xs with
  | nil => exact first
  | cons y ys =>
    obtain ⟨written, fits⟩ := fits y rfl
    rw [OperatorTree.spread, String.toList_append, String.toList_append, List.append_assoc]
    cases gap0 : (gap 0).toList with
    | nil =>
      rw [List.nil_append, List.head?_append_of_ne_nil _ written]
      exact fits
    | cons c cs =>
      rw [gap0] at first
      exact first

/-- Lexemes that fit are read off their text, whatever blanks stand between them. -/
theorem cutsInto_spread {gap : Nat → String} (blank : OperatorTree.Blank gap)
    {xs : List (TokenKind × String)} (spelt : ∀ x ∈ xs, Spelt x) (chained : xs.IsChain Fits) :
    CutsInto (OperatorTree.spread gap xs).toList (xs ++ [(.ending, "")]) := by
  induction xs generalizing gap with
  | nil =>
    have cuts := CutsInto.blanks (blank 0) CutsInto.nil
    rwa [List.append_nil] at cuts
  | cons x xs ih =>
    rw [List.forall_mem_cons] at spelt
    rw [List.isChain_cons] at chained
    have blank' : OperatorTree.Blank fun i => gap (i + 1) := fun i => blank (i + 1)
    have fits : ∀ y ∈ xs.head?, y.2.toList ≠ [] ∧ Fits x y := by
      intro y first
      obtain ⟨c, cs, same, -⟩ := (spelt.2 y (List.mem_of_mem_head? first)).reads
      exact ⟨by simp [same], chained.1 y first⟩
    rw [OperatorTree.spread, String.toList_append, String.toList_append, List.append_assoc]
    exact .blanks (blank 0) (.lexeme spelt.1 (fits_spread blank' fits) (ih blank' spelt.2 chained.2))

end Token

namespace OperatorTree

open Token

/-- A printed tree is cut into its lexemes. -/
theorem cutsInto_print {names : List String} (named : ∀ x ∈ names, IsLocalName x) {t : OperatorTree}
    (legal : t.Over names) {gap : Nat → String} (blank : Blank gap) :
    CutsInto (t.print gap).toList (t.lexemes 1 ++ [(.ending, "")]) :=
  let operand := lexemes_operand named legal 1
  cutsInto_spread blank operand.spelt operand.chained

/-- Lines on which variables are assigned for the first time. -/
def declarations : List String → String
  | [] => ""
  | name :: names => name ++ " = 0\n" ++ declarations names

/-- The lexemes of these lines. -/
def declared (names : List String) : List (TokenKind × String) :=
  names.flatMap fun name =>
    (.identifier, name) :: (.mark .equal, "=") :: (OperatorTree.literal 0).lexemes 1 ++ [(.newline, "\n")]

theorem declared_cons (name : String) (names : List String) (xs : List (TokenKind × String)) :
    declared (name :: names) ++ xs = (.identifier, name) :: (.mark .equal, "=") ::
      ((literal 0).lexemes 1 ++ (.newline, "\n") :: (declared names ++ xs)) := by
  rw [declared, List.flatMap_cons]
  rfl

theorem length_declared (names : List String) : (declared names).length = 4 * names.length := by
  simp [declared, lexemes, List.length_flatMap, Nat.mul_comm]

theorem cutsInto_declarations {names : List String} (named : ∀ x ∈ names, IsLocalName x) {cs : List Char}
    {xs : List (TokenKind × String)} (cuts : CutsInto cs xs) :
    CutsInto ((declarations names).toList ++ cs) (declared names ++ xs) := by
  induction names with
  | nil => exact cuts
  | cons name names ih =>
    rw [List.forall_mem_cons] at named
    have equal : Spelt (.mark .equal, "=") :=
      spelt_lone (c := '=') rfl rfl (by decide) (by decide) fun _ => pairMark?_none
    have digit : Nat.repr 0 = "0" := rfl
    have zero : Spelt (.integer (Int64.ofNat 0), "0") := spelt_literal (by decide)
    have line : CutsInto (name.toList ++ ' ' :: ("=".toList ++ ' ' :: ("0".toList ++ '\n' ::
        ((declarations names).toList ++ cs)))) ((.identifier, name) :: (.mark .equal, "=") ::
          (.integer (Int64.ofNat 0), "0") :: (.newline, "\n") :: (declared names ++ xs)) := by
      refine .lexeme (spelt_local named.1) ?_ (.blank (.inl rfl) (.lexeme equal ?_
        (.blank (.inl rfl) (.lexeme zero ?_ (ih named.2).newline))))
      all_goals
        intro c first
        cases first
        rfl
    simpa [declarations, declared, lexemes, digit] using line

end OperatorTree

end TypedBlocks

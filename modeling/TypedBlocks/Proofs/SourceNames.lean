import Mathlib.Data.List.Chain
import TypedBlocks.Proofs.NodeNumbers
import TypedBlocks.Proofs.ProgramVocabulary
import TypedBlocks.Proofs.TotalReading

/-!
# Names of source variables

The slots of `self` and of operands have names that no variable of a text has. A word is read as a
name in spite of its meaning only right after a dot or `def`, and there it names a method. So a reader
that stands anywhere else sees no such word, and it comes to stand elsewhere with the next token.
-/
namespace TypedBlocks

/-- The name is neither `self` nor that of an operand. -/
def SourceName (name : String) : Prop := name ≠ "self" ∧ ¬ "%tmp".toList <+: name.toList

theorem sourceName_of_first {name : String} {c : Char} {cs : List Char}
    (text : name.toList = c :: cs) (letter : c ≠ 's') (percent : c ≠ '%') : SourceName name := by
  refine ⟨fun same => ?_, fun temporary => ?_⟩
  · rw [same] at text
    exact letter (List.cons.inj text).1.symm
  · rw [text] at temporary
    exact percent (List.cons_prefix_cons.1 temporary).1.symm

namespace Token

open Glyph (textOf)

/-- Where the token stands for a variable, the name is one that variables can have. -/
def Sourced (t : Token) : Prop := (Parser.variableKind? t.kind).isSome → SourceName t.lexeme

/-- The second token may come after the first one. -/
def Follows (t u : Token) : Prop := expectsMethodName t.kind = true ∨ u.Sourced

/-- The tokens do not begin with a method name that could be no other. -/
structure Fair (ts : List Token) : Prop where
  first : ∀ t ∈ ts.head?, t.Sourced
  rest : ts.IsChain Follows

section Lists

variable {t : Token} {ts : List Token}

theorem Fair.of_tail (chain : (t :: ts).IsChain Follows) (other : expectsMethodName t.kind = false) :
    Fair ts := by
  obtain ⟨follows, rest⟩ := List.isChain_cons.1 chain
  refine ⟨fun u front => (follows u front).resolve_left ?_, rest⟩
  rw [other]
  exact Bool.false_ne_true

theorem Fair.push (fair : Fair ts.reverse)
    (next : (ts.head?.any fun u => expectsMethodName u.kind) = true ∨ t.Sourced) :
    Fair (t :: ts).reverse := by
  rw [List.reverse_cons]
  constructor
  · intro u front
    cases ts with
    | nil =>
      cases front
      exact next.resolve_left Bool.false_ne_true
    | cons v ts =>
      refine fair.first u ?_
      rwa [List.head?_append_of_ne_nil _ (by simp)] at front
  · refine List.isChain_append.2 ⟨fair.rest, List.isChain_singleton t, fun u last v only => ?_⟩
    cases only
    rw [List.getLast?_reverse] at last
    exact next.imp_left fun any => by rwa [Option.mem_def.1 last] at any

end Lists

section Scanning

variable {start : Position} {g : Glyph} {rest gs : List Glyph} {p : Piece} {k : TokenKind}

theorem sourced_of_kind {t : Token} (other : Parser.variableKind? t.kind = none) : t.Sourced := by
  rw [Sourced, other]
  exact nofun

theorem textOf_cons (g : Glyph) (gs : List Glyph) : ∃ cs, textOf (g :: gs) = g.char :: cs := by
  rw [textOf, List.flatMap_cons, Glyph.text]
  split
  · exact ⟨_, rfl⟩
  · exact ⟨_, rfl⟩

/-- Glyphs whose text is one line stand for one character each. -/
theorem charsOf_eq (gs : List Glyph) (line : '\n' ∉ textOf gs) : charsOf gs = textOf gs := by
  induction gs with
  | nil => rfl
  | cons g gs ih =>
    rw [textOf, List.flatMap_cons, List.mem_append, not_or] at line
    have single : g.text = [g.char] := by
      have first := line.1
      rw [Glyph.text] at first ⊢
      split
      · rename_i paired
        simp [paired] at first
      · rfl
    rw [charsOf, List.map_cons, textOf, List.flatMap_cons, single]
    exact congrArg (g.char :: ·) (ih line.2)

theorem sourced_of_first {position : Position} (letter : g.char ≠ 's') (percent : g.char ≠ '%') :
    (⟨k, String.ofList (textOf (g :: gs)), position⟩ : Token).Sourced := by
  obtain ⟨cs, text⟩ := textOf_cons g gs
  exact fun _ => sourceName_of_first (by rw [String.toList_ofList, text]) letter percent

/-- A word that names a variable is not `self`. -/
theorem word_sourced (first : (g.char.isAlpha || g.char == '_') = true)
    (counts : (wordPiece false g rest).kind = some k) :
    (⟨k, String.ofList (textOf (g :: rest.take (wordPiece false g rest).more)), start⟩ :
      Token).Sourced := by
  have covered : rest.take (wordPiece false g rest).more = run isWordChar rest := take_run _ rest
  rw [covered]
  cases counts
  refine fun named => ⟨fun same => ?_, fun temporary => ?_⟩
  · have text : textOf (g :: run isWordChar rest) = "self".toList := by
      rw [← same, String.toList_ofList]
    have chars := charsOf_eq (g :: run isWordChar rest) (by rw [text]; decide)
    rw [chars, text, String.ofList_toList] at named
    cases named
  · obtain ⟨cs, text⟩ := textOf_cons g (run isWordChar rest)
    rw [text] at temporary
    have temporary : '%' :: ['t', 'm', 'p'] <+: (String.ofList (g.char :: cs)).toList := temporary
    rw [String.toList_ofList] at temporary
    rw [← (List.cons_prefix_cons.1 temporary).1] at first
    cases first

theorem piece_sourced (reads : piece false start g rest = .ok p) (counts : p.kind = some k) :
    (⟨k, String.ofList (textOf (g :: rest.take p.more)), start⟩ : Token).Sourced := by
  have other (same : Parser.variableKind? k = none) :
      (⟨k, String.ofList (textOf (g :: rest.take p.more)), start⟩ : Token).Sourced :=
    sourced_of_kind same
  obtain ⟨form, reading⟩ := exists_form g
  rw [reading] at reads
  cases form with
  | blank _ | comment _ =>
    cases reads
    cases counts
  | lineEnd _ =>
    cases reads
    cases counts
    exact other rfl
  | string _ =>
    obtain ⟨_, -, rfl⟩ := map_eq_ok.1 reads
    cases counts
    exact other rfl
  | char _ =>
    obtain ⟨c, kind⟩ := charPiece_kind reads
    cases kind.symm.trans counts
    exact other rfl
  | number _ =>
    rcases numberPiece_kind reads with ⟨n, -, kind⟩ | ⟨x, kind⟩
    all_goals
      cases kind.symm.trans counts
      exact other rfl
  | word first =>
    cases reads
    exact word_sourced first counts
  | instanceVar sigil | global sigil =>
    refine sourced_of_first (fun same => ?_) fun same => ?_ <;> rw [same] at sigil <;> cases sigil
  | mark =>
    obtain ⟨m, kind⟩ := markPiece_kind reads
    cases kind.symm.trans counts
    exact other rfl

theorem scanFrom_fair {before : List Token} {tokens : List Token} (fair : Fair before.reverse)
    (scanned : scanFrom before start gs = .ok tokens) : Fair tokens := by
  fun_induction scanFrom before start gs with
  | case1 before start =>
    cases scanned
    exact fair.push (.inr (sourced_of_kind rfl))
  | case2 before start g rest e reads => cases scanned
  | case3 before start g rest p reads covered before' ih =>
    refine ih ?_ scanned
    unfold before'
    split
    · rename_i kind counts
      refine fair.push ?_
      cases expected : before.head?.any fun t => expectsMethodName t.kind with
      | true => exact .inl rfl
      | false =>
        rw [expected] at reads
        rw [ofPiece]
        split
        · rename_i newline
          cases beq_iff_eq.1 newline
          exact .inr (sourced_of_kind rfl)
        · exact .inr (piece_sourced reads counts)
    · exact fair

theorem scan_fair {text : String} {tokens : List Token} (scanned : scan text = .ok tokens) :
    Fair tokens := scanFrom_fair ⟨by simp, .nil⟩ scanned

end Scanning

end Token

/-- All variables that the expression mentions or binds have names that variables can have, in the
methods that it defines, too. -/
inductive Expr.Sourced : Expr → Prop
  | intro {e : Expr} (own : ∀ n ∈ e.ownNames, SourceName n) (parts : ∀ d ∈ e.parts, Sourced d)
    (parameters : ∀ m ∈ e.form.methods, ∀ p ∈ m.parameters, SourceName p.name)
    (bodies : ∀ m ∈ e.form.methods, ∀ d ∈ m.body, Sourced d) : Sourced e

/-- The same of a method that is defined. -/
structure MethodDef.Sourced (m : MethodDef) : Prop where
  parameters : ∀ p ∈ m.parameters, SourceName p.name
  body : ∀ e ∈ m.body, e.Sourced

/-- The same of a block. -/
structure Block.Sourced (b : Block) : Prop where
  parameters : ∀ p ∈ b.parameters, SourceName p.name
  body : ∀ e ∈ b.body, e.Sourced

/-- The same of what a node is made of. -/
def Form.Sourced (f : Form) : Prop := ∀ id span, Expr.Sourced ⟨id, span, f⟩

section Forms

variable {f : Form}

/-- A form that names no variable and defines no method. -/
theorem Form.Sourced.plain (own : ∀ id span, Expr.ownNames ⟨id, span, f⟩ = []) (methods : f.methods = [])
    (parts : ∀ e ∈ f.parts, e.Sourced) : f.Sourced :=
  fun id span => .intro (by rw [own]; exact List.forall_mem_nil _) parts
    (by rw [methods]; exact List.forall_mem_nil _) (by rw [methods]; exact List.forall_mem_nil _)

theorem Form.Sourced.read {v : Variable} (name : SourceName v.name) : (Form.read v).Sourced :=
  fun _ _ => .intro (List.forall_mem_singleton.2 name) (List.forall_mem_nil _) (List.forall_mem_nil _)
    (List.forall_mem_nil _)

theorem Form.Sourced.assign {v : Variable} {span : Span} {value : Expr} (name : SourceName v.name)
    (sourced : value.Sourced) : (Form.assign v span value).Sourced :=
  fun _ _ => .intro (List.forall_mem_singleton.2 name) (List.forall_mem_singleton.2 sourced)
    (List.forall_mem_nil _) (List.forall_mem_nil _)

theorem Form.Sourced.call {receiver : Option Expr} {name : String} {span : Span}
    {arguments : List Expr} {block : Option Block} (sent : ∀ e ∈ receiver, e.Sourced)
    (given : ∀ e ∈ arguments, e.Sourced) (run : ∀ b ∈ block, b.Sourced) :
    (Form.call receiver name span arguments block).Sourced := by
  intro id place
  refine .intro (fun n member => ?_) (fun e member => ?_) (List.forall_mem_nil _) (List.forall_mem_nil _)
  · obtain ⟨b, there, bound⟩ := List.mem_flatMap.1 member
    obtain ⟨p, parameter, rfl⟩ := List.mem_map.1 bound
    exact (run b (Option.mem_toList.1 there)).parameters p parameter
  · rcases List.mem_append.1 member with operand | inside
    · rcases List.mem_append.1 operand with first | argument
      · exact sent e (Option.mem_toList.1 first)
      · exact given e argument
    · cases block with
      | none => cases inside
      | some b => exact (run b rfl).body e inside

theorem Form.Sourced.defMethod {m : MethodDef} (sourced : m.Sourced) : (Form.defMethod m).Sourced :=
  fun _ _ => .intro (List.forall_mem_nil _) (List.forall_mem_nil _)
    (List.forall_mem_singleton.2 sourced.parameters) (List.forall_mem_singleton.2 sourced.body)

theorem Form.Sourced.defClass {c : ClassDef} (sourced : ∀ m ∈ c.methods, m.Sourced) :
    (Form.defClass c).Sourced :=
  fun _ _ => .intro (List.forall_mem_nil _) (List.forall_mem_nil _)
    (fun m member => (sourced m member).parameters) fun m member => (sourced m member).body

end Forms

/-- The tokens ahead are chained, and local variables have names that variables can have. -/
structure ParserState.Chained (s : ParserState) : Prop where
  tokens : s.tokens.IsChain Token.Follows
  locals : ∀ n ∈ s.locals, SourceName n

/-- Besides, a word that is a name ahead can name a variable. -/
structure ParserState.Fair (s : ParserState) : Prop extends s.Chained where
  first : ∀ t ∈ s.tokens.head?, t.Sourced

open Token (expectsMethodName)

/-- No method name has to follow the token ahead. -/
def Calm (ts : List Token) : Prop := ∀ t, Sees ts t → expectsMethodName t.kind = false

theorem Sees.calm {ts : List Token} {t : Token} {kind : TokenKind} (sees : Sees ts t)
    (same : t.kind = kind) (other : expectsMethodName kind = false) : Calm ts := by
  obtain ⟨rest, rfl⟩ := sees
  rintro u ⟨others, front⟩
  cases front
  rwa [same]

theorem Sees.calm_beq {ts : List Token} {t : Token} {kind : TokenKind} (sees : Sees ts t)
    (same : (t.kind == kind) = true) (other : expectsMethodName kind = false) : Calm ts :=
  sees.calm (beq_iff_eq.1 same) other

namespace Parser

variable {α β : Type} {s s' : ParserState} {p : Parser α} {f : α → Parser β} {fuel : Nat}
  {good : α → Prop} {good' : β → Prop}

/-- What the reader gives is good, and after it no method name is ahead that could be no other. -/
def Names (p : Parser α) (s : ParserState) (good : α → Prop) : Prop :=
  ∀ a s', p s = .ok (a, s') → s'.Fair ∧ good a

/-- Nothing is asked of a result. -/
def whatever (_ : α) : Prop := True

section Rules

theorem Names.pure {a : α} (fair : s.Fair) (holds : good a) : Names (Pure.pure a) s good := by
  intro b s' run
  cases run
  exact ⟨fair, holds⟩

theorem Names.bind (first : Names p s good)
    (rest : ∀ a s', s'.Fair → good a → Names (f a) s' good') : Names (p >>= f) s good' := by
  intro b s' run
  obtain ⟨a, mid, one, two⟩ := bind_ok run
  have ⟨fair, holds⟩ := first a mid one
  exact rest a mid fair holds b s' two

theorem Names.last {good'' : α → Prop} (last : Names p s good) (done : ∀ a, good a → good'' a) :
    Names p s good'' := fun a s' run => (last a s' run).imp_right (done a)

theorem Names.map {g : α → β} (names : Names p s good) (done : ∀ a, good a → good' (g a)) :
    Names (g <$> p) s good' :=
  names.bind (f := fun a => Pure.pure (g a)) fun a _ fair holds => .pure fair (done a holds)

theorem Names.fails (fails : ∀ r, p s ≠ .ok r) : Names p s good :=
  fun a s' run => absurd run (fails (a, s'))

/-- A reader that leaves tokens and variables as they are. -/
theorem Names.of_same (fair : s.Fair) (same : ∀ a s', p s = .ok (a, s') →
    s'.tokens = s.tokens ∧ s'.locals = s.locals ∧ good a) : Names p s good := by
  intro a s' run
  obtain ⟨tokens, locals, holds⟩ := same a s' run
  exact ⟨⟨⟨tokens ▸ fair.tokens, locals ▸ fair.locals⟩, tokens ▸ fair.first⟩, holds⟩

end Rules

section Primitives

theorem outOfFuel_names : Names (outOfFuel : Parser α) s good := .fails outOfFuel_fails

theorem unexpected_names (what : Expectation) : Names (unexpected what : Parser α) s good :=
  .fails (unexpected_fails what)

theorem unexpected_bind_names (what : Expectation) : Names (unexpected what >>= f) s good' :=
  .fails (unexpected_bind_fails what)

theorem ahead_names {f : Token → Parser β} (rest : ∀ t, Sees s.tokens t → Names (f t) s good') :
    Names (ahead >>= f) s good' := by
  intro b s' run
  obtain ⟨t, mid, first, run⟩ := bind_ok run
  obtain ⟨sees, rfl⟩ := ahead_ok first
  exact rest t sees b s' run

theorem kindAhead_names {f : TokenKind → Parser β}
    (rest : ∀ t, Sees s.tokens t → Names (f t.kind) s good') : Names (kindAhead >>= f) s good' := by
  intro b s' run
  obtain ⟨k, mid, first, run⟩ := bind_ok run
  obtain ⟨t, sees, rfl, rfl⟩ := kindAhead_ok first
  exact rest t sees b s' run

/-- Whatever token is taken, the tokens after it are chained. -/
theorem take_chained (chained : s.Chained) {t : Token} (run : take s = .ok (t, s')) :
    s'.Chained := by
  obtain ⟨u, us, same, ⟨-, rfl⟩ | ⟨-, -, rfl⟩⟩ := take_ok run
  · exact chained
  · have tokens := chained.tokens
    rw [same] at tokens
    exact ⟨tokens.tail, chained.locals⟩

theorem pass_chained (chained : s.Chained) {a : Unit} (run : pass s = .ok (a, s')) :
    s'.Chained := by
  obtain ⟨t, taken⟩ := pass_ok run
  exact take_chained chained taken

theorem expect_chained (chained : s.Chained) {kind : TokenKind} {what : Expectation} {a : Unit}
    (run : expect kind what s = .ok (a, s')) : s'.Chained := by
  obtain ⟨k, mid, first, passed⟩ := bind_ok run
  obtain ⟨t, -, -, rfl⟩ := kindAhead_ok first
  split at passed
  · exact pass_chained chained passed
  · exact absurd passed (unexpected_fails what _)

/-- A token is taken that no method name has to follow. -/
theorem take_names (chained : s.Chained) (calm : Calm s.tokens) : Names take s whatever := by
  intro t s' run
  refine ⟨?_, trivial⟩
  obtain ⟨u, us, same, ⟨ending, rfl⟩ | ⟨-, rfl, rfl⟩⟩ := take_ok run
  · refine ⟨chained, fun v front => Token.sourced_of_kind ?_⟩
    rw [same] at front
    cases front
    rw [ending]
    rfl
  · have tokens := chained.tokens
    rw [same] at tokens
    have fair := Token.Fair.of_tail tokens (calm t ⟨us, same⟩)
    exact ⟨⟨fair.rest, chained.locals⟩, fair.first⟩

/-- What is taken is the token ahead, unless the text ends there. -/
theorem take_seen {t : Token} (run : take s = .ok (t, s')) {u : Token} (sees : Sees s.tokens u)
    (goes : u.kind ≠ .ending) : t = u := by
  obtain ⟨us, same⟩ := sees
  cases (take_run same goes).symm.trans run
  rfl

theorem pass_names (chained : s.Chained) (calm : Calm s.tokens) : Names pass s whatever :=
  (take_names chained calm).bind fun _ _ fair _ => .pure fair trivial

theorem passWhile_chained {p : TokenKind → Bool} {a : Unit} (chained : s.Chained)
    (run : passWhile p s = .ok (a, s')) : s'.Chained := by
  obtain ⟨tokens, -, locals⟩ := passWhile_ok run
  exact ⟨tokens ▸ chained.tokens.suffix (List.dropWhile_suffix _), locals ▸ chained.locals⟩

theorem passWhile_names {p : TokenKind → Bool} (fair : s.Fair)
    (other : ∀ k, p k = true → expectsMethodName k = false) : Names (passWhile p) s whatever := by
  intro a s' run
  have chained := passWhile_chained fair.toChained run
  refine ⟨⟨chained, ?_⟩, trivial⟩
  rw [(passWhile_ok run).1]
  have first := fair.first
  have tokens := fair.tokens
  generalize s.tokens = ts at first tokens
  induction ts with
  | nil => exact first
  | cons t ts ih =>
    rw [List.dropWhile_cons]
    split
    · rename_i passed
      have fair := Token.Fair.of_tail tokens (other t.kind passed)
      exact ih fair.first fair.rest
    · exact first

theorem passNewlines_names (fair : s.Fair) : Names passNewlines s whatever :=
  passWhile_names fair fun k same => by rw [beq_iff_eq.1 same]; rfl

theorem passSeparators_names (fair : s.Fair) : Names passSeparators s whatever :=
  passWhile_names fair fun k same => by
    rcases Bool.or_eq_true_iff.1 same with same | same <;> rw [beq_iff_eq.1 same] <;> rfl

theorem expect_names (chained : s.Chained) {kind : TokenKind}
    (other : expectsMethodName kind = false) (what : Expectation) :
    Names (expect kind what) s whatever := by
  refine kindAhead_names fun t sees => ?_
  split
  · rename_i same
    exact pass_names chained (sees.calm_beq same other)
  · exact unexpected_names what

theorem separator_names (fair : s.Fair) {comma : Parser Unit} {closing : Mark} {what : Expectation}
    (passes : Calm s.tokens → Names comma s whatever) :
    Names (separator comma closing what) s whatever := by
  refine kindAhead_names fun t sees => ?_
  split
  · rename_i mark
    exact passes (sees.calm_beq mark rfl)
  split
  · exact .pure fair trivial
  · exact unexpected_names what

theorem looseComma_names (chained : s.Chained) (calm : Calm s.tokens) : Names looseComma s whatever :=
  (pass_names chained calm).bind fun _ _ fair _ => passNewlines_names fair

theorem statementEnd_names (fair : s.Fair) {closes : TokenKind → Bool} :
    Names (statementEnd closes) s whatever := by
  refine kindAhead_names fun t sees => ?_
  split
  · rename_i separator
    refine pass_names fair.toChained ?_
    rcases Bool.or_eq_true_iff.1 separator with same | same
    · exact sees.calm_beq same rfl
    · exact sees.calm_beq same rfl
  split
  · exact .pure fair trivial
  · exact unexpected_names _

theorem newId_names (fair : s.Fair) : Names newId s whatever :=
  .of_same fair fun _ _ run => by
    cases run
    exact ⟨rfl, rfl, trivial⟩

theorem node_names (fair : s.Fair) {span : Span} {form : Form} (sourced : form.Sourced) :
    Names (node span form) s Expr.Sourced :=
  (newId_names fair).bind fun id _ fair _ => .pure fair (sourced id span)

theorem declare_names (fair : s.Fair) {name : String} (sourced : SourceName name) :
    Names (declare name) s whatever := by
  intro a s' run
  cases run
  exact ⟨⟨⟨fair.tokens, List.forall_mem_cons.2 ⟨sourced, fair.locals⟩⟩, fair.first⟩, trivial⟩

theorem declareTarget_names (fair : s.Fair) {target : Variable} (sourced : SourceName target.name) :
    Names (declareTarget target) s whatever := by
  unfold declareTarget
  split
  · exact declare_names fair sourced
  · exact .pure fair trivial

theorem declareAll_names {ps : List Parameter} (fair : s.Fair)
    (sourced : ∀ p ∈ ps, SourceName p.name) : Names (ps.forM fun p => declare p.name) s whatever := by
  induction ps generalizing s with
  | nil => exact .pure fair trivial
  | cons p ps ih =>
    rw [List.forall_mem_cons] at sourced
    exact (declare_names fair sourced.1).bind fun _ _ fair _ => ih fair sourced.2

theorem withLocals_names (fair : s.Fair) {names : List String → List String}
    (sourced : ∀ outer : List String, (∀ n ∈ outer, SourceName n) → ∀ n ∈ names outer, SourceName n)
    (inner : ∀ s', s'.Fair → Names p s' good) : Names (withLocals names p) s good := by
  intro a s' run
  obtain ⟨mid, ran, rfl⟩ := withLocals_ok run
  have ⟨after, holds⟩ := inner { s with locals := names s.locals }
    ⟨⟨fair.tokens, sourced _ fair.locals⟩, fair.first⟩ a mid ran
  exact ⟨⟨⟨after.tokens, fair.locals⟩, after.first⟩, holds⟩

end Primitives

section Lists

variable (fair : s.Fair)

include fair

theorem typeName_names : Names typeName s whatever := by
  refine ahead_names fun t sees => ?_
  split
  · rename_i kind
    exact (pass_names fair.toChained (sees.calm kind rfl)).bind fun _ _ fair _ => .pure fair trivial
  · rename_i kind
    exact (pass_names fair.toChained (sees.calm kind rfl)).bind fun _ _ fair _ => .pure fair trivial
  · exact unexpected_names _

theorem typeNameAfter_names (m : Mark) (other : expectsMethodName (.mark m) = false) :
    Names (typeNameAfter m) s whatever := by
  refine kindAhead_names fun t sees => ?_
  split
  · rename_i mark
    refine (pass_names fair.toChained (sees.calm_beq mark other)).bind fun _ _ fair _ => ?_
    exact (typeName_names fair).bind fun _ _ fair _ => .pure fair trivial
  · exact .pure fair trivial

omit fair in
/-- A name of a definition is the token ahead. -/
theorem definedName_names (chained : s.Chained) {kind : TokenKind}
    (other : expectsMethodName kind = false) (ends : kind ≠ .ending) (what : Expectation) :
    Names (definedName kind what) s fun t => t.kind = kind ∧ Sees s.tokens t := by
  refine ahead_names fun t sees => ?_
  dsimp only
  split
  · rename_i same
    have goes : t.kind ≠ .ending := beq_iff_eq.1 same ▸ ends
    intro u s' run
    refine ⟨(take_names chained (sees.calm_beq same other) u s' run).1, ?_⟩
    rw [take_seen run sees goes]
    exact ⟨beq_iff_eq.1 same, sees⟩
  · exact unexpected_bind_names what

/-- A name that is ahead can name a variable. -/
theorem ParserState.Fair.sourced {t : Token} (sees : Sees s.tokens t) : t.Sourced := by
  obtain ⟨rest, same⟩ := sees
  exact fair.first t (by rw [same]; rfl)

theorem requirement_names (calm : Calm s.tokens) : Names requirement s whatever := by
  refine (pass_names fair.toChained calm).bind fun _ s₁ fair₁ _ => ?_
  refine kindAhead_names fun t sees => ?_
  split
  · rename_i kind
    exact pass_names fair₁.toChained (sees.calm kind rfl)
  · exact unexpected_names _

theorem parametersTail_names :
    Names (parametersTail fuel) s fun ps => ∀ p ∈ ps, SourceName p.name := by
  induction fuel generalizing s with
  | zero => exact outOfFuel_names
  | succ fuel ih =>
    rw [parametersTail_eq]
    refine kindAhead_names fun t sees => ?_
    split
    · exact .pure fair (List.forall_mem_nil _)
    refine ahead_names fun name sees => ?_
    dsimp only
    split
    · rename_i kind
      have named : SourceName name.lexeme := ParserState.Fair.sourced fair sees
        (by rw [beq_iff_eq.1 kind]; rfl)
      refine (pass_names fair.toChained (sees.calm_beq kind rfl)).bind fun _ s₁ fair₁ _ => ?_
      refine (typeNameAfter_names fair₁ _ rfl).bind fun restriction s₂ fair₂ _ => ?_
      refine (passNewlines_names fair₂).bind fun _ s₃ fair₃ _ => ?_
      refine (separator_names fair₃ (looseComma_names fair₃.toChained)).bind fun _ s₄ fair₄ _ => ?_
      exact (ih fair₄).bind fun _ _ fair₅ others =>
        .pure fair₅ (List.forall_mem_cons.2 ⟨named, others⟩)
    · exact unexpected_bind_names _

theorem parameters_names : Names (parameters fuel) s fun ps => ∀ p ∈ ps, SourceName p.name := by
  unfold parameters
  refine kindAhead_names fun t sees => ?_
  split
  · rename_i opening
    refine (pass_names fair.toChained (sees.calm_beq opening rfl)).bind fun _ s₁ fair₁ _ => ?_
    refine (passNewlines_names fair₁).bind fun _ s₂ fair₂ _ => ?_
    refine (parametersTail_names fair₂).bind fun ps s₃ fair₃ named => ?_
    exact (expect_names fair₃.toChained rfl _).bind fun _ s₄ fair₄ _ => .pure fair₄ named
  · exact .pure fair (List.forall_mem_nil _)

theorem typeParametersTail_names : Names (typeParametersTail fuel) s whatever := by
  induction fuel generalizing s with
  | zero => exact outOfFuel_names
  | succ fuel ih =>
    unfold typeParametersTail
    refine (typeName_names fair).bind fun name s₁ fair₁ _ => ?_
    refine kindAhead_names fun t sees => ?_
    split
    · rename_i comma
      refine (pass_names fair₁.toChained (sees.calm_beq comma rfl)).bind fun _ s₂ fair₂ _ => ?_
      exact (ih fair₂).bind fun _ _ fair₃ _ => .pure fair₃ trivial
    · exact .pure fair₁ trivial

theorem typeParameters_names : Names (typeParameters fuel) s whatever := by
  unfold typeParameters
  refine kindAhead_names fun t sees => ?_
  split
  · rename_i opening
    refine (pass_names fair.toChained (sees.calm_beq opening rfl)).bind fun _ s₁ fair₁ _ => ?_
    refine (typeParametersTail_names fair₁).bind fun _ s₂ fair₂ _ => ?_
    exact (expect_names fair₂.toChained rfl _).bind fun _ s₃ fair₃ _ => .pure fair₃ trivial
  · exact .pure fair trivial

theorem foreigns_names : Names (foreigns fuel) s whatever := by
  induction fuel generalizing s with
  | zero => exact outOfFuel_names
  | succ fuel ih =>
    unfold foreigns
    refine (passSeparators_names fair).bind fun _ s₁ fair₁ _ => ?_
    refine kindAhead_names fun t sees => ?_
    split
    · exact .pure fair₁ trivial
    · rename_i kind
      refine (pass_names fair₁.toChained (sees.calm kind rfl)).bind fun _ s₂ fair₂ _ => ?_
      refine (definedName_names fair₂.toChained (by rfl) (by decide) _).bind fun name s₃ fair₃ _ => ?_
      refine (parameters_names fair₃).bind fun ps s₄ fair₄ _ => ?_
      refine (typeNameAfter_names fair₄ _ rfl).bind fun type s₅ fair₅ _ => ?_
      exact (ih fair₅).bind fun _ s₆ fair₆ _ => .pure fair₆ trivial
    · exact unexpected_names _

theorem lib_names (calm : Calm s.tokens) : Names (lib fuel) s Expr.Sourced := by
  unfold lib
  refine (take_names fair.toChained calm).bind fun start s₁ fair₁ _ => ?_
  refine (definedName_names fair₁.toChained (by rfl) (by decide) _).bind fun name s₂ fair₂ _ => ?_
  refine (foreigns_names fair₂).bind fun functions s₃ fair₃ _ => ?_
  refine ahead_names fun last _ => ?_
  refine (expect_names fair₃.toChained rfl _).bind fun _ s₄ fair₄ _ => ?_
  exact node_names fair₄ (.plain (fun _ _ => rfl) rfl (List.forall_mem_nil _))

theorem blockParametersTail_names :
    Names (blockParametersTail fuel) s fun ps => ∀ p ∈ ps, SourceName p.name := by
  induction fuel generalizing s with
  | zero => exact outOfFuel_names
  | succ fuel ih =>
    rw [blockParametersTail_eq]
    refine kindAhead_names fun t sees => ?_
    split
    · exact .pure fair (List.forall_mem_nil _)
    refine (definedName_names fair.toChained (by rfl) (by decide) _).bind fun name s₁ fair₁ known => ?_
    have named : SourceName name.lexeme := ParserState.Fair.sourced fair known.2
      (by rw [known.1]; rfl)
    refine (separator_names fair₁ (pass_names fair₁.toChained)).bind fun _ s₂ fair₂ _ => ?_
    exact (ih fair₂).bind fun _ _ fair₃ others =>
      .pure fair₃ (List.forall_mem_cons.2 ⟨named, others⟩)

omit fair in
/-- The names between bars end with a bar. -/
theorem blockParametersTail_calm {ps : List BlockParameter}
    (run : blockParametersTail fuel s = .ok (ps, s')) : Calm s'.tokens := by
  induction fuel generalizing s ps with
  | zero => cases run
  | succ fuel ih =>
    rw [blockParametersTail_eq] at run
    obtain ⟨k, mid, first, going⟩ := bind_ok run
    obtain ⟨t, sees, rfl, rfl⟩ := kindAhead_ok first
    split at going
    · rename_i bar
      cases going
      exact Sees.calm_beq sees bar rfl
    · obtain ⟨name, s₁, -, going⟩ := bind_ok going
      obtain ⟨_, s₂, -, going⟩ := bind_ok going
      obtain ⟨others, s₃, tail, same⟩ := bind_ok going
      cases same
      exact ih tail

theorem blockParameters_names :
    Names (blockParameters fuel) s fun ps => ∀ p ∈ ps, SourceName p.name := by
  unfold blockParameters
  refine kindAhead_names fun t sees => ?_
  split
  · rename_i bar
    refine (pass_names fair.toChained (sees.calm_beq bar rfl)).bind fun _ s₁ fair₁ _ => ?_
    intro ps s' run
    obtain ⟨qs, s₂, tail, run⟩ := bind_ok run
    have ⟨fair₂, named⟩ := blockParametersTail_names fair₁ qs s₂ tail
    have calm := blockParametersTail_calm tail
    have closed : Names (do pass; return qs) s₂ fun ps => ∀ p ∈ ps, SourceName p.name :=
      (pass_names fair₂.toChained calm).bind fun _ _ fair₃ _ => .pure fair₃ named
    exact closed ps s' run
  · exact .pure fair (List.forall_mem_nil _)

end Lists

/-- A variable is ahead, and after it an operator of an assignment. -/
def Assigns (ts : List Token) : Prop := ∃ t u rest, ts = t :: u :: rest ∧
  (variableKind? t.kind).isSome = true ∧ isAssignment u.kind = true

/-- Where a variable is found to be assigned, its name and an operator of an assignment are ahead. -/
theorem assignedVariable?_known {target : Option Variable}
    (run : assignedVariable? s = .ok (target, s')) : s' = s ∧ ∀ v ∈ target, ∃ t, Sees s.tokens t ∧
      variableKind? t.kind = some v.kind ∧ t.lexeme = v.name ∧ Assigns s.tokens := by
  obtain ⟨t, mid₁, front, found⟩ := bind_ok run
  obtain ⟨⟨us, tokens⟩, rfl⟩ := ahead_ok front
  obtain ⟨k, mid₂, second, found⟩ := bind_ok found
  cases second
  cases next : s.tokens[1]? with
  | none =>
    rw [next] at found
    cases found
    exact ⟨rfl, nofun⟩
  | some w =>
    rw [next] at found
    dsimp only [Option.map_some] at found
    cases found
    refine ⟨rfl, fun v there => ?_⟩
    split at there
    · rename_i operator
      obtain ⟨kind, variableKind, rfl⟩ := Option.map_eq_some_iff.1 there
      refine ⟨t, ⟨us, tokens⟩, variableKind, rfl, ?_⟩
      rw [tokens] at next
      cases us with
      | nil => cases next
      | cons x rest =>
        cases next
        exact ⟨t, w, rest, tokens, by rw [variableKind]; rfl, operator⟩
    · cases there

theorem assignedVariable?_names {f : Option Variable → Parser β} (fair : s.Fair)
    (absent : Names (f none) s good')
    (present : ∀ target, SourceName target.name → Assigns s.tokens → Names (f (some target)) s good') :
    Names (assignedVariable? >>= f) s good' := by
  intro b s' run
  obtain ⟨target, mid, found, run⟩ := bind_ok run
  obtain ⟨rfl, known⟩ := assignedVariable?_known found
  cases target with
  | none => exact absent b s' run
  | some v =>
    obtain ⟨t, sees, kind, name, assigns⟩ := known v rfl
    exact present v (name ▸ ParserState.Fair.sourced fair sees (by rw [kind]; rfl)) assigns b s' run

/-- What the readers that call one another give where no method name is ahead that could be no other. -/
structure Naming (fuel : Nat) : Prop where
  body : ∀ closes s, s.Fair → Names (body fuel closes) s fun es => ∀ e ∈ es, e.Sourced
  statement : ∀ s, s.Fair → Names (statement fuel) s Expr.Sourced
  modifiers : ∀ e s, s.Fair → e.Sourced → Names (modifiers fuel e) s Expr.Sourced
  defExpression : ∀ s, s.Fair → Names (defExpression fuel) s Expr.Sourced
  methodDefinition : ∀ s, s.Fair → Names (methodDefinition fuel) s MethodDef.Sourced
  methodDefinitions : ∀ s, s.Fair →
    Names (methodDefinitions fuel) s fun ms => ∀ m ∈ ms, m.Sourced
  classDefinition : ∀ s, s.Fair → Calm s.tokens → Names (classDefinition fuel) s Expr.Sourced
  expression : ∀ s, s.Fair → Names (expression fuel) s Expr.Sourced
  assignment : ∀ target s, s.Fair → SourceName target.name → Assigns s.tokens →
    Names (assignment fuel target) s Expr.Sourced
  operators : ∀ level s, s.Fair → Names (operators fuel level) s Expr.Sourced
  operatorsAfter : ∀ level left s, s.Fair → left.Sourced →
    Names (operatorsAfter fuel level left) s Expr.Sourced
  unary : ∀ s, s.Fair → Names (unary fuel) s Expr.Sourced
  members : ∀ e s, s.Fair → e.Sourced → Names (members fuel e) s Expr.Sourced
  call : ∀ receiver name s, s.Fair → (∀ e ∈ receiver, e.Sourced) →
    Names (call fuel receiver name) s Expr.Sourced
  arguments : ∀ s, s.Fair → Names (arguments fuel) s fun es => ∀ e ∈ es, e.Sourced
  argumentsTail : ∀ s, s.Fair → Names (argumentsTail fuel) s fun es => ∀ e ∈ es, e.Sourced
  commandArguments : ∀ s, s.Fair → Names (commandArguments fuel) s fun es => ∀ e ∈ es, e.Sourced
  block : ∀ s, s.Fair → Calm s.tokens → Names (block fuel) s Block.Sourced
  primary : ∀ s, s.Fair → Names (primary fuel) s Expr.Sourced
  exitValue : ∀ s, s.Fair → Names (exitValue fuel) s fun value => ∀ e ∈ value, e.Sourced
  conditional : ∀ kind s, s.Fair → Calm s.tokens → Names (conditional fuel kind) s Expr.Sourced
  loop : ∀ s, s.Fair → Calm s.tokens → Names (loop fuel) s Expr.Sourced

theorem Naming.none : Naming 0 := by
  constructor <;> intros <;> exact outOfFuel_names

section Steps

variable (inner : Naming fuel) (fair : s.Fair)
include inner fair

theorem statementAt_names {t : Token} (sees : Sees s.tokens t) :
    Names (statementAt fuel t.kind) s fun es => ∀ e ∈ es, e.Sourced := by
  unfold statementAt
  split
  · rename_i kind
    exact (requirement_names fair (sees.calm_beq kind rfl)).bind
      fun _ _ fair₁ _ => .pure fair₁ (List.forall_mem_nil _)
  · exact (inner.statement s fair).map fun e sourced => List.forall_mem_singleton.2 sourced

theorem body_names {closes : TokenKind → Bool} :
    Names (body (fuel + 1) closes) s fun es => ∀ e ∈ es, e.Sourced := by
  rw [body_eq]
  refine (passSeparators_names fair).bind fun _ s₁ fair₁ _ => ?_
  refine kindAhead_names fun t sees => ?_
  split
  · exact .pure fair₁ (List.forall_mem_nil _)
  refine (statementAt_names inner fair₁ sees).bind fun first s₂ fair₂ sourced => ?_
  refine (statementEnd_names fair₂).bind fun _ s₃ fair₃ _ => ?_
  exact (inner.body closes s₃ fair₃).bind fun _ _ fair₄ others =>
    .pure fair₄ (List.forall_mem_append.2 ⟨sourced, others⟩)

theorem statement_names : Names (statement (fuel + 1)) s Expr.Sourced := by
  have modified {p : Parser Expr} (names : Names p s Expr.Sourced) :
      Names (p >>= modifiers fuel) s Expr.Sourced :=
    names.bind fun e s₁ fair₁ sourced => inner.modifiers e s₁ fair₁ sourced
  unfold statement
  refine kindAhead_names fun t sees => ?_
  dsimp only
  split
  · exact modified (inner.defExpression s fair)
  · rename_i kind
    exact modified (inner.classDefinition s fair (sees.calm kind rfl))
  · rename_i kind
    exact modified (lib_names fair (sees.calm kind rfl))
  · exact modified (inner.expression s fair)

theorem guarded_names (kind : ConditionKind) {e : Expr} (sourced : e.Sourced) (calm : Calm s.tokens) :
    Names (guarded fuel kind e) s Expr.Sourced := by
  refine (pass_names fair.toChained calm).bind fun _ s₁ fair₁ _ => ?_
  refine (inner.expression s₁ fair₁).bind fun condition s₂ fair₂ tested => ?_
  refine (node_names fair₂ (.plain (fun _ _ => rfl) rfl ?_)).bind fun whole s₃ fair₃ sourced =>
    inner.modifiers whole s₃ fair₃ sourced
  simpa [Form.parts] using ⟨tested, sourced⟩

theorem modifiers_names {e : Expr} (sourced : e.Sourced) :
    Names (modifiers (fuel + 1) e) s Expr.Sourced := by
  rw [modifiers_eq]
  refine kindAhead_names fun t sees => ?_
  split
  · rename_i kind
    exact guarded_names inner fair .if sourced (sees.calm kind rfl)
  · rename_i kind
    exact guarded_names inner fair .unless sourced (sees.calm kind rfl)
  · exact .pure fair sourced

theorem defExpression_names : Names (defExpression (fuel + 1)) s Expr.Sourced := by
  unfold defExpression
  refine ahead_names fun start _ => ?_
  exact (inner.methodDefinition s fair).bind fun m s₁ fair₁ sourced =>
    node_names fair₁ (.defMethod sourced)

theorem methodParts_names : Names (methodParts fuel) s fun r =>
    (∀ p ∈ r.1, SourceName p.name) ∧ ∀ e ∈ r.2, e.Sourced := by
  refine (parameters_names fair).bind fun ps s₁ fair₁ named => ?_
  refine (declareAll_names fair₁ named).bind fun _ s₂ fair₂ _ => ?_
  exact (inner.body _ s₂ fair₂).bind fun es s₃ fair₃ sourced => .pure fair₃ ⟨named, sourced⟩

/-- The name of the method may be one that variables cannot have. -/
theorem methodDefinition_names : Names (methodDefinition (fuel + 1)) s MethodDef.Sourced := by
  rw [methodDefinition_eq]
  intro m s' run
  obtain ⟨_, s₁, marked, run⟩ := bind_ok run
  have chained : s₁.Chained := expect_chained fair.toChained marked
  obtain ⟨id, s₂, given, run⟩ := bind_ok run
  have chained₂ : s₂.Chained := by
    cases given
    exact ⟨chained.tokens, chained.locals⟩
  refine Names.bind (definedName_names chained₂ (by rfl) (by decide) _) (fun name s₃ fair₃ _ => ?_)
    m s' run
  refine (withLocals_names fair₃ (fun _ _ => List.forall_mem_nil _)
    fun s' fair' => methodParts_names inner fair').bind fun r s₄ fair₄ sourced => ?_
  exact (expect_names fair₄.toChained (by rfl) _).bind fun _ s₅ fair₅ _ =>
    .pure fair₅ ⟨sourced.1, sourced.2⟩

theorem methodDefinitions_names :
    Names (methodDefinitions (fuel + 1)) s fun ms => ∀ m ∈ ms, m.Sourced := by
  unfold methodDefinitions
  refine (passSeparators_names fair).bind fun _ s₁ fair₁ _ => ?_
  refine kindAhead_names fun t sees => ?_
  split
  · exact .pure fair₁ (List.forall_mem_nil _)
  · refine (inner.methodDefinition s₁ fair₁).bind fun m s₂ fair₂ sourced => ?_
    exact (inner.methodDefinitions s₂ fair₂).bind fun ms s₃ fair₃ others =>
      .pure fair₃ (List.forall_mem_cons.2 ⟨sourced, others⟩)
  · exact unexpected_names _

theorem classDefinition_names (calm : Calm s.tokens) :
    Names (classDefinition (fuel + 1)) s Expr.Sourced := by
  unfold classDefinition
  refine (take_names fair.toChained calm).bind fun start s₁ fair₁ _ => ?_
  refine (definedName_names fair₁.toChained (by rfl) (by decide) _).bind fun name s₂ fair₂ _ => ?_
  refine (typeParameters_names fair₂).bind fun types s₃ fair₃ _ => ?_
  refine (typeNameAfter_names fair₃ _ rfl).bind fun superclass s₄ fair₄ _ => ?_
  refine (inner.methodDefinitions s₄ fair₄).bind fun ms s₅ fair₅ sourced => ?_
  refine ahead_names fun last _ => ?_
  refine (expect_names fair₅.toChained (by rfl) _).bind fun _ s₆ fair₆ _ => ?_
  exact node_names fair₆ (.defClass sourced)

theorem expression_names : Names (expression (fuel + 1)) s Expr.Sourced := by
  unfold expression
  refine assignedVariable?_names fair ?_ fun target named assigns => ?_
  · refine (inner.operators 0 s fair).bind fun condition s₁ fair₁ tested => ?_
    refine kindAhead_names fun t sees => ?_
    split
    · rename_i question
      refine (pass_names fair₁.toChained (sees.calm_beq question rfl)).bind fun _ s₂ fair₂ _ => ?_
      refine (passNewlines_names fair₂).bind fun _ s₃ fair₃ _ => ?_
      refine (inner.expression s₃ fair₃).bind fun consequent s₄ fair₄ yes => ?_
      refine (passNewlines_names fair₄).bind fun _ s₅ fair₅ _ => ?_
      refine (expect_names fair₅.toChained (by rfl) _).bind fun _ s₆ fair₆ _ => ?_
      refine (passNewlines_names fair₆).bind fun _ s₇ fair₇ _ => ?_
      refine (inner.expression s₇ fair₇).bind fun alternative s₈ fair₈ no => ?_
      refine node_names fair₈ (.plain (fun _ _ => rfl) rfl ?_)
      simpa [Form.parts] using ⟨tested, yes, no⟩
    · exact .pure fair₁ tested
  · exact inner.assignment target s fair named assigns

theorem assignedValue_names {target : Variable} (named : SourceName target.name) {targetSpan : Span}
    {operator : Token} : Names (assignedValue fuel target targetSpan operator) s Expr.Sourced := by
  refine (inner.expression s fair).bind fun operand s₁ fair₁ sourced => ?_
  split
  · exact .pure fair₁ sourced
  · refine (node_names fair₁ (.read named)).bind fun current s₂ fair₂ read => ?_
    refine node_names fair₂ (.call ?_ (List.forall_mem_singleton.2 sourced) (by rintro _ ⟨⟩))
    rintro _ ⟨⟩
    exact read

theorem assignment_names {target : Variable} (named : SourceName target.name)
    (assigns : Assigns s.tokens) : Names (assignment (fuel + 1) target) s Expr.Sourced := by
  obtain ⟨t, u, rest, same, first, second⟩ := assigns
  have calm : expectsMethodName t.kind = false ∧ t.kind ≠ .ending := by
    cases kind : t.kind with
    | identifier | constant | instanceVar | global => exact ⟨rfl, nofun⟩
    | _ =>
      rw [kind] at first
      cases first
  have calm' : expectsMethodName u.kind = false ∧ u.kind ≠ .ending := by
    simp only [isAssignment, Bool.or_eq_true, beq_iff_eq] at second
    rcases second with ((same | same) | same) | same <;> rw [same] <;> exact ⟨rfl, nofun⟩
  rw [assignment_eq]
  intro e s' run
  obtain ⟨targetToken, mid, taken, run⟩ := bind_ok run
  rw [take_run same calm.2] at taken
  cases taken
  obtain ⟨operator, mid₁, taken, run⟩ := bind_ok run
  rw [take_run rfl calm'.2] at taken
  cases taken
  have fair₁ : ParserState.Fair { s with tokens := rest, previous := some u } := by
    have tokens := fair.tokens
    rw [same] at tokens
    have after := Token.Fair.of_tail (Token.Fair.of_tail tokens calm.1).rest calm'.1
    exact ⟨⟨after.rest, fair.locals⟩, after.first⟩
  refine (passNewlines_names fair₁).bind (fun _ s₂ fair₂ _ => ?_) e s' run
  refine (declareTarget_names fair₂ named).bind fun _ s₃ fair₃ _ => ?_
  exact (assignedValue_names inner fair₃ named).bind fun value s₄ fair₄ sourced =>
    node_names fair₄ (.assign named sourced)

theorem operators_names (level : Nat) : Names (operators (fuel + 1) level) s Expr.Sourced := by
  unfold operators
  exact (inner.unary s fair).bind fun left s₁ fair₁ sourced =>
    inner.operatorsAfter level left s₁ fair₁ sourced

theorem operatorsAfter_names (level : Nat) {left : Expr} (sourced : left.Sourced) :
    Names (operatorsAfter (fuel + 1) level left) s Expr.Sourced := by
  unfold operatorsAfter
  refine kindAhead_names fun t sees => ?_
  split
  · exact .pure fair sourced
  · rename_i next binds
    have calm : Calm s.tokens := by
      refine sees.calm rfl ?_
      unfold bindingLevel at binds
      split at binds <;> rename_i kind
      all_goals first | (rw [kind]; rfl) | cases binds
    split
    · exact .pure fair sourced
    refine (take_names fair.toChained calm).bind fun operator s₁ fair₁ _ => ?_
    refine (passNewlines_names fair₁).bind fun _ s₂ fair₂ _ => ?_
    refine (inner.operators next s₂ fair₂).bind fun right s₃ fair₃ other => ?_
    refine (node_names fair₃ ?_).bind fun whole s₄ fair₄ sourced =>
      inner.operatorsAfter level whole s₄ fair₄ sourced
    have both : ∀ e ∈ [left, right], e.Sourced := by simpa using ⟨sourced, other⟩
    split
    · exact .plain (fun _ _ => rfl) rfl both
    split
    · exact .plain (fun _ _ => rfl) rfl both
    · refine .call ?_ (List.forall_mem_singleton.2 other) (by rintro _ ⟨⟩)
      rintro _ ⟨⟩
      exact sourced

theorem unary_names : Names (unary (fuel + 1)) s Expr.Sourced := by
  unfold unary
  refine kindAhead_names fun t sees => ?_
  split
  · rename_i kind
    refine (take_names fair.toChained (sees.calm kind rfl)).bind fun mark s₁ fair₁ _ => ?_
    refine (inner.unary s₁ fair₁).bind fun operand s₂ fair₂ sourced => ?_
    exact node_names fair₂ (.plain (fun _ _ => rfl) rfl (List.forall_mem_singleton.2 sourced))
  · rename_i kind
    refine (take_names fair.toChained (sees.calm kind rfl)).bind fun mark s₁ fair₁ _ => ?_
    refine (inner.unary s₁ fair₁).bind fun operand s₂ fair₂ sourced => ?_
    have negated : Names (negation mark.span operand) s₂ Form.Sourced := by
      unfold negation
      split
      · split
        · exact .fails fun _ run => by cases run
        · exact .pure fair₂ (.plain (fun _ _ => rfl) rfl (List.forall_mem_nil _))
      · exact .pure fair₂ (.plain (fun _ _ => rfl) rfl (List.forall_mem_nil _))
      · refine .pure fair₂ (.call ?_ (List.forall_mem_nil _) (by rintro _ ⟨⟩))
        rintro _ ⟨⟩
        exact sourced
    exact negated.bind fun form s₃ fair₃ sourced => node_names fair₃ sourced
  · exact (inner.primary s fair).bind fun e s₁ fair₁ sourced => inner.members e s₁ fair₁ sourced

/-- After a dot any word can be a method name, and it is passed before anything else is read. -/
theorem members_names {e : Expr} (sourced : e.Sourced) :
    Names (members (fuel + 1) e) s Expr.Sourced := by
  unfold members
  refine kindAhead_names fun t sees => ?_
  split
  · rename_i dot
    intro e' s' run
    obtain ⟨_, s₁, passed, run⟩ := bind_ok run
    have chained : s₁.Chained := pass_chained fair.toChained passed
    obtain ⟨_, s₂, skipped, run⟩ := bind_ok run
    have chained₂ : s₂.Chained := passWhile_chained chained skipped
    refine ahead_names (fun name sees => ?_) e' s' run
    dsimp only
    split
    · rename_i kind
      have calm : Calm s₂.tokens := by
        rcases Bool.or_eq_true_iff.1 kind with same | same
        · exact sees.calm_beq same rfl
        · exact sees.calm_beq same rfl
      refine (pass_names chained₂ calm).bind fun _ s₃ fair₃ _ => ?_
      refine (inner.call (some e) name s₃ fair₃ ?_).bind fun sent s₄ fair₄ sourced =>
        inner.members sent s₄ fair₄ sourced
      rintro _ ⟨⟩
      exact sourced
    · exact unexpected_bind_names _
  · exact .pure fair sourced

theorem callWith_names {receiver : Option Expr} {name : Token} {args : List Expr}
    (sent : ∀ e ∈ receiver, e.Sourced) (given : ∀ e ∈ args, e.Sourced) :
    Names (callWith fuel receiver name args) s Expr.Sourced := by
  refine kindAhead_names fun t sees => ?_
  split
  · rename_i opening
    have calm : Calm s.tokens := by
      rcases Bool.or_eq_true_iff.1 opening with same | same
      · exact sees.calm_beq same rfl
      · exact sees.calm_beq same rfl
    refine (inner.block s fair calm).bind fun b s₁ fair₁ sourced => ?_
    refine node_names fair₁ (.call sent given ?_)
    rintro _ ⟨⟩
    exact sourced
  · exact node_names fair (.call sent given (by rintro _ ⟨⟩))

theorem call_names {receiver : Option Expr} {name : Token} (sent : ∀ e ∈ receiver, e.Sourced) :
    Names (call (fuel + 1) receiver name) s Expr.Sourced := by
  rw [call_eq]
  exact (inner.arguments s fair).bind fun args s₁ fair₁ given =>
    callWith_names inner fair₁ sent given

theorem arguments_names : Names (arguments (fuel + 1)) s fun es => ∀ e ∈ es, e.Sourced := by
  unfold arguments
  refine kindAhead_names fun t sees => ?_
  split
  · rename_i opening
    refine (pass_names fair.toChained (sees.calm_beq opening rfl)).bind fun _ s₁ fair₁ _ => ?_
    refine (passNewlines_names fair₁).bind fun _ s₂ fair₂ _ => ?_
    refine (inner.argumentsTail s₂ fair₂).bind fun args s₃ fair₃ given => ?_
    exact (expect_names fair₃.toChained (by rfl) _).bind fun _ s₄ fair₄ _ => .pure fair₄ given
  split
  · exact inner.commandArguments s fair
  · exact .pure fair (List.forall_mem_nil _)

theorem argumentsTail_names : Names (argumentsTail (fuel + 1)) s fun es => ∀ e ∈ es, e.Sourced := by
  rw [argumentsTail_eq]
  refine kindAhead_names fun t sees => ?_
  split
  · exact .pure fair (List.forall_mem_nil _)
  refine (inner.expression s fair).bind fun first s₁ fair₁ sourced => ?_
  refine (passNewlines_names fair₁).bind fun _ s₂ fair₂ _ => ?_
  refine (separator_names fair₂ (looseComma_names fair₂.toChained)).bind fun _ s₃ fair₃ _ => ?_
  exact (inner.argumentsTail s₃ fair₃).bind fun _ _ fair₄ others =>
    .pure fair₄ (List.forall_mem_cons.2 ⟨sourced, others⟩)

theorem commandArguments_names :
    Names (commandArguments (fuel + 1)) s fun es => ∀ e ∈ es, e.Sourced := by
  unfold commandArguments
  refine (inner.expression s fair).bind fun first s₁ fair₁ sourced => ?_
  refine kindAhead_names fun t sees => ?_
  split
  · rename_i comma
    refine (pass_names fair₁.toChained (sees.calm_beq comma rfl)).bind fun _ s₂ fair₂ _ => ?_
    refine (passNewlines_names fair₂).bind fun _ s₃ fair₃ _ => ?_
    exact (inner.commandArguments s₃ fair₃).bind fun _ s₄ fair₄ others =>
      .pure fair₄ (List.forall_mem_cons.2 ⟨sourced, others⟩)
  · exact .pure fair₁ (List.forall_mem_singleton.2 sourced)

theorem block_names (calm : Calm s.tokens) : Names (block (fuel + 1)) s Block.Sourced := by
  unfold block
  refine (take_names fair.toChained calm).bind fun opening s₁ fair₁ _ => ?_
  refine (newId_names fair₁).bind fun id s₂ fair₂ _ => ?_
  refine (blockParameters_names fair₂).bind fun ps s₃ fair₃ named => ?_
  have around (outer : List String) (known : ∀ n ∈ outer, SourceName n) :
      ∀ n ∈ ps.map (·.name) ++ outer, SourceName n :=
    List.forall_mem_append.2 ⟨List.forall_mem_map.2 named, known⟩
  refine (withLocals_names fair₃ around fun s' fair' => inner.body _ s' fair').bind
    fun statements s₄ fair₄ sourced => ?_
  refine ahead_names fun closing _ => ?_
  dsimp only
  split
  · exact (expect_names fair₄.toChained (by rfl) _).bind fun _ s₅ fair₅ _ =>
      .pure fair₅ ⟨named, sourced⟩
  · exact (expect_names fair₄.toChained (by rfl) _).bind fun _ s₅ fair₅ _ =>
      .pure fair₅ ⟨named, sourced⟩

omit inner fair in
/-- No method name has to follow a literal. -/
theorem literal?_expects {kind : TokenKind} {l : Literal} (literal : literal? kind = some l) :
    expectsMethodName kind = false := by
  cases kind with
  | keyword k => cases k <;> first | rfl | cases literal
  | _ => first | rfl | cases literal

theorem primary_names : Names (primary (fuel + 1)) s Expr.Sourced := by
  unfold primary
  refine ahead_names fun t sees => ?_
  have leaf {form : Form} (sourced : form.Sourced) (calm : Calm s.tokens) :
      Names (pass >>= fun _ => node t.span form) s Expr.Sourced :=
    (pass_names fair.toChained calm).bind fun _ _ fair₁ _ => node_names fair₁ sourced
  have named {kind : VariableKind} (names : variableKind? t.kind = some kind) : SourceName t.lexeme :=
    ParserState.Fair.sourced fair sees (by rw [names]; rfl)
  split
  · rename_i l literal
    exact leaf (.plain (fun _ _ => rfl) rfl (List.forall_mem_nil _))
      (sees.calm rfl (literal?_expects literal))
  split
  · rename_i kind
    refine (pass_names fair.toChained (sees.calm kind rfl)).bind fun _ s₁ fair₁ _ => ?_
    intro e s' run
    obtain ⟨known, s₂, asked, run⟩ := bind_ok run
    cases asked
    refine kindAhead_names (fun _ _ => ?_) e s' run
    split
    · rename_i read
      have listed : s₁.locals.contains t.lexeme = true := (Bool.and_eq_true_iff.1 read).1
      exact node_names fair₁ (.read (fair₁.locals _ (List.contains_iff_mem.1 listed)))
    · exact inner.call none t s₁ fair₁ (by rintro _ ⟨⟩)
  · rename_i kind
    exact leaf (.read (named (by rw [kind]; rfl))) (sees.calm kind rfl)
  · rename_i kind
    exact leaf (.read (named (by rw [kind]; rfl))) (sees.calm kind rfl)
  · rename_i kind
    exact leaf (.read (named (by rw [kind]; rfl))) (sees.calm kind rfl)
  · rename_i kind
    exact leaf (.plain (fun _ _ => rfl) rfl (List.forall_mem_nil _)) (sees.calm kind rfl)
  · rename_i kind
    refine (pass_names fair.toChained (sees.calm kind rfl)).bind fun _ s₁ fair₁ _ => ?_
    refine (passNewlines_names fair₁).bind fun _ s₂ fair₂ _ => ?_
    refine (inner.expression s₂ fair₂).bind fun e s₃ fair₃ sourced => ?_
    refine (passNewlines_names fair₃).bind fun _ s₄ fair₄ _ => ?_
    refine ahead_names fun _ _ => ?_
    refine (expect_names fair₄.toChained (by rfl) _).bind fun _ s₅ fair₅ _ => .pure fair₅ ?_
    obtain ⟨own, parts, parameters, bodies⟩ := sourced
    exact .intro own parts parameters bodies
  · rename_i kind
    refine (pass_names fair.toChained (sees.calm kind rfl)).bind fun _ s₁ fair₁ _ => ?_
    refine (inner.arguments s₁ fair₁).bind fun args s₂ fair₂ given => ?_
    exact node_names fair₂ (.plain (fun _ _ => rfl) rfl given)
  · rename_i kind
    refine (pass_names fair.toChained (sees.calm kind rfl)).bind fun _ s₁ fair₁ _ => ?_
    refine (inner.exitValue s₁ fair₁).bind fun value s₂ fair₂ sourced => ?_
    exact node_names fair₂ (.plain (fun _ _ => rfl) rfl fun e member =>
      sourced e (Option.mem_toList.1 member))
  · rename_i kind
    refine (pass_names fair.toChained (sees.calm kind rfl)).bind fun _ s₁ fair₁ _ => ?_
    refine (inner.exitValue s₁ fair₁).bind fun value s₂ fair₂ sourced => ?_
    exact node_names fair₂ (.plain (fun _ _ => rfl) rfl fun e member =>
      sourced e (Option.mem_toList.1 member))
  · rename_i kind
    exact inner.conditional .if s fair (sees.calm kind rfl)
  · rename_i kind
    exact inner.conditional .unless s fair (sees.calm kind rfl)
  · rename_i kind
    exact inner.loop s fair (sees.calm kind rfl)
  · exact unexpected_names _

theorem exitValue_names :
    Names (exitValue (fuel + 1)) s fun value => ∀ e ∈ value, e.Sourced := by
  unfold exitValue
  refine kindAhead_names fun t sees => ?_
  split
  · refine (inner.expression s fair).map fun e sourced => ?_
    rintro _ ⟨⟩
    exact sourced
  · exact .pure fair (by rintro _ ⟨⟩)

theorem elseBranch_names {t : Token} (sees : Sees s.tokens t) :
    Names (elseBranch fuel t.kind) s fun other => ∀ es ∈ other, ∀ e ∈ es, e.Sourced := by
  unfold elseBranch
  split
  · rename_i kind
    refine (pass_names fair.toChained (sees.calm_beq kind rfl)).bind fun _ s₁ fair₁ _ => ?_
    refine (inner.body _ s₁ fair₁).map fun es sourced => ?_
    rintro _ ⟨⟩
    exact sourced
  · exact .pure fair (by rintro _ ⟨⟩)

theorem conditional_names {kind : ConditionKind} (calm : Calm s.tokens) :
    Names (conditional (fuel + 1) kind) s Expr.Sourced := by
  rw [conditional_eq]
  refine (take_names fair.toChained calm).bind fun start s₁ fair₁ _ => ?_
  refine (inner.expression s₁ fair₁).bind fun condition s₂ fair₂ tested => ?_
  refine (inner.body _ s₂ fair₂).bind fun consequent s₃ fair₃ yes => ?_
  have whole {alternative : Option (List Expr)} (no : ∀ es ∈ alternative, ∀ e ∈ es, e.Sourced) :
      (Form.conditional kind condition consequent alternative).Sourced := by
    refine .plain (fun _ _ => rfl) rfl (List.forall_mem_cons.2 ⟨tested, List.forall_mem_append.2
      ⟨yes, ?_⟩⟩)
    cases alternative with
    | none => exact List.forall_mem_nil _
    | some es => exact no es rfl
  refine kindAhead_names fun t sees => ?_
  split
  · rename_i another
    refine (inner.conditional .if s₃ fair₃ (sees.calm_beq (Bool.and_eq_true_iff.1 another).1 rfl)).bind
      fun nested s₄ fair₄ sourced => node_names fair₄ (whole ?_)
    rintro _ ⟨⟩
    exact List.forall_mem_singleton.2 sourced
  · refine (elseBranch_names inner fair₃ sees).bind fun other s₄ fair₄ no => ?_
    refine ahead_names fun last _ => ?_
    exact (expect_names fair₄.toChained (by rfl) _).bind fun _ s₅ fair₅ _ =>
      node_names fair₅ (whole no)

theorem loop_names (calm : Calm s.tokens) : Names (loop (fuel + 1)) s Expr.Sourced := by
  unfold loop
  refine (take_names fair.toChained calm).bind fun start s₁ fair₁ _ => ?_
  refine (inner.expression s₁ fair₁).bind fun condition s₂ fair₂ tested => ?_
  refine (inner.body _ s₂ fair₂).bind fun statements s₃ fair₃ sourced => ?_
  refine ahead_names fun last _ => ?_
  refine (expect_names fair₃.toChained (by rfl) _).bind fun _ s₄ fair₄ _ => ?_
  exact node_names fair₄ (.plain (fun _ _ => rfl) rfl (List.forall_mem_cons.2 ⟨tested, sourced⟩))

end Steps

theorem naming (fuel : Nat) : Naming fuel := by
  induction fuel with
  | zero => exact .none
  | succ fuel inner => exact
    { body := fun _ _ fair => body_names inner fair
      statement := fun _ => statement_names inner
      modifiers := fun _ _ fair sourced => modifiers_names inner fair sourced
      defExpression := fun _ => defExpression_names inner
      methodDefinition := fun _ => methodDefinition_names inner
      methodDefinitions := fun _ => methodDefinitions_names inner
      classDefinition := fun _ => classDefinition_names inner
      expression := fun _ => expression_names inner
      assignment := fun _ _ fair named ahead => assignment_names inner fair named ahead
      operators := fun level _ fair => operators_names inner fair level
      operatorsAfter := fun level _ _ fair => operatorsAfter_names inner fair level
      unary := fun _ => unary_names inner
      members := fun _ _ fair sourced => members_names inner fair sourced
      call := fun _ _ _ fair sent => call_names inner fair sent
      arguments := fun _ => arguments_names inner
      argumentsTail := fun _ => argumentsTail_names inner
      commandArguments := fun _ => commandArguments_names inner
      block := fun _ => block_names inner
      primary := fun _ => primary_names inner
      exitValue := fun _ => exitValue_names inner
      conditional := fun _ _ fair calm => conditional_names inner fair calm
      loop := fun _ => loop_names inner }

end Parser

namespace Module

/-- In a text that has been read, all variables have names that variables can have. -/
theorem read_sourced {first next : NodeId} {text : String} {m : Module}
    (read : Module.read first text = .ok (m, next)) : ∀ e ∈ m.body, e.Sourced := by
  obtain ⟨tokens, scanned, parsed⟩ := read_ok read
  obtain ⟨s, run, -⟩ := parse_ok parsed
  have fair := Token.scan_fair scanned
  exact ((Parser.naming _).body _ _ ⟨⟨fair.rest, List.forall_mem_nil _⟩, fair.first⟩ _ _ run).2

end Module

end TypedBlocks

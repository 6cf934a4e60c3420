import TypedBlocks.Proofs.LineEnds
import TypedBlocks.Proofs.ReaderSteps

/-!
# Reading is total

A text is cut into tokens that end with their only ending. From such tokens every reader goes on to
a result or refuses a token: it never looks past the ending, and it takes tokens only in front of
it. Readers that call one another keep passing tokens, so a fuel of sixteen for each token and a bit
more is enough; the bit is the rank of the reader, which falls from caller to callee where no token
is passed in between.
-/
namespace TypedBlocks

namespace Token

/-- The kinds of tokens before the ending. Integers among them can be negated. -/
structure Inner (k : TokenKind) : Prop where
  ne_ending : k ≠ .ending
  negatable : ∀ n, k = .integer n → n ≠ Int64.minValue

/-- The tokens end with their only ending. -/
inductive Closed : List Token → Prop
  | ending {t : Token} (kind : t.kind = .ending) : Closed [t]
  | cons {t : Token} {ts : List Token} (inner : Inner t.kind) (rest : Closed ts) : Closed (t :: ts)

theorem Closed.append {before ts : List Token} (inner : ∀ t ∈ before, Inner t.kind)
    (closed : Closed ts) : Closed (before ++ ts) := by
  induction before with
  | nil => exact closed
  | cons t before ih =>
    rw [List.forall_mem_cons] at inner
    exact .cons inner.1 (ih inner.2)

theorem Closed.split {ts : List Token} (closed : Closed ts) : ∃ before last,
    ts = before ++ [last] ∧ last.kind = .ending ∧ ∀ t ∈ before, t.kind ≠ .ending := by
  induction closed with
  | @ending t kind => exact ⟨[], t, rfl, kind, List.forall_mem_nil _⟩
  | @cons t ts inner _ ih =>
    obtain ⟨before, last, rfl, kind, others⟩ := ih
    exact ⟨t :: before, last, rfl, kind, List.forall_mem_cons.2 ⟨inner.ne_ending, others⟩⟩

section Scanning

variable {start : Position} {g : Glyph} {rest : List Glyph} {p : Piece} {k : TokenKind}

/-- Kinds that are neither endings nor integers. -/
theorem Inner.of_ne (ending : k ≠ .ending) (integer : ∀ n, k ≠ .integer n) : Inner k :=
  ⟨ending, fun n same => absurd same (integer n)⟩

theorem charPiece_kind (reads : charPiece start rest = .ok p) : ∃ c, p.kind = some (.char c) := by
  obtain ⟨c, -, kind, -⟩ := charPiece_covers reads
  exact ⟨c, kind⟩

/-- No number that is read is the least integer. -/
theorem numberPiece_inner (reads : numberPiece start g rest = .ok p) (counts : p.kind = some k) :
    Inner k := by
  rcases numberPiece_kind reads with ⟨n, small, kind⟩ | ⟨x, kind⟩
  · cases kind.symm.trans counts
    refine ⟨nofun, fun m same least => ?_⟩
    cases same
    have value := congrArg Int64.toInt least
    rw [Int64.toInt_ofNat_of_lt small] at value
    have negative : Int64.minValue.toInt < 0 := by decide
    omega
  · cases kind.symm.trans counts
    exact .of_ne nofun nofun

/-- No piece is an ending, and integers are read without a sign. -/
theorem piece_inner {methodName : Bool} (reads : piece methodName start g rest = .ok p)
    (counts : p.kind = some k) : Inner k := by
  obtain ⟨form, reading⟩ := exists_form g
  rw [reading] at reads
  cases form with
  | blank _ | comment _ =>
    cases reads
    cases counts
  | lineEnd _ =>
    cases reads
    cases counts
    exact .of_ne nofun nofun
  | string _ =>
    obtain ⟨_, -, rfl⟩ := map_eq_ok.1 reads
    cases counts
    exact .of_ne nofun nofun
  | char _ =>
    obtain ⟨c, kind⟩ := charPiece_kind reads
    cases kind.symm.trans counts
    exact .of_ne nofun nofun
  | number _ => exact numberPiece_inner reads counts
  | word _ =>
    obtain ⟨k', kind, cases'⟩ := wordPiece_kind methodName g rest
    cases reads
    cases kind.symm.trans counts
    rcases cases' with ⟨w, rfl⟩ | ⟨b, rfl⟩ | rfl | rfl <;> exact .of_ne nofun nofun
  | instanceVar _ | global _ =>
    cases (sigilPiece_kind reads).symm.trans counts
    exact .of_ne nofun nofun
  | mark =>
    obtain ⟨m, kind⟩ := markPiece_kind reads
    cases kind.symm.trans counts
    exact .of_ne nofun nofun

theorem ofPiece_kind (kind : TokenKind) (start : Position) (gs : List Glyph) :
    (ofPiece kind start gs).kind = kind := by
  unfold ofPiece
  split <;> rfl

theorem scanFrom_closed {before : List Token} {gs : List Glyph} {tokens : List Token}
    (inner : ∀ t ∈ before, Inner t.kind) (scanned : scanFrom before start gs = .ok tokens) :
    Closed tokens := by
  fun_induction scanFrom before start gs with
  | case1 before start =>
    cases scanned
    rw [List.reverse_cons]
    exact Closed.append (fun t member => inner t (List.mem_reverse.1 member)) (.ending rfl)
  | case2 before start g rest e reads => cases scanned
  | case3 before start g rest p reads covered before' ih =>
    refine ih (fun t member => ?_) scanned
    unfold before' at member
    split at member
    · rename_i kind counts
      rcases List.mem_cons.1 member with rfl | member
      · rw [ofPiece_kind]
        exact piece_inner reads counts
      · exact inner t member
    · exact inner t member

theorem scan_closed {text : String} {tokens : List Token} (scanned : scan text = .ok tokens) :
    Closed tokens := scanFrom_closed (List.forall_mem_nil _) scanned

end Scanning

end Token

open Token (Closed)

/-- The token stands in front. -/
def Sees (ts : List Token) (t : Token) : Prop := ∃ rest, ts = t :: rest

/-- A token that is no ending stands in front. -/
def Goes (ts : List Token) : Prop := ∃ t, Sees ts t ∧ t.kind ≠ .ending

/-- Two tokens that are no endings stand in front. -/
def GoesTwice (ts : List Token) : Prop := ∃ t u rest, ts = t :: u :: rest ∧ t.kind ≠ .ending ∧
  u.kind ≠ .ending

/-- The first list is left with the second, at least `k` tokens shorter. -/
structure Past (k : Nat) (ts ts' : List Token) : Prop where
  closed : Closed ts'
  suffix : ts' <:+ ts
  passed : ts'.length + k ≤ ts.length

/-- A token that is no ending and stands in front is an inner one. -/
theorem Token.Closed.inner {ts : List Token} {t : Token} (closed : Closed ts) (sees : Sees ts t)
    (other : t.kind ≠ .ending) : Inner t.kind := by
  obtain ⟨rest, rfl⟩ := sees
  cases closed with
  | ending kind => exact absurd kind other
  | cons inner _ => exact inner

/-- The fuel is enough for a reader of the rank. -/
structure Enough (fuel rank : Nat) (ts : List Token) : Prop where
  closed : Closed ts
  fuel : 16 * ts.length + rank ≤ fuel

section Lists

variable {ts ts₁ ts₂ : List Token} {t : Token} {k k₁ k₂ fuel rank rank' : Nat}

theorem Token.Closed.sees (closed : Closed ts) : ∃ t, Sees ts t := by
  cases closed with
  | ending kind => exact ⟨_, [], rfl⟩
  | cons inner rest => exact ⟨_, _, rfl⟩

theorem Sees.goes {kind : TokenKind} (sees : Sees ts t) (same : t.kind = kind)
    (other : kind ≠ .ending) : Goes ts := ⟨t, sees, same ▸ other⟩

theorem Sees.goes_beq {kind : TokenKind} (sees : Sees ts t) (same : (t.kind == kind) = true)
    (other : kind ≠ .ending) : Goes ts := sees.goes (beq_iff_eq.1 same) other

namespace Past

theorem refl (closed : Closed ts) : Past 0 ts ts := ⟨closed, List.suffix_rfl, Nat.le_refl _⟩

theorem next (first : Past k₁ ts ts₁) (second : Past k₂ ts₁ ts₂) : Past k₁ ts ts₂ :=
  ⟨second.closed, second.suffix.trans first.suffix, by
    have := first.passed; have := second.passed; omega⟩

theorem after (second : Past k₂ ts₁ ts₂) (first : Past k₁ ts ts₁) : Past k₂ ts ts₂ :=
  ⟨second.closed, second.suffix.trans first.suffix, by
    have := first.passed; have := second.passed; omega⟩

theorem any (past : Past k ts ts₁) : Past 0 ts ts₁ :=
  ⟨past.closed, past.suffix, by have := past.passed; omega⟩

end Past

namespace Enough

/-- Another reader of a lower rank can be called. -/
theorem step (enough : Enough (fuel + 1) rank ts) (past : Past 0 ts ts₁) (lower : rank' < rank) :
    Enough fuel rank' ts₁ :=
  ⟨past.closed, by have := enough.fuel; have := past.passed; omega⟩

/-- Any reader can be called after a token. -/
theorem later (enough : Enough (fuel + 1) rank ts) (past : Past 1 ts ts₁) (small : rank' ≤ 15) :
    Enough fuel rank' ts₁ :=
  ⟨past.closed, by have := enough.fuel; have := past.passed; omega⟩

theorem past (enough : Enough fuel rank ts) (past : Past 1 ts ts₁) (small : rank' ≤ 15) :
    Enough fuel rank' ts₁ :=
  ⟨past.closed, by have := enough.fuel; have := past.passed; omega⟩

/-- A reader of no higher rank can be called with the same fuel. -/
theorem lower (enough : Enough fuel rank ts) (past : Past 0 ts ts₁) (low : rank' ≤ rank) :
    Enough fuel rank' ts₁ :=
  ⟨past.closed, by have := enough.fuel; have := past.passed; omega⟩

theorem positive (enough : Enough 0 (rank + 1) ts) : False := by
  have := enough.fuel
  omega

end Enough

end Lists

/-- The form can be negated if it is an integer. -/
def Form.Negatable (f : Form) : Prop := ∀ n, f = .literal (.integer n) → n ≠ Int64.minValue

namespace Parser

variable {α β : Type} {s s' : ParserState} {p : Parser α} {f : α → Parser β} {k : Nat}
  {good : α → ParserState → Prop} {post : β → ParserState → Prop}

/-- From the state the reader goes on to where `post` holds, or refuses a token. -/
def Reads (p : Parser α) (s : ParserState) (post : α → ParserState → Prop) : Prop :=
  (∃ a s', p s = .ok (a, s') ∧ post a s') ∨ ∃ e, p s = .error (.unexpected e)

/-- The reader passes at least `k` tokens and gives something good, or refuses a token. -/
def Gives (p : Parser α) (s : ParserState) (k : Nat) (good : α → ParserState → Prop) : Prop :=
  Reads p s fun a s' => Past k s.tokens s'.tokens ∧ good a s'

/-- Nothing more is asked of a result. -/
def anything (_ : α) (_ : ParserState) : Prop := True

/-- The expression can be negated in place. -/
def negatable (e : Expr) (_ : ParserState) : Prop := e.form.Negatable

theorem negatable_of_form {e : Expr} {form : Form} (same : e.form = form) (small : form.Negatable) :
    negatable e s := by
  rw [negatable, same]
  exact small

section Rules

theorem Reads.pure {a : β} (holds : post a s) : Reads (Pure.pure a) s post :=
  .inl ⟨a, s, rfl, holds⟩

theorem Reads.of_run {a : α} (run : p s = .ok (a, s')) (rest : Reads (f a) s' post) :
    Reads (p >>= f) s post := by
  rwa [Reads, bind_run run]

theorem Reads.bind {mid : α → ParserState → Prop} (first : Reads p s mid)
    (rest : ∀ a s', mid a s' → Reads (f a) s' post) : Reads (p >>= f) s post := by
  rcases first with ⟨a, s', run, holds⟩ | ⟨e, refused⟩
  · exact .of_run run (rest a s' holds)
  · exact .inr ⟨e, bind_stop refused⟩

theorem Gives.bind (first : Gives p s k good)
    (rest : ∀ a s', Past k s.tokens s'.tokens → good a s' → Reads (f a) s' post) :
    Reads (p >>= f) s post := Reads.bind first fun a s' mid => rest a s' mid.1 mid.2

theorem Gives.last {p : Parser β} {good : β → ParserState → Prop} (last : Gives p s k good)
    (done : ∀ a s', Past k s.tokens s'.tokens → good a s' → post a s') : Reads p s post := by
  rcases last with ⟨a, s', run, past, holds⟩ | refused
  · exact .inl ⟨a, s', run, done a s' past holds⟩
  · exact .inr refused

theorem Gives.map {g : α → β} (gives : Gives p s k good)
    (done : ∀ a s', Past k s.tokens s'.tokens → good a s' → post (g a) s') :
    Reads (g <$> p) s post :=
  Gives.bind (f := fun a => Pure.pure (g a)) gives fun a s' past holds =>
    .pure (done a s' past holds)

end Rules

section Primitives

variable (closed : Closed s.tokens)

include closed

theorem ahead_reads {f : Token → Parser β} (rest : ∀ t, Sees s.tokens t → Reads (f t) s post) :
    Reads (ahead >>= f) s post := by
  obtain ⟨t, ts, same⟩ := closed.sees
  exact .of_run (ahead_run same) (rest t ⟨ts, same⟩)

theorem kindAhead_reads {f : TokenKind → Parser β}
    (rest : ∀ t, Sees s.tokens t → Reads (f t.kind) s post) : Reads (kindAhead >>= f) s post := by
  obtain ⟨t, ts, same⟩ := closed.sees
  exact .of_run (kindAhead_run same) (rest t ⟨ts, same⟩)

theorem take_gives (goes : Goes s.tokens) : Gives take s 1 anything := by
  obtain ⟨t, ⟨ts, same⟩, other⟩ := goes
  refine .inl ⟨t, _, take_run same other, ⟨?_, ?_, ?_⟩, trivial⟩
  · rw [same] at closed
    cases closed with
    | ending kind => exact absurd kind other
    | cons inner rest => exact rest
  · rw [same]
    exact List.suffix_cons t ts
  · rw [same]
    rfl

theorem pass_gives (goes : Goes s.tokens) : Gives pass s 1 anything :=
  (take_gives closed goes).bind fun _ _ past _ => .pure ⟨past, trivial⟩

theorem passWhile_gives {p : TokenKind → Bool} (stays : p .ending = false) :
    Gives (passWhile p) s 0 anything := by
  obtain ⟨t, ts, same, past⟩ : ∃ t ts, s.tokens.dropWhile (fun t => p t.kind) = t :: ts ∧
      Past 0 s.tokens (t :: ts) := by
    generalize s.tokens = tokens at closed
    induction closed with
    | @ending t kind =>
      exact ⟨t, [], by simp [kind, stays], .refl (.ending kind)⟩
    | @cons t ts inner rest ih =>
      by_cases passed : p t.kind
      · obtain ⟨u, us, same, past⟩ := ih
        refine ⟨u, us, ?_, past.closed, past.suffix.trans (List.suffix_cons t ts),
          Nat.le_succ_of_le past.passed⟩
        rw [List.dropWhile_cons, if_pos passed, same]
      · exact ⟨t, ts, by rw [List.dropWhile_cons, if_neg passed], .refl (.cons inner rest)⟩
  exact .inl ⟨(), _, passWhile_run same, past, trivial⟩

theorem passNewlines_gives : Gives passNewlines s 0 anything := passWhile_gives closed rfl

theorem passSeparators_gives : Gives passSeparators s 0 anything := passWhile_gives closed rfl

theorem unexpected_run {α : Type} (what : Expectation) :
    ∃ e, (unexpected what : Parser α) s = .error (.unexpected e) := by
  obtain ⟨t, ts, same⟩ := closed.sees
  exact ⟨⟨what, t⟩, by rw [unexpected, bind_run (by rw [ahead, same])]; rfl⟩

theorem unexpected_reads (what : Expectation) : Reads (unexpected what) s post :=
  .inr (unexpected_run closed what)

theorem unexpected_bind_reads (what : Expectation) : Reads (unexpected what >>= f) s post := by
  obtain ⟨e, refused⟩ := unexpected_run (α := α) closed what
  exact .inr ⟨e, bind_stop refused⟩

theorem expect_gives {kind : TokenKind} (other : kind ≠ .ending) (what : Expectation) :
    Gives (expect kind what) s 1 anything := by
  refine kindAhead_reads closed fun t sees => ?_
  split
  · rename_i same
    exact pass_gives closed (sees.goes_beq same other)
  · exact unexpected_reads closed what

theorem separator_gives {comma : Parser Unit} {closing : Mark} {what : Expectation}
    (passes : Goes s.tokens → Gives comma s 1 anything) :
    Gives (separator comma closing what) s 0 anything := by
  refine kindAhead_reads closed fun t sees => ?_
  split
  · rename_i mark
    exact (passes (sees.goes_beq mark nofun)).last fun _ _ past _ => ⟨past.any, trivial⟩
  split
  · exact .pure ⟨.refl closed, trivial⟩
  · exact unexpected_reads closed what

theorem looseComma_gives (goes : Goes s.tokens) : Gives looseComma s 1 anything := by
  refine (pass_gives closed goes).bind fun _ s₁ past₁ _ => ?_
  exact (passNewlines_gives past₁.closed).last fun _ _ past₂ _ => ⟨past₁.next past₂, trivial⟩

theorem statementEnd_gives {closes : TokenKind → Bool} :
    Gives (statementEnd closes) s 0 anything := by
  refine kindAhead_reads closed fun t sees => ?_
  split
  · rename_i separator
    have goes : Goes s.tokens := ⟨t, sees, fun ending => by
      rw [ending] at separator
      cases separator⟩
    exact (pass_gives closed goes).last fun _ _ past _ => ⟨past.any, trivial⟩
  split
  · exact .pure ⟨.refl closed, trivial⟩
  · exact unexpected_reads closed _

theorem newId_gives : Gives newId s 0 anything := .inl ⟨_, _, rfl, .refl closed, trivial⟩

theorem node_gives (span : Span) (form : Form) :
    Gives (node span form) s 0 fun e _ => e.form = form := .inl ⟨_, _, rfl, .refl closed, rfl⟩

theorem declare_gives (name : String) : Gives (declare name) s 0 anything :=
  .inl ⟨_, _, rfl, .refl closed, trivial⟩

theorem declareTarget_gives (target : Variable) : Gives (declareTarget target) s 0 anything := by
  unfold declareTarget
  split
  · exact declare_gives closed _
  · exact .pure ⟨.refl closed, trivial⟩

theorem declareAll_gives (ps : List Parameter) :
    Gives (ps.forM fun p => declare p.name) s 0 anything := by
  induction ps generalizing s with
  | nil => exact .pure ⟨.refl closed, trivial⟩
  | cons p ps ih =>
    refine (declare_gives closed p.name).bind fun _ s₁ past₁ _ => ?_
    exact (ih past₁.closed).last fun _ _ past₂ _ => ⟨past₂.after past₁, trivial⟩

theorem isVariable_gives (name : String) : Gives (isVariable name) s 0 anything :=
  .inl ⟨_, _, rfl, .refl closed, trivial⟩

omit closed in
/-- Other local names change nothing. -/
theorem withLocals_gives (names : List String → List String)
    (inner : ∀ s', s'.tokens = s.tokens → Gives p s' k anything) :
    Gives (withLocals names p) s k anything := by
  unfold withLocals
  refine .of_run (a := s) rfl (.of_run (a := ()) rfl ?_)
  refine (inner { s with locals := names s.locals } rfl).bind fun a s' past _ => ?_
  exact .of_run (a := ()) rfl (.pure ⟨past, trivial⟩)

theorem typeName_gives : Gives typeName s 1 anything := by
  refine ahead_reads closed fun t sees => ?_
  split
  · rename_i kind
    exact (pass_gives closed (sees.goes kind nofun)).bind fun _ _ past _ => .pure ⟨past, trivial⟩
  · rename_i kind
    exact (pass_gives closed (sees.goes kind nofun)).bind fun _ _ past _ => .pure ⟨past, trivial⟩
  · exact unexpected_reads closed _

theorem typeNameAfter_gives (m : Mark) : Gives (typeNameAfter m) s 0 anything := by
  refine kindAhead_reads closed fun t sees => ?_
  split
  · rename_i mark
    refine (pass_gives closed (sees.goes_beq mark nofun)).bind fun _ s₁ past _ => ?_
    exact (typeName_gives past.closed).bind fun _ s₂ past₂ _ =>
      .pure ⟨(past₂.after past).any, trivial⟩
  · exact .pure ⟨.refl closed, trivial⟩

theorem definedName_gives {kind : TokenKind} (other : kind ≠ .ending) (what : Expectation) :
    Gives (definedName kind what) s 1 anything := by
  refine ahead_reads closed fun t sees => ?_
  dsimp only
  split
  · rename_i same
    exact take_gives closed (sees.goes_beq same other)
  · exact unexpected_bind_reads closed what

theorem requirement_gives (goes : Goes s.tokens) : Gives requirement s 1 anything := by
  refine (pass_gives closed goes).bind fun _ s₁ past _ => ?_
  refine kindAhead_reads past.closed fun t sees => ?_
  split
  · rename_i kind
    exact (pass_gives past.closed (sees.goes kind nofun)).last fun _ _ past₂ _ =>
      ⟨past₂.after past, trivial⟩
  · exact unexpected_reads past.closed _

/-- Where an assignment begins, the variable and the operator stand in front. -/
theorem assignedVariable?_reads {f : Option Variable → Parser β} (absent : Reads (f none) s post)
    (present : ∀ target, GoesTwice s.tokens → Reads (f (some target)) s post) :
    Reads (assignedVariable? >>= f) s post := by
  have reads : Reads assignedVariable? s fun target s' =>
      s' = s ∧ (target.isSome → GoesTwice s.tokens) := by
    refine ahead_reads closed fun t sees => .of_run (a := (s.tokens[1]?).map (·.kind)) rfl ?_
    obtain ⟨ts, same⟩ := sees
    cases second : s.tokens[1]? with
    | none => exact .pure ⟨rfl, nofun⟩
    | some u =>
      refine .pure ⟨rfl, fun there => ?_⟩
      split at there
      · rename_i operator
        change isAssignment u.kind = true at operator
        rw [same] at second
        obtain ⟨rest, rfl⟩ : ∃ rest, ts = u :: rest := by
          cases ts with
          | nil => cases second
          | cons v rest =>
            cases second
            exact ⟨rest, rfl⟩
        refine ⟨t, u, rest, same, fun ending => ?_, fun ending => ?_⟩
        · rw [ending] at there
          cases there
        · rw [ending] at operator
          cases operator
      · cases there
  refine reads.bind fun target s' mid => ?_
  obtain ⟨rfl, twice⟩ := mid
  cases target with
  | none => exact absent
  | some target => exact present target (twice rfl)

omit closed in
theorem literal?_integer {kind : TokenKind} {n : Int64}
    (literal : literal? kind = some (.integer n)) : kind = .integer n := by
  cases kind with
  | integer m =>
    cases literal
    rfl
  | keyword k => cases k <;> cases literal
  | _ => cases literal

theorem negation_gives (minus : Span) (operand : Expr) (small : operand.form.Negatable) :
    Gives (negation minus operand) s 0 fun form _ => form.Negatable := by
  have past := Past.refl closed
  unfold negation
  split
  · rename_i n literal
    rw [if_neg fun least => small n literal (beq_iff_eq.1 least)]
    refine .pure ⟨past, fun m same least => small n literal ?_⟩
    cases same
    have back : - -n = n := Int64.neg_neg
    rw [← back, least]
    rfl
  · exact .pure ⟨past, nofun⟩
  · exact .pure ⟨past, nofun⟩

end Primitives

section Lists

variable {fuel : Nat}

theorem parametersTail_gives (enough : Enough fuel 1 s.tokens) :
    Gives (parametersTail fuel) s 0 anything := by
  induction fuel generalizing s with
  | zero => exact enough.positive.elim
  | succ fuel ih =>
    have past := Past.refl enough.closed
    rw [parametersTail_eq]
    refine kindAhead_reads past.closed fun t sees => ?_
    split
    · exact .pure ⟨past, trivial⟩
    refine ahead_reads past.closed fun name sees => ?_
    dsimp only
    split
    · rename_i kind
      refine (pass_gives past.closed (sees.goes_beq kind nofun)).bind fun _ s₁ past₁ _ => ?_
      refine (typeNameAfter_gives past₁.closed _).bind fun restriction s₂ past₂ _ => ?_
      refine (passNewlines_gives past₂.closed).bind fun _ s₃ past₃ _ => ?_
      have past₃ := past₁.next (past₂.next past₃)
      refine (separator_gives past₃.closed (looseComma_gives past₃.closed)).bind
        fun _ s₄ past₄ _ => ?_
      have past₄ := past₃.next past₄
      exact (ih (enough.later past₄ (by decide))).bind fun _ _ past₅ _ =>
        .pure ⟨past₅.after past₄, trivial⟩
    · exact unexpected_bind_reads past.closed _

theorem parameters_gives (enough : Enough fuel 0 s.tokens) :
    Gives (parameters fuel) s 0 anything := by
  have past := Past.refl enough.closed
  unfold parameters
  refine kindAhead_reads past.closed fun t sees => ?_
  split
  · rename_i opening
    refine (pass_gives past.closed (sees.goes_beq opening nofun)).bind fun _ s₁ past₁ _ => ?_
    refine (passNewlines_gives past₁.closed).bind fun _ s₂ past₂ _ => ?_
    have past₂ := past₁.next past₂
    refine (parametersTail_gives (enough.past past₂ (by decide))).bind fun _ s₃ past₃ _ => ?_
    refine (expect_gives past₃.closed (by nofun) _).bind fun _ s₄ past₄ _ => .pure ⟨?_, trivial⟩
    exact (past₂.next (past₃.next past₄)).any
  · exact .pure ⟨past, trivial⟩

theorem typeParametersTail_gives (enough : Enough fuel 1 s.tokens) :
    Gives (typeParametersTail fuel) s 1 anything := by
  induction fuel generalizing s with
  | zero => exact enough.positive.elim
  | succ fuel ih =>
    unfold typeParametersTail
    refine (typeName_gives enough.closed).bind fun name s₁ past₁ _ => ?_
    refine kindAhead_reads past₁.closed fun t sees => ?_
    split
    · rename_i comma
      refine (pass_gives past₁.closed (sees.goes_beq comma nofun)).bind fun _ s₂ past₂ _ => ?_
      have past₂ := past₁.next past₂
      exact (ih (enough.later past₂ (by decide))).bind fun _ s₃ past₃ _ =>
        .pure ⟨past₂.next past₃, trivial⟩
    · exact .pure ⟨past₁, trivial⟩

theorem typeParameters_gives (enough : Enough fuel 0 s.tokens) :
    Gives (typeParameters fuel) s 0 anything := by
  have past := Past.refl enough.closed
  unfold typeParameters
  refine kindAhead_reads past.closed fun t sees => ?_
  split
  · rename_i opening
    refine (pass_gives past.closed (sees.goes_beq opening nofun)).bind fun _ s₁ past₁ _ => ?_
    refine (typeParametersTail_gives (enough.past past₁ (by decide))).bind fun _ s₂ past₂ _ => ?_
    refine (expect_gives past₂.closed (by nofun) _).bind fun _ s₃ past₃ _ => .pure ⟨?_, trivial⟩
    exact (past₁.next (past₂.next past₃)).any
  · exact .pure ⟨past, trivial⟩

theorem foreigns_gives (enough : Enough fuel 1 s.tokens) : Gives (foreigns fuel) s 0 anything := by
  induction fuel generalizing s with
  | zero => exact enough.positive.elim
  | succ fuel ih =>
    unfold foreigns
    refine (passSeparators_gives enough.closed).bind fun _ s₁ past₁ _ => ?_
    refine kindAhead_reads past₁.closed fun t sees => ?_
    split
    · exact .pure ⟨past₁, trivial⟩
    · rename_i kind
      refine (pass_gives past₁.closed (sees.goes kind nofun)).bind fun _ s₂ past₂ _ => ?_
      refine (definedName_gives past₂.closed (by nofun) _).bind fun name s₃ past₃ _ => ?_
      have past₃ := (past₂.next past₃).after past₁
      refine (parameters_gives (enough.later past₃ (by decide))).bind fun ps s₄ past₄ _ => ?_
      refine (typeNameAfter_gives past₄.closed _).bind fun type s₅ past₅ _ => ?_
      have past₅ := past₃.next (past₄.next past₅)
      exact (ih (enough.later past₅ (by decide))).bind fun _ s₆ past₆ _ =>
        .pure ⟨past₆.after past₅, trivial⟩
    · exact unexpected_reads past₁.closed _

theorem lib_gives (enough : Enough fuel 0 s.tokens) (goes : Goes s.tokens) :
    Gives (lib fuel) s 1 anything := by
  unfold lib
  refine (take_gives enough.closed goes).bind fun start s₁ past₁ _ => ?_
  refine (definedName_gives past₁.closed (by nofun) _).bind fun name s₂ past₂ _ => ?_
  have past₂ := past₁.next past₂
  refine (foreigns_gives (enough.past past₂ (by decide))).bind fun functions s₃ past₃ _ => ?_
  refine ahead_reads past₃.closed fun last _ => ?_
  refine (expect_gives past₃.closed (by nofun) _).bind fun _ s₄ past₄ _ => ?_
  exact (node_gives past₄.closed _ _).last fun _ _ past₅ _ =>
    ⟨past₂.next (past₃.next (past₄.next past₅)), trivial⟩

/-- The names between bars end with a bar. -/
theorem blockParametersTail_gives (enough : Enough fuel 1 s.tokens) :
    Gives (blockParametersTail fuel) s 0 fun _ s' => Goes s'.tokens := by
  induction fuel generalizing s with
  | zero => exact enough.positive.elim
  | succ fuel ih =>
    have past := Past.refl enough.closed
    rw [blockParametersTail_eq]
    refine kindAhead_reads past.closed fun t sees => ?_
    split
    · rename_i bar
      exact .pure ⟨past, sees.goes_beq bar nofun⟩
    refine (definedName_gives past.closed (by nofun) _).bind fun name s₁ past₁ _ => ?_
    refine (separator_gives past₁.closed (pass_gives past₁.closed)).bind fun _ s₂ past₂ _ => ?_
    have past₂ := past₁.next past₂
    exact (ih (enough.later past₂ (by decide))).bind fun _ _ past₃ goes =>
      .pure ⟨past₃.after past₂, goes⟩

theorem blockParameters_gives (enough : Enough fuel 0 s.tokens) :
    Gives (blockParameters fuel) s 0 anything := by
  have past := Past.refl enough.closed
  unfold blockParameters
  refine kindAhead_reads past.closed fun t sees => ?_
  split
  · rename_i bar
    refine (pass_gives past.closed (sees.goes_beq bar nofun)).bind fun _ s₁ past₁ _ => ?_
    refine (blockParametersTail_gives (enough.past past₁ (by decide))).bind
      fun _ s₂ past₂ goes => ?_
    refine (pass_gives past₂.closed goes).bind fun _ s₃ past₃ _ => .pure ⟨?_, trivial⟩
    exact (past₁.next (past₂.next past₃)).any
  · exact .pure ⟨past, trivial⟩

end Lists

/-- What the readers that call one another need, and what they pass and give. -/
structure Total (fuel : Nat) : Prop where
  body : ∀ closes s, Enough fuel 7 s.tokens → Gives (body fuel closes) s 0 fun _ s' =>
    ∃ t, Sees s'.tokens t ∧ (t.kind = .ending ∨ closes t.kind = true)
  statement : ∀ s, Enough fuel 6 s.tokens → Gives (statement fuel) s 1 anything
  modifiers : ∀ e s, Enough fuel 1 s.tokens → Gives (modifiers fuel e) s 0 anything
  defExpression : ∀ s, Enough fuel 2 s.tokens → Gives (defExpression fuel) s 1 anything
  methodDefinition : ∀ s, Enough fuel 1 s.tokens → Gives (methodDefinition fuel) s 1 anything
  methodDefinitions : ∀ s, Enough fuel 2 s.tokens → Gives (methodDefinitions fuel) s 0 anything
  classDefinition : ∀ s, Enough fuel 1 s.tokens → Goes s.tokens →
    Gives (classDefinition fuel) s 1 anything
  expression : ∀ s, Enough fuel 5 s.tokens → Gives (expression fuel) s 1 negatable
  assignment : ∀ target s, Enough fuel 1 s.tokens → GoesTwice s.tokens →
    Gives (assignment fuel target) s 1 negatable
  operators : ∀ level s, Enough fuel 4 s.tokens → Gives (operators fuel level) s 1 negatable
  operatorsAfter : ∀ level left s, Enough fuel 1 s.tokens → left.form.Negatable →
    Gives (operatorsAfter fuel level left) s 0 negatable
  unary : ∀ s, Enough fuel 3 s.tokens → Gives (unary fuel) s 1 negatable
  members : ∀ e s, Enough fuel 1 s.tokens → e.form.Negatable → Gives (members fuel e) s 0 negatable
  call : ∀ receiver name s, Enough fuel 8 s.tokens → Gives (call fuel receiver name) s 0 negatable
  arguments : ∀ s, Enough fuel 7 s.tokens → Gives (arguments fuel) s 0 anything
  argumentsTail : ∀ s, Enough fuel 6 s.tokens → Gives (argumentsTail fuel) s 0 anything
  commandArguments : ∀ s, Enough fuel 6 s.tokens → Gives (commandArguments fuel) s 1 anything
  block : ∀ s, Enough fuel 1 s.tokens → Goes s.tokens → Gives (block fuel) s 1 anything
  primary : ∀ s, Enough fuel 2 s.tokens → Gives (primary fuel) s 1 negatable
  exitValue : ∀ s, Enough fuel 6 s.tokens → Gives (exitValue fuel) s 0 anything
  conditional : ∀ kind s, Enough fuel 1 s.tokens → Goes s.tokens →
    Gives (conditional fuel kind) s 1 negatable
  loop : ∀ s, Enough fuel 1 s.tokens → Goes s.tokens → Gives (loop fuel) s 1 negatable

theorem Total.none : Total 0 := by
  constructor <;> intros <;> exact (Enough.positive ‹_›).elim

section Steps

variable {fuel : Nat} (inner : Total fuel)
include inner

theorem statementAt_gives {t : Token} (enough : Enough fuel 6 s.tokens) (sees : Sees s.tokens t) :
    Gives (statementAt fuel t.kind) s 1 anything := by
  unfold statementAt
  split
  · rename_i kind
    exact (requirement_gives enough.closed (sees.goes_beq kind nofun)).bind
      fun _ _ past₁ _ => .pure ⟨past₁, trivial⟩
  · exact (inner.statement s enough).map fun _ _ past₁ _ => ⟨past₁, trivial⟩

theorem body_gives {closes : TokenKind → Bool} (enough : Enough (fuel + 1) 7 s.tokens) :
    Gives (body (fuel + 1) closes) s 0 fun _ s' =>
      ∃ t, Sees s'.tokens t ∧ (t.kind = .ending ∨ closes t.kind = true) := by
  rw [body_eq]
  refine (passSeparators_gives enough.closed).bind fun _ s₁ past₁ _ => ?_
  refine kindAhead_reads past₁.closed fun t sees => ?_
  split
  · rename_i ends
    rw [Bool.or_eq_true, beq_iff_eq] at ends
    exact .pure ⟨past₁, t, sees, ends⟩
  refine (statementAt_gives inner (enough.step past₁ (by decide)) sees).bind
    fun first s₂ past₂ _ => ?_
  refine (statementEnd_gives past₂.closed).bind fun _ s₃ past₃ _ => ?_
  have past₃ := (past₂.next past₃).after past₁
  exact (inner.body closes s₃ (enough.later past₃ (by decide))).bind fun _ _ past₄ ends =>
    .pure ⟨past₄.after past₃, ends⟩

theorem statement_gives (enough : Enough (fuel + 1) 6 s.tokens) :
    Gives (statement (fuel + 1)) s 1 anything := by
  have past := Past.refl enough.closed
  have modified {p : Parser Expr} {good : Expr → ParserState → Prop} (gives : Gives p s 1 good) :
      Gives (p >>= modifiers fuel) s 1 anything :=
    gives.bind fun e s₁ past₁ _ =>
      (inner.modifiers e s₁ (enough.later past₁ (by decide))).last fun _ _ past₂ _ =>
        ⟨past₁.next past₂, trivial⟩
  unfold statement
  refine kindAhead_reads past.closed fun t sees => ?_
  dsimp only
  split
  · exact modified (inner.defExpression s (enough.step past (by decide)))
  · rename_i kind
    exact modified (inner.classDefinition s (enough.step past (by decide)) (sees.goes kind nofun))
  · rename_i kind
    exact modified (lib_gives (enough.step past (by decide)) (sees.goes kind nofun))
  · exact modified (inner.expression s (enough.step past (by decide)))

theorem guarded_gives (kind : ConditionKind) (e : Expr) (enough : Enough (fuel + 1) 1 s.tokens)
    (goes : Goes s.tokens) : Gives (guarded fuel kind e) s 0 anything := by
  refine (pass_gives enough.closed goes).bind fun _ s₁ past₁ _ => ?_
  refine (inner.expression s₁ (enough.later past₁ (by decide))).bind
    fun condition s₂ past₂ _ => ?_
  refine (node_gives past₂.closed _ _).bind fun whole s₃ past₃ _ => ?_
  have past₃ := past₁.next (past₂.next past₃)
  exact (inner.modifiers whole s₃ (enough.later past₃ (by decide))).last fun _ _ past₄ _ =>
    ⟨past₄.after past₃, trivial⟩

theorem modifiers_gives (e : Expr) (enough : Enough (fuel + 1) 1 s.tokens) :
    Gives (modifiers (fuel + 1) e) s 0 anything := by
  rw [modifiers_eq]
  refine kindAhead_reads enough.closed fun t sees => ?_
  split
  · rename_i kind
    exact guarded_gives inner .if e enough (sees.goes kind nofun)
  · rename_i kind
    exact guarded_gives inner .unless e enough (sees.goes kind nofun)
  · exact .pure ⟨.refl enough.closed, trivial⟩

theorem defExpression_gives (enough : Enough (fuel + 1) 2 s.tokens) :
    Gives (defExpression (fuel + 1)) s 1 anything := by
  have past := Past.refl enough.closed
  unfold defExpression
  refine ahead_reads past.closed fun start _ => ?_
  refine (inner.methodDefinition s (enough.step past (by decide))).bind fun m s₁ past₁ _ => ?_
  exact (node_gives past₁.closed _ _).last fun _ _ past₂ _ => ⟨past₁.next past₂, trivial⟩

theorem methodParts_gives (enough : Enough fuel 7 s.tokens) :
    Gives (methodParts fuel) s 0 anything := by
  have past := Past.refl enough.closed
  refine (parameters_gives (enough.lower past (by decide))).bind fun ps s₁ past₁ _ => ?_
  refine (declareAll_gives past₁.closed ps).bind fun _ s₂ past₂ _ => ?_
  have past₂ := past₁.next past₂
  exact (inner.body _ s₂ (enough.lower past₂ (by decide))).bind fun statements s₃ past₃ _ =>
    .pure ⟨past₃.after past₂, trivial⟩

theorem methodDefinition_gives (enough : Enough (fuel + 1) 1 s.tokens) :
    Gives (methodDefinition (fuel + 1)) s 1 anything := by
  rw [methodDefinition_eq]
  refine (expect_gives enough.closed (by nofun) _).bind fun _ s₁ past₁ _ => ?_
  refine (newId_gives past₁.closed).bind fun id s₂ past₂ _ => ?_
  refine (definedName_gives past₂.closed (by nofun) _).bind fun name s₃ past₃ _ => ?_
  have past₃ := past₁.next (past₂.next past₃)
  refine (withLocals_gives _ fun s' same => methodParts_gives inner ?_).bind fun r s₄ past₄ _ => ?_
  · rw [same]
    exact enough.later past₃ (by decide)
  refine (expect_gives past₄.closed (by nofun) _).bind fun _ s₅ past₅ _ => ?_
  exact .pure ⟨past₃.next (past₄.next past₅), trivial⟩

theorem methodDefinitions_gives (enough : Enough (fuel + 1) 2 s.tokens) :
    Gives (methodDefinitions (fuel + 1)) s 0 anything := by
  unfold methodDefinitions
  refine (passSeparators_gives enough.closed).bind fun _ s₁ past₁ _ => ?_
  refine kindAhead_reads past₁.closed fun t sees => ?_
  split
  · exact .pure ⟨past₁, trivial⟩
  · refine (inner.methodDefinition s₁ (enough.step past₁ (by decide))).bind fun m s₂ past₂ _ => ?_
    have past₂ := past₂.after past₁
    exact (inner.methodDefinitions s₂ (enough.later past₂ (by decide))).bind fun ms s₃ past₃ _ =>
      .pure ⟨past₃.after past₂, trivial⟩
  · exact unexpected_reads past₁.closed _

theorem classDefinition_gives (enough : Enough (fuel + 1) 1 s.tokens) (goes : Goes s.tokens) :
    Gives (classDefinition (fuel + 1)) s 1 anything := by
  unfold classDefinition
  refine (take_gives enough.closed goes).bind fun start s₁ past₁ _ => ?_
  refine (definedName_gives past₁.closed (by nofun) _).bind fun name s₂ past₂ _ => ?_
  have past₂ := past₁.next past₂
  refine (typeParameters_gives (enough.later past₂ (by decide))).bind fun types s₃ past₃ _ => ?_
  refine (typeNameAfter_gives past₃.closed _).bind fun superclass s₄ past₄ _ => ?_
  have past₄ := past₂.next (past₃.next past₄)
  refine (inner.methodDefinitions s₄ (enough.later past₄ (by decide))).bind fun ms s₅ past₅ _ => ?_
  refine ahead_reads past₅.closed fun last _ => ?_
  refine (expect_gives past₅.closed (by nofun) _).bind fun _ s₆ past₆ _ => ?_
  exact (node_gives past₆.closed _ _).last fun _ _ past₇ _ =>
    ⟨past₄.next (past₅.next (past₆.next past₇)), trivial⟩

theorem expression_gives (enough : Enough (fuel + 1) 5 s.tokens) :
    Gives (expression (fuel + 1)) s 1 negatable := by
  have past := Past.refl enough.closed
  unfold expression
  refine assignedVariable?_reads past.closed ?_ fun target twice => ?_
  · refine (inner.operators 0 s (enough.step past (by decide))).bind
      fun condition s₁ past₁ small => ?_
    refine kindAhead_reads past₁.closed fun t sees => ?_
    split
    · rename_i question
      refine (pass_gives past₁.closed (sees.goes_beq question nofun)).bind
        fun _ s₂ past₂ _ => ?_
      refine (passNewlines_gives past₂.closed).bind fun _ s₃ past₃ _ => ?_
      have past₃ := past₁.next (past₂.next past₃)
      refine (inner.expression s₃ (enough.later past₃ (by decide))).bind
        fun consequent s₄ past₄ _ => ?_
      refine (passNewlines_gives past₄.closed).bind fun _ s₅ past₅ _ => ?_
      refine (expect_gives past₅.closed (by nofun) _).bind fun _ s₆ past₆ _ => ?_
      refine (passNewlines_gives past₆.closed).bind fun _ s₇ past₇ _ => ?_
      have past₇ := past₃.next (past₄.next (past₅.next (past₆.next past₇)))
      refine (inner.expression s₇ (enough.later past₇ (by decide))).bind
        fun alternative s₈ past₈ _ => ?_
      exact (node_gives past₈.closed _ _).last fun e _ past₉ form =>
        ⟨past₇.next (past₈.next past₉), negatable_of_form form nofun⟩
    · exact .pure ⟨past₁, small⟩
  · exact inner.assignment target s (enough.step past (by decide)) twice

theorem assignedValue_gives (target : Variable) (targetSpan : Span) (operator : Token)
    (enough : Enough fuel 5 s.tokens) :
    Gives (assignedValue fuel target targetSpan operator) s 1 anything := by
  refine (inner.expression s enough).bind fun operand s₁ past₁ _ => ?_
  split
  · exact .pure ⟨past₁, trivial⟩
  · refine (node_gives past₁.closed _ _).bind fun current s₂ past₂ _ => ?_
    exact (node_gives past₂.closed _ _).last fun _ _ past₃ _ =>
      ⟨past₁.next (past₂.next past₃), trivial⟩

theorem assignment_gives (target : Variable) (enough : Enough (fuel + 1) 1 s.tokens)
    (twice : GoesTwice s.tokens) : Gives (assignment (fuel + 1) target) s 1 negatable := by
  obtain ⟨t, u, rest, same, first, second⟩ := twice
  rw [assignment_eq]
  refine .of_run (take_run same first) (.of_run (take_run rfl second) ?_)
  have past₁ : Past 1 s.tokens rest := by
    have closed := enough.closed
    rw [same] at closed ⊢
    cases closed with
    | cons _ closed =>
      cases closed with
      | ending kind => exact absurd kind second
      | cons _ closed =>
        exact ⟨closed, (List.suffix_cons u rest).trans (List.suffix_cons t _), by simp⟩
  refine (passNewlines_gives past₁.closed).bind fun _ s₁ past₂ _ => ?_
  refine (declareTarget_gives past₂.closed target).bind fun _ s₂ past₃ _ => ?_
  have past₃ := past₁.next (past₂.next past₃)
  refine (assignedValue_gives inner target _ u (enough.later past₃ (by decide))).bind
    fun value s₃ past₄ _ => ?_
  exact (node_gives past₄.closed _ _).last fun _ _ past₅ form =>
    ⟨past₃.next (past₄.next past₅), negatable_of_form form nofun⟩

theorem operators_gives (level : Nat) (enough : Enough (fuel + 1) 4 s.tokens) :
    Gives (operators (fuel + 1) level) s 1 negatable := by
  unfold operators
  refine (inner.unary s (enough.step (.refl enough.closed) (by decide))).bind
    fun left s₁ past₁ small => ?_
  exact (inner.operatorsAfter level left s₁ (enough.later past₁ (by decide)) small).last
    fun _ _ past₂ small => ⟨past₁.next past₂, small⟩

theorem operatorsAfter_gives (level : Nat) (left : Expr) (enough : Enough (fuel + 1) 1 s.tokens)
    (small : left.form.Negatable) : Gives (operatorsAfter (fuel + 1) level left) s 0 negatable := by
  have past := Past.refl enough.closed
  unfold operatorsAfter
  refine kindAhead_reads past.closed fun t sees => ?_
  split
  · exact .pure ⟨past, small⟩
  rename_i next binds
  dsimp only
  split
  · exact .pure ⟨past, small⟩
  have goes : Goes s.tokens := ⟨t, sees, fun ending => by
    rw [ending] at binds
    cases binds⟩
  refine (take_gives past.closed goes).bind fun operator s₁ past₁ _ => ?_
  refine (passNewlines_gives past₁.closed).bind fun _ s₂ past₂ _ => ?_
  have past₂ := past₁.next past₂
  refine (inner.operators next s₂ (enough.later past₂ (by decide))).bind fun right s₃ past₃ _ => ?_
  refine (node_gives past₃.closed _ _).bind fun whole s₄ past₄ form => ?_
  have past₄ := past₂.next (past₃.next past₄)
  have small : whole.form.Negatable := by
    rw [form]
    split
    · nofun
    split
    · nofun
    · nofun
  exact (inner.operatorsAfter level whole s₄ (enough.later past₄ (by decide)) small).last
    fun _ _ past₅ small => ⟨past₅.after past₄, small⟩

theorem unary_gives (enough : Enough (fuel + 1) 3 s.tokens) :
    Gives (unary (fuel + 1)) s 1 negatable := by
  have past := Past.refl enough.closed
  unfold unary
  refine kindAhead_reads past.closed fun t sees => ?_
  split
  · rename_i kind
    refine (take_gives past.closed (sees.goes kind nofun)).bind fun mark s₁ past₁ _ => ?_
    refine (inner.unary s₁ (enough.later past₁ (by decide))).bind fun operand s₂ past₂ _ => ?_
    exact (node_gives past₂.closed _ _).last fun _ _ past₃ form =>
      ⟨past₁.next (past₂.next past₃), negatable_of_form form nofun⟩
  · rename_i kind
    refine (take_gives past.closed (sees.goes kind nofun)).bind fun mark s₁ past₁ _ => ?_
    refine (inner.unary s₁ (enough.later past₁ (by decide))).bind fun operand s₂ past₂ small => ?_
    refine (negation_gives past₂.closed mark.span operand small).bind fun form s₃ past₃ small => ?_
    exact (node_gives past₃.closed _ _).last fun _ _ past₄ same =>
      ⟨past₁.next (past₂.next (past₃.next past₄)), negatable_of_form same small⟩
  · refine (inner.primary s (enough.step past (by decide))).bind fun e s₁ past₁ small => ?_
    exact (inner.members e s₁ (enough.later past₁ (by decide)) small).last fun _ _ past₂ small =>
      ⟨past₁.next past₂, small⟩

theorem members_gives (e : Expr) (enough : Enough (fuel + 1) 1 s.tokens)
    (small : e.form.Negatable) : Gives (members (fuel + 1) e) s 0 negatable := by
  have past := Past.refl enough.closed
  unfold members
  refine kindAhead_reads past.closed fun t sees => ?_
  split
  · rename_i dot
    refine (pass_gives past.closed (sees.goes_beq dot nofun)).bind fun _ s₁ past₁ _ => ?_
    refine (passNewlines_gives past₁.closed).bind fun _ s₂ past₂ _ => ?_
    have past₂ := past₁.next past₂
    refine ahead_reads past₂.closed fun name sees => ?_
    dsimp only
    split
    · rename_i kind
      have goes : Goes s₂.tokens := ⟨name, sees, fun ending => by
        rw [ending] at kind
        cases kind⟩
      refine (pass_gives past₂.closed goes).bind fun _ s₃ past₃ _ => ?_
      have past₃ := past₂.next past₃
      refine (inner.call (some e) name s₃ (enough.later past₃ (by decide))).bind
        fun c s₄ past₄ small => ?_
      have past₄ := past₃.next past₄
      exact (inner.members c s₄ (enough.later past₄ (by decide)) small).last fun _ _ past₅ small =>
        ⟨past₅.after past₄, small⟩
    · exact unexpected_bind_reads past₂.closed _
  · exact .pure ⟨past, small⟩

theorem callWith_gives (receiver : Option Expr) (name : Token) (args : List Expr)
    (enough : Enough fuel 1 s.tokens) : Gives (callWith fuel receiver name args) s 0 negatable := by
  refine kindAhead_reads enough.closed fun t sees => ?_
  split
  · rename_i kind
    have goes : Goes s.tokens := ⟨t, sees, fun ending => by
      rw [ending] at kind
      cases kind⟩
    refine (inner.block s enough goes).bind fun b s₁ past₁ _ => ?_
    exact (node_gives past₁.closed _ _).last fun _ _ past₂ form =>
      ⟨(past₁.next past₂).any, negatable_of_form form nofun⟩
  · exact (node_gives enough.closed _ _).last fun _ _ past₁ form =>
      ⟨past₁, negatable_of_form form nofun⟩

theorem call_gives (receiver : Option Expr) (name : Token) (enough : Enough (fuel + 1) 8 s.tokens) :
    Gives (call (fuel + 1) receiver name) s 0 negatable := by
  rw [call_eq]
  refine (inner.arguments s (enough.step (.refl enough.closed) (by decide))).bind
    fun args s₁ past₁ _ => ?_
  exact (callWith_gives inner receiver name args (enough.step past₁ (by decide))).last
    fun _ _ past₂ small => ⟨past₁.next past₂, small⟩

theorem arguments_gives (enough : Enough (fuel + 1) 7 s.tokens) :
    Gives (arguments (fuel + 1)) s 0 anything := by
  have past := Past.refl enough.closed
  unfold arguments
  refine kindAhead_reads past.closed fun t sees => ?_
  split
  · rename_i opening
    refine (pass_gives past.closed (sees.goes_beq opening nofun)).bind
      fun _ s₁ past₁ _ => ?_
    refine (passNewlines_gives past₁.closed).bind fun _ s₂ past₂ _ => ?_
    have past₂ := past₁.next past₂
    refine (inner.argumentsTail s₂ (enough.later past₂ (by decide))).bind fun args s₃ past₃ _ => ?_
    refine (expect_gives past₃.closed (by nofun) _).bind fun _ s₄ past₄ _ => ?_
    exact .pure ⟨(past₂.next (past₃.next past₄)).any, trivial⟩
  split
  · exact (inner.commandArguments s (enough.step past (by decide))).last fun _ _ past₁ _ =>
      ⟨past₁.any, trivial⟩
  · exact .pure ⟨past, trivial⟩

theorem argumentsTail_gives (enough : Enough (fuel + 1) 6 s.tokens) :
    Gives (argumentsTail (fuel + 1)) s 0 anything := by
  have past := Past.refl enough.closed
  rw [argumentsTail_eq]
  refine kindAhead_reads past.closed fun t sees => ?_
  split
  · exact .pure ⟨past, trivial⟩
  refine (inner.expression s (enough.step past (by decide))).bind fun first s₁ past₁ _ => ?_
  refine (passNewlines_gives past₁.closed).bind fun _ s₂ past₂ _ => ?_
  refine (separator_gives past₂.closed (looseComma_gives past₂.closed)).bind fun _ s₃ past₃ _ => ?_
  have past₃ := past₁.next (past₂.next past₃)
  exact (inner.argumentsTail s₃ (enough.later past₃ (by decide))).bind fun _ _ past₄ _ =>
    .pure ⟨past₄.after past₃, trivial⟩

theorem commandArguments_gives (enough : Enough (fuel + 1) 6 s.tokens) :
    Gives (commandArguments (fuel + 1)) s 1 anything := by
  unfold commandArguments
  refine (inner.expression s (enough.step (.refl enough.closed) (by decide))).bind
    fun first s₁ past₁ _ => ?_
  refine kindAhead_reads past₁.closed fun t sees => ?_
  split
  · rename_i comma
    refine (pass_gives past₁.closed (sees.goes_beq comma nofun)).bind
      fun _ s₂ past₂ _ => ?_
    refine (passNewlines_gives past₂.closed).bind fun _ s₃ past₃ _ => ?_
    have past₃ := past₁.next (past₂.next past₃)
    exact (inner.commandArguments s₃ (enough.later past₃ (by decide))).bind fun _ s₄ past₄ _ =>
      .pure ⟨past₃.next past₄, trivial⟩
  · exact .pure ⟨past₁, trivial⟩

theorem block_gives (enough : Enough (fuel + 1) 1 s.tokens) (goes : Goes s.tokens) :
    Gives (block (fuel + 1)) s 1 anything := by
  unfold block
  refine (take_gives enough.closed goes).bind fun opening s₁ past₁ _ => ?_
  refine (newId_gives past₁.closed).bind fun id s₂ past₂ _ => ?_
  have past₂ := past₁.next past₂
  refine (blockParameters_gives (enough.later past₂ (by decide))).bind fun ps s₃ past₃ _ => ?_
  have past₃ := past₂.next past₃
  have inside (closes : TokenKind → Bool) (s₄ : ParserState) (same : s₄.tokens = s₃.tokens) :
      Gives (body fuel closes) s₄ 0 anything := by
    have past₄ : Past 1 s.tokens s₄.tokens := same ▸ past₃
    exact (inner.body closes s₄ (enough.later past₄ (by decide))).last fun _ _ past₅ _ =>
      ⟨past₅, trivial⟩
  refine (withLocals_gives _ (inside _)).bind fun statements s₄ past₄ _ => ?_
  refine ahead_reads past₄.closed fun closing _ => ?_
  dsimp only
  split
  · exact (expect_gives past₄.closed (by nofun) _).bind fun _ s₅ past₅ _ =>
      .pure ⟨past₃.next (past₄.next past₅), trivial⟩
  · exact (expect_gives past₄.closed (by nofun) _).bind fun _ s₅ past₅ _ =>
      .pure ⟨past₃.next (past₄.next past₅), trivial⟩

theorem primary_gives (enough : Enough (fuel + 1) 2 s.tokens) :
    Gives (primary (fuel + 1)) s 1 negatable := by
  have past := Past.refl enough.closed
  unfold primary
  refine ahead_reads past.closed fun t sees => ?_
  have leaf (form : Form) (small : form.Negatable) (other : t.kind ≠ .ending) :
      Gives (pass >>= fun _ => node t.span form) s 1 negatable :=
    (pass_gives past.closed ⟨t, sees, other⟩).bind fun _ _ past₁ _ =>
      (node_gives past₁.closed _ _).last fun _ _ past₂ same =>
        ⟨past₁.next past₂, negatable_of_form same small⟩
  split
  · rename_i l literal
    have other : t.kind ≠ .ending := fun ending => by
      rw [ending] at literal
      cases literal
    have inner := past.closed.inner sees other
    refine leaf _ (fun n same => inner.negatable n ?_) other
    cases same
    exact literal?_integer literal
  split
  · rename_i kind
    refine (pass_gives past.closed (sees.goes kind nofun)).bind fun _ s₁ past₁ _ => ?_
    refine (isVariable_gives past₁.closed _).bind fun known s₂ past₂ _ => ?_
    have past₂ := past₁.next past₂
    have read : Gives (node t.span (.read ⟨.local, t.lexeme⟩)) s₂ 0 negatable :=
      (node_gives past₂.closed _ _).last fun _ _ past₃ form => ⟨past₃, negatable_of_form form nofun⟩
    refine kindAhead_reads past₂.closed fun _ _ => ?_
    split
    · exact read.last fun _ _ past₃ small => ⟨past₂.next past₃, small⟩
    · exact (inner.call none t s₂ (enough.later past₂ (by decide))).last fun _ _ past₃ small =>
        ⟨past₂.next past₃, small⟩
  · rename_i kind
    exact leaf _ nofun (kind ▸ nofun)
  · rename_i kind
    exact leaf _ nofun (kind ▸ nofun)
  · rename_i kind
    exact leaf _ nofun (kind ▸ nofun)
  · rename_i kind
    exact leaf _ nofun (kind ▸ nofun)
  · rename_i kind
    refine (pass_gives past.closed (sees.goes kind nofun)).bind fun _ s₁ past₁ _ => ?_
    refine (passNewlines_gives past₁.closed).bind fun _ s₂ past₂ _ => ?_
    have past₂ := past₁.next past₂
    refine (inner.expression s₂ (enough.later past₂ (by decide))).bind fun e s₃ past₃ small => ?_
    refine (passNewlines_gives past₃.closed).bind fun _ s₄ past₄ _ => ?_
    refine ahead_reads past₄.closed fun _ _ => ?_
    exact (expect_gives past₄.closed (by nofun) _).bind fun _ s₅ past₅ _ =>
      .pure ⟨past₂.next (past₃.next (past₄.next past₅)), small⟩
  · rename_i kind
    refine (pass_gives past.closed (sees.goes kind nofun)).bind fun _ s₁ past₁ _ => ?_
    refine (inner.arguments s₁ (enough.later past₁ (by decide))).bind fun args s₂ past₂ _ => ?_
    exact (node_gives past₂.closed _ _).last fun _ _ past₃ form =>
      ⟨past₁.next (past₂.next past₃), negatable_of_form form nofun⟩
  · rename_i kind
    refine (pass_gives past.closed (sees.goes kind nofun)).bind fun _ s₁ past₁ _ => ?_
    refine (inner.exitValue s₁ (enough.later past₁ (by decide))).bind fun value s₂ past₂ _ => ?_
    exact (node_gives past₂.closed _ _).last fun _ _ past₃ form =>
      ⟨past₁.next (past₂.next past₃), negatable_of_form form nofun⟩
  · rename_i kind
    refine (pass_gives past.closed (sees.goes kind nofun)).bind fun _ s₁ past₁ _ => ?_
    refine (inner.exitValue s₁ (enough.later past₁ (by decide))).bind fun value s₂ past₂ _ => ?_
    exact (node_gives past₂.closed _ _).last fun _ _ past₃ form =>
      ⟨past₁.next (past₂.next past₃), negatable_of_form form nofun⟩
  · rename_i kind
    exact inner.conditional .if s (enough.step past (by decide)) (sees.goes kind nofun)
  · rename_i kind
    exact inner.conditional .unless s (enough.step past (by decide)) (sees.goes kind nofun)
  · rename_i kind
    exact inner.loop s (enough.step past (by decide)) (sees.goes kind nofun)
  · exact unexpected_reads past.closed _

theorem exitValue_gives (enough : Enough (fuel + 1) 6 s.tokens) :
    Gives (exitValue (fuel + 1)) s 0 anything := by
  have past := Past.refl enough.closed
  unfold exitValue
  refine kindAhead_reads past.closed fun t sees => ?_
  split
  · exact (inner.expression s (enough.step past (by decide))).map fun _ _ past₁ _ =>
      ⟨past₁.any, trivial⟩
  · exact .pure ⟨past, trivial⟩

theorem elseBranch_gives {t : Token} (enough : Enough fuel 7 s.tokens) (sees : Sees s.tokens t) :
    Gives (elseBranch fuel t.kind) s 0 anything := by
  unfold elseBranch
  split
  · rename_i kind
    refine (pass_gives enough.closed (sees.goes_beq kind nofun)).bind fun _ s₁ past₁ _ => ?_
    exact (inner.body _ s₁ (enough.past past₁ (by decide))).map fun _ _ past₂ _ =>
      ⟨past₂.after past₁, trivial⟩
  · exact .pure ⟨.refl enough.closed, trivial⟩

theorem conditional_gives (kind : ConditionKind) (enough : Enough (fuel + 1) 1 s.tokens)
    (goes : Goes s.tokens) : Gives (conditional (fuel + 1) kind) s 1 negatable := by
  rw [conditional_eq]
  refine (take_gives enough.closed goes).bind fun start s₁ past₁ _ => ?_
  refine (inner.expression s₁ (enough.later past₁ (by decide))).bind fun condition s₂ past₂ _ => ?_
  have past₂ := past₁.next past₂
  refine (inner.body _ s₂ (enough.later past₂ (by decide))).bind fun consequent s₃ past₃ _ => ?_
  have past₃ := past₂.next past₃
  refine kindAhead_reads past₃.closed fun t sees => ?_
  split
  · rename_i another
    rw [Bool.and_eq_true] at another
    have goes := sees.goes_beq another.1 nofun
    refine (inner.conditional .if s₃ (enough.later past₃ (by decide)) goes).bind
      fun nested s₄ past₄ _ => ?_
    exact (node_gives past₄.closed _ _).last fun _ _ past₅ form =>
      ⟨past₃.next (past₄.next past₅), negatable_of_form form nofun⟩
  · refine (elseBranch_gives inner (enough.later past₃ (by decide)) sees).bind
      fun other s₄ past₄ _ => ?_
    refine ahead_reads past₄.closed fun last _ => ?_
    refine (expect_gives past₄.closed (by nofun) _).bind fun _ s₅ past₅ _ => ?_
    exact (node_gives past₅.closed _ _).last fun _ _ past₆ form =>
      ⟨past₃.next (past₄.next (past₅.next past₆)), negatable_of_form form nofun⟩

theorem loop_gives (enough : Enough (fuel + 1) 1 s.tokens) (goes : Goes s.tokens) :
    Gives (loop (fuel + 1)) s 1 negatable := by
  unfold loop
  refine (take_gives enough.closed goes).bind fun start s₁ past₁ _ => ?_
  refine (inner.expression s₁ (enough.later past₁ (by decide))).bind fun condition s₂ past₂ _ => ?_
  have past₂ := past₁.next past₂
  refine (inner.body _ s₂ (enough.later past₂ (by decide))).bind fun statements s₃ past₃ _ => ?_
  refine ahead_reads past₃.closed fun last _ => ?_
  refine (expect_gives past₃.closed (by nofun) _).bind fun _ s₄ past₄ _ => ?_
  exact (node_gives past₄.closed _ _).last fun _ _ past₅ form =>
    ⟨past₂.next (past₃.next (past₄.next past₅)), negatable_of_form form nofun⟩

end Steps

/-- The readers are total wherever the fuel is enough for them. -/
theorem total (fuel : Nat) : Total fuel := by
  induction fuel with
  | zero => exact .none
  | succ fuel inner => exact
    { body := fun _ _ => body_gives inner
      statement := fun _ => statement_gives inner
      modifiers := fun e _ => modifiers_gives inner e
      defExpression := fun _ => defExpression_gives inner
      methodDefinition := fun _ => methodDefinition_gives inner
      methodDefinitions := fun _ => methodDefinitions_gives inner
      classDefinition := fun _ => classDefinition_gives inner
      expression := fun _ => expression_gives inner
      assignment := fun target _ => assignment_gives inner target
      operators := fun level _ => operators_gives inner level
      operatorsAfter := fun level left _ => operatorsAfter_gives inner level left
      unary := fun _ => unary_gives inner
      members := fun e _ => members_gives inner e
      call := fun receiver name _ => call_gives inner receiver name
      arguments := fun _ => arguments_gives inner
      argumentsTail := fun _ => argumentsTail_gives inner
      commandArguments := fun _ => commandArguments_gives inner
      block := fun _ => block_gives inner
      primary := fun _ => primary_gives inner
      exitValue := fun _ => exitValue_gives inner
      conditional := fun kind _ => conditional_gives inner kind
      loop := fun _ => loop_gives inner }

/-- From closed tokens the statements are read up to the ending, or a token is refused. -/
theorem statements_reads {tokens : List Token} (closed : Closed tokens) (first : NodeId) :
    (∃ es s last, statements first tokens = .ok (es, s) ∧ last.kind = .ending ∧
      s.tokens = [last] ∧ [last] <:+ tokens) ∨
    ∃ e, statements first tokens = .error (.unexpected e) := by
  have enough : Enough (16 * tokens.length + 16) 7 tokens := ⟨closed, by omega⟩
  rcases (total _).body endsModule ⟨tokens, none, first, []⟩ enough with
    ⟨es, s, run, past, t, ⟨rest, same⟩, ends⟩ | refused
  · have ending : t.kind = .ending := ends.elim id beq_iff_eq.1
    have closed := past.closed
    have suffix := past.suffix
    rw [same] at closed suffix
    cases closed with
    | ending _ => exact .inl ⟨es, s, t, run, ending, same, suffix⟩
    | cons inner _ => exact absurd ending inner.ne_ending
  · exact .inr refused

end Parser

namespace Module

/-- A text is refused by the scanner or cut into tokens that end with their only ending. From these
the reader refuses a token, or gives a module with only the ending left; it never looks past the
ending, takes a token before the first one, negates the least integer or runs out of fuel. -/
theorem front_end_total (text : String) (first : NodeId) :
    (∃ e, Token.scan text = .error e) ∨
    ∃ before last, Token.scan text = .ok (before ++ [last]) ∧ last.kind = .ending ∧
      (∀ t ∈ before, t.kind ≠ .ending) ∧
      ((∃ e, Parser.statements first (before ++ [last]) = .error (.unexpected e) ∧
          parse first (before ++ [last]) = .error (.unexpected e)) ∨
        ∃ es s, Parser.statements first (before ++ [last]) = .ok (es, s) ∧ s.tokens = [last] ∧
          parse first (before ++ [last]) = .ok (⟨es⟩, s.nextId)) := by
  cases scanned : Token.scan text with
  | error e => exact .inl ⟨e, rfl⟩
  | ok tokens =>
    have closed := Token.scan_closed scanned
    obtain ⟨before, last, rfl, ending, others⟩ := closed.split
    refine .inr ⟨before, last, rfl, ending, others, ?_⟩
    rcases Parser.statements_reads closed first with
      ⟨es, s, t, run, -, left, suffix⟩ | ⟨e, run⟩
    · refine .inr ⟨es, s, run, ?_, by rw [parse, run]⟩
      have same : t = last := by
        obtain ⟨passed, same⟩ := suffix
        exact List.singleton_inj.1 (List.append_inj_right' same rfl)
      rw [left, same]
    · exact .inl ⟨e, run, by rw [parse, run]; rfl⟩

end Module

end TypedBlocks

import TypedBlocks.Proofs.EvaluationSteps

/-!
# Longer runs

One evaluation follows another if it does the same unless it stops early in a way that is known. With
less fuel an evaluation follows the one with more: a run that ends does so with any larger amount of
fuel as well.
-/
namespace TypedBlocks.Typed

section Following

variable {α β : Type} {P : Stop → Prop}

/-- The first evaluation is the second one, unless it stops in the given way. -/
def Follows (P : Stop → Prop) (x y : Eval α) : Prop :=
  ∀ m, x m = y m ∨ ∃ stop m', P stop ∧ x m = .error stop m'

theorem follows_refl (x : Eval α) : Follows P x x := fun _ => .inl rfl

theorem Follows.trans {x y z : Eval α} (first : Follows P x y) (second : Follows P y z) :
    Follows P x z := by
  intro m
  rcases first m with same | stopped
  · rw [same]
    exact second m
  · exact .inr stopped

theorem follows_bind {x y : Eval α} {f g : α → Eval β} (first : Follows P x y)
    (rest : ∀ a, Follows P (f a) (g a)) : Follows P (x >>= f) (y >>= g) := by
  intro m
  simp only [bind, EStateM.bind]
  rcases first m with same | ⟨stop, m', known, stopped⟩
  · rw [same]
    cases y m with
    | ok a m₁ => exact rest a m₁
    | error stop m₁ => exact .inl rfl
  · rw [stopped]
    exact .inr ⟨stop, m', known, rfl⟩

theorem follows_withSlots {slots : Array Value} {x y : Eval α} (inner : Follows P x y) :
    Follows P (Eval.withSlots slots x) (Eval.withSlots slots y) := by
  intro m
  unfold Eval.withSlots
  rcases inner { m with slots } with same | ⟨stop, m', known, stopped⟩
  · rw [same]
    exact .inl rfl
  · rw [stopped]
    exact .inr ⟨stop, _, known, rfl⟩

variable {run run' : Expr → Eval Value} (follows : ∀ e, Follows P (run e) (run' e))

include follows

theorem follows_mapM (es : List Expr) : Follows P (es.mapM run) (es.mapM run') := by
  induction es with
  | nil => exact follows_refl _
  | cons e es ih =>
    rw [List.mapM_cons, List.mapM_cons]
    exact follows_bind (follows e) fun _ => follows_bind ih fun _ => follows_refl _

theorem follows_sequence (last : Value) (es : List Expr) :
    Follows P (evalSequence run last es) (evalSequence run' last es) := by
  induction es generalizing last with
  | nil => exact follows_refl _
  | cons e es ih => exact follows_bind (follows e) fun v => ih v

-- A call or a loop would catch an exit.
variable (final : ∀ e, ¬ P (.exit e))

include final

omit follows in
theorem follows_landing {land : Exit → Option Value} {x y : Eval Value} (inner : Follows P x y) :
    Follows P (Eval.landing land x) (Eval.landing land y) := by
  intro m
  unfold Eval.landing
  rcases inner m with same | ⟨stop, m', known, stopped⟩
  · rw [same]
    exact .inl rfl
  · rw [stopped]
    cases stop with
    | exit e => exact absurd known (final e)
    | fault f => exact .inr ⟨_, m', known, rfl⟩
    | outOfFuel => exact .inr ⟨_, m', known, rfl⟩

omit follows in
theorem follows_loop {id : LoopId} {test test' body body' rest rest' : Eval Value}
    (tests : Follows P test test') (bodies : Follows P body body') (rests : Follows P rest rest') :
    Follows P (loopRound id test body rest) (loopRound id test' body' rest') := by
  intro m
  rw [loopRound, loopRound]
  rcases tests m with same | ⟨stop, m', known, stopped⟩
  · rw [same]
    cases test' m with
    | error stop m₁ => exact .inl rfl
    | ok c m₁ =>
      dsimp only
      split
      · rcases bodies m₁ with same | ⟨stop, m', known, stopped⟩
        · rw [same]
          split
          · exact rests _
          · exact .inl rfl
          · exact .inl rfl
        · rw [stopped]
          cases stop with
          | exit e => exact absurd known (final e)
          | fault f => exact .inr ⟨_, m', known, rfl⟩
          | outOfFuel => exact .inr ⟨_, m', known, rfl⟩
      · exact .inl rfl
  · rw [stopped]
    exact .inr ⟨stop, m', known, rfl⟩

theorem follows_invoke (m : Method) (receiver : Value) (arguments : List Value) :
    Follows P (m.invoke run receiver arguments) (m.invoke run' receiver arguments) :=
  follows_withSlots (follows_landing final (follows m.body))

theorem evalNode_follows (p : Program) (e : Expr) :
    Follows P (p.evalNode run e) (p.evalNode run' e) := by
  rcases e with ⟨ty, node⟩
  cases node with
  | literal _ | slot _ | instanceVar _ _ | global _ | constant _ | classRef _ | mainObject =>
    exact follows_refl _
  | assign _ value | assignInstanceVar _ _ value | assignGlobal _ value | assignConstant _ value =>
    exact follows_bind (follows value) fun _ => follows_refl _
  | not operand => exact follows_bind (follows operand) fun _ => follows_refl _
  | «return» target value => exact follows_bind (follows value) fun _ => follows_refl _
  | «break» target value => exact follows_bind (follows value) fun _ => follows_refl _
  | sequence parts => exact follows_sequence follows _ parts
  | conditional condition consequent alternative =>
    refine follows_bind (follows condition) fun v => ?_
    split
    · exact follows consequent
    · exact follows alternative
  | and left right =>
    refine follows_bind (follows left) fun v => ?_
    split
    · exact follows right
    · exact follows_refl _
  | or left right =>
    refine follows_bind (follows left) fun v => ?_
    split
    · exact follows_refl _
    · exact follows right
  | «while» id condition body =>
    rw [Program.evalNode_while, Program.evalNode_while]
    exact follows_loop final (follows condition) (follows body) (follows _)
  | call method receiver arguments =>
    refine follows_bind (follows receiver) fun r =>
      follows_bind (follows_mapM follows arguments) fun vs => ?_
    exact follows_bind (follows_refl _) fun m => follows_invoke follows final m r vs
  | primitive operation receiver arguments =>
    exact follows_bind (follows receiver) fun r =>
      follows_bind (follows_mapM follows arguments) fun vs => follows_refl _
  | construct className initializer arguments =>
    refine follows_bind (follows_mapM follows arguments) fun vs =>
      follows_bind (follows_refl _) fun object => ?_
    cases initializer with
    | none => exact follows_refl _
    | some id =>
      exact follows_bind (follows_refl _) fun m =>
        follows_bind (follows_invoke follows final m object vs) fun _ => follows_refl _
  | foreign lib name arguments =>
    exact follows_bind (follows_mapM follows arguments) fun _ => follows_refl _
  | inline call =>
    exact follows_bind (follows call.receiver) fun r =>
      follows_bind (follows_mapM follows call.arguments) fun vs =>
        follows_bind (follows_refl _) fun _ => follows_landing final (follows call.body)
  | yield parameters locals arguments body =>
    exact follows_bind (follows_mapM follows arguments) fun vs =>
      follows_bind (follows_refl _) fun _ => follows body
  | dispatch scrutinees temps arms =>
    refine follows_bind (follows_mapM follows scrutinees) fun vs =>
      follows_bind (follows_refl _) fun _ => ?_
    split
    · exact follows _
    · exact follows_refl _

end Following

/-- The evaluation takes no more fuel than the other one. -/
abbrev Below {α : Type} (x y : Eval α) : Prop := Follows (· = .outOfFuel) x y

section Fuel

variable {p : Program} {fuel fuel' : Nat}

theorem eval_below (more : fuel ≤ fuel') (e : Expr) : Below (p.eval fuel e) (p.eval fuel' e) := by
  induction fuel generalizing fuel' e with
  | zero => exact fun m => .inr ⟨_, m, rfl, rfl⟩
  | succ fuel ih =>
    cases fuel' with
    | zero => cases more
    | succ fuel' => exact evalNode_follows (ih (Nat.le_of_succ_le_succ more)) nofun p e

/-- The type of an expression plays no part in its evaluation. -/
theorem eval_retyped (t u : Option Ty) (n : Node) : p.eval fuel ⟨t, n⟩ = p.eval fuel ⟨u, n⟩ := by
  induction fuel with
  | zero => rfl
  | succ fuel ih =>
    cases n with
    | «while» id condition body =>
      simp only [Program.eval, Program.evalNode]
      rw [ih]
    | _ => rfl

/-- Nothing of a program but its methods plays a part in the evaluation of an expression. -/
theorem eval_methods {q : Program} (methods : q.methods = p.methods) (fuel : Nat) :
    q.eval fuel = p.eval fuel := by
  induction fuel with
  | zero => rfl
  | succ fuel ih =>
    funext e
    obtain ⟨main, ms, captures, layouts⟩ := p
    obtain ⟨main', ms', captures', layouts'⟩ := q
    cases methods
    simp only [Program.eval]
    rw [ih]
    obtain ⟨ty, node⟩ := e
    cases node <;> rfl

/-- The run ends in this way, given enough fuel. -/
def Program.Finishes (p : Program) (a : Answer) (m : Machine) : Prop :=
  a ≠ .outOfFuel ∧ ∃ fuel, p.run fuel = (a, m)

/-- A run ends as one does whose top-level body takes no more fuel. -/
theorem run_of_below {q : Program} {a : Answer} {m : Machine}
    (below : Below (p.main.invoke (p.eval fuel) .main []) (q.main.invoke (q.eval fuel') .main []))
    (ends : a ≠ .outOfFuel) (run : p.run fuel = (a, m)) : q.run fuel' = (a, m) := by
  unfold Program.run Program.runFrom at run ⊢
  rcases below Machine.empty with same | ⟨stop, m', rfl, stopped⟩
  · rw [← same]
    exact run
  · rw [stopped] at run
    exact absurd (Prod.mk.inj run).1.symm ends

theorem run_longer (more : fuel ≤ fuel') {a : Answer} {m : Machine} (ends : a ≠ .outOfFuel)
    (run : p.run fuel = (a, m)) : p.run fuel' = (a, m) :=
  run_of_below (follows_invoke (eval_below more) nofun p.main .main []) ends run

/-- A program has only one way to end. -/
theorem Program.Finishes.unique {a b : Answer} {m n : Machine} (first : p.Finishes a m)
    (second : p.Finishes b n) : a = b ∧ m = n := by
  obtain ⟨ends, fuel, run⟩ := first
  obtain ⟨ends', fuel', run'⟩ := second
  have longer := run_longer (Nat.le_max_left fuel fuel') ends run
  rw [run_longer (Nat.le_max_right fuel fuel') ends' run'] at longer
  exact (Prod.mk.inj longer).imp Eq.symm Eq.symm

end Fuel

end TypedBlocks.Typed

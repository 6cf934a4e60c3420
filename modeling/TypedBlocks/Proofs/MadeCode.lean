import TypedBlocks.Proofs.Completions
import TypedBlocks.Proofs.ElaborationSteps

/-!
# What elaborations make

Every construct is elaborated to a node of its own, unless an operand stops early and stands for the
whole. A property that all such results have is one of every elaborated expression.
-/
namespace TypedBlocks.Inference

open Pass

/-- All results of the step have the property. -/
def Pass.Always (P : Elaborated → Prop) (x : Pass Elaborated) : Prop :=
  ∀ s l s', x s = some (l, s') → P l

/-- The property holds of whatever a construct can make: a node that is no literal, a body without
statements, operands of which the last stops, and a call behind its operands. -/
structure Made (P : Elaborated → Prop) : Prop where
  node : ∀ node ends, (∀ v, node ≠ .literal v) → P (.ofNode node ends)
  nil : P Elaborated.nil
  stopped : ∀ parts ends, ends.normal = none → P ⟨Typed.Expr.ofParts parts none, ends⟩
  after : ∀ l (ends : Completions), ends.fallsThrough = true → P l →
    P ⟨l.code, ends.andThen l.ends⟩

variable {P : Elaborated → Prop} {cx : Setting} {elaborate : Elaborate} {here : Place}

theorem Pass.always_pure {l : Elaborated} (holds : P l) : Pass.Always P (pure l) := by
  intro s l' s' h
  obtain ⟨rfl, -⟩ := pure_eq_some.1 h
  exact holds

theorem Pass.always_bind {α : Type} {x : Pass α} {f : α → Pass Elaborated}
    (holds : ∀ a, (f a).Always P) : (x >>= f).Always P := by
  intro s l s' h
  obtain ⟨a, s₁, -, h⟩ := bind_eq_some.1 h
  exact holds a s₁ l s' h

theorem withOperand_always {operand : Expr} {next : Elaborated → Ty → Pass Elaborated}
    (stops : (elaborate here operand).Always fun l => l.ends.normal = none → P l)
    (rest : ∀ l t, (next l t).Always P) :
    (withOperand elaborate here operand next).Always P := by
  intro s l s' h
  obtain ⟨first, s₁, run, ⟨t, -, h⟩ | ⟨normal, rfl, -⟩⟩ := withOperand_steps h
  · exact rest first t s₁ l s' h
  · exact stops s l s₁ run normal

section Constructs

variable (made : Made P)

include made

theorem Made.failed : P Elaborated.failed := made.node (.sequence []) Completions.never nofun

theorem Made.fail (e : StaticError) : (Pass.fail e).Always P :=
  always_bind fun _ => always_pure made.failed

theorem withOperands_always {operands : List Expr}
    {next : List Typed.Expr → Completions → Pass Elaborated}
    (rest : ∀ parts ends, ends.fallsThrough = true → (next parts ends).Always P) :
    (withOperands elaborate here operands next).Always P := by
  intro s l s' h
  obtain ⟨parts, ends, s₁, -, ⟨falls, h⟩ | ⟨stops, rfl, -⟩⟩ := withOperands_steps h
  · exact rest parts ends falls s₁ l s' h
  · exact made.stopped parts ends (by simpa [Completions.fallsThrough] using stops)

theorem elaborateRead_always {span : Span} {v : Variable} :
    (elaborateRead cx here span v).Always P := by
  intro s l s' h
  rcases elaborateRead_steps h with ⟨_, _, rfl⟩ | ⟨_, _, rfl, _⟩ | ⟨_, _, _, _, rfl⟩ |
    ⟨_, _, rfl⟩ | ⟨_, _, _, rfl⟩ | ⟨_, _, rfl⟩
  · exact made.node _ _ nofun
  · exact made.failed
  all_goals exact made.node _ _ nofun

theorem elaborateAssignment_always {span : Span} {v : Variable} {value : Expr}
    (stops : (elaborate here value).Always fun l => l.ends.normal = none → P l) :
    (elaborateAssignment cx elaborate here span v value).Always P := by
  refine withOperand_always stops fun l t => ?_
  split
  · exact always_bind fun _ => always_bind fun _ => always_bind fun _ =>
      always_pure (made.node _ _ (by rintro _ ⟨⟩))
  · split
    · exact made.fail _
    · exact always_bind fun _ => always_pure (made.node _ _ (by rintro _ ⟨⟩))
  · exact always_bind fun _ => always_pure (made.node _ _ (by rintro _ ⟨⟩))
  · exact always_bind fun _ => always_pure (made.node _ _ (by rintro _ ⟨⟩))

theorem elaborateExit_always {id : NodeId} {span : Span} {keyword : String} {value : Option Expr}
    (stops : ∀ e, (elaborate here e).Always fun l => l.ends.normal = none → P l) :
    (elaborateExit cx elaborate here id span keyword value).Always P := by
  have leave (l : Elaborated) (t : Ty) :
      (leaveTo l t keyword span (exitTarget? cx here id)).Always P := by
    unfold leaveTo
    split
    · exact always_pure (made.node _ _ (by rintro _ ⟨⟩))
    · exact always_pure (made.node _ _ (by rintro _ ⟨⟩))
    · exact made.fail _
  cases value with
  | none => exact leave Elaborated.nil Ty.nil
  | some e => exact withOperand_always (stops e) leave

theorem elaborateConstruct_always {call : CallSyntax} {className : String}
    {arguments : List Typed.Expr} {types : List Ty} :
    (elaborateConstruct cx elaborate here call className arguments types).Always P := by
  refine always_bind fun ts => ?_
  dsimp only
  split
  · refine always_bind fun _ => always_bind fun ts' => ?_
    split
    · exact always_bind fun _ => always_pure (made.node _ _ nofun)
    · exact always_pure (made.node _ _ nofun)
  · split
    · exact always_bind fun _ => always_pure (made.node _ _ nofun)
    · exact made.fail _

theorem elaborateMethodCall_always {call : CallSyntax} {m : MethodEntry} {receiver : Typed.Expr}
    {receiverType : Ty} {arguments : List Typed.Expr} {types : List Ty} :
    (elaborateMethodCall cx elaborate here call m receiver receiverType arguments
      types).Always P := by
  intro s l s' h
  rcases elaborateMethodCall_steps h with ⟨-, block, -, h⟩ | ⟨-, -, rfl, -⟩ | ⟨-, id, -, rfl⟩
  · rcases expandCall_steps h with ⟨-, rfl, -⟩ | ⟨-, parameters, s₁, body, s₂, -, -, -, rfl⟩
    · exact made.failed
    · exact made.node _ _ nofun
  · exact made.failed
  · exact made.node _ _ nofun

theorem elaborateArm_always {call : CallSyntax} {operands : List Typed.Expr} {types : List Ty} :
    (elaborateArm cx elaborate here call operands types).Always P := by
  simp only [elaborateArm]
  cases types with
  | nil => exact made.fail _
  | cons receiverType argumentTypes =>
    dsimp only
    split
    · exact made.fail _
    · exact always_pure (made.node _ _ (by rintro _ ⟨⟩))
    · exact elaborateConstruct_always made
    · exact always_pure (made.node _ _ (by rintro _ ⟨⟩))
    · split
      · exact made.fail _
      · exact elaborateMethodCall_always made

theorem elaborateDispatch_always {call : CallSyntax} {operands : List Typed.Expr}
    {types : List Ty} : (elaborateDispatch cx elaborate here call operands types).Always P := by
  simp only [elaborateDispatch]
  split
  · split
    · exact made.fail _
    · exact always_bind fun _ => always_bind fun _ => always_bind fun _ => always_bind fun _ =>
        always_pure (made.node _ _ (by rintro _ ⟨⟩))
  · exact elaborateArm_always made

/-- What all constructs make has the property, if literals have it and parts that stop early. -/
theorem elaborateForm_always {e : Expr}
    (literal : ∀ v, e.form = .literal v → P (.ofNode (.literal v) (.ofNormal (literalTy v))))
    (stops : ∀ here e, (elaborate here e).Always fun l => l.ends.normal = none → P l) :
    (elaborateForm cx elaborate here e).Always P := by
  simp only [elaborateForm]
  cases form : e.form with
  | literal v => exact always_pure (literal v form)
  | self => exact always_pure (made.node _ _ nofun)
  | defMethod _ | defClass _ | defLib _ => exact always_pure made.nil
  | read v => exact elaborateRead_always made
  | assign v _ value => exact elaborateAssignment_always made (stops here value)
  | call receiver name nameSpan arguments block =>
    refine withOperands_always made fun parts ends falls s l s' h => ?_
    obtain ⟨sent, s₁, run, h⟩ := bind_eq_some.1 h
    obtain ⟨rfl, rfl⟩ := pure_eq_some.1 h
    exact made.after sent ends falls (elaborateDispatch_always made _ _ _ run)
  | yield arguments =>
    refine withOperands_always made fun parts ends _ => ?_
    dsimp only
    split
    · exact always_bind fun _ => always_bind fun _ => always_bind fun _ => always_bind fun _ =>
        always_pure (made.node _ _ nofun)
    · exact made.fail _
  | «return» value | «break» value => exact elaborateExit_always made (stops here)
  | conditional kind condition consequent alternative =>
    refine withOperand_always (stops here condition) fun c _ => always_bind fun _ =>
      always_bind fun _ => always_bind fun _ => always_bind fun _ => ?_
    cases alternative <;>
      exact always_bind fun _ => always_bind fun _ => always_bind fun _ =>
        always_pure (made.node _ _ nofun)
  | «while» condition body =>
    exact withOperand_always (stops here condition) fun c _ => always_bind fun _ =>
      always_bind fun _ => always_bind fun _ => always_bind fun _ =>
        always_pure (made.node _ _ nofun)
  | logical connective left right =>
    refine withOperand_always (stops here left) fun l t => always_bind fun _ =>
      always_bind fun _ => always_bind fun _ => ?_
    cases connective <;> exact always_pure (made.node _ _ nofun)
  | not operand =>
    exact withOperand_always (stops here operand) fun _ _ => always_pure (made.node _ _ nofun)

end Constructs

/-- Code has the type of its normal end. -/
def Pass.Typed : Pass Elaborated → Prop := Pass.Always fun l => l.code.ty = l.ends.normal

theorem made_typed : Made fun l => l.code.ty = l.ends.normal where
  node _ _ _ := rfl
  nil := rfl
  stopped parts _ normal := (ofParts_ty parts none).trans normal.symm
  after l _ falls typed := typed.trans (Completions.andThen_normal l.ends falls).symm

theorem elaborateForm_typed (typed : ∀ here e, (elaborate here e).Typed) (e : Expr) :
    (elaborateForm cx elaborate here e).Typed :=
  elaborateForm_always made_typed (fun _ _ => rfl) fun here e s l s' h _ => typed here e s l s' h

theorem elaborateExpr_typed (cx : Setting) (fuel : Nat) (here : Place) (e : Expr) :
    (elaborateExpr cx fuel here e).Typed := by
  induction fuel generalizing here e with
  | zero => exact fun _ _ _ => nofun
  | succ fuel ih => exact elaborateForm_typed ih e

/-- Operands that are all elaborated are as many as before, and each has a type. -/
theorem elaborateParts_typed {ends ends' : Completions} {es : List Expr}
    {codes : List Typed.Expr} {s s' : PassState} (typed : ∀ e ∈ es, (elaborate here e).Typed)
    (falls : ends.fallsThrough = true)
    (h : elaborateParts elaborate here ends es s = some ((codes, ends'), s'))
    (through : ends'.fallsThrough = true) :
    codes.length = es.length ∧ ∀ c ∈ codes, c.ty.isSome = true := by
  induction es generalizing ends codes s with
  | nil =>
    obtain ⟨rfl, -, -⟩ := elaborateParts_nil_steps h
    simp
  | cons e es ih =>
    rw [List.forall_mem_cons] at typed
    obtain ⟨first, s₁, run, ⟨fallsOn, rest, runRest, rfl⟩ | ⟨stops, rfl, rfl, rfl⟩⟩ :=
      elaborateParts_cons_steps h
    · obtain ⟨lengths, others⟩ := ih typed.2 fallsOn runRest
      have here : first.code.ty.isSome = true := by
        rw [typed.1 _ _ _ run]
        rwa [Completions.fallsThrough, Completions.andThen_normal _ falls] at fallsOn
      exact ⟨by simp [lengths], List.forall_mem_cons.2 ⟨here, others⟩⟩
    · rw [through] at stops
      cases stops

end TypedBlocks.Inference

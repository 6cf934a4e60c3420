import TypedBlocks.Proofs.PassSteps

/-!
# More fuel

Fuel only decides whether an elaboration comes to an end. One that ends does so with the same result
when its parts are elaborated with more fuel.
-/
namespace TypedBlocks.Inference

open Typed (SlotId)

/-- Where the first step has a result, the second one has the same. -/
def Pass.Below {α : Type} (x y : Pass α) : Prop := ∀ s r, x s = some r → y s = some r

namespace Pass

variable {α β : Type} {x y : Pass α} {f g : α → Pass β}

theorem below_refl (x : Pass α) : x.Below x := fun _ _ => id

theorem below_bind (first : x.Below y) (rest : ∀ a, (f a).Below (g a)) :
    (x >>= f).Below (y >>= g) := by
  intro s r h
  obtain ⟨a, s', run, h⟩ := bind_eq_some.1 h
  exact bind_eq_some.2 ⟨a, s', first s _ run, rest a s' r h⟩

/-- The same first step. -/
theorem below_step (rest : ∀ a, (f a).Below (g a)) : (x >>= f).Below (x >>= g) :=
  below_bind (below_refl x) rest

theorem Below.trans {z : Pass α} (first : x.Below y) (second : y.Below z) : x.Below z :=
  fun s r h => second s r (first s r h)

end Pass

open Pass

/-- What the first elaboration makes, the second one makes as well. -/
def Elaborate.Below (elaborate other : Elaborate) : Prop :=
  ∀ here e, (elaborate here e).Below (other here e)

section Constructs

variable {cx : Setting} {elaborate other : Elaborate} {here : Place}
  (below : elaborate.Below other)

include below

theorem elaborateParts_below (ends : Completions) (es : List Expr) :
    (elaborateParts elaborate here ends es).Below (elaborateParts other here ends es) := by
  induction es generalizing ends with
  | nil => exact below_refl _
  | cons e es ih =>
    refine below_bind (below here e) fun first => ?_
    dsimp only
    split
    · exact below_bind (ih _) fun _ => below_refl _
    · exact below_refl _

theorem elaborateBody_below (body : List Expr) :
    (elaborateBody elaborate here body).Below (elaborateBody other here body) := by
  simp only [elaborateBody]
  split
  · exact below_refl _
  · exact below_bind (elaborateParts_below below _ body) fun _ => below_refl _

theorem withOperands_below (operands : List Expr)
    {next next' : List Typed.Expr → Completions → Pass Elaborated}
    (rest : ∀ parts ends, (next parts ends).Below (next' parts ends)) :
    (withOperands elaborate here operands next).Below (withOperands other here operands next') := by
  refine below_bind (elaborateParts_below below _ operands) fun p => ?_
  dsimp only
  split
  · exact rest _ _
  · exact below_refl _

theorem withOperand_below (operand : Expr) {next next' : Elaborated → Ty → Pass Elaborated}
    (rest : ∀ l t, (next l t).Below (next' l t)) :
    (withOperand elaborate here operand next).Below (withOperand other here operand next') := by
  refine below_bind (below here operand) fun l => ?_
  cases l.ends.normal with
  | some t => exact rest l t
  | none => exact below_refl _

theorem elaborateMethod_below (depth : Nat) (key : Instantiation) :
    (elaborateMethod cx elaborate depth key).Below (elaborateMethod cx other depth key) := by
  refine below_step fun s => ?_
  dsimp only
  cases s.instances.lookup key with
  | some id => exact below_refl _
  | none =>
    refine below_step fun _ => ?_
    cases cx.definitions.method? key.method with
    | none => exact below_refl _
    | some m =>
      exact below_step fun frame => below_step fun s => below_step fun _ => below_step fun self =>
        below_step fun parameters => below_bind (elaborateBody_below below _) fun _ => below_refl _

theorem expandCall_below {call : CallSyntax} {m : MethodEntry} {key : Instantiation} {block : Block}
    {receiver : Typed.Expr} {arguments : List Typed.Expr} :
    (expandCall cx elaborate here call m key block receiver arguments).Below
      (expandCall cx other here call m key block receiver arguments) := by
  simp only [expandCall]
  split
  · exact below_refl _
  · exact below_step fun site => below_step fun frame => below_step fun before => below_step fun _ =>
      below_step fun self => below_step fun parameters =>
        below_bind (elaborateBody_below below _) fun _ => below_refl _

theorem elaborateConstruct_below {call : CallSyntax} {c : String} {arguments : List Typed.Expr}
    {types : List Ty} :
    (elaborateConstruct cx elaborate here call c arguments types).Below
      (elaborateConstruct cx other here call c arguments types) := by
  refine below_step fun ts => ?_
  dsimp only
  cases initializer? cx (ts.objectTy c) types with
  | some id => exact below_bind (elaborateMethod_below below _ _) fun _ => below_refl _
  | none => exact below_refl _

theorem elaborateMethodCall_below {call : CallSyntax} {m : MethodEntry} {receiver : Typed.Expr}
    {receiverType : Ty} {arguments : List Typed.Expr} {types : List Ty} :
    (elaborateMethodCall cx elaborate here call m receiver receiverType arguments types).Below
      (elaborateMethodCall cx other here call m receiver receiverType arguments types) := by
  simp only [elaborateMethodCall]
  cases m.owner
  all_goals
    dsimp only
    split
    · cases call.block with
      | some block => exact expandCall_below below
      | none => exact below_refl _
    · exact below_bind (elaborateMethod_below below _ _) fun _ => below_refl _

theorem elaborateArm_below {call : CallSyntax} {operands : List Typed.Expr} {types : List Ty} :
    (elaborateArm cx elaborate here call operands types).Below
      (elaborateArm cx other here call operands types) := by
  simp only [elaborateArm]
  cases types with
  | nil => exact below_refl _
  | cons receiverType argumentTypes =>
    dsimp only
    split
    · exact below_refl _
    · exact below_refl _
    · exact elaborateConstruct_below below
    · exact below_refl _
    · split
      · exact below_refl _
      · exact elaborateMethodCall_below below

theorem elaborateArms_below {call : CallSyntax} {temps : List SlotId} {before : List ScopeVar}
    {choices : List (List Ty)} :
    (elaborateArms cx elaborate here call temps before choices).Below
      (elaborateArms cx other here call temps before choices) := by
  induction choices with
  | nil => exact below_refl _
  | cons types rest ih =>
    exact below_step fun _ => below_bind (elaborateArm_below below) fun arm =>
      below_step fun after => below_bind ih fun _ => below_refl _

theorem elaborateDispatch_below {call : CallSyntax} {operands : List Typed.Expr}
    {types : List Ty} :
    (elaborateDispatch cx elaborate here call operands types).Below
      (elaborateDispatch cx other here call operands types) := by
  simp only [elaborateDispatch]
  split
  · split
    · exact below_refl _
    · exact below_step fun temps => below_step fun before =>
        below_bind (elaborateArms_below below) fun _ => below_refl _
  · exact elaborateArm_below below

end Constructs

/-- Each construct ends as before if its parts do. -/
theorem elaborateForm_below {cx : Setting} {elaborate other : Elaborate}
    (below : elaborate.Below other) :
    Elaborate.Below (elaborateForm cx elaborate) (elaborateForm cx other) := by
  intro here e
  simp only [elaborateForm]
  cases e.form with
  | literal _ | read _ | self | defMethod _ | defClass _ | defLib _ => exact below_refl _
  | assign v _ value => exact withOperand_below below value fun _ _ => below_refl _
  | call receiver name nameSpan arguments block =>
    exact withOperands_below below _ fun parts ends =>
      below_bind (elaborateDispatch_below below) fun _ => below_refl _
  | yield arguments =>
    refine withOperands_below below arguments fun parts ends => ?_
    dsimp only
    cases here.activation.methodBody.origin with
    | expansion block site definer =>
      exact below_step fun _ => below_step fun parameters =>
        below_bind (elaborateBody_below below _) fun _ => below_refl _
    | body => exact below_refl _
    | block id definer => exact below_refl _
  | «return» value | «break» value =>
    cases value with
    | none => exact below_refl _
    | some value => exact withOperand_below below value fun _ _ => below_refl _
  | conditional kind condition consequent alternative =>
    refine withOperand_below below condition fun c _ => below_step fun before =>
      below_bind (elaborateBody_below below consequent) fun first => below_step fun after =>
        below_step fun _ => ?_
    cases alternative with
    | some body => exact below_bind (elaborateBody_below below body) fun _ => below_refl _
    | none => exact below_refl _
  | «while» condition body =>
    exact withOperand_below below condition fun c _ => below_step fun before => below_step fun loop =>
      below_bind (elaborateBody_below below body) fun _ => below_refl _
  | logical connective left right =>
    exact withOperand_below below left fun l t => below_step fun before =>
      below_bind (below here right) fun _ => below_refl _
  | not operand => exact withOperand_below below operand fun _ _ => below_refl _

/-- An elaboration that comes to an end does so with the same result for more fuel. -/
theorem elaborateExpr_below (cx : Setting) {fuel fuel' : Nat} (more : fuel ≤ fuel') :
    Elaborate.Below (elaborateExpr cx fuel) (elaborateExpr cx fuel') := by
  induction fuel generalizing fuel' with
  | zero => exact fun _ _ _ _ => nofun
  | succ fuel ih =>
    cases fuel' with
    | zero => cases more
    | succ fuel' => exact elaborateForm_below (ih (Nat.le_of_succ_le_succ more))

end TypedBlocks.Inference

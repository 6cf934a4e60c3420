import TypedBlocks.Proofs.FixedTables
import TypedBlocks.Proofs.MoreFuel

/-!
# Plain receivers

The code of a call that makes an object or calls a library has no place for a receiver. Nothing is
lost with a receiver that is a plain constant. Here a program is elaborated on the condition that it
has no other receivers of such calls; with unions among the operands the condition is void, because
then all operands are evaluated before a callee is chosen.
-/
namespace TypedBlocks

/-- The expression is a constant as it is written. -/
def Expr.isConstant (e : Expr) : Bool :=
  match e.form with
  | .read v => v.kind == .constant
  | _ => false

/-- The node of a call that has no receiver. -/
def Typed.Node.dropsReceiver : Typed.Node → Bool
  | .construct _ _ _ | .foreign _ _ _ => true
  | _ => false

namespace Inference

open Pass

/-- Elaborate a call whose receiver is a constant or has a place in the code. -/
def elaboratePlainCall (cx : Setting) (elaborate : Elaborate) (here : Place) (id : NodeId)
    (receiver : Option Expr) (name : String) (nameSpan : Span) (arguments : List Expr)
    (block : Option Block) : Pass Elaborated :=
  withOperands elaborate here (receiver.toList ++ arguments) fun parts ends => do
    let self := Typed.Expr.ofSlot here.activation.selfSlot (some here.activation.selfType)
    let parts := if receiver.isNone then self :: parts else parts
    let call : CallSyntax := ⟨id, name, nameSpan, block, receiver.isNone⟩
    let l ← elaborateDispatch cx elaborate here call parts (parts.filterMap (·.ty))
    if l.code.node.dropsReceiver && !receiver.all Expr.isConstant then Pass.outOfFuel
    else return ⟨l.code, ends.andThen l.ends⟩

def elaboratePlainForm (cx : Setting) (elaborate : Elaborate) (here : Place) (e : Expr) :
    Pass Elaborated :=
  match e.form with
  | .call receiver name nameSpan arguments block =>
    elaboratePlainCall cx elaborate here e.id receiver name nameSpan arguments block
  | _ => elaborateForm cx elaborate here e

def elaboratePlain (cx : Setting) : Nat → Elaborate
  | 0, _, _ => Pass.outOfFuel
  | fuel + 1, here, e => elaboratePlainForm cx (elaboratePlain cx fuel) here e

section Steps

variable {cx : Setting} {elaborate : Elaborate} {here : Place} {s s' : PassState} {l : Elaborated}

theorem elaboratePlainCall_steps {id : NodeId} {receiver : Option Expr} {name : String}
    {nameSpan : Span} {written : List Expr} {block : Option Block}
    (h : elaboratePlainCall cx elaborate here id receiver name nameSpan written block s =
      some (l, s')) :
    ∃ parts ends s₁,
      elaborateParts elaborate here (Completions.ofNormal Ty.nil) (receiver.toList ++ written) s =
        some ((parts, ends), s₁) ∧
      ((ends.fallsThrough = false ∧ l = ⟨Typed.Expr.ofParts parts none, ends⟩ ∧ s' = s₁) ∨
        (ends.fallsThrough = true ∧ ∃ sent,
          elaborateDispatch cx elaborate here ⟨id, name, nameSpan, block, receiver.isNone⟩
            (sentOperands here receiver parts)
            ((sentOperands here receiver parts).filterMap (·.ty)) s₁ = some (sent, s') ∧
          l = ⟨sent.code, ends.andThen sent.ends⟩ ∧
          (sent.code.node.dropsReceiver = true → ∀ r ∈ receiver, r.isConstant = true))) := by
  obtain ⟨parts, ends, s₁, run, ⟨falls, h⟩ | ⟨stops, rfl, rfl⟩⟩ := withOperands_steps h
  · obtain ⟨sent, s₂, runSent, h⟩ := bind_eq_some.1 h
    split at h
    · cases h
    · rename_i plain
      obtain ⟨rfl, rfl⟩ := pure_eq_some.1 h
      refine ⟨parts, ends, s₁, run, .inr ⟨falls, sent, runSent, rfl, fun drops => ?_⟩⟩
      rintro r rfl
      simpa [drops] using plain
  · exact ⟨parts, ends, s', run, .inl ⟨stops, rfl, rfl⟩⟩

/-- The condition only decides whether there is a result. -/
theorem elaboratePlainForm_below (cx : Setting) (elaborate : Elaborate) :
    Elaborate.Below (elaboratePlainForm cx elaborate) (elaborateForm cx elaborate) := by
  intro here e
  rw [elaboratePlainForm]
  split
  · rename_i receiver name nameSpan arguments block form
    simp only [elaborateForm, form]
    refine withOperands_below (fun _ _ => below_refl _) _ fun parts ends => below_step fun l => ?_
    split
    · rintro _ _ ⟨⟩
    · exact below_refl _
  · exact below_refl _

end Steps

theorem elaboratePlain_below (cx : Setting) (fuel : Nat) :
    Elaborate.Below (elaboratePlain cx fuel) (elaborateExpr cx fuel) := by
  induction fuel with
  | zero => exact fun _ _ _ _ => nofun
  | succ fuel ih =>
    exact fun here e => (elaboratePlainForm_below cx _ here e).trans (elaborateForm_below ih here e)

end Inference

namespace Compilation

open Inference

/-- In the last pass over the bodies all receivers that the code of calls drops are constants. -/
def plainReceivers (limits : Limits) (bodies : List (List Expr)) : Bool :=
  match Definitions.ofBodies bodies, resolveExits bodies with
  | .ok definitions, .ok exits =>
    let cx : Setting := ⟨definitions, exits, bindBlocks bodies, limits⟩
    (lastTables? cx ampleFuel bodies.flatten limits.maxPasses Tables.empty).any fun ts =>
      (elaborateBody (elaboratePlain cx ampleFuel) mainPlace bodies.flatten (enteredMain ts)).isSome
  | _, _ => false

/-- The same of a text, read as it is compiled. -/
def textPlainReceivers (options : Options) (text : String) (ds : Diagnostics) : Bool :=
  match (Compile.readWithPrelude options text).run.run ds with
  | (.ok modules, _) => plainReceivers options.limits (modules.map (·.body))
  | _ => false

variable {options : Options} {text : String} {ds ds' : Diagnostics} {c : Compilation}

/-- Where the receivers are plain, the last pass is the same without the others. -/
theorem ofBodies_plain {limits : Limits} {bodies : List (List Expr)}
    (compiled : ofBodies limits bodies = .ok c) (plain : plainReceivers limits bodies = true) :
    ∃ cx body s, cx.definitions.Consistent ∧
      elaborateBody (elaboratePlain cx ampleFuel) mainPlace bodies.flatten (enteredMain s.tables) =
        some (body, s) ∧
      c.program = madeProgram cx body s ∧ s.Known cx .all ∧ body.Known .all ∧ s.errors = [] := by
  obtain ⟨definitions, collected, resolved, bound, body, s, run, made, known, sound, last⟩ :=
    ofBodies_last compiled
  rw [bound] at run made known last
  simp only [plainReceivers, collected, resolved, last, Option.any_some] at plain
  obtain ⟨⟨body', s'⟩, again⟩ := Option.isSome_iff_exists.1 plain
  -- The elaboration that asks for plain receivers has the same result as the other.
  have same := elaborateBody_below (elaboratePlain_below _ ampleFuel) _ _ _ again
  rw [run] at same
  cases same
  have consistent := Definitions.ofBodies_consistent collected
  have main := (elaborateBody_known (elaborateExpr_knowing (Vocabulary.all_covers _) consistent
    ampleFuel) mainPlace_known (enteredMain_known known.tables) (fun _ _ => trivial) run).2
  exact ⟨_, body, s, consistent, again, made, known, main, sound⟩

theorem ofText_plain (compiled : ofText options text ds = (.ok c, ds'))
    (plain : textPlainReceivers options text ds = true) :
    ∃ bodies, ofBodies options.limits bodies = .ok c ∧
      plainReceivers options.limits bodies = true := by
  obtain ⟨modules, ds₁, read, compiled⟩ := ofText_steps compiled
  simp only [textPlainReceivers, read] at plain
  exact ⟨_, compiled, plain⟩

end Compilation

end TypedBlocks

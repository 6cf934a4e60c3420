import TypedBlocks.Evaluation.Basic

/-!
# Steps of evaluation

What an evaluation comes to, for each way in which evaluations are put together: one after the other,
with exits that land, as rounds of a loop, and with slots of its own. Where evaluations that keep more
than a machine are put together alike, the state is left open.
-/
namespace TypedBlocks

section Combinations

variable {S α β : Type} {s s' : S} {stop : Stop}

theorem bind_eq_ok {x : EStateM Stop S α} {f : α → EStateM Stop S β} {b : β} :
    (x >>= f) s = .ok b s' ↔ ∃ a s₁, x s = .ok a s₁ ∧ f a s₁ = .ok b s' := by
  simp only [bind, EStateM.bind]
  cases x s <;> simp [and_assoc]

theorem bind_eq_error {x : EStateM Stop S α} {f : α → EStateM Stop S β} :
    (x >>= f) s = .error stop s' ↔
      x s = .error stop s' ∨ ∃ a s₁, x s = .ok a s₁ ∧ f a s₁ = .error stop s' := by
  simp only [bind, EStateM.bind]
  cases x s <;> simp [and_assoc]

/-- Turn the exits that `land` accepts into values. -/
def landExits (land : Exit → Option Value) (x : EStateM Stop S Value) : EStateM Stop S Value := fun s =>
  match x s with
  | .error (.exit e) s =>
    match land e with
    | some v => .ok v s
    | none => .error (.exit e) s
  | r => r

/-- What an evaluation comes to where exits can land. -/
inductive LandingEnds (land : Exit → Option Value) (x : EStateM Stop S Value) (s : S) :
    EStateM.Result Stop S Value → Prop
  | value {v : Value} {s₁ : S} (run : x s = .ok v s₁) : LandingEnds land x s (.ok v s₁)
  | lands {e : Exit} {v : Value} {s₁ : S} (left : x s = .error (.exit e) s₁)
    (found : land e = some v) : LandingEnds land x s (.ok v s₁)
  | passes {e : Exit} {s₁ : S} (left : x s = .error (.exit e) s₁) (missed : land e = none) :
    LandingEnds land x s (.error (.exit e) s₁)
  | stops {stop : Stop} {s₁ : S} (stopped : x s = .error stop s₁) (other : ∀ e, stop ≠ .exit e) :
    LandingEnds land x s (.error stop s₁)

theorem landExits_ends {land : Exit → Option Value} {x : EStateM Stop S Value}
    {r : EStateM.Result Stop S Value} (ends : landExits land x s = r) : LandingEnds land x s r := by
  subst ends
  rw [landExits]
  cases run : x s with
  | ok v s₁ => exact .value run
  | error stop s₁ =>
    cases stop with
    | exit e =>
      cases found : land e with
      | none => simpa only [found] using .passes run found
      | some v => simpa only [found] using .lands run found
    | fault f => exact .stops run nofun
    | outOfFuel => exact .stops run nofun

/-- Test, run the body of a loop, and go on with the rounds that are left. -/
def loopRound (id : LoopId) (test body rest : EStateM Stop S Value) : EStateM Stop S Value := fun s =>
  match test s with
  | .error stop s => .error stop s
  | .ok c s =>
    if c.countsAsTrue then
      match body s with
      | .ok _ s => rest s
      | .error (.exit (.break (.loop l) v)) s =>
        if l == id then .ok v s else .error (.exit (.break (.loop l) v)) s
      | .error stop s => .error stop s
    else .ok .nil s

/-- What a loop comes to, by its test, its body and the rounds that are left. -/
inductive LoopEnds (id : LoopId) (test body rest : EStateM Stop S Value) (s : S) :
    EStateM.Result Stop S Value → Prop
  | untested {stop : Stop} {s₁ : S} (stopped : test s = .error stop s₁) :
    LoopEnds id test body rest s (.error stop s₁)
  | fails {c : Value} {s₁ : S} (tested : test s = .ok c s₁) (fails : c.countsAsTrue = false) :
    LoopEnds id test body rest s (.ok .nil s₁)
  | round {c v : Value} {s₁ s₂ : S} {r : EStateM.Result Stop S Value} (tested : test s = .ok c s₁)
    (holds : c.countsAsTrue = true) (ran : body s₁ = .ok v s₂) (goes : rest s₂ = r) :
    LoopEnds id test body rest s r
  | breaks {c v : Value} {s₁ s₂ : S} (tested : test s = .ok c s₁) (holds : c.countsAsTrue = true)
    (left : body s₁ = .error (.exit (.break (.loop id) v)) s₂) :
    LoopEnds id test body rest s (.ok v s₂)
  | stops {c : Value} {stop : Stop} {s₁ s₂ : S} (tested : test s = .ok c s₁)
    (holds : c.countsAsTrue = true) (stopped : body s₁ = .error stop s₂)
    (other : ∀ v, stop ≠ .exit (.break (.loop id) v)) :
    LoopEnds id test body rest s (.error stop s₂)

theorem loopRound_ends {id : LoopId} {test body rest : EStateM Stop S Value}
    {r : EStateM.Result Stop S Value} (ends : loopRound id test body rest s = r) :
    LoopEnds id test body rest s r := by
  subst ends
  rw [loopRound]
  split
  · rename_i stopped
    exact .untested stopped
  · rename_i c s₁ tested
    split
    · rename_i holds
      split
      · rename_i v s₂ ran
        exact .round tested holds ran rfl
      · rename_i l v s₂ left
        split
        · rename_i own
          cases beq_iff_eq.1 own
          exact .breaks tested holds left
        · rename_i other
          refine .stops tested holds left fun w same => ?_
          cases same
          exact other (beq_self_eq_true _)
      · rename_i stop s₂ notBreak stopped
        exact .stops tested holds stopped fun v => notBreak id v
    · rename_i fails
      exact .fails tested (by simpa using fails)

end Combinations

section Evaluations

variable {α : Type} {slots : Array Value} {x : Eval α} {m m' : Machine} {a : α} {stop : Stop}

theorem Eval.landing_eq (land : Exit → Option Value) (x : Eval Value) :
    Eval.landing land x = landExits land x := by
  funext m
  rw [landing, landExits]
  rcases x m with _ | ⟨_ | _ | _, _⟩ <;> rfl

theorem Eval.landing_ends {land : Exit → Option Value} {x : Eval Value}
    {r : EStateM.Result Stop Machine Value} (ends : Eval.landing land x m = r) :
    LandingEnds land x m r :=
  landExits_ends ((congrFun (landing_eq land x) m).symm.trans ends)

theorem Eval.withSlots_eq_ok : Eval.withSlots slots x m = .ok a m' ↔
    ∃ m₁, x { m with slots } = .ok a m₁ ∧ m' = { m₁ with slots := m.slots } := by
  simp only [withSlots]
  cases x { m with slots } <;> simp [and_assoc, eq_comm]

theorem Eval.withSlots_eq_error : Eval.withSlots slots x m = .error stop m' ↔
    ∃ m₁, x { m with slots } = .error stop m₁ ∧ m' = { m₁ with slots := m.slots } := by
  simp only [withSlots]
  cases x { m with slots } <;> simp [and_assoc, eq_comm]

namespace Typed

variable {p : Program} {run : Expr → Eval Value} {ty : Option Ty} {id : LoopId} {condition body : Expr}

theorem Program.evalNode_while (p : Program) (run : Expr → Eval Value) (ty : Option Ty) (id : LoopId)
    (condition body : Expr) : p.evalNode run ⟨ty, .while id condition body⟩ =
      loopRound id (run condition) (run body) (run ⟨ty, .while id condition body⟩) := by
  funext m
  simp only [evalNode, loopRound]
  cases run condition m with
  | error stop m₁ => rfl
  | ok c m₁ =>
    dsimp only
    rcases run body m₁ with _ | ⟨(_ | ⟨_ | _, _⟩) | _ | _, _⟩ <;> rfl

theorem Program.while_ends {r : EStateM.Result Stop Machine Value}
    (ends : p.evalNode run ⟨ty, .while id condition body⟩ m = r) :
    LoopEnds id (run condition) (run body) (run ⟨ty, .while id condition body⟩) m r :=
  loopRound_ends ((congrFun (p.evalNode_while run ty id condition body) m).symm.trans ends)

end Typed

end Evaluations

end TypedBlocks

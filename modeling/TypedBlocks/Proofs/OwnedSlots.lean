import TypedBlocks.Proofs.TypingRules

/-!
# Slots that nodes own

An expanded call binds the slot of its `self`, and a call with arms the slots of its operands. The
typing rules say what they are bound to. In checked code these slots are no source variables, and
those of operands are of no use to anything else.
-/
namespace TypedBlocks.Typed

/-- The slot stands for `self` or for an operand. -/
def Context.Hidden (Γ : Context) (s : SlotId) : Prop :=
  ∃ slot, Γ.slot? s = some slot ∧ ¬ slot.isSource

namespace Node

/-- The slots of operands that a node binds for its arms. -/
def temps : Node → List SlotId
  | .dispatch _ temps _ => temps
  | _ => []

/-- The slots that a node binds for the code in it. -/
def binds : Node → List SlotId
  | .inline c => [c.selfSlot]
  | n => n.temps

/-- What a node binds is hidden, and operands get slots that nothing around the node has. -/
structure Owns (Γ : Context) (n : Node) : Prop where
  hidden : ∀ s ∈ n.binds, Γ.Hidden s
  once : n.temps.Nodup
  fresh : ∀ b ∈ Γ.bound, b.1 ∉ n.temps

theorem Owns.of_none {Γ : Context} {n : Node} (none : n.binds = []) : n.Owns Γ := by
  have temps : n.temps = [] := by
    cases n with
    | inline c => cases none
    | _ => exact none
  exact ⟨by simp [none], temps ▸ List.nodup_nil, by simp [temps]⟩

end Node

/-- The typing rules hold everywhere in the expression, and nodes own the slots that they bind. -/
inductive Expr.Checked (σ : Signatures) : Context → Expr → Prop
  | intro {Γ : Context} {e : Expr} (rule : e.Rule σ Γ) (owns : e.node.Owns Γ)
    (parts : ∀ q ∈ e.node.partsIn Γ, Checked σ q.1 q.2) : Checked σ Γ e

theorem Expr.Checked.wellTyped {σ : Signatures} {Γ : Context} {e : Expr} (checked : e.Checked σ Γ) :
    e.WellTyped σ Γ := by
  induction checked with
  | intro rule _ _ parts => exact .intro rule parts

end TypedBlocks.Typed

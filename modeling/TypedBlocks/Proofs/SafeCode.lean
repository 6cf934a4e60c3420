import TypedBlocks.Proofs.EnteredScopes
import TypedBlocks.Proofs.OwnedSlots
import TypedBlocks.Proofs.TypeSorts
import TypedBlocks.Proofs.TypedMachines

/-!
# Safe code

The typing rules say what values the slots of `self` and of operands are bound to, but not that the
slots keep them. In safe code they do: no node writes to a slot that is bound where it stands, and
what a node binds itself has a slot of its own, which has no other type.
-/
namespace TypedBlocks.Typed

/-- The class that a node makes an object of. -/
def Node.makes? : Node → Option String
  | .construct className _ _ => some className
  | _ => none

/-- The node leaves alone what is bound around it, and its own slots are for nothing else. -/
structure Node.Apart (Γ : Context) (n : Node) : Prop where
  spares : ∀ b ∈ Γ.bound, b.1 ∉ n.writes
  untyped : ∀ s ∈ n.binds, Γ.slotTy? s = none
  once : n.binds.Nodup

/-- The typing rules hold at every place in the expression, all types are proper, bound slots keep
their values, and objects that are made do not pose as other values. -/
inductive Expr.Safe (σ : Signatures) : Context → Expr → Prop
  | intro {Γ : Context} {e : Expr} (rule : e.Rule σ Γ) (types : ∀ t ∈ e.types, t.Proper)
    (apart : e.node.Apart Γ) (objects : ∀ c ∈ e.node.makes?, c ∉ valueClasses)
    (parts : ∀ q ∈ e.node.partsIn Γ, Safe σ q.1 q.2) : Safe σ Γ e

/-- The types of the slots are proper. -/
def Context.Proper (Γ : Context) : Prop := ∀ s t, Γ.slotTy? s = some t → t.Proper

/-- The body of the method is safe, with the types of its source variables, its result covers all that
it ends with, and its parameters have the types that calls are checked against. -/
structure Method.Safe (σ : Signatures) (m : Method) : Prop where
  types : ∀ t ∈ m.types, t.Proper
  result : Ty.OptionLe m.body.ty m.returnType
  returns : m.body.Exits (.frame m.frame) m.returnType
  body : ∃ slots : List Slot, Context.Proper ⟨slots, []⟩ ∧
    m.body.Safe σ ⟨slots, [(m.selfSlot, m.selfType)]⟩ ∧
      Context.slotTy? ⟨slots, []⟩ m.selfSlot = none ∧
        ∀ s ∈ m.parameters, ∃ t, Context.slotTy? ⟨slots, []⟩ s = some t ∧
          Context.slotTy? ⟨m.locals, []⟩ s = some t

/-- All methods of the program are safe, and its exits stay where they belong. -/
structure Program.Safe (p : Program) (σ : Signatures) : Prop where
  signatures : σ.Proper
  method? : σ.method? = p.method?
  inScope : p.Scoped
  methods : ∀ m ∈ p.allMethods, m.Safe σ

namespace Expr.Safe

variable {σ : Signatures} {Γ : Context} {e : Expr}

theorem proper (safe : e.Safe σ Γ) : ∀ t ∈ e.ty, t.Proper := by
  cases safe with
  | intro rule types apart objects parts =>
    exact fun t own => types t (List.mem_append_left _ (Option.mem_toList.2 own))

end Expr.Safe

theorem Method.Safe.locals {σ : Signatures} {m : Method} (safe : m.Safe σ) :
    Context.Proper ⟨m.locals, []⟩ := by
  intro s t typed
  obtain ⟨slot, found, typed⟩ := Option.bind_eq_some_iff.1 typed
  refine safe.types t (List.mem_cons_of_mem _ (List.mem_append_right _ ?_))
  exact List.mem_filterMap.2 ⟨slot, List.mem_of_getElem? found, typed⟩

end TypedBlocks.Typed

import TypedBlocks.Proofs.CountedRounds
import TypedBlocks.Proofs.NodeOrigins
import TypedBlocks.Proofs.Overloads
import TypedBlocks.Proofs.TypedOperations

/-!
# Operators on integers

Unless a class of the integers has a method of that name, an operator between integers is the primitive
one. Where the types of the operands are unions with the integers among them, the call has an arm for two
integers, and this is the one that integers find.
-/
namespace TypedBlocks

section Dispatch

variable {d : Definitions} {name : String} {operation : Primitive}

/-- Neither the class of the integers nor one above it has a method of the name. -/
def Definitions.Spares (d : Definitions) (name : String) : Prop :=
  ∀ owner ∈ d.ancestors "Int", ∀ m ∈ d.methodsOf owner, m.name ≠ name

instance (d : Definitions) (name : String) : Decidable (d.Spares name) :=
  inferInstanceAs (Decidable (∀ owner ∈ d.ancestors "Int", ∀ m ∈ d.methodsOf owner, m.name ≠ name))

theorem Definitions.Spares.dispatch? (spares : d.Spares name)
    (resolved : Primitive.resolve? Ty.int name [Ty.int] = some operation) (block self : Bool) :
    d.dispatch? ⟨Ty.int, name, [Ty.int], block, self⟩ = some (.primitive operation) := by
  have chain : d.methodInChain? ⟨Ty.int, name, [Ty.int], block, self⟩ = none := by
    refine Option.bind_eq_none_iff.2 fun c start => ?_
    obtain rfl : "Int" = c := Option.some.inj start
    refine List.findSome?_eq_none_iff.2 fun owner member => ?_
    have nobody : (d.methodsOf owner).filter (d.isApplicable ⟨Ty.int, name, [Ty.int], block, self⟩) =
        [] := by
      refine List.filter_eq_nil_iff.2 fun m listed applicable => ?_
      rw [Definitions.isApplicable, Bool.and_eq_true, Bool.and_eq_true, beq_iff_eq] at applicable
      exact spares owner member m listed applicable.1.1
    rw [Definitions.choose?, Definitions.pool, nobody]
    rfl
  rw [Definitions.dispatch?, chain, resolved]
  rfl

end Dispatch

theorem Value.isInstanceOf_int {x : Int64} {t : Ty} (fits : (Value.int x).isInstanceOf t = true) :
    t = Ty.int := by
  cases t with
  | simple s =>
    have named : s.className = "Int" := by cases s <;> exact beq_iff_eq.1 fits
    cases s <;> first
      | rfl
      | simp [SimpleTy.className] at named
  | object _ _ | union _ => cases fits

/-- An arm that fits two integers is the one for them. -/
theorem Typed.Arm.types_of_fits {arm : Typed.Arm} {x y : Int64} (size : arm.types.length = 2)
    (fits : arm.fits [.int x, .int y] = true) : arm.types = [Ty.int, Ty.int] := by
  obtain ⟨t, u, pair⟩ := List.length_eq_two.1 size
  rw [Typed.Arm.fits, pair] at fits
  simp only [List.zip_cons_cons, List.zip_nil_right, List.all_cons, List.all_nil, Bool.and_true,
    Bool.and_eq_true] at fits
  rw [pair, Value.isInstanceOf_int fits.1, Value.isInstanceOf_int fits.2]

/-- A type with the integers as a member that is no union is that of the integers. -/
theorem Ty.Reduced.eq_int {t : Ty} (reduced : t.Reduced) (member : Ty.int ∈ t.members)
    (single : t.isUnion = false) : t = Ty.int := by
  have size : t.members.length ≤ 1 := by simpa [Ty.isUnion] using single
  refine reduced.eq_of_members (Ty.IsMember.reduced trivial) ?_
  match members : t.members with
  | [] => rw [members] at member; cases member
  | [m] =>
    rw [members] at member
    rw [← List.mem_singleton.1 member]
    rfl
  | _ :: _ :: _ => rw [members] at size; simp at size

namespace Inference

open Typed (SlotId)
open Pass

variable {cx : Setting} {elaborate : Elaborate} {here : Place} {call : CallSyntax} {s s' : PassState}
  {l : Elaborated} {operation : Primitive} {t u : Ty} {first second : Typed.Expr}

/-- The arms of a call are elaborated one by one, each for its types. -/
theorem elaborateArms_each {temps : List SlotId} {before : List ScopeVar} {chosen : List (List Ty)}
    {arms : List (Typed.Arm × Completions × List ScopeVar)} (growing : elaborate.Growing)
    (h : elaborateArms cx elaborate here call temps before chosen s = some (arms, s'))
    (sound : s'.errors = []) : arms.map (·.1.types) = chosen ∧ ∀ arm ∈ arms, ∃ l s₁ s₂,
      elaborateArm cx elaborate here call (armOperands temps arm.1.types) arm.1.types s₁ =
        some (l, s₂) ∧ s₂.errors = [] ∧ arm.1.body = l.code ∧ arm.2.1 = l.ends := by
  induction chosen generalizing s arms with
  | nil =>
    obtain ⟨rfl, rfl⟩ := elaborateArms_nil_steps h
    exact ⟨rfl, nofun⟩
  | cons types rest ih =>
    obtain ⟨arm, s₁, others, run, runRest, rfl⟩ := elaborateArms_cons_steps h
    obtain ⟨same, each⟩ := ih runRest
    refine ⟨by rw [List.map_cons, same], List.forall_mem_cons.2 ⟨?_, each⟩⟩
    exact ⟨arm, _, s₁, run, (elaborateArms_grows growing runRest).no_errors sound, rfl, rfl⟩

/-- A call with arms falls through if one of its arms does. -/
theorem armEnds_normal {arms : List (Typed.Arm × Completions × List ScopeVar)}
    {arm : Typed.Arm × Completions × List ScopeVar} (member : arm ∈ arms)
    (falls : arm.2.1.normal.isSome = true) : (armEnds arms).normal.isSome = true := by
  have later (arms : List (Typed.Arm × Completions × List ScopeVar)) (c : Completions)
      (some : c.normal.isSome = true) :
      (arms.foldl (fun ends arm => ends.join arm.2.1) c).normal.isSome = true := by
    induction arms generalizing c with
    | nil => exact some
    | cons arm arms ih => exact ih _ (by simp [Ty.mergeOption_isSome, some])
  obtain ⟨early, late, rfl⟩ := List.append_of_mem member
  rw [armEnds, List.foldl_append, List.foldl_cons]
  exact later late _ (by simp [Ty.mergeOption_isSome, falls])

/-- The elaborated call gives what the operation gives for two integers, the values of its operands. It
puts them into slots of its own, if any. -/
structure Operates (operation : Primitive) (first second code : Typed.Expr) (temps : List SlotId) :
    Prop where
  returns : ∀ (p : Typed.Program) m x y v, p.Returns first m (.int x) m →
    p.Returns second m (.int y) m → operation.apply (.int x) [.int y] = .ok v →
      p.Returns code m v (m.bindSlots temps [.int x, .int y])

theorem elaborateArm_operates
    (callee : calleeFor? cx call Ty.int [Ty.int] = some (.primitive operation))
    (h : elaborateArm cx elaborate here call [first, second] [Ty.int, Ty.int] s = some (l, s'))
    (sound : s'.errors = []) : l.ends.normal.isSome = true ∧ Operates operation first second l.code [] := by
  rcases elaborateArm_steps h with ⟨e, -, -, failed⟩ | ⟨receiverType, argumentTypes, types, rest⟩
  · exact (no_failure sound failed).elim
  · cases types
    rcases rest with ⟨p, same, rfl, rfl⟩ | ⟨c, other, -⟩ | ⟨lib, name, other, -⟩ |
      ⟨id, m, other, -⟩
    · cases callee.symm.trans same
      refine ⟨rfl, ⟨fun p m x y v left right result => ?_⟩⟩
      exact Typed.returns_primitive left (Typed.returnsAll_cons right (Typed.returnsAll_nil p m)) result
    · cases callee.symm.trans other
    · cases callee.symm.trans other
    · cases callee.symm.trans other

/-- A call between operands that can be integers, of which the operation is primitive. -/
theorem elaborateDispatch_operates (growing : elaborate.Growing)
    (callee : calleeFor? cx call Ty.int [Ty.int] = some (.primitive operation))
    (left : t.Reduced) (right : u.Reduced) (int : Ty.int ∈ t.members) (int' : Ty.int ∈ u.members)
    (h : elaborateDispatch cx elaborate here call [first, second] [t, u] s = some (l, s'))
    (sound : s'.errors = []) :
    l.ends.normal.isSome = true ∧ ∃ temps, (∀ x ∈ temps, s.frame.slots.length ≤ x.val) ∧
      Operates operation first second l.code temps := by
  rcases elaborateDispatch_steps h with ⟨plain, single⟩ | ⟨-, ⟨n, -, -, failed⟩ |
    ⟨chosen, temps, s₁, arms, s₂, expanded, made, run, rfl, rfl⟩⟩
  · simp only [List.any_cons, List.any_nil, Bool.or_false, Bool.or_eq_false_iff] at plain
    obtain rfl := left.eq_int int plain.1
    obtain rfl := right.eq_int int' plain.2
    obtain ⟨falls, operates⟩ := elaborateArm_operates callee single sound
    exact ⟨falls, [], nofun, operates⟩
  · exact (no_failure sound failed).elim
  · obtain ⟨types, each⟩ := elaborateArms_each growing run sound
    obtain ⟨once, fresh⟩ := tempSlots_fresh made
    obtain ⟨x₁, x₂, rfl⟩ := List.length_eq_two.1 (tempSlots_length made)
    have sizes := armsWithin_length expanded
    have all : (arms.map (·.1)).map (·.types) = choices ([t, u].map Ty.members) := by
      rw [← armsWithin_ok expanded, List.map_map, ← types]
      rfl
    -- Integers find the arm for integers, whichever they are.
    have finds (x y : Int64) : ∃ arm ∈ arms, arm.1.types = [Ty.int, Ty.int] ∧
        (arms.map (·.1)).find? (Typed.Arm.fits [.int x, .int y]) = some arm.1 := by
      have values : List.Forall₂ (fun v t => v.isOf t = true) [Value.int x, .int y] [t, u] :=
        .cons (Ty.isOf_iff.2 ⟨_, int, rfl⟩) (.cons (Ty.isOf_iff.2 ⟨_, int', rfl⟩) .nil)
      obtain ⟨arm, found⟩ := Typed.find?_fits all values
      obtain ⟨arm, listed, rfl⟩ := List.mem_map.1 (List.mem_of_find?_eq_some found)
      refine ⟨arm, listed, ?_, found⟩
      have size := sizes arm.1.types (types ▸ List.mem_map_of_mem listed)
      exact Typed.Arm.types_of_fits size (List.find?_some found)
    have runs (arm) (listed : arm ∈ arms) (pair : arm.1.types = [Ty.int, Ty.int]) :
        arm.2.1.normal.isSome = true ∧ Operates operation
          (.ofSlot x₁ (some Ty.int)) (.ofSlot x₂ (some Ty.int)) arm.1.body [] := by
      obtain ⟨l, s₁, s₂, armRun, sound, body, ends⟩ := each arm listed
      rw [pair] at armRun
      rw [body, ends]
      exact elaborateArm_operates callee armRun sound
    refine ⟨?_, [x₁, x₂], fresh, ⟨fun p m x y v first second result => ?_⟩⟩
    · obtain ⟨arm, listed, pair, -⟩ := finds 0 0
      exact armEnds_normal listed (runs arm listed pair).1
    · obtain ⟨arm, listed, pair, found⟩ := finds x y
      have apart : x₁ ≠ x₂ := by simpa using once
      have operands := Typed.returnsAll_cons first (Typed.returnsAll_cons second (Typed.returnsAll_nil p m))
      refine Typed.returns_dispatch operands found ?_
      have bound₁ : (m.bindSlots [x₁, x₂] [.int x, .int y]).slot x₁ = .int x := by
        simp [Machine.bindSlots, Machine.slot_setSlot, apart]
      have bound₂ : (m.bindSlots [x₁, x₂] [.int x, .int y]).slot x₂ = .int y := by
        simp [Machine.bindSlots, Machine.slot_setSlot]
      exact (runs arm listed pair).2.returns p _ x y v (Typed.returns_slot bound₁)
        (Typed.returns_slot bound₂) result

end Inference

end TypedBlocks

import TypedBlocks.Proofs.TypedOperations

/-!
# Operands that pose as others

A primitive operation is found by the classes of its operands' types, and values belong to a type by
their class as well; but an operation looks at the values themselves. So it accepts all values of the
types that it is found for, and has a result of its type, but for one case: an object of a builtin
class passes for a value of that class and is none.
-/
namespace TypedBlocks

/-- The class that dispatch sees in a value is the class of its type. -/
theorem Value.className?_of_isInstanceOf {v : Value} {t : Ty} (fits : v.isInstanceOf t = true) :
    t.className? = some v.className := by
  cases t with
  | union ts => cases v <;> cases fits
  | object name vars =>
    cases v with
    | object r => exact congrArg some (beq_iff_eq.1 fits)
    | _ => cases fits
  | simple s =>
    cases s with
    | classOf name =>
      cases v with
      | classObject c => rfl
      | _ => exact congrArg some (beq_iff_eq.1 fits)
    | _ => exact congrArg some (beq_iff_eq.1 (by cases v <;> exact fits))

namespace Primitive

/-- The operations that every value has. -/
def universal : List Primitive := [eq, ne, isNil]

/-- The classes whose values have operations of their own. -/
def operandClasses : List String := ["Nil", "Int", "Float", "String"]

/-- A kind that does not admit everything admits only values of classes with operations of their own. -/
theorem admitted_class {k : OperandKind} {t : Ty} {v : Value} (special : k ≠ .any)
    (admitted : k.admits t = true) (fits : v.isInstanceOf t = true) :
    v.className ∈ operandClasses := by
  have named := Value.className?_of_isInstanceOf fits
  cases k with
  | any => exact absurd rfl special
  | numeric =>
    rw [OperandKind.admits, named, Bool.or_eq_true, beq_iff_eq, beq_iff_eq, Option.some.injEq,
      Option.some.injEq] at admitted
    rcases admitted with same | same <;> simp [same, operandClasses]
  | string =>
    rw [OperandKind.admits, named, beq_iff_eq, Option.some.injEq] at admitted
    simp [admitted, operandClasses]
  | nil =>
    rw [OperandKind.admits, Ty.isNil] at admitted
    split at admitted
    · rename_i only
      rw [Ty.className?, only, Option.some.injEq] at named
      simp [← named, operandClasses, SimpleTy.className]
    · cases admitted

theorem admitsAll_length {ks : List OperandKind} {ts : List Ty} (admitted : admitsAll ks ts = true) :
    ts.length = ks.length := by
  induction ks generalizing ts with
  | nil =>
    cases ts with
    | nil => rfl
    | cons => cases admitted
  | cons k ks ih =>
    cases ts with
    | nil => cases admitted
    | cons t ts =>
      rw [admitsAll, Bool.and_eq_true] at admitted
      exact congrArg Nat.succ (ih admitted.2)

theorem admitted_classes {ks : List OperandKind} {ts : List Ty} {vs : List Value}
    (special : ∀ k ∈ ks, k ≠ .any) (admitted : admitsAll ks ts = true)
    (fits : List.Forall₂ (fun v t => v.isInstanceOf t = true) vs ts) :
    ∀ v ∈ vs, v.className ∈ operandClasses := by
  induction fits generalizing ks with
  | nil => exact List.forall_mem_nil _
  | cons fits _ ih =>
    cases ks with
    | nil => cases admitted
    | cons k ks =>
      rw [List.forall_mem_cons] at special
      rw [admitsAll, Bool.and_eq_true] at admitted
      exact List.forall_mem_cons.2
        ⟨admitted_class special.1 admitted.1 fits, ih special.2 admitted.2⟩

section Objects

variable {p : Primitive} {v w : Value} {vs : List Value}

theorem universal_apply (member : p ∈ universal) (v : Value) (vs : List Value) :
    ∃ b, p.apply v vs = .ok (.bool b) := by
  simp only [universal, List.mem_cons, List.not_mem_nil, or_false] at member
  rcases member with rfl | rfl | rfl
  · cases vs <;> exact ⟨_, rfl⟩
  · cases vs <;> exact ⟨_, rfl⟩
  · cases v <;> exact ⟨_, rfl⟩

theorem binary_object_apply (member : p ∈ [add, sub, mul, div, mod, lt, le, gt, ge, concat])
    (object : (∃ r, v = .object r) ∨ ∃ r, w = .object r) :
    p.apply v [w] = .error (p.operandFault v [w]) := by
  simp only [List.mem_cons, List.not_mem_nil, or_false] at member
  rcases object with ⟨r, rfl⟩ | ⟨r, rfl⟩
  · rcases member with rfl | rfl | rfl | rfl | rfl | rfl | rfl | rfl | rfl | rfl <;> cases w <;> rfl
  · rcases member with rfl | rfl | rfl | rfl | rfl | rfl | rfl | rfl | rfl | rfl <;> cases v <;> rfl

theorem unary_object_apply (member : p ∈ [neg, toInt, toFloat]) (r : ObjectRef) :
    p.apply (.object r) [] = .error (p.operandFault (.object r) []) := by
  simp only [List.mem_cons, List.not_mem_nil, or_false] at member
  rcases member with rfl | rfl | rfl <;> rfl

end Objects

variable {p : Primitive} {name : String} {t : Ty} {ts : List Ty} {v w : Value} {vs : List Value}

/-- An operation that not every value has accepts no objects, neither as receiver nor as argument. -/
theorem apply_object {s : Signature} (member : s ∈ signatures) (special : s.operation ∉ universal)
    (sizes : vs.length = s.parameters.length) {r : ObjectRef} (object : .object r ∈ v :: vs) :
    s.operation.apply v vs = .error (s.operation.operandFault v vs) := by
  have shapes : ∀ s ∈ signatures, s.operation ∈ universal ∨
      (s.operation ∈ [neg, toInt, toFloat] ∧ s.parameters.length = 0) ∨
        (s.operation ∈ [add, sub, mul, div, mod, lt, le, gt, ge, concat] ∧
          s.parameters.length = 1) := by decide
  rcases (shapes s member).resolve_left special with ⟨unary, none⟩ | ⟨binary, one⟩
  · obtain rfl := List.eq_nil_of_length_eq_zero (sizes.trans none)
    obtain rfl := List.mem_singleton.1 object
    exact unary_object_apply unary r
  · obtain ⟨w, rfl⟩ := List.length_eq_one_iff.1 (sizes.trans one)
    refine binary_object_apply binary ?_
    rcases List.mem_cons.1 object with same | there
    · exact .inl ⟨r, same.symm⟩
    · exact .inr ⟨r, (List.mem_singleton.1 there).symm⟩

theorem resultTy_only (p : Primitive) (t : Ty) (ts : List Ty) :
    (p.resultTy t ts).only? = some (p.resultTy t ts) := by
  cases p <;> simp only [resultTy] <;> first | rfl | (split <;> rfl)

section Resolved

variable (resolved : resolve? t name ts = some p) (receiver : v.isInstanceOf t = true)
  (arguments : List.Forall₂ (fun v t => v.isInstanceOf t = true) vs ts)

include resolved receiver arguments

/-- An object gets to an operation that not every value has only if it poses, and is rejected. -/
theorem apply_posing (special : p ∉ universal) {r : ObjectRef} (object : .object r ∈ v :: vs) :
    p.apply v vs = .error (p.operandFault v vs) ∧ r.className ∈ operandClasses := by
  obtain ⟨s, found, rfl⟩ := Option.map_eq_some_iff.1 resolved
  have member := List.mem_of_find?_eq_some found
  have admitted := List.find?_some found
  rw [Signature.admits, Bool.and_eq_true, Bool.and_eq_true] at admitted
  obtain ⟨⟨-, first⟩, rest⟩ := admitted
  have sizes := arguments.length_eq.trans (admitsAll_length rest)
  refine ⟨apply_object member special sizes object, ?_⟩
  have kinds : ∀ s ∈ signatures, s.operation ∈ universal ∨
      ∀ k ∈ s.receiver :: s.parameters, k ≠ .any := by decide
  have kinds := (kinds s member).resolve_left special
  rw [List.forall_mem_cons] at kinds
  rcases List.mem_cons.1 object with rfl | there
  · exact admitted_class kinds.1 first receiver
  · exact admitted_classes kinds.2 rest arguments _ there

/-- Without objects the values are of the types, so the operation accepts them. -/
theorem apply_unposed (plain : ∀ r, Value.object r ∉ v :: vs) :
    Yields (p.apply v vs) (p.resultTy t ts) := by
  have ordinary : ∀ w ∈ v :: vs, w.Ordinary := fun w member r same =>
    absurd (same ▸ member) (plain r)
  have typed : List.Forall₂ (fun v t => v.isOf t = true) vs ts :=
    ((List.forall₂_and_left _ _).2 ⟨fun w there => ordinary w (List.mem_cons_of_mem _ there),
      arguments⟩).imp fun w u each => Ty.isOf_of_member (each.1.isOfMember each.2)
  have fits : v.isOf t = true :=
    Ty.isOf_of_member ((ordinary v List.mem_cons_self).isOfMember receiver)
  exact apply_yields fits typed ordinary resolved

end Resolved

/-- An operation that is found for some types is applied to values of these types. Whenever it has a
result, that is of the type of the result; and it rejects the operands exactly if not every value has
the operation and an object of a builtin class is among them. -/
theorem apply_agrees_unless_posed (resolved : resolve? t name ts = some p)
    (receiver : v.isInstanceOf t = true)
    (arguments : List.Forall₂ (fun v t => v.isInstanceOf t = true) vs ts) :
    (∀ w, p.apply v vs = .ok w → w.isInstanceOf (p.resultTy t ts) = true) ∧
      ((∃ q classes, p.apply v vs = .error (.invalidOperands q classes)) ↔
        p ∉ universal ∧ ∃ r, Value.object r ∈ v :: vs ∧ r.className ∈ operandClasses) := by
  by_cases posed : ∃ r, Value.object r ∈ v :: vs
  · obtain ⟨r, object⟩ := posed
    by_cases any : p ∈ universal
    · obtain ⟨b, result⟩ := universal_apply any v vs
      rw [result]
      refine ⟨?_, ?_, fun pose => absurd any pose.1⟩
      · rintro w ⟨⟩
        simp only [universal, List.mem_cons, List.not_mem_nil, or_false] at any
        rcases any with rfl | rfl | rfl <;> rfl
      · rintro ⟨_, _, ⟨⟩⟩
    · obtain ⟨fault, builtin⟩ := apply_posing resolved receiver arguments any object
      rw [fault]
      refine ⟨?_, fun _ => ⟨any, r, object, builtin⟩, fun _ => ⟨_, _, rfl⟩⟩
      rintro w ⟨⟩
  · have accepted : ¬ ∃ r, Value.object r ∈ v :: vs ∧ r.className ∈ operandClasses := by
      rintro ⟨r, object, -⟩
      exact posed ⟨r, object⟩
    rcases apply_unposed resolved receiver arguments (not_exists.1 posed) with
      divided | ⟨u, result, fits, -⟩
    · rw [divided]
      refine ⟨?_, ?_, fun pose => absurd pose.2 accepted⟩
      · rintro w ⟨⟩
      · rintro ⟨_, _, ⟨⟩⟩
    · rw [result]
      refine ⟨?_, ?_, fun pose => absurd pose.2 accepted⟩
      · rintro w ⟨⟩
        exact Value.isInstanceOf_of_member (Ty.isOfMember_only (resultTy_only p t ts) fits)
      · rintro ⟨_, _, ⟨⟩⟩

theorem posing_integer_rejected :
    resolve? (.instanceOf "Int") "+" [Ty.int] = some add ∧
      ∃ q classes, add.apply (.object ⟨0, "Int"⟩) [.int 1] = .error (.invalidOperands q classes) := by
  have resolved : resolve? (.instanceOf "Int") "+" [Ty.int] = some add := by decide
  refine ⟨resolved, (apply_agrees_unless_posed resolved rfl (.cons rfl .nil)).2.2 ?_⟩
  exact ⟨by decide, ⟨0, "Int"⟩, List.mem_cons_self, by decide⟩

end Primitive

end TypedBlocks

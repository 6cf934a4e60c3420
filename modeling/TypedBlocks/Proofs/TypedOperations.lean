import Mathlib.Data.List.Forall2
import TypedBlocks.Evaluation.Basic
import TypedBlocks.Program.Dispatch
import TypedBlocks.Proofs.ValueTypes

/-!
# Operations on values of types

A primitive operation that is found for some types has a result of its type for all values of these
types, unless it divides by zero; and some arm of a call fits all values of the types that the arms
are made for. Both take it that no object poses as another value.
-/
namespace TypedBlocks

namespace Value.Ordinary

variable {v : Value}

theorem not_object (ordinary : v.Ordinary) (named : v.className ∈ valueClasses) (r : ObjectRef) :
    v ≠ .object r := fun same => ordinary r same (by rw [same] at named; exact named)

theorem int (ordinary : v.Ordinary) (named : v.className = "Int") : ∃ n, v = .int n := by
  have plain := ordinary.not_object (by simp [named, valueClasses])
  cases v with
  | int n => exact ⟨n, rfl⟩
  | object r => exact absurd rfl (plain r)
  | _ => exact absurd named (by simp [className])

theorem float (ordinary : v.Ordinary) (named : v.className = "Float") : ∃ x, v = .float x := by
  have plain := ordinary.not_object (by simp [named, valueClasses])
  cases v with
  | float x => exact ⟨x, rfl⟩
  | object r => exact absurd rfl (plain r)
  | _ => exact absurd named (by simp [className])

theorem string (ordinary : v.Ordinary) (named : v.className = "String") : ∃ s, v = .string s := by
  have plain := ordinary.not_object (by simp [named, valueClasses])
  cases v with
  | string s => exact ⟨s, rfl⟩
  | object r => exact absurd rfl (plain r)
  | _ => exact absurd named (by simp [className])

theorem nil (ordinary : v.Ordinary) (named : v.className = "Nil") : v = .nil := by
  have plain := ordinary.not_object (by simp [named, valueClasses])
  cases v with
  | nil => rfl
  | object r => exact absurd rfl (plain r)
  | _ => exact absurd named (by simp [className])

end Value.Ordinary

namespace OperandKind

variable {v : Value} {t : Ty}

/-- A value of a numeric type is a number, and the type says of which class. -/
theorem numeric_value (ordinary : v.Ordinary) (admitted : numeric.admits t) (fits : v.isOf t) :
    (∃ n, v = .int n ∧ t.className? = some "Int") ∨
      ∃ x, v = .float x ∧ t.className? = some "Float" := by
  rw [admits, Bool.or_eq_true, beq_iff_eq, beq_iff_eq] at admitted
  rcases admitted with named | named
  · obtain ⟨n, rfl⟩ := ordinary.int (Ty.className_of_isOf named fits)
    exact .inl ⟨n, rfl, named⟩
  · obtain ⟨x, rfl⟩ := ordinary.float (Ty.className_of_isOf named fits)
    exact .inr ⟨x, rfl, named⟩

theorem string_value (ordinary : v.Ordinary) (admitted : string.admits t) (fits : v.isOf t) :
    ∃ s, v = .string s := ordinary.string (Ty.className_of_isOf (beq_iff_eq.1 admitted) fits)

theorem nil_value (ordinary : v.Ordinary) (admitted : nil.admits t) (fits : v.isOf t) :
    v = .nil := by
  have named : t.className? = some "Nil" := by
    rw [admits, Ty.isNil] at admitted
    split at admitted
    · rename_i only
      rw [Ty.className?, only]
      rfl
    · cases admitted
  exact ordinary.nil (Ty.className_of_isOf named fits)

end OperandKind

namespace Primitive

variable {p : Primitive} {v w : Value} {t u : Ty}

/-- The operation ends with a value of the type that is no object, or it divides by zero. -/
def Yields (result : Except Fault Value) (t : Ty) : Prop :=
  result = .error .divisionByZero ∨ ∃ w, result = .ok w ∧ w.isOf t ∧ ∀ r, w ≠ .object r

theorem yields_ok {w : Value} (fits : w.isOf t) (plain : ∀ r, w ≠ .object r) :
    Yields (.ok w) t := .inr ⟨w, rfl, fits, plain⟩


theorem arithmetic?_yields (p : Primitive) (first : v.Ordinary) (second : w.Ordinary)
    (left : OperandKind.numeric.admits t) (right : OperandKind.numeric.admits u)
    (fits : v.isOf t) (fits' : w.isOf u) (fail : Except Fault Value) :
    Yields ((p.arithmetic? v w).getD fail) (add.resultTy t [u]) := by
  have float {x : Float} (named : t.className? = some "Float" ∨ u.className? = some "Float") :
      Yields (.ok (.float x)) (add.resultTy t [u]) := by
    refine yields_ok ?_ nofun
    have some : ([t, u].any fun t => t.className? == some "Float") = true := by
      rcases named with named | named <;> simp [named]
    rw [resultTy, if_pos some]
    rfl
  rcases OperandKind.numeric_value first left fits with ⟨a, rfl, named⟩ | ⟨x, rfl, named⟩
  · rcases OperandKind.numeric_value second right fits' with ⟨b, rfl, named'⟩ | ⟨y, rfl, named'⟩
    · rw [arithmetic?]
      cases p.onInts? a b with
      | none => exact .inl rfl
      | some n =>
        refine yields_ok ?_ nofun
        simp [resultTy, named, named']
        rfl
    · exact float (.inr named')
  · rcases OperandKind.numeric_value second right fits' with ⟨b, rfl, -⟩ | ⟨y, rfl, -⟩
    · exact float (.inl named)
    · exact float (.inl named)

theorem comparison?_some (p : Primitive) (first : v.Ordinary) (second : w.Ordinary)
    (left : OperandKind.numeric.admits t) (right : OperandKind.numeric.admits u)
    (fits : v.isOf t) (fits' : w.isOf u) : ∃ b, p.comparison? v w = some b := by
  rcases OperandKind.numeric_value first left fits with ⟨a, rfl, -⟩ | ⟨x, rfl, -⟩ <;>
    rcases OperandKind.numeric_value second right fits' with ⟨b, rfl, -⟩ | ⟨y, rfl, -⟩
  all_goals exact ⟨_, rfl⟩

section Groups

variable {ts : List Ty} {vs : List Value} (fits : v.isOf t)
  (arguments : List.Forall₂ (fun v t => v.isOf t = true) vs ts)
  (ordinary : ∀ w ∈ v :: vs, w.Ordinary)

include arguments ordinary

theorem single_argument {k : OperandKind} (parameters : admitsAll [k] ts) :
    ∃ w u, vs = [w] ∧ ts = [u] ∧ k.admits u ∧ w.isOf u ∧ w.Ordinary := by
  rcases ts with _ | ⟨u, _ | _⟩
  · cases parameters
  · obtain ⟨w, rest, fits, none, rfl⟩ := List.forall₂_cons_right_iff.1 arguments
    cases none
    rw [admitsAll, admitsAll, Bool.and_true] at parameters
    exact ⟨w, u, rfl, rfl, parameters, fits, ordinary w (by simp)⟩
  · simp [admitsAll] at parameters

omit ordinary in
theorem no_argument (parameters : admitsAll [] ts) : vs = [] ∧ ts = [] := by
  cases ts with
  | nil => exact ⟨List.forall₂_nil_right_iff.1 arguments, rfl⟩
  | cons u ts => cases parameters

theorem eq_yields (parameters : admitsAll [.any] ts) :
    Yields (eq.apply v vs) (eq.resultTy t ts) ∧ Yields (ne.apply v vs) (ne.resultTy t ts) := by
  obtain ⟨w, u, rfl, rfl, -, -, -⟩ := single_argument arguments ordinary parameters
  exact ⟨yields_ok rfl nofun, yields_ok rfl nofun⟩

include fits

theorem arithmetic_yields (among : p ∈ [add, sub, mul, div, mod])
    (receiver : OperandKind.numeric.admits t) (parameters : admitsAll [.numeric] ts) :
    Yields (p.apply v vs) (p.resultTy t ts) := by
  obtain ⟨w, u, rfl, rfl, right, fits', ordinary'⟩ := single_argument arguments ordinary parameters
  have yields := arithmetic?_yields p (ordinary v (by simp)) ordinary' receiver right fits fits'
  simp only [List.mem_cons, List.not_mem_nil, or_false] at among
  rcases among with rfl | rfl | rfl | rfl | rfl
  all_goals exact yields _

theorem neg_yields (receiver : OperandKind.numeric.admits t) (parameters : admitsAll [] ts) :
    Yields (neg.apply v vs) (neg.resultTy t ts) := by
  obtain ⟨rfl, rfl⟩ := no_argument arguments parameters
  rcases OperandKind.numeric_value (ordinary v (by simp)) receiver fits with
    ⟨a, rfl, named⟩ | ⟨x, rfl, named⟩
  all_goals
    refine yields_ok ?_ nofun
    simp [resultTy, named]
    rfl

theorem comparison_yields (among : p ∈ [lt, le, gt, ge])
    (receiver : OperandKind.numeric.admits t) (parameters : admitsAll [.numeric] ts) :
    Yields (p.apply v vs) (p.resultTy t ts) := by
  obtain ⟨w, u, rfl, rfl, right, fits', ordinary'⟩ := single_argument arguments ordinary parameters
  obtain ⟨b, compared⟩ :=
    comparison?_some p (ordinary v (by simp)) ordinary' receiver right fits fits'
  simp only [List.mem_cons, List.not_mem_nil, or_false] at among
  rcases among with rfl | rfl | rfl | rfl
  all_goals
    simp only [apply, List.head?_cons, compared]
    exact yields_ok rfl (by rintro _ ⟨⟩)

omit arguments in
theorem toInt_yields (receiver : OperandKind.numeric.admits t ∨ OperandKind.nil.admits t) :
    Yields (toInt.apply v vs) (toInt.resultTy t ts) := by
  rcases receiver with receiver | receiver
  · rcases OperandKind.numeric_value (ordinary v (by simp)) receiver fits with
      ⟨a, rfl, -⟩ | ⟨x, rfl, -⟩
    all_goals exact yields_ok rfl nofun
  · cases OperandKind.nil_value (ordinary v (by simp)) receiver fits
    exact yields_ok rfl nofun

omit arguments in
theorem toFloat_yields (receiver : OperandKind.numeric.admits t) :
    Yields (toFloat.apply v vs) (toFloat.resultTy t ts) := by
  rcases OperandKind.numeric_value (ordinary v (by simp)) receiver fits with
    ⟨a, rfl, -⟩ | ⟨x, rfl, -⟩
  all_goals exact yields_ok rfl nofun

theorem concat_yields (receiver : OperandKind.string.admits t)
    (parameters : admitsAll [.string] ts) : Yields (concat.apply v vs) (concat.resultTy t ts) := by
  obtain ⟨w, u, rfl, rfl, right, fits', ordinary'⟩ := single_argument arguments ordinary parameters
  obtain ⟨a, rfl⟩ := OperandKind.string_value (ordinary v (by simp)) receiver fits
  obtain ⟨b, rfl⟩ := OperandKind.string_value ordinary' right fits'
  exact yields_ok rfl nofun

/-- An operation that is found for the types of the operands accepts values of these types. -/
theorem apply_yields {name : String} (resolved : resolve? t name ts = some p) :
    Yields (p.apply v vs) (p.resultTy t ts) := by
  obtain ⟨s, found, rfl⟩ := Option.map_eq_some_iff.1 resolved
  have member := List.mem_of_find?_eq_some found
  have admitted := List.find?_some found
  rw [Signature.admits, Bool.and_eq_true, Bool.and_eq_true] at admitted
  obtain ⟨⟨-, receiver⟩, parameters⟩ := admitted
  simp only [signatures, List.mem_cons, List.not_mem_nil, or_false] at member
  rcases member with rfl | rfl | rfl | rfl | rfl | rfl | rfl | rfl | rfl | rfl | rfl | rfl | rfl |
    rfl | rfl | rfl | rfl
  case inr.inr.inr.inr.inr.inl => exact neg_yields fits arguments ordinary receiver parameters
  iterate 5 exact arithmetic_yields fits arguments ordinary (by simp) receiver parameters
  iterate 4 exact comparison_yields fits arguments ordinary (by simp) receiver parameters
  · exact toInt_yields fits ordinary (.inl receiver)
  · exact toInt_yields fits ordinary (.inr receiver)
  · exact toFloat_yields fits ordinary receiver
  · exact concat_yields fits arguments ordinary receiver parameters
  · exact (eq_yields arguments ordinary parameters).1
  · exact (eq_yields arguments ordinary parameters).2
  · cases v <;> exact yields_ok rfl (by rintro _ ⟨⟩)

end Groups

end Primitive

namespace Typed

variable {vs : List Value} {ts : List Ty}

/-- All values are of the types at their places as members. -/
theorem Arm.fits_of_members {arm : Arm}
    (members : List.Forall₂ (fun v t => v.isOfMember t = true) vs arm.types) : arm.fits vs := by
  rw [Arm.fits, List.all_eq_true]
  intro b there
  generalize arm.types = ts at members there
  induction members with
  | nil => cases there
  | cons fits _ ih =>
    rw [List.zip_cons_cons] at there
    rcases List.mem_cons.1 there with rfl | there
    · exact Value.isInstanceOf_of_member fits
    · exact ih there

/-- The values fit the types of an arm only if they are of these types. -/
theorem Arm.members_of_fits {arm : Arm} (same : vs.length = arm.types.length)
    (ordinary : ∀ v ∈ vs, v.Ordinary) (fits : arm.fits vs) :
    List.Forall₂ (fun v t => v.isOfMember t = true) vs arm.types := by
  rw [Arm.fits, List.all_eq_true] at fits
  generalize arm.types = ts at same fits
  induction vs generalizing ts with
  | nil =>
    cases ts with
    | nil => exact .nil
    | cons t ts => cases same
  | cons v vs ih =>
    cases ts with
    | nil => cases same
    | cons t ts =>
      rw [List.forall_mem_cons] at ordinary
      rw [List.zip_cons_cons, List.forall_mem_cons] at fits
      exact .cons (ordinary.1.isOfMember fits.1) (ih ordinary.2 ts (Nat.succ.inj same) fits.2)

/-- Values of some types are of one choice of their members. -/
theorem choice_of_values (fits : List.Forall₂ (fun v t => v.isOf t = true) vs ts) :
    ∃ choice ∈ choices (ts.map Ty.members),
      List.Forall₂ (fun v t => v.isOfMember t = true) vs choice := by
  induction fits with
  | nil => exact ⟨[], List.mem_singleton.2 rfl, .nil⟩
  | @cons v t vs ts first _ ih =>
    obtain ⟨m, member, fits⟩ := Ty.isOf_iff.1 first
    obtain ⟨choice, there, rest⟩ := ih
    refine ⟨m :: choice, ?_, .cons fits rest⟩
    rw [List.map_cons, choices, List.mem_flatMap]
    exact ⟨m, member, List.mem_map_of_mem there⟩

/-- A call with an arm for each choice of members has one for all values of the types. -/
theorem find?_fits {arms : List Arm} (all : arms.map (·.types) = choices (ts.map Ty.members))
    (fits : List.Forall₂ (fun v t => v.isOf t = true) vs ts) :
    ∃ arm, arms.find? (Arm.fits vs) = some arm := by
  obtain ⟨choice, there, members⟩ := choice_of_values fits
  obtain ⟨arm, member, rfl⟩ := List.mem_map.1 (all ▸ there)
  exact Option.isSome_iff_exists.1
    (List.find?_isSome.2 ⟨arm, member, Arm.fits_of_members members⟩)

end Typed

end TypedBlocks

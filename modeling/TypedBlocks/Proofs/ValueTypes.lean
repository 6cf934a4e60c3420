import TypedBlocks.Evaluation.Value
import TypedBlocks.Proofs.TypeUnions

/-!
# Values of types

A value is of a type if it is an instance of one of its members. Types that are the same have the
same values, and the values of a union are those of its parts. What the variables of an object are
like plays no part. As long as no object is of a class that dispatch takes other values to belong
to, dispatch tells the members of a type apart.
-/
namespace TypedBlocks

/-- The classes that dispatch takes values other than objects to belong to. -/
def valueClasses : List String :=
  ["Nil", "Bool", "Int", "Float", "Char", "String", "Main", "Class"]

/-- The value is an instance of a type that is no union: the primitive value of a simple type, the
class itself of a class type, or an object of the class that an object type names. -/
def Value.isOfMember (v : Value) (t : Ty) : Bool :=
  match t, v with
  | .simple .nil, .nil => true
  | .simple .bool, .bool _ => true
  | .simple .int, .int _ => true
  | .simple .float, .float _ => true
  | .simple .char, .char _ => true
  | .simple .string, .string _ => true
  | .simple .main, .main => true
  | .simple (.classOf name), .classObject c => name == c
  | .object name _, .object r => name == r.className
  | _, _ => false

/-- The value is an instance of one of the members of the type. -/
def Value.isOf (v : Value) (t : Ty) : Bool := t.members.any v.isOfMember

namespace Ty

variable {t u : Ty} {ts us : List Ty} {v : Value}

section Values

theorem isOfMember_same (member : t.IsMember) (member' : u.IsMember) (same : t == u) (v : Value) :
    v.isOfMember t = v.isOfMember u := by
  cases t with
  | union ts => cases member
  | simple s => rw [(simple_same_iff member').1 same]
  | object name vs =>
    obtain ⟨ws, rfl, -⟩ := (object_same_iff member').1 same
    cases v <;> rfl

theorem isOf_iff : v.isOf t = true ↔ ∃ m ∈ t.members, v.isOfMember m = true := List.any_eq_true

/-- A type covers the values of another if its members do. -/
theorem isOf_of_members (left : t.Proper) (right : u.Proper)
    (covers : ∀ m ∈ t.members, ∃ n ∈ u.members, n == m) (fits : v.isOf t) : v.isOf u := by
  obtain ⟨m, member, fits⟩ := isOf_iff.1 fits
  obtain ⟨n, there, same⟩ := covers m member
  refine isOf_iff.2 ⟨n, there, ?_⟩
  rw [isOfMember_same (right.members_flat n there) (left.members_flat m member) same]
  exact fits

theorem isOf_same (left : t.Proper) (right : u.Proper) (same : t == u) (fits : v.isOf t) :
    v.isOf u := by
  refine isOf_of_members left right (fun m member => ?_) fits
  obtain ⟨n, there, same⟩ := ((left.same_iff right).1 same).2 m member
  exact ⟨n, there, (left.members_proper m member).symm (right.members_proper n there) same⟩

theorem isOf_distinctMembers (proper : ∀ t ∈ ts, t.Proper) (whole : u.Proper)
    (members : u.members = distinctMembers ts) (there : t ∈ ts) (fits : v.isOf t) : v.isOf u :=
  isOf_of_members (proper t there) whole
    (fun m member => members ▸ distinctMembers_covers proper t there m member) fits

theorem isOf_join_left (left : t.Proper) (right : u.Proper) (fits : v.isOf t) :
    v.isOf (t.join u) :=
  isOf_distinctMembers (by simp [left, right]) (join_proper left right) (join_members left right)
    (by simp) fits

theorem isOf_join_right (left : t.Proper) (right : u.Proper) (fits : v.isOf u) :
    v.isOf (t.join u) :=
  isOf_distinctMembers (by simp [left, right]) (join_proper left right) (join_members left right)
    (by simp) fits

theorem isOf_merge? (proper : ∀ t ∈ ts, t.Proper) (merged : merge? ts = some u) (there : t ∈ ts)
    (fits : v.isOf t) : v.isOf u :=
  isOf_distinctMembers proper (merge?_proper proper merged) (merge?_members proper merged) there
    fits

/-- A type with values is never lost in a union. -/
theorem merge?_isSome (proper : ∀ t ∈ ts, t.Proper) (there : t ∈ ts) (fits : v.isOf t) :
    ∃ u, merge? ts = some u := by
  obtain ⟨m, member, -⟩ := isOf_iff.1 fits
  obtain ⟨d, found, -⟩ := distinctMembers_covers proper t there m member
  unfold merge?
  split
  · rename_i empty
    rw [List.isEmpty_iff.1 empty] at found
    cases found
  · exact ⟨_, rfl⟩

theorem isOf_le (left : t.Proper) (right : u.Proper) (below : t ≤ u) (fits : v.isOf t) :
    v.isOf u :=
  isOf_of_members left right (fun m member => by
    obtain ⟨n, there, same⟩ := below m member
    exact ⟨n, there, (left.members_proper m member).symm (right.members_proper n there) same⟩) fits

theorem isOf_optionLe {a b : Option Ty} (left : ∀ t ∈ a, t.Proper) (right : ∀ t ∈ b, t.Proper)
    (below : OptionLe a b) (typed : a = some t) (fits : v.isOf t) : ∃ u, b = some u ∧ v.isOf u := by
  subst typed
  obtain ⟨u, rfl, below⟩ := below.some_left
  exact ⟨u, rfl, isOf_le (left t rfl) (right u rfl) below fits⟩

/-- The members of a type can be replaced by others that have the same values. -/
theorem isOf_mapMembers {f : Ty → Ty} (proper : ∀ m ∈ t.members, (f m).Proper)
    (keeps : ∀ m ∈ t.members, v.isOfMember m → v.isOf (f m)) (fits : v.isOf t) :
    v.isOf ((merge? (t.members.map f)).getD t) := by
  obtain ⟨m, member, fits⟩ := isOf_iff.1 fits
  have there := List.mem_map_of_mem (f := f) member
  have each : ∀ u ∈ t.members.map f, u.Proper := List.forall_mem_map.2 proper
  obtain ⟨u, merged⟩ := merge?_isSome each there (keeps m member fits)
  rw [merged]
  exact isOf_merge? each merged there (keeps m member fits)

theorem isOf_nil (proper : t.Proper) (below : Ty.nil ≤ t) : Value.nil.isOf t :=
  isOf_le (.simple .nil) proper below rfl

theorem isOf_of_member (fits : v.isOfMember t) : v.isOf t := by
  cases t with
  | union ts => cases fits
  | _ => exact isOf_iff.2 ⟨_, List.mem_cons_self, fits⟩

theorem isOfMember_only {m : Ty} (only : t.only? = some m) (fits : v.isOf t) : v.isOfMember m := by
  obtain ⟨n, member, fits⟩ := isOf_iff.1 fits
  cases t with
  | simple s | object name vs =>
    cases only
    cases List.mem_singleton.1 member
    exact fits
  | union ts =>
    rcases ts with _ | ⟨u, _ | _⟩
    · cases only
    · cases only
      cases List.mem_singleton.1 member
      exact fits
    · cases only

/-- The class that a type without a union stands for is the class of its values. -/
theorem className_of_isOf {c : String} (named : t.className? = some c) (fits : v.isOf t) :
    v.className = c := by
  rw [Ty.className?] at named
  split at named
  · rename_i s only
    cases named
    have fits := isOfMember_only only fits
    cases v <;> cases s <;> first | rfl | cases fits
  · rename_i name vs only
    cases named
    have fits := isOfMember_only only fits
    cases v <;> first | exact (beq_iff_eq.1 fits).symm | cases fits
  · cases named

end Values

end Ty

namespace Value

/-- The value is no object of a class whose instances are other values. -/
def Ordinary (v : Value) : Prop := ∀ r, v = .object r → r.className ∉ valueClasses

variable {v : Value} {t : Ty} {vs : List Value} {ts : List Ty}

theorem isInstanceOf_of_member (fits : v.isOfMember t) : v.isInstanceOf t := by
  cases t with
  | union ts => cases fits
  | object name ws => cases v <;> exact fits
  | simple s => cases v <;> cases s <;> first | exact fits | rfl | cases fits

theorem Ordinary.isOfMember (ordinary : v.Ordinary) (fits : v.isInstanceOf t) : v.isOfMember t := by
  have named : ∀ s : SimpleTy, s.className ∈ valueClasses := by
    intro s
    cases s <;> simp [valueClasses, SimpleTy.className]
  cases t with
  | union ts => cases v <;> cases fits
  | object name ws => cases v <;> exact fits
  | simple s =>
    cases v with
    | object r =>
      have same : s.className = r.className := by cases s <;> exact beq_iff_eq.1 fits
      exact absurd (same ▸ named s) (ordinary r rfl)
    | _ => cases s <;> exact fits

end Value

end TypedBlocks

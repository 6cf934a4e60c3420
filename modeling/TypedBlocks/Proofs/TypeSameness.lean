import Mathlib.Data.List.Forall2
import TypedBlocks.Proofs.AssociationLists
import TypedBlocks.Ty.Basic

/-!
# Sameness of types

A type is proper if its objects bind every variable once and its unions hold different types that
are no unions. Two proper types are the same exactly when each member of one is the same as a member
of the other and they have equally many, so sameness is an equivalence on proper types.
-/
namespace TypedBlocks.Ty

/-- The type is no union. -/
def IsMember : Ty → Prop
  | .union _ => False
  | _ => True

/-- Variables are bound once, and members are no unions and differ from each other. -/
inductive Proper : Ty → Prop
  | simple (s : SimpleTy) : Proper (.simple s)
  | object (name : String) (vars : List (String × Ty)) (once : (vars.map (·.1)).Nodup)
      (types : ∀ v ∈ vars, Proper v.2) : Proper (.object name vars)
  | union (ts : List Ty) (flat : ∀ t ∈ ts, t.IsMember) (types : ∀ t ∈ ts, Proper t)
      (different : ts.Pairwise fun t u => ¬ t == u) : Proper (.union ts)

@[simp] theorem isMember_simple (s : SimpleTy) : (Ty.simple s).IsMember := trivial

@[simp] theorem isMember_object (name : String) (vs : List (String × Ty)) :
    (Ty.object name vs).IsMember := trivial

variable {t u w : Ty} {name : String} {vs ws : List (String × Ty)}

theorem beq_iff_same : t == u ↔ t.same u = true := Iff.rfl

theorem IsMember.members (member : t.IsMember) : t.members = [t] := by
  cases t with
  | union ts => cases member
  | _ => rfl

theorem IsMember.collapse (member : t.IsMember) : t.collapse = t := by
  cases t with
  | union ts => cases member
  | _ => rfl

theorem Proper.members_flat (proper : t.Proper) : ∀ m ∈ t.members, m.IsMember := by
  cases proper with
  | union ts flat => exact flat
  | _ =>
    intro m member
    cases List.mem_singleton.1 member
    trivial

theorem Proper.members_proper (proper : t.Proper) : ∀ m ∈ t.members, m.Proper := by
  cases proper with
  | union ts flat types => exact types
  | simple s =>
    intro m member
    cases List.mem_singleton.1 member
    exact .simple s
  | object name vars once types =>
    intro m member
    cases List.mem_singleton.1 member
    exact .object name vars once types

theorem Proper.members_different (proper : t.Proper) :
    t.members.Pairwise fun m n => ¬ m == n := by
  cases proper with
  | union ts flat types different => exact different
  | _ => exact List.pairwise_singleton _ _

theorem Proper.vars_once (proper : (Ty.object name vs).Proper) : (vs.map (·.1)).Nodup := by
  cases proper with
  | object _ _ once types => exact once

theorem Proper.vars_proper (proper : (Ty.object name vs).Proper) : ∀ v ∈ vs, v.2.Proper := by
  cases proper with
  | object _ _ once types => exact types

/-- A type that is the only member stands for the whole. -/
theorem collapse_eq {m : Ty} (only : t.members = [m]) : t.collapse = m := by
  cases t with
  | union ts =>
    cases only
    rfl
  | _ =>
    cases only
    rfl

theorem collapse_many (several : ¬ ∃ m, t.members = [m]) : ∃ ts, t = .union ts ∧ t.collapse = t := by
  cases t with
  | union ts =>
    refine ⟨ts, rfl, ?_⟩
    match ts with
    | [] => rfl
    | [m] => exact absurd ⟨m, rfl⟩ several
    | _ :: _ :: _ => rfl
  | _ => exact absurd ⟨_, rfl⟩ several

section Members

theorem simple_same_iff {s : SimpleTy} (member : u.IsMember) : Ty.simple s == u ↔ u = .simple s := by
  rw [beq_iff_same, same, member.collapse]
  cases u with
  | simple s' =>
    rw [beq_iff_eq, simple.injEq]
    exact eq_comm
  | _ => simp

theorem sameVars_iff : sameVars vs ws = true ↔
    ∀ v ∈ vs, ∃ u, ws.lookup v.1 = some u ∧ v.2 == u := by
  induction vs with
  | nil => simp [sameVars]
  | cons v vs ih =>
    obtain ⟨n, t⟩ := v
    rw [sameVars, Bool.and_eq_true, ih, List.forall_mem_cons]
    cases found : ws.lookup n with
    | none => simp
    | some u => simp [beq_iff_same]

theorem object_same_iff (member : u.IsMember) : Ty.object name vs == u ↔
    ∃ ws, u = .object name ws ∧ vs.length = ws.length ∧
      ∀ v ∈ vs, ∃ t, ws.lookup v.1 = some t ∧ v.2 == t := by
  rw [beq_iff_same, same, member.collapse]
  cases u with
  | object name' ws =>
    simp only [Bool.and_eq_true, beq_iff_eq, sameVars_iff, object.injEq]
    constructor
    · rintro ⟨⟨rfl, sizes⟩, vars⟩
      exact ⟨ws, ⟨rfl, rfl⟩, sizes, vars⟩
    · rintro ⟨ws', ⟨rfl, rfl⟩, sizes, vars⟩
      exact ⟨⟨rfl, sizes⟩, vars⟩
  | _ => simp

theorem sameMembers_iff {ts us : List Ty} : sameMembers ts us = true ↔
    ∀ t ∈ ts, ∃ u ∈ us, t == u := by
  induction ts with
  | nil => simp [sameMembers]
  | cons t ts ih =>
    rw [sameMembers, Bool.and_eq_true, ih, List.forall_mem_cons, List.any_eq_true]
    rfl

/-- A type that is no union is the same as any type with it as the only member. -/
theorem IsMember.same_iff (member : t.IsMember) (proper : u.Proper) :
    t == u ↔ ∃ m, u.members = [m] ∧ t == m := by
  by_cases single : ∃ m, u.members = [m]
  · obtain ⟨m, only⟩ := single
    have flat := proper.members_flat m (by simp [only])
    have same : t.same u = t.same m := by
      cases t with
      | union ts => cases member
      | simple s => rw [Ty.same, Ty.same, collapse_eq only, flat.collapse]
      | object n vs => rw [Ty.same, Ty.same, collapse_eq only, flat.collapse]
    rw [beq_iff_same, same, only]
    simp [beq_iff_same]
  · obtain ⟨us, rfl, whole⟩ := collapse_many single
    have differs : t.same (.union us) = false := by
      cases t with
      | union ts => cases member
      | simple s => rw [Ty.same, whole]
      | object n vs => rw [Ty.same, whole]
    rw [beq_iff_same, differs]
    constructor
    · nofun
    · rintro ⟨m, only, -⟩
      exact absurd ⟨m, only⟩ single

theorem union_same_iff {ts : List Ty} (several : ¬ ∃ m, ts = [m]) (proper : u.Proper) :
    Ty.union ts == u ↔ ts.length = u.members.length ∧ ∀ m ∈ ts, ∃ n ∈ u.members, m == n := by
  have same : (Ty.union ts).same u = match u.collapse with
      | .union us => ts.length == us.length && sameMembers ts us
      | _ => false := by
    match ts with
    | [] => exact Ty.same.eq_4 _ _ nofun
    | [m] => exact absurd ⟨m, rfl⟩ several
    | _ :: _ :: _ => exact Ty.same.eq_4 _ _ nofun
  rw [beq_iff_same, same]
  by_cases single : ∃ m, u.members = [m]
  · obtain ⟨m, only⟩ := single
    have flat := proper.members_flat m (by simp [only])
    rw [collapse_eq only, only]
    constructor
    · intro falsely
      cases m with
      | union us => cases flat
      | _ => cases falsely
    · rintro ⟨sizes, -⟩
      exact absurd (List.length_eq_one_iff.1 sizes) several
  · obtain ⟨us, rfl, whole⟩ := collapse_many single
    rw [whole]
    simp [sameMembers_iff, members]

end Members

/-- Proper types are the same if and only if they have equally many members and every member of the
first is the same as one of the second. -/
theorem Proper.same_iff (left : t.Proper) (right : u.Proper) : t == u ↔
    t.members.length = u.members.length ∧ ∀ m ∈ t.members, ∃ n ∈ u.members, m == n := by
  have alone {t : Ty} (member : t.IsMember) : t == u ↔
      [t].length = u.members.length ∧ ∀ m ∈ [t], ∃ n ∈ u.members, m == n := by
    rw [member.same_iff right]
    constructor
    · rintro ⟨m, only, same⟩
      simp [only, same]
    · rintro ⟨sizes, same⟩
      obtain ⟨m, only⟩ := List.length_eq_one_iff.1 sizes.symm
      simp only [List.mem_singleton, forall_eq, only] at same
      obtain ⟨n, rfl, same⟩ := same
      exact ⟨n, only, same⟩
  cases left with
  | simple s => exact alone trivial
  | object n vs => exact alone trivial
  | union ts flat types different =>
    by_cases single : ∃ m, ts = [m]
    · obtain ⟨m, rfl⟩ := single
      rw [beq_iff_same, Ty.same]
      exact alone (flat m List.mem_cons_self)
    · exact union_same_iff single right

section Equivalence

section Matchings

variable {α : Type} {R : α → α → Prop}

/-- Different elements of one list that are matched by elements of another are matched one by one by
some of those. -/
theorem exists_matching (xs ys : List α) (apart : xs.Pairwise fun x y => ¬ R x y)
    (joined : ∀ x ∈ xs, ∀ x' ∈ xs, ∀ y ∈ ys, R x y → R x' y → R x x')
    (matched : ∀ x ∈ xs, ∃ y ∈ ys, R x y) :
    ∃ zs others, (zs ++ others).Perm ys ∧ List.Forall₂ R xs zs := by
  induction xs generalizing ys with
  | nil => exact ⟨[], ys, .refl _, .nil⟩
  | cons x xs ih =>
    obtain ⟨y, member, related⟩ := matched x List.mem_cons_self
    obtain ⟨before, after, rfl⟩ := List.append_of_mem member
    rw [List.pairwise_cons] at apart
    have remaining : ∀ a ∈ xs, ∃ b ∈ before ++ after, R a b := by
      intro a there
      obtain ⟨b, found, same⟩ := matched a (List.mem_cons_of_mem x there)
      have differs : b ≠ y := by
        rintro rfl
        exact apart.1 a there (joined x List.mem_cons_self a (List.mem_cons_of_mem x there) b
          member related same)
      exact ⟨b, by grind, same⟩
    obtain ⟨zs, others, order, rest⟩ := ih (before ++ after) apart.2
      (fun a first b second c there => joined a (List.mem_cons_of_mem x first) b
        (List.mem_cons_of_mem x second) c (by grind)) remaining
    exact ⟨y :: zs, others, (order.cons y).trans List.perm_middle.symm, .cons related rest⟩

variable (xs ys : List α) (apart : xs.Pairwise fun x y => ¬ R x y) (sizes : ys.length ≤ xs.length)
  (joined : ∀ x ∈ xs, ∀ x' ∈ xs, ∀ y ∈ ys, R x y → R x' y → R x x')
  (matched : ∀ x ∈ xs, ∃ y ∈ ys, R x y)

include apart joined matched

theorem matched_length : xs.length ≤ ys.length := by
  obtain ⟨zs, others, order, each⟩ := exists_matching xs ys apart joined matched
  rw [each.length_eq, ← order.length_eq, List.length_append]
  exact Nat.le_add_right _ _

include sizes

/-- If the other list is no longer, all its elements are matched in some order. -/
theorem matched_perm : ∃ zs, zs.Perm ys ∧ List.Forall₂ R xs zs := by
  obtain ⟨zs, others, order, each⟩ := exists_matching xs ys apart joined matched
  have none : others = [] := by
    rw [each.length_eq, ← order.length_eq, List.length_append] at sizes
    exact List.eq_nil_of_length_eq_zero (by omega)
  subst none
  exact ⟨zs, List.append_nil zs ▸ order, each⟩

theorem matched_back : ∀ y ∈ ys, ∃ x ∈ xs, R x y := by
  obtain ⟨zs, order, each⟩ := matched_perm xs ys apart sizes joined matched
  intro y member
  have back : ∀ y ∈ zs, ∃ x ∈ xs, R x y := by
    intro y member
    obtain ⟨i, inside, rfl⟩ := List.getElem_of_mem member
    have bound : i < xs.length := each.length_eq ▸ inside
    exact ⟨xs[i], List.getElem_mem bound, List.Forall₂.get each bound inside⟩
  exact back y (order.mem_iff.2 member)

end Matchings

theorem Proper.refl (proper : t.Proper) : t == t := by
  induction proper with
  | simple s => exact (simple_same_iff (by simp)).2 rfl
  | object n vs once types ih =>
    refine (object_same_iff (by simp)).2 ⟨vs, rfl, rfl, fun v member => ⟨v.2, ?_, ih v member⟩⟩
    exact lookup_of_mem once member
  | union ts flat types different ih =>
    have whole := Proper.union ts flat types different
    exact (whole.same_iff whole).2 ⟨rfl, fun m member => ⟨m, member, ih m member⟩⟩

/-- Sameness with the type as the first can be turned around and chained. -/
structure Tame (t : Ty) : Prop where
  symm : ∀ u, u.Proper → t == u → u == t
  trans : ∀ u w, u.Proper → w.Proper → t == u → u == w → t == w

theorem Tame.of_members (proper : t.Proper) (tame : ∀ m ∈ t.members, Tame m) : Tame t where
  symm u right same := by
    obtain ⟨sizes, matched⟩ := (proper.same_iff right).1 same
    refine (right.same_iff proper).2 ⟨sizes.symm, fun n there => ?_⟩
    have back := matched_back (R := fun m n => m == n) t.members u.members
      proper.members_different (Nat.le_of_eq sizes.symm) ?_ matched
    · obtain ⟨m, here, same⟩ := back n there
      exact ⟨m, here, (tame m here).symm n (right.members_proper n there) same⟩
    · intro m here m' here' n there same same'
      have turned := (tame m' here').symm n (right.members_proper n there) same'
      exact (tame m here).trans n m' (right.members_proper n there)
        (proper.members_proper m' here') same turned
  trans u w mid right first second := by
    obtain ⟨sizes, matched⟩ := (proper.same_iff mid).1 first
    obtain ⟨sizes', matched'⟩ := (mid.same_iff right).1 second
    refine (proper.same_iff right).2 ⟨sizes.trans sizes', fun m here => ?_⟩
    obtain ⟨n, there, same⟩ := matched m here
    obtain ⟨k, beyond, same'⟩ := matched' n there
    exact ⟨k, beyond, (tame m here).trans n k (mid.members_proper n there)
      (right.members_proper k beyond) same same'⟩

/-- What is the same as a type that is no union has it as its only member. -/
theorem Tame.of_single (member : t.IsMember) (proper : t.Proper)
    (symm : ∀ m, m.IsMember → m.Proper → t == m → m == t)
    (trans : ∀ m n, m.IsMember → n.IsMember → m.Proper → n.Proper → t == m → m == n → t == n) :
    Tame t where
  symm u right same := by
    obtain ⟨m, only, same⟩ := (member.same_iff right).1 same
    have there : m ∈ u.members := by simp [only]
    refine (right.same_iff proper).2 ⟨by simp [only, member.members], fun n here => ?_⟩
    rw [only, List.mem_singleton] at here
    rw [here, member.members]
    exact ⟨t, List.mem_cons_self, symm m (right.members_flat m there)
      (right.members_proper m there) same⟩
  trans u w mid right first second := by
    obtain ⟨m, only, same⟩ := (member.same_iff mid).1 first
    obtain ⟨sizes, matched⟩ := (mid.same_iff right).1 second
    rw [only] at sizes matched
    have there : m ∈ u.members := by simp [only]
    obtain ⟨n, only'⟩ := List.length_eq_one_iff.1 sizes.symm
    obtain ⟨n', beyond, same'⟩ := matched m List.mem_cons_self
    obtain rfl : n' = n := by simpa [only'] using beyond
    refine (member.same_iff right).2 ⟨n', only', ?_⟩
    exact trans m n' (mid.members_flat m there) (right.members_flat n' beyond)
      (mid.members_proper m there) (right.members_proper n' beyond) same same'

theorem Proper.tame (proper : t.Proper) : Tame t := by
  induction proper with
  | simple s =>
    refine .of_single (by simp) (.simple s) (fun m member _ same => ?_)
      (fun m n member _ _ _ first second => ?_)
    · rw [(simple_same_iff member).1 same]
      exact (simple_same_iff (by simp)).2 rfl
    · rwa [(simple_same_iff member).1 first] at second
  | object name vs once types ih =>
    refine .of_single (by simp) (.object name vs once types) (fun m member proper same => ?_)
      (fun m n member member' proper proper' first second => ?_)
    · obtain ⟨ws, rfl, sizes, matched⟩ := (object_same_iff member).1 same
      have types' : ∀ w ∈ ws, w.2.Proper := proper.vars_proper
      have back := matched_back (R := fun v w : String × Ty => v.1 = w.1 ∧ v.2 == w.2) vs ws ?_
        (Nat.le_of_eq sizes.symm) ?_ ?_
      · refine (object_same_iff (by simp)).2 ⟨vs, rfl, sizes.symm, fun w there => ?_⟩
        obtain ⟨v, here, sameName, same⟩ := back w there
        exact ⟨v.2, sameName ▸ lookup_of_mem once here,
          (ih v here).symm w.2 (types' w there) same⟩
      · exact (List.pairwise_map.1 once).imp fun apart same => apart same.1
      · rintro v here v' here' w there ⟨sameName, same⟩ ⟨sameName', same'⟩
        have turned := (ih v' here').symm w.2 (types' w there) same'
        exact ⟨sameName.trans sameName'.symm, (ih v here).trans w.2 v'.2 (types' w there)
          (types v' here') same turned⟩
      · intro v here
        obtain ⟨u, found, same⟩ := matched v here
        exact ⟨(v.1, u), mem_of_lookup found, rfl, same⟩
    · obtain ⟨ws, rfl, sizes, matched⟩ := (object_same_iff member).1 first
      obtain ⟨xs, rfl, sizes', matched'⟩ := (object_same_iff member').1 second
      refine (object_same_iff (by simp)).2 ⟨xs, rfl, sizes.trans sizes', fun v here => ?_⟩
      obtain ⟨u, found, same⟩ := matched v here
      obtain ⟨x, found', same'⟩ := matched' (v.1, u) (mem_of_lookup found)
      exact ⟨x, found', (ih v here).trans u x (proper.vars_proper _ (mem_of_lookup found))
        (proper'.vars_proper _ (mem_of_lookup found')) same same'⟩
  | union ts flat types different ih =>
    exact .of_members (.union ts flat types different) ih

theorem Proper.symm (left : t.Proper) (right : u.Proper) (same : t == u) : u == t :=
  left.tame.symm u right same

theorem Proper.trans (left : t.Proper) (mid : u.Proper) (right : w.Proper) (first : t == u)
    (second : u == w) : t == w := left.tame.trans u w mid right first second

end Equivalence

section Kinds

/-- Types that are equal or, if they are proper, the same. -/
def Alike (t u : Ty) : Prop := t = u ∨ (t.Proper ∧ u.Proper ∧ t == u)

theorem alike_equivalence : Equivalence Alike where
  refl t := .inl rfl
  symm := by
    rintro t u (rfl | ⟨left, right, same⟩)
    · exact .inl rfl
    · exact .inr ⟨right, left, left.symm right same⟩
  trans := by
    rintro t u w (rfl | ⟨left, mid, first⟩) second
    · exact second
    · rcases second with rfl | ⟨-, right, second⟩
      · exact .inr ⟨left, mid, first⟩
      · exact .inr ⟨left, right, left.trans mid right first second⟩

/-- A type up to sameness. -/
def Kind := Quotient (Setoid.mk Alike alike_equivalence)

def kind (t : Ty) : Kind := Quotient.mk (Setoid.mk Alike alike_equivalence) t

theorem kind_eq_iff (left : t.Proper) (right : u.Proper) : t.kind = u.kind ↔ t == u := by
  constructor
  · intro same
    rcases Quotient.exact same with rfl | ⟨-, -, same⟩
    · exact left.refl
    · exact same
  · exact fun same => Quotient.sound (.inr ⟨left, right, same⟩)

end Kinds

end TypedBlocks.Ty

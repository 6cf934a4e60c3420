import TypedBlocks.Proofs.KnownTypes

/-!
# Merged types

A type that is put together from others by joins depends only on the order in which they come, not on
how the joins are nested: it is the merge of their list.
-/
namespace TypedBlocks.Ty

section Lists

variable {t u : Ty} {ts us : List Ty}

theorem insertNew_known {m : Ty} (known : ∃ d ∈ ts, d == m) : insertNew ts m = ts :=
  if_pos (List.any_eq_true.2 known)

theorem foldl_insertNew_append (apart : ∀ t ∈ ts, ∀ u ∈ us, ¬ t == u)
    (different : us.Pairwise fun t u => ¬ t == u) : us.foldl insertNew ts = ts ++ us := by
  induction us generalizing ts with
  | nil => simp
  | cons u us ih =>
    rw [List.pairwise_cons] at different
    have new : insertNew ts u = ts ++ [u] := by
      refine if_neg fun known => ?_
      obtain ⟨d, there, same⟩ := List.any_eq_true.1 known
      exact apart d there u List.mem_cons_self same
    rw [List.foldl_cons, new, ih _ different.2, List.append_assoc, List.singleton_append]
    intro t member v later
    rcases List.mem_append.1 member with old | last
    · exact apart t old v (List.mem_cons_of_mem u later)
    · rw [List.mem_singleton.1 last]
      exact different.1 v later

theorem distinct_of_different (different : ts.Pairwise fun t u => ¬ t == u) : distinct ts = ts :=
  foldl_insertNew_append nofun different

/-- Lists are entered one after another, whether repetitions have been dropped before or not. -/
theorem foldl_insertNew_foldl {all : List Ty} (old : ∀ x ∈ all, x.Proper) (mid : ∀ x ∈ ts, x.Proper)
    (new : ∀ x ∈ us, x.Proper) :
    (us.foldl insertNew ts).foldl insertNew all = us.foldl insertNew (ts.foldl insertNew all) := by
  induction us generalizing ts with
  | nil => rfl
  | cons u us ih =>
    rw [List.forall_mem_cons] at new
    have entered : ∀ x ∈ insertNew ts u, x.Proper := by
      intro x member
      rcases insertNew_subset x member with there | rfl
      · exact mid x there
      · exact new.1
    rw [List.foldl_cons, List.foldl_cons, ih entered new.2]
    congr 1
    by_cases known : ∃ d ∈ ts, d == u
    · obtain ⟨d, there, same⟩ := known
      obtain ⟨d', inside, same'⟩ : ∃ d' ∈ ts.foldl insertNew all, d' == d :=
        foldl_insertNew_covers mid d there
      have proper : d'.Proper := by
        rcases foldl_insertNew_subset d' inside with earlier | later
        · exact old d' earlier
        · exact mid d' later
      rw [insertNew_known ⟨d, there, same⟩, insertNew_known
        ⟨d', inside, proper.trans (mid d there) new.1 same' same⟩]
    · have fresh : insertNew ts u = ts ++ [u] := if_neg fun any => known (List.any_eq_true.1 any)
      rw [fresh, List.foldl_append]
      rfl

theorem distinct_append_distinct (left : ∀ x ∈ ts, x.Proper) (right : ∀ x ∈ us, x.Proper) :
    distinct (distinct ts ++ distinct us) = distinct (ts ++ us) := by
  have known : ∀ x ∈ distinct ts, x.Proper := by
    intro x member
    exact left x ((foldl_insertNew_subset x member).resolve_left (by simp))
  have different : (distinct ts).Pairwise fun t u => ¬ t == u :=
    foldl_insertNew_different List.Pairwise.nil
  have again : distinct (distinct ts) = distinct ts := distinct_of_different different
  calc distinct (distinct ts ++ distinct us)
    _ = (distinct us).foldl insertNew (distinct (distinct ts)) := List.foldl_append
    _ = (distinct us).foldl insertNew (distinct ts) := by rw [again]
    _ = us.foldl insertNew (distinct ts) := foldl_insertNew_foldl known nofun right
    _ = distinct (ts ++ us) := List.foldl_append.symm

end Lists

section Known

variable {V : Vocabulary} {t : Ty} {ts us : List Ty}

theorem members_proper_of_known (known : ∀ t ∈ ts, t.Known V) :
    ∀ x ∈ ts.flatMap members, x.Proper := by
  intro x member
  obtain ⟨t, there, inside⟩ := List.mem_flatMap.1 member
  exact (known t there).proper.members_proper x inside

/-- Types are merged to nothing only if there are none. -/
theorem merge?_eq_none (known : ∀ t ∈ ts, t.Known V) : merge? ts = none ↔ ts = [] := by
  constructor
  · intro nothing
    refine Classical.byContradiction fun nonempty => ?_
    obtain ⟨u, merged⟩ := Over.merge?_isSome knownMember_flat known nonempty
    rw [nothing] at merged
    cases merged
  · rintro rfl
    rfl

theorem merge?_single (known : t.Known V) : merge? [t] = some t := by
  have whole : distinctMembers [t] = t.members := by
    rw [distinctMembers, List.flatMap_singleton]
    exact distinct_of_different known.reduced.different
  have collapsed : (Ty.union t.members).collapse = t := by
    cases t with
    | simple s => rfl
    | object c vs => rfl
    | union ms => exact known.reduced.collapsed
  rw [merge?, unionOf, whole, collapsed, if_neg]
  simpa using known.reduced.some

theorem mergeOption_merge? (left : ∀ t ∈ ts, t.Known V) (right : ∀ t ∈ us, t.Known V) :
    mergeOption (merge? ts) (merge? us) = merge? (ts ++ us) := by
  have both : ∀ t ∈ ts ++ us, t.Known V := by
    intro t member
    rcases List.mem_append.1 member with first | second
    · exact left t first
    · exact right t second
  cases first : merge? ts with
  | none =>
    rw [(merge?_eq_none left).1 first, List.nil_append]
    cases merge? us <;> rfl
  | some t =>
    cases second : merge? us with
    | none =>
      rw [(merge?_eq_none right).1 second, List.append_nil, first]
      rfl
    | some u =>
      have proper : ∀ t ∈ ts, t.Proper := fun t member => (left t member).proper
      have proper' : ∀ t ∈ us, t.Proper := fun t member => (right t member).proper
      have joined : distinctMembers [t, u] = distinctMembers (ts ++ us) := by
        rw [distinctMembers, distinctMembers, List.flatMap_append, List.flatMap_cons,
          List.flatMap_singleton, merge?_members proper first, merge?_members proper' second]
        exact distinct_append_distinct (members_proper_of_known left) (members_proper_of_known right)
      have nonempty : ts ++ us ≠ [] := by
        intro empty
        rw [(List.append_eq_nil_iff.1 empty).1] at first
        cases first
      obtain ⟨w, merged⟩ := Over.merge?_isSome knownMember_flat both nonempty
      rw [merged]
      rw [merge?] at merged
      split at merged
      · cases merged
      · cases merged
        rw [mergeOption, join, unionOf, joined, unionOf]

end Known

/-- The type is put together from those of the list, in this order. -/
inductive Merges : Option Ty → List Ty → Prop
  | none : Merges none []
  | one (t : Ty) : Merges (some t) [t]
  | both {a b : Option Ty} {ts us : List Ty} (first : Merges a ts) (second : Merges b us) :
    Merges (mergeOption a b) (ts ++ us)

namespace Merges

variable {a : Option Ty} {ts us : List Ty}

theorem of_eq (merges : Merges a ts) (same : us = ts) : Merges a us := same ▸ merges

theorem eq_merge? {V : Vocabulary} (merges : Merges a ts) (known : ∀ t ∈ ts, t.Known V) :
    a = merge? ts := by
  induction merges with
  | none => rfl
  | one t => exact (merge?_single (known t List.mem_cons_self)).symm
  | both first second left right =>
    rw [left fun t member => known t (List.mem_append_left _ member),
      right fun t member => known t (List.mem_append_right _ member)]
    exact mergeOption_merge? (fun t member => known t (List.mem_append_left _ member))
      fun t member => known t (List.mem_append_right _ member)

end Merges

end TypedBlocks.Ty

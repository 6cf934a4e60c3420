import Mathlib.Data.Set.Card
import Mathlib.Data.Set.Finite.List
import Mathlib.Data.Set.Finite.Powerset
import TypedBlocks.Proofs.KnownStates

/-!
# Finitely many kinds

A finite vocabulary makes finitely many types up to sameness: members are simple types and objects
whose variables hold bare types, and a union is told apart by the kinds of its members. So there are
finitely many keys of methods and, since scopes are of bounded depth, of variables, and tables that
hold known keys cannot have more than so many entries.
-/
namespace TypedBlocks

/-- There are finitely many classes, names and numbers of nodes. -/
structure Vocabulary.Few (V : Vocabulary) : Prop where
  classes : {c | V.classes c}.Finite
  names : {n | V.names n}.Finite
  nodes : {id | V.nodes id}.Finite

namespace Inference

section Counting

variable {α β γ κ : Type*}

/-- A function has finitely many values if they are determined by those of a function that has. -/
theorem finite_image_of_determined {S : Set α} {f : α → β} {g : α → γ} (few : (f '' S).Finite)
    (determined : ∀ a ∈ S, ∀ b ∈ S, f a = f b → g a = g b) : (g '' S).Finite := by
  have : Finite (f '' S) := few
  choose source inside value using fun c : g '' S => c.2
  have : Finite (g '' S) := by
    apply Finite.of_injective fun c => (⟨f (source c), source c, inside c, rfl⟩ : f '' S)
    intro c d same
    have values := determined _ (inside c) _ (inside d) (congrArg Subtype.val same)
    exact Subtype.ext ((value c).symm.trans (values.trans (value d)))
  exact Set.toFinite _

theorem finite_lists {S : Set α} (few : S.Finite) (n : Nat) :
    {l : List α | l.length ≤ n ∧ ∀ a ∈ l, a ∈ S}.Finite := by
  have : Finite S := few
  refine ((List.finite_length_le S n).image (List.map Subtype.val)).subset ?_
  rintro l ⟨bounded, inside⟩
  lift l to List S using inside
  exact ⟨l, by simpa using bounded, rfl⟩

/-- A list of elements of different kinds is no longer than there are kinds. -/
theorem length_le_kinds {K : α → Prop} {kind : α → κ} (few : (kind '' {a | K a}).Finite)
    {l : List α} (each : ∀ a ∈ l, K a) (apart : l.Pairwise fun a b => kind a ≠ kind b) :
    l.length ≤ (kind '' {a | K a}).ncard := by
  classical
  have once : (l.map kind).Nodup := List.pairwise_map.2 apart
  have inside : ((l.map kind).toFinset : Set κ) ⊆ kind '' {a | K a} := by
    intro k member
    obtain ⟨a, listed, rfl⟩ := List.mem_map.1 (List.mem_toFinset.1 member)
    exact ⟨a, each a listed, rfl⟩
  calc l.length = (l.map kind).toFinset.card := by
        rw [List.toFinset_card_of_nodup once, List.length_map]
    _ = ((l.map kind).toFinset : Set κ).ncard := (Set.ncard_coe_finset _).symm
    _ ≤ _ := Set.ncard_le_ncard inside few

end Counting

end Inference

namespace Ty

open Inference

variable {V : Vocabulary} {P : Ty → Prop}

theorem Over.eq_kind (flat : Flat P) {t u : Ty} (left : t.Over P) (right : u.Over P)
    (same : kind '' {m | m ∈ t.members} = kind '' {m | m ∈ u.members}) : t.kind = u.kind := by
  have below {t u : Ty} (left : t.Over P) (right : u.Over P)
      (inside : kind '' {m | m ∈ t.members} ⊆ kind '' {m | m ∈ u.members}) : t ≤ u := by
    rw [le_iff]
    intro m member
    obtain ⟨n, there, kinds⟩ := inside ⟨m, member, rfl⟩
    refine ⟨n, there, ?_⟩
    exact (kind_eq_iff (flat m (left.members m member)).2
      (flat n (right.members n there)).2).1 kinds.symm
  rw [kind_eq_iff (left.proper flat) (right.proper flat)]
  exact (left.proper flat).same_of_le (right.proper flat) (below left right same.subset)
    (below right left same.superset)

/-- Types over finitely many kinds of members are of finitely many kinds. -/
theorem finite_over (flat : Flat P) (few : (kind '' {m | P m}).Finite) :
    (kind '' {t | t.Over P}).Finite := by
  refine finite_image_of_determined (f := fun t => kind '' {m | m ∈ t.members})
    (few.finite_subsets.subset ?_) fun t left u right => left.eq_kind flat right
  rintro _ ⟨t, built, rfl⟩
  exact Set.image_mono built.members

theorem finite_simple (few : V.Few) : {s : SimpleTy | s.Known V}.Finite := by
  have others : ({.nil, .bool, .int, .float, .char, .string, .main} : Set SimpleTy).Finite :=
    Set.toFinite _
  refine (others.union (few.classes.image SimpleTy.classOf)).subset ?_
  intro s known
  cases s with
  | classOf c => exact .inr ⟨c, known, rfl⟩
  | _ => simp

theorem finite_bare (few : V.Few) : (kind '' {t | t.Bare V}).Finite := by
  refine finite_over bareMember_flat (Set.Finite.image _ ?_)
  refine (((finite_simple few).image simple).union (few.classes.image instanceOf)).subset ?_
  rintro m (⟨s, known, rfl⟩ | ⟨c, known, rfl⟩)
  · exact .inl ⟨s, known, rfl⟩
  · exact .inr ⟨c, known, rfl⟩

/-- The variables of an object with the kinds of what they hold. -/
def varKinds (vs : List (String × Ty)) : Set (String × Kind) :=
  (fun v => (v.1, v.2.kind)) '' {v | v ∈ vs}

theorem VarsKnown.proper {c : String} {vs : List (String × Ty)} (vars : VarsKnown V vs) :
    (object c vs).Proper :=
  .object c vs (Entries.nodup vars) fun v member => (vars.each v member).2.proper

/-- What the variables of an object hold determines its kind. -/
theorem VarsKnown.eq_kind {c : String} {vs ws : List (String × Ty)} (left : VarsKnown V vs)
    (right : VarsKnown V ws) (same : varKinds vs = varKinds ws) :
    (object c vs).kind = (object c ws).kind := by
  rw [kind_eq_iff left.proper right.proper, object_same_iff (isMember_object c ws)]
  have once {vs : List (String × Ty)} (vars : VarsKnown V vs) :
      (vs.map fun v => (v.1, v.2.kind)).Nodup := by
    apply List.Nodup.of_map Prod.fst
    rw [List.map_map]
    exact Entries.nodup vars
  have sizes : vs.length = ws.length := by
    have matched : (vs.map fun v => (v.1, v.2.kind)).Perm (ws.map fun v => (v.1, v.2.kind)) :=
      (List.perm_ext_iff_of_nodup (once left) (once right)).2 fun k => by
        simpa [varKinds] using Set.ext_iff.1 same k
    simpa using matched.length_eq
  refine ⟨ws, rfl, sizes, fun v member => ?_⟩
  have listed : (v.1, v.2.kind) ∈ varKinds ws := same ▸ ⟨v, member, rfl⟩
  obtain ⟨w, there, pair⟩ := listed
  rw [Prod.mk.injEq] at pair
  refine ⟨w.2, ?_, ?_⟩
  · rw [← pair.1]
    exact lookup_of_mem (Entries.nodup right) there
  · exact (kind_eq_iff (left.each v member).2.proper (right.each w there).2.proper).1 pair.2.symm

theorem finite_objects (few : V.Few) :
    (kind '' {m | ∃ c vs, V.classes c ∧ VarsKnown V vs ∧ m = .object c vs}).Finite := by
  have pairs : ((fun p : String × List (String × Ty) => (object p.1 p.2).kind) ''
      {p | V.classes p.1 ∧ VarsKnown V p.2}).Finite := by
    refine finite_image_of_determined (f := fun p => (p.1, varKinds p.2)) ?_ ?_
    · have bound := few.classes.prod ((few.names.prod (finite_bare few)).finite_subsets)
      refine bound.subset ?_
      rintro _ ⟨p, ⟨name, vars⟩, rfl⟩
      refine ⟨name, ?_⟩
      rintro _ ⟨v, member, rfl⟩
      exact ⟨(vars.each v member).1, v.2, (vars.each v member).2, rfl⟩
    · rintro ⟨c, vs⟩ ⟨-, left⟩ ⟨d, ws⟩ ⟨-, right⟩ same
      rw [Prod.mk.injEq] at same
      obtain ⟨rfl, same⟩ := same
      exact left.eq_kind right same
  refine pairs.subset ?_
  rintro _ ⟨_, ⟨c, vs, name, vars, rfl⟩, rfl⟩
  exact ⟨(c, vs), ⟨name, vars⟩, rfl⟩

theorem finite_members (few : V.Few) : (kind '' {m | KnownMember V m}).Finite := by
  refine (((finite_simple few).image fun s => kind (.simple s)).union (finite_objects few)).subset ?_
  rintro _ ⟨m, known, rfl⟩
  rcases known with ⟨s, simple, rfl⟩ | object
  · exact .inl ⟨s, simple, rfl⟩
  · exact .inr ⟨m, object, rfl⟩

theorem finite_known (few : V.Few) : (kind '' {t | t.Known V}).Finite :=
  finite_over knownMember_flat (finite_members few)

/-- How many members a known type can have. -/
theorem Over.members_le (flat : Flat P) (few : (kind '' {m | P m}).Finite) {t : Ty}
    (built : t.Over P) : t.members.length ≤ (kind '' {m | P m}).ncard := by
  refine length_le_kinds few built.members ?_
  refine built.reduced.different.imp_of_mem fun {m n} left right apart same => apart ?_
  exact (kind_eq_iff (flat m (built.members m left)).2 (flat n (built.members n right)).2).1 same

end Ty

namespace Inference

variable {cx : Setting} {V : Vocabulary}

section Keys

variable (cx)

theorem finite_instantiations (few : V.Few) :
    (Instantiation.kind '' {k | k.Known cx V}).Finite := by
  have methods : {id | (cx.definitions.method? id).isSome}.Finite := by
    refine ((Set.finite_lt_nat cx.definitions.methods.size).image MethodId.mk).subset ?_
    intro id there
    exact ⟨id.val, by simpa [Definitions.method?] using there, rfl⟩
  obtain ⟨most, below⟩ := (methods.image fun id =>
    ((cx.definitions.method? id).map fun m => m.parameters.length).getD 0).bddAbove
  have types := Ty.finite_known few
  refine ((methods.prod (types.prod (finite_lists types most))).image fun k =>
    (⟨k.1, k.2.1, k.2.2⟩ : InstantiationKind)).subset ?_
  rintro _ ⟨k, known, rfl⟩
  obtain ⟨m, found, arity⟩ := known.arity
  refine ⟨(k.method, k.selfType.kind, k.arguments.map Ty.kind), ⟨?_, ?_, ?_, ?_⟩, rfl⟩
  · simp [found]
  · exact ⟨_, known.selfType, rfl⟩
  · have bound := below ⟨k.method, by simp [found], rfl⟩
    simpa [found, arity] using bound
  · rintro _ member
    obtain ⟨t, inside, rfl⟩ := List.mem_map.1 member
    exact ⟨t, known.arguments t inside, rfl⟩

theorem finite_levels (few : V.Few) : (ScopeLevel.kind '' {s | s.Known cx V}).Finite := by
  have keys := finite_instantiations cx few
  refine (((Set.finite_singleton LevelKind.main).union (keys.image .instance)).union
    (((few.nodes.prod keys).image fun p => .inline p.1 p.2).union
      (few.nodes.image .block))).subset ?_
  rintro _ ⟨level, known, rfl⟩
  cases level with
  | main => exact .inl (.inl rfl)
  | «instance» k => exact .inl (.inr ⟨_, ⟨k, known, rfl⟩, rfl⟩)
  | inline site k => exact .inr (.inl ⟨(site, k.kind), ⟨known.1, k, known.2, rfl⟩, rfl⟩)
  | block id => exact .inr (.inr ⟨id, known, rfl⟩)

theorem finite_vars (few : V.Few) :
    (ScopeVar.kind '' {k | ScopeVar.Known cx V k ∧ V.names k.name}).Finite := by
  have paths := finite_lists (finite_levels cx few) (2 * cx.limits.maxInlineDepth + 1)
  refine ((paths.prod few.names).image fun p => (⟨p.1, p.2⟩ : VarKind)).subset ?_
  rintro _ ⟨k, ⟨known, name⟩, rfl⟩
  refine ⟨(pathKind k.path, k.name), ⟨⟨?_, ?_⟩, name⟩, rfl⟩
  · simpa [pathKind] using known.length
  · intro level member
    obtain ⟨s, inside, rfl⟩ := List.mem_map.1 member
    exact ⟨s, known.levels s inside, rfl⟩

end Keys

/-- A table with keys of finitely many kinds has no more entries than that. -/
theorem Entries.length_le {α β κ : Type} [BEq α] {K : α → Prop} {T : β → Prop}
    {es : List (α × β)} {kind : α → κ} (entries : Entries K T es)
    (few : (kind '' {k | K k}).Finite)
    (agree : ∀ k l, K k → K l → kind k = kind l → (k == l) = true) :
    es.length ≤ (kind '' {k | K k}).ncard := by
  have each : ∀ k ∈ es.map (·.1), K k := List.forall_mem_map.2 fun e member =>
    (entries.each e member).1
  rw [← List.length_map (f := fun e : α × β => e.1)]
  refine length_le_kinds few each (List.pairwise_map.2 ?_)
  refine entries.apart.imp_of_mem fun {e f} left right apart same => apart ?_
  exact agree _ _ (entries.each e left).1 (entries.each f right).1 same

end Inference

end TypedBlocks

import TypedBlocks.Proofs.TypeMeanings

/-!
# Laws of merging

A merge is the smallest union of its types, with their members in the order of first occurrence.
What it means depends only on what the types mean together, so it does not matter in which order
they come, how often, or in which groups they are merged.
-/
namespace TypedBlocks.Ty

section Members

variable {ts us : List Ty} {t u : Ty}

/-- Entering types one by one keeps the first of those that are the same. -/
theorem foldl_insertNew_eraseDups
    (symm : ∀ x ∈ us, ∀ y ∈ us, (x == y) = (y == x)) :
    us.foldl insertNew ts = ts ++ (us.filter fun u => !ts.any (· == u)).eraseDups := by
  induction us generalizing ts with
  | nil => simp
  | cons u us ih =>
    have symm' : ∀ x ∈ us, ∀ y ∈ us, (x == y) = (y == x) := fun x first y second =>
      symm x (List.mem_cons_of_mem u first) y (List.mem_cons_of_mem u second)
    rw [List.foldl_cons, ih symm']
    by_cases known : ts.any (· == u)
    · rw [insertNew, if_pos known, List.filter_cons_of_neg (by simpa using known)]
    · rw [insertNew, if_neg known, List.filter_cons_of_pos (by simpa using known),
        List.eraseDups_cons, List.append_assoc, List.singleton_append, List.filter_filter]
      congr 3
      refine List.filter_congr fun v member => ?_
      rw [symm v (List.mem_cons_of_mem u member) u List.mem_cons_self]
      simp [Bool.and_comm]

theorem distinctMembers_eq (proper : ∀ t ∈ ts, t.Proper) :
    distinctMembers ts = (ts.flatMap members).eraseDups := by
  have each : ∀ m ∈ ts.flatMap members, m.Proper := by
    intro m member
    obtain ⟨t, there, inside⟩ := List.mem_flatMap.1 member
    exact (proper t there).members_proper m inside
  have symm : ∀ x ∈ ts.flatMap members, ∀ y ∈ ts.flatMap members, (x == y) = (y == x) := by
    intro x first y second
    exact Bool.eq_iff_iff.2
      ⟨(each x first).symm (each y second), (each y second).symm (each x first)⟩
  rw [distinctMembers, distinct, foldl_insertNew_eraseDups symm]
  simp

/-- Types are merged to nothing exactly if they have no members. -/
theorem merge?_eq_none_iff : merge? ts = none ↔ ∀ t ∈ ts, t.members = [] := by
  have empty : distinctMembers ts = [] ↔ ts.flatMap members = [] := by
    constructor
    · intro nothing
      cases all : ts.flatMap members with
      | nil => rfl
      | cons m ms =>
        have entered : m ∈ distinctMembers ts := by
          rw [distinctMembers, distinct, all, List.foldl_cons]
          exact subset_foldl_insertNew m (by simp [insertNew])
        rw [nothing] at entered
        cases entered
    · intro nothing
      rw [distinctMembers, nothing]
      rfl
  rw [merge?, ← List.flatMap_eq_nil_iff, ← empty]
  split <;> simp_all

/-- The type is the smallest union of the types, and has their members in the order of first
occurrence. -/
structure SmallestUnion (ts : List Ty) (u : Ty) : Prop where
  members : u.members = (ts.flatMap Ty.members).eraseDups
  covers : ∀ t ∈ ts, t ≤ u
  least : ∀ w, (∀ t ∈ ts, t ≤ w) → u ≤ w
  different : u.members.Pairwise fun m n => ¬ m == n
  flat : ∀ m ∈ u.members, m.IsMember
  several : ∀ ms, u = .union ms → 2 ≤ ms.length

theorem merge?_smallest (proper : ∀ t ∈ ts, t.Proper) (merged : merge? ts = some u) :
    SmallestUnion ts u where
  members := (merge?_members proper merged).trans (distinctMembers_eq proper)
  covers _ := le_merge? proper merged
  least _ := le_of_distinct (merge?_members proper merged)
  different := (merge?_proper proper merged).members_different
  flat := (merge?_proper proper merged).members_flat
  several := by
    rintro ms rfl
    rw [merge?] at merged
    split at merged
    · cases merged
    · rename_i some
      injection merged with collapsed
      cases kept : distinctMembers ts with
      | nil => exact absurd (by rw [kept]; rfl) some
      | cons m others =>
        rw [unionOf, kept] at collapsed
        cases others with
        | nil =>
          have flat := distinctMembers_flat proper m (by simp [kept])
          rw [show m = .union ms from collapsed] at flat
          cases flat
        | cons n rest =>
          cases collapsed
          simp

/-- A join is a merge of two types, one of which has a member. -/
theorem merge?_pair (filled : t.members ≠ [] ∨ u.members ≠ []) :
    merge? [t, u] = some (t.join u) := by
  have present : merge? [t, u] ≠ none := by
    intro nothing
    rw [merge?_eq_none_iff] at nothing
    exact filled.elim (fun has => has (nothing t (by simp))) fun has => has (nothing u (by simp))
  rw [merge?] at present ⊢
  split
  · rename_i empty
    exact absurd (if_pos empty) present
  · rfl

end Members

section Meanings

variable {ts us : List Ty} {a b c : Option Ty} {M : Domain}

/-- Types that may be missing are the same exactly if they mean the same. -/
theorem option_same_iff_denote (left : ∀ t ∈ a, t.Proper) (right : ∀ t ∈ b, t.Proper) :
    a == b ↔ a.map M.denote = b.map M.denote := by
  cases a with
  | none => cases b <;> simp
  | some t =>
    cases b with
    | none => simp
    | some u =>
      rw [Option.map_some, Option.map_some, Option.some.injEq]
      exact Domain.same_iff_denote (left t rfl) (right u rfl)

/-- What two paths mean together, where either may mean nothing. -/
abbrev Domain.union (M : Domain) : Option (Finset (MemberMeaning M.Value)) →
    Option (Finset (MemberMeaning M.Value)) → Option (Finset (MemberMeaning M.Value)) :=
  Option.merge fun d e => d ∪ e

theorem denote_mergeOption (left : ∀ t ∈ a, t.Proper) (right : ∀ t ∈ b, t.Proper) :
    (mergeOption a b).map M.denote = M.union (a.map M.denote) (b.map M.denote) := by
  cases a with
  | none => cases b <;> rfl
  | some t =>
    cases b with
    | none => rfl
    | some u => exact congrArg some (Domain.denote_join (left t rfl) (right u rfl))

theorem denoteMembers_eq_empty (proper : ∀ t ∈ ts, t.Proper) :
    M.denoteMembers ts = ∅ ↔ ∀ t ∈ ts, t.members = [] := by
  rw [Finset.eq_empty_iff_forall_notMem]
  constructor
  · intro nothing t there
    refine List.eq_nil_iff_forall_not_mem.2 fun m inside => ?_
    obtain ⟨d, only⟩ := Domain.denote_member (M := M) ((proper t there).members_flat m inside)
    refine nothing d (Domain.mem_denoteMembers.2 ⟨t, there, Domain.mem_denote.2 ⟨m, inside, ?_⟩⟩)
    simp [only]
  · intro nothing d means
    obtain ⟨t, there, means⟩ := Domain.mem_denoteMembers.1 means
    obtain ⟨m, inside, -⟩ := Domain.mem_denote.1 means
    rw [nothing t there] at inside
    cases inside

/-- A merge means what its types mean together, unless that is nothing. -/
theorem map_denote_merge? (proper : ∀ t ∈ ts, t.Proper) : (merge? ts).map M.denote =
    if M.denoteMembers ts = ∅ then none else some (M.denoteMembers ts) := by
  cases merged : merge? ts with
  | none =>
    rw [if_pos ((denoteMembers_eq_empty proper).2 (merge?_eq_none_iff.1 merged)), Option.map_none]
  | some u =>
    rw [if_neg, Option.map_some, Domain.denote_merge? proper merged]
    intro empty
    rw [merge?_eq_none_iff.2 ((denoteMembers_eq_empty proper).1 empty)] at merged
    cases merged

theorem merge?_proper_option (proper : ∀ t ∈ ts, t.Proper) : ∀ t ∈ merge? ts, t.Proper :=
  fun _ merged => merge?_proper proper merged

/-- Merges of types that mean the same together are the same. -/
theorem merge?_same (left : ∀ t ∈ ts, t.Proper) (right : ∀ t ∈ us, t.Proper)
    (means : ∀ M : Domain, M.denoteMembers ts = M.denoteMembers us) : merge? ts == merge? us := by
  obtain ⟨M, -⟩ := Domain.exists_nat
  rw [option_same_iff_denote (M := M) (merge?_proper_option left) (merge?_proper_option right),
    map_denote_merge? left, map_denote_merge? right, means]

/-- Neither the order of types nor how often they come counts. -/
theorem merge?_rearranged (proper : ∀ t ∈ ts, t.Proper) (same : ∀ t, t ∈ us ↔ t ∈ ts) :
    merge? us == merge? ts := by
  refine merge?_same (fun t member => proper t ((same t).1 member)) proper fun M => ?_
  ext d
  rw [Domain.mem_denoteMembers, Domain.mem_denoteMembers]
  exact exists_congr fun t => and_congr_left fun _ => same t

theorem denoteMembers_merges {parts : List (List Ty)} (proper : ∀ p ∈ parts, ∀ t ∈ p, t.Proper) :
    M.denoteMembers (parts.filterMap merge?) = M.denoteMembers parts.flatten := by
  ext d
  rw [Domain.mem_denoteMembers, Domain.mem_denoteMembers]
  constructor
  · rintro ⟨u, kept, means⟩
    obtain ⟨p, part, merged⟩ := List.mem_filterMap.1 kept
    rw [Domain.denote_merge? (proper p part) merged, Domain.mem_denoteMembers] at means
    obtain ⟨t, there, means⟩ := means
    exact ⟨t, List.mem_flatten.2 ⟨p, part, there⟩, means⟩
  · rintro ⟨t, member, means⟩
    obtain ⟨p, part, there⟩ := List.mem_flatten.1 member
    have inside := Domain.mem_denoteMembers.2 ⟨t, there, means⟩
    have merged := map_denote_merge? (M := M) (proper p part)
    rw [if_neg (Finset.ne_empty_of_mem inside), Option.map_eq_some_iff] at merged
    obtain ⟨u, merged, whole⟩ := merged
    exact ⟨u, List.mem_filterMap.2 ⟨p, part, merged⟩, whole ▸ inside⟩

/-- Types may be merged in groups first. -/
theorem merge?_regrouped {parts : List (List Ty)} (proper : ∀ t ∈ ts, t.Proper)
    (partition : parts.flatten.Perm ts) : merge? (parts.filterMap merge?) == merge? ts := by
  have each : ∀ p ∈ parts, ∀ t ∈ p, t.Proper := fun p part t there =>
    proper t (partition.mem_iff.1 (List.mem_flatten.2 ⟨p, part, there⟩))
  refine merge?_same (fun u kept => ?_) proper fun M => ?_
  · obtain ⟨p, part, merged⟩ := List.mem_filterMap.1 kept
    exact merge?_proper (each p part) merged
  · rw [denoteMembers_merges each]
    ext d
    rw [Domain.mem_denoteMembers, Domain.mem_denoteMembers]
    exact exists_congr fun t => and_congr_left fun _ => partition.mem_iff

end Meanings

section Options

theorem mergeOption_none_right (a : Option Ty) : mergeOption a none = a := by
  cases a <;> rfl

variable {a b c : Option Ty} (first : ∀ t ∈ a, t.Proper) (second : ∀ t ∈ b, t.Proper)
  (third : ∀ t ∈ c, t.Proper)

include first

theorem mergeOption_self_same : mergeOption a a == a := by
  obtain ⟨M, -⟩ := Domain.exists_nat
  rw [option_same_iff_denote (M := M) (mergeOption_proper first first) first,
    denote_mergeOption first first]
  exact Std.IdempotentOp.idempotent _

include second

theorem mergeOption_comm_same : mergeOption a b == mergeOption b a := by
  obtain ⟨M, -⟩ := Domain.exists_nat
  rw [option_same_iff_denote (M := M) (mergeOption_proper first second)
    (mergeOption_proper second first), denote_mergeOption first second,
    denote_mergeOption second first]
  exact Std.Commutative.comm _ _

include third

theorem mergeOption_assoc_same :
    mergeOption (mergeOption a b) c == mergeOption a (mergeOption b c) := by
  obtain ⟨M, -⟩ := Domain.exists_nat
  have left := mergeOption_proper first second
  have right := mergeOption_proper second third
  rw [option_same_iff_denote (M := M) (mergeOption_proper left third)
    (mergeOption_proper first right), denote_mergeOption left third, denote_mergeOption first right,
    denote_mergeOption first second, denote_mergeOption second third]
  exact Std.Associative.assoc _ _ _

end Options

/-- Types without members merge to nothing, and any others to their smallest union, whatever their
order, repetitions and groups. Merging what may be missing is a join with nothing as its unit, and
joins of types with members are merges. -/
theorem merge_is_smallest_union {ts : List Ty} (built : ∀ t ∈ ts, t.Built) :
    (merge? ts = none ↔ ∀ t ∈ ts, t.members = []) ∧
    (∀ u, merge? ts = some u → SmallestUnion ts u) ∧
    (∀ us, (∀ t, t ∈ us ↔ t ∈ ts) → merge? us == merge? ts) ∧
    (∀ parts : List (List Ty), parts.flatten.Perm ts →
      merge? (parts.filterMap merge?) == merge? ts) ∧
    (∀ a b c : Option Ty, (∀ t ∈ a, t.Built) → (∀ t ∈ b, t.Built) → (∀ t ∈ c, t.Built) →
      mergeOption none a = a ∧ mergeOption a none = a ∧ mergeOption a a == a ∧
      mergeOption a b == mergeOption b a ∧
      mergeOption (mergeOption a b) c == mergeOption a (mergeOption b c)) ∧
    ∀ t u, t.Built → u.Built → t.members ≠ [] ∨ u.members ≠ [] →
      merge? [t, u] = some (t.join u) := by
  have proper : ∀ t ∈ ts, t.Proper := fun t member => (built t member).proper
  refine ⟨merge?_eq_none_iff, fun u => merge?_smallest proper, fun us => merge?_rearranged proper,
    fun parts => merge?_regrouped proper, fun a b c left mid right => ?_,
    fun t u _ _ => merge?_pair⟩
  have first : ∀ t ∈ a, t.Proper := fun t there => (left t there).proper
  have second : ∀ t ∈ b, t.Proper := fun t there => (mid t there).proper
  have third : ∀ t ∈ c, t.Proper := fun t there => (right t there).proper
  exact ⟨Completions.mergeOption_none_left a, mergeOption_none_right a,
    mergeOption_self_same first, mergeOption_comm_same first second,
    mergeOption_assoc_same first second third⟩

/-- An integer, nothing, and an integer or nil. -/
def mixedTypes : List Ty := [.int, unionOf [], unionOf [.nil, .int]]

theorem mixedTypes_merged : (∀ t ∈ mixedTypes, t.Built) ∧
    SmallestUnion mixedTypes (.union [.int, .nil]) := by
  have built : ∀ t ∈ mixedTypes, t.Built := by
    have int : Ty.int.Built := .simple _
    have nil : Ty.nil.Built := .simple _
    have none : (unionOf []).Built := .unionOf nofun
    have both : (unionOf [Ty.nil, Ty.int]).Built := .unionOf (by simp [int, nil])
    simp [mixedTypes, int, none, both]
  exact ⟨built, (merge_is_smallest_union built).2.1 _ rfl⟩

end TypedBlocks.Ty

import TypedBlocks.Proofs.TypeSameness

/-!
# Unions and containment of types

A type is contained in another if each of its members is the same as a member of the other. On
proper types this is a preorder, and types that contain each other are the same. A join is the least
type that contains both parts.
-/
namespace TypedBlocks.Ty

variable {t u w : Ty} {ts us : List Ty}

section Distinct

theorem insertNew_subset {m : Ty} : ∀ x ∈ insertNew ts m, x ∈ ts ∨ x = m := by
  unfold insertNew
  split <;> grind

theorem subset_insertNew (m : Ty) : ∀ x ∈ ts, x ∈ insertNew ts m := by
  unfold insertNew
  split <;> grind

theorem foldl_insertNew_subset : ∀ x ∈ us.foldl insertNew ts, x ∈ ts ∨ x ∈ us := by
  induction us generalizing ts with
  | nil => exact fun x member => .inl member
  | cons m us ih =>
    intro x member
    rcases ih x member with earlier | later
    · rcases insertNew_subset x earlier with old | rfl
      · exact .inl old
      · exact .inr List.mem_cons_self
    · exact .inr (List.mem_cons_of_mem m later)

theorem subset_foldl_insertNew : ∀ x ∈ ts, x ∈ us.foldl insertNew ts := by
  induction us generalizing ts with
  | nil => exact fun x member => member
  | cons m us ih => exact fun x member => ih x (subset_insertNew m x member)

theorem foldl_insertNew_covers (proper : ∀ x ∈ us, x.Proper) :
    ∀ x ∈ us, ∃ d ∈ us.foldl insertNew ts, d == x := by
  induction us generalizing ts with
  | nil => nofun
  | cons m us ih =>
    intro x member
    rw [List.foldl_cons]
    rcases List.mem_cons.1 member with rfl | later
    · have entered : ∃ d ∈ insertNew ts x, d == x := by
        unfold insertNew
        split
        · rename_i known
          exact List.any_eq_true.1 known
        · exact ⟨x, by simp, (proper x List.mem_cons_self).refl⟩
      obtain ⟨d, there, same⟩ := entered
      exact ⟨d, subset_foldl_insertNew d there, same⟩
    · exact ih (fun y there => proper y (List.mem_cons_of_mem m there)) x later

theorem foldl_insertNew_different (different : ts.Pairwise fun t u => ¬ t == u) :
    (us.foldl insertNew ts).Pairwise fun t u => ¬ t == u := by
  induction us generalizing ts with
  | nil => exact different
  | cons m us ih =>
    refine ih ?_
    unfold insertNew
    split
    · exact different
    · rename_i new
      rw [List.pairwise_append]
      refine ⟨different, List.pairwise_singleton _ _, fun x there y here same => ?_⟩
      rw [List.mem_singleton.1 here] at same
      exact new (List.any_eq_true.2 ⟨x, there, same⟩)

theorem mem_distinctMembers {x : Ty} (member : x ∈ distinctMembers ts) : ∃ t ∈ ts, x ∈ t.members := by
  rcases foldl_insertNew_subset x member with old | new
  · cases old
  · exact List.mem_flatMap.1 new

theorem distinctMembers_covers (proper : ∀ t ∈ ts, t.Proper) :
    ∀ t ∈ ts, ∀ x ∈ t.members, ∃ d ∈ distinctMembers ts, d == x := by
  intro t there x member
  refine foldl_insertNew_covers (fun y here => ?_) x (List.mem_flatMap.2 ⟨t, there, member⟩)
  obtain ⟨u, found, inside⟩ := List.mem_flatMap.1 here
  exact (proper u found).members_proper y inside

theorem distinctMembers_flat (proper : ∀ t ∈ ts, t.Proper) : ∀ x ∈ distinctMembers ts, x.IsMember := by
  intro x member
  obtain ⟨t, there, inside⟩ := mem_distinctMembers member
  exact (proper t there).members_flat x inside

theorem unionOf_proper (proper : ∀ t ∈ ts, t.Proper) : (unionOf ts).Proper := by
  refine .union _ (distinctMembers_flat proper) (fun x member => ?_)
    (foldl_insertNew_different List.Pairwise.nil)
  obtain ⟨t, there, inside⟩ := mem_distinctMembers member
  exact (proper t there).members_proper x inside

theorem Proper.collapse (proper : t.Proper) : t.collapse.Proper := by
  cases t with
  | union ts =>
    match ts with
    | [] => exact proper
    | [m] => exact proper.members_proper m List.mem_cons_self
    | _ :: _ :: _ => exact proper
  | _ => exact proper

theorem Proper.collapse_members (proper : t.Proper) : t.collapse.members = t.members := by
  cases t with
  | union ts =>
    match ts with
    | [] => rfl
    | [m] => exact (proper.members_flat m List.mem_cons_self).members
    | _ :: _ :: _ => rfl
  | _ => rfl

theorem join_proper (left : t.Proper) (right : u.Proper) : (t.join u).Proper :=
  (unionOf_proper (by simp [left, right])).collapse

theorem join_members (left : t.Proper) (right : u.Proper) :
    (t.join u).members = distinctMembers [t, u] :=
  (unionOf_proper (by simp [left, right])).collapse_members

theorem merge?_proper (proper : ∀ t ∈ ts, t.Proper) (merged : merge? ts = some u) : u.Proper := by
  unfold merge? at merged
  split at merged
  · cases merged
  · cases merged
    exact (unionOf_proper proper).collapse

theorem merge?_members (proper : ∀ t ∈ ts, t.Proper) (merged : merge? ts = some u) :
    u.members = distinctMembers ts := by
  unfold merge? at merged
  split at merged
  · cases merged
  · cases merged
    exact (unionOf_proper proper).collapse_members

end Distinct

section Containment

/-- Each member is the same as a member of the other type. -/
protected def Le (t u : Ty) : Prop := ∀ m ∈ t.members, ∃ n ∈ u.members, m == n

instance : LE Ty := ⟨Ty.Le⟩

instance (t u : Ty) : Decidable (t ≤ u) :=
  inferInstanceAs (Decidable (∀ m ∈ t.members, ∃ n ∈ u.members, (m == n) = true))

theorem le_iff : t ≤ u ↔ ∀ m ∈ t.members, ∃ n ∈ u.members, m == n := Iff.rfl

theorem Proper.le_refl (proper : t.Proper) : t ≤ t :=
  fun m member => ⟨m, member, (proper.members_proper m member).refl⟩

theorem Proper.le_trans (left : t.Proper) (mid : u.Proper) (right : w.Proper) (first : t ≤ u)
    (second : u ≤ w) : t ≤ w := by
  intro m member
  obtain ⟨n, there, same⟩ := first m member
  obtain ⟨k, beyond, same'⟩ := second n there
  exact ⟨k, beyond, (left.members_proper m member).trans (mid.members_proper n there)
    (right.members_proper k beyond) same same'⟩

theorem Proper.le_of_same (left : t.Proper) (right : u.Proper) (same : t == u) : t ≤ u :=
  ((left.same_iff right).1 same).2

/-- Different members of a type go to different members of one that contains it. -/
theorem Proper.length_le (left : t.Proper) (right : u.Proper) (below : t ≤ u) :
    t.members.length ≤ u.members.length := by
  refine matched_length (R := fun m n => m == n) t.members u.members left.members_different ?_ below
  intro m here m' here' n there same same'
  have turned := (left.members_proper m' here').symm (right.members_proper n there) same'
  exact (left.members_proper m here).trans (right.members_proper n there)
    (left.members_proper m' here') same turned

theorem Proper.same_of_le (left : t.Proper) (right : u.Proper) (below : t ≤ u) (above : u ≤ t) :
    t == u :=
  (left.same_iff right).2 ⟨Nat.le_antisymm (left.length_le right below) (right.length_le left above),
    below⟩

theorem le_of_mem_distinct (proper : ∀ t ∈ ts, t.Proper) (whole : u.Proper)
    (members : u.members = distinctMembers ts) (there : t ∈ ts) : t ≤ u := by
  intro m member
  obtain ⟨d, found, same⟩ := distinctMembers_covers proper t there m member
  have found' : d ∈ u.members := members ▸ found
  exact ⟨d, found', (whole.members_proper d found').symm
    ((proper t there).members_proper m member) same⟩

theorem le_join_left (left : t.Proper) (right : u.Proper) : t ≤ t.join u :=
  le_of_mem_distinct (by simp [left, right]) (join_proper left right) (join_members left right)
    (by simp)

theorem le_join_right (left : t.Proper) (right : u.Proper) : u ≤ t.join u :=
  le_of_mem_distinct (by simp [left, right]) (join_proper left right) (join_members left right)
    (by simp)

theorem le_of_distinct (members : u.members = distinctMembers ts) (below : ∀ t ∈ ts, t ≤ w) :
    u ≤ w := by
  intro m member
  rw [members] at member
  obtain ⟨t, there, inside⟩ := mem_distinctMembers member
  exact below t there m inside

theorem join_le (left : t.Proper) (right : u.Proper) (first : t ≤ w) (second : u ≤ w) :
    t.join u ≤ w :=
  le_of_distinct (join_members left right) (by simp [first, second])

theorem le_merge? (proper : ∀ t ∈ ts, t.Proper) (merged : merge? ts = some u) (there : t ∈ ts) :
    t ≤ u :=
  le_of_mem_distinct proper (merge?_proper proper merged) (merge?_members proper merged) there

end Containment

section Options

/-- What may be missing is contained in another if it is missing or contained in what is there. -/
def OptionLe : Option Ty → Option Ty → Prop
  | none, _ => True
  | some t, some u => t ≤ u
  | some _, none => False

variable {a b c : Option Ty}

theorem OptionLe.refl (proper : ∀ t ∈ a, t.Proper) : OptionLe a a := by
  cases a with
  | none => trivial
  | some t => exact (proper t rfl).le_refl

theorem OptionLe.trans (left : ∀ t ∈ a, t.Proper) (mid : ∀ t ∈ b, t.Proper)
    (right : ∀ t ∈ c, t.Proper) (first : OptionLe a b) (second : OptionLe b c) : OptionLe a c := by
  cases a with
  | none => trivial
  | some t =>
    cases b with
    | none => cases first
    | some u =>
      cases c with
      | none => cases second
      | some w => exact (left t rfl).le_trans (mid u rfl) (right w rfl) first second

theorem OptionLe.same (left : ∀ t ∈ a, t.Proper) (right : ∀ t ∈ b, t.Proper)
    (below : OptionLe a b) (above : OptionLe b a) : a == b := by
  cases a with
  | none =>
    cases b with
    | none => rfl
    | some u => cases above
  | some t =>
    cases b with
    | none => cases below
    | some u => exact (left t rfl).same_of_le (right u rfl) below above

theorem OptionLe.of_same (left : ∀ t ∈ a, t.Proper) (right : ∀ t ∈ b, t.Proper) (same : a == b) :
    OptionLe a b := by
  cases a with
  | none => trivial
  | some t =>
    cases b with
    | none => cases same
    | some u => exact (left t rfl).le_of_same (right u rfl) same

/-- What contains a type is there. -/
theorem OptionLe.some_left (below : OptionLe (some t) a) : ∃ u, a = some u ∧ t ≤ u := by
  cases a with
  | none => cases below
  | some u => exact ⟨u, rfl, below⟩

theorem OptionLe.isSome (below : OptionLe a b) (some : a.isSome) : b.isSome := by
  cases a with
  | none => cases some
  | some t =>
    obtain ⟨u, rfl, -⟩ := below.some_left
    rfl

/-- What joins keep holds of merged types. -/
theorem mergeOption_all {P : Ty → Prop} (closed : ∀ t u, P t → P u → P (t.join u))
    (left : ∀ t ∈ a, P t) (right : ∀ t ∈ b, P t) : ∀ t ∈ mergeOption a b, P t := by
  intro t merged
  cases a with
  | none => exact right t merged
  | some u =>
    cases b with
    | none => exact left t merged
    | some w =>
      cases merged
      exact closed u w (left u rfl) (right w rfl)

theorem mergeOption_proper (left : ∀ t ∈ a, t.Proper) (right : ∀ t ∈ b, t.Proper) :
    ∀ t ∈ mergeOption a b, t.Proper :=
  mergeOption_all (fun _ _ => join_proper) left right

theorem le_mergeOption_left (left : ∀ t ∈ a, t.Proper) (right : ∀ t ∈ b, t.Proper) :
    OptionLe a (mergeOption a b) := by
  cases a with
  | none => trivial
  | some u =>
    cases b with
    | none => exact (left u rfl).le_refl
    | some w => exact le_join_left (left u rfl) (right w rfl)

theorem le_mergeOption_right (left : ∀ t ∈ a, t.Proper) (right : ∀ t ∈ b, t.Proper) :
    OptionLe b (mergeOption a b) := by
  cases a with
  | none => exact .refl right
  | some u =>
    cases b with
    | none => trivial
    | some w => exact le_join_right (left u rfl) (right w rfl)

@[simp] theorem mergeOption_isSome : (mergeOption a b).isSome = (a.isSome || b.isSome) := by
  cases a <;> cases b <;> rfl

end Options

end TypedBlocks.Ty

import TypedBlocks.Proofs.BuiltTypes
import TypedBlocks.Proofs.CarriedExits
import TypedBlocks.Ty.Hash
import Mathlib.Data.Finmap
import Mathlib.Data.Finset.Lattice.Basic
import Mathlib.Data.Countable.Basic
import Mathlib.Logic.Equiv.List
import Std.Data.HashSet

/-!
# What types mean

A type means a finite set of members: a simple type, or a name with a finite map from variables to
what their types mean. Two built types are the same exactly when they mean the same, and then they
also write the same into every hasher, so that a hash set keeps one of them.

Sets of members are values of variables again. A domain holds a value for each finite set, different
values for different sets.
-/
namespace TypedBlocks.Ty

/-- What a member stands for, where variables have values of the type. -/
abbrev MemberMeaning (V : Type) := SimpleTy ⊕ String × Finmap fun _ : String => V

/-- Values for the finite sets of members over them. -/
structure Domain where
  Value : Type
  decEq : DecidableEq Value
  value : Finset (MemberMeaning Value) → Value
  injective : Function.Injective value

namespace Domain

section Denotations

variable (M : Domain)

instance : DecidableEq M.Value := M.decEq

mutual

/-- The members that a type means. -/
def denote : Ty → Finset (MemberMeaning M.Value)
  | .simple s => {.inl s}
  | .object name vs => {.inr (name, denoteVars vs)}
  | .union ts => denoteMembers ts

def denoteVars : List (String × Ty) → Finmap fun _ : String => M.Value
  | [] => ∅
  | (name, t) :: vs => (denoteVars vs).insert name (M.value (denote t))

def denoteMembers : List Ty → Finset (MemberMeaning M.Value)
  | [] => ∅
  | t :: ts => denote t ∪ denoteMembers ts

end

end Denotations

variable {M : Domain} {t u m n : Ty} {ts : List Ty} {name x : String} {vs ws : List (String × Ty)}

theorem lookup_denoteVars : (M.denoteVars vs).lookup x =
    (vs.lookup x).map fun t => M.value (M.denote t) := by
  induction vs with
  | nil => rfl
  | cons v vs ih =>
    obtain ⟨y, t⟩ := v
    rw [denoteVars, List.lookup_cons]
    by_cases here : x = y
    · subst here
      simp
    · rw [Finmap.lookup_insert_of_ne _ here, ih, beq_false_of_ne here]

theorem mem_denoteMembers {d : MemberMeaning M.Value} :
    d ∈ M.denoteMembers ts ↔ ∃ t ∈ ts, d ∈ M.denote t := by
  induction ts with
  | nil => simp [denoteMembers]
  | cons t ts ih => simp [denoteMembers, ih]

theorem mem_denote {d : MemberMeaning M.Value} :
    d ∈ M.denote t ↔ ∃ m ∈ t.members, d ∈ M.denote m := by
  cases t with
  | union ts => exact mem_denoteMembers
  | _ => simp [members]

/-- A type that is no union means a single member. -/
theorem denote_member (member : m.IsMember) : ∃ d, M.denote m = {d} := by
  cases m with
  | union ts => cases member
  | simple s => exact ⟨_, rfl⟩
  | object name vs => exact ⟨_, rfl⟩

/-- Members that mean a common thing mean the same. -/
theorem denote_eq_of_common {d : MemberMeaning M.Value} (left : m.IsMember) (right : n.IsMember)
    (inLeft : d ∈ M.denote m) (inRight : d ∈ M.denote n) : M.denote m = M.denote n := by
  obtain ⟨e, only⟩ := denote_member (M := M) left
  obtain ⟨f, only'⟩ := denote_member (M := M) right
  rw [only, Finset.mem_singleton] at inLeft
  rw [only', Finset.mem_singleton] at inRight
  rw [only, only', ← inLeft, inRight]

section Sameness

/-- Types whose members are the same where they mean the same are so themselves. -/
theorem same_iff_of_members (left : t.Proper) (right : u.Proper)
    (agree : ∀ m ∈ t.members, ∀ n ∈ u.members, m == n ↔ M.denote m = M.denote n) :
    t == u ↔ M.denote t = M.denote u := by
  constructor
  · intro same
    have below := left.le_of_same right same
    have above := right.le_of_same left (left.symm right same)
    ext d
    rw [mem_denote, mem_denote (t := u)]
    constructor
    · rintro ⟨m, here, means⟩
      obtain ⟨n, there, same⟩ := below m here
      exact ⟨n, there, (agree m here n there).1 same ▸ means⟩
    · rintro ⟨n, there, means⟩
      obtain ⟨m, here, same⟩ := above n there
      have turned := (right.members_proper n there).symm (left.members_proper m here) same
      exact ⟨m, here, (agree m here n there).1 turned ▸ means⟩
  · intro same
    -- Each member means one thing, which some member of the other type must mean.
    have matched : ∀ m ∈ t.members, ∃ n ∈ u.members, M.denote m = M.denote n := by
      intro m here
      obtain ⟨d, only⟩ := denote_member (M := M) (left.members_flat m here)
      have inside : d ∈ M.denote m := by simp [only]
      have whole : d ∈ M.denote u := same ▸ mem_denote.2 ⟨m, here, inside⟩
      obtain ⟨n, there, means⟩ := mem_denote.1 whole
      exact ⟨n, there, denote_eq_of_common (left.members_flat m here) (right.members_flat n there)
        inside means⟩
    have matched' : ∀ n ∈ u.members, ∃ m ∈ t.members, M.denote m = M.denote n := by
      intro n there
      obtain ⟨d, only⟩ := denote_member (M := M) (right.members_flat n there)
      have inside : d ∈ M.denote n := by simp [only]
      have whole : d ∈ M.denote t := same ▸ mem_denote.2 ⟨n, there, inside⟩
      obtain ⟨m, here, means⟩ := mem_denote.1 whole
      exact ⟨m, here, denote_eq_of_common (left.members_flat m here) (right.members_flat n there)
        means inside⟩
    refine left.same_of_le right (fun m here => ?_) fun n there => ?_
    · obtain ⟨n, there, means⟩ := matched m here
      exact ⟨n, there, (agree m here n there).2 means⟩
    · obtain ⟨m, here, means⟩ := matched' n there
      exact ⟨m, here, (left.members_proper m here).symm (right.members_proper n there)
        ((agree m here n there).2 means)⟩

theorem denoteVars_eq_iff (once : (vs.map (·.1)).Nodup) (once' : (ws.map (·.1)).Nodup) :
    M.denoteVars vs = M.denoteVars ws ↔ vs.length = ws.length ∧
      ∀ v ∈ vs, ∃ t, ws.lookup v.1 = some t ∧ M.denote v.2 = M.denote t := by
  have keys {vs : List (String × Ty)} (once : (vs.map (·.1)).Nodup) (x : String) :
      x ∈ vs.map (·.1) ↔ ((M.denoteVars vs).lookup x).isSome := by
    rw [lookup_denoteVars, Option.isSome_map, Option.isSome_iff_exists, List.mem_map]
    constructor
    · rintro ⟨v, member, rfl⟩
      exact ⟨v.2, lookup_of_mem once member⟩
    · rintro ⟨t, found⟩
      exact ⟨(x, t), mem_of_lookup found, rfl⟩
  constructor
  · intro same
    have listed : (vs.map (·.1)).Perm (ws.map (·.1)) :=
      (List.perm_ext_iff_of_nodup once once').2 fun x => by rw [keys once, keys once', same]
    refine ⟨by simpa using listed.length_eq, fun v member => ?_⟩
    have found : (M.denoteVars ws).lookup v.1 = some (M.value (M.denote v.2)) := by
      rw [← same, lookup_denoteVars, lookup_of_mem once member, Option.map_some]
    rw [lookup_denoteVars, Option.map_eq_some_iff] at found
    obtain ⟨t, there, means⟩ := found
    exact ⟨t, there, (M.injective means).symm⟩
  · rintro ⟨sizes, matched⟩
    have back := matched_back
      (R := fun v w : String × Ty => v.1 = w.1 ∧ M.denote v.2 = M.denote w.2) vs ws
      ((List.pairwise_map.1 once).imp fun apart same => apart same.1) (Nat.le_of_eq sizes.symm)
      (fun v _ v' _ w _ first second =>
        ⟨first.1.trans second.1.symm, first.2.trans second.2.symm⟩)
      (fun v member => by
        obtain ⟨t, found, means⟩ := matched v member
        exact ⟨(v.1, t), mem_of_lookup found, rfl, means⟩)
    refine Finmap.ext_lookup fun x => ?_
    rw [lookup_denoteVars, lookup_denoteVars]
    cases found : vs.lookup x with
    | some t =>
      obtain ⟨u, there, means⟩ := matched (x, t) (mem_of_lookup found)
      rw [there, Option.map_some, Option.map_some, means]
    | none =>
      cases there : ws.lookup x with
      | none => rfl
      | some u =>
        obtain ⟨v, member, rfl, -⟩ := back (x, u) (mem_of_lookup there)
        rw [lookup_of_mem once member] at found
        cases found

/-- Proper types are the same exactly when they mean the same. -/
theorem same_iff_denote (left : t.Proper) (right : u.Proper) :
    t == u ↔ M.denote t = M.denote u := by
  induction left generalizing u with
  | simple s =>
    refine same_iff_of_members (.simple s) right fun m here n there => ?_
    rw [List.mem_singleton.1 here, simple_same_iff (right.members_flat n there)]
    have flat := right.members_flat n there
    cases n with
    | union us => cases flat
    | simple s' => simp [denote, eq_comm]
    | object name ws => simp [denote]
  | object name vs once types ih =>
    refine same_iff_of_members (.object name vs once types) right fun m here n there => ?_
    rw [List.mem_singleton.1 here, object_same_iff (right.members_flat n there)]
    have flat := right.members_flat n there
    have proper := right.members_proper n there
    cases n with
    | union us => cases flat
    | simple s => simp [denote]
    | object name' ws =>
      have bound : (∀ v ∈ vs, ∃ t, ws.lookup v.1 = some t ∧ v.2 == t) ↔
          ∀ v ∈ vs, ∃ t, ws.lookup v.1 = some t ∧ M.denote v.2 = M.denote t := by
        refine forall₂_congr fun v member => exists_congr fun t => and_congr_right fun found => ?_
        exact ih v member (proper.vars_proper _ (mem_of_lookup found))
      rw [denote, denote, Finset.singleton_inj, Sum.inr.injEq, Prod.mk.injEq,
        denoteVars_eq_iff once proper.vars_once, ← bound]
      constructor
      · rintro ⟨ws', same, sizes, matched⟩
        cases same
        exact ⟨rfl, sizes, matched⟩
      · rintro ⟨rfl, sizes, matched⟩
        exact ⟨ws, rfl, sizes, matched⟩
  | union ts flat types different ih =>
    refine same_iff_of_members (.union ts flat types different) right fun m here n there => ?_
    exact ih m here (right.members_proper n there)

end Sameness

section Operations

theorem denote_congr_members (same : t.members = u.members) : M.denote t = M.denote u := by
  ext d
  rw [mem_denote, mem_denote (t := u), same]

variable (M) in
theorem denoteVars_bindVar (x : String) (vs : List (String × Ty)) (u : Ty) :
    M.denoteVars (bindVar x u vs) = (M.denoteVars vs).insert x (M.value (M.denote u)) := by
  refine Finmap.ext_lookup fun y => ?_
  rw [lookup_denoteVars, Inference.bindVar_eq]
  by_cases here : y = x
  · subst here
    rw [Inference.lookup_updateAt_self, Finmap.lookup_insert]
    cases vs.lookup y <;> rfl
  · rw [Inference.lookup_updateAt_ne here, Finmap.lookup_insert_of_ne _ here, lookup_denoteVars]

/-- A variable has the value that was bound last. -/
theorem denote_withVar (name x : String) (vs : List (String × Ty)) (u : Ty) :
    M.denote ((Ty.object name vs).withVar x u) =
      {.inr (name, (M.denoteVars vs).insert x (M.value (M.denote u)))} := by
  rw [withVar, denote, denoteVars_bindVar]

theorem denoteMembers_distinct (proper : ∀ t ∈ ts, t.Proper) :
    M.denoteMembers (distinctMembers ts) = M.denoteMembers ts := by
  ext d
  rw [mem_denoteMembers, mem_denoteMembers]
  constructor
  · rintro ⟨m, member, means⟩
    obtain ⟨t, there, inside⟩ := mem_distinctMembers member
    exact ⟨t, there, mem_denote.2 ⟨m, inside, means⟩⟩
  · rintro ⟨t, there, means⟩
    obtain ⟨m, inside, means⟩ := mem_denote.1 means
    obtain ⟨n, kept, same⟩ := distinctMembers_covers proper t there m inside
    have whole := unionOf_proper proper
    rw [same_iff_denote (M := M) (whole.members_proper n kept)
      ((proper t there).members_proper m inside)] at same
    exact ⟨n, kept, same ▸ means⟩

/-- A union means what its parts mean together. -/
theorem denote_unionOf (proper : ∀ t ∈ ts, t.Proper) :
    M.denote (unionOf ts) = M.denoteMembers ts := denoteMembers_distinct proper

theorem denote_merge? (proper : ∀ t ∈ ts, t.Proper) (merged : merge? ts = some u) :
    M.denote u = M.denoteMembers ts := by
  rw [← denote_unionOf proper]
  exact denote_congr_members (merge?_members proper merged)

theorem denote_join (left : t.Proper) (right : u.Proper) :
    M.denote (t.join u) = M.denote t ∪ M.denote u := by
  have proper : ∀ p ∈ [t, u], p.Proper := by simp [left, right]
  calc M.denote (t.join u)
    _ = M.denote (unionOf [t, u]) := denote_congr_members (join_members left right)
    _ = M.denoteMembers [t, u] := denote_unionOf proper
    _ = M.denote t ∪ M.denote u := by simp [denoteMembers]

end Operations

/-- The natural numbers are a domain, since there are no more finite sets over them. -/
theorem exists_nat : ∃ M : Domain, M.Value = ℕ := by
  have chars : Countable Char :=
    Function.Injective.countable (f := Char.toNat) fun c d same => Char.toNat_inj.1 same
  have texts : Countable String :=
    Function.Injective.countable (f := String.toList) fun a b same => String.toList_inj.1 same
  have simple : Countable SimpleTy := by
    refine Function.Injective.countable (f := fun s : SimpleTy => (s.className, s.text)) ?_
    intro s s' same
    cases s <;> cases s' <;> simp_all [SimpleTy.className, SimpleTy.text]
  have maps : Countable (Finmap fun _ : String => ℕ) := by
    have injective : Function.Injective fun m : Finmap (fun _ : String => ℕ) => m.entries :=
      fun m n same => Finmap.ext same
    exact injective.countable
  obtain ⟨value, injective⟩ := exists_injective_nat (Finset (MemberMeaning ℕ))
  exact ⟨⟨ℕ, inferInstance, value, injective⟩, rfl⟩

end Domain

section Consequences

variable {t u : Ty} {ts us : List Ty} {name x y : String} {vs : List (String × Ty)}

theorem Built.same_of_denote (left : t.Built) (right : u.Built)
    (means : ∀ M : Domain, M.denote t = M.denote u) : t == u := by
  obtain ⟨M, -⟩ := Domain.exists_nat
  exact (Domain.same_iff_denote left.proper right.proper).2 (means M)

/-- A union of one type is that type. -/
theorem unionOf_single_same (built : t.Built) : unionOf [t] == t := by
  have parts : ∀ p ∈ [t], p.Built := by simp [built]
  refine (Built.unionOf parts).same_of_denote built fun M => ?_
  rw [Domain.denote_unionOf fun p member => (parts p member).proper]
  simp [Domain.denoteMembers]

/-- The order of members does not count. -/
theorem unionOf_perm_same (parts : ∀ t ∈ ts, t.Built) (order : ts.Perm us) :
    unionOf ts == unionOf us := by
  have parts' : ∀ t ∈ us, t.Built := fun t member => parts t (order.mem_iff.2 member)
  refine (Built.unionOf parts).same_of_denote (.unionOf parts') fun M => ?_
  rw [Domain.denote_unionOf fun p member => (parts p member).proper,
    Domain.denote_unionOf fun p member => (parts' p member).proper]
  ext d
  rw [Domain.mem_denoteMembers, Domain.mem_denoteMembers]
  exact exists_congr fun t => and_congr_left fun _ => order.mem_iff

/-- The order of variables does not count. -/
theorem withVar_comm_same (object : (Ty.object name vs).Built) (first : t.Built) (second : u.Built)
    (apart : x ≠ y) : ((Ty.object name vs).withVar x t).withVar y u ==
      ((Ty.object name vs).withVar y u).withVar x t := by
  have left : (((Ty.object name vs).withVar x t).withVar y u).Built :=
    .withVar y (.withVar x object first) second
  have right : (((Ty.object name vs).withVar y u).withVar x t).Built :=
    .withVar x (.withVar y object second) first
  refine left.same_of_denote right fun M => ?_
  have after (x : String) (t : Ty) : M.denoteVars (bindVar x t vs) =
      (M.denoteVars vs).insert x (M.value (M.denote t)) := M.denoteVars_bindVar x vs t
  rw [withVar, Domain.denote_withVar, after, withVar, Domain.denote_withVar, after,
    Finmap.insert_insert_of_ne _ apart]

/-- The same type may be bound in place of another one. -/
theorem withVar_same (object : (Ty.object name vs).Built) (left : t.Built) (right : u.Built)
    (same : t == u) : (Ty.object name vs).withVar x t == (Ty.object name vs).withVar x u := by
  refine (Built.withVar x object left).same_of_denote (.withVar x object right) fun M => ?_
  rw [Domain.denote_withVar, Domain.denote_withVar,
    (Domain.same_iff_denote left.proper right.proper).1 same]

end Consequences

section Hashes

variable {digest : List HashWrite → UInt64} {t u m : Ty} {ts : List Ty} {vs ws : List (String × Ty)}

theorem map_eq_of_forall₂ {α β : Type} {R : α → α → Prop} {f : α → β} {xs ys : List α}
    (each : List.Forall₂ R xs ys) (agree : ∀ x ∈ xs, ∀ y ∈ ys, R x y → f x = f y) :
    xs.map f = ys.map f := by
  induction each with
  | nil => rfl
  | @cons x y xs ys related _ ih =>
    rw [List.map_cons, List.map_cons, agree x List.mem_cons_self y List.mem_cons_self related,
      ih fun a first b second => agree a (List.mem_cons_of_mem x first) b
        (List.mem_cons_of_mem y second)]

section Sorting

variable {a b c : String × UInt64}

theorem hashLe_iff : hashLe a b ↔ (a.1 = b.1 ∧ a.2 ≤ b.2) ∨ (a.1 ≠ b.1 ∧ a.1 ≤ b.1) := by
  unfold hashLe
  split <;> simp_all

theorem hashLe_total (a b : String × UInt64) : (hashLe a b || hashLe b a) = true := by
  rw [Bool.or_eq_true, hashLe_iff, hashLe_iff]
  have names := String.le_total a.1 b.1
  have hashes := UInt64.le_total a.2 b.2
  grind

theorem hashLe_trans (first : hashLe a b) (second : hashLe b c) : hashLe a c := by
  rw [hashLe_iff] at *
  have names : a.1 ≤ b.1 → b.1 ≤ c.1 → a.1 ≤ c.1 := String.le_trans
  have back : a.1 ≤ b.1 → b.1 ≤ a.1 → a.1 = b.1 := String.le_antisymm
  have hashes : a.2 ≤ b.2 → b.2 ≤ c.2 → a.2 ≤ c.2 := UInt64.le_trans
  grind

theorem hashLe_antisymm (first : hashLe a b) (second : hashLe b a) : a = b := by
  rw [hashLe_iff] at *
  have names : a.1 ≤ b.1 → b.1 ≤ a.1 → a.1 = b.1 := String.le_antisymm
  have hashes : a.2 ≤ b.2 → b.2 ≤ a.2 → a.2 = b.2 := UInt64.le_antisymm
  exact Prod.ext (by grind) (by grind)

theorem hashedVars_perm {vs ws : List (String × UInt64)} (same : vs.Perm ws) :
    hashedVars vs = hashedVars ws := by
  have ordered (hs : List (String × UInt64)) :
      (hs.mergeSort hashLe).Pairwise fun a b => hashLe a b = true :=
    @List.pairwise_mergeSort _ hashLe (fun _ _ _ => hashLe_trans) hashLe_total hs
  have sorted : vs.mergeSort hashLe = ws.mergeSort hashLe :=
    List.Perm.eq_of_pairwise (fun _ _ _ _ => hashLe_antisymm) (ordered vs) (ordered ws)
      (((List.mergeSort_perm vs _).trans same).trans (List.mergeSort_perm ws _).symm)
  rw [hashedVars, hashedVars, sorted, same.length_eq]

theorem hashedMembers_perm {ms ns : List UInt64} (same : ms.Perm ns) :
    hashedMembers ms = hashedMembers ns := by
  have ordered (hs : List UInt64) :
      (hs.mergeSort fun m n => m ≤ n).Pairwise fun m n => decide (m ≤ n) = true :=
    List.pairwise_mergeSort (fun a b c first second => by
      simp only [decide_eq_true_eq] at *
      exact UInt64.le_trans first second) (fun a b => by simpa using UInt64.le_total a b) hs
  have sorted : (ms.mergeSort fun m n => m ≤ n) = ns.mergeSort fun m n => m ≤ n :=
    List.Perm.eq_of_pairwise (fun a b _ _ first second => by
        simp only [decide_eq_true_eq] at *
        exact UInt64.le_antisymm first second) (ordered ms) (ordered ns)
      (((List.mergeSort_perm ms _).trans same).trans (List.mergeSort_perm ns _).symm)
  rw [hashedMembers, hashedMembers, sorted, same.length_eq]

end Sorting

theorem memberHashes_eq : memberHashes digest ts = ts.map fun t => digest (t.hashed digest) := by
  induction ts with
  | nil => rfl
  | cons t ts ih => rw [memberHashes, ih, List.map_cons]

theorem varHashes_eq : varHashes digest vs = vs.map fun v => (v.1, digest (v.2.hashed digest)) := by
  induction vs with
  | nil => rfl
  | cons v vs ih =>
    obtain ⟨name, t⟩ := v
    rw [varHashes, ih, List.map_cons]

/-- The only member writes what the type does. -/
theorem hashed_of_single (only : t.members = [m]) : t.hashed digest = m.hashed digest := by
  cases t with
  | union ts =>
    cases only
    rw [hashed]
  | _ =>
    cases only
    rfl

theorem hashed_of_several (several : ¬ ∃ m, ts = [m]) : (Ty.union ts).hashed digest =
    .tag 2 :: hashedMembers (ts.map fun t => digest (t.hashed digest)) := by
  rw [← memberHashes_eq]
  match ts with
  | [] => rw [hashed]; nofun
  | [m] => exact absurd ⟨m, rfl⟩ several
  | _ :: _ :: _ => rw [hashed]; nofun

/-- Types write the same if their members do where they are the same. -/
theorem hashed_of_members (left : t.Proper) (right : u.Proper) (same : t == u)
    (agree : ∀ m ∈ t.members, ∀ n ∈ u.members, m == n → m.hashed digest = n.hashed digest) :
    t.hashed digest = u.hashed digest := by
  obtain ⟨sizes, matched⟩ := (left.same_iff right).1 same
  by_cases single : ∃ m, t.members = [m]
  · obtain ⟨m, only⟩ := single
    rw [only] at sizes matched
    obtain ⟨n, only'⟩ := List.length_eq_one_iff.1 sizes.symm
    obtain ⟨k, there, same⟩ := matched m List.mem_cons_self
    obtain rfl : k = n := by simpa [only'] using there
    rw [hashed_of_single only, hashed_of_single only']
    exact agree m (by simp [only]) k there same
  · have several : ¬ ∃ n, u.members = [n] := by
      rintro ⟨n, only⟩
      rw [only] at sizes
      exact single (List.length_eq_one_iff.1 sizes)
    obtain ⟨zs, order, each⟩ := matched_perm (R := fun m n => m == n) t.members u.members
      left.members_different (Nat.le_of_eq sizes.symm) (fun m here m' here' n there same same' => by
        have turned := (left.members_proper m' here').symm (right.members_proper n there) same'
        exact (left.members_proper m here).trans (right.members_proper n there)
          (left.members_proper m' here') same turned) matched
    have hashes := map_eq_of_forall₂ (f := fun t : Ty => digest (t.hashed digest)) each
      fun m here n there same => by rw [agree m here n (order.mem_iff.1 there) same]
    obtain ⟨ts, rfl, -⟩ := collapse_many single
    obtain ⟨us, rfl, -⟩ := collapse_many several
    change ts.map _ = _ at hashes
    have single : ¬ ∃ m, ts = [m] := single
    have several : ¬ ∃ n, us = [n] := several
    rw [hashed_of_several single, hashed_of_several several, hashes,
      hashedMembers_perm (order.map _)]
    rfl

/-- The same types write the same into every hasher. -/
theorem hashed_of_same (left : t.Proper) (right : u.Proper) (same : t == u) :
    t.hashed digest = u.hashed digest := by
  induction left generalizing u with
  | simple s =>
    refine hashed_of_members (.simple s) right same fun m here n there same => ?_
    rw [List.mem_singleton.1 here] at same ⊢
    rw [(simple_same_iff (right.members_flat n there)).1 same]
  | object name vs once types ih =>
    refine hashed_of_members (.object name vs once types) right same fun m here n there same => ?_
    rw [List.mem_singleton.1 here] at same ⊢
    have proper := right.members_proper n there
    obtain ⟨ws, rfl, sizes, matched⟩ := (object_same_iff (right.members_flat n there)).1 same
    obtain ⟨zs, order, each⟩ := matched_perm
      (R := fun v w : String × Ty =>
        v.1 = w.1 ∧ digest (v.2.hashed digest) = digest (w.2.hashed digest)) vs ws
      ((List.pairwise_map.1 once).imp fun apart same => apart same.1) (Nat.le_of_eq sizes.symm)
      (fun v _ v' _ w _ first second =>
        ⟨first.1.trans second.1.symm, first.2.trans second.2.symm⟩)
      (fun v member => by
        obtain ⟨t, found, same⟩ := matched v member
        have there := mem_of_lookup found
        exact ⟨(v.1, t), there, rfl, by rw [ih v member (proper.vars_proper _ there) same]⟩)
    have hashes := map_eq_of_forall₂ (f := fun v : String × Ty => (v.1, digest (v.2.hashed digest)))
      each fun v _ w _ same => Prod.ext same.1 same.2
    rw [hashed, hashed, varHashes_eq, varHashes_eq, hashes, hashedVars_perm (order.map _)]
  | union ts flat types different ih =>
    refine hashed_of_members (.union ts flat types different) right same fun m here n there => ?_
    exact ih m here (right.members_proper n there)

end Hashes

end Ty

open Ty (Domain)

/-- A built type as an entry of a hash set: `digest` is the hash function for its parts and `finish`
the one for the whole. -/
structure HashedTy (digest finish : List HashWrite → UInt64) where
  type : Ty
  built : type.Built

namespace HashedTy

variable {digest finish : List HashWrite → UInt64}

instance : BEq (HashedTy digest finish) := ⟨fun a b => a.type == b.type⟩

instance : Hashable (HashedTy digest finish) := ⟨fun a => finish (a.type.hashed digest)⟩

theorem beq_iff_denote (M : Domain) {a b : HashedTy digest finish} :
    a == b ↔ M.denote a.type = M.denote b.type :=
  Domain.same_iff_denote a.built.proper b.built.proper

instance : EquivBEq (HashedTy digest finish) where
  rfl {a} := a.built.proper.refl
  symm {a b} same := a.built.proper.symm b.built.proper same
  trans {a b c} first second := a.built.proper.trans b.built.proper c.built.proper first second

instance : LawfulHashable (HashedTy digest finish) where
  hash_eq a b same := congrArg finish (Ty.hashed_of_same a.built.proper b.built.proper same)

section Sets

variable (M : Domain) (s : Std.HashSet (HashedTy digest finish))

/-- What the entries of a set mean. -/
def meanings : List (Finset (Ty.MemberMeaning M.Value)) := s.toList.map fun e => M.denote e.type

theorem meanings_nodup : (meanings M s).Nodup := by
  refine List.pairwise_map.2 (s.distinct_toList.imp fun differ same => ?_)
  rw [(beq_iff_denote M).2 same] at differ
  cases differ

theorem mem_iff_meanings (a : HashedTy digest finish) : a ∈ s ↔ M.denote a.type ∈ meanings M s := by
  rw [Std.HashSet.mem_iff_contains, ← Std.HashSet.contains_toList, List.contains_iff_exists_mem_beq,
    meanings, List.mem_map]
  refine exists_congr fun e => and_congr_right fun _ => ?_
  rw [beq_iff_denote M, eq_comm]

theorem mem_meanings {d : Finset (Ty.MemberMeaning M.Value)} :
    d ∈ meanings M s ↔ ∃ a ∈ s, M.denote a.type = d := by
  constructor
  · intro kept
    obtain ⟨a, listed, means⟩ := List.mem_map.1 kept
    exact ⟨a, Std.HashSet.mem_of_mem_toList listed, means⟩
  · rintro ⟨a, member, rfl⟩
    exact (mem_iff_meanings M s a).1 member

theorem mem_meanings_insertMany (types : List (HashedTy digest finish))
    {d : Finset (Ty.MemberMeaning M.Value)} : d ∈ meanings M (s.insertMany types) ↔
      d ∈ meanings M s ∨ ∃ t ∈ types, M.denote t.type = d := by
  rw [mem_meanings, mem_meanings]
  simp only [Std.HashSet.mem_insertMany_list, List.contains_iff_exists_mem_beq]
  constructor
  · rintro ⟨a, member | ⟨t, added, same⟩, means⟩
    · exact .inl ⟨a, member, means⟩
    · exact .inr ⟨t, added, ((beq_iff_denote M).1 same).symm.trans means⟩
  · rintro (⟨a, member, means⟩ | ⟨t, added, means⟩)
    · exact ⟨a, .inl member, means⟩
    · exact ⟨t, .inr ⟨t, added, BEq.rfl⟩, means⟩

end Sets

/-- A variable means what was bound to it last. Built types are the same exactly when they mean the
same, and then they write the same into every hasher. So the entries of a hash set mean different
things, it holds a type exactly when an entry means the same, and what is added is kept. -/
theorem sameness_is_meaning (M : Domain) (a b : HashedTy digest finish)
    (s : Std.HashSet (HashedTy digest finish)) (types : List (HashedTy digest finish)) :
    (∀ name x vs t, M.denote ((Ty.object name vs).withVar x t) =
      {.inr (name, (M.denoteVars vs).insert x (M.value (M.denote t)))}) ∧
    (a.type == b.type ↔ M.denote a.type = M.denote b.type) ∧
    (a.type == b.type → a.type.hashed digest = b.type.hashed digest) ∧
    (meanings M s).Nodup ∧ (a ∈ s ↔ M.denote a.type ∈ meanings M s) ∧
    ∀ d, d ∈ meanings M (s.insertMany types) ↔
      d ∈ meanings M s ∨ ∃ t ∈ types, M.denote t.type = d :=
  ⟨Domain.denote_withVar, beq_iff_denote M, Ty.hashed_of_same a.built.proper b.built.proper,
    meanings_nodup M s, mem_iff_meanings M s a, fun _ => mem_meanings_insertMany M s types⟩

end HashedTy

end TypedBlocks

import Mathlib.Algebra.BigOperators.Group.List.Basic
import Mathlib.Data.List.Forall2
import Mathlib.Data.List.Induction
import TypedBlocks.Program.Dispatch
import TypedBlocks.Proofs.BuiltTypes

/-!
# Choices of members

The arms of a call are counted before they are made. The count is the product of the numbers of
members, as far as numbers are told apart, and the arms are all choices of one member of each type:
none is missing, none comes twice, and they stand in the order of their members.
-/
namespace TypedBlocks

section Choices

variable {ts c : List Ty} {tss : List (List Ty)} {arms : List (List Ty)} {limit : Nat}

theorem mem_choices_iff : c ∈ choices tss ↔ List.Forall₂ (· ∈ ·) c tss := by
  induction tss generalizing c with
  | nil => simp [choices]
  | cons us tss ih =>
    simp only [choices, List.mem_flatMap, List.mem_map, List.forall₂_cons_right_iff, ih]
    constructor
    · rintro ⟨t, member, others, chosen, rfl⟩
      exact ⟨t, others, member, chosen, rfl⟩
    · rintro ⟨t, others, member, chosen, rfl⟩
      exact ⟨t, member, others, chosen, rfl⟩

/-- What holds of all that can be chosen holds of what is chosen. -/
theorem mem_choices {P : Ty → Prop} (each : ∀ ts ∈ tss, ∀ t ∈ ts, P t) :
    ∀ c ∈ choices tss, ∀ t ∈ c, P t := by
  intro c chosen
  have members : List.Forall₂ (fun ts t => (∀ t ∈ ts, P t) ∧ t ∈ ts) tss c :=
    (List.forall₂_and_left _ _).2 ⟨each, (mem_choices_iff.1 chosen).flip⟩
  have holds : List.Forall₂ (fun t ts => P t ∧ t ∈ ts) c tss :=
    members.flip.imp fun t _ inside => ⟨inside.1 t inside.2, inside.2⟩
  exact ((List.forall₂_and_left _ _).1 holds).1

/-- Every choice has as many elements as there are lists to choose from. -/
theorem choices_length (tss : List (List Ty)) : ∀ ts ∈ choices tss, ts.length = tss.length :=
  fun _ chosen => (mem_choices_iff.1 chosen).length_eq

theorem armsWithin_ok (expanded : armsWithin limit ts = .ok arms) :
    arms = choices (ts.map Ty.members) := by
  rw [armsWithin] at expanded
  split at expanded
  · cases expanded
  · exact (Except.ok.inj expanded).symm

/-- Each arm has one type for each operand. -/
theorem armsWithin_length (expanded : armsWithin limit ts = .ok arms) :
    ∀ arm ∈ arms, arm.length = ts.length := by
  intro arm member
  rw [armsWithin_ok expanded] at member
  rw [choices_length _ arm member, List.length_map]

/-- Where no list has two related elements, no two choices are related element by element: they come
from different elements of one of the lists. -/
theorem choices_apart {R : Ty → Ty → Prop} (apart : ∀ ts ∈ tss, ts.Pairwise fun t u => ¬ R t u) :
    (choices tss).Pairwise fun c d => ¬ List.Forall₂ R c d := by
  induction tss with
  | nil => exact List.pairwise_singleton _ _
  | cons us tss ih =>
    rw [List.forall_mem_cons] at apart
    rw [choices, List.pairwise_flatMap]
    constructor
    · intro t _
      rw [List.pairwise_map]
      exact (ih apart.2).imp fun different related => different (List.forall₂_cons.1 related).2
    · refine apart.1.imp fun different c first d second related => ?_
      obtain ⟨others, -, rfl⟩ := List.mem_map.1 first
      obtain ⟨others', -, rfl⟩ := List.mem_map.1 second
      exact different (List.forall₂_cons.1 related).1

/-- Choices of members of proper types are the same type by type only if they stand at one index. -/
theorem choices_distinct (proper : ∀ t ∈ ts, t.Proper) (i j : Nat) (c d : List Ty)
    (first : (choices (ts.map Ty.members))[i]? = some c)
    (second : (choices (ts.map Ty.members))[j]? = some d)
    (same : List.Forall₂ (· == ·) c d) : i = j := by
  -- Members are kept apart in one direction only, so the other one is added before the induction.
  have apart : ∀ ms ∈ ts.map Ty.members, ms.Pairwise fun m n => ¬ (m == n ∨ n == m) := by
    refine List.forall_mem_map.2 fun t member => ?_
    have members := (proper t member).members_proper
    refine (proper t member).members_different.imp_of_mem fun here there different => ?_
    rintro (same | same)
    · exact different same
    · exact different ((members _ there).symm (members _ here) same)
  have different := List.pairwise_iff_getElem.1 (choices_apart apart)
  obtain ⟨below, rfl⟩ := List.getElem?_eq_some_iff.1 first
  obtain ⟨below', rfl⟩ := List.getElem?_eq_some_iff.1 second
  rcases Nat.lt_trichotomy i j with before | here | after
  · exact (different i j below below' before (same.imp fun _ _ => .inl)).elim
  · exact here
  · exact (different j i below' below after (same.flip.imp fun _ _ => .inr)).elim

end Choices

section Rounds

variable {ts : List Ty} {t : Ty}

/-- Every arm so far goes on with every member of one more type. -/
def extendArms (arms : List (List Ty)) (t : Ty) : List (List Ty) :=
  arms.flatMap fun arm => t.members.map fun m => arm ++ [m]

theorem choices_concat (tss : List (List Ty)) :
    choices (tss ++ [t.members]) = extendArms (choices tss) t := by
  induction tss with
  | nil => simp [choices, extendArms, List.map_eq_flatMap]
  | cons us tss ih =>
    rw [List.cons_append, choices, choices, ih]
    simp only [extendArms, List.flatMap_assoc, List.map_flatMap, List.flatMap_map, List.map_map]
    rfl

/-- The choices can be made in rounds, one for each type. -/
theorem choices_eq_rounds (ts : List Ty) : choices (ts.map Ty.members) = ts.foldl extendArms [[]] := by
  induction ts using List.reverseRecOn with
  | nil => rfl
  | append_singleton ts t ih =>
    rw [List.map_append, List.map_singleton, choices_concat, ih, List.foldl_append]
    rfl

/-- The number of ways to choose one member of each type. -/
def choiceCount (ts : List Ty) : Nat := (ts.map fun t => t.members.length).prod

theorem choiceCount_concat : choiceCount (ts ++ [t]) = choiceCount ts * t.members.length := by
  simp [choiceCount]

theorem length_extendArms (arms : List (List Ty)) :
    (extendArms arms t).length = arms.length * t.members.length := by
  simp [extendArms, List.length_flatMap]

theorem length_rounds (ts : List Ty) : (ts.foldl extendArms [[]]).length = choiceCount ts := by
  induction ts using List.reverseRecOn with
  | nil => rfl
  | append_singleton ts t ih =>
    rw [List.foldl_append, List.foldl_cons, List.foldl_nil, length_extendArms, ih, choiceCount_concat]

theorem countArms_concat :
    countArms (ts ++ [t]) = min mostArms (countArms ts * t.members.length) := by
  simp [countArms]

/-- A product is capped in the same way if a factor has been capped before. -/
theorem min_mul_min (most a b : Nat) : min most (min most a * b) = min most (a * b) := by
  rcases Nat.eq_zero_or_pos b with rfl | positive
  · simp
  · rcases Nat.le_total a most with below | above
    · rw [Nat.min_eq_right below]
    · have first : most ≤ most * b := Nat.le_mul_of_pos_right most positive
      have second : most * b ≤ a * b := Nat.mul_le_mul_right b above
      rw [Nat.min_eq_left above]
      omega

/-- The count of the arms is their number, as far as numbers are told apart. -/
theorem countArms_eq (ts : List Ty) : countArms ts = min mostArms (choiceCount ts) := by
  induction ts using List.reverseRecOn with
  | nil => decide
  | append_singleton ts t ih =>
    rw [countArms_concat, ih, min_mul_min, choiceCount_concat]

/-- A type without members ends all arms, however many there are before it. -/
example : countArms (List.replicate 64 (.union [.int, .nil])) = mostArms ∧
    countArms (List.replicate 64 (.union [.int, .nil]) ++ [.union []]) = 0 := by decide +kernel

end Rounds

section Places

variable {ts c : List Ty} {t m : Ty} {sizes is : List Nat} {i : Nat}

/-- All lists of numbers below the sizes. -/
def placesWithin : List Nat → List (List Nat)
  | [] => [[]]
  | n :: sizes => (List.range n).flatMap fun i => (placesWithin sizes).map (i :: ·)

theorem mem_placesWithin : is ∈ placesWithin sizes ↔ List.Forall₂ (· < ·) is sizes := by
  induction sizes generalizing is with
  | nil => simp [placesWithin]
  | cons n sizes ih =>
    simp only [placesWithin, List.mem_flatMap, List.mem_map, List.mem_range,
      List.forall₂_cons_right_iff, ih]
    constructor
    · rintro ⟨i, below, others, within, rfl⟩
      exact ⟨i, others, below, within, rfl⟩
    · rintro ⟨i, others, below, within, rfl⟩
      exact ⟨i, below, others, within, rfl⟩

/-- The lists of numbers ascend lexicographically. -/
theorem placesWithin_ascending (sizes : List Nat) : (placesWithin sizes).Pairwise (· < ·) := by
  induction sizes with
  | nil => exact List.pairwise_singleton _ _
  | cons n sizes ih =>
    rw [placesWithin, List.pairwise_flatMap]
    constructor
    · intro i _
      rw [List.pairwise_map]
      exact ih.imp fun before => List.cons_lt_cons_iff.2 (.inr ⟨rfl, before⟩)
    · refine List.pairwise_lt_range.imp fun before is first js second => ?_
      obtain ⟨others, -, rfl⟩ := List.mem_map.1 first
      obtain ⟨others', -, rfl⟩ := List.mem_map.1 second
      exact List.cons_lt_cons_iff.2 (.inl before)

/-- The arm takes from each type the member at its place. -/
def StandsAt (ts : List Ty) (is : List Nat) (arm : List Ty) : Prop :=
  List.zipWith (fun t i => t.members[i]?) ts is = arm.map some

theorem StandsAt.cons (here : t.members[i]? = some m) (rest : StandsAt ts is c) :
    StandsAt (t :: ts) (i :: is) (m :: c) := by
  rw [StandsAt, List.zipWith_cons_cons, List.map_cons, here, rest]

theorem range_places (ms : List Ty) :
    List.Forall₂ (fun i m => ms[i]? = some m) (List.range ms.length) ms := by
  refine List.forall₂_iff_get.2 ⟨List.length_range, fun i _ there => ?_⟩
  simp

/-- The choices take the members at all places in turn. -/
theorem choices_standAt (ts : List Ty) : List.Forall₂ (StandsAt ts)
    (placesWithin (ts.map fun t => t.members.length)) (choices (ts.map Ty.members)) := by
  induction ts with
  | nil => exact .cons rfl .nil
  | cons t ts ih =>
    refine List.rel_flatMap (range_places t.members) fun i m here => ?_
    exact List.rel_map (fun _ _ rest => StandsAt.cons here rest) ih

end Places

/-- The arms are all choices of one member of each type, in order. -/
structure AllChoices (ts : List Ty) (arms : List (List Ty)) : Prop where
  complete : ∀ arm, arm ∈ arms ↔ List.Forall₂ (fun m t => m ∈ t.members) arm ts
  /-- Arms that are the same type by type are one. -/
  distinct : (∀ t ∈ ts, t.Built) → ∀ (i j : Nat) (arm arm' : List Ty),
    arms[i]? = some arm → arms[j]? = some arm' → List.Forall₂ (· == ·) arm arm' → i = j
  /-- The places of their members are all that there are, and ascend lexicographically. -/
  ordered : ∃ places : List (List Nat), places.Pairwise (· < ·) ∧
    (∀ is, is ∈ places ↔ List.Forall₂ (fun i t => i < t.members.length) is ts) ∧
    List.Forall₂ (StandsAt ts) places arms
  /-- They are what rounds make that add one type each. -/
  rounds : arms = ts.foldl extendArms [[]]

theorem choices_all (ts : List Ty) : AllChoices ts (choices (ts.map Ty.members)) where
  complete arm := by rw [mem_choices_iff, List.forall₂_map_right_iff]
  distinct built := choices_distinct fun t member => (built t member).proper
  ordered := by
    refine ⟨_, placesWithin_ascending _, fun is => ?_, choices_standAt ts⟩
    rw [mem_placesWithin, List.forall₂_map_right_iff]
  rounds := choices_eq_rounds ts

/-- Types expand into as many arms as there are choices of their members, and these are all of them in
order, or they fail with that number if it exceeds the limit; no types make one arm without types. -/
theorem armsWithin_all_choices {limit : Nat} (small : limit < mostArms) (ts : List Ty) :
    (limit < min mostArms (choiceCount ts) →
      armsWithin limit ts = .error (min mostArms (choiceCount ts))) ∧
    (min mostArms (choiceCount ts) ≤ limit → ∃ arms, armsWithin limit ts = .ok arms ∧
      arms.length = min mostArms (choiceCount ts) ∧ AllChoices ts arms) ∧
    armsWithin limit [] = if limit = 0 then .error 1 else .ok [[]] := by
  refine ⟨fun exceeded => ?_, fun within => ?_, ?_⟩
  · rw [armsWithin, countArms_eq, if_pos exceeded]
  · refine ⟨choices (ts.map Ty.members), ?_, ?_, choices_all ts⟩
    · rw [armsWithin, countArms_eq, if_neg (Nat.not_lt.2 within)]
    · -- The cap lies above the limit, so a number within the limit has not been capped.
      rw [choices_eq_rounds, length_rounds]
      omega
  · cases limit <;> simp [armsWithin, countArms, choices]

/-- A number, nil or a text, and a character. -/
def mixedOperands : List Ty := [.unionOf [.int, .float], .unionOf [.nil, .string], .char]

theorem mixedOperands_choices : 64 < mostArms ∧ (∀ t ∈ mixedOperands, t.Built) ∧
    (∃ arms, armsWithin 64 mixedOperands = .ok arms ∧ arms.length = 4 ∧
      AllChoices mixedOperands arms) ∧ armsWithin 3 mixedOperands = .error 4 := by
  have small : 64 < mostArms := by decide
  have smaller : 3 < mostArms := by decide
  have count : min mostArms (choiceCount mixedOperands) = 4 := by decide
  have built : ∀ t ∈ mixedOperands, t.Built := by
    have either {s s' : SimpleTy} : (Ty.unionOf [.simple s, .simple s']).Built :=
      .unionOf (by simp [Ty.Built.simple])
    simpa [mixedOperands] using ⟨either, either, .simple _⟩
  have expands := (armsWithin_all_choices small mixedOperands).2.1
  have fails := (armsWithin_all_choices smaller mixedOperands).1
  rw [count] at expands fails
  exact ⟨small, built, expands (by decide), fails (by decide)⟩

end TypedBlocks
